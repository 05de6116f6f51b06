import HttpRouting.Proofs.Passage

namespace HttpRouting

variable {σ : Type}

namespace Dictionary

variable {κ α : Type} [Ord κ] [Std.TransOrd κ]

theorem find?_insertIfNew [Std.LawfulEqOrd κ] (d : Dictionary κ α) (k k' : κ) (v : α) :
    (d.insertIfNew k v).find? k' =
      (d.find? k').or (if compare k' k = .eq then some v else none) := by
  rw [insertIfNew, contains]
  cases present : d.find? k with
  | none =>
    rw [Option.isSome_none, if_neg Bool.false_ne_true, find?_insert]
    by_cases same : k' = k
    · simp [same, present]
    · simp [same]
  | some v' =>
    rw [Option.isSome_some, if_pos rfl]
    by_cases same : k' = k
    · rw [same, present, Option.some_or]
    · simp [same]

theorem find?_foldl_insertIfNew [Std.LawfulEqOrd κ] (entries : List (κ × α)) (d : Dictionary κ α)
    (k : κ) : (entries.foldl (fun d e => d.insertIfNew e.1 e.2) d).find? k =
      (d.find? k).or (lookup k entries) := by
  induction entries generalizing d with
  | nil => rw [lookup, Option.or_none]; rfl
  | cons e entries ih =>
    rw [List.foldl_cons, ih, find?_insertIfNew, lookup, Option.or_assoc]
    congr 1
    split <;> rfl

end Dictionary

namespace Dispatcher

theorem dispatch_of_refused {d : Dispatcher σ} {request filled : Request}
    {route : CompiledRoute σ} (resolved : d.resolve request = (some route, filled))
    (refused : route.chainFor? filled.method = none) (w : World σ) :
    d.dispatch request w = (.ok (notAllowed route), d.emit filled w.clock w) := by
  rw [dispatch, resolved]
  simp only [refused]

theorem Holds.mem_of_find? {d : Dispatcher σ} {routes : List (CompiledRoute σ)}
    (h : d.Holds routes) {key : Bytes} {route : CompiledRoute σ}
    (found : d.find? key = some route) : route ∈ routes ∧ route.entry.urlPath = key := by
  rw [find?, h.found] at found
  obtain ⟨r, hr, same⟩ := List.mem_map.mp (mem_of_latest found)
  obtain ⟨keyed, rfl⟩ := Prod.mk.inj same
  exact ⟨hr, keyed⟩

theorem Holds.urlPath_of_find? {d : Dispatcher σ} {routes : List (CompiledRoute σ)}
    (h : d.Holds routes) {key : Bytes} {route : CompiledRoute σ}
    (found : d.find? key = some route) : route.entry.urlPath = key :=
  (h.mem_of_find? found).2

/-- The handler for a key answers from the route: a method that the route has no chain for is
refused, and for any other one its chain answers. -/
structure ServesOwn (d : Dispatcher σ) (key : Bytes) (route : CompiledRoute σ) (request : Request) :
    Prop where
  resolved : (d.resolve { request with route := key }).1 = some route
  refused : route.chainFor? request.method = none → ∀ w,
    d.handlerFor key request w = (.ok (notAllowed route), d.emit request w.clock w)
  served : ∀ chain, route.chainFor? request.method = some chain → ∀ w,
    d.handlerFor key request w = d.finish w.clock (chain.runOn (route.context
      (d.resolve { request with route := key }).2 d.config.splitQueryArrays) w)

theorem resolve_method_path (d : Dispatcher σ) (request : Request) :
    (d.resolve request).2.method = request.method ∧ (d.resolve request).2.path = request.path := by
  rw [resolve]
  split
  · exact ⟨rfl, rfl⟩
  · split <;> exact ⟨rfl, rfl⟩

theorem servesOwn_iff {d : Dispatcher σ} {key : Bytes} {route : CompiledRoute σ}
    {request : Request} : d.ServesOwn key route request ↔
      (d.resolve { request with route := key }).1 = some route := by
  constructor
  · exact ServesOwn.resolved
  · intro resolved
    have whole : d.resolve { request with route := key } =
        (some route, (d.resolve { request with route := key }).2) := Prod.ext resolved rfl
    obtain ⟨method, path⟩ := d.resolve_method_path { request with route := key }
    refine ⟨resolved, fun refused w => ?_, fun chain served w => ?_⟩
    · rw [handlerFor, dispatch_of_refused whole (by rw [method, refused]), emit, emit, method, path]
    · rw [handlerFor, dispatch_of_resolve whole (by rw [method, served])]

theorem resolve_of_key (d : Dispatcher σ) (request : Request) {key : Bytes} (named : key ≠ []) :
    d.resolve { request with route := key } = (d.find? key, { request with route := key }) :=
  if_pos named

theorem resolve_of_path (d : Dispatcher σ) {request : Request} (unrouted : request.route = []) :
    d.resolve request = match d.match? request.path with
      | none => (none, request)
      | some found => (d.find? found.key, fillParams request found.params) :=
  if_neg (Decidable.not_not.mpr unrouted)

theorem find?_fillParams (request : Request) (params : RawParams) (name : Bytes) :
    (fillParams request params).params.find? name =
      (request.params.find? name).or (params.find? name) :=
  Dictionary.find?_foldl_insertIfNew params.entries request.params name

end Dispatcher

open Dispatcher

theorem handlerFor_servesOwn_iff (d : Dispatcher σ) (root : Router σ) (w : World σ) {key : Bytes}
    {route : CompiledRoute σ} (stored : (d.mount root w).dispatcher.find? key = some route)
    (request : Request) :
    (d.mount root w).dispatcher.ServesOwn key route request ↔
      key ≠ [] ∨ ∃ m, (d.mount root w).dispatcher.match? request.path = some m ∧ m.key = [] := by
  rw [servesOwn_iff]
  by_cases named : key = []
  · subst named
    rw [resolve_of_path _ rfl]
    constructor
    · intro resolved
      right
      cases matched : (d.mount root w).dispatcher.match? request.path with
      | none =>
        simp only [matched] at resolved
        cases resolved
      | some m =>
        simp only [matched] at resolved
        have keyed := (d.holds_mount root w).urlPath_of_find? resolved
        have blank := (d.holds_mount root w).urlPath_of_find? stored
        exact ⟨m, rfl, keyed.symm.trans blank⟩
    · rintro (named | ⟨m, matched, blank⟩)
      · exact absurd rfl named
      · simp only [matched, blank]
        exact stored
  · rw [resolve_of_key _ _ named]
    exact ⟨fun _ => .inl named, fun _ => stored⟩

def rooted : List (Call Unit) :=
  [.path 0 [], .path 1 (ascii "/<x>"), .handle 0 .get (some (plainHandler 0)),
    .handle 1 .get (some (plainHandler 1)), .nest 0 [some 1]]

def serving (root : Router Unit) : Dispatcher Unit :=
  (({ sink := some logSink } : Dispatcher Unit).mount root { state := () }).dispatcher

theorem handlerFor_servesOwn_iff_rooted :
    ∃ root route, (Forest.nil.after rooted).find? 0 = some root ∧
      (serving root).find? [] = some route ∧
      ((serving root).ServesOwn [] route { path := ascii "/" } ↔
        [] ≠ ([] : Bytes) ∨ ∃ m, (serving root).match? (ascii "/") = some m ∧ m.key = []) := by
  have stored : ((Forest.nil.after rooted).find? 0).any
      (fun root => ((serving root).find? []).isSome) = true := by decide +kernel
  rw [Option.any_eq_true] at stored
  obtain ⟨root, found, stored⟩ := stored
  obtain ⟨route, stored⟩ := Option.isSome_iff_exists.mp stored
  exact ⟨root, route, found, stored, handlerFor_servesOwn_iff _ root _ stored _⟩

theorem handlerFor_blank_misses :
    ∃ root route, (Forest.nil.after rooted).find? 0 = some root ∧
      (serving root).find? [] = some route ∧ (route.chainFor? .get).isSome ∧
      ((serving root).handlerFor [] { path := ascii "/a/b" } { state := () }).1.toOption =
        some notFound ∧
      ¬ (serving root).ServesOwn [] route { path := ascii "/a/b" } := by
  have missed : (((Forest.nil.after rooted).find? 0).any fun root =>
      ((serving root).find? []).any fun route => (route.chainFor? .get).isSome &&
        decide (((serving root).handlerFor [] { path := ascii "/a/b" }
          { state := () }).1.toOption = some notFound) &&
        ((serving root).resolve { path := ascii "/a/b" }).1.isNone) = true := by decide +kernel
  rw [Option.any_eq_true] at missed
  obtain ⟨root, found, missed⟩ := missed
  rw [Option.any_eq_true] at missed
  obtain ⟨route, stored, missed⟩ := missed
  rw [Bool.and_eq_true, Bool.and_eq_true, decide_eq_true_eq, Option.isNone_iff_eq_none] at missed
  obtain ⟨⟨served, answer⟩, unresolved⟩ := missed
  refine ⟨root, route, found, stored, served, answer, fun serves => ?_⟩
  cases unresolved.symm.trans serves.resolved

def Context.withRoute (c : Context) (route : Bytes) : Context := { c with request.route := route }

def Exchange.withRoute (x : Exchange σ) (route : Bytes) : Exchange σ :=
  { x with context := x.context.withRoute route }

/-- What a stage answers, and all that it leaves but the key of the route, does not depend on the
key of the route that it is given. -/
def Stage.IgnoresRoute (s : Stage σ) : Prop :=
  ∀ x route, (s (x.withRoute route)).1 = (s x).1 ∧
    ∃ route', (s (x.withRoute route)).2 = (s x).2.withRoute route'

namespace Dispatcher

variable {d : Dispatcher σ} {m : RouteMatch}

theorem finish_withRoute (d : Dispatcher σ) (started : Nat) (r : Except Fault Response)
    (x : Exchange σ) (route : Bytes) :
    d.finish started (r, x.withRoute route) = d.finish started (r, x) := by
  cases r <;> rfl

theorem finish_of_ignoresRoute {chain : Stage σ} (ignores : chain.IgnoresRoute) (started : Nat)
    (context : Context) (route : Bytes) (w : World σ) :
    d.finish started (chain.runOn (context.withRoute route) w) =
      d.finish started (chain.runOn context w) := by
  obtain ⟨answer, route', left⟩ := ignores ⟨context, w⟩ route
  have run : chain.runOn (context.withRoute route) w =
      ((chain.runOn context w).1, (chain.runOn context w).2.withRoute route') :=
    Prod.ext answer left
  rw [run, finish_withRoute]

theorem find?_of_match? {path : Bytes} (matched : d.match? path = some m) :
    ∃ route, d.find? m.key = some route := by
  rw [match?_eq, Option.bind_eq_some_iff] at matched
  obtain ⟨hit, -, found⟩ := matched
  obtain ⟨route, routed, rfl⟩ := Option.map_eq_some_iff.mp found
  exact ⟨route, routed⟩

theorem fillParams_eq {request : Request} {captured params : RawParams}
    (extended : ∀ name,
      params.find? name = (request.params.find? name).or (captured.find? name)) :
    fillParams request captured = { request with params } := by
  have same : (fillParams request captured).params = params :=
    Dictionary.ext_find? fun name =>
      (find?_fillParams request captured name).trans (extended name).symm
  rw [← same]
  rfl

theorem resolve_filled {request : Request} (matched : d.match? request.path = some m)
    {params : RawParams}
    (extended : ∀ name,
      params.find? name = (request.params.find? name).or (m.params.find? name)) :
    d.resolve { request with params, route := m.key } =
      (d.find? m.key, { request with params, route := m.key }) := by
  by_cases named : m.key = []
  · have kept : fillParams { request with params, route := m.key } m.params =
        { request with params, route := m.key } := by
      apply fillParams_eq
      intro name
      rw [extended, Option.or_assoc, Option.or_self]
    have unrouted : ({ request with params, route := m.key } : Request).route = [] := named
    rw [resolve_of_path d unrouted]
    simp only [matched, kept]
  · exact resolve_of_key d { request with params } named

end Dispatcher

theorem handlerFor_agrees_dispatch (d : Dispatcher σ) {request : Request}
    (unrouted : request.route = []) {m : RouteMatch} (matched : d.match? request.path = some m)
    {params : RawParams}
    (extended : ∀ name,
      params.find? name = (request.params.find? name).or (m.params.find? name)) :
    ∃ route context, d.find? m.key = some route ∧
      (d.resolve request).1 = some route ∧
      (d.resolve { request with params, route := m.key }).1 = some route ∧
      context = route.context { request with params } d.config.splitQueryArrays ∧
      (route.chainFor? request.method = none → ∀ w,
        d.dispatch request w = (.ok (notAllowed route), d.emit request w.clock w) ∧
        d.handlerFor m.key { request with params } w =
          (.ok (notAllowed route), d.emit request w.clock w)) ∧
      ∀ chain, route.chainFor? request.method = some chain →
        (∀ w, d.dispatch request w = d.finish w.clock (chain.runOn context w) ∧
          d.handlerFor m.key { request with params } w =
            d.finish w.clock (chain.runOn (context.withRoute m.key) w)) ∧
        (chain.IgnoresRoute → ∀ w,
          d.handlerFor m.key { request with params } w = d.dispatch request w) := by
  obtain ⟨route, stored⟩ := find?_of_match? matched
  have byPath : d.resolve request = (some route, { request with params }) := by
    rw [resolve_of_path d unrouted]
    simp only [matched, stored, fillParams_eq extended]
  have byKey := resolve_filled matched extended
  rw [stored] at byKey
  refine ⟨route, _, stored, congrArg Prod.fst byPath, congrArg Prod.fst byKey, rfl, ?_, ?_⟩
  · intro refused w
    exact ⟨dispatch_of_refused byPath refused w, dispatch_of_refused byKey refused w⟩
  · intro chain served
    have runs (w : World σ) := And.intro (dispatch_of_resolve byPath served w)
      (dispatch_of_resolve byKey served w)
    refine ⟨runs, fun ignores w => ?_⟩
    rw [(runs w).1, ← finish_of_ignoresRoute ignores w.clock _ m.key w]
    exact (runs w).2

def echoing (name : Bytes) : Handler Unit where
  ident := 0
  isAsync := false
  stage x := match x.context.param? name with
    | some (.string text) => (.ok { body := text }, x)
    | _ => (.error (.failure name), x)

def echo : Router Unit where
  ident := 0
  template :=
    { source := ascii "/<x>", urlPath := ascii "/<x>", queryPath := []
      pathParams := Dictionary.ofList [(ascii "x", { name := ascii "x", types := [.string] })]
      queryParams := ∅, segments := [.param (ascii "x")] }
  handlers := Dictionary.ofList [(.get, echoing (ascii "x"))]

theorem echoing_ignoresRoute (name : Bytes) : (echoing name).stage.IgnoresRoute := by
  intro x route
  have same : (x.withRoute route).context.param? name = x.context.param? name := rfl
  simp only [echoing, same]
  split <;> exact ⟨rfl, route, rfl⟩

theorem handlerFor_agrees_dispatch_echo :
    ∃ m params, (serving echo).match? (ascii "/b") = some m ∧
      params.entries = [(ascii "x", ascii "b")] ∧
      (∀ w, (serving echo).handlerFor m.key { path := ascii "/b", params } w =
        (serving echo).dispatch { path := ascii "/b" } w) ∧
      ((serving echo).dispatch { path := ascii "/b" } { state := () }).1.toOption.map (·.body) =
        some (ascii "b") ∧
      ((serving echo).handlerFor m.key { path := ascii "/b", params }
        { logger := { level := .info }, clock := 7, state := () }).2.logger.written =
          [⟨.info, ascii "[Dispatch] GET /b 0.000ms"⟩] := by
  have keyed : ((serving echo).match? (ascii "/b")).map (fun m =>
      (m.key, (fillParams { path := ascii "/b" } m.params).params.entries)) =
        some (ascii "/<x>", [(ascii "x", ascii "b")]) := by
    decide +kernel
  obtain ⟨m, matched, keyed⟩ := Option.map_eq_some_iff.mp keyed
  obtain ⟨key, filled⟩ := Prod.mk.inj keyed
  obtain ⟨route, context, stored, -, -, -, -, served⟩ :=
    handlerFor_agrees_dispatch (serving echo)
      (rfl : ({ path := ascii "/b" } : Request).route = []) matched
      (find?_fillParams { path := ascii "/b" } m.params)
  have chain : ((serving echo).find? (ascii "/<x>")).bind (·.chainFor? .get) =
      some (echoing (ascii "x")).stage := rfl
  rw [← key, stored] at chain
  have same := (served _ chain).2 (echoing_ignoresRoute _)
  refine ⟨m, _, matched, filled, same, by decide +kernel, ?_⟩
  rw [same]
  decide +kernel

end HttpRouting
