import HttpRouting.Proofs.Chains
import HttpRouting.Proofs.Matching

namespace HttpRouting

variable {σ : Type}

inductive Visit
  | entered (middleware : Nat)
  | handled (handler : Nat)
  | left (middleware : Nat)
deriving DecidableEq

/-- A way to answer that calls what is behind it once: what it does before, and what it makes of
the outcome. -/
structure Layer (σ : Type) where
  enter : Exchange σ → Exchange σ
  leave : Exchange σ → Except Fault Response → Exchange σ → Except Fault Response × Exchange σ

namespace Layer

def run (l : Layer σ) (next : Stage σ) : Stage σ := fun x =>
  l.leave x (next (l.enter x)).1 (next (l.enter x)).2

def stack : List (Layer σ) → Stage σ → Stage σ
  | [], terminal => terminal
  | l :: layers, terminal => l.run (stack layers terminal)

theorem stack_cons (l : Layer σ) (layers : List (Layer σ)) (terminal : Stage σ) (x : Exchange σ) :
    stack (l :: layers) terminal x =
      l.leave x (stack layers terminal (l.enter x)).1 (stack layers terminal (l.enter x)).2 := rfl

def AllReturn : List (Layer σ) → Stage σ → Exchange σ → Prop
  | [], _, _ => True
  | l :: layers, terminal, x =>
    (stack (l :: layers) terminal x).1.isOk ∧ AllReturn layers terminal (l.enter x)

structure Records (l : Layer σ) (trace : World σ → List Visit) (ident : Nat) : Prop where
  enter : ∀ x, trace (l.enter x).world = trace x.world ++ [.entered ident]
  leave : ∀ x r y, (l.leave x r y).1.isOk →
    trace (l.leave x r y).2.world = trace y.world ++ [.left ident]

end Layer

open Middleware Router

inductive Layered (trace : World σ → List Visit) : List (Middleware σ) → List (Layer σ) → Prop
  | nil : Layered trace [] []
  | cons {m : Middleware σ} {ms : List (Middleware σ)} {l : Layer σ} {layers : List (Layer σ)}
      (made : m.Makes l.run) (records : l.Records trace m.ident) (rest : Layered trace ms layers) :
      Layered trace (m :: ms) (l :: layers)

theorem Middleware.Built.layered {trace : World σ → List Visit} {ms : List (Middleware σ)}
    {terminal stage : Stage σ} (h : Built terminal ms stage)
    (layer : ∀ m ∈ ms, ∀ run, m.Makes run → ∃ l : Layer σ, run = l.run ∧ l.Records trace m.ident) :
    ∃ layers, Layered trace ms layers ∧ stage = Layer.stack layers terminal := by
  induction h with
  | nil => exact ⟨[], .nil, rfl⟩
  | @cons m ms run inner made rest ih =>
    obtain ⟨layers, layered, rfl⟩ := ih fun m' hm => layer m' (List.mem_cons_of_mem _ hm)
    obtain ⟨l, rfl, records⟩ := layer m List.mem_cons_self run made
    exact ⟨l :: layers, .cons made records layered, rfl⟩

theorem Layered.trace_stack {trace : World σ → List Visit} {ms : List (Middleware σ)}
    {layers : List (Layer σ)} (h : Layered trace ms layers) {handler : Handler σ}
    (handled : ∀ x, trace (handler.stage x).2.world = trace x.world ++ [.handled handler.ident])
    {x : Exchange σ} (returns : Layer.AllReturn layers handler.stage x) :
    trace (Layer.stack layers handler.stage x).2.world =
      trace x.world ++ ms.map (fun m => .entered m.ident) ++
        .handled handler.ident :: (ms.map fun m => .left m.ident).reverse := by
  induction h generalizing x with
  | nil => rw [List.map_nil, List.append_nil]; exact handled x
  | @cons m ms l layers made records rest ih =>
    obtain ⟨normal, inner⟩ := returns
    have left := records.leave x (Layer.stack layers handler.stage (l.enter x)).1
      (Layer.stack layers handler.stage (l.enter x)).2 normal
    rw [Layer.stack_cons, left, ih inner, records.enter]
    simp only [List.map_cons, List.reverse_cons, List.append_assoc, List.cons_append,
      List.nil_append]

theorem Layered.allReturn {trace : World σ → List Visit} {ms : List (Middleware σ)}
    {layers : List (Layer σ)} (h : Layered trace ms layers) {terminal : Stage σ}
    (passing : ∀ m ∈ ms, ∀ run, m.Makes run → ∀ next : Stage σ, (∀ x, (next x).1.isOk) →
      ∀ x, (run next x).1.isOk)
    (answers : ∀ x, (terminal x).1.isOk) (x : Exchange σ) : Layer.AllReturn layers terminal x := by
  have returns : (∀ x, (Layer.stack layers terminal x).1.isOk) ∧
      ∀ x, Layer.AllReturn layers terminal x := by
    induction h with
    | nil => exact ⟨answers, fun _ => trivial⟩
    | @cons m ms l layers made _ _ ih =>
      obtain ⟨inner, all⟩ := ih fun m' hm => passing m' (List.mem_cons_of_mem _ hm)
      have outer := passing m List.mem_cons_self l.run made _ inner
      exact ⟨outer, fun x => ⟨outer x, all _⟩⟩
  exact returns.2 x

section

open Forest

variable {calls : List (Call σ)} {f : Forest σ} {id : Nat} {root : Router σ} {children : Forest σ}

theorem mem_entriesOf_iff (hf : f.Reached calls) (found : f.tree? id = some (root, children))
    (paths : ((cons root children nil).lines.map spell).Nodup) {e : Entry σ} :
    e ∈ Dispatcher.entriesOf root ↔
      ∃ line ∈ (cons root children nil).lines, e = Entry.along line := by
  constructor
  · intro he
    rcases mem_entriesOf hf found he with ⟨served, rfl⟩ | ⟨line, hl, rfl, -⟩
    · refine ⟨[root.bare], mem_lines_cons.mpr (.inl ⟨served, rfl⟩), ?_⟩
      rw [along_bare, ownEntry_eq_along]
    · refine ⟨root.bare :: line, mem_lines_cons.mpr (.inr (.inl ⟨line, hl, rfl⟩)), ?_⟩
      rw [along_bare]
  · rintro ⟨line, hl, rfl⟩
    rw [Dispatcher.entriesOf, List.mem_append]
    rcases mem_lines_cons.mp hl with ⟨served, rfl⟩ | ⟨rest, hr, rfl⟩ | hl
    · left
      rw [if_neg (by simp [served]), List.mem_singleton, along_bare, ownEntry_eq_along]
    · right
      obtain ⟨current, -⟩ := current_tree hf.current found
      obtain ⟨e, bound⟩ := Option.isSome_iff_exists.mp (current.covers rest hr)
      obtain ⟨rest', hr', spelled, rfl⟩ := current.fresh _ e bound
      have hl' : root.bare :: rest' ∈ (cons root children nil).lines :=
        mem_lines_cons.mpr (.inr (.inl ⟨rest', hr', rfl⟩))
      have same := eq_of_nodup_map paths hl' hl (by rw [spell_cons, spelled, spell_cons])
      rw [same.symm, along_bare]
      exact List.mem_map.mpr ⟨_, Dictionary.mem_entries_iff.mpr bound, rfl⟩
    · cases hl

theorem middlewares_along (hf : f.Reached calls) (found : f.tree? id = some (root, children))
    {line : List (Router σ)} (hl : line ∈ (cons root children nil).lines) :
    (Entry.along line).middlewares = line.flatMap fun r => calls.flatMap (Call.added r.ident) := by
  have declared : ∀ r ∈ line, r.middlewares = calls.flatMap (Call.added r.ident) := by
    intro r hr
    exact hf.middlewares r ((routers_of_tree found).2.subset (mem_routers_of_line hl r hr))
  change line.flatMap (·.middlewares) = _
  rw [List.flatMap_def, List.flatMap_def, List.map_congr_left declared]

theorem find?_of_preferred (hf : f.Reached calls) (found : f.tree? id = some (root, children))
    (shapes : ((cons root children nil).lines.map
      fun line => shape (Entry.along line).segments).Nodup)
    (paths : ((cons root children nil).lines.map spell).Nodup)
    {d : Dispatcher σ} {w : World σ} (mounted : (d.mount root w).fault = none) {path : Bytes}
    {line : List (Router σ)} (hl : line ∈ (cons root children nil).lines)
    (full : [] ∉ splitPath (d.config.reading path))
    (fits : Fits (Entry.along line).segments (splitPath (d.config.reading path)))
    (preferred : ∀ line' ∈ (cons root children nil).lines,
      Fits (Entry.along line').segments (splitPath (d.config.reading path)) →
        shape (Entry.along line).segments = shape (Entry.along line').segments ∨
          Preferred (shape (Entry.along line).segments) (shape (Entry.along line').segments)) :
    ∃ m route, (d.mount root w).dispatcher.match? path = some m ∧
      (d.mount root w).dispatcher.find? m.key = some route ∧ route.entry = Entry.along line ∧
      ∃ v v', route.entry.compile v = (.ok route, v') := by
  have holds := d.holds_mount root w
  have config : (d.mount root w).dispatcher.config = d.config := d.config_mount root w
  have entries : (d.mountedRoutes root w).map (·.entry) = Dispatcher.entriesOf root :=
    Dispatcher.mountedEntries_eq mounted
  have listed {r : CompiledRoute σ} (hr : r ∈ d.mountedRoutes root w) :
      ∃ line ∈ (cons root children nil).lines, r.entry = Entry.along line := by
    rw [← mem_entriesOf_iff hf found paths, ← entries]
    exact List.mem_map_of_mem hr
  have own : Entry.along line ∈ (d.mountedRoutes root w).map (·.entry) := by
    rw [entries, mem_entriesOf_iff hf found paths]
    exact ⟨line, hl, rfl⟩
  obtain ⟨r, hr, same⟩ := List.mem_map.mp own
  obtain ⟨m, matched⟩ : ∃ m, (d.mount root w).dispatcher.match? path = some m := by
    rw [← Option.ne_none_iff_exists', Ne, holds.match?_eq_none_iff, config]
    rintro (blank | unfit)
    · exact full blank
    · exact unfit r hr (same ▸ fits)
  obtain ⟨r', hr', wins, key, -⟩ :=
    holds.match?_eq_some (aligned_mountedRoutes hf found d w) matched
  rw [config] at wins
  obtain ⟨line', hl', same'⟩ := listed hr'
  have shape_eq : shape (Entry.along line).segments = shape (Entry.along line').segments := by
    rw [same'] at wins
    rcases preferred line' hl' wins.fits with alike | here
    · exact alike
    · rcases wins.preferred _ own fits with alike | there
      · exact alike.symm
      · exact absurd there here.asymm
  have line_eq : line = line' := eq_of_nodup_map shapes hl hl' shape_eq
  obtain ⟨route, hroute, keyed, routed⟩ := holds.find?_of_mem hr'
  obtain ⟨line'', hl'', same''⟩ := listed hroute
  rw [same', same''] at keyed
  have line_eq' : line'' = line' := eq_of_nodup_map paths hl'' hl' keyed
  refine ⟨m, route, matched, key ▸ routed, ?_, Dispatcher.compile_of_mem_compiled hroute⟩
  rw [same'', line_eq', line_eq]

end

def Dispatcher.finish (d : Dispatcher σ) (started : Nat) :
    Except Fault Response × Exchange σ → Except Fault Response × World σ
  | (.ok response, x) => (.ok response, d.emit x.context.request started x.world)
  | (.error fault, x) => (.error fault, x.world)

theorem Dispatcher.dispatch_of_resolve {d : Dispatcher σ} {request filled : Request}
    {route : CompiledRoute σ} (resolved : d.resolve request = (some route, filled))
    {stage : Stage σ} (chain : route.chainFor? filled.method = some stage) (w : World σ) :
    d.dispatch request w =
      d.finish w.clock (stage.runOn (route.context filled d.config.splitQueryArrays) w) := by
  rw [dispatch, resolved]
  simp only [chain]
  rcases stage.runOn _ w with ⟨_ | response, x⟩ <;> rfl

theorem Dispatcher.dispatch_of_match {d : Dispatcher σ} {request : Request}
    (unrouted : request.route = []) {m : Dispatcher.RouteMatch}
    (matched : d.match? request.path = some m) {route : CompiledRoute σ}
    (found : d.find? m.key = some route) {stage : Stage σ}
    (chain : route.chainFor? request.method = some stage) (w : World σ) :
    d.dispatch request w = d.finish w.clock (stage.runOn
      (route.context (fillParams request m.params) d.config.splitQueryArrays) w) := by
  have resolved : d.resolve request = (some route, fillParams request m.params) := by
    rw [resolve, if_neg (Decidable.not_not.mpr unrouted), matched]
    exact congrArg (·, _) found
  exact dispatch_of_resolve resolved chain w

theorem dispatch_passes {calls : List (Call σ)} {f : Forest σ} (hf : f.Reached calls) {id : Nat}
    {root : Router σ} {children : Forest σ} (found : f.tree? id = some (root, children))
    (shapes : ((Forest.cons root children .nil).lines.map
      fun line => shape (Entry.along line).segments).Nodup)
    (paths : ((Forest.cons root children .nil).lines.map spell).Nodup)
    {d : Dispatcher σ} {w₀ : World σ} (mounted : (d.mount root w₀).fault = none)
    {request : Request} (unrouted : request.route = [])
    {line : List (Router σ)} (hl : line ∈ (Forest.cons root children .nil).lines)
    (full : [] ∉ splitPath (d.config.reading request.path))
    (fits : Fits (Entry.along line).segments (splitPath (d.config.reading request.path)))
    (preferred : ∀ line' ∈ (Forest.cons root children .nil).lines,
      Fits (Entry.along line').segments (splitPath (d.config.reading request.path)) →
        shape (Entry.along line).segments = shape (Entry.along line').segments ∨
          Preferred (shape (Entry.along line).segments) (shape (Entry.along line').segments))
    {owner : Router σ} (last : line.getLast? = some owner) {h : Handler σ}
    (served : (owner.handlers.find? request.method).or (owner.handlers.find? .all) = some h)
    (trace : World σ → List Visit) {ms : List (Middleware σ)}
    (declared : ms = line.flatMap fun r => calls.flatMap (Call.added r.ident))
    (layer : ∀ m ∈ ms, ∀ run, m.Makes run → ∃ l : Layer σ, run = l.run ∧ l.Records trace m.ident)
    (handled : ∀ x, trace (h.stage x).2.world = trace x.world ++ [.handled h.ident])
    (w : World σ) :
    ∃ layers context, Layered trace ms layers ∧
      (d.mount root w₀).dispatcher.dispatch request w =
        (d.mount root w₀).dispatcher.finish w.clock (Layer.stack layers h.stage ⟨context, w⟩) ∧
      (Layer.AllReturn layers h.stage ⟨context, w⟩ →
        trace (Layer.stack layers h.stage ⟨context, w⟩).2.world =
          trace w ++ ms.map (fun m => .entered m.ident) ++
            .handled h.ident :: (ms.map fun m => .left m.ident).reverse) := by
  obtain ⟨m, route, matched, keyed, entry, v, v', compiled⟩ :=
    find?_of_preferred hf found shapes paths mounted hl full fits preferred
  rw [entry] at compiled
  have handlers : (Entry.along line).handlers = owner.handlers := by
    simp only [Entry.along, last, Option.map_some, Option.getD_some]
  obtain ⟨stage, chain, built⟩ := Entry.chainFor?_of_served compiled (handlers ▸ served)
  rw [middlewares_along hf found hl, ← declared] at built
  obtain ⟨layers, layered, rfl⟩ := built.layered layer
  refine ⟨layers, _, layered, Dispatcher.dispatch_of_match unrouted matched keyed chain w, ?_⟩
  exact fun returns => layered.trace_stack handled returns

def note (v : Visit) (x : Exchange (List Visit)) : Exchange (List Visit) :=
  { x with world.state := x.world.state ++ [v] }

def recorder (ident : Nat) : Layer (List Visit) where
  enter := note (.entered ident)
  leave _ r y := (r, if r.isOk then note (.left ident) y else y)

def recording (ident : Nat) : Middleware (List Visit) where
  ident
  name := []
  factory := some (pure (some ⟨pure (recorder ident).run⟩))

def recordingHandler (ident : Nat) : Handler (List Visit) where
  ident
  isAsync := false
  stage x := (.ok {}, note (.handled ident) x)

theorem recorder_records (ident : Nat) : (recorder ident).Records (fun w => w.state) ident where
  enter _ := rfl
  leave _ r y normal := by
    change r.isOk = true at normal
    simp only [recorder, normal, if_true]
    rfl

theorem run_of_recording {ident : Nat} {run : Stage (List Visit) → Stage (List Visit)}
    (h : (recording ident).Makes run) : run = (recorder ident).run := by
  obtain ⟨make, i, w, w', v, v', factory, made, init⟩ := h
  cases factory
  cases made
  cases init
  rfl

def interleaved : List (Call (List Visit)) :=
  [.path 0 (ascii "/a"), .path 1 (ascii "/<x>"), .middlewares 1 [recording 2],
    .handle 1 .all (some (recordingHandler 0)), .nest 0 [some 1], .middlewares 0 [recording 0],
    .middlewares 1 [recording 3], .middlewares 0 [recording 1]]

theorem dispatch_passes_interleaved :
    ∃ root layers context, (Forest.nil.after interleaved).find? 0 = some root ∧
      (({ sink := none } : Dispatcher (List Visit)).mount root { state := [] }).dispatcher.dispatch
          { path := ascii "/a/b" } { state := [] } =
        (({ sink := none } : Dispatcher (List Visit)).mount root { state := [] }).dispatcher.finish
          0 (Layer.stack layers (recordingHandler 0).stage ⟨context, { state := [] }⟩) ∧
      (Layer.stack layers (recordingHandler 0).stage ⟨context, { state := [] }⟩).2.world.state =
        [.entered 0, .entered 1, .entered 2, .entered 3, .handled 0,
          .left 3, .left 2, .left 1, .left 0] := by
  have reached : Forest.Reached interleaved (Forest.nil.after interleaved) :=
    Forest.Reached.start.after (by decide +kernel)
  have lines : ((Forest.nil.after interleaved).tree? 0).map (fun t =>
      (Forest.cons t.1 t.2 .nil).lines.map fun line =>
        (line.map (·.ident), (Entry.along line).segments)) =
      some [([0, 1], [.literal (ascii "a"), .param (ascii "x")])] := by decide +kernel
  have mounted : ((Forest.nil.after interleaved).tree? 0).all (fun t =>
      (({ sink := none } : Dispatcher (List Visit)).mount t.1 { state := [] }).fault.isNone) =
      true := by decide +kernel
  have served : (((Forest.nil.after interleaved).tree? 0).bind fun t =>
      (Forest.cons t.1 t.2 .nil).lines.head?.bind fun line => line.getLast?.map fun owner =>
        (owner.handlers.find? .get).isNone && (owner.handlers.find? .all).isSome) =
      some true := by decide +kernel
  obtain ⟨⟨root, children⟩, found, lines⟩ := Option.map_eq_some_iff.mp lines
  rw [found, Option.all_some, Option.isNone_iff_eq_none] at mounted
  obtain ⟨line, single, same⟩ := List.map_eq_singleton_iff.mp lines
  obtain ⟨idents, segments⟩ := Prod.mk.inj same
  rw [found, Option.bind_some, single, List.head?_cons, Option.bind_some] at served
  obtain ⟨owner, last, served⟩ := Option.map_eq_some_iff.mp served
  rw [Bool.and_eq_true, Option.isNone_iff_eq_none, Option.isSome_iff_exists] at served
  obtain ⟨unserved, h, served⟩ := served
  have here : owner ∈ (Forest.nil.after interleaved).routers :=
    (Forest.routers_of_tree found).2.subset (Forest.mem_routers_of_line (by rw [single]; simp) owner
      (List.mem_of_getLast? last))
  obtain rfl : h = recordingHandler 0 := by
    have given := reached.handlers owner here .all h served
    simp only [interleaved, List.mem_cons, Call.handle.injEq, Option.some.injEq, reduceCtorEq,
      List.not_mem_nil, false_or, or_false] at given
    exact given.2.2
  have serving : (owner.handlers.find? .get).or (owner.handlers.find? .all) =
      some (recordingHandler 0) := by
    rw [unserved, Option.none_or, served]
  have only {line' : List (Router (List Visit))} :
      line' ∈ (Forest.cons root children .nil).lines ↔ line' = line := by
    rw [single, List.mem_singleton]
  have declared : [recording 0, recording 1, recording 2, recording 3] =
      line.flatMap fun r => interleaved.flatMap (Call.added r.ident) := by
    have named := List.flatMap_map (·.ident) (fun id => interleaved.flatMap (Call.added id)) line
    rw [← named, idents]
    rfl
  have fits : Fits (Entry.along line).segments [ascii "a", ascii "b"] := by
    rw [segments]
    exact fits_cons.mpr ⟨fun text same => Segment.literal.inj same, fits_cons.mpr ⟨nofun, fits_nil⟩⟩
  have runs : ∀ m ∈ [recording 0, recording 1, recording 2, recording 3], ∀ run, m.Makes run →
      run = (recorder m.ident).run := by
    intro m hm run made
    simp only [List.mem_cons, List.not_mem_nil, or_false] at hm
    rcases hm with rfl | rfl | rfl | rfl <;> exact run_of_recording made
  have distinct {α : Type} (g : List (Router (List Visit)) → α) :
      ((Forest.cons root children .nil).lines.map g).Nodup := by
    rw [single]
    exact List.nodup_cons.mpr ⟨List.not_mem_nil, .nil⟩
  obtain ⟨layers, context, layered, dispatched, visits⟩ :=
    dispatch_passes reached found (distinct _) (distinct _) mounted
      (rfl : ({ path := ascii "/a/b" } : Request).route = []) (only.mpr rfl) (by decide) fits
      (fun line' hl _ => .inl (by rw [only.mp hl])) last serving
      (fun w => w.state) declared
      (fun m hm run made => ⟨recorder m.ident, runs m hm run made, recorder_records m.ident⟩)
      (fun _ => rfl) { state := [] }
  have answers (x : Exchange (List Visit)) : ((recordingHandler 0).stage x).1.isOk := rfl
  have returns := layered.allReturn
    (fun m hm run made next answers x => by
      rw [runs m hm run made]
      exact answers (note (.entered m.ident) x))
    answers ⟨context, { state := [] }⟩
  refine ⟨root, layers, context, by rw [Forest.find?, found]; rfl, dispatched, visits returns⟩

end HttpRouting
