import HttpRouting.Proofs.HandlerSets
import HttpRouting.Proofs.Shutdown

namespace HttpRouting

variable {σ : Type}

/-- The ends that a request may meet with, and the exchange as its chain has left it. -/
inductive Verdict (σ : Type)
  | notFound
  | notAllowed (route : CompiledRoute σ)
  | answered (response : Response) (left : Exchange σ)
  | failed (fault : Fault) (left : Exchange σ)

namespace Verdict

def outcome : Verdict σ → Except Fault Response
  | notFound => .ok Dispatcher.notFound
  | notAllowed route => .ok (Dispatcher.notAllowed route)
  | answered response _ => .ok response
  | failed fault _ => .error fault

def Chained : Verdict σ → Prop
  | notFound | notAllowed _ => False
  | answered _ _ | failed _ _ => True

def left (request : Request) (w : World σ) : Verdict σ → Request × World σ
  | notFound | notAllowed _ => (request, w)
  | answered _ x | failed _ x => (x.context.request, x.world)

def event? (request : Request) (w : World σ) (v : Verdict σ) : Option RequestEvent :=
  match v.outcome with
  | .error _ => none
  | .ok _ =>
    let (request, w') := v.left request w
    some ⟨request.method, request.path, w'.clock - w.clock⟩

def reported (sink : Sink σ) (request : Request) (w : World σ) (v : Verdict σ) : World σ :=
  match v.event? request w with
  | none => (v.left request w).2
  | some event => sink event (v.left request w).2

end Verdict

namespace Dispatcher

variable (d : Dispatcher σ)

inductive Meets (request : Request) (w : World σ) : Verdict σ → Prop
  | notFound (unresolved : (d.resolve request).1 = none) : Meets request w .notFound
  | notAllowed {route : CompiledRoute σ} (resolved : (d.resolve request).1 = some route)
      (unchained : route.chainFor? request.method = none) : Meets request w (.notAllowed route)
  | answered {route : CompiledRoute σ} {chain : Stage σ} {response : Response} {x : Exchange σ}
      (resolved : (d.resolve request).1 = some route)
      (chained : route.chainFor? request.method = some chain)
      (ran : chain.runOn (route.context (d.resolve request).2 d.config.splitQueryArrays) w =
        (.ok response, x)) : Meets request w (.answered response x)
  | failed {route : CompiledRoute σ} {chain : Stage σ} {fault : Fault} {x : Exchange σ}
      (resolved : (d.resolve request).1 = some route)
      (chained : route.chainFor? request.method = some chain)
      (ran : chain.runOn (route.context (d.resolve request).2 d.config.splitQueryArrays) w =
        (.error fault, x)) : Meets request w (.failed fault x)

def verdict (request : Request) (w : World σ) : Verdict σ :=
  match (d.resolve request).1 with
  | none => .notFound
  | some route =>
    match route.chainFor? request.method with
    | none => .notAllowed route
    | some chain =>
      match chain.runOn (route.context (d.resolve request).2 d.config.splitQueryArrays) w with
      | (.ok response, x) => .answered response x
      | (.error fault, x) => .failed fault x

theorem meets_verdict (request : Request) (w : World σ) :
    d.Meets request w (d.verdict request w) := by
  rw [verdict]
  split
  · rename_i unresolved
    exact .notFound unresolved
  · rename_i route resolved
    split
    · rename_i unchained
      exact .notAllowed resolved unchained
    · rename_i chain chained
      split
      · rename_i ran
        exact .answered resolved chained ran
      · rename_i ran
        exact .failed resolved chained ran

variable {d}

theorem Meets.eq_verdict {request : Request} {w : World σ} {v : Verdict σ}
    (h : d.Meets request w v) : v = d.verdict request w := by
  cases h with
  | notFound unresolved => simp only [verdict, unresolved]
  | notAllowed resolved unchained => simp only [verdict, resolved, unchained]
  | answered resolved chained ran => simp only [verdict, resolved, chained, ran]
  | failed resolved chained ran => simp only [verdict, resolved, chained, ran]

theorem existsUnique_meets (request : Request) (w : World σ) : ∃! v, d.Meets request w v :=
  ⟨_, d.meets_verdict request w, fun _ h => h.eq_verdict⟩

theorem Meets.unchained {request : Request} {w : World σ} {v : Verdict σ}
    (h : d.Meets request w v) (idle : ¬v.Chained) : d.chain? request = none := by
  rw [chain?, (d.resolve_method_path request).1]
  cases h with
  | notFound unresolved => rw [unresolved, Option.bind_none]
  | notAllowed resolved unchained => rw [resolved, Option.bind_some, unchained]
  | answered | failed => exact absurd trivial idle

theorem emit_eq {sink : Sink σ} (listens : d.sink = some sink) (request : Request) (started : Nat)
    (w : World σ) :
    d.emit request started w = sink ⟨request.method, request.path, w.clock - started⟩ w := by
  rw [emit, listens]

theorem Meets.dispatch {sink : Sink σ} (listens : d.sink = some sink) {request : Request}
    {w : World σ} {v : Verdict σ} (h : d.Meets request w v) :
    d.dispatch request w = (v.outcome, v.reported sink request w) := by
  obtain ⟨method, path⟩ := d.resolve_method_path request
  cases h with
  | notFound unresolved =>
    have resolved : d.resolve request = (none, (d.resolve request).2) := Prod.ext unresolved rfl
    rw [Dispatcher.dispatch, resolved]
    dsimp only
    rw [emit_eq listens, method, path]
    rfl
  | notAllowed resolved unchained =>
    rw [dispatch_of_refused (Prod.ext resolved rfl) (method ▸ unchained), emit_eq listens, method,
      path]
    rfl
  | answered resolved chained ran =>
    rw [dispatch_of_resolve (Prod.ext resolved rfl) (method ▸ chained), ran, finish,
      emit_eq listens]
    rfl
  | failed resolved chained ran =>
    rw [dispatch_of_resolve (Prod.ext resolved rfl) (method ▸ chained), ran, finish]
    rfl

def dispatchAll (d : Dispatcher σ) : List Request → World σ → List (Except Fault Response) × World σ
  | [], w => ([], w)
  | request :: rest, w =>
    let (outcome, w) := d.dispatch request w
    let (outcomes, w) := d.dispatchAll rest w
    (outcome :: outcomes, w)

inductive Serves (d : Dispatcher σ) (sink : Sink σ) :
    World σ → List Request → List (Verdict σ) → List RequestEvent → World σ → Prop
  | nil {w : World σ} : Serves d sink w [] [] [] w
  | reported {request : Request} {requests : List Request} {v : Verdict σ}
      {verdicts : List (Verdict σ)} {event : RequestEvent} {events : List RequestEvent}
      {w w' : World σ} (meets : d.Meets request w v) (told : v.event? request w = some event)
      (rest : Serves d sink (sink event (v.left request w).2) requests verdicts events w') :
      Serves d sink w (request :: requests) (v :: verdicts) (event :: events) w'
  | unreported {request : Request} {requests : List Request} {v : Verdict σ}
      {verdicts : List (Verdict σ)} {events : List RequestEvent}
      {w w' : World σ} (meets : d.Meets request w v) (untold : v.event? request w = none)
      (rest : Serves d sink (v.left request w).2 requests verdicts events w') :
      Serves d sink w (request :: requests) (v :: verdicts) events w'

theorem serves_dispatchAll {sink : Sink σ} (listens : d.sink = some sink) (requests : List Request)
    (w : World σ) :
    ∃ verdicts events w', d.Serves sink w requests verdicts events w' ∧
      d.dispatchAll requests w = (verdicts.map Verdict.outcome, w') := by
  induction requests generalizing w with
  | nil => exact ⟨[], [], w, .nil, rfl⟩
  | cons request rest ih =>
    have meets := d.meets_verdict request w
    obtain ⟨verdicts, events, w', serves, answers⟩ :=
      ih ((d.verdict request w).reported sink request w)
    have whole : d.dispatchAll (request :: rest) w =
        ((d.verdict request w :: verdicts).map Verdict.outcome, w') := by
      rw [dispatchAll, meets.dispatch listens]
      dsimp only
      rw [answers]
      rfl
    cases told : (d.verdict request w).event? request w with
    | none =>
      rw [Verdict.reported, told] at serves
      exact ⟨_, _, w', .unreported meets told serves, whole⟩
    | some event =>
      rw [Verdict.reported, told] at serves
      exact ⟨_, _, w', .reported meets told serves, whole⟩

def Spares {α : Type} (d : Dispatcher σ) (ledger : World σ → α) : Prop :=
  ∀ key route m chain, d.find? key = some route → route.chainFor? m = some chain →
    ∀ c w, ledger (chain.runOn c w).2.world = ledger w

theorem Meets.ledger_left {α : Type} {ledger : World σ → α} (spares : d.Spares ledger)
    {request : Request} {w : World σ} {v : Verdict σ} (h : d.Meets request w v) :
    ledger (v.left request w).2 = ledger w := by
  cases h with
  | notFound | notAllowed => rfl
  | @answered route _ _ _ resolved chained ran | @failed route _ _ _ resolved chained ran =>
    obtain ⟨key, found⟩ := find?_of_resolve (Prod.ext resolved rfl)
    have spared := spares key route request.method _ found chained
      (route.context (d.resolve request).2 d.config.splitQueryArrays) w
    rw [ran] at spared
    exact spared

theorem Serves.ledger_eq {sink : Sink σ} {ledger : World σ → List RequestEvent}
    (appends : ∀ event w, ledger (sink event w) = ledger w ++ [event]) (spares : d.Spares ledger)
    {requests : List Request} {verdicts : List (Verdict σ)} {events : List RequestEvent}
    {w w' : World σ} (h : d.Serves sink w requests verdicts events w') :
    ledger w' = ledger w ++ events := by
  induction h with
  | nil => rw [List.append_nil]
  | reported meets _ _ ih => rw [ih, appends, meets.ledger_left spares, ← List.append_cons]
  | unreported meets _ _ ih => rw [ih, meets.ledger_left spares]

end Dispatcher

theorem dispatch_reports {d : Dispatcher σ} {sink : Sink σ} (listens : d.sink = some sink) :
    (Dispatcher.notFound.status = 404 ∧ ∀ route : CompiledRoute σ,
      (Dispatcher.notAllowed route).status = 405 ∧
        (Dispatcher.notAllowed route).headers.get? (ascii "Allow") = some route.allowed) ∧
    (∀ request w, ∃! v, d.Meets request w v) ∧
    (∀ request w v, d.Meets request w v → ¬v.Chained →
      d.chain? request = none ∧
        ∀ g, (d.withStages g).dispatch request w = d.dispatch request w) ∧
    ∀ requests w, ∃ verdicts events w', d.Serves sink w requests verdicts events w' ∧
      d.dispatchAll requests w = (verdicts.map Verdict.outcome, w') ∧
      ∀ ledger, (∀ event w, ledger (sink event w) = ledger w ++ [event]) → d.Spares ledger →
        ledger w' = ledger w ++ events := by
  refine ⟨⟨rfl, fun route => ⟨rfl, Dispatcher.allow_notAllowed route⟩⟩,
    Dispatcher.existsUnique_meets, ?_, ?_⟩
  · intro request w v meets idle
    have unchained := meets.unchained idle
    exact ⟨unchained, fun g => Dispatcher.dispatch_of_unchained unchained g w⟩
  · intro requests w
    obtain ⟨verdicts, events, w', serves, answers⟩ :=
      Dispatcher.serves_dispatchAll listens requests w
    exact ⟨verdicts, events, w', serves, answers,
      fun ledger appends spares => serves.ledger_eq appends spares⟩

def moving : Handler (List RequestEvent) where
  ident := 0
  isAsync := false
  stage x := (.ok {}, { x with context.request.path := ascii "/moved" })

def breaking : Handler (List RequestEvent) where
  ident := 1
  isAsync := true
  stage x := (.error .foreign, x)

def moved : Router (List RequestEvent) where
  ident := 0
  template := ⟨ascii "/a", ascii "/a", [], ∅, ∅, [.literal (ascii "a")]⟩
  handlers := .ofList [(.get, moving), (.put, breaking)]

def keeping : Sink (List RequestEvent) := fun event w => { w with state := w.state ++ [event] }

def recorded : Dispatcher (List RequestEvent) :=
  let unmounted : Dispatcher (List RequestEvent) := { sink := some keeping }
  (unmounted.mount moved { state := [] }).dispatcher

def asked : List Request :=
  [{ path := ascii "/a" }, { method := .put, path := ascii "/a" },
    { method := .post, path := ascii "/a" }, { path := ascii "/b" }]

theorem spares_recorded : recorded.Spares fun w => w.state := by
  intro key route m chain found chained c w
  have only : recorded.routes.values =
      [⟨moved.ownEntry, .ofList [(.get, moving.stage), (.put, breaking.stage)]⟩] := rfl
  have listed : route ∈ recorded.routes.values :=
    List.mem_map_of_mem (Dictionary.mem_entries_iff.mpr found)
  rw [only, List.mem_singleton] at listed
  subst listed
  cases m <;> cases chained <;> rfl

theorem dispatch_reports_recorded :
    ∃ verdicts events w', recorded.Serves keeping { state := [] } asked verdicts events w' ∧
      w'.state = events ∧ events.map (fun event => (event.method, event.path)) =
        [(.get, ascii "/moved"), (.post, ascii "/a"), (.get, ascii "/b")] := by
  obtain ⟨verdicts, events, w', serves, answers, ledger⟩ :=
    (dispatch_reports (d := recorded) rfl).2.2.2 asked { state := [] }
  have kept : w'.state = [] ++ events := ledger (fun w => w.state) (fun _ _ => rfl) spares_recorded
  have left : (recorded.dispatchAll asked { state := [] }).2.state = w'.state := by rw [answers]
  rw [List.nil_append] at kept
  refine ⟨verdicts, events, w', serves, kept, ?_⟩
  rw [← kept, ← left]
  rfl

end HttpRouting
