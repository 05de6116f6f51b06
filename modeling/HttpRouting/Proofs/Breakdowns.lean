import HttpRouting.Proofs.Composition
import HttpRouting.Proofs.Mounting
import HttpRouting.Proofs.Schedules

namespace HttpRouting

variable {σ : Type}

theorem foldlM_eq_error {ε S α β : Type} {f : β → α → ExceptT ε (StateM S) β} {l : List α}
    {init : β} {s s' : S} {e : ε} :
    l.foldlM f init s = (.error e, s') ↔
      ∃ before x after b between, l = before ++ x :: after ∧
        before.foldlM f init s = (.ok b, between) ∧ f b x between = (.error e, s') := by
  induction l generalizing init s with
  | nil =>
    constructor
    · rintro ⟨⟩
    · rintro ⟨before, x, after, _, _, nil, -⟩
      simp at nil
  | cons first rest ih =>
    rw [List.foldlM_cons, run_bind_eq_error]
    constructor
    · rintro (failed | ⟨b, between, passed, failed⟩)
      · exact ⟨[], first, rest, init, s, rfl, rfl, failed⟩
      · obtain ⟨before, x, after, b', between', rfl, folded, failed⟩ := ih.mp failed
        refine ⟨first :: before, x, after, b', between', rfl, ?_, failed⟩
        rw [List.foldlM_cons]
        exact run_bind_eq_ok.mpr ⟨b, between, passed, folded⟩
    · rintro ⟨before, x, after, b, between, same, folded, failed⟩
      cases before with
      | nil =>
        cases same
        cases folded
        exact .inl failed
      | cons first' before =>
        cases same
        rw [List.foldlM_cons] at folded
        obtain ⟨b', between', passed, folded⟩ := run_bind_eq_ok.mp folded
        have later := ih.mpr ⟨before, x, after, b, between, rfl, folded, failed⟩
        exact .inr ⟨b', between', passed, later⟩

def Entry.addChain (e : Entry σ) (chains : Dictionary Method (Stage σ)) (h : Method × Handler σ) :
    Action σ (Dictionary Method (Stage σ)) := do
  return chains.insert h.1 (← Middleware.chain e.middlewares h.2.stage)

theorem Entry.compile_eq (e : Entry σ) :
    e.compile = e.handlers.entries.foldlM e.addChain ∅ >>= fun chains =>
      (return { entry := e, chains } : Action σ (CompiledRoute σ)) := rfl

theorem Entry.compile_eq_error {e : Entry σ} {w w' : World σ} {fault : Fault} :
    e.compile w = (.error fault, w') ↔
      ∃ before h after chains v, e.handlers.entries = before ++ h :: after ∧
        before.foldlM e.addChain ∅ w = (.ok chains, v) ∧
        Middleware.chain e.middlewares h.2.stage v = (.error fault, w') := by
  rw [compile_eq, run_bind_pure_eq_error, foldlM_eq_error]
  simp only [addChain, run_bind_pure_eq_error]

def Breaks (ms : List (Middleware σ)) (terminal : Stage σ) (w : World σ) (b : Breakdown σ)
    (w' : World σ) : Prop :=
  ∃ made, Follows ms terminal (SetUpCall.schedule (ms.length - 1)) {} w made (.error b) w' ∧
    made.getLast? = some b.call

theorem not_breaks_nil {terminal : Stage σ} {w w' : World σ} {b : Breakdown σ} :
    ¬Breaks [] terminal w b w' := by
  rintro ⟨made, follows, -⟩
  cases follows with
  | failed listed => cases listed
  | next yields =>
    generalize Except.ok _ = r at yields
    cases yields with
    | create _ listed => cases listed

theorem chain_eq_error {ms : List (Middleware σ)} {terminal : Stage σ} {w w' : World σ}
    {fault : Fault} :
    Middleware.chain ms terminal w = (.error fault, w') ↔
      ∃ b, Breaks ms terminal w b w' ∧ b.fault = fault := by
  cases ms with
  | nil =>
    constructor
    · rintro ⟨⟩
    · rintro ⟨b, broken, -⟩
      cases not_breaks_nil broken
  | cons m rest =>
    obtain ⟨made, r, v, follows, built⟩ := chain_follows m rest terminal w
    rw [built]
    constructor
    · intro failed
      rcases r with b | a
      · cases failed
        exact ⟨b, ⟨made, follows, follows.made_last⟩, rfl⟩
      · cases failed
    · rintro ⟨b, ⟨made', follows', -⟩, rfl⟩
      obtain ⟨-, rfl, rfl⟩ := follows.unique follows'
      rfl

def SetUpFailure.Plain : SetUpFailure → Prop
  | .raised (.middlewareInit _ _) | .raised .foreign => False
  | _ => True

structure Breakdown.Told (b : Breakdown σ) (fault : Fault) : Prop where
  named : b.failure.Plain → ∃ cause, fault = .middlewareInit b.culprit.name cause
  kept : ∀ name cause, b.failure = .raised (.middlewareInit name cause) →
    fault = .middlewareInit name cause

theorem Breakdown.told_fault (b : Breakdown σ) : b.Told b.fault where
  named plain := by
    rcases b with ⟨_, culprit, _ | _ | fault⟩
    · exact ⟨_, rfl⟩
    · exact ⟨_, rfl⟩
    · cases fault with
      | middlewareInit | foreign => cases plain
      | _ => exact ⟨_, rfl⟩
  kept name cause raised := by
    rw [fault, raised]
    rfl

namespace Dispatcher

theorem mountEntries_failed {entries : List (Entry σ)} {d : Dispatcher σ} {w w' : World σ}
    {fault : Fault} :
    (d.mountEntries entries w).fault = some fault ∧ (d.mountEntries entries w).world = w' ↔
      ∃ before e after, entries = before ++ e :: after ∧ (d.mountEntries before w).fault = none ∧
        e.compile (d.mountEntries before w).world = (.error fault, w') := by
  constructor
  · rintro ⟨failed, rfl⟩
    induction entries generalizing d w with
    | nil => cases failed
    | cons e rest ih =>
      rw [mountEntries] at failed ⊢
      rcases compiled : e.compile w with ⟨fault' | route, v⟩
      · rw [compiled] at failed
        cases failed
        exact ⟨[], e, rest, rfl, rfl, compiled⟩
      · rw [compiled] at failed
        obtain ⟨before, e', after, rfl, passed, failed⟩ := ih failed
        refine ⟨e :: before, e', after, rfl, ?_⟩
        rw [mountEntries, compiled]
        exact ⟨passed, failed⟩
  · rintro ⟨before, e, after, rfl, passed, failed⟩
    rw [mountEntries_append passed, mountEntries, failed]
    exact ⟨rfl, rfl⟩

def Builds (d : Dispatcher σ) (root : Router σ) (w : World σ) (e : Entry σ)
    (h : Method × Handler σ) (v : World σ) : Prop :=
  ∃ before after earlier later chains, entriesOf root = before ++ e :: after ∧
    (d.cleared.mountEntries before w).fault = none ∧
    e.handlers.entries = earlier ++ h :: later ∧
    earlier.foldlM e.addChain ∅ (d.cleared.mountEntries before w).world = (.ok chains, v)

theorem mount_failed {d : Dispatcher σ} {root : Router σ} {w w' : World σ} {fault : Fault} :
    (d.mount root w).fault = some fault ∧ (d.mount root w).world = w' ↔
      ∃ e h v, d.Builds root w e h v ∧
        Middleware.chain e.middlewares h.2.stage v = (.error fault, w') := by
  have world (failed : (d.cleared.mountEntries (entriesOf root) w).fault = some fault) :
      (d.mount root w).world = (d.cleared.mountEntries (entriesOf root) w).world := by
    rw [mount]
    dsimp only [cleared] at failed ⊢
    rw [failed]
  have entries : (d.mount root w).fault = some fault ∧ (d.mount root w).world = w' ↔
      (d.cleared.mountEntries (entriesOf root) w).fault = some fault ∧
        (d.cleared.mountEntries (entriesOf root) w).world = w' := by
    rw [fault_mount]
    exact and_congr_right fun failed => by rw [world failed]
  rw [entries, mountEntries_failed]
  constructor
  · rintro ⟨before, e, after, split, passed, failed⟩
    obtain ⟨earlier, h, later, chains, v, handlers, folded, failed⟩ :=
      Entry.compile_eq_error.mp failed
    have builds : d.Builds root w e h v :=
      ⟨before, after, earlier, later, chains, split, passed, handlers, folded⟩
    exact ⟨e, h, v, builds, failed⟩
  · rintro ⟨e, h, v, builds, failed⟩
    obtain ⟨before, after, earlier, later, chains, split, passed, handlers, folded⟩ := builds
    exact ⟨before, e, after, split, passed, Entry.compile_eq_error.mpr
      ⟨earlier, h, later, chains, v, handlers, folded, failed⟩⟩

end Dispatcher

theorem failure_names_middleware (d : Dispatcher σ) (root : Router σ) (w : World σ) :
    (∀ (ms : List (Middleware σ)) terminal v v',
      (∀ b, Breaks ms terminal v b v' →
        ∃ fault, Middleware.chain ms terminal v = (.error fault, v') ∧ b.Told fault) ∧
      ∀ fault, Middleware.chain ms terminal v = (.error fault, v') →
        ∃ b, Breaks ms terminal v b v' ∧ b.Told fault) ∧
    (∀ e h v b v', d.Builds root w e h v → Breaks e.middlewares h.2.stage v b v' →
      ∃ fault, (d.mount root w).fault = some fault ∧ (d.mount root w).world = v' ∧ b.Told fault) ∧
    ∀ fault, (d.mount root w).fault = some fault →
      ∃ e h v b, d.Builds root w e h v ∧
        Breaks e.middlewares h.2.stage v b (d.mount root w).world ∧ b.Told fault := by
  refine ⟨fun ms terminal v v' => ⟨?_, ?_⟩, ?_, ?_⟩
  · intro b broken
    exact ⟨b.fault, chain_eq_error.mpr ⟨b, broken, rfl⟩, b.told_fault⟩
  · intro fault failed
    obtain ⟨b, broken, rfl⟩ := chain_eq_error.mp failed
    exact ⟨b, broken, b.told_fault⟩
  · intro e h v b v' builds broken
    have failed := chain_eq_error.mpr ⟨b, broken, rfl⟩
    obtain ⟨fault, world⟩ := Dispatcher.mount_failed.mpr ⟨e, h, v, builds, failed⟩
    exact ⟨b.fault, fault, world, b.told_fault⟩
  · intro fault failed
    obtain ⟨e, h, v, builds, failed⟩ := Dispatcher.mount_failed.mp ⟨failed, rfl⟩
    obtain ⟨b, broken, rfl⟩ := chain_eq_error.mp failed
    exact ⟨e, h, v, b, builds, broken, b.told_fault⟩

def unready (name : Bytes) (fault : Fault) : Middleware Unit where
  ident := 0
  name
  factory := some (return some ⟨throw fault⟩)

def guarded (fault : Fault) : Router Unit where
  ident := 0
  template := ⟨[], [], [], ∅, ∅, []⟩
  middlewares := [Middleware.steady id, unready (ascii "auth") fault]
  handlers := .ofList [(.get, ⟨0, false, fun x => (.ok {}, x)⟩)]

theorem breaks_guarded (fault : Fault) :
    Breaks (guarded fault).middlewares (fun x => (.ok {}, x)) { state := () }
      ⟨.init 1, unready (ascii "auth") fault, .raised fault⟩ { state := () } :=
  ⟨_, .next (.create (r := .ok _) rfl rfl rfl) (.next (.create (r := .ok _) rfl rfl rfl)
    (.next (.init (r := .ok _) rfl rfl rfl)
      (.failed rfl (.init (r := .error _) rfl rfl rfl)))), rfl⟩

theorem builds_guarded (fault : Fault) :
    ({ sink := none } : Dispatcher Unit).Builds (guarded fault) { state := () }
      (guarded fault).ownEntry (.get, ⟨0, false, fun x => (.ok {}, x)⟩) { state := () } :=
  ⟨[], [], [], [], ∅, rfl, rfl, rfl, rfl⟩

theorem failure_names_middleware_unready :
    ∃ cause, (({ sink := none } : Dispatcher Unit).mount (guarded (.failure (ascii "no key")))
      { state := () }).fault = some (.middlewareInit (ascii "auth") cause) := by
  obtain ⟨fault, failed, -, told⟩ := (failure_names_middleware _ _ _).2.1 _ _ _ _ _
    (builds_guarded (.failure (ascii "no key"))) (breaks_guarded _)
  obtain ⟨cause, rfl⟩ := told.named trivial
  exact ⟨cause, failed⟩

/-- The fault is raised by a middleware, and makes building and mounting fail without coming to name
that middleware. -/
def Misnames (fault : Fault) : Prop :=
  ∃ b w', Breaks (guarded fault).middlewares (fun x => (.ok {}, x)) { state := () } b w' ∧
    Middleware.chain (guarded fault).middlewares (fun x => (.ok {}, x)) { state := () } =
      (.error fault, w') ∧
    (({ sink := none } : Dispatcher Unit).mount (guarded fault) { state := () }).fault =
      some fault ∧
    ∀ cause, fault ≠ .middlewareInit b.culprit.name cause

theorem failure_names_another :
    Misnames (.middlewareInit (ascii "inner") []) ∧ Misnames .foreign := by
  constructor
  · refine ⟨_, _, breaks_guarded _, rfl, rfl, fun cause same => ?_⟩
    injection same with name
    exact absurd name (by decide)
  · exact ⟨_, _, breaks_guarded _, rfl, rfl, nofun⟩

end HttpRouting
