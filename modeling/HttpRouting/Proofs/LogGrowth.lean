import HttpRouting.Proofs.Chains
import HttpRouting.Proofs.Mounting

namespace HttpRouting

variable {σ α β : Type}

structure Logger.Continues (l l' : Logger) : Prop where
  level : l'.level = l.level
  direct : l.buffer = none → l'.buffer = none
  written : l.written <+: l'.written

namespace Logger

variable {l l' l'' : Logger}

theorem Continues.refl (l : Logger) : l.Continues l := ⟨rfl, id, List.prefix_rfl⟩

theorem Continues.trans (h : l.Continues l') (h' : l'.Continues l'') : l.Continues l'' where
  level := h'.level.trans h.level
  direct := h'.direct ∘ h.direct
  written := h.written.trans h'.written

theorem continues_write (l : Logger) (messages : List LogMessage) :
    l.Continues (l.write messages) := ⟨rfl, id, List.prefix_append _ _⟩

theorem continues_logMessage (l : Logger) (m : LogMessage) : l.Continues (l.logMessage m) := by
  rw [logMessage]
  split
  · cases buffer : l.buffer with
    | none => exact l.continues_write [m]
    | some b =>
      dsimp only
      cases b.push? m with
      | some b => exact ⟨rfl, fun none => (nomatch buffer.symm.trans none), List.prefix_rfl⟩
      | none =>
        rw [overflowed]
        cases l.overflow with
        | block =>
          refine ⟨?_, fun none => (nomatch buffer.symm.trans none), ?_⟩
          · simp [writeBatch, buffer, write]
          · simp [writeBatch, buffer, write]
        | discardOldest =>
          dsimp only
          cases b.pop? with
          | none => exact .refl l
          | some popped =>
            exact ⟨rfl, fun none => (nomatch buffer.symm.trans none), List.prefix_rfl⟩
        | discardNewest => exact .refl l
  · exact .refl l

theorem continues_logAll (l : Logger) (messages : List LogMessage) :
    l.Continues (l.logAll messages) := by
  induction messages generalizing l with
  | nil => exact .refl l
  | cons m messages ih => exact (l.continues_logMessage m).trans (ih _)

theorem mem_written_log (direct : l.buffer = none) {level : LogLevel} (enabled : l.enabled level)
    (text : Bytes) : ⟨level, text⟩ ∈ (l.log level text).written := by
  have written : (l.log level text).written = l.written ++ [⟨level, text⟩] := by
    simp [log, logMessage, enabled, direct, write]
  rw [written]
  exact List.mem_append_right _ (List.mem_singleton_self _)

theorem Continues.enabled (h : l.Continues l') (level : LogLevel) :
    l'.enabled level = l.enabled level := by rw [Logger.enabled, Logger.enabled, h.level]

end Logger

def Action.Discreet (a : Action σ α) : Prop :=
  ∀ w : World σ, w.logger.Continues (a w).2.logger

namespace Action.Discreet

theorem pure (x : α) : Discreet (pure x : Action σ α) := fun w => .refl w.logger

theorem throw (f : Fault) : Discreet (throw f : Action σ α) := fun w => .refl w.logger

theorem bind {a : Action σ α} {f : α → Action σ β} (ha : Discreet a)
    (hf : ∀ x w w', a w = (.ok x, w') → Discreet (f x)) : Discreet (a >>= f) := by
  intro w
  have first := ha w
  rw [run_bind]
  rcases run : a w with ⟨_ | x, v⟩
  · rwa [run] at first
  · rw [run] at first
    exact first.trans (hf x w v run v)

theorem tryCatch {a : Action σ α} {f : Fault → Action σ α} (ha : Discreet a)
    (hf : ∀ e, Discreet (f e)) : Discreet (tryCatch a f) := by
  intro w
  have first := ha w
  rw [run_tryCatch]
  rcases run : a w with ⟨e | _, v⟩
  · rw [run] at first
    exact first.trans (hf e v)
  · rwa [run] at first

end Action.Discreet

def Middleware.Discreet (m : Middleware σ) : Prop :=
  ∀ make, m.factory = some make → Action.Discreet make ∧
    ∀ i w w', make w = (.ok (some i), w') → Action.Discreet i.init

namespace Middleware

theorem discreet_attributing (m : Middleware σ) {a : Action σ α} (h : Action.Discreet a) :
    Action.Discreet (m.attributing a) := h.tryCatch fun f => .throw (m.blame f)

theorem Discreet.instantiate {m : Middleware σ} (h : m.Discreet) :
    Action.Discreet m.instantiate := by
  rw [Middleware.instantiate]
  cases factory : m.factory with
  | none => exact .throw _
  | some make =>
    apply m.discreet_attributing
    apply (h make factory).1.bind
    intro made _ _ _
    cases made with
    | none => exact .throw _
    | some i => exact .pure i

theorem Discreet.init {m : Middleware σ} (h : m.Discreet) {i : MiddlewareInstance σ}
    {w w' : World σ} (instantiated : m.instantiate w = (.ok i, w')) :
    Action.Discreet (m.initialise i) := by
  obtain ⟨make, factory, v, made⟩ := instantiate_eq_ok instantiated
  exact m.discreet_attributing ((h make factory).2 i w v made)

theorem discreet_setUpFrom {rest : List (Middleware σ)} (h : ∀ m ∈ rest, m.Discreet)
    {m : Middleware σ} {i : MiddlewareInstance σ} (init : Action.Discreet (m.initialise i)) :
    Action.Discreet (m.setUpFrom i rest) := by
  induction rest generalizing m i with
  | nil => exact init.bind fun _ _ _ _ => .pure _
  | cons next rest ih =>
    obtain ⟨first, others⟩ := List.forall_mem_cons.mp h
    apply first.instantiate.bind
    intro i' w w' instantiated
    apply init.bind
    intro run _ _ _
    exact (ih others (first.init instantiated)).bind fun _ _ _ _ => .pure _

theorem discreet_chain {middlewares : List (Middleware σ)} (h : ∀ m ∈ middlewares, m.Discreet)
    (terminal : Stage σ) : Action.Discreet (chain middlewares terminal) := by
  rw [chain_eq]
  apply Action.Discreet.bind _ fun _ _ _ _ => .pure _
  cases middlewares with
  | nil => exact .pure []
  | cons m rest =>
    obtain ⟨first, others⟩ := List.forall_mem_cons.mp h
    apply first.instantiate.bind
    intro i w w' instantiated
    exact discreet_setUpFrom others (first.init instantiated)

end Middleware

theorem Entry.discreet_compile {e : Entry σ} (h : ∀ m ∈ e.middlewares, m.Discreet) :
    Action.Discreet e.compile := by
  have folded (handlers : List (Method × Handler σ)) (chains : Dictionary Method (Stage σ)) :
      Action.Discreet (handlers.foldlM (fun chains h => (do
        return chains.insert h.1 (← Middleware.chain e.middlewares h.2.stage) :
          Action σ (Dictionary Method (Stage σ)))) chains) := by
    induction handlers generalizing chains with
    | nil => exact .pure chains
    | cons first rest ih =>
      rw [List.foldlM_cons]
      apply Action.Discreet.bind
      · exact (Middleware.discreet_chain h first.2.stage).bind fun _ _ _ _ => .pure _
      · exact fun chains _ _ _ => ih chains
  rw [compile]
  exact (folded _ _).bind fun _ _ _ _ => .pure _

namespace Dispatcher

theorem continues_mountEntries {entries : List (Entry σ)}
    (h : ∀ e ∈ entries, ∀ m ∈ e.middlewares, m.Discreet) (d : Dispatcher σ) (w : World σ) :
    w.logger.Continues (d.mountEntries entries w).world.logger := by
  induction entries generalizing d w with
  | nil => exact .refl w.logger
  | cons e rest ih =>
    obtain ⟨first, others⟩ := List.forall_mem_cons.mp h
    have compiled := Entry.discreet_compile first w
    rw [mountEntries]
    rcases run : e.compile w with ⟨_ | route, v⟩
    · rwa [run] at compiled
    · rw [run] at compiled
      have noted := v.logger.continues_logAll (d.place route).notices
      have below := ih others (d.place route).value (v.logAll (d.place route).notices)
      exact (compiled.trans noted).trans below

theorem continues_mount (d : Dispatcher σ) (root : Router σ) (w : World σ) :
    (d.cleared.mountEntries (entriesOf root) w).world.logger.Continues
      (d.mount root w).world.logger := by
  rw [mount]
  split
  · exact .refl _
  · exact Logger.continues_logMessage _ _

end Dispatcher

end HttpRouting
