import HttpRouting.Fault
import HttpRouting.Http.Context
import HttpRouting.Log.Logger

/-!
What answers requests. A stage turns the context of a request into a response or a fault; what it
does to the context and to the world stays done either way.
-/

namespace HttpRouting

/-- What lasts from one request to the next. The clock counts microseconds, and `state` is whatever
the handlers keep. -/
structure World (σ : Type) where
  logger : Logger := {}
  clock : Nat := 0
  state : σ

abbrev Action (σ α : Type) := ExceptT Fault (StateM (World σ)) α

structure Exchange (σ : Type) where
  context : Context
  world : World σ

abbrev Serving (σ α : Type) := ExceptT Fault (StateM (Exchange σ)) α

abbrev Stage (σ : Type) := Serving σ Response

section

variable {ε S α β : Type}

theorem run_bind (x : ExceptT ε (StateM S) α) (f : α → ExceptT ε (StateM S) β) (s : S) :
    (x >>= f) s =
      match x s with
      | (.ok a, s) => f a s
      | (.error e, s) => (.error e, s) := by
  change (match x s with | (a, s) => ExceptT.bindCont f a s) = _
  rcases x s with ⟨_ | a, s⟩ <;> rfl

theorem run_bind_eq_ok {x : ExceptT ε (StateM S) α} {f : α → ExceptT ε (StateM S) β} {s s' : S}
    {b : β} :
    (x >>= f) s = (.ok b, s') ↔
      ∃ a between, x s = (.ok a, between) ∧ f a between = (.ok b, s') := by
  rw [run_bind]
  rcases x s with ⟨_ | a, s⟩
  · constructor
    · rintro ⟨⟩
    · rintro ⟨_, _, ⟨⟩, _⟩
  · constructor
    · intro h
      exact ⟨a, s, rfl, h⟩
    · rintro ⟨_, _, ⟨⟩, h⟩
      exact h

theorem run_bind_eq_error {x : ExceptT ε (StateM S) α} {f : α → ExceptT ε (StateM S) β} {s s' : S}
    {e : ε} :
    (x >>= f) s = (.error e, s') ↔
      x s = (.error e, s') ∨ ∃ a between, x s = (.ok a, between) ∧ f a between = (.error e, s') := by
  rw [run_bind]
  rcases x s with ⟨_ | a, s⟩
  · constructor
    · rintro ⟨⟩
      exact .inl rfl
    · rintro (⟨⟨⟩⟩ | ⟨_, _, ⟨⟩, _⟩)
      rfl
  · constructor
    · intro h
      exact .inr ⟨a, s, rfl, h⟩
    · rintro (h | ⟨_, _, ⟨⟩, h⟩)
      · cases h
      · exact h

theorem run_bind_pure_eq_error {x : ExceptT ε (StateM S) α} {g : α → β} {s s' : S} {e : ε} :
    (x >>= fun a => pure (g a)) s = (.error e, s') ↔ x s = (.error e, s') := by
  rw [run_bind_eq_error]
  constructor
  · rintro (failed | ⟨_, _, _, ⟨⟩⟩)
    exact failed
  · exact .inl

theorem run_tryCatch (x : ExceptT ε (StateM S) α) (f : ε → ExceptT ε (StateM S) α) (s : S) :
    tryCatch x f s =
      match x s with
      | (.ok a, s) => (.ok a, s)
      | (.error e, s) => f e s := by
  change (match x s with
    | (r, s) => (match r with
      | .ok a => (pure (.ok a) : StateM S (Except ε α))
      | .error e => f e) s) = _
  rcases x s with ⟨_ | a, s⟩ <;> rfl

end

def World.log {σ : Type} (w : World σ) (level : LogLevel) (text : Bytes) : World σ :=
  { w with logger := w.logger.log level text }

def Action.serving {σ α : Type} (a : Action σ α) : Serving σ α :=
  fun x =>
    let (result, world) := a x.world
    (result, { x with world })

def Stage.runOn {σ : Type} (s : Stage σ) (c : Context) (w : World σ) :
    Except Fault Response × Exchange σ :=
  s ⟨c, w⟩

structure Handler (σ : Type) where
  ident : Nat
  isAsync : Bool
  stage : Stage σ

end HttpRouting
