import HttpRouting.Log.Buffer

namespace HttpRouting

inductive BufferCall
  | push (m : LogMessage)
  | pop
  | take (n : Nat)
deriving DecidableEq

inductive BufferAnswer
  | pushed (stored : Bool)
  | popped (m : Option LogMessage)
  | taken (batch : List LogMessage)
deriving DecidableEq

abbrev BufferExchange := BufferCall × BufferAnswer

namespace BufferExchange

def accepted : BufferExchange → List LogMessage
  | (.push m, .pushed true) => [m]
  | _ => []

def handedOut : BufferExchange → List LogMessage
  | (_, .popped (some m)) => [m]
  | (_, .taken batch) => batch
  | _ => []

end BufferExchange

namespace LogBuffer

def perform (b : LogBuffer) : BufferCall → BufferAnswer × LogBuffer
  | .push m =>
    match b.push? m with
    | some b' => (.pushed true, b')
    | none => (.pushed false, b)
  | .pop =>
    match b.pop? with
    | some (m, b') => (.popped (some m), b')
    | none => (.popped none, b)
  | .take n => (.taken (b.take n).1, (b.take n).2)

def performAll (b : LogBuffer) : List BufferCall → List BufferExchange × LogBuffer
  | [] => ([], b)
  | c :: calls =>
    let (answer, b) := b.perform c
    let (exchanges, b) := b.performAll calls
    ((c, answer) :: exchanges, b)

theorem push?_of_lt {b : LogBuffer} (room : b.size < b.capacity) (m : LogMessage) :
    b.push? m = some { b with pending := b.pending ++ [m] } := if_pos room

theorem push?_of_le {b : LogBuffer} (full : b.capacity ≤ b.size) (m : LogMessage) :
    b.push? m = none := if_neg (Nat.not_lt.mpr full)

section

variable (b : LogBuffer) (c : BufferCall)

theorem capacity_perform : (b.perform c).2.capacity = b.capacity := by
  cases c with
  | push m =>
    rw [perform, push?]
    split
    · rename_i stored
      split at stored <;> cases stored
      rfl
    · rfl
  | pop =>
    rw [perform, pop?]
    cases b.pending <;> rfl
  | take n => rfl

theorem size_perform_le (h : b.size ≤ b.capacity) : (b.perform c).2.size ≤ b.capacity := by
  cases c with
  | push m =>
    by_cases room : b.size < b.capacity
    · rw [perform, push?_of_lt room]
      simp only [size, List.length_append, List.length_singleton] at room ⊢
      omega
    · rw [perform, push?_of_le (Nat.not_lt.mp room)]
      exact h
  | pop =>
    rw [perform, pop?]
    cases pending : b.pending with
    | nil => exact h
    | cons m rest =>
      simp only [size, pending, List.length_cons] at h ⊢
      omega
  | take n =>
    simp only [size, perform, take, List.length_drop] at h ⊢
    omega

theorem handedOut_perform :
    BufferExchange.handedOut (c, (b.perform c).1) ++ (b.perform c).2.pending =
      b.pending ++ BufferExchange.accepted (c, (b.perform c).1) := by
  cases c with
  | push m =>
    by_cases room : b.size < b.capacity
    · rw [perform, push?_of_lt room]
      rfl
    · rw [perform, push?_of_le (Nat.not_lt.mp room)]
      exact (List.append_nil b.pending).symm
  | pop =>
    rw [perform, pop?]
    cases pending : b.pending with
    | nil => simp [BufferExchange.handedOut, BufferExchange.accepted, pending]
    | cons m rest => simp [BufferExchange.handedOut, BufferExchange.accepted]
  | take n => simp [BufferExchange.handedOut, BufferExchange.accepted, perform, take]

end

theorem performAll_bounded {b : LogBuffer} (h : b.size ≤ b.capacity) (calls : List BufferCall) :
    (b.performAll calls).2.capacity = b.capacity ∧
      (b.performAll calls).2.size ≤ b.capacity := by
  induction calls generalizing b with
  | nil => exact ⟨rfl, h⟩
  | cons c calls ih =>
    have same := b.capacity_perform c
    have bound := b.size_perform_le c h
    rw [← same] at bound
    obtain ⟨capacity, size⟩ := ih bound
    exact ⟨capacity.trans same, same ▸ size⟩

theorem performAll_conserves (b : LogBuffer) (calls : List BufferCall) :
    (b.performAll calls).1.flatMap BufferExchange.handedOut ++ (b.performAll calls).2.pending =
      b.pending ++ (b.performAll calls).1.flatMap BufferExchange.accepted := by
  induction calls generalizing b with
  | nil => simp [performAll]
  | cons c calls ih =>
    have one := b.handedOut_perform c
    have rest := ih (b.perform c).2
    simp only [performAll, List.flatMap_cons, List.append_assoc]
    rw [rest, ← List.append_assoc, one, List.append_assoc]

structure BoundedFifo (capacity : Nat) (exchanges : List BufferExchange) (b : LogBuffer) :
    Prop where
  bounded : b.size ≤ capacity
  refuses : ∀ m, (b.perform (.push m)).1 = .pushed false ↔ b.size = capacity
  refused : ∀ m, (b.perform (.push m)).1 = .pushed false → (b.perform (.push m)).2 = b
  empty : (b.perform .pop).1 = .popped none ↔ b.size = 0
  takes : ∀ n, ∃ batch, (b.perform (.take n)).1 = .taken batch ∧
    batch.length = min n b.size ∧ (b.perform (.take n)).2.size + batch.length = b.size
  conserves : exchanges.flatMap BufferExchange.handedOut ++ b.pending =
    exchanges.flatMap BufferExchange.accepted

theorem pushed_false_iff {b : LogBuffer} {m : LogMessage} :
    (b.perform (.push m)).1 = .pushed false ↔ b.capacity ≤ b.size := by
  by_cases room : b.size < b.capacity
  · simp [perform, push?_of_lt room, room]
  · simp [perform, push?_of_le (Nat.not_lt.mp room), Nat.not_lt.mp room]

theorem popped_none_iff {b : LogBuffer} :
    (b.perform .pop).1 = .popped none ↔ b.size = 0 := by
  rw [perform, pop?, size]
  cases b.pending <;> simp

theorem bounded_fifo (capacity : Nat) (calls : List BufferCall) :
    BoundedFifo capacity (({ capacity } : LogBuffer).performAll calls).1
      (({ capacity } : LogBuffer).performAll calls).2 := by
  obtain ⟨same, bounded⟩ :=
    performAll_bounded (b := { capacity }) (Nat.zero_le capacity) calls
  have conserves := ({ capacity } : LogBuffer).performAll_conserves calls
  generalize (({ capacity } : LogBuffer).performAll calls).2 = b at same bounded conserves ⊢
  have full : b.capacity ≤ b.size ↔ b.size = capacity := by
    simp only at same bounded
    omega
  exact {
    bounded
    refuses := fun m => pushed_false_iff.trans full
    refused := fun m rejected => by rw [perform, push?_of_le (pushed_false_iff.mp rejected)]
    empty := popped_none_iff
    takes := fun n => ⟨_, rfl, List.length_take, by
      simp only [perform, take, size, List.length_drop, List.length_take]
      omega⟩
    conserves }

end LogBuffer

end HttpRouting
