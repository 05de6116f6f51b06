import HttpRouting.Middleware.Chain

namespace HttpRouting

variable {σ : Type}

def nest (runs : List (Stage σ → Stage σ)) (terminal : Stage σ) : Stage σ :=
  runs.foldr (fun run next => run next) terminal

theorem nest_cons (run : Stage σ → Stage σ) (runs : List (Stage σ → Stage σ))
    (terminal : Stage σ) : nest (run :: runs) terminal = run (nest runs terminal) := rfl

theorem nest_append (runs runs' : List (Stage σ → Stage σ)) (terminal : Stage σ) :
    nest (runs ++ runs') terminal = nest runs (nest runs' terminal) := List.foldr_append

namespace Wiring

def passing (runs : List (Stage σ → Stage σ)) : Wiring σ :=
  runs.mapIdx fun k run => some ⟨run, .place (k + 1)⟩

def complete (runs : List (Stage σ → Stage σ)) (terminal : Stage σ) : Wiring σ :=
  runs.mapIdx fun k run =>
    some ⟨run, if k + 1 < runs.length then .place (k + 1) else .terminal terminal⟩

theorem fill_passing (runs : List (Stage σ → Stage σ)) (run : Stage σ → Stage σ) :
    (passing runs ++ [none]).fill ⟨run, .place (passing runs ++ [none]).length⟩ =
      passing (runs ++ [run]) := by
  simp [fill, passing, List.mapIdx_append]

theorem fill_terminal (runs : List (Stage σ → Stage σ)) (run : Stage σ → Stage σ)
    (terminal : Stage σ) :
    (passing runs ++ [none]).fill ⟨run, .terminal terminal⟩ =
      complete (runs ++ [run]) terminal := by
  rw [fill, List.dropLast_concat, complete, List.mapIdx_append]
  congr 1
  · rw [passing, List.mapIdx_eq_mapIdx_iff]
    intro k inside
    rw [if_pos (by simpa using inside)]
  · simp

theorem enter_complete {runs : List (Stage σ → Stage σ)} {hops place : Nat}
    (inside : place < runs.length) (enough : runs.length ≤ place + hops) (terminal : Stage σ) :
    (complete runs terminal).enter hops place = nest (runs.drop place) terminal := by
  -- From each place on, the request passes through the instances that are still to come.
  induction hops generalizing place with
  | zero => omega
  | succ hops ih =>
    have here : (complete runs terminal)[place]? = some (some ⟨runs[place],
        if place + 1 < runs.length then .place (place + 1) else .terminal terminal⟩) := by
      rw [complete, List.getElem?_mapIdx, List.getElem?_eq_getElem inside]
      rfl
    rw [enter, here, List.drop_eq_getElem_cons inside, nest_cons]
    dsimp only
    by_cases later : place + 1 < runs.length
    · rw [if_pos later]
      dsimp only
      rw [ih later (by omega)]
    · rw [if_neg later, List.drop_eq_nil_of_le (by omega)]
      rfl

end Wiring

namespace Middleware

open Wiring

def setUpFrom (m : Middleware σ) (i : MiddlewareInstance σ) :
    List (Middleware σ) → Action σ (List (Stage σ → Stage σ))
  | [] => do
    let run ← m.initialise i
    return [run]
  | next :: rest => do
    let i' ← next.instantiate
    let run ← m.initialise i
    let runs ← next.setUpFrom i' rest
    return run :: runs

def setUp : List (Middleware σ) → Action σ (List (Stage σ → Stage σ))
  | [] => return []
  | m :: rest => do
    let i ← m.instantiate
    m.setUpFrom i rest

theorem wire_eq (m : Middleware σ) (i : MiddlewareInstance σ) (runs : List (Stage σ → Stage σ))
    (terminal : Stage σ) (rest : List (Middleware σ)) :
    m.wire i (passing runs ++ [none]) terminal rest = (do
      let more ← m.setUpFrom i rest
      return complete (runs ++ more) terminal) := by
  induction rest generalizing m i runs with
  | nil => simp only [wire, setUpFrom, bind_assoc, pure_bind, fill_terminal]
  | cons next rest ih =>
    simp only [wire, setUpFrom, bind_assoc, pure_bind, fill_passing, ih, List.append_assoc,
      List.singleton_append]

theorem ne_nil_of_setUpFrom {m : Middleware σ} {i : MiddlewareInstance σ}
    {rest : List (Middleware σ)} {w w' : World σ} {runs : List (Stage σ → Stage σ)}
    (h : m.setUpFrom i rest w = (.ok runs, w')) : runs ≠ [] := by
  cases rest with
  | nil =>
    obtain ⟨run, _, -, made⟩ := run_bind_eq_ok.mp h
    cases made
    exact List.cons_ne_nil _ _
  | cons next rest =>
    obtain ⟨i', _, -, h⟩ := run_bind_eq_ok.mp h
    obtain ⟨run, _, -, h⟩ := run_bind_eq_ok.mp h
    obtain ⟨runs, _, -, made⟩ := run_bind_eq_ok.mp h
    cases made
    exact List.cons_ne_nil _ _

theorem chain_eq (middlewares : List (Middleware σ)) (terminal : Stage σ) :
    chain middlewares terminal = (do
      let runs ← setUp middlewares
      return nest runs terminal) := by
  cases middlewares with
  | nil => rfl
  | cons m rest =>
    rw [chain, setUp, bind_assoc]
    congr 1
    funext i w
    have wired := m.wire_eq i [] terminal rest
    rw [passing, List.mapIdx_nil, List.nil_append] at wired
    rw [wired, bind_assoc, run_bind, run_bind]
    rcases built : m.setUpFrom i rest w with ⟨_ | runs, v⟩
    · rfl
    · have inside : 0 < runs.length := List.length_pos_iff.mpr (ne_nil_of_setUpFrom built)
      have enough : runs.length ≤ 0 + (complete runs terminal).length := by simp [complete]
      have entered := enter_complete inside enough terminal
      dsimp only
      rw [List.nil_append, pure_bind, entered, List.drop_zero]

end Middleware

end HttpRouting
