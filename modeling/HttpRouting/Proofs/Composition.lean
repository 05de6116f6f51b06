import HttpRouting.Proofs.Chains

/-!
Chains as compositions. Main statement: a chain whose middlewares can be set up runs their instances
one in another around its last stage, so that two chains behind each other run as one.
-/

namespace HttpRouting

variable {σ : Type}

namespace Middleware

def Able (m : Middleware σ) : Prop :=
  ∃ make, m.factory = some make ∧ ∀ w, ∃ i w', make w = (.ok (some i), w') ∧
    ∀ v, ∃ run v', MiddlewareInstance.init i v = (.ok run, v')

def Uniform (m : Middleware σ) : Prop := ∀ run run', m.Makes run → m.Makes run' → run = run'

section

variable {m : Middleware σ} {ms : List (Middleware σ)}

theorem attributing_of_ok {α : Type} (m : Middleware σ) {a : Action σ α} {w w' : World σ} {x : α}
    (h : a w = (.ok x, w')) : m.attributing a w = (.ok x, w') := by
  rw [attributing, run_tryCatch, h]

theorem Able.instantiate (h : m.Able) (w : World σ) :
    ∃ i w', m.instantiate w = (.ok i, w') ∧ ∀ v, ∃ run v', m.initialise i v = (.ok run, v') := by
  obtain ⟨make, factory, makes⟩ := h
  obtain ⟨i, w', made, inits⟩ := makes w
  refine ⟨i, w', ?_, fun v => ?_⟩
  · rw [Middleware.instantiate, factory]
    apply m.attributing_of_ok
    exact run_bind_eq_ok.mpr ⟨some i, w', made, rfl⟩
  · obtain ⟨run, v', init⟩ := inits v
    exact ⟨run, v', m.attributing_of_ok init⟩

theorem setUpFrom_of_able {rest : List (Middleware σ)} (h : ∀ m ∈ rest, m.Able)
    {i : MiddlewareInstance σ} (inits : ∀ v, ∃ run v', m.initialise i v = (.ok run, v'))
    (w : World σ) : ∃ runs w', m.setUpFrom i rest w = (.ok runs, w') := by
  induction rest generalizing m i w with
  | nil =>
    obtain ⟨run, w', initialised⟩ := inits w
    exact ⟨[run], w', run_bind_eq_ok.mpr ⟨run, w', initialised, rfl⟩⟩
  | cons next rest ih =>
    obtain ⟨first, others⟩ := List.forall_mem_cons.mp h
    obtain ⟨i', v, instantiated, inits'⟩ := first.instantiate w
    obtain ⟨run, v', initialised⟩ := inits v
    obtain ⟨runs, w', behind⟩ := ih others inits' v'
    refine ⟨run :: runs, w', run_bind_eq_ok.mpr ⟨i', v, instantiated, ?_⟩⟩
    refine run_bind_eq_ok.mpr ⟨run, v', initialised, ?_⟩
    exact run_bind_eq_ok.mpr ⟨runs, w', behind, rfl⟩

theorem setUp_of_able (h : ∀ m ∈ ms, m.Able) (w : World σ) :
    ∃ runs w', setUp ms w = (.ok runs, w') := by
  cases ms with
  | nil => exact ⟨[], w, rfl⟩
  | cons m rest =>
    obtain ⟨first, others⟩ := List.forall_mem_cons.mp h
    obtain ⟨i, v, instantiated, inits⟩ := first.instantiate w
    obtain ⟨runs, w', behind⟩ := setUpFrom_of_able others inits v
    exact ⟨runs, w', run_bind_eq_ok.mpr ⟨i, v, instantiated, behind⟩⟩

theorem chain_of_setUp {w w' : World σ} {runs : List (Stage σ → Stage σ)}
    (h : setUp ms w = (.ok runs, w')) (terminal : Stage σ) :
    chain ms terminal w = (.ok (nest runs terminal), w') := by
  rw [chain_eq]
  exact run_bind_eq_ok.mpr ⟨runs, w', h, rfl⟩

theorem runs_unique (uniform : ∀ m ∈ ms, m.Uniform) {runs runs' : List (Stage σ → Stage σ)}
    (h : List.Forall₂ Makes ms runs) (h' : List.Forall₂ Makes ms runs') : runs = runs' := by
  induction h generalizing runs' with
  | nil =>
    cases h'
    rfl
  | cons made _ ih =>
    obtain ⟨first, others⟩ := List.forall_mem_cons.mp uniform
    cases h' with
    | cons made' rest' => rw [first _ _ made made', ih others rest']

end

theorem chain_runs_nested {ms : List (Middleware σ)} (able : ∀ m ∈ ms, m.Able) (w : World σ) :
    (∃ runs w', setUp ms w = (.ok runs, w') ∧ List.Forall₂ Makes ms runs ∧
      ∀ terminal, chain ms terminal w = (.ok (nest runs terminal), w')) ∧
    ∀ xs ys, ms = xs ++ ys → (∀ m ∈ ms, m.Uniform) → ∀ terminal w₁ w₂,
      ∃ inner outer v v₁ v₂, chain ys terminal w₁ = (.ok inner, v₁) ∧
        chain xs inner w₂ = (.ok outer, v₂) ∧ chain ms terminal w = (.ok outer, v) := by
  obtain ⟨runs, w', set⟩ := setUp_of_able able w
  refine ⟨⟨runs, w', set, setUp_eq_ok set, chain_of_setUp set⟩, ?_⟩
  rintro xs ys rfl uniform terminal w₁ w₂
  obtain ⟨outward, inward⟩ := List.forall_mem_append.mp able
  obtain ⟨inner, v₁, set₁⟩ := setUp_of_able inward w₁
  obtain ⟨outer, v₂, set₂⟩ := setUp_of_able outward w₂
  have parts := List.rel_append (setUp_eq_ok set₂) (setUp_eq_ok set₁)
  obtain rfl := runs_unique uniform (setUp_eq_ok set) parts
  refine ⟨nest inner terminal, nest (outer ++ inner) terminal, w', v₁, v₂, ?_, ?_, ?_⟩
  · exact chain_of_setUp set₁ terminal
  · rw [nest_append]
    exact chain_of_setUp set₂ _
  · exact chain_of_setUp set terminal

def steady (run : Stage σ → Stage σ) : Middleware σ where
  ident := 0
  name := []
  factory := some (return some ⟨return run⟩)

theorem able_steady (run : Stage σ → Stage σ) : (steady run).Able :=
  ⟨_, rfl, fun w => ⟨_, w, rfl, fun v => ⟨run, v, rfl⟩⟩⟩

theorem uniform_steady (run : Stage σ → Stage σ) : (steady run).Uniform := by
  have only {run' : Stage σ → Stage σ} (h : (steady run).Makes run') : run' = run := by
    obtain ⟨make, i, w, w', v, v', factory, made, init⟩ := h
    cases factory
    cases made
    cases init
    rfl
  exact fun _ _ made made' => (only made).trans (only made').symm

def mark (n : Nat) : Serving (List Nat) Unit :=
  modify fun x => { x with world.state := x.world.state ++ [n] }

def twice (n : Nat) (next : Stage (List Nat)) : Serving (List Nat) Response := do
  mark n
  let _ ← next
  let response ← next
  mark n
  return response

def ending (n : Nat) : Serving (List Nat) Response := do
  mark n
  return {}

theorem chain_runs_nested_twice :
    ∃ inner outer v v₁ v₂, chain [steady (twice 2)] (ending 3) { state := [] } = (.ok inner, v₁) ∧
      chain [steady (twice 1)] inner { state := [] } = (.ok outer, v₂) ∧
      chain [steady (twice 1), steady (twice 2)] (ending 3) { state := [] } = (.ok outer, v) ∧
      (outer ⟨{}, v⟩).2.world.state = [1, 2, 3, 3, 2, 2, 3, 3, 2, 1] := by
  have able : ∀ m ∈ [steady (twice 1), steady (twice 2)], m.Able := by simp [able_steady]
  have uniform : ∀ m ∈ [steady (twice 1), steady (twice 2)], m.Uniform := by
    simp [uniform_steady]
  obtain ⟨inner, outer, v, v₁, v₂, behind, before, whole⟩ :=
    (chain_runs_nested able { state := [] }).2 [steady (twice 1)] [steady (twice 2)] rfl uniform
      (ending 3) { state := [] } { state := [] }
  refine ⟨inner, outer, v, v₁, v₂, behind, before, whole, ?_⟩
  cases whole
  rfl

end Middleware

end HttpRouting
