import HttpRouting.Dictionary.Latest
import HttpRouting.Dispatch.Route
import HttpRouting.Proofs.Wirings
import Mathlib.Data.List.Forall2

namespace HttpRouting

variable {σ : Type}

namespace Middleware

def Makes (m : Middleware σ) (run : Stage σ → Stage σ) : Prop :=
  ∃ make i w w' v v', m.factory = some make ∧ make w = (.ok (some i), w') ∧
    MiddlewareInstance.init i v = (.ok run, v')

def IsChain (ms : List (Middleware σ)) (terminal stage : Stage σ) : Prop :=
  ∃ w w', chain ms terminal w = (.ok stage, w')

inductive Built (terminal : Stage σ) : List (Middleware σ) → Stage σ → Prop
  | nil : Built terminal [] terminal
  | cons {m : Middleware σ} {ms : List (Middleware σ)} {run : Stage σ → Stage σ} {inner : Stage σ}
      (made : m.Makes run) (rest : Built terminal ms inner) : Built terminal (m :: ms) (run inner)

theorem attributing_eq_ok {α : Type} {m : Middleware σ} {a : Action σ α} {w w' : World σ} {x : α}
    (h : m.attributing a w = (.ok x, w')) : a w = (.ok x, w') := by
  rw [attributing, run_tryCatch] at h
  rcases run : a w with ⟨_ | y, v⟩
  · rw [run] at h
    cases h
  · rw [run] at h
    exact h

theorem instantiate_eq_ok {m : Middleware σ} {w w' : World σ} {i : MiddlewareInstance σ}
    (h : m.instantiate w = (.ok i, w')) :
    ∃ make, m.factory = some make ∧ ∃ v, make w = (.ok (some i), v) := by
  rw [instantiate] at h
  cases factory : m.factory with
  | none =>
    rw [factory] at h
    cases h
  | some make =>
    rw [factory] at h
    obtain ⟨made, v, run, rest⟩ := run_bind_eq_ok.mp (attributing_eq_ok h)
    cases made with
    | none => cases rest
    | some i' =>
      cases rest
      exact ⟨make, rfl, w', run⟩

theorem makes_of_initialise {m : Middleware σ} {i : MiddlewareInstance σ} {u u' w w' : World σ}
    {run : Stage σ → Stage σ} (instantiated : m.instantiate u = (.ok i, u'))
    (initialised : m.initialise i w = (.ok run, w')) : m.Makes run := by
  obtain ⟨make, factory, v, made⟩ := instantiate_eq_ok instantiated
  exact ⟨make, i, u, v, w, w', factory, made, attributing_eq_ok initialised⟩

theorem setUpFrom_eq_ok {rest : List (Middleware σ)} {m : Middleware σ} {i : MiddlewareInstance σ}
    {u u' : World σ} (instantiated : m.instantiate u = (.ok i, u')) {w w' : World σ}
    {runs : List (Stage σ → Stage σ)} (h : m.setUpFrom i rest w = (.ok runs, w')) :
    List.Forall₂ Makes (m :: rest) runs := by
  induction rest generalizing m i u u' w w' runs with
  | nil =>
    obtain ⟨run, _, initialised, made⟩ := run_bind_eq_ok.mp h
    cases made
    exact .cons (makes_of_initialise instantiated initialised) .nil
  | cons next rest ih =>
    obtain ⟨i', _, instantiated', h⟩ := run_bind_eq_ok.mp h
    obtain ⟨run, _, initialised, h⟩ := run_bind_eq_ok.mp h
    obtain ⟨runs, _, behind, made⟩ := run_bind_eq_ok.mp h
    cases made
    exact .cons (makes_of_initialise instantiated initialised) (ih instantiated' behind)

theorem setUp_eq_ok {middlewares : List (Middleware σ)} {w w' : World σ}
    {runs : List (Stage σ → Stage σ)} (h : setUp middlewares w = (.ok runs, w')) :
    List.Forall₂ Makes middlewares runs := by
  cases middlewares with
  | nil =>
    cases h
    exact .nil
  | cons m rest =>
    obtain ⟨i, _, instantiated, h⟩ := run_bind_eq_ok.mp h
    exact setUpFrom_eq_ok instantiated h

theorem built_nest {middlewares : List (Middleware σ)} {runs : List (Stage σ → Stage σ)}
    (h : List.Forall₂ Makes middlewares runs) (terminal : Stage σ) :
    Built terminal middlewares (nest runs terminal) := by
  induction h with
  | nil => exact .nil
  | cons made _ ih =>
    rw [nest_cons]
    exact .cons made ih

theorem chain_eq_ok {middlewares : List (Middleware σ)} {terminal stage : Stage σ}
    {w w' : World σ} (h : chain middlewares terminal w = (.ok stage, w')) :
    Built terminal middlewares stage := by
  rw [chain_eq] at h
  obtain ⟨runs, _, set, made⟩ := run_bind_eq_ok.mp h
  cases made
  exact built_nest (setUp_eq_ok set) terminal

end Middleware

open Middleware

theorem chains_of_foldlM {ms : List (Middleware σ)} {handlers : List (Method × Handler σ)}
    {chains chains' : Dictionary Method (Stage σ)} {w w' : World σ}
    (h : handlers.foldlM (fun chains h => (do
      return chains.insert h.1 (← chain ms h.2.stage) : Action σ (Dictionary Method (Stage σ))))
        chains w = (.ok chains', w')) (m : Method) :
    (latest m handlers = none → chains'.find? m = chains.find? m) ∧
      ∀ handler, latest m handlers = some handler →
        ∃ stage, chains'.find? m = some stage ∧ IsChain ms handler.stage stage := by
  induction handlers generalizing chains w with
  | nil =>
    cases h
    exact ⟨fun _ => rfl, nofun⟩
  | cons first rest ih =>
    obtain ⟨between, v, one, others⟩ := run_bind_eq_ok.mp h
    obtain ⟨stage, _, built, placed⟩ := run_bind_eq_ok.mp one
    have chained : IsChain ms first.2.stage stage := ⟨_, _, built⟩
    cases placed
    obtain ⟨kept, served⟩ := ih others
    rw [latest_cons]
    cases later : latest m rest with
    | some handler =>
      rw [Option.some_or]
      exact ⟨nofun, fun handler' same => Option.some.inj same ▸ served handler later⟩
    | none =>
      rw [Option.none_or, kept later, Dictionary.find?_insert]
      by_cases same : first.1 = m
      · rw [if_pos same]
        refine ⟨nofun, fun handler found => ⟨stage, ?_, ?_⟩⟩
        · simp [same]
        · rw [← Option.some.inj found]
          exact chained
      · rw [if_neg same]
        refine ⟨fun _ => if_neg ?_, nofun⟩
        simp [Ne.symm same]

theorem Entry.find?_chains {e : Entry σ} {w w' : World σ} {route : CompiledRoute σ}
    (h : e.compile w = (.ok route, w')) (m : Method) :
    (e.handlers.find? m = none → route.chains.find? m = none) ∧
      ∀ handler, e.handlers.find? m = some handler →
        ∃ stage, route.chains.find? m = some stage ∧
          IsChain e.middlewares handler.stage stage := by
  obtain ⟨chains, _, folded, made⟩ := run_bind_eq_ok.mp h
  cases made
  rw [← Dictionary.latest_entries]
  exact chains_of_foldlM folded m

theorem CompiledRoute.chainFor?_eq (r : CompiledRoute σ) (m : Method) :
    r.chainFor? m = (r.chains.find? m).or (r.chains.find? .all) := by
  rw [chainFor?, servingMethod?, Dictionary.contains, Dictionary.contains]
  cases own : r.chains.find? m with
  | some stage => simp [own]
  | none =>
    cases all : r.chains.find? .all with
    | some stage => simp [all]
    | none => simp

theorem Entry.chainFor?_compile {e : Entry σ} {w w' : World σ} {route : CompiledRoute σ}
    (h : e.compile w = (.ok route, w')) (m : Method) :
    ((e.handlers.find? m).or (e.handlers.find? .all) = none → route.chainFor? m = none) ∧
      ∀ handler, (e.handlers.find? m).or (e.handlers.find? .all) = some handler →
        ∃ stage, route.chainFor? m = some stage ∧ IsChain e.middlewares handler.stage stage := by
  rw [route.chainFor?_eq]
  constructor
  · intro unserved
    obtain ⟨own, all⟩ := Option.or_eq_none_iff.mp unserved
    rw [(e.find?_chains h m).1 own, (e.find?_chains h .all).1 all, Option.none_or]
  · intro handler served
    rcases Option.or_eq_some_iff.mp served with own | ⟨none, all⟩
    · obtain ⟨stage, found, chained⟩ := (e.find?_chains h m).2 handler own
      exact ⟨stage, by rw [found, Option.some_or], chained⟩
    · obtain ⟨stage, found, chained⟩ := (e.find?_chains h .all).2 handler all
      exact ⟨stage, by rw [(e.find?_chains h m).1 none, Option.none_or, found], chained⟩

theorem Entry.chainFor?_of_served {e : Entry σ} {w w' : World σ} {route : CompiledRoute σ}
    (h : e.compile w = (.ok route, w')) {m : Method} {handler : Handler σ}
    (served : (e.handlers.find? m).or (e.handlers.find? .all) = some handler) :
    ∃ stage, route.chainFor? m = some stage ∧ Built handler.stage e.middlewares stage := by
  obtain ⟨stage, found, _, _, chained⟩ := (e.chainFor?_compile h m).2 handler served
  exact ⟨stage, found, chain_eq_ok chained⟩

end HttpRouting
