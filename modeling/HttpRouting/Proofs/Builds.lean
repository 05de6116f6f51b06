import HttpRouting.Proofs.Breakdowns

namespace HttpRouting

open Middleware SetUpCall

variable {σ : Type}

structure Site (σ : Type) where
  entry : Entry σ
  method : Method
  handler : Handler σ

def Entry.sites (e : Entry σ) : List (Site σ) := e.handlers.entries.map fun h => ⟨e, h.1, h.2⟩

def Router.sites (root : Router σ) : List (Site σ) :=
  (Dispatcher.entriesOf root).flatMap Entry.sites

def Site.calls (s : Site σ) : List SetUpCall :=
  match s.entry.middlewares with
  | [] => []
  | _ :: rest => schedule rest.length

theorem Site.calls_of_nil {s : Site σ} (none : s.entry.middlewares = []) : s.calls = [] := by
  rw [calls, none]

theorem Site.calls_of_cons {s : Site σ} {m : Middleware σ} {rest : List (Middleware σ)}
    (listed : s.entry.middlewares = m :: rest) : s.calls = schedule rest.length := by
  rw [calls, listed]

def MiddlewareInstance.Yields (i : MiddlewareInstance σ) (run : Stage σ → Stage σ) : Prop :=
  ∃ w w', i.callInit w = (.ok run, w')

structure Build (σ : Type) where
  site : Site σ
  assembly : Assembly σ

namespace Build

def stage (b : Build σ) : Stage σ := nest (b.assembly.wired.map (·.run)) b.site.handler.stage

structure Whole (b : Build σ) : Prop where
  distinct : b.site.calls.Nodup
  created : ∀ k, create k ∈ b.site.calls ↔ k < b.site.entry.middlewares.length
  initialised : ∀ k, init k ∈ b.site.calls ↔ k < b.site.entry.middlewares.length
  instances : b.assembly.instances.length = b.site.entry.middlewares.length
  wired : List.Forall₂ MiddlewareInstance.Yields b.assembly.instances
    (b.assembly.wired.map (·.run))

end Build

inductive SetsUp : List (Build σ) → World σ → World σ → Prop
  | done {w : World σ} : SetsUp [] w w
  | logged {builds : List (Build σ)} {w w' : World σ} (notices : List LogMessage)
      (rest : SetsUp builds (w.logAll notices) w') : SetsUp builds w w'
  | chain {b : Build σ} {builds : List (Build σ)} {w v w' : World σ}
      (follows : Follows b.site.entry.middlewares b.site.handler.stage b.site.calls {} w
        b.site.calls (.ok b.assembly) v)
      (rest : SetsUp builds v w') : SetsUp (b :: builds) w w'

theorem SetsUp.append {builds more : List (Build σ)} {w v w' : World σ} (h : SetsUp builds w v)
    (h' : SetsUp more v w') : SetsUp (builds ++ more) w w' := by
  induction h with
  | done => exact h'
  | logged notices _ ih => exact .logged notices (ih h')
  | chain follows _ ih => exact .chain follows (ih h')

theorem SetsUp.log {builds : List (Build σ)} {w w' : World σ} (h : SetsUp builds w w')
    (level : LogLevel) (text : Bytes) : SetsUp builds w (w'.log level text) := by
  have noticed : SetsUp [] w' (w'.log level text) := .logged [⟨level, text⟩] .done
  have both := h.append noticed
  rwa [List.append_nil] at both

section

variable {ms : List (Middleware σ)} {terminal : Stage σ} {calls made : List SetUpCall}
  {a a' : Assembly σ} {w w' : World σ}

theorem Follows.create_mem (h : Follows ms terminal calls a w made (.ok a') w') {k : Nat}
    (inside : k < a'.instances.length) : k < a.instances.length ∨ create k ∈ calls := by
  generalize hr : (Except.ok a' : Except (Breakdown σ) (Assembly σ)) = r at h
  induction h with
  | done =>
    cases hr
    exact .inl inside
  | failed => cases hr
  | @next call _ _ a _ _ _ _ _ yields _ ih =>
    rcases ih hr with here | later
    · cases call with
      | create k' =>
        obtain ⟨length, m, i, -, -, rfl⟩ := yields.create_ok
        rw [Assembly.created, List.length_append, length, List.length_singleton] at here
        rcases Nat.lt_succ_iff_lt_or_eq.mp here with before | rfl
        · exact .inl (length ▸ before)
        · exact .inr List.mem_cons_self
      | init k' =>
        obtain ⟨-, i, run, -, -, rfl⟩ := yields.init_ok
        exact .inl here
    · exact .inr (List.mem_cons_of_mem _ later)

theorem Follows.yields {m : Middleware σ} {rest : List (Middleware σ)}
    (h : Follows (m :: rest) terminal (schedule rest.length) {} w made (.ok a) w') :
    a.instances.length = rest.length + 1 ∧
      List.Forall₂ MiddlewareInstance.Yields a.instances (a.wired.map (·.run)) ∧
      a.entrance = nest (a.wired.map (·.run)) terminal := by
  have wired (k : Nat) (inside : k < rest.length + 1) :=
    h.wired_of_mem (init_mem_schedule.mpr (Nat.le_of_lt_succ inside))
  have length : a.wired.length = rest.length + 1 := h.length_wired rfl
  have instances : a.instances.length = rest.length + 1 := by
    apply Nat.le_antisymm
    · by_contra more
      rcases h.create_mem (Nat.lt_of_not_le more) with none | due
      · cases none
      · exact absurd (create_mem_schedule.mp due) (Nat.not_succ_le_self _)
    · obtain ⟨i, -, -, -, here, -⟩ := wired rest.length (Nat.lt_succ_self _)
      exact (List.getElem?_eq_some_iff.mp here).1
  refine ⟨instances, ?_, ?_⟩
  · refine List.forall₂_iff_get.mpr ⟨by rw [List.length_map, instances, length], ?_⟩
    intro k inside _
    obtain ⟨i, v, run, v', made, called, here⟩ := wired k (instances ▸ inside)
    obtain ⟨_, rfl⟩ := List.getElem?_eq_some_iff.mp made
    obtain ⟨_, here⟩ := List.getElem?_eq_some_iff.mp here
    refine ⟨v, v', ?_⟩
    rw [List.get_eq_getElem, List.get_eq_getElem, List.getElem_map, here]
    exact called
  · refine Assembly.entrance_eq (List.cons_ne_nil m rest) length fun k inside => ?_
    obtain ⟨i, v, run, v', -, -, here⟩ := wired k inside
    exact ⟨run, here⟩

theorem chain_assembled {s : Site σ} {stage : Stage σ}
    (h : Middleware.chain s.entry.middlewares s.handler.stage w = (.ok stage, w')) :
    ∃ b : Build σ, b.site = s ∧ b.stage = stage ∧ b.Whole ∧
      Follows s.entry.middlewares s.handler.stage s.calls {} w s.calls (.ok b.assembly) w' := by
  cases listed : s.entry.middlewares with
  | nil =>
    rw [listed] at h
    cases h
    have calls := Site.calls_of_nil listed
    have due (call : SetUpCall) (k : Nat) :
        call ∈ s.calls ↔ k < s.entry.middlewares.length := by simp [calls, listed]
    refine ⟨⟨s, {}⟩, rfl, rfl, ⟨?_, fun k => due _ k, fun k => due _ k, ?_, .nil⟩, ?_⟩
    · rw [calls]
      exact .nil
    · rw [listed]
      rfl
    · rw [calls]
      exact .done
  | cons m rest =>
    have calls := Site.calls_of_cons listed
    obtain ⟨made, r, v, follows, built⟩ := chain_follows m rest s.handler.stage w
    rw [listed, built] at h
    rcases r with b | a
    · cases h
    · cases h
      obtain ⟨instances, yields, entrance⟩ := follows.yields
      rw [follows.made_all] at follows
      refine ⟨⟨s, a⟩, rfl, entrance.symm, ⟨?_, ?_, ?_, ?_, yields⟩, calls ▸ follows⟩
      · rw [calls]
        exact nodup_schedule _
      · intro k
        rw [calls, create_mem_schedule, listed, List.length_cons, Nat.lt_succ_iff]
      · intro k
        rw [calls, init_mem_schedule, listed, List.length_cons, Nat.lt_succ_iff]
      · rw [listed]
        exact instances

end

theorem setsUp_addChains {e : Entry σ} {handlers : List (Method × Handler σ)}
    {chains chains' : Dictionary Method (Stage σ)} {w w' : World σ}
    (h : handlers.foldlM e.addChain chains w = (.ok chains', w')) :
    ∃ builds : List (Build σ), builds.map (·.site) = handlers.map (fun h => ⟨e, h.1, h.2⟩) ∧
      SetsUp builds w w' ∧ (∀ b ∈ builds, b.Whole) ∧
      ∀ m stage, chains'.find? m = some stage →
        chains.find? m = some stage ∨ ∃ b ∈ builds, b.site.method = m ∧ b.stage = stage := by
  induction handlers generalizing chains w with
  | nil =>
    cases h
    exact ⟨[], rfl, .done, nofun, fun _ _ found => .inl found⟩
  | cons first rest ih =>
    obtain ⟨between, v, added, others⟩ := run_bind_eq_ok.mp h
    obtain ⟨stage, _, built, placed⟩ := run_bind_eq_ok.mp added
    cases placed
    obtain ⟨b, site, rfl, whole, follows⟩ := chain_assembled (s := ⟨e, first.1, first.2⟩) built
    obtain ⟨builds, sites, sets, wholes, chained⟩ := ih others
    refine ⟨b :: builds, by rw [List.map_cons, site, sites, List.map_cons], ?_,
      List.forall_mem_cons.mpr ⟨whole, wholes⟩, fun m stage found => ?_⟩
    · exact .chain (site ▸ follows) sets
    · rcases chained m stage found with kept | ⟨b', hb', method, same⟩
      · rw [Dictionary.find?_insert] at kept
        split at kept
        · rename_i key
          have key : m = first.1 := Std.LawfulEqOrd.eq_of_compare key
          exact .inr ⟨b, List.mem_cons_self, by rw [site, key], Option.some.inj kept⟩
        · exact .inl kept
      · exact .inr ⟨b', List.mem_cons_of_mem b hb', method, same⟩

theorem setsUp_compile {e : Entry σ} {route : CompiledRoute σ} {w w' : World σ}
    (h : e.compile w = (.ok route, w')) :
    ∃ builds : List (Build σ), builds.map (·.site) = e.sites ∧ SetsUp builds w w' ∧
      (∀ b ∈ builds, b.Whole) ∧
      ∀ m stage, route.chains.find? m = some stage →
        ∃ b ∈ builds, b.site.method = m ∧ b.stage = stage := by
  rw [Entry.compile_eq] at h
  obtain ⟨chains, _, folded, made⟩ := run_bind_eq_ok.mp h
  cases made
  obtain ⟨builds, sites, sets, wholes, chained⟩ := setsUp_addChains folded
  exact ⟨builds, sites, sets, wholes, fun m stage found =>
    (chained m stage found).resolve_left nofun⟩

namespace Dispatcher

theorem setsUp_mountEntries {entries : List (Entry σ)} {d : Dispatcher σ} {w : World σ}
    (h : (d.mountEntries entries w).fault = none) :
    ∃ builds : List (Build σ), builds.map (·.site) = entries.flatMap Entry.sites ∧
      SetsUp builds w (d.mountEntries entries w).world ∧ (∀ b ∈ builds, b.Whole) ∧
      ∀ route ∈ d.compiled entries w, ∀ m stage, route.chains.find? m = some stage →
        ∃ b ∈ builds, b.site.entry = route.entry ∧ b.site.method = m ∧ b.stage = stage := by
  induction entries generalizing d w with
  | nil => exact ⟨[], rfl, .done, nofun, nofun⟩
  | cons e rest ih =>
    rw [mountEntries] at h ⊢
    rw [compiled]
    rcases found : e.compile w with ⟨_ | route, v⟩
    · rw [found] at h
      cases h
    · rw [found] at h
      obtain ⟨first, sites, sets, wholes, chained⟩ := setsUp_compile found
      obtain ⟨others, sites', sets', wholes', chained'⟩ := ih h
      have entry := Entry.entry_of_compile found
      refine ⟨first ++ others, ?_, ?_, ?_, ?_⟩
      · rw [List.map_append, sites, sites', List.flatMap_cons]
      · exact sets.append (.logged _ sets')
      · exact List.forall_mem_append.mpr ⟨wholes, wholes'⟩
      · intro route' hr m stage bound
        rcases List.mem_cons.mp hr with rfl | hr
        · obtain ⟨b, hb, method, same⟩ := chained m stage bound
          have own : b.site ∈ e.sites := sites ▸ List.mem_map_of_mem hb
          obtain ⟨_, -, site⟩ := List.mem_map.mp own
          exact ⟨b, List.mem_append_left _ hb, by rw [← site, entry], method, same⟩
        · obtain ⟨b, hb, same⟩ := chained' route' hr m stage bound
          exact ⟨b, List.mem_append_right _ hb, same⟩

theorem setsUp_mount {d : Dispatcher σ} {root : Router σ} {w : World σ}
    (h : (d.mount root w).fault = none) :
    ∃ builds : List (Build σ), builds.map (·.site) = root.sites ∧
      SetsUp builds w (d.mount root w).world ∧ (∀ b ∈ builds, b.Whole) ∧
      ∀ route ∈ d.mountedRoutes root w, ∀ m stage, route.chains.find? m = some stage →
        ∃ b ∈ builds, b.site.entry = route.entry ∧ b.site.method = m ∧ b.stage = stage := by
  have passed := h
  rw [fault_mount] at passed
  obtain ⟨builds, sites, sets, wholes, chained⟩ := setsUp_mountEntries passed
  refine ⟨builds, sites, ?_, wholes, chained⟩
  rw [mount, passed]
  exact sets.log _ _

end Dispatcher

end HttpRouting
