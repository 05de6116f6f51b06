import Mathlib.Data.Fintype.EquivFin
import HttpRouting.Application.Run
import HttpRouting.Proofs.Startup

/-!
What an application serves in the course of a run. Main statement: it answers requests as the
dispatcher that the last successful start has mounted, and refuses them just if that start has been
followed by a stop or there has been none. A start that fails makes no difference to it.
-/

namespace HttpRouting

variable {σ : Type}

section

variable {outcomes : List (Outcome σ)} {d d' : Dispatcher σ} {since since' : List (Outcome σ)}
  {e : Outcome σ}

theorem LastStart.mem (h : LastStart outcomes d since) : .started d ∈ outcomes := by
  obtain ⟨⟨before, rfl⟩, -⟩ := h
  simp

theorem LastStart.started (outcomes : List (Outcome σ)) (d : Dispatcher σ) :
    LastStart (outcomes ++ [.started d]) d [] :=
  ⟨⟨outcomes, rfl⟩, by simp⟩

theorem LastStart.append (h : LastStart outcomes d since) (other : ∀ d', e ≠ .started d') :
    LastStart (outcomes ++ [e]) d (since ++ [e]) := by
  obtain ⟨⟨before, rfl⟩, none⟩ := h
  refine ⟨⟨before, by simp⟩, fun d' started => ?_⟩
  rcases List.mem_append.mp started with started | started
  · exact none d' started
  · exact other d' (List.mem_singleton.mp started).symm

theorem LastStart.unique (h : LastStart outcomes d since) (h' : LastStart outcomes d' since') :
    d = d' ∧ since = since' := by
  obtain ⟨⟨before, rfl⟩, none⟩ := h
  obtain ⟨⟨before', split⟩, none'⟩ := h'
  rcases List.append_eq_append_iff.mp split with ⟨between, -, after⟩ | ⟨between, -, after⟩
  · cases between with
    | nil =>
      obtain ⟨same, rest⟩ := List.cons.inj after
      exact ⟨Outcome.started.inj same, rest⟩
    | cons first between =>
      have later : .started d' ∈ since := by simp [(List.cons.inj after).2]
      exact absurd later (none d')
  · cases between with
    | nil =>
      obtain ⟨same, rest⟩ := List.cons.inj after
      exact ⟨(Outcome.started.inj same).symm, rest.symm⟩
    | cons first between =>
      have later : .started d ∈ since' := by simp [(List.cons.inj after).2]
      exact absurd later (none' d)

end

def Tracks (outcomes : List (Outcome σ)) (app : Application σ) : Prop :=
  ((∀ d, .started d ∉ outcomes) ∧ app.running = false) ∨
    ∃ since, LastStart outcomes app.dispatcher since ∧ (app.running = true ↔ .stopped ∉ since)

namespace Tracks

variable {outcomes : List (Outcome σ)} {app app' : Application σ}

theorem started {d : Dispatcher σ} (dispatcher : app.dispatcher = d) (running : app.running = true) :
    Tracks (outcomes ++ [.started d]) app :=
  .inr ⟨[], dispatcher ▸ .started outcomes app.dispatcher, by simp [running]⟩

theorem append (h : Tracks outcomes app) {e : Outcome σ} (other : ∀ d, e ≠ .started d)
    (dispatcher : app'.dispatcher = app.dispatcher)
    (running : app'.running = true ↔ app.running = true ∧ e ≠ .stopped) :
    Tracks (outcomes ++ [e]) app' := by
  rcases h with ⟨never, halted⟩ | ⟨since, last, serving⟩
  · left
    refine ⟨fun d started => ?_, by simpa [halted] using running⟩
    rcases List.mem_append.mp started with started | started
    · exact never d started
    · exact other d (List.mem_singleton.mp started).symm
  · right
    refine ⟨since ++ [e], dispatcher ▸ last.append other, ?_⟩
    rw [running, serving, List.mem_append, List.mem_singleton, not_or, ne_comm]

theorem halted_iff (h : Tracks outcomes app) : Halted outcomes ↔ app.running = false := by
  rcases h with ⟨never, halted⟩ | ⟨since, last, serving⟩
  · exact ⟨fun _ => halted, fun _ => .inl never⟩
  · constructor
    · rintro (never | ⟨d, since', last', stopped⟩)
      · exact absurd last.mem (never _)
      · rw [(last'.unique last).2] at stopped
        rw [← Bool.not_eq_true, serving]
        exact not_not_intro stopped
    · intro halted
      refine .inr ⟨_, since, last, ?_⟩
      by_contra absent
      rw [serving.mpr absent] at halted
      cases halted

end Tracks

namespace Application

variable {app : Application σ} {config : AppConfig} {f : Forest σ} {w : World σ}

theorem app_start (app : Application σ) (config : AppConfig) (f : Forest σ) (w : World σ) :
    (app.start config f w).app =
      match app.mounting config f w with
      | none => { app with config }
      | some mounted =>
        match mounted.fault with
        | none => { app with config, dispatcher := mounted.dispatcher, running := true }
        | some _ => { app with config } := by
  rw [start, mounting]
  dsimp only
  cases (f.compose app.root).forest.find? app.root with
  | none => rfl
  | some root =>
    dsimp only [Option.map_some]
    split <;> rename_i failed <;> rw [failed]

theorem fault_start (app : Application σ) (config : AppConfig) (f : Forest σ) (w : World σ) :
    (app.start config f w).fault = (app.mounting config f w).bind (·.fault) := by
  rw [start, mounting]
  dsimp only
  cases (f.compose app.root).forest.find? app.root with
  | none => rfl
  | some root =>
    dsimp only [Option.map_some, Option.bind_some]
    split <;> rename_i failed <;> rw [failed]

theorem app_stop (app : Application σ) (w : World σ) :
    (app.stop w).1 = { app with running := false } := by
  rw [stop]
  cases running : app.running with
  | true => rfl
  | false => rw [if_neg Bool.false_ne_true, ← running]

structure Refuses (app : Application σ) : Prop where
  handle : ∀ request w, app.handleRequest request w =
    (.error (.base (ascii "Can't handle requests before start()") 0 ""), w)
  load : ∀ a w, app.load a w =
    (.error (.base (ascii "Can't load routes into a transport before start()") 0 ""), w)

def loading (routes : List LoadedRoute) : List LogMessage :=
  routes.map fun r => ⟨.debug, ascii "[Core] Loading " ++ ascii r.method.name ++ ascii " " ++ r.path⟩

structure Serves (app : Application σ) (d : Dispatcher σ) : Prop where
  handle : ∀ request w, app.handleRequest request w = d.dispatch request w
  load : ∀ a w, app.load a w =
    match a.translate d with
    | .error fault => (.error fault, w)
    | .ok routes =>
      match a.register routes (w.logAll (loading routes)) with
      | (.error fault, w) => (.error fault, w)
      | (.ok (), w) => (.ok routes, w)

theorem refuses_of_halted (halted : app.running = false) : app.Refuses where
  handle request w := by
    rw [handleRequest, halted]
    rfl
  load a w := by
    rw [load, halted]
    rfl

theorem serves_of_running (running : app.running = true) : app.Serves app.dispatcher where
  handle request w := by rw [handleRequest, if_pos running]
  load a w := by
    rw [load, if_pos running]
    cases a.translate app.dispatcher with
    | error fault => rfl
    | ok routes =>
      change (a.register routes >>= fun _ => pure routes) (w.logAll (loading routes)) = _
      rw [run_bind]
      dsimp only
      rcases a.register routes (w.logAll (loading routes)) with ⟨_ | _, w⟩ <;> rfl

theorem exists_absent_key (d : Dispatcher σ) : ∃ key ≠ [], d.find? key = none := by
  obtain ⟨key, absent⟩ := Infinite.exists_notMem_finset ([] :: d.routes.keys).toFinset
  rw [List.mem_toFinset, List.mem_cons, not_or, Dictionary.mem_keys_iff] at absent
  exact ⟨key, absent.1, by simpa [Dispatcher.find?] using absent.2⟩

theorem halted_of_refuses (h : app.Refuses) (w : World σ) : app.running = false := by
  by_contra running
  obtain ⟨key, named, absent⟩ := exists_absent_key app.dispatcher
  have refused := h.handle { route := key } w
  have answered : app.dispatcher.resolve { route := key } = (none, { route := key }) := by
    rw [Dispatcher.resolve, if_pos named, absent]
  rw [(serves_of_running (Bool.not_eq_false _ ▸ running)).handle, Dispatcher.dispatch, answered] at refused
  cases refused

end Application

theorem Service.root_after (s : Service σ) (x : Step σ) : (s.after x).app.root = s.app.root := by
  cases x with
  | start config => exact s.app.root_start config s.forest s.world
  | stop =>
    change (s.app.stop s.world).1.root = s.app.root
    rw [Application.app_stop]
  | declare | load | pass => rfl

variable {outcomes : List (Outcome σ)} {s : Service σ}

theorem Tracks.after (h : Tracks outcomes s.app) (x : Step σ) :
    Tracks (outcomes ++ [s.outcome x]) (s.after x).app := by
  cases x with
  | start config =>
    have app : (s.after (.start config)).app = (s.app.start config s.forest s.world).app := rfl
    rw [Application.app_start] at app
    rw [Service.outcome]
    cases mounting : s.app.mounting config s.forest s.world with
    | none =>
      rw [mounting] at app
      exact h.append nofun (by rw [app]) (by simp [app])
    | some mounted =>
      rw [mounting] at app
      dsimp only at app ⊢
      cases fault : mounted.fault with
      | none =>
        rw [fault] at app
        exact .started (by rw [app]) (by rw [app])
      | some fault' =>
        rw [fault] at app
        exact h.append nofun (by rw [app]) (by simp [app])
  | stop =>
    have app : (s.after .stop).app = _ := s.app.app_stop s.world
    exact h.append nofun (by rw [app]) (by simp [app, Service.outcome])
  | declare | load | pass => exact h.append nofun rfl (by simp [Service.after, Service.outcome])

namespace Run

theorem tracks (h : Run outcomes s) : Tracks outcomes s.app := by
  induction h with
  | new w reached inside => exact .inl ⟨fun d => List.not_mem_nil, rfl⟩
  | step _ x _ ih => exact ih.after x

theorem reached (h : Run outcomes s) :
    ∃ calls, s.forest.Reached calls ∧ s.forest.contains s.app.root = true := by
  induction h with
  | new w reached inside => exact ⟨_, reached, inside⟩
  | @step outcomes s _ x possible ih =>
    obtain ⟨calls, reached, inside⟩ := ih
    have call (c : Call σ) (possible : c.Possible s.forest) :
        (c.apply s.forest).forest.Reached (calls ++ [c]) ∧
          (c.apply s.forest).forest.contains s.app.root = true := by
      refine ⟨reached.call c possible, ?_⟩
      rw [Forest.contains_iff] at inside ⊢
      rw [(Forest.idents_apply reached.distinct possible).mem_iff, List.mem_append]
      exact .inl inside
    rw [Service.root_after]
    cases x with
    | start config =>
      obtain ⟨reached', inside'⟩ := call (.compose s.app.root) inside
      have composed : (s.after (.start config)).forest = (s.forest.compose s.app.root).forest :=
        s.app.forest_start config s.forest s.world
      rw [composed]
      exact ⟨_, reached', inside'⟩
    | declare c => exact ⟨_, call c possible⟩
    | stop | load | pass => exact ⟨calls, reached, inside⟩

theorem outcome_start (h : Run outcomes s) (config : AppConfig) :
    match (s.app.start config s.forest s.world).fault with
    | none => ∃ d, s.outcome (.start config) = .started d
    | some fault => s.outcome (.start config) = .failed fault ∧
      (s.after (.start config)).app.running = s.app.running ∧
      (s.after (.start config)).app.dispatcher = s.app.dispatcher := by
  obtain ⟨calls, reached, inside⟩ := h.reached
  obtain ⟨⟨root, children⟩, found⟩ := Option.isSome_iff_exists.mp inside
  obtain ⟨mounted, mounting⟩ :
      ∃ mounted, s.app.mounting config s.forest s.world = some mounted := by
    rw [Application.mounting, Forest.find?, Forest.tree?_compose reached.distinct found]
    exact ⟨_, rfl⟩
  have app : (s.after (.start config)).app = (s.app.start config s.forest s.world).app := rfl
  rw [app, Application.app_start, Application.fault_start, Service.outcome, mounting,
    Option.bind_some]
  dsimp only
  cases mounted.fault with
  | none => exact ⟨_, rfl⟩
  | some fault => exact ⟨rfl, rfl, rfl⟩

end Run

open Application in
theorem served_by_last_start (h : Run outcomes s) :
    (s.app.Refuses ↔ Halted outcomes) ∧
      (¬Halted outcomes → ∃ d since, LastStart outcomes d since ∧ .stopped ∉ since ∧
        s.app.Serves d) ∧
      ∀ config, match (s.app.start config s.forest s.world).fault with
        | none => ∃ d, s.outcome (.start config) = .started d
        | some fault => s.outcome (.start config) = .failed fault ∧
          (s.after (.start config)).app.running = s.app.running ∧
          (s.after (.start config)).app.dispatcher = s.app.dispatcher := by
  have tracks := h.tracks
  refine ⟨?_, fun serving => ?_, h.outcome_start⟩
  · rw [tracks.halted_iff]
    exact ⟨fun refuses => halted_of_refuses refuses s.world, refuses_of_halted⟩
  · rw [tracks.halted_iff, Bool.not_eq_false] at serving
    rcases tracks with ⟨-, halted⟩ | ⟨since, last, running⟩
    · rw [halted] at serving
      cases serving
    · exact ⟨_, since, last, running.mp serving, serves_of_running serving⟩

def faulty : Middleware Unit := { ident := 0, name := ascii "auth", factory := none }

def planted : List (Call Unit) :=
  [.path 0 [], .path 1 (ascii "/a"), .handle 1 .get (some (plainHandler 0)), .nest 0 [some 1]]

def planned : Service Unit where
  app := .new 0
  forest := Forest.nil.after planted
  world := { state := () }

theorem run_planned : Run [] planned :=
  .new _ (Forest.Reached.start.after (by decide +kernel) : Forest.Reached planted _)
    (by decide +kernel)

def encumbered : Service Unit :=
  (planned.after (.start {})).after (.declare (.middlewares 0 [faulty]))

theorem served_by_last_start_encumbered :
    ∃ outcomes, Run outcomes encumbered ∧
      (encumbered.app.start { dispatch := { ignoreTrailingSlash := false } } encumbered.forest
        encumbered.world).fault = some (.middlewareInit (ascii "auth") (ascii "no factory")) ∧
      encumbered.app.running = true ∧
      (encumbered.app.Refuses ↔ Halted outcomes) ∧
      (¬Halted outcomes → ∃ d since, LastStart outcomes d since ∧ .stopped ∉ since ∧
        encumbered.app.Serves d) ∧
      ∀ config, match (encumbered.app.start config encumbered.forest encumbered.world).fault with
        | none => ∃ d, encumbered.outcome (.start config) = .started d
        | some fault => encumbered.outcome (.start config) = .failed fault ∧
          (encumbered.after (.start config)).app.running = encumbered.app.running ∧
          (encumbered.after (.start config)).app.dispatcher = encumbered.app.dispatcher := by
  have launched := run_planned.step (.start {}) (by decide +kernel)
  have run := launched.step (.declare (.middlewares 0 [faulty])) (by decide +kernel)
  exact ⟨_, run, by decide +kernel, by decide +kernel, served_by_last_start run⟩

end HttpRouting
