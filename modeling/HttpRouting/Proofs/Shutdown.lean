import HttpRouting.Proofs.Resolution
import HttpRouting.Proofs.Service

namespace HttpRouting

variable {σ : Type}

def CompiledRoute.withStages (g : Stage σ → Stage σ) (r : CompiledRoute σ) : CompiledRoute σ :=
  { r with chains := r.chains.map g }

theorem CompiledRoute.chainFor?_withStages (g : Stage σ → Stage σ) (r : CompiledRoute σ)
    (m : Method) : (r.withStages g).chainFor? m = (r.chainFor? m).map g := by
  have contains (m : Method) : (r.chains.map g).contains m = r.chains.contains m := by
    rw [Dictionary.contains, Dictionary.find?_map, Option.isSome_map, Dictionary.contains]
  have found : (r.chains.map g).find? = fun m => (r.chains.find? m).map g :=
    funext (Dictionary.find?_map g r.chains)
  simp only [chainFor?, servingMethod?, withStages, contains, found]
  rw [Option.map_bind]
  rfl

namespace Dispatcher

def withStages (g : Stage σ → Stage σ) (d : Dispatcher σ) : Dispatcher σ :=
  { d with routes := d.routes.map (CompiledRoute.withStages g) }

def chain? (d : Dispatcher σ) (request : Request) : Option (Stage σ) :=
  (d.resolve request).1.bind fun route => route.chainFor? (d.resolve request).2.method

section

variable {g : CompiledRoute σ → CompiledRoute σ} (d : Dispatcher σ)

def mapRoutes (g : CompiledRoute σ → CompiledRoute σ) (d : Dispatcher σ) : Dispatcher σ :=
  { d with routes := d.routes.map g }

theorem find?_mapRoutes (key : Bytes) : (d.mapRoutes g).find? key = (d.find? key).map g :=
  Dictionary.find?_map g d.routes key

theorem match?_mapRoutes (segments : ∀ r, (g r).entry.segments = r.entry.segments)
    (path : Bytes) : (d.mapRoutes g).match? path = d.match? path := by
  rw [match?_eq, match?_eq]
  apply congrArg
  funext hit
  rw [mapRoutes, Dictionary.find?_map, Option.map_map]
  apply Option.map_congr
  intro r _
  rw [Function.comp_apply, segments]

theorem resolve_mapRoutes (segments : ∀ r, (g r).entry.segments = r.entry.segments)
    (request : Request) :
    (d.mapRoutes g).resolve request = ((d.resolve request).1.map g, (d.resolve request).2) := by
  rw [resolve, resolve, match?_mapRoutes d segments]
  split
  · rw [find?_mapRoutes]
  · cases d.match? request.path with
    | none => rfl
    | some found =>
      dsimp only
      rw [find?_mapRoutes]

end

theorem resolve_withStages (g : Stage σ → Stage σ) (d : Dispatcher σ) (request : Request) :
    (d.withStages g).resolve request =
      ((d.resolve request).1.map (CompiledRoute.withStages g), (d.resolve request).2) :=
  resolve_mapRoutes d (fun r => (rfl : (r.withStages g).entry.segments = r.entry.segments)) request

theorem chain?_withStages (g : Stage σ → Stage σ) (d : Dispatcher σ) (request : Request) :
    (d.withStages g).chain? request = (d.chain? request).map g := by
  rw [chain?, chain?, resolve_withStages]
  cases (d.resolve request).1 with
  | none => rfl
  | some route => exact route.chainFor?_withStages g _

theorem dispatch_of_unchained {d : Dispatcher σ} {request : Request}
    (unchained : d.chain? request = none) (g : Stage σ → Stage σ) (w : World σ) :
    (d.withStages g).dispatch request w = d.dispatch request w := by
  obtain ⟨found, filled, resolved⟩ : ∃ found filled, d.resolve request = (found, filled) :=
    ⟨_, _, rfl⟩
  have resolved' := d.resolve_withStages g request
  rw [resolved] at resolved'
  rw [chain?, resolved] at unchained
  cases found with
  | none =>
    rw [dispatch, dispatch, resolved, resolved']
    rfl
  | some route =>
    have refused : (route.withStages g).chainFor? filled.method = none := by
      rw [CompiledRoute.chainFor?_withStages, Option.map_eq_none_iff]
      exact unchained
    rw [dispatch_of_refused resolved unchained, dispatch_of_refused resolved' refused]
    rfl

theorem dispatch_of_chain {d : Dispatcher σ} {request : Request} {chain : Stage σ}
    (chained : d.chain? request = some chain) (w : World σ) : ∃ c,
      d.dispatch request w = d.finish w.clock (chain.runOn c w) := by
  obtain ⟨route, found, served⟩ := Option.bind_eq_some_iff.mp chained
  exact ⟨_, dispatch_of_resolve (Prod.ext found rfl) served w⟩

end Dispatcher

namespace Application

def withStages (g : Stage σ → Stage σ) (app : Application σ) : Application σ :=
  { app with dispatcher := app.dispatcher.withStages g }

/-- What the application does depends on what its middlewares and handlers do. -/
def Reaches {α : Type} (app : Application σ) (serve : Application σ → Action σ α) : Prop :=
  ∃ g w, serve (app.withStages g) w ≠ serve app w

def raising (fault : Fault) : Stage σ := fun x => (.error fault, x)

theorem reaches_iff (app : Application σ) (request : Request) (w : World σ) :
    app.Reaches (fun app => app.dispatcher.dispatch request) ↔
      (app.dispatcher.chain? request).isSome = true := by
  constructor
  · rintro ⟨g, v, differs⟩
    by_contra unchained
    rw [Option.not_isSome_iff_eq_none] at unchained
    exact differs (Dispatcher.dispatch_of_unchained unchained g v)
  · intro chained
    have raised (fault : Fault) :
        ((app.withStages fun _ => raising fault).dispatcher.dispatch request w).1 =
          .error fault := by
      obtain ⟨chain, chained⟩ := Option.isSome_iff_exists.mp chained
      have chained' := app.dispatcher.chain?_withStages (fun _ => raising fault) request
      rw [chained, Option.map_some] at chained'
      obtain ⟨c, answer⟩ := Dispatcher.dispatch_of_chain chained' w
      change ((app.dispatcher.withStages fun _ => raising fault).dispatch request w).1 = _
      rw [answer]
      rfl
    by_contra unreached
    have same (fault : Fault) : (app.dispatcher.dispatch request w).1 = .error fault := by
      rw [← raised fault]
      by_contra differs
      exact unreached ⟨_, w, fun same => differs (congrArg Prod.fst same).symm⟩
    have clash := (same .foreign).symm.trans (same .emptyCall)
    cases clash

end Application

theorem Tracks.dispatcher_eq {outcomes since : List (Outcome σ)} {app : Application σ}
    (h : Tracks outcomes app) {d : Dispatcher σ} (last : LastStart outcomes d since) :
    app.dispatcher = d := by
  rcases h with ⟨never, -⟩ | ⟨since', last', -⟩
  · exact absurd last.mem (never d)
  · exact (last'.unique last).1

open Application in
theorem stopped_reaches_iff {outcomes since : List (Outcome σ)} {s : Service σ}
    (h : Run outcomes s) {d : Dispatcher σ} (last : LastStart outcomes d since)
    (stopped : .stopped ∈ since) :
    (∀ request, ¬s.app.Reaches fun app => app.handleRequest request) ∧
      ∀ r ∈ s.loaded, ∀ request,
        s.app.serveLoaded r request = d.handlerFor r.key request ∧
          ((s.app.Reaches fun app => app.serveLoaded r request) ↔
            (d.chain? { request with route := r.key }).isSome = true) := by
  have tracks := h.tracks
  have halted : s.app.running = false := tracks.halted_iff.mp (.inr ⟨d, since, last, stopped⟩)
  refine ⟨fun request => ?_, fun r _ request => ?_⟩
  · rintro ⟨g, w, differs⟩
    apply differs
    have halted' : (s.app.withStages g).running = false := halted
    dsimp only
    rw [(refuses_of_halted halted').handle, (refuses_of_halted halted).handle]
  · rw [← tracks.dispatcher_eq last]
    exact ⟨rfl, s.app.reaches_iff { request with route := r.key } s.world⟩

def colons : Adapter Unit where
  spellParam name _ := .ok (Byte.colon :: name)
  register _ := pure ()

def shutDown : Service Unit := ((planned.after (.start {})).after (.load colons)).after .stop

theorem run_shutDown : ∃ d, Run [.started d, .other, .stopped] shutDown := by
  have launched := run_planned.step (.start {}) (by decide +kernel)
  have run := (launched.step (.load colons) trivial).step .stop trivial
  have succeeds : (planned.app.start {} planned.forest planned.world).fault = none := by
    decide +kernel
  have outcome := run_planned.outcome_start {}
  rw [succeeds] at outcome
  obtain ⟨d, started⟩ := outcome
  rw [started] at run
  exact ⟨d, run⟩

theorem lastStart_shutDown (d : Dispatcher Unit) :
    LastStart [.started d, .other, .stopped] d [.other, .stopped] :=
  ⟨⟨[], rfl⟩, by simp⟩

theorem stopped_reaches_iff_shutDown : ∃ d, Run [.started d, .other, .stopped] shutDown ∧
    shutDown.loaded = [⟨.get, ascii "/a", ascii "/a"⟩] ∧
    (∀ request, ¬shutDown.app.Reaches fun app => app.handleRequest request) ∧
    ∀ r ∈ shutDown.loaded, ∀ request,
      shutDown.app.serveLoaded r request = d.handlerFor r.key request ∧
        ((shutDown.app.Reaches fun app => app.serveLoaded r request) ↔
          (d.chain? { request with route := r.key }).isSome = true) := by
  obtain ⟨d, run⟩ := run_shutDown
  refine ⟨d, run, by decide +kernel, ?_⟩
  exact stopped_reaches_iff run (lastStart_shutDown d) (by simp)

theorem loaded_reaches_shutDown : ∃ d since r, Run (.started d :: since) shutDown ∧
    LastStart (.started d :: since) d since ∧ .stopped ∈ since ∧ r ∈ shutDown.loaded ∧
      (shutDown.app.serveLoaded r {} shutDown.world).1 = .ok {} ∧
      shutDown.app.Reaches fun app => app.serveLoaded r {} := by
  obtain ⟨d, run⟩ := run_shutDown
  refine ⟨d, _, ⟨.get, ascii "/a", ascii "/a"⟩, run, lastStart_shutDown d, by simp,
    by decide +kernel, by decide +kernel, ?_⟩
  exact (Application.reaches_iff _ _ shutDown.world).mpr (by decide +kernel)

end HttpRouting
