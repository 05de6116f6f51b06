import HttpRouting.Application
import HttpRouting.Router.History

namespace HttpRouting

variable {σ : Type}

def Application.mounting (app : Application σ) (config : AppConfig) (f : Forest σ) (w : World σ) :
    Option (Dispatcher.Mounted σ) :=
  let composed := f.compose app.root
  let w := { w with logger := w.logger.init config.log }.logAll composed.notices
  (composed.forest.find? app.root).map fun root =>
    { config := config.dispatch, sink := some logSink : Dispatcher σ }.mount root w

def Application.handed (app : Application σ) (a : Adapter σ) : List LoadedRoute :=
  if app.running then (a.translate app.dispatcher).toOption.getD [] else []

structure Service (σ : Type) where
  app : Application σ
  forest : Forest σ
  loaded : List LoadedRoute := []
  world : World σ

inductive Step (σ : Type)
  | start (config : AppConfig)
  | stop
  | declare (call : Call σ)
  | load (adapter : Adapter σ)
  | pass (world : World σ)

inductive Outcome (σ : Type)
  | started (d : Dispatcher σ)
  | failed (fault : Fault)
  | stopped
  | other

namespace Service

def Possible (s : Service σ) : Step σ → Prop
  | .declare call => call.Possible s.forest
  | _ => True

instance (s : Service σ) (x : Step σ) : Decidable (s.Possible x) :=
  match x with
  | .declare call => inferInstanceAs (Decidable (call.Possible s.forest))
  | .start _ | .stop | .load _ | .pass _ => .isTrue trivial

def after (s : Service σ) : Step σ → Service σ
  | .start config =>
    let started := s.app.start config s.forest s.world
    { s with app := started.app, forest := started.forest, world := started.world }
  | .stop =>
    let (app, world) := s.app.stop s.world
    { s with app, world }
  | .declare call =>
    let declared := call.apply s.forest
    { s with forest := declared.forest, world := s.world.logAll declared.notices }
  | .load adapter =>
    { s with
      loaded := s.loaded ++ s.app.handed adapter
      world := (s.app.load adapter s.world).2 }
  | .pass world => { s with world }

def outcome (s : Service σ) : Step σ → Outcome σ
  | .start config =>
    match s.app.mounting config s.forest s.world with
    | none => .other
    | some mounted =>
      match mounted.fault with
      | none => .started mounted.dispatcher
      | some fault => .failed fault
  | .stop => .stopped
  | _ => .other

end Service

inductive Run : List (Outcome σ) → Service σ → Prop
  | new {calls : List (Call σ)} {f : Forest σ} {root : Nat} (w : World σ) (reached : f.Reached calls)
      (inside : f.contains root = true) : Run [] { app := .new root, forest := f, world := w }
  | step {outcomes : List (Outcome σ)} {s : Service σ} (h : Run outcomes s) (x : Step σ)
      (possible : s.Possible x) : Run (outcomes ++ [s.outcome x]) (s.after x)

/-- The last start that has succeeded has mounted `d`, and `since` is what has come after it. -/
def LastStart (outcomes : List (Outcome σ)) (d : Dispatcher σ) (since : List (Outcome σ)) : Prop :=
  (∃ before, outcomes = before ++ .started d :: since) ∧ ∀ d', .started d' ∉ since

def Halted (outcomes : List (Outcome σ)) : Prop :=
  (∀ d, .started d ∉ outcomes) ∨ ∃ d since, LastStart outcomes d since ∧ .stopped ∈ since

end HttpRouting
