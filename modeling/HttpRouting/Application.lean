import HttpRouting.Adapter
import HttpRouting.Router.Declare

namespace HttpRouting

structure AppConfig where
  dispatch : DispatchConfig := {}
  log : LogSettings := {}
deriving DecidableEq, Repr

structure Application (σ : Type) where
  root : Nat
  config : AppConfig := {}
  dispatcher : Dispatcher σ
  running : Bool := false

namespace Application

variable {σ : Type}

def new (root : Nat) : Application σ := { root, dispatcher := { sink := some logSink } }

structure Started (σ : Type) where
  app : Application σ
  forest : Forest σ
  world : World σ
  fault : Option Fault

/-- Serves the tree of the root as it is now. If that fails, whatever was served before still is. -/
def start (app : Application σ) (config : AppConfig) (f : Forest σ) (w : World σ) : Started σ :=
  let app := { app with config }
  let w := { w with logger := w.logger.init config.log }
  let composed := f.compose app.root
  let w := w.logAll composed.notices
  match composed.forest.find? app.root with
  | none => ⟨app, composed.forest, w, none⟩
  | some root =>
    let mounted := { config := config.dispatch, sink := some logSink : Dispatcher σ }.mount root w
    match mounted.fault with
    | some fault => ⟨app, composed.forest, mounted.world, some fault⟩
    | none =>
      let w := mounted.world.log .info (ascii "[Core] Serving " ++
        Bytes.ofNat mounted.dispatcher.routes.size ++ ascii " routes")
      ⟨{ app with dispatcher := mounted.dispatcher, running := true }, composed.forest, w, none⟩

def stop (app : Application σ) (w : World σ) : Application σ × World σ :=
  if app.running then
    let w := w.log .info (ascii "[Core] Stopped")
    ({ app with running := false }, { w with logger := w.logger.stop })
  else (app, w)

def load (app : Application σ) (a : Adapter σ) : Action σ (List LoadedRoute) := do
  if app.running then
    let routes ← liftExcept (a.translate app.dispatcher)
    modify fun w => w.logAll (routes.map (fun r =>
      ⟨.debug, ascii "[Core] Loading " ++ ascii r.method.name ++ ascii " " ++ r.path⟩))
    a.register routes
    return routes
  else throw (.base (ascii "Can't load routes into a transport before start()") 0 "")

def handleRequest (app : Application σ) (request : Request) : Action σ Response :=
  if app.running then app.dispatcher.dispatch request
  else throw (.base (ascii "Can't handle requests before start()") 0 "")

/-- Answers a request that a transport has matched to one of the routes it was given, be the
application running or not. -/
def serveLoaded (app : Application σ) (r : LoadedRoute) (request : Request) : Action σ Response :=
  app.dispatcher.handlerFor r.key request

end Application

end HttpRouting
