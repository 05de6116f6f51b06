import HttpRouting.Dispatch.Dispatcher

namespace HttpRouting.Dispatcher

variable {σ : Type}

structure RouteMatch where
  key : Bytes
  params : RawParams

def bindParams (segments : List Segment) (captured : List Bytes) : RawParams :=
  let names := segments.filterMap fun
    | .literal _ => none
    | .param name => some name
  Dictionary.ofList (names.zip captured)

def match? (d : Dispatcher σ) (path : Bytes) : Option RouteMatch := do
  let path := if d.config.ignoreTrailingSlash then Bytes.trimTrailingSlash path else path
  let (key, captured) ← d.matcher.find? path
  let route ← d.find? key
  return ⟨key, bindParams route.entry.segments captured⟩

def fillParams (request : Request) (params : RawParams) : Request :=
  { request with
    params := params.entries.foldl (fun ps e => ps.insertIfNew e.1 e.2) request.params }

/-- The route of a request, by its key if it names one, and else by its path. -/
def resolve (d : Dispatcher σ) (request : Request) : Option (CompiledRoute σ) × Request :=
  if request.route ≠ [] then (d.find? request.route, request)
  else
    match d.match? request.path with
    | none => (none, request)
    | some found => (d.find? found.key, fillParams request found.params)

def emit (d : Dispatcher σ) (request : Request) (started : Nat) (w : World σ) : World σ :=
  match d.sink with
  | none => w
  | some sink => sink ⟨request.method, request.path, w.clock - started⟩ w

def notFound : Response := .text (ascii "Not Found") 404

def notAllowed (r : CompiledRoute σ) : Response :=
  .text (ascii "Method Not Allowed") 405 (Headers.ofFields [(ascii "Allow", r.allowed)])

/-- Answers a request. A request that ends in a fault is not reported. -/
def dispatch (d : Dispatcher σ) (request : Request) : Action σ Response := fun w =>
  match d.resolve request with
  | (none, request) => (.ok notFound, d.emit request w.clock w)
  | (some route, request) =>
    match route.chainFor? request.method with
    | none => (.ok (notAllowed route), d.emit request w.clock w)
    | some chain =>
      match chain.runOn (route.context request d.config.splitQueryArrays) w with
      | (.ok response, x) => (.ok response, d.emit x.context.request w.clock x.world)
      | (.error fault, x) => (.error fault, x.world)

def handlerFor (d : Dispatcher σ) (key : Bytes) (request : Request) : Action σ Response :=
  d.dispatch { request with route := key }

end HttpRouting.Dispatcher
