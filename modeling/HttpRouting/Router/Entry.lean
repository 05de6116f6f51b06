import HttpRouting.Middleware.Chain
import HttpRouting.Template.Parser

/-!
Routers, and the route tables in which each keeps what the routers below it serve. A table is keyed
by the path from its router, exclusive, down to the router that serves the route.
-/

namespace HttpRouting

/-- What is served at one path. `origin` is the router that holds the handlers. -/
structure Entry (σ : Type) where
  urlPath : Bytes
  queryPath : Bytes
  middlewares : List (Middleware σ)
  pathParams : Params
  queryParams : Params
  segments : List Segment
  handlers : Dictionary Method (Handler σ)
  origin : Nat

abbrev RouteTable (σ : Type) := Dictionary Bytes (Entry σ)

structure Router (σ : Type) where
  ident : Nat
  template : Template
  middlewares : List (Middleware σ) := []
  handlers : Dictionary Method (Handler σ) := ∅
  routes : RouteTable σ := ∅

def joinQuery (outer inner : Bytes) : Bytes :=
  if outer = [] then inner
  else if inner = [] then outer
  else outer ++ Byte.ampersand :: inner

namespace Router

variable {σ : Type}

def path (r : Router σ) : Bytes := r.template.source

def ownEntry (r : Router σ) : Entry σ where
  urlPath := r.template.urlPath
  queryPath := r.template.queryPath
  middlewares := r.middlewares
  pathParams := r.template.pathParams
  queryParams := r.template.queryParams
  segments := r.template.segments
  handlers := r.handlers
  origin := r.ident

def extend (r : Router σ) (e : Entry σ) : Entry σ where
  urlPath := r.template.urlPath ++ e.urlPath
  queryPath := joinQuery r.template.queryPath e.queryPath
  middlewares := r.middlewares ++ e.middlewares
  pathParams := r.template.pathParams.merge e.pathParams
  queryParams := r.template.queryParams.merge e.queryParams
  segments := r.template.segments ++ e.segments
  handlers := e.handlers
  origin := e.origin

def offers (r : Router σ) : List (Bytes × Entry σ) :=
  (if r.handlers.isEmpty then [] else [(r.template.urlPath, r.ownEntry)]) ++
    r.routes.entries.map (fun e => (r.template.urlPath ++ e.1, e.2))

end Router

namespace Entry

variable {σ : Type}

def sameParams (p p' : Params) : Bool :=
  let view := fun (e : Bytes × Descriptor) =>
    (e.1, e.2.types, e.2.choices, e.2.isArray, e.2.isOptional, e.2.pattern.map (·.source))
  p.entries.map view == p'.entries.map view

def sameHandlers (h h' : Dictionary Method (Handler σ)) : Bool :=
  let view := fun (e : Method × Handler σ) => (e.1, e.2.ident)
  h.entries.map view == h'.entries.map view

def sameMiddlewares (ms ms' : List (Middleware σ)) : Bool :=
  ms.map (fun m => (m.ident, m.name)) == ms'.map (fun m => (m.ident, m.name))

def same (e e' : Entry σ) : Bool :=
  e.urlPath = e'.urlPath && e.queryPath = e'.queryPath &&
    sameMiddlewares e.middlewares e'.middlewares && sameParams e.pathParams e'.pathParams &&
    sameParams e.queryParams e'.queryParams && e.segments = e'.segments &&
    sameHandlers e.handlers e'.handlers && e.origin = e'.origin

end Entry

end HttpRouting
