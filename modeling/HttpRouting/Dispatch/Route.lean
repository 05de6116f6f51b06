import HttpRouting.Coercion
import HttpRouting.Router.Entry

namespace HttpRouting

structure CompiledRoute (σ : Type) where
  entry : Entry σ
  chains : Dictionary Method (Stage σ)

variable {σ : Type}

def Entry.compile (e : Entry σ) : Action σ (CompiledRoute σ) := do
  let chains ← e.handlers.entries.foldlM (fun chains h => do
    return chains.insert h.1 (← Middleware.chain e.middlewares h.2.stage)) ∅
  return { entry := e, chains }

namespace CompiledRoute

def servingMethod? (r : CompiledRoute σ) (m : Method) : Option Method :=
  if r.chains.contains m then some m
  else if r.chains.contains .all then some .all
  else none

def chainFor? (r : CompiledRoute σ) (m : Method) : Option (Stage σ) :=
  (r.servingMethod? m).bind r.chains.find?

def allowed (r : CompiledRoute σ) : Bytes :=
  Bytes.join ", " (r.entry.handlers.keys.map (fun m => ascii m.name))

def context (r : CompiledRoute σ) (request : Request) (split : Bool) : Context :=
  let reading := coerceQuery r.entry.queryParams request.query split
  { request
    params := coerceParams r.entry.pathParams request.params
    query := reading.values
    missing := reading.missing }

end CompiledRoute

end HttpRouting
