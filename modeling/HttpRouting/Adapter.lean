import HttpRouting.Dispatch.Answer

namespace HttpRouting

structure LoadedRoute where
  method : Method
  path : Bytes
  key : Bytes
deriving DecidableEq, Repr

structure Adapter (σ : Type) where
  spellParam : Bytes → Descriptor → Except Fault Bytes :=
    fun _ _ => throw (.unimplemented "translate_path_parameter")
  register : List LoadedRoute → Action σ Unit :=
    fun _ => throw (.unimplemented "initialize")

namespace Adapter

variable {σ : Type}

def spellSegment (a : Adapter σ) (params : Params) : Segment → Except Fault Bytes
  | .literal text => return text
  | .param name =>
    match params.find? name with
    | none => throw (.route (ascii "No descriptor for path parameter '" ++ name ++ ascii "'") 0)
    | some d => a.spellParam name d

def translatePath (a : Adapter σ) (segments : List Segment) (params : Params) :
    Except Fault Bytes :=
  if segments = [] then return [Byte.slash]
  else do
    let parts ← segments.mapM (a.spellSegment params)
    return parts.flatMap (Byte.slash :: ·)

def before (r r' : LoadedRoute) : Bool :=
  (compare r.path r'.path |>.then (compare r.method r'.method)).isLE

def translate (a : Adapter σ) (d : Dispatcher σ) : Except Fault (List LoadedRoute) := do
  let routes ← d.routes.entries.mapM fun (key, route) => do
    let path ← a.translatePath route.entry.segments route.entry.pathParams
    return route.entry.handlers.keys.map (fun method => { method, path, key : LoadedRoute })
  return routes.flatten.mergeSort before

end Adapter

end HttpRouting
