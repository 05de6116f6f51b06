import HttpRouting.Dispatch.Route
import HttpRouting.Dispatch.Event
import HttpRouting.SegmentTrie

namespace HttpRouting

structure DispatchConfig where
  ignoreTrailingSlash : Bool := true
  splitQueryArrays : Bool := true
deriving DecidableEq, Repr

/-- `matcher` leads from the segments of each route to its key in `routes`. -/
structure Dispatcher (σ : Type) where
  config : DispatchConfig := {}
  sink : Option (Sink σ)
  routes : Dictionary Bytes (CompiledRoute σ) := ∅
  matcher : SegmentTrie Bytes := .empty

variable {σ : Type}

namespace Dispatcher

def place (d : Dispatcher σ) (r : CompiledRoute σ) : Noted (Dispatcher σ) := do
  let key := r.entry.urlPath
  match d.routes.find? key with
  | some earlier =>
    if earlier.entry.origin ≠ r.entry.origin then
      Noted.note .warning (ascii "[Dispatch] Route '" ++ key ++
        ascii "' is declared by more than one router, the latest declaration wins")
  | none =>
    if (d.matcher.get? r.entry.segments).isSome then
      Noted.note .warning (ascii "[Dispatch] Route '" ++ key ++
        ascii "' shadows an earlier route with the same shape")
  return { d with
    routes := d.routes.insert key r
    matcher := d.matcher.insert key r.entry.segments }

/-- A dispatcher after mounting. The first route that cannot be compiled ends it. -/
structure Mounted (σ : Type) where
  dispatcher : Dispatcher σ
  world : World σ
  fault : Option Fault

def mountEntries (d : Dispatcher σ) : List (Entry σ) → World σ → Mounted σ
  | [], w => ⟨d, w, none⟩
  | e :: rest, w =>
    match e.compile w with
    | (.error fault, w) => ⟨d, w, some fault⟩
    | (.ok route, w) =>
      let placed := d.place route
      placed.value.mountEntries rest (w.logAll placed.notices)

def entriesOf (root : Router σ) : List (Entry σ) :=
  (if root.handlers.isEmpty then [] else [root.ownEntry]) ++ root.routes.values

def mount (d : Dispatcher σ) (root : Router σ) (w : World σ) : Mounted σ :=
  let mounted := { d with routes := ∅, matcher := .empty }.mountEntries (entriesOf root) w
  match mounted.fault with
  | some _ => mounted
  | none =>
    { mounted with
      world := mounted.world.log .debug (ascii "[Dispatch] Mounted " ++
        Bytes.ofNat mounted.dispatcher.routes.size ++ ascii " routes from '" ++ root.path ++
        ascii "'") }

def find? (d : Dispatcher σ) (key : Bytes) : Option (CompiledRoute σ) := d.routes.find? key

end Dispatcher

end HttpRouting
