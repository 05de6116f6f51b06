import HttpRouting.Http.Context
import HttpRouting.Template.Descriptor

namespace HttpRouting

def ParamType.coerce? : ParamType → Bytes → Option Value
  | string, raw => some (.string raw)
  | regex, raw => some (.string raw)
  | number, raw => Value.number? raw
  | boolean, raw => Value.boolean? raw

namespace Descriptor

/-- The types that a value outside the list of choices may still have. -/
def typesBesideChoices (d : Descriptor) : List ParamType :=
  d.types.filter (fun t => t != .string && t != .regex)

def coerce? (d : Descriptor) (raw : Bytes) : Option Value :=
  if raw = [] then none
  else if d.pattern.any (!·.occursIn raw) then none
  else if d.choices = [] then d.types.findSome? (·.coerce? raw)
  else if d.choices.contains raw then some (.string raw)
  else d.typesBesideChoices.findSome? (·.coerce? raw)

end Descriptor

def coerceParams (declared : Params) (raw : RawParams) : Values :=
  declared.entries.foldl (fun values e =>
    match (raw.find? e.1).bind e.2.coerce? with
    | some v => values.insert e.1 v
    | none => values) ∅

def splitAtCommas (raws : List Bytes) : List Bytes :=
  (raws.flatMap (fun raw => (raw.splitOn Byte.comma).map Bytes.trim)).filter (· ≠ [])

def Descriptor.coerceAll (d : Descriptor) (split : Bool) (raws : List Bytes) : List Value :=
  let raws := if d.isArray then (if split then splitAtCommas raws else raws) else raws.take 1
  raws.filterMap d.coerce?

structure QueryReading where
  values : Dictionary Bytes (List Value) := ∅
  missing : List Bytes := []
deriving DecidableEq

def coerceQuery (declared : Params) (raw : RawQuery) (split : Bool) : QueryReading :=
  declared.entries.foldl (fun reading e =>
    match e.2.coerceAll split ((raw.find? e.1).getD []) with
    | [] =>
      if e.2.isOptional then reading else { reading with missing := reading.missing ++ [e.1] }
    | values => { reading with values := reading.values.insert e.1 values }) {}

end HttpRouting
