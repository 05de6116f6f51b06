import HttpRouting.Pattern

namespace HttpRouting

inductive ParamType
  | string | number | boolean | regex
deriving DecidableEq, Repr

def ParamType.name : ParamType → String
  | string => "string"
  | number => "number"
  | boolean => "boolean"
  | regex => "regex"

def ParamType.ofName? (name : Bytes) : Option ParamType :=
  [string, number, boolean].find? (fun t => ascii t.name = name)

structure Descriptor where
  name : Bytes := []
  types : List ParamType := []
  choices : List Bytes := []
  isArray : Bool := false
  isOptional : Bool := false
  pattern : Option Pattern := none
deriving DecidableEq, Repr

def Descriptor.hasType (d : Descriptor) (t : ParamType) : Bool := d.types.contains t

def Descriptor.addType (d : Descriptor) (t : ParamType) : Descriptor :=
  if d.hasType t then d else { d with types := d.types ++ [t] }

def Descriptor.patternSource (d : Descriptor) : Bytes := (d.pattern.map (·.source)).getD []

abbrev Params := Dictionary Bytes Descriptor

end HttpRouting
