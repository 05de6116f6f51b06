import HttpRouting.Bytes

namespace HttpRouting

inductive TemplateFault
  | paramInsideSegment
  | duplicatePathParam
  | unclosedAngle
  | namelessPathParam
  | unknownType
  | strayByteInParam
  | invalidPattern
  | unclosedBrace
  | namelessQueryParam
  | missingEquals
  | duplicateQueryParam
  | unclosedBracket
  | unclosedParen
  | emptyListEntry
deriving DecidableEq, Repr

def TemplateFault.text : TemplateFault → String
  | paramInsideSegment => "Path parameter must span a whole segment"
  | duplicatePathParam => "Duplicate path parameter"
  | unclosedAngle => "Unclosed '<'"
  | namelessPathParam => "Path parameter without a name"
  | unknownType => "Unknown parameter type"
  | strayByteInParam => "Unexpected character in path parameter"
  | invalidPattern => "Invalid regular expression (malformed pattern)"
  | unclosedBrace => "Unclosed '\x7b'"
  | namelessQueryParam => "Query parameter without a name"
  | missingEquals => "Missing '=' after query parameter"
  | duplicateQueryParam => "Duplicate query parameter"
  | unclosedBracket => "Unclosed '['"
  | unclosedParen => "Unclosed '('"
  | emptyListEntry => "Empty entry in parameter list"

inductive Excerpt
  | span (length : Nat)
  | text (bytes : Bytes)
deriving DecidableEq, Repr

structure Blame where
  fault : TemplateFault
  remaining : Nat
  excerpt : Excerpt
deriving DecidableEq, Repr

theorem bind_eq_ok_iff {ε α β : Type} {x : Except ε α} {f : α → Except ε β} {b : β} :
    x >>= f = .ok b ↔ ∃ a, x = .ok a ∧ f a = .ok b := by
  cases x with
  | error e =>
    constructor
    · rintro ⟨⟩
    · rintro ⟨_, ⟨⟩, _⟩
  | ok a => exact ⟨fun h => ⟨a, rfl, h⟩, fun ⟨_, rfl, h⟩ => h⟩

abbrev Scan (α : Type) := Except Blame α

theorem Scan.bind_eq_ok {α β : Type} {x : Scan α} {f : α → Scan β} {b : β} :
    x >>= f = .ok b ↔ ∃ a, x = .ok a ∧ f a = .ok b := bind_eq_ok_iff

namespace Blame

def between (fault : TemplateFault) (start stop : Bytes) : Blame :=
  ⟨fault, start.length, .span (max (start.length - stop.length) 1)⟩

def quoting (fault : TemplateFault) (start text : Bytes) : Blame :=
  ⟨fault, start.length, .text text⟩

end Blame

structure TemplateError where
  fault : TemplateFault
  fragment : Bytes
  position : Nat
deriving DecidableEq, Repr

def TemplateError.message (e : TemplateError) : Bytes :=
  ascii e.fault.text ++ ascii " at position " ++ Bytes.ofNat e.position ++ ascii ": '" ++
    e.fragment ++ ascii "'"

def Blame.locate (source : Bytes) (b : Blame) : TemplateError where
  fault := b.fault
  position := source.length - b.remaining
  fragment :=
    match b.excerpt with
    | .span length => (source.drop (source.length - b.remaining)).take length
    | .text bytes => bytes

end HttpRouting
