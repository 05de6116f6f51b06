import HttpRouting.Pattern.CharClass

namespace HttpRouting.Pattern

inductive Member
  | byte (b : UInt8)
  | range (low high : UInt8)
  | ofClass (c : CharClass)
  | outside (c : CharClass)
  | anyCase (b : UInt8)
deriving DecidableEq, Repr

def Member.holds : Member → UInt8 → Bool
  | byte b, x => x = b
  | range low high, x => Byte.signed low ≤ Byte.signed x && Byte.signed x ≤ Byte.signed high
  | ofClass c, x => c.holds x
  | outside c, x => !c.holds x
  | anyCase b, x => Byte.toLower x = Byte.toLower b

structure ByteSet where
  negated : Bool
  members : List Member
deriving DecidableEq, Repr

def ByteSet.holds (s : ByteSet) (b : UInt8) : Bool :=
  s.members.any (·.holds b) != s.negated

end HttpRouting.Pattern
