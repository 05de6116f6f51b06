namespace HttpRouting

abbrev Bytes := List UInt8

def ascii (s : String) : Bytes := s.toList.map (fun c => c.toNat.toUInt8)

namespace Byte

abbrev tab : UInt8 := 9
abbrev space : UInt8 := 32
abbrev dollar : UInt8 := 36
abbrev ampersand : UInt8 := 38
abbrev leftParen : UInt8 := 40
abbrev rightParen : UInt8 := 41
abbrev star : UInt8 := 42
abbrev plus : UInt8 := 43
abbrev comma : UInt8 := 44
abbrev dash : UInt8 := 45
abbrev dot : UInt8 := 46
abbrev slash : UInt8 := 47
abbrev colon : UInt8 := 58
abbrev leftAngle : UInt8 := 60
abbrev equals : UInt8 := 61
abbrev rightAngle : UInt8 := 62
abbrev question : UInt8 := 63
abbrev leftBracket : UInt8 := 91
abbrev backslash : UInt8 := 92
abbrev rightBracket : UInt8 := 93
abbrev caret : UInt8 := 94
abbrev underscore : UInt8 := 95
abbrev leftBrace : UInt8 := 123
abbrev bar : UInt8 := 124
abbrev rightBrace : UInt8 := 125

def isDigit (b : UInt8) : Bool := 48 ≤ b && b ≤ 57

def isUpper (b : UInt8) : Bool := 65 ≤ b && b ≤ 90

def isLower (b : UInt8) : Bool := 97 ≤ b && b ≤ 122

def isAlnum (b : UInt8) : Bool := isDigit b || isUpper b || isLower b

def isSpace (b : UInt8) : Bool := b = space || (9 ≤ b && b ≤ 13)

def isBlank (b : UInt8) : Bool := b = space || b = tab

def isName (b : UInt8) : Bool := isAlnum b || b = underscore

def toUpper (b : UInt8) : UInt8 := if isLower b then b - 32 else b

def toLower (b : UInt8) : UInt8 := if isUpper b then b + 32 else b

def signed (b : UInt8) : UInt8 := b ^^^ 128

end Byte

namespace Bytes

def trim (s : Bytes) : Bytes :=
  ((s.dropWhile Byte.isSpace).reverse.dropWhile Byte.isSpace).reverse

def after? (b : UInt8) : Bytes → Option Bytes
  | [] => none
  | b' :: rest => if b' = b then some rest else none

theorem length_of_after? {b : UInt8} {s rest : Bytes} (h : after? b s = some rest) :
    rest.length < s.length := by
  cases s with
  | nil => simp [after?] at h
  | cons b' s => grind [after?]

theorem length_dropWhile_le (p : UInt8 → Bool) (s : Bytes) :
    (s.dropWhile p).length ≤ s.length :=
  (List.dropWhile_suffix p).length_le

def join (separator : String) (parts : List Bytes) : Bytes :=
  (ascii separator).intercalate parts

def ofNat (n : Nat) : Bytes := (Nat.toDigits 10 n).map (fun c => c.toNat.toUInt8)

def ofInt : Int → Bytes
  | .ofNat n => ofNat n
  | .negSucc n => Byte.dash :: ofNat (n + 1)

def digits? (s : Bytes) : Option Nat :=
  if s ≠ [] && s.all Byte.isDigit then
    some (s.foldl (fun n b => 10 * n + (b - 48).toNat) 0)
  else
    none

def trimTrailingSlash (path : Bytes) : Bytes :=
  match path with
  | [] => [Byte.slash]
  | [b] => [b]
  | _ => if path.getLast? = some Byte.slash then path.dropLast else path

end Bytes

end HttpRouting
