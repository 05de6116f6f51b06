import HttpRouting.Pattern.ByteSet

namespace HttpRouting.Pattern

open Byte Bytes

inductive Escape
  | byte (b : UInt8)
  | ofClass (m : Member)
  | boundary (negated : Bool)
  | backref (group : Nat)
deriving DecidableEq, Repr

def hexValue? (b : UInt8) : Option UInt8 :=
  if isDigit b then some (b - 48)
  else if CharClass.xdigit.holds b then some (toLower b - 87)
  else none

def hexByte? (digits : Bytes) : Option UInt8 :=
  digits.foldlM (fun n b => (hexValue? b).map (16 * n + ·)) 0

def letterEscape? (inBracket : Bool) (letter : UInt8) : Option Escape :=
  match Char.ofUInt8 letter with
  | '0' => some (.byte 0)
  | 'b' => some (if inBracket then .byte 8 else .boundary false)
  | 'B' => some (.boundary true)
  | 'd' => some (.ofClass (.ofClass .digit))
  | 'D' => some (.ofClass (.outside .digit))
  | 'f' => some (.byte 12)
  | 'n' => some (.byte 10)
  | 'r' => some (.byte 13)
  | 's' => some (.ofClass (.ofClass .space))
  | 'S' => some (.ofClass (.outside .space))
  | 't' => some (.byte 9)
  | 'v' => some (.byte 11)
  | 'w' => some (.ofClass (.ofClass .word))
  | 'W' => some (.ofClass (.outside .word))
  | _ => none

def hexEscape? (digits : Nat) (s : Bytes) : Option (Escape × Bytes) :=
  if s.length < digits then none
  else (hexByte? (s.take digits)).map (fun b => (.byte b, s.drop digits))

def escape? (inBracket : Bool) : Bytes → Option (Escape × Bytes)
  | [] => none
  | b :: rest =>
    match letterEscape? inBracket b with
    | some e => some (e, rest)
    | none =>
      match Char.ofUInt8 b with
      | 'c' => rest.head?.map (fun next => (.byte next, rest.tail))
      | 'x' => hexEscape? 2 rest
      | 'u' => hexEscape? 4 rest
      | _ =>
        if isDigit b then
          ((b :: rest).takeWhile isDigit |> digits?).map (fun n =>
            (.backref n, rest.dropWhile isDigit))
        else
          some (.byte b, rest)

theorem length_of_hexEscape? {digits : Nat} {s rest : Bytes} {e : Escape}
    (h : hexEscape? digits s = some (e, rest)) : rest.length ≤ s.length := by
  unfold hexEscape? at h
  split at h
  · simp at h
  · obtain ⟨b, -, eq⟩ := Option.map_eq_some_iff.mp h
    obtain ⟨-, rfl⟩ := Prod.mk.inj eq
    simp

theorem length_of_escape? {inBracket : Bool} {s rest : Bytes} {e : Escape}
    (h : escape? inBracket s = some (e, rest)) : rest.length < s.length := by
  cases s with
  | nil => simp [escape?] at h
  | cons b s =>
    have drop := length_dropWhile_le isDigit s
    simp only [escape?] at h
    split at h
    · grind
    · split at h
      · grind [Option.map_eq_some_iff]
      · exact Nat.lt_succ_of_le (length_of_hexEscape? h)
      · exact Nat.lt_succ_of_le (length_of_hexEscape? h)
      · grind [Option.map_eq_some_iff]

end HttpRouting.Pattern
