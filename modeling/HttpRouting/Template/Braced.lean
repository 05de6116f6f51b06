import HttpRouting.Template.Blame
import HttpRouting.Template.Descriptor

namespace HttpRouting.Template

open Byte Bytes

def skipBlank (s : Bytes) : Bytes := s.dropWhile isBlank

/-- The text up to the brace that balances an open one, and the text after it. A backslash and the
byte after it are taken as they are. -/
def balanced (depth : Nat) (escaped : Bool) : Bytes → Option (Bytes × Bytes)
  | [] => none
  | b :: rest =>
    if escaped then (balanced depth false rest).map (fun p => (b :: p.1, p.2))
    else if b = backslash then (balanced depth true rest).map (fun p => (b :: p.1, p.2))
    else if b = leftBrace then (balanced (depth + 1) false rest).map (fun p => (b :: p.1, p.2))
    else if b = rightBrace && depth = 0 then some ([], rest)
    else if b = rightBrace then (balanced (depth - 1) false rest).map (fun p => (b :: p.1, p.2))
    else (balanced depth false rest).map (fun p => (b :: p.1, p.2))

def braced (start : Bytes) : Scan (Pattern × Bytes) :=
  match balanced 0 false start.tail with
  | none => throw (.between .unclosedBrace start [])
  | some (source, rest) =>
    match Pattern.compile? source with
    | none => throw (.quoting .invalidPattern start source)
    | some p => return (p, rest)

theorem length_skipBlank_le (s : Bytes) : (skipBlank s).length ≤ s.length :=
  length_dropWhile_le isBlank s

theorem length_of_balanced {depth : Nat} {escaped : Bool} {s text rest : Bytes}
    (h : balanced depth escaped s = some (text, rest)) : rest.length < s.length := by
  induction s generalizing depth escaped text with
  | nil => simp [balanced] at h
  | cons b s ih => grind [balanced, Option.map_eq_some_iff]

theorem length_of_braced {s rest : Bytes} {p : Pattern} (h : braced s = .ok (p, rest)) :
    rest.length < s.length := by
  unfold braced at h
  split at h
  · cases h
  · rename_i balance
    have shorter := length_of_balanced balance
    split at h
    · cases h
    · cases h
      simp at shorter
      omega

end HttpRouting.Template
