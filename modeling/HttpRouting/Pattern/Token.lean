import HttpRouting.Pattern.Bracket
import HttpRouting.Pattern.Node

namespace HttpRouting.Pattern

open Byte Bytes

inductive Token
  | atom (node : Node)
  | assertion (node : Node)
  | backref (group : Nat)
  | quantifier (q : Quantifier) (lazy : Bool)
  | bar
  | openGroup
  | openCluster
  | openLook (negated : Bool)
  | close
deriving DecidableEq, Repr

def interval? (s : Bytes) : Option (Count × Bytes) := do
  let least ← digits? (s.takeWhile isDigit)
  let rest := s.dropWhile isDigit
  match after? comma rest with
  | none => return (⟨least, some least⟩, ← after? rightBrace rest)
  | some rest =>
    let most := digits? (rest.takeWhile isDigit)
    if most.all (least ≤ ·) then
      return (⟨least, most⟩, ← after? rightBrace (rest.dropWhile isDigit))
    else none

theorem length_of_interval? {s rest : Bytes} {c : Count}
    (h : interval? s = some (c, rest)) : rest.length < s.length := by
  have drop := length_dropWhile_le isDigit
  grind [interval?, Option.bind_eq_some_iff, → length_of_after?]

def lazily (q : Quantifier) (s : Bytes) : Token × Bytes :=
  match after? question s with
  | some rest => (.quantifier q true, rest)
  | none => (.quantifier q false, s)

def openedGroup? (s : Bytes) : Option (Token × Bytes) :=
  match after? question s with
  | none => some (.openGroup, s)
  | some [] => none
  | some (kind :: rest) =>
    match Char.ofUInt8 kind with
    | ':' => some (.openCluster, rest)
    | '=' => some (.openLook false, rest)
    | '!' => some (.openLook true, rest)
    | _ => none

def bracket? (s : Bytes) : Option (Token × Bytes) := do
  let negated := (after? caret s).isSome
  let (items, rest) ← bracketItems? ((after? caret s).getD s)
  return (.atom (.set ⟨negated, ← members? .nothing items⟩), rest)

def Escape.token : Escape → Token
  | byte b => .atom (.byte b)
  | ofClass m => .atom (.set ⟨false, [m]⟩)
  | boundary negated => .assertion (.boundary negated)
  | backref group => .backref group

def token? : Bytes → Option (Token × Bytes)
  | [] => none
  | b :: rest =>
    match Char.ofUInt8 b with
    | '^' => some (.assertion .lineStart, rest)
    | '$' => some (.assertion .lineEnd, rest)
    | '.' => some (.atom .any, rest)
    | '|' => some (.bar, rest)
    | '(' => openedGroup? rest
    | ')' => some (.close, rest)
    | '*' => some (lazily .star rest)
    | '+' => some (lazily .plus rest)
    | '?' => some (lazily .opt rest)
    | '{' => (interval? rest).map (fun found => lazily (.interval found.1) found.2)
    | '[' => bracket? rest
    | '\\' => (escape? false rest).map (fun found => (found.1.token, found.2))
    | _ => some (.atom (.byte b), rest)

theorem length_lazily_le (q : Quantifier) (s : Bytes) : (lazily q s).2.length ≤ s.length := by
  grind [lazily, → length_of_after?]

theorem length_of_openedGroup? {s rest : Bytes} {t : Token}
    (h : openedGroup? s = some (t, rest)) : rest.length ≤ s.length := by
  unfold openedGroup? at h
  grind [→ length_of_after?]

theorem length_of_bracket? {s rest : Bytes} {t : Token}
    (h : bracket? s = some (t, rest)) : rest.length < s.length := by
  unfold bracket? at h
  cases start : after? caret s <;>
    grind [Option.bind_eq_some_iff, → length_of_after?, → length_of_bracketItems?]

theorem length_of_token? {s rest : Bytes} {t : Token}
    (h : token? s = some (t, rest)) : rest.length < s.length := by
  unfold token? at h
  split at h
  · simp at h
  · split at h
    all_goals grind [Option.map_eq_some_iff, length_lazily_le, → length_of_openedGroup?,
      → length_of_interval?, → length_of_bracket?, → length_of_escape?]

def tokens? (s : Bytes) : Option (List Token) :=
  if s = [] then some []
  else
    match h : token? s with
    | none => none
    | some (t, rest) =>
      have := length_of_token? h
      (tokens? rest).map (t :: ·)
termination_by s.length

end HttpRouting.Pattern
