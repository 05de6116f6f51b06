import HttpRouting.Pattern.Escape

namespace HttpRouting.Pattern

open Byte Bytes

inductive BracketItem
  | byte (b : UInt8)
  | symbol (b : UInt8)
  | dash
  | group (m : Member)
deriving DecidableEq, Repr

inductive BracketLeft
  | nothing
  | byte (b : UInt8)
  | group
deriving DecidableEq, Repr

def BracketLeft.members : BracketLeft → List Member
  | byte b => [.byte b]
  | _ => []

def range? (low high : UInt8) : Option Member :=
  if Byte.signed low ≤ Byte.signed high then some (.range low high) else none

def members? : BracketLeft → List BracketItem → Option (List Member)
  | left, [] => some left.members
  | left, [.dash] => some (left.members ++ [.byte Byte.dash])
  | left, .byte b :: rest => (members? (.byte b) rest).map (left.members ++ ·)
  | left, .symbol b :: rest => (members? (.byte b) rest).map (left.members ++ ·)
  | left, .group m :: rest => (members? .group rest).map (left.members ++ m :: ·)
  | .nothing, .dash :: rest => members? (.byte Byte.dash) rest
  | .byte low, .dash :: .byte high :: rest => do
    return (← range? low high) :: (← members? .nothing rest)
  | .byte low, .dash :: .dash :: rest => do
    return (← range? low Byte.dash) :: (← members? .nothing rest)
  | _, .dash :: _ => none

def markedName? (mark : UInt8) (s : Bytes) : Option (Bytes × Bytes) := do
  let rest ← after? mark (s.dropWhile (· ≠ mark))
  return (s.takeWhile (· ≠ mark), ← after? rightBracket rest)

def opened? : Bytes → Option (BracketItem × Bytes)
  | [] => none
  | mark :: rest =>
    if mark = dot then do
      let (name, rest) ← markedName? mark rest
      return (.symbol (← collatingByte? name), rest)
    else if mark = colon then do
      let (name, rest) ← markedName? mark rest
      return (.group (.ofClass (← CharClass.ofName? name)), rest)
    else if mark = equals then do
      let (name, rest) ← markedName? mark rest
      return (.group (.anyCase (← collatingByte? name)), rest)
    else
      some (.byte leftBracket, mark :: rest)

def bracketItem? : Bytes → Option (BracketItem × Bytes)
  | [] => none
  | b :: rest =>
    if b = dash then some (.dash, rest)
    else if b = leftBracket then opened? rest
    else if b = backslash then
      match escape? true rest with
      | some (.byte b, rest) => some (.byte b, rest)
      | some (.ofClass m, rest) => some (.group m, rest)
      | _ => none
    else some (.byte b, rest)

theorem length_of_markedName? {mark : UInt8} {s name rest : Bytes}
    (h : markedName? mark s = some (name, rest)) : rest.length < s.length := by
  have drop := length_dropWhile_le (· ≠ mark) s
  grind [markedName?, Option.bind_eq_some_iff, → length_of_after?]

theorem length_of_opened? {s rest : Bytes} {item : BracketItem}
    (h : opened? s = some (item, rest)) : rest.length ≤ s.length := by
  unfold opened? at h
  split at h
  · simp at h
  · grind [Option.bind_eq_some_iff, → length_of_markedName?]

theorem length_of_bracketItem? {s rest : Bytes} {item : BracketItem}
    (h : bracketItem? s = some (item, rest)) : rest.length < s.length := by
  unfold bracketItem? at h
  split at h
  · simp at h
  · grind [→ length_of_escape?, → length_of_opened?]

def bracketItems? (s : Bytes) : Option (List BracketItem × Bytes) :=
  match after? rightBracket s with
  | some rest => some ([], rest)
  | none =>
    match h : bracketItem? s with
    | none => none
    | some (item, rest) =>
      have := length_of_bracketItem? h
      (bracketItems? rest).map (fun found => (item :: found.1, found.2))
termination_by s.length

theorem length_of_bracketItems? {s rest : Bytes} {items : List BracketItem}
    (h : bracketItems? s = some (items, rest)) : rest.length < s.length := by
  fun_induction bracketItems? s generalizing items rest <;>
    grind [→ length_of_after?, → length_of_bracketItem?, Option.map_eq_some_iff]

end HttpRouting.Pattern
