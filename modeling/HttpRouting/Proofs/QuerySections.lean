import HttpRouting.Proofs.UrlText

namespace HttpRouting

open Byte Bytes

namespace Template

def braceStep (depth : Nat) (escaped : Bool) (b : UInt8) : Option (Nat × Bool) :=
  if escaped then some (depth, false)
  else if b = backslash then some (depth, true)
  else if b = leftBrace then some (depth + 1, false)
  else if b = rightBrace then if depth = 0 then none else some (depth - 1, false)
  else some (depth, false)

theorem balanced_cons (depth : Nat) (escaped : Bool) (b : UInt8) (s : Bytes) :
    balanced depth escaped (b :: s) =
      match braceStep depth escaped b with
      | none => some ([], s)
      | some (depth, escaped) => (balanced depth escaped s).map fun p => (b :: p.1, p.2) := by
  rw [balanced, braceStep]
  cases escaped with
  | true => rfl
  | false =>
    by_cases mark : b = backslash
    · simp [mark]
    · by_cases opens : b = leftBrace
      · subst opens
        rfl
      · by_cases closes : b = rightBrace
        · subst closes
          cases depth <;> rfl
        · simp [mark, opens, closes]

inductive UrlPlace
  | outside (marked : Bool)
  | angle
  | braces (depth : Nat) (escaped : Bool)
deriving DecidableEq

namespace UrlPlace

def after : UrlPlace → UInt8 → UrlPlace
  | outside _, b => if b = leftAngle then angle else outside (b = backslash)
  | angle, b =>
    if b = rightAngle then outside false else if b = leftBrace then braces 0 false else angle
  | braces depth escaped, b =>
    match braceStep depth escaped b with
    | none => angle
    | some (depth, escaped) => braces depth escaped

def split? : UrlPlace → Bytes → Option (Bytes × Bytes)
  | _, [] => none
  | p, b :: s =>
    if p = outside false ∧ b = question then some ([], s)
    else (split? (p.after b) s).map fun x => (b :: x.1, x.2)

def Passes (p : UrlPlace) (text : Bytes) (p' : UrlPlace) : Prop :=
  ∀ rest, p.split? (text ++ rest) = (p'.split? rest).map fun x => (text ++ x.1, x.2)

variable {p p' p'' : UrlPlace} {text more s start q : Bytes}

theorem passes_nil (p : UrlPlace) : Passes p [] p := fun rest => by simp

theorem Passes.append (h : Passes p text p') (h' : Passes p' more p'') :
    Passes p (text ++ more) p'' := by
  intro rest
  rw [List.append_assoc, h, h', Option.map_map]
  exact congrArg (Option.map · _) (funext fun x => by simp)

theorem passes_byte {b : UInt8} (inner : ¬(p = outside false ∧ b = question)) :
    Passes p [b] (p.after b) := by
  intro rest
  rw [List.singleton_append, split?, if_neg inner]
  rfl

theorem Passes.cons {b : UInt8} (inner : ¬(p = outside false ∧ b = question))
    (next : p.after b = p') (h : Passes p' text p'') : Passes p (b :: text) p'' := by
  subst next
  exact (passes_byte inner).append h

theorem passes_angle (plain : ∀ b ∈ text, b ≠ rightAngle ∧ b ≠ leftBrace) :
    Passes angle text angle := by
  induction text with
  | nil => exact passes_nil _
  | cons b text ih =>
    obtain ⟨first, others⟩ := List.forall_mem_cons.mp plain
    have same : angle.after b = angle := by rw [after, if_neg first.1, if_neg first.2]
    exact .cons (by simp) same (ih others)

theorem split?_eq_some (h : p.split? s = some (start, q)) :
    s = start ++ question :: q ∧ ∀ q', p.split? (start ++ question :: q') = some (start, q') := by
  induction s generalizing p start with
  | nil => cases h
  | cons b s ih =>
    rw [split?] at h
    split at h
    · rename_i first
      cases h
      exact ⟨by rw [first.2]; rfl, fun q' => if_pos ⟨first.1, rfl⟩⟩
    · rename_i inner
      obtain ⟨⟨start', q''⟩, later, same⟩ := Option.map_eq_some_iff.mp h
      cases same
      obtain ⟨split, again⟩ := ih later
      refine ⟨by rw [split]; rfl, fun q' => ?_⟩
      rw [List.cons_append, split?, if_neg inner, again q']
      rfl

end UrlPlace

open UrlPlace

theorem Nested.passes {s : Bytes} (h : Nested s) (depth : Nat) :
    Passes (.braces depth false) s (.braces depth false) := by
  have inner {depth : Nat} {escaped : Bool} {b : UInt8} :
      ¬(UrlPlace.braces depth escaped = .outside false ∧ b = question) := nofun
  induction h generalizing depth with
  | nil => exact passes_nil _
  | @byte b s plain _ ih =>
    have same : (UrlPlace.braces depth false).after b = .braces depth false := by
      simp [after, braceStep, plain]
    exact .cons inner same (ih depth)
  | escape b _ ih => exact .cons inner rfl (.cons inner rfl (ih depth))
  | group _ _ ihw ihr =>
    exact .append (.cons inner rfl (ihw (depth + 1))) (.cons inner rfl (ihr depth))

theorem plain_of_isName {b : UInt8} (letter : isName b = true) :
    b ≠ rightAngle ∧ b ≠ leftBrace := by
  constructor <;> exact ne_of_apply_ne isName (by rw [letter]; decide)

theorem plain_of_isBlank {b : UInt8} (blank : isBlank b = true) :
    b ≠ rightAngle ∧ b ≠ leftBrace := by
  constructor <;> exact ne_of_apply_ne isBlank (by rw [blank]; decide)

theorem Blank.passes {s : Bytes} (h : Blank s) : Passes .angle s .angle :=
  passes_angle fun b hb => plain_of_isBlank (h b hb)

theorem TypeText.passes {name type : Bytes} {d : Descriptor} (h : TypeText name type d) :
    Passes .angle type .angle := by
  have colon : Passes .angle [colon] .angle := passes_byte (by simp)
  cases h with
  | omitted => exact passes_nil _
  | @named t before after nameable left right =>
    have letters : Passes .angle (ascii t.name) .angle :=
      passes_angle fun b hb => plain_of_isName (isName_of_mem_name b hb)
    exact ((colon.append left.passes).append letters).append right.passes
  | @pattern p source before after nested compiled left right =>
    have opens : Passes .angle [leftBrace] (.braces 0 false) := passes_byte (by simp)
    have closes : Passes (.braces 0 false) [rightBrace] .angle := passes_byte (by simp)
    have braces := (opens.append (nested.passes 0)).append (closes.append right.passes)
    simpa using (colon.append left.passes).append braces

theorem ParamText.passes {text : Bytes} {d : Descriptor} (h : ParamText text d) (marked : Bool) :
    Passes (.outside marked) text (.outside false) := by
  obtain ⟨left, named, letters, right, typed⟩ := h
  rename_i name before after type
  have opens : Passes (.outside marked) [leftAngle] .angle :=
    passes_byte fun first => absurd first.2 (by decide)
  have closes : Passes .angle [rightAngle] (.outside false) := passes_byte (by simp)
  have name := passes_angle fun b hb => plain_of_isName (letters b hb)
  exact ((((opens.append left.passes).append name).append right.passes).append
    typed.passes).append closes

def querySection? (source : Bytes) : Option (Bytes × Bytes) := split? (.outside false) source

theorem split?_cons_eq_some {p : UrlPlace} {b : UInt8} {s start q : Bytes}
    (inner : ¬(p = .outside false ∧ b = question)) (h : p.split? (b :: s) = some (start, q)) :
    ∃ start', start = b :: start' ∧ (p.after b).split? s = some (start', q) := by
  rw [split?, if_neg inner] at h
  obtain ⟨⟨start', q'⟩, later, same⟩ := Option.map_eq_some_iff.mp h
  cases same
  exact ⟨start', rfl, later⟩

theorem head?_append_cons (start : Bytes) (b : UInt8) (s s' : Bytes) :
    (start ++ b :: s).head? = (start ++ b :: s').head? := by
  cases start <;> rfl

theorem url_split {u v : Url} {literal s start q : Bytes} {marked : Bool}
    (h : url u literal s = .ok v) (apart : split? (.outside marked) s = some (start, q))
    (unmarked : marked = true → s.head? ≠ some question) :
    v.query = some q ∧
      ∀ q', url u literal (start ++ question :: q') = .ok { v with query := some q' } := by
  fun_induction url u literal s generalizing start marked with
  | case1 => cases apart
  | case2 => cases h
  | case3 => cases h
  | case4 => cases h
  | case5 => cases h
  | case6 u literal rest whole d tail next fresh read _ ih =>
    rw [ne_eq, Decidable.not_not] at whole
    subst whole
    obtain ⟨text, split, param⟩ := text_of_pathParam read
    rw [split, param.passes] at apart
    obtain ⟨⟨start', q''⟩, later, same⟩ := Option.map_eq_some_iff.mp apart
    cases same
    obtain ⟨asked, again⟩ := ih h later fun marked => absurd marked (by decide)
    refine ⟨asked, fun q' => ?_⟩
    rw [Bool.not_eq_true] at next fresh
    rw [(split?_eq_some later).1, head?_append_cons start' question q'' q'] at next
    rw [List.append_assoc, url_param _ param fresh next, again q']
  | case7 u literal b rest _ mark ih =>
    rw [Bool.and_eq_true, decide_eq_true_eq, decide_eq_true_eq] at mark
    obtain ⟨rfl, first⟩ := mark
    obtain ⟨rest, rfl⟩ := List.head?_eq_some_iff.mp first
    obtain ⟨start, rfl, later⟩ :=
      split?_cons_eq_some (fun first => absurd first.2 (by decide)) apart
    obtain ⟨start, rfl, last⟩ := split?_cons_eq_some (p := .outside true) (by decide) later
    obtain ⟨asked, again⟩ := ih h last fun marked => absurd marked (by decide)
    exact ⟨asked, fun q' => by rw [List.cons_append, List.cons_append, url_mark, again q']⟩
  | case8 u literal rest =>
    cases marked with
    | true => exact absurd rfl (unmarked rfl)
    | false =>
      cases h
      cases apart
      exact ⟨rfl, fun q' => by rw [List.nil_append, url]; rfl⟩
  | case9 u literal rest _ _ _ ih =>
    obtain ⟨start, rfl, later⟩ :=
      split?_cons_eq_some (fun first => absurd first.2 (by decide)) apart
    obtain ⟨asked, again⟩ := ih h later fun marked => absurd marked (by decide)
    exact ⟨asked, fun q' => by rw [List.cons_append, url_slash, again q']⟩
  | case10 u literal b rest noAngle noMark noQuestion noSlash ih =>
    obtain ⟨start, rfl, later⟩ := split?_cons_eq_some (fun first => noQuestion first.2) apart
    rw [UrlPlace.after, if_neg noAngle] at later
    have mark : ¬(b = backslash ∧ rest.head? = some question) := by simpa using noMark
    obtain ⟨asked, again⟩ := ih h later fun backslashed first =>
      mark ⟨of_decide_eq_true backslashed, first⟩
    refine ⟨asked, fun q' => ?_⟩
    rw [(split?_eq_some later).1, head?_append_cons start question q q'] at mark
    rw [List.cons_append, url_byte _ ⟨noSlash, noAngle, noQuestion⟩ mark, again q']

end Template

end HttpRouting
