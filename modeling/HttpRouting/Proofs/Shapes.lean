import HttpRouting.Dispatch.Answer
import HttpRouting.Dictionary.Latest

namespace HttpRouting

def Segment.shape : Segment → Option Bytes
  | .literal text => some text
  | .param _ => none

def shape (segments : List Segment) : List (Option Bytes) := segments.map Segment.shape

@[simp] theorem shape_literal (text : Bytes) (segments : List Segment) :
    shape (.literal text :: segments) = some text :: shape segments := rfl

@[simp] theorem shape_param (name : Bytes) (segments : List Segment) :
    shape (.param name :: segments) = none :: shape segments := rfl

def Fits (segments : List Segment) (parts : List Bytes) : Prop :=
  segments.length = parts.length ∧
    ∀ (i : Nat) (text : Bytes), segments[i]? = some (.literal text) → parts[i]? = some text

/-- Where two shapes differ first, the preferred one has a literal and the other a parameter. -/
def Preferred (s t : List (Option Bytes)) : Prop :=
  ∃ common text rest rest', s = common ++ some text :: rest ∧ t = common ++ none :: rest'

theorem fits_nil : Fits [] [] := ⟨rfl, fun _ _ h => absurd h nofun⟩

theorem eq_nil_of_fits {segments : List Segment} (h : Fits segments []) : segments = [] :=
  List.length_eq_zero_iff.mp h.1

theorem fits_cons {segment : Segment} {segments : List Segment} {part : Bytes}
    {parts : List Bytes} :
    Fits (segment :: segments) (part :: parts) ↔
      (∀ text, segment = .literal text → part = text) ∧ Fits segments parts := by
  constructor
  · rintro ⟨length, literals⟩
    refine ⟨fun text same => ?_, Nat.succ.inj length, fun i text found => ?_⟩
    · exact Option.some.inj (literals 0 text (by rw [same, List.getElem?_cons_zero]))
    · exact literals (i + 1) text found
  · rintro ⟨first, length, literals⟩
    refine ⟨congrArg Nat.succ length, fun i text found => ?_⟩
    cases i with
    | zero => rw [List.getElem?_cons_zero, first text (Option.some.inj found)]
    | succ i => exact literals i text found

theorem getElem?_shape {segments : List Segment} {i : Nat} {text : Bytes} :
    (shape segments)[i]? = some (some text) ↔ segments[i]? = some (.literal text) := by
  rw [shape, List.getElem?_map]
  cases segments[i]? with
  | none => simp
  | some segment => cases segment <;> simp [Segment.shape]

theorem fits_congr {segments segments' : List Segment} {parts : List Bytes}
    (same : shape segments = shape segments') (h : Fits segments parts) : Fits segments' parts := by
  obtain ⟨length, literals⟩ := h
  have lengths := congrArg List.length same
  rw [shape, shape, List.length_map, List.length_map] at lengths
  refine ⟨lengths.symm.trans length, fun i text found => ?_⟩
  rw [← getElem?_shape, ← same, getElem?_shape] at found
  exact literals i text found

theorem Preferred.cons {s t : List (Option Bytes)} (h : Preferred s t) (first : Option Bytes) :
    Preferred (first :: s) (first :: t) := by
  obtain ⟨common, text, rest, rest', rfl, rfl⟩ := h
  exact ⟨first :: common, text, rest, rest', rfl, rfl⟩

theorem Preferred.asymm {s t : List (Option Bytes)} (h : Preferred s t) : ¬ Preferred t s := by
  obtain ⟨common, text, rest, rest', rfl, rfl⟩ := h
  rintro ⟨common', text', later, later', first, second⟩
  induction common generalizing common' with
  | nil =>
    cases common' with
    | nil => cases first
    | cons _ _ => cases (List.cons.inj first).1.trans (List.cons.inj second).1.symm
  | cons head common ih =>
    cases common' with
    | nil => cases (List.cons.inj first).1.symm.trans (List.cons.inj second).1
    | cons head' common' => exact ih common' (List.cons.inj first).2 (List.cons.inj second).2

def bindings (segments : List Segment) (parts : List Bytes) : List (Bytes × Bytes) :=
  (segments.zip parts).filterMap fun
    | (.literal _, _) => none
    | (.param name, part) => some (name, part)

theorem bindings_literal (text : Bytes) (segments : List Segment) (part : Bytes)
    (parts : List Bytes) :
    bindings (.literal text :: segments) (part :: parts) = bindings segments parts := rfl

theorem bindings_param (name : Bytes) (segments : List Segment) (part : Bytes)
    (parts : List Bytes) :
    bindings (.param name :: segments) (part :: parts) =
      (name, part) :: bindings segments parts := rfl

theorem captured_congr {segments segments' : List Segment} (same : shape segments = shape segments')
    (parts : List Bytes) :
    (bindings segments parts).map (·.2) = (bindings segments' parts).map (·.2) := by
  induction segments generalizing segments' parts with
  | nil => rw [List.map_eq_nil_iff.mp same.symm]
  | cons segment segments ih =>
    cases segments' with
    | nil => cases same
    | cons segment' segments' =>
      obtain ⟨first, rest⟩ := List.cons.inj same
      cases parts with
      | nil => rfl
      | cons part parts =>
        cases segment <;> cases segment'
        · exact ih rest parts
        · cases first
        · cases first
        · rw [bindings_param, bindings_param, List.map_cons, List.map_cons, ih rest parts]

theorem latest_bindings_eq_none_iff {segments : List Segment} {parts : List Bytes}
    (length : segments.length = parts.length) (name : Bytes) :
    latest name (bindings segments parts) = none ↔
      ∀ i : Nat, segments[i]? ≠ some (.param name) := by
  induction segments generalizing parts with
  | nil => exact ⟨fun _ _ => nofun, fun _ => rfl⟩
  | cons segment segments ih =>
    cases parts with
    | nil => cases length
    | cons part parts =>
      have below := ih (Nat.succ.inj length)
      cases segment with
      | literal text =>
        rw [bindings_literal, below]
        constructor
        · intro none i
          cases i with
          | zero => exact nofun
          | succ i => exact none i
        · intro none i
          exact none (i + 1)
      | param name' =>
        rw [bindings_param, latest_cons, Option.or_eq_none_iff, below]
        constructor
        · rintro ⟨none, other⟩ i
          cases i with
          | zero =>
            rintro ⟨⟩
            exact absurd other (by simp)
          | succ i => exact none i
        · intro none
          refine ⟨fun i => none (i + 1), if_neg ?_⟩
          rintro rfl
          exact none 0 rfl

theorem latest_bindings_eq_some_iff {segments : List Segment} {parts : List Bytes}
    (length : segments.length = parts.length) (name part : Bytes) :
    latest name (bindings segments parts) = some part ↔
      ∃ i : Nat, segments[i]? = some (.param name) ∧ parts[i]? = some part ∧
        ∀ j : Nat, i < j → segments[j]? ≠ some (.param name) := by
  induction segments generalizing parts with
  | nil => exact ⟨nofun, fun ⟨_, found, _⟩ => absurd found nofun⟩
  | cons segment segments ih =>
    cases parts with
    | nil => cases length
    | cons part' parts =>
      have split :
          (∃ i : Nat, (segment :: segments)[i]? = some (.param name) ∧
            (part' :: parts)[i]? = some part ∧
            ∀ j : Nat, i < j → (segment :: segments)[j]? ≠ some (.param name)) ↔
          (segment = .param name ∧ part' = part ∧
            ∀ j : Nat, segments[j]? ≠ some (.param name)) ∨
          ∃ i : Nat, segments[i]? = some (.param name) ∧ parts[i]? = some part ∧
            ∀ j : Nat, i < j → segments[j]? ≠ some (.param name) := by
        constructor
        · rintro ⟨i, found, bound, none⟩
          cases i with
          | zero =>
            left
            exact ⟨Option.some.inj found, Option.some.inj bound,
              fun j => none (j + 1) (Nat.succ_pos j)⟩
          | succ i =>
            right
            exact ⟨i, found, bound, fun j hj => none (j + 1) (Nat.succ_lt_succ hj)⟩
        · rintro (⟨rfl, rfl, none⟩ | ⟨i, found, bound, none⟩)
          · refine ⟨0, rfl, rfl, fun j hj => ?_⟩
            cases j with
            | zero => cases hj
            | succ j => exact none j
          · refine ⟨i + 1, found, bound, fun j hj => ?_⟩
            cases j with
            | zero => cases hj
            | succ j => exact none j (Nat.lt_of_succ_lt_succ hj)
      rw [split, ← ih (Nat.succ.inj length), ← latest_bindings_eq_none_iff (Nat.succ.inj length)]
      cases segment with
      | literal text => simp [bindings_literal]
      | param name' =>
        rw [bindings_param, latest_cons, Option.or_eq_some_iff]
        by_cases same : name' = name
        · rw [if_pos same, same, Option.some.injEq]
          constructor
          · rintro (found | ⟨none, bound⟩)
            · exact .inr found
            · exact .inl ⟨rfl, bound, none⟩
          · rintro (⟨-, bound, none⟩ | found)
            · exact .inr ⟨none, bound⟩
            · exact .inl found
        · simp [same]

namespace Dispatcher

theorem bindParams_eq {segments : List Segment} {parts : List Bytes}
    (length : segments.length = parts.length) :
    bindParams segments ((bindings segments parts).map (·.2)) =
      Dictionary.ofList (bindings segments parts) := by
  refine congrArg Dictionary.ofList ?_
  induction segments generalizing parts with
  | nil => rfl
  | cons segment segments ih =>
    cases parts with
    | nil => cases length
    | cons part parts =>
      have below := ih (Nat.succ.inj length)
      cases segment with
      | literal text => exact below
      | param name => exact congrArg ((name, part) :: ·) below

end Dispatcher

end HttpRouting
