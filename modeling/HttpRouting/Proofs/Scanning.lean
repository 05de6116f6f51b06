import HttpRouting.Template.Parser

namespace HttpRouting

open Byte Bytes

section

variable {p : UInt8 → Bool} {b : UInt8} (s rest : Bytes)

theorem takeWhile_append_cons (stop : p b = false) :
    (s ++ b :: rest).takeWhile p = s.takeWhile p := by
  induction s with
  | nil => simp [stop]
  | cons c s ih => rw [List.cons_append, List.takeWhile_cons, List.takeWhile_cons, ih]

theorem dropWhile_append_cons (stop : p b = false) :
    (s ++ b :: rest).dropWhile p = s.dropWhile p ++ b :: rest := by
  induction s with
  | nil => simp [stop]
  | cons c s ih =>
    rw [List.cons_append, List.dropWhile_cons, List.dropWhile_cons, ih]
    split <;> rfl

theorem run_append {run rest : Bytes} (inside : ∀ b ∈ run, p b = true)
    (stop : ∀ b ∈ rest.head?, p b = false) :
    (run ++ rest).takeWhile p = run ∧ (run ++ rest).dropWhile p = rest := by
  rw [List.takeWhile_append_of_pos inside, List.dropWhile_append_of_pos inside]
  cases rest with
  | nil => simp
  | cons b rest => simp [stop b rfl]

end

namespace Bytes

theorem join_singleton (separator : String) (part : Bytes) : join separator [part] = part := by
  simp [join]

theorem join_cons {parts : List Bytes} (more : parts ≠ []) (separator : String) (part : Bytes) :
    join separator (part :: parts) = part ++ (ascii separator ++ join separator parts) := by
  obtain ⟨part', parts, rfl⟩ := List.exists_cons_of_ne_nil more
  rw [join, join, List.intercalate_cons_cons, List.append_assoc]

theorem not_mem_of_mem_splitOn {b : UInt8} {s part : Bytes} (h : part ∈ s.splitOn b) :
    b ∉ part := by
  induction s generalizing part with
  | nil =>
    rw [List.splitOn_nil, List.mem_singleton] at h
    rw [h]
    exact List.not_mem_nil
  | cons c s ih =>
    rw [List.splitOn_cons_eq_if_modifyHead] at h
    split at h
    · rcases List.mem_cons.mp h with rfl | h
      · exact List.not_mem_nil
      · exact ih h
    · rename_i other
      obtain ⟨first, others, cut⟩ := List.exists_cons_of_ne_nil (List.splitOn_ne_nil b s)
      rw [cut] at h ih
      rcases List.mem_cons.mp h with rfl | h
      · rw [List.mem_cons, not_or]
        exact ⟨fun same => other (beq_iff_eq.mpr same.symm), ih List.mem_cons_self⟩
      · exact ih (List.mem_cons_of_mem first h)

theorem after?_eq_some_iff {b : UInt8} {s rest : Bytes} :
    after? b s = some rest ↔ s = b :: rest := by
  cases s with
  | nil => simp [after?]
  | cons c s => simp [after?]

theorem after?_append {b b' : UInt8} (other : b' ≠ b) (s rest : Bytes) :
    after? b (s ++ b' :: rest) = (after? b s).map (· ++ b' :: rest) := by
  cases s with
  | nil => simp [after?, other]
  | cons c s =>
    simp only [List.cons_append, after?]
    split <;> rfl

end Bytes

namespace Template

def Blank (s : Bytes) : Prop := ∀ b ∈ s, isBlank b = true

instance (s : Bytes) : Decidable (Blank s) := List.decidableBAll (isBlank · = true) s

theorem skipBlank_append_cons {b : UInt8} (stop : isBlank b = false) (s rest : Bytes) :
    skipBlank (s ++ b :: rest) = skipBlank s ++ b :: rest :=
  dropWhile_append_cons s rest stop

theorem skipBlank_append {before : Bytes} (blank : Blank before) (s : Bytes) :
    skipBlank (before ++ s) = skipBlank s :=
  List.dropWhile_append_of_pos blank

theorem skipBlank_cons {b : UInt8} (stop : isBlank b = false) (s : Bytes) :
    skipBlank (b :: s) = b :: s :=
  List.dropWhile_cons_of_neg (by simp [stop])

theorem blank_skipped (s : Bytes) : ∃ before, Blank before ∧ s = before ++ skipBlank s := by
  refine ⟨s.takeWhile isBlank, fun b hb => ?_, List.takeWhile_append_dropWhile.symm⟩
  exact List.all_eq_true.mp List.all_takeWhile b hb

inductive Nested : Bytes → Prop
  | nil : Nested []
  | byte {b : UInt8} {s : Bytes} (plain : b ≠ backslash ∧ b ≠ leftBrace ∧ b ≠ rightBrace)
      (rest : Nested s) : Nested (b :: s)
  | escape (b : UInt8) {s : Bytes} (rest : Nested s) : Nested (backslash :: b :: s)
  | group {inner s : Bytes} (within : Nested inner) (rest : Nested s) :
      Nested (leftBrace :: inner ++ rightBrace :: s)

section

variable (depth : Nat) (s : Bytes)

theorem balanced_escape (b : UInt8) : balanced depth false (backslash :: b :: s) =
    (balanced depth false s).map fun p => (backslash :: b :: p.1, p.2) := by
  simp [balanced, Function.comp_def]

theorem balanced_leftBrace : balanced depth false (leftBrace :: s) =
    (balanced (depth + 1) false s).map fun p => (leftBrace :: p.1, p.2) := rfl

theorem balanced_rightBrace : balanced (depth + 1) false (rightBrace :: s) =
    (balanced depth false s).map fun p => (rightBrace :: p.1, p.2) := rfl

theorem balanced_close : balanced 0 false (rightBrace :: s) = some ([], s) := rfl

theorem balanced_byte {b : UInt8} (plain : b ≠ backslash ∧ b ≠ leftBrace ∧ b ≠ rightBrace) :
    balanced depth false (b :: s) = (balanced depth false s).map fun p => (b :: p.1, p.2) := by
  simp [balanced, plain]

end

theorem Nested.balanced_append {s : Bytes} (h : Nested s) (depth : Nat) (rest : Bytes) :
    balanced depth false (s ++ rest) =
      (balanced depth false rest).map fun p => (s ++ p.1, p.2) := by
  induction h generalizing depth rest with
  | nil => simp
  | byte plain _ ih =>
    simp only [List.cons_append, balanced_byte _ _ plain, ih, Option.map_map, Function.comp_def]
  | escape b _ ih =>
    simp only [List.cons_append, balanced_escape, ih, Option.map_map, Function.comp_def]
  | group _ _ ihw ihr =>
    simp only [List.cons_append, List.append_assoc, balanced_leftBrace, ihw, balanced_rightBrace,
      ihr, Option.map_map, Function.comp_def]

def Closes : Nat → Bytes → Prop
  | 0, s => Nested s
  | depth + 1, s => ∃ inner rest, s = inner ++ rightBrace :: rest ∧ Nested inner ∧ Closes depth rest

theorem Closes.prepend {start : Bytes} (nests : ∀ s, Nested s → Nested (start ++ s)) {depth : Nat}
    {s : Bytes} (h : Closes depth s) : Closes depth (start ++ s) := by
  cases depth with
  | zero => exact nests s h
  | succ depth =>
    obtain ⟨inner, rest, rfl, nested, closes⟩ := h
    exact ⟨start ++ inner, rest, (List.append_assoc _ _ _).symm, nests inner nested, closes⟩

theorem Closes.opened {depth : Nat} {s : Bytes} (h : Closes (depth + 1) s) :
    Closes depth (leftBrace :: s) := by
  obtain ⟨inner, rest, rfl, nested, closes⟩ := h
  have grouped : Closes depth ((leftBrace :: inner ++ [rightBrace]) ++ rest) := by
    refine closes.prepend fun s hs => ?_
    rw [List.append_assoc]
    exact Nested.group nested hs
  rwa [List.append_assoc] at grouped

theorem closes_of_balanced {depth : Nat} {t s rest : Bytes}
    (h : balanced depth false t = some (s, rest)) :
    t = s ++ rightBrace :: rest ∧ Closes depth s := by
  -- By the length, as a backslash takes the byte after it along.
  induction size : t.length using Nat.strongRecOn generalizing depth t s with
  | _ n ih =>
    subst size
    have after (start : Bytes) {depth' : Nat} {t' : Bytes} (shorter : t'.length < t.length)
        (read : (balanced depth' false t').map (fun p => (start ++ p.1, p.2)) = some (s, rest)) :
        ∃ s', s = start ++ s' ∧ t' = s' ++ rightBrace :: rest ∧ Closes depth' s' := by
      obtain ⟨⟨s', rest'⟩, tail, same⟩ := Option.map_eq_some_iff.mp read
      cases same
      exact ⟨s', rfl, ih _ shorter tail rfl⟩
    cases t with
    | nil => cases h
    | cons b t =>
      have next : t.length < (b :: t).length := Nat.lt_succ_self _
      by_cases escape : b = backslash
      · subst escape
        cases t with
        | nil => cases h
        | cons b t =>
          rw [balanced_escape] at h
          obtain ⟨s, rfl, rfl, closes⟩ :=
            after [backslash, b] (Nat.lt_succ_of_lt (Nat.lt_succ_self _)) h
          exact ⟨rfl, closes.prepend fun _ => Nested.escape b⟩
      · by_cases opens : b = leftBrace
        · subst opens
          rw [balanced_leftBrace] at h
          obtain ⟨s, rfl, rfl, closes⟩ := after [leftBrace] next h
          exact ⟨rfl, closes.opened⟩
        · by_cases close : b = rightBrace
          · subst close
            cases depth with
            | zero =>
              cases h
              exact ⟨rfl, Nested.nil⟩
            | succ depth =>
              rw [balanced_rightBrace] at h
              obtain ⟨s, rfl, rfl, closes⟩ := after [rightBrace] next h
              exact ⟨rfl, [], s, rfl, Nested.nil, closes⟩
          · rw [balanced_byte _ _ ⟨escape, opens, close⟩] at h
            obtain ⟨s, rfl, rfl, closes⟩ := after [b] next h
            exact ⟨rfl, closes.prepend fun _ => Nested.byte ⟨escape, opens, close⟩⟩

theorem balanced_eq_some_iff {t s rest : Bytes} :
    balanced 0 false t = some (s, rest) ↔ t = s ++ rightBrace :: rest ∧ Nested s := by
  refine ⟨closes_of_balanced, ?_⟩
  rintro ⟨rfl, nested⟩
  rw [nested.balanced_append, balanced_close, Option.map_some, List.append_nil]

instance (s : Bytes) : Decidable (Nested s) :=
  decidable_of_iff (balanced 0 false (s ++ [rightBrace]) = some (s, []))
    (balanced_eq_some_iff.trans (and_iff_right rfl))

theorem braced_eq_ok_iff {start rest : Bytes} {p : Pattern} :
    braced start = .ok (p, rest) ↔
      ∃ source, start.tail = source ++ rightBrace :: rest ∧ Nested source ∧
        Pattern.compile? source = some p := by
  rw [braced]
  constructor
  · intro h
    split at h
    · cases h
    · rename_i source rest' closed
      split at h
      · cases h
      · rename_i p' compiled
        cases h
        obtain ⟨split, nested⟩ := balanced_eq_some_iff.mp closed
        exact ⟨source, split, nested, compiled⟩
  · rintro ⟨source, split, nested, compiled⟩
    rw [balanced_eq_some_iff.mpr ⟨split, nested⟩]
    simp only [compiled]
    rfl

end Template

end HttpRouting
