import HttpRouting.Proofs.Scanning

namespace HttpRouting.Template

open Byte Bytes

inductive TypeText (name : Bytes) : Bytes → Descriptor → Prop
  | omitted : TypeText name [] { name, types := [.string] }
  | named {t : ParamType} {before after : Bytes} (nameable : t ≠ .regex) (left : Blank before)
      (right : Blank after) :
      TypeText name (colon :: before ++ ascii t.name ++ after) { name, types := [t] }
  | pattern {p : Pattern} {source before after : Bytes} (nested : Nested source)
      (compiled : Pattern.compile? source = some p) (left : Blank before) (right : Blank after) :
      TypeText name (colon :: before ++ leftBrace :: source ++ rightBrace :: after)
        { name, types := [.regex], pattern := some p }

inductive ParamText : Bytes → Descriptor → Prop
  | param {name before after type : Bytes} {d : Descriptor} (left : Blank before)
      (named : name ≠ []) (letters : ∀ b ∈ name, isName b = true) (right : Blank after)
      (typed : TypeText name type d) :
      ParamText (leftAngle :: before ++ name ++ after ++ type ++ [rightAngle]) d

theorem ofName?_name {t : ParamType} (nameable : t ≠ .regex) :
    ParamType.ofName? (ascii t.name) = some t := by
  cases t with
  | string => decide
  | number => decide
  | boolean => decide
  | regex => exact absurd rfl nameable

theorem ofName?_eq_some {name : Bytes} {t : ParamType} (h : ParamType.ofName? name = some t) :
    t ≠ .regex ∧ name = ascii t.name := by
  rw [ParamType.ofName?] at h
  have listed := List.mem_of_find?_eq_some h
  have same := List.find?_some h
  refine ⟨?_, (of_decide_eq_true same).symm⟩
  rintro rfl
  simp at listed

theorem isName_of_mem_name {t : ParamType} : ∀ b ∈ ascii t.name, isName b = true :=
  List.all_eq_true.mp (by cases t <;> decide)

theorem eq_of_isBlank {b : UInt8} (blank : isBlank b = true) : b = space ∨ b = tab := by
  simpa [isBlank] using blank

theorem not_isName_of_isBlank {b : UInt8} (blank : isBlank b = true) : isName b = false := by
  obtain rfl | rfl := eq_of_isBlank blank <;> decide

theorem not_isBlank_of_isName {b : UInt8} (letter : isName b = true) : isBlank b = false := by
  cases blank : isBlank b with
  | false => rfl
  | true => rw [not_isName_of_isBlank blank] at letter; cases letter

theorem stop_of_blank {after rest : Bytes} (blank : Blank after)
    (stop : ∀ b ∈ rest.head?, isName b = false) :
    ∀ b ∈ (after ++ rest).head?, isName b = false := by
  cases after with
  | nil => exact stop
  | cons c after =>
    rintro b ⟨⟩
    exact not_isName_of_isBlank (blank c List.mem_cons_self)

theorem skipBlank_name {name : Bytes} (named : name ≠ [])
    (letters : ∀ b ∈ name, isName b = true) (rest : Bytes) :
    skipBlank (name ++ rest) = name ++ rest := by
  obtain ⟨b, name, rfl⟩ := List.exists_cons_of_ne_nil named
  exact skipBlank_cons (not_isBlank_of_isName (letters b List.mem_cons_self)) _

theorem skipBlank_rightAngle (rest : Bytes) : skipBlank (rightAngle :: rest) = rightAngle :: rest :=
  skipBlank_cons (by decide) rest

theorem stop_rightAngle {after : Bytes} (right : Blank after) (rest : Bytes) :
    ∀ b ∈ (after ++ rightAngle :: rest).head?, isName b = false :=
  stop_of_blank right fun b hb => by cases hb; decide

theorem namedType_append {t : ParamType} (nameable : t ≠ .regex) {after : Bytes}
    (right : Blank after) (start : Bytes) (d : Descriptor) (rest : Bytes) :
    namedType start d (ascii t.name ++ (after ++ rightAngle :: rest)) =
      .ok (d.addType t, rightAngle :: rest) := by
  obtain ⟨taken, left⟩ := run_append (isName_of_mem_name (t := t)) (stop_rightAngle right rest)
  rw [namedType, taken, left, skipBlank_append right, skipBlank_rightAngle,
    if_neg (List.cons_ne_nil _ _), ofName?_name nameable]
  rfl

theorem name_ne_nil (t : ParamType) : ascii t.name ≠ [] := by
  cases t <;> decide

theorem declaration_name {t : ParamType} (start : Bytes) (d : Descriptor) (rest : Bytes) :
    declaration start d (ascii t.name ++ rest) = namedType start d (ascii t.name ++ rest) := by
  have letters := isName_of_mem_name (t := t)
  obtain ⟨b, text, same⟩ := List.exists_cons_of_ne_nil (name_ne_nil t)
  rw [same] at letters ⊢
  have letter := letters b List.mem_cons_self
  have plain : (b :: text ++ rest).head? ≠ some leftBrace := by
    rintro ⟨⟩
    exact absurd letter (by decide)
  rw [declaration, if_neg (by simp), if_neg plain]

theorem typed_colon (start : Bytes) (d d' : Descriptor) (s rest left : Bytes)
    (declared : declaration start d (skipBlank s) = .ok (d', left))
    (closing : skipBlank left = rightAngle :: rest) :
    typed start d (colon :: s) = .ok (d', rightAngle :: rest) := by
  have head : after? colon (colon :: s) = some s := after?_eq_some_iff.mpr rfl
  rw [typed, head]
  refine Scan.bind_eq_ok.mpr ⟨_, declared, ?_⟩
  simp only [closing]
  rfl

theorem TypeText.typed_append {name type : Bytes} {d : Descriptor} (h : TypeText name type d)
    (start rest : Bytes) :
    typed start { name } (type ++ rightAngle :: rest) = .ok (d, rightAngle :: rest) := by
  cases h with
  | omitted => rfl
  | @named t before after nameable left right =>
    have letters := isName_of_mem_name (t := t)
    rw [List.append_assoc, List.append_assoc, List.cons_append]
    refine typed_colon start _ _ _ rest _ ?_ (skipBlank_rightAngle rest)
    rw [skipBlank_append left, skipBlank_name (name_ne_nil t) letters, declaration_name,
      namedType_append nameable right]
    rfl
  | @pattern p source before after nested compiled left right =>
    have text : (colon :: before ++ leftBrace :: source ++ rightBrace :: after) ++
        rightAngle :: rest = colon :: (before ++
          leftBrace :: (source ++ rightBrace :: (after ++ rightAngle :: rest))) := by simp
    have scanned : braced (leftBrace :: (source ++ rightBrace :: (after ++ rightAngle :: rest))) =
        .ok (p, after ++ rightAngle :: rest) :=
      braced_eq_ok_iff.mpr ⟨source, rfl, nested, compiled⟩
    have closing : skipBlank (after ++ rightAngle :: rest) = rightAngle :: rest := by
      rw [skipBlank_append right, skipBlank_rightAngle]
    rw [text]
    refine typed_colon start _ _ _ rest _ ?_ closing
    rw [skipBlank_append left, skipBlank_cons (by decide), declaration,
      if_neg (List.cons_ne_nil _ _), if_pos List.head?_cons, scanned]
    rfl

theorem ParamText.pathParam_append {text : Bytes} {d : Descriptor} (h : ParamText text d)
    (rest : Bytes) : pathParam (text ++ rest) = .ok (d, rest) := by
  obtain ⟨left, named, letters, right, typed⟩ := h
  rename_i name before after type
  have text : (leftAngle :: before ++ name ++ after ++ type ++ [rightAngle]) ++ rest =
      leftAngle :: (before ++ (name ++ (after ++ (type ++ rightAngle :: rest)))) := by simp
  have stop : ∀ b ∈ (after ++ (type ++ rightAngle :: rest)).head?, isName b = false := by
    apply stop_of_blank right
    cases typed with
    | omitted => rintro b ⟨⟩; decide
    | named => rintro b ⟨⟩; decide
    | pattern => rintro b ⟨⟩; decide
  have blankless : skipBlank (type ++ rightAngle :: rest) = type ++ rightAngle :: rest := by
    cases typed with
    | omitted => exact skipBlank_rightAngle rest
    | named => exact skipBlank_cons (by decide) _
    | pattern => exact skipBlank_cons (by decide) _
  obtain ⟨taken, dropped⟩ := run_append letters stop
  rw [text, pathParam, List.tail_cons, skipBlank_append left, skipBlank_name named letters, taken,
    dropped, skipBlank_append right, blankless, if_neg (by simp), if_neg named,
    typed.typed_append]
  rfl

theorem text_of_declaration {start s left : Bytes} {d d' : Descriptor}
    (h : declaration start d s = .ok (d', left)) :
    (∃ (t : ParamType) (after : Bytes), t ≠ .regex ∧ Blank after ∧
        s = ascii t.name ++ (after ++ left) ∧ d' = d.addType t) ∨
      ∃ p source, s = leftBrace :: (source ++ rightBrace :: left) ∧ Nested source ∧
        Pattern.compile? source = some p ∧ d' = { d with pattern := some p }.addType .regex := by
  rw [declaration] at h
  split at h
  · cases h
  · split at h
    · rename_i brace
      obtain ⟨⟨p, left'⟩, scanned, same⟩ := Scan.bind_eq_ok.mp h
      cases same
      obtain ⟨source, tail, nested, compiled⟩ := braced_eq_ok_iff.mp scanned
      obtain ⟨s, rfl⟩ := List.head?_eq_some_iff.mp brace
      obtain rfl : s = source ++ rightBrace :: left := tail
      exact .inr ⟨p, source, rfl, nested, compiled, rfl⟩
    · rw [namedType] at h
      split at h
      · cases h
      · split at h
        · rename_i t found
          cases h
          obtain ⟨nameable, name⟩ := ofName?_eq_some found
          obtain ⟨after, blank, split⟩ := blank_skipped (s.dropWhile isName)
          left
          refine ⟨t, after, nameable, blank, ?_, rfl⟩
          rw [← name, ← split, List.takeWhile_append_dropWhile]
        · cases h

theorem text_of_typed {start name s rest : Bytes} {d : Descriptor}
    (h : typed start { name } s = .ok (d, rest)) :
    ∃ type, s = type ++ rest ∧ TypeText name type d := by
  rw [typed] at h
  split at h
  · cases h
    exact ⟨[], rfl, .omitted⟩
  · rename_i s' found
    obtain rfl := after?_eq_some_iff.mp found
    obtain ⟨⟨d', left⟩, declared, h⟩ := Scan.bind_eq_ok.mp h
    simp only at h
    split at h
    · cases h
    · cases h
      obtain ⟨before, hbefore, split⟩ := blank_skipped s'
      obtain ⟨between, hbetween, split'⟩ := blank_skipped left
      rcases text_of_declaration declared with
        ⟨t, after, nameable, hafter, text, rfl⟩ | ⟨p, source, text, nested, compiled, rfl⟩
      · have blank : Blank (after ++ between) := fun b hb =>
          (List.mem_append.mp hb).elim (hafter b) (hbetween b)
        refine ⟨_, ?_, .named nameable hbefore blank⟩
        calc
          colon :: s' = colon :: (before ++ skipBlank s') := by rw [← split]
          _ = colon :: (before ++ (ascii t.name ++ (after ++ (between ++ skipBlank left)))) := by
            rw [text, ← split']
          _ = _ := by simp
      · refine ⟨_, ?_, .pattern nested compiled hbefore hbetween⟩
        calc
          colon :: s' = colon :: (before ++ skipBlank s') := by rw [← split]
          _ = colon :: (before ++
              leftBrace :: (source ++ rightBrace :: (between ++ skipBlank left))) := by
            rw [text, ← split']
          _ = _ := by simp

theorem text_of_pathParam {s rest : Bytes} {d : Descriptor}
    (h : pathParam (leftAngle :: s) = .ok (d, rest)) :
    ∃ text, leftAngle :: s = text ++ rest ∧ ParamText text d := by
  rw [pathParam] at h
  split at h
  · cases h
  · split at h
    · cases h
    · rename_i named
      obtain ⟨⟨d', left⟩, typed, h⟩ := Scan.bind_eq_ok.mp h
      simp only at h
      split at h
      · rename_i closed
        obtain rfl := after?_eq_some_iff.mp closed
        cases h
        obtain ⟨type, split, typed⟩ := text_of_typed typed
        rw [List.tail_cons] at split
        obtain ⟨before, hbefore, start⟩ := blank_skipped s
        obtain ⟨after, hafter, middle⟩ := blank_skipped ((skipBlank s).dropWhile isName)
        have letters : ∀ b ∈ (skipBlank s).takeWhile isName, isName b = true := fun b hb =>
          List.all_eq_true.mp List.all_takeWhile b hb
        refine ⟨_, ?_, .param hbefore named letters hafter typed⟩
        calc
          leftAngle :: s = leftAngle :: (before ++ skipBlank s) := by rw [← start]
          _ = leftAngle :: (before ++ ((skipBlank s).takeWhile isName ++
              (skipBlank s).dropWhile isName)) := by rw [List.takeWhile_append_dropWhile]
          _ = leftAngle :: (before ++ ((skipBlank s).takeWhile isName ++
              (after ++ (type ++ rightAngle :: rest)))) := by rw [← split, ← middle]
          _ = _ := by simp
      · cases h

theorem pathParam_eq_ok_iff {s rest : Bytes} {d : Descriptor} :
    pathParam (leftAngle :: s) = .ok (d, rest) ↔
      ∃ text, leftAngle :: s = text ++ rest ∧ ParamText text d := by
  refine ⟨text_of_pathParam, ?_⟩
  rintro ⟨text, split, param⟩
  rw [split, param.pathParam_append]

end HttpRouting.Template
