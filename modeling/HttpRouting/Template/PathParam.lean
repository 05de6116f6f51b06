import HttpRouting.Template.Braced

namespace HttpRouting.Template

open Byte Bytes

def namedType (start : Bytes) (d : Descriptor) (s : Bytes) : Scan (Descriptor × Bytes) :=
  let name := s.takeWhile isName
  let rest := skipBlank (s.dropWhile isName)
  if rest = [] then throw (.between .unclosedAngle start [])
  else
    match ParamType.ofName? name with
    | some t => return (d.addType t, rest)
    | none => throw (.quoting .unknownType s (if name = [] then rest.take 1 else name))

def declaration (start : Bytes) (d : Descriptor) (s : Bytes) : Scan (Descriptor × Bytes) :=
  if s = [] then throw (.between .unclosedAngle start [])
  else if s.head? = some leftBrace then do
    let (p, rest) ← braced s
    return ({ d with pattern := some p }.addType .regex, rest)
  else namedType start d s

def typed (start : Bytes) (d : Descriptor) (s : Bytes) : Scan (Descriptor × Bytes) :=
  match after? colon s with
  | none => return (d.addType .string, s)
  | some s => do
    let (d, rest) ← declaration start d (skipBlank s)
    if skipBlank rest = [] then throw (.between .unclosedAngle start [])
    else return (d, skipBlank rest)

def pathParam (start : Bytes) : Scan (Descriptor × Bytes) :=
  let s := skipBlank start.tail
  let name := s.takeWhile isName
  let s := skipBlank (s.dropWhile isName)
  if s = [] then throw (.between .unclosedAngle start [])
  else if name = [] then throw (.between .namelessPathParam start s)
  else do
    let (d, s) ← typed start { name } s
    match after? rightAngle s with
    | some rest => return (d, rest)
    | none => throw (.between .strayByteInParam s s)

theorem length_of_namedType {start s rest : Bytes} {d d' : Descriptor}
    (h : namedType start d s = .ok (d', rest)) : rest.length ≤ s.length := by
  have drop := length_dropWhile_le isName s
  have skip := length_skipBlank_le (s.dropWhile isName)
  simp only [namedType] at h
  split at h
  · cases h
  · split at h
    · cases h
      omega
    · cases h

theorem length_of_declaration {start s rest : Bytes} {d d' : Descriptor}
    (h : declaration start d s = .ok (d', rest)) : rest.length ≤ s.length := by
  simp only [declaration] at h
  split at h
  · cases h
  · split at h
    · obtain ⟨⟨p, tail⟩, scanned, eq⟩ := Scan.bind_eq_ok.mp h
      cases eq
      exact Nat.le_of_lt (length_of_braced scanned)
    · exact length_of_namedType h

theorem length_of_typed {start s rest : Bytes} {d d' : Descriptor}
    (h : typed start d s = .ok (d', rest)) : rest.length ≤ s.length := by
  simp only [typed] at h
  split at h
  · cases h
    exact Nat.le_refl _
  · rename_i tail colon
    obtain ⟨⟨e, left⟩, scanned, h⟩ := Scan.bind_eq_ok.mp h
    have shorter := length_of_after? colon
    have skip := length_skipBlank_le tail
    have declared := length_of_declaration scanned
    have skip' := length_skipBlank_le left
    simp only at h
    split at h
    · cases h
    · cases h
      omega

theorem length_of_pathParam {s rest : Bytes} {d : Descriptor}
    (h : pathParam s = .ok (d, rest)) : rest.length < s.length := by
  have skip := length_skipBlank_le s.tail
  have drop := length_dropWhile_le isName (skipBlank s.tail)
  have skip' := length_skipBlank_le ((skipBlank s.tail).dropWhile isName)
  simp only [pathParam] at h
  split at h
  · cases h
  · split at h
    · cases h
    · obtain ⟨⟨e, left⟩, scanned, h⟩ := Scan.bind_eq_ok.mp h
      have shorter := length_of_typed scanned
      simp only at h
      split at h
      · rename_i closed
        have closing := length_of_after? closed
        cases h
        simp only [List.length_tail] at skip
        omega
      · cases h

end HttpRouting.Template
