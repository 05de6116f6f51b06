import HttpRouting.Template.TypePart

namespace HttpRouting.Template

open Byte Bytes

def queryPattern (d : Descriptor) (s : Bytes) : Scan (Descriptor × Bytes) :=
  if s.head? = some leftBrace then do
    let (p, rest) ← braced s
    return ({ d with pattern := some p }, skipBlank rest)
  else return (d, s)

def withDefaultType (d : Descriptor) : Descriptor :=
  if d.types = [] then d.addType (if d.pattern.isSome then .regex else .string) else d

def inQueryName (b : UInt8) : Bool := b != equals && b != ampersand

def queryParam (start : Bytes) : Scan (Descriptor × Bytes) :=
  let name := (start.takeWhile inQueryName).filter (· != space)
  let s := start.dropWhile inQueryName
  if name = [] then throw (.between .namelessQueryParam start s)
  else
    match after? equals s with
    | none => throw (.quoting .missingEquals start name)
    | some s => do
      let (d, s) ← queryPattern { name } (skipBlank s)
      let s := (after? colon s).getD s
      let (d, rest) ← typePart d (.name s []) s
      return (withDefaultType d, rest)

theorem length_of_queryPattern {s rest : Bytes} {d d' : Descriptor}
    (h : queryPattern d s = .ok (d', rest)) : rest.length ≤ s.length := by
  simp only [queryPattern] at h
  split at h
  · obtain ⟨⟨p, tail⟩, scanned, eq⟩ := Scan.bind_eq_ok.mp h
    have shorter := length_of_braced scanned
    have skip := length_skipBlank_le tail
    cases eq
    exact Nat.le_trans skip (Nat.le_of_lt shorter)
  · cases h
    exact Nat.le_refl _

theorem length_of_queryParam {s rest : Bytes} {d : Descriptor}
    (h : queryParam s = .ok (d, rest)) : rest.length < s.length := by
  have drop := length_dropWhile_le inQueryName s
  simp only [queryParam] at h
  split at h
  · cases h
  · split at h
    · cases h
    · rename_i value equals
      obtain ⟨⟨e, left⟩, scanned, h⟩ := Scan.bind_eq_ok.mp h
      obtain ⟨⟨e', left'⟩, scanned', h⟩ := Scan.bind_eq_ok.mp h
      have name := length_of_after? equals
      have skip := length_skipBlank_le value
      have pattern := length_of_queryPattern scanned
      have types := length_of_typePart scanned'
      have mark : ((after? colon left).getD left).length ≤ left.length := by
        cases found : after? colon left with
        | none => exact Nat.le_refl _
        | some tail => exact Nat.le_of_lt (length_of_after? found)
      cases h
      simp only at mark types ⊢
      omega

end HttpRouting.Template
