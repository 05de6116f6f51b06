import HttpRouting.Template.Braced

namespace HttpRouting.Template

open Byte Bytes

inductive TypePart
  | name (start text : Bytes)
  | array (start : Bytes)
  | list (start entry : Bytes)

def addNamed (d : Descriptor) (start text : Bytes) : Scan Descriptor :=
  if text = [] then return d
  else
    match ParamType.ofName? text with
    | some t => return d.addType t
    | none => throw (.quoting .unknownType start text)

def addEntry (d : Descriptor) (start entry rest : Bytes) : Scan Descriptor :=
  let entry := trim entry
  if entry = [] then throw (.between .emptyListEntry start rest)
  else
    match ParamType.ofName? entry with
    | some t => return d.addType t
    | none => return { d with choices := d.choices ++ [entry] }

def typePart (d : Descriptor) : TypePart → Bytes → Scan (Descriptor × Bytes)
  | .name start text, [] => return (← addNamed d start text, [])
  | .array start, [] => throw (.between .unclosedBracket start start)
  | .list start _, [] => throw (.between .unclosedParen start [])
  | .name start text, b :: rest => do
    if b = ampersand then return (← addNamed d start text, b :: rest)
    else if b = space then typePart d (.name start text) rest
    else if b = question then
      typePart { ← addNamed d start text with isOptional := true } (.name rest []) rest
    else if b = leftBracket then
      typePart (← addNamed d start text) (.array (b :: rest)) rest
    else if b = leftParen then
      typePart (← addNamed d start text) (.list (b :: rest) []) rest
    else
      typePart d (.name (if text = [] then b :: rest else start) (text ++ [b])) rest
  | .array start, b :: rest => do
    if b = rightBracket then typePart { d with isArray := true } (.name rest []) rest
    else throw (.between .unclosedBracket start start)
  | .list start entry, b :: rest => do
    if b = ampersand then throw (.between .unclosedParen start (b :: rest))
    else if b = rightParen then
      typePart (← addEntry d start entry rest) (.name rest []) rest
    else if b = bar then typePart (← addEntry d start entry rest) (.list start []) rest
    else typePart d (.list start (entry ++ [b])) rest

theorem length_of_typePart {part : TypePart} {s rest : Bytes} {d d' : Descriptor}
    (h : typePart d part s = .ok (d', rest)) : rest.length ≤ s.length := by
  induction s generalizing part d with
  | nil =>
    cases part with
    | name start text =>
      obtain ⟨e, -, eq⟩ := Scan.bind_eq_ok.mp h
      cases eq
      exact Nat.le_refl _
    | array start => cases h
    | list start entry => cases h
  | cons b s ih =>
    have longer {part d} (h : typePart d part s = .ok (d', rest)) :
        rest.length ≤ (b :: s).length := Nat.le_succ_of_le (ih h)
    have after {x : Scan Descriptor} {k : Descriptor → Scan (Descriptor × Bytes)}
        (hk : ∀ e, k e = .ok (d', rest) → rest.length ≤ (b :: s).length)
        (h : x >>= k = .ok (d', rest)) : rest.length ≤ (b :: s).length := by
      obtain ⟨e, -, h⟩ := Scan.bind_eq_ok.mp h
      exact hk e h
    cases part with
    | name start text =>
      simp only [typePart] at h
      split at h
      · refine after (fun e h => ?_) h
        cases h
        exact Nat.le_refl _
      · split at h
        · exact longer h
        · split at h
          · exact after (fun _ => longer) h
          · split at h
            · exact after (fun _ => longer) h
            · split at h
              · exact after (fun _ => longer) h
              · exact longer h
    | array start =>
      simp only [typePart] at h
      split at h
      · exact longer h
      · cases h
    | list start entry =>
      simp only [typePart] at h
      split at h
      · cases h
      · split at h
        · exact after (fun _ => longer) h
        · split at h
          · exact after (fun _ => longer) h
          · exact longer h

end HttpRouting.Template
