import Mathlib.Data.List.DropRight
import HttpRouting.Proofs.QueryTemplates

namespace HttpRouting

open Byte Bytes

namespace Bytes

theorem mem_of_mem_trim {b : UInt8} {s : Bytes} (h : b ∈ trim s) : b ∈ s :=
  (List.dropWhile_suffix isSpace).subset ((List.rdropWhile_prefix isSpace _).subset h)

theorem dropWhile_trim (s : Bytes) : (trim s).dropWhile isSpace = trim s := by
  have front : trim s <+: s.dropWhile isSpace := List.rdropWhile_prefix isSpace _
  have first := List.head?_dropWhile_not isSpace s
  cases same : trim s with
  | nil => rfl
  | cons b rest =>
    obtain ⟨after, split⟩ := same ▸ front
    rw [← split] at first
    exact List.dropWhile_cons_of_neg (Bool.eq_false_iff.mp first)

theorem trim_trim (s : Bytes) : trim (trim s) = trim s := by
  have again : trim (trim s) = (trim s).rdropWhile isSpace :=
    congrArg (List.rdropWhile isSpace) (dropWhile_trim s)
  rw [again]
  exact List.rdropWhile_idempotent isSpace _

end Bytes

namespace Template

inductive TypePart.Step (s : Bytes) (d : Descriptor) :
    UInt8 → TypePart → Descriptor → TypePart → Prop
  | space {start text : Bytes} : Step s d space (.name start text) d (.name start text)
  | optional {start text : Bytes} {e : Descriptor} (added : addNamed d start text = .ok e) :
      Step s d question (.name start text) { e with isOptional := true } (.name s [])
  | brackets {start text : Bytes} {e : Descriptor} (added : addNamed d start text = .ok e) :
      Step s d leftBracket (.name start text) e (.array (leftBracket :: s))
  | list {start text : Bytes} {e : Descriptor} (added : addNamed d start text = .ok e) :
      Step s d leftParen (.name start text) e (.list (leftParen :: s) [])
  | letter {b : UInt8} {start text : Bytes}
      (plain : b ≠ ampersand ∧ b ≠ Byte.space ∧ b ≠ question ∧ b ≠ leftBracket ∧ b ≠ leftParen) :
      Step s d b (.name start text) d
        (.name (if text = [] then b :: s else start) (text ++ [b]))
  | array {start : Bytes} :
      Step s d rightBracket (.array start) { d with isArray := true } (.name s [])
  | close {start entry : Bytes} {e : Descriptor} (added : addEntry d start entry s = .ok e) :
      Step s d rightParen (.list start entry) e (.name s [])
  | next {start entry : Bytes} {e : Descriptor} (added : addEntry d start entry s = .ok e) :
      Step s d bar (.list start entry) e (.list start [])
  | byte {b : UInt8} {start entry : Bytes}
      (plain : b ≠ ampersand ∧ b ≠ rightParen ∧ b ≠ bar) :
      Step s d b (.list start entry) d (.list start (entry ++ [b]))

variable {d d' : Descriptor} {part : TypePart} {s rest : Bytes}

theorem typePart_cons_cases {b : UInt8} (h : typePart d part (b :: s) = .ok (d', rest)) :
    (b = ampersand ∧ rest = b :: s ∧
        ∃ start text, part = .name start text ∧ addNamed d start text = .ok d') ∨
      ∃ e part', part.Step s d b e part' ∧ typePart e part' s = .ok (d', rest) := by
  cases part with
  | name start text =>
    rw [typePart] at h
    split at h
    · rename_i ends
      obtain ⟨e, added, same⟩ := Scan.bind_eq_ok.mp h
      cases same
      exact .inl ⟨ends, rfl, start, text, rfl, added⟩
    · rename_i goes
      right
      split at h
      · rename_i blank
        subst blank
        exact ⟨_, _, .space, h⟩
      · rename_i solid
        split at h
        · rename_i mark
          subst mark
          obtain ⟨e, added, h⟩ := Scan.bind_eq_ok.mp h
          exact ⟨_, _, .optional added, h⟩
        · rename_i required
          split at h
          · rename_i opens
            subst opens
            obtain ⟨e, added, h⟩ := Scan.bind_eq_ok.mp h
            exact ⟨_, _, .brackets added, h⟩
          · rename_i single
            split at h
            · rename_i opens
              subst opens
              obtain ⟨e, added, h⟩ := Scan.bind_eq_ok.mp h
              exact ⟨_, _, .list added, h⟩
            · rename_i unlisted
              exact ⟨_, _, .letter ⟨goes, solid, required, single, unlisted⟩, h⟩
  | array start =>
    rw [typePart] at h
    split at h
    · rename_i closes
      subst closes
      exact .inr ⟨_, _, .array, h⟩
    · cases h
  | list start entry =>
    rw [typePart] at h
    split at h
    · cases h
    · rename_i goes
      right
      split at h
      · rename_i closes
        subst closes
        obtain ⟨e, added, h⟩ := Scan.bind_eq_ok.mp h
        exact ⟨_, _, .close added, h⟩
      · rename_i inside
        split at h
        · rename_i separates
          subst separates
          obtain ⟨e, added, h⟩ := Scan.bind_eq_ok.mp h
          exact ⟨_, _, .next added, h⟩
        · rename_i same
          exact ⟨_, _, .byte ⟨goes, inside, same⟩, h⟩

theorem typePart_keeps {motive : Descriptor → TypePart → Prop}
    (step : ∀ {s d b part e part'}, TypePart.Step s d b part e part' → motive d part →
      motive e part')
    (h : typePart d part s = .ok (d', rest)) (begun : motive d part) :
    ∃ e start text, motive e (.name start text) ∧ addNamed e start text = .ok d' := by
  induction s generalizing d part with
  | nil =>
    cases part with
    | name start text =>
      obtain ⟨e, added, same⟩ := Scan.bind_eq_ok.mp h
      cases same
      exact ⟨d, start, text, begun, added⟩
    | array start => cases h
    | list start entry => cases h
  | cons b s ih =>
    rcases typePart_cons_cases h with ⟨-, -, start, text, rfl, added⟩ | ⟨e, part', one, h⟩
    · exact ⟨d, start, text, begun, added⟩
    · exact ih h (step one begun)

structure Gathered (name : Bytes) (pattern : Option Pattern) (d : Descriptor) : Prop where
  named : d.name = name
  patterned : d.pattern = pattern
  distinct : d.types.Nodup
  nameable : .regex ∉ d.types
  choices : ∀ c ∈ d.choices, ListEntry c ∧ ParamType.ofName? c = none

variable {name : Bytes} {pattern : Option Pattern}

theorem Gathered.start (name : Bytes) (pattern : Option Pattern) :
    Gathered name pattern { name, pattern } :=
  ⟨rfl, rfl, List.Pairwise.nil, List.not_mem_nil, nofun⟩

theorem Gathered.addType {t : ParamType} (h : Gathered name pattern d) (nameable : t ≠ .regex) :
    Gathered name pattern (d.addType t) := by
  rw [Descriptor.addType]
  split
  · exact h
  · rename_i fresh
    rw [Descriptor.hasType, List.contains_iff_mem] at fresh
    refine ⟨h.named, h.patterned, ?_, ?_, h.choices⟩
    · refine List.nodup_append.mpr ⟨h.distinct, List.pairwise_singleton _ t, ?_⟩
      intro t' ht' t'' ht''
      rw [List.mem_singleton.mp ht'']
      rintro rfl
      exact fresh ht'
    · intro regex
      rcases List.mem_append.mp regex with before | last
      · exact h.nameable before
      · exact nameable (List.mem_singleton.mp last).symm

theorem Gathered.addNamed {start text : Bytes} (h : Gathered name pattern d)
    (added : addNamed d start text = .ok d') : Gathered name pattern d' := by
  rw [Template.addNamed] at added
  split at added
  · cases added
    exact h
  · split at added
    · rename_i t found
      cases added
      exact h.addType (ofName?_eq_some found).1
    · cases added

theorem Gathered.addEntry {start entry : Bytes} (h : Gathered name pattern d)
    (plain : ∀ b ∈ entry, b ≠ ampersand ∧ b ≠ rightParen ∧ b ≠ bar)
    (added : addEntry d start entry rest = .ok d') : Gathered name pattern d' := by
  rw [Template.addEntry] at added
  split at added
  · cases added
  · rename_i full
    split at added
    · rename_i t found
      cases added
      exact h.addType (ofName?_eq_some found).1
    · rename_i unnamed
      cases added
      have listed : ListEntry (trim entry) :=
        ⟨full, trim_trim entry, fun b hb => plain b (mem_of_mem_trim hb)⟩
      refine ⟨h.named, h.patterned, h.distinct, h.nameable,
        List.forall_mem_append.mpr ⟨h.choices, ?_⟩⟩
      exact List.forall_mem_singleton.mpr ⟨listed, unnamed⟩

def TypePart.Plain : TypePart → Prop
  | .list _ entry => ∀ b ∈ entry, b ≠ ampersand ∧ b ≠ rightParen ∧ b ≠ bar
  | _ => True

theorem TypePart.Step.gathered {b : UInt8} {e : Descriptor} {part' : TypePart}
    (h : part.Step s d b e part') (gathered : Gathered name pattern d ∧ part.Plain) :
    Gathered name pattern e ∧ part'.Plain := by
  obtain ⟨gathered, entry⟩ := gathered
  cases h with
  | space => exact ⟨gathered, trivial⟩
  | optional added =>
    obtain ⟨named, patterned, distinct, nameable, choices⟩ := gathered.addNamed added
    exact ⟨⟨named, patterned, distinct, nameable, choices⟩, trivial⟩
  | brackets added => exact ⟨gathered.addNamed added, trivial⟩
  | list added => exact ⟨gathered.addNamed added, nofun⟩
  | letter plain => exact ⟨gathered, trivial⟩
  | array =>
    obtain ⟨named, patterned, distinct, nameable, choices⟩ := gathered
    exact ⟨⟨named, patterned, distinct, nameable, choices⟩, trivial⟩
  | close added => exact ⟨gathered.addEntry entry added, trivial⟩
  | next added => exact ⟨gathered.addEntry entry added, nofun⟩
  | byte plain =>
    exact ⟨gathered, List.forall_mem_append.mpr ⟨entry, List.forall_mem_singleton.mpr plain⟩⟩

theorem Gathered.typePart {start : Bytes} (h : Gathered name pattern d)
    (read : typePart d (.name start []) s = .ok (d', rest)) : Gathered name pattern d' := by
  obtain ⟨e, start, text, ⟨gathered, -⟩, added⟩ := typePart_keeps
    (motive := fun d part => Gathered name pattern d ∧ part.Plain) (fun one => one.gathered) read
    ⟨h, trivial⟩
  exact gathered.addNamed added

end Template

end HttpRouting
