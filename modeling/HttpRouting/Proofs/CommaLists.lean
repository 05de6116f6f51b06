import Mathlib.Data.List.TakeWhile
import HttpRouting.Proofs.QueryReadings

namespace HttpRouting

open Byte Bytes

def Padding (s : Bytes) : Prop := ∀ b ∈ s, isSpace b = true

structure Element (v : Bytes) : Prop where
  full : v ≠ []
  commaless : comma ∉ v
  front : ∀ b ∈ v.head?, isSpace b = false
  back : ∀ b ∈ v.getLast?, isSpace b = false

inductive Carries : List Bytes → List Bytes → Prop
  | nil : Carries [] []
  | blank {p : Bytes} {pieces vs : List Bytes} (padding : Padding p) (rest : Carries pieces vs) :
      Carries (p :: pieces) vs
  | element {before v after : Bytes} {pieces vs : List Bytes} (left : Padding before)
      (right : Padding after) (rest : Carries pieces vs) :
      Carries ((before ++ v ++ after) :: pieces) (v :: vs)

inductive Grouped : List Bytes → List Bytes → Prop
  | nil : Grouped [] []
  | group {group vs pieces raws : List Bytes} (some : pieces ≠ []) (carries : Carries pieces group)
      (rest : Grouped vs raws) : Grouped (group ++ vs) (join "," pieces :: raws)

theorem commaless_of_padding {s : Bytes} (padding : Padding s) : comma ∉ s := fun inside =>
  absurd (padding comma inside) (by decide)

theorem trim_of_padding {s : Bytes} (padding : Padding s) : trim s = [] := by
  rw [trim, List.dropWhile_eq_nil_iff.mpr padding]
  rfl

theorem Element.trim_padded {before v after : Bytes} (h : Element v) (left : Padding before)
    (right : Padding after) : trim (before ++ v ++ after) = v := by
  have front : ∀ b ∈ (v ++ after).head?, isSpace b = false := by
    rw [List.head?_append_of_ne_nil v h.full]
    exact h.front
  have back : ∀ b ∈ v.reverse.head?, isSpace b = false := by
    rw [List.head?_reverse]
    exact h.back
  have right' : ∀ b ∈ after.reverse, isSpace b = true := fun b hb =>
    right b (List.mem_reverse.mp hb)
  rw [trim, List.append_assoc, (run_append left front).2, List.reverse_append,
    (run_append right' back).2, List.reverse_reverse]

section

variable {pieces vs raws : List Bytes}

theorem Carries.commaless (h : Carries pieces vs) (elements : ∀ v ∈ vs, Element v) :
    ∀ p ∈ pieces, comma ∉ p := by
  induction h with
  | nil => exact nofun
  | blank padding _ ih => exact List.forall_mem_cons.mpr ⟨commaless_of_padding padding, ih elements⟩
  | element left right _ ih =>
    obtain ⟨first, others⟩ := List.forall_mem_cons.mp elements
    refine List.forall_mem_cons.mpr ⟨?_, ih others⟩
    rw [List.mem_append, List.mem_append, not_or, not_or]
    exact ⟨⟨commaless_of_padding left, first.commaless⟩, commaless_of_padding right⟩

theorem Carries.elements_eq (h : Carries pieces vs) (elements : ∀ v ∈ vs, Element v) :
    (pieces.map trim).filter (· ≠ []) = vs := by
  induction h with
  | nil => rfl
  | blank padding _ ih =>
    rw [List.map_cons, trim_of_padding padding, List.filter_cons_of_neg (by simp), ih elements]
  | element left right _ ih =>
    obtain ⟨first, others⟩ := List.forall_mem_cons.mp elements
    rw [List.map_cons, first.trim_padded left right,
      List.filter_cons_of_pos (by simp [first.full]), ih others]

theorem Grouped.splitAtCommas_eq (h : Grouped vs raws) (elements : ∀ v ∈ vs, Element v) :
    splitAtCommas raws = vs := by
  induction h with
  | nil => rfl
  | @group group vs pieces raws some carries _ ih =>
    obtain ⟨own, others⟩ := List.forall_mem_append.mp elements
    have cut : (join "," pieces).splitOn comma = pieces :=
      pieces_iff.mp ⟨some, carries.commaless own, rfl⟩
    have rest := ih others
    rw [splitAtCommas] at rest ⊢
    rw [List.flatMap_cons, List.filter_append, cut, carries.elements_eq own, rest]

end

theorem coerceQuery_joined {declared : Params} {name : Bytes} {d : Descriptor}
    (found : declared.find? name = some d) (array : d.isArray = true) {vs raws : List Bytes}
    (elements : ∀ v ∈ vs, Element v) (grouped : Grouped vs raws) {joined repeated : RawQuery}
    (given : joined.given name = raws) (given' : repeated.given name = vs) :
    (coerceQuery declared joined true).values.find? name =
        (coerceQuery declared repeated false).values.find? name ∧
      (name ∈ (coerceQuery declared joined true).missing ↔
        name ∈ (coerceQuery declared repeated false).missing) := by
  have same : d.coerceAll true (joined.given name) = d.coerceAll false (repeated.given name) := by
    rw [Descriptor.coerceAll, Descriptor.coerceAll, if_pos array, if_pos array, given, given',
      if_pos rfl, if_neg Bool.false_ne_true, grouped.splitAtCommas_eq elements]
  have values : (coerceQuery declared joined true).values.find? name =
      (coerceQuery declared repeated false).values.find? name := by
    apply Option.ext
    intro vs
    rw [find?_values_coerceQuery, find?_values_coerceQuery]
    simp only [found, Option.some.injEq, exists_eq_left', same]
  refine ⟨values, ?_⟩
  rw [mem_missing_coerceQuery, mem_missing_coerceQuery, values]

def tags : List Bytes := [ascii "7", ascii "x", ascii "-3"]

def paddedTags : List Bytes := [ascii ",\t7 ,, x", ascii " ", ascii "-3,\n"]

theorem coerceQuery_joined_padded :
    ∃ joined repeated : QueryReading,
      joined = coerceQuery searchParams (.ofList [(ascii "tags", paddedTags)]) true ∧
      repeated = coerceQuery searchParams (.ofList [(ascii "tags", tags)]) false ∧
      (∃ d, searchParams.find? (ascii "tags") = some d ∧ d.isArray = true) ∧
      (∀ v ∈ tags, Element v) ∧ Grouped tags paddedTags ∧
      joined.values.find? (ascii "tags") = some [.number 7, .number (-3)] ∧
      joined.values.find? (ascii "tags") = repeated.values.find? (ascii "tags") ∧
      (ascii "tags" ∈ joined.missing ↔ ascii "tags" ∈ repeated.missing) := by
  have elements : ∀ v ∈ tags, Element v := by
    simp only [tags, List.forall_mem_cons]
    exact ⟨⟨by decide, by decide, by decide +kernel, by decide +kernel⟩,
      ⟨by decide, by decide, by decide +kernel, by decide +kernel⟩,
      ⟨by decide, by decide, by decide +kernel, by decide +kernel⟩, nofun⟩
  have blank (s : Bytes) (padding : s.all isSpace = true) : Padding s := List.all_eq_true.mp padding
  have first : Carries ([[], ascii "\t" ++ ascii "7" ++ ascii " ", []] ++
      [ascii " " ++ ascii "x" ++ []]) [ascii "7", ascii "x"] :=
    .blank nofun (.element (blank _ rfl) (blank _ rfl) (.blank nofun
      (.element (blank _ rfl) nofun .nil)))
  have second : Carries [ascii " "] [] := .blank (blank _ rfl) .nil
  have third : Carries [[] ++ ascii "-3" ++ [], ascii "\n"] [ascii "-3"] :=
    .element nofun nofun (.blank (blank _ rfl) .nil)
  have grouped : Grouped tags paddedTags :=
    .group (by simp) first (.group (by simp) second (.group (by simp) third .nil))
  have found : searchParams.find? (ascii "tags") =
      some { name := ascii "tags", types := [.number], isArray := true } := by decide
  exact ⟨_, _, rfl, rfl, ⟨_, found, rfl⟩, elements, grouped, by decide +kernel,
    coerceQuery_joined found rfl elements grouped rfl rfl⟩

end HttpRouting
