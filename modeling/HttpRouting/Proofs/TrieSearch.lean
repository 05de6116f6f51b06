import HttpRouting.Proofs.PathParts
import HttpRouting.Proofs.Shapes

namespace HttpRouting

namespace SegmentTrie

variable {α : Type}

theorem lookup_cons (text text' : Bytes) (child : SegmentTrie α)
    (rest : List (Bytes × SegmentTrie α)) :
    ((text', child) :: rest).lookup text =
      if text' = text then some child else rest.lookup text := by
  rw [List.lookup_cons]
  by_cases same : text' = text
  · rw [if_pos same, beq_iff_eq.mpr same.symm]
  · rw [if_neg same, beq_eq_false_iff_ne.mpr (Ne.symm same)]

theorem lookup_setChild (text text' : Bytes) (child : SegmentTrie α)
    (literals : List (Bytes × SegmentTrie α)) :
    (setChild text child literals).lookup text' =
      if text = text' then some child else literals.lookup text' := by
  induction literals with
  | nil => rw [setChild, lookup_cons]
  | cons first rest ih =>
    obtain ⟨text₀, child₀⟩ := first
    rw [setChild]
    by_cases here : text₀ = text
    · rw [if_pos here, lookup_cons, lookup_cons, here]
      by_cases same : text = text'
      · rw [if_pos same, if_pos same]
      · rw [if_neg same, if_neg same, if_neg same]
    · rw [if_neg here, lookup_cons, lookup_cons, ih]
      by_cases same : text₀ = text'
      · rw [if_pos same, if_neg fun other => here (same.trans other.symm), if_pos same]
      · rw [if_neg same, if_neg same]

theorem get?_empty (segments : List Segment) : (empty : SegmentTrie α).get? segments = none := by
  cases segments with
  | nil => rfl
  | cons segment segments => cases segment <;> rfl

theorem get?_getD (t : Option (SegmentTrie α)) (segments : List Segment) :
    (t.getD empty).get? segments = t.bind fun t => t.get? segments := by
  cases t with
  | none => exact get?_empty segments
  | some t => rfl

theorem get?_insert (value : α) (segments : List Segment) (t : SegmentTrie α)
    (segments' : List Segment) :
    (insert value segments t).get? segments' =
      if shape segments = shape segments' then some value else t.get? segments' := by
  induction segments generalizing t segments' with
  | nil =>
    obtain ⟨v, literals, param⟩ := t
    cases segments' with
    | nil => rfl
    | cons segment segments' => cases segment <;> rfl
  | cons segment segments ih =>
    obtain ⟨v, literals, param⟩ := t
    cases segment with
    | literal text =>
      cases segments' with
      | nil => exact (if_neg nofun).symm
      | cons segment' segments' =>
        cases segment' with
        | literal text' =>
          rw [insert, get?, lookup_setChild, get?]
          by_cases same : text = text'
          · rw [if_pos same, Option.bind_some, ih, get?_getD, same]
            simp only [shape_literal, List.cons.injEq, true_and]
          · have apart :
                shape (.literal text :: segments) ≠ shape (.literal text' :: segments') := by
              intro shapes
              exact same (Option.some.inj (List.cons.inj shapes).1)
            rw [if_neg same, if_neg apart]
        | param name => exact (if_neg nofun).symm
    | param name =>
      cases segments' with
      | nil => exact (if_neg nofun).symm
      | cons segment' segments' =>
        cases segment' with
        | literal text => exact (if_neg nofun).symm
        | param name' =>
          rw [insert, get?, Option.bind_some, ih, get?_getD, get?]
          simp only [shape_param, List.cons.injEq, true_and]

theorem setChild_setChild (text : Bytes) (child child' : SegmentTrie α)
    (literals : List (Bytes × SegmentTrie α)) :
    setChild text child (setChild text child' literals) = setChild text child literals := by
  induction literals with
  | nil => simp [setChild]
  | cons first rest ih =>
    by_cases here : first.1 = text
    · simp [setChild, here]
    · simp [setChild, here, ih]

theorem insert_insert (value value' : α) (segments : List Segment) (t : SegmentTrie α) :
    insert value segments (insert value' segments t) = insert value segments t := by
  induction segments generalizing t with
  | nil =>
    obtain ⟨v, literals, param⟩ := t
    rfl
  | cons segment segments ih =>
    obtain ⟨v, literals, param⟩ := t
    cases segment with
    | literal text =>
      rw [insert, insert, insert, lookup_setChild, if_pos rfl, Option.getD_some, ih,
        setChild_setChild]
    | param name => rw [insert, insert, insert, Option.getD_some, ih]

theorem findParts_cons {part : Bytes} (parts : List Bytes) (v : Option α)
    (literals : List (Bytes × SegmentTrie α)) (param : Option (SegmentTrie α))
    (full : part ≠ []) :
    findParts (part :: parts) (node v literals param) =
      ((literals.lookup part).bind (findParts parts)).or
        (param.bind fun child =>
          (findParts parts child).map fun hit => (hit.1, part :: hit.2)) := by
  rw [findParts, if_neg full]
  cases (literals.lookup part).bind (findParts parts) <;> rfl

theorem findParts_eq_none_iff {parts : List Bytes} {t : SegmentTrie α} :
    t.findParts parts = none ↔
      [] ∈ parts ∨ ∀ segments, Fits segments parts → t.get? segments = none := by
  induction parts generalizing t with
  | nil =>
    obtain ⟨v, literals, param⟩ := t
    rw [findParts, Option.map_eq_none_iff]
    constructor
    · rintro rfl
      right
      intro segments fits
      rw [eq_nil_of_fits fits, get?]
    · rintro (inside | none)
      · cases inside
      · exact none [] fits_nil
  | cons part parts ih =>
    obtain ⟨v, literals, param⟩ := t
    by_cases blank : part = []
    · simp [findParts, blank]
    · rw [findParts_cons parts v literals param blank, Option.or_eq_none_iff,
        Option.bind_eq_none_iff, Option.bind_eq_none_iff, List.mem_cons]
      simp only [Option.map_eq_none_iff, ih]
      constructor
      · rintro ⟨underl, underp⟩
        by_cases inside : [] ∈ parts
        · exact .inl (.inr inside)
        · right
          intro segments fits
          cases segments with
          | nil => cases fits.1
          | cons segment segments =>
            obtain ⟨first, rest⟩ := fits_cons.mp fits
            cases segment with
            | literal text =>
              rw [get?, ← first text rfl, Option.bind_eq_none_iff]
              intro child found
              exact (underl child found).resolve_left inside segments rest
            | param name =>
              rw [get?, Option.bind_eq_none_iff]
              intro child found
              exact (underp child found).resolve_left inside segments rest
      · rintro ((same | inside) | none)
        · exact absurd same.symm blank
        · exact ⟨fun _ _ => .inl inside, fun _ _ => .inl inside⟩
        · constructor
          · intro child found
            right
            intro segments fits
            have unstored := none (.literal part :: segments)
              (fits_cons.mpr ⟨fun text same => Segment.literal.inj same, fits⟩)
            rwa [get?, found, Option.bind_some] at unstored
          · intro child found
            right
            intro segments fits
            have unstored := none (.param [] :: segments) (fits_cons.mpr ⟨nofun, fits⟩)
            rwa [get?, found, Option.bind_some] at unstored

structure Best (t : SegmentTrie α) (parts : List Bytes) (segments : List Segment) (value : α) :
    Prop where
  fits : Fits segments parts
  stored : t.get? segments = some value
  least : ∀ segments', Fits segments' parts → (t.get? segments').isSome →
    shape segments = shape segments' ∨ Preferred (shape segments) (shape segments')

section

variable {v : Option α} {literals : List (Bytes × SegmentTrie α)} {param : Option (SegmentTrie α)}
variable {child : SegmentTrie α} {part : Bytes} {parts : List Bytes} {segments : List Segment}
variable {value : α}

theorem Best.through_literal (best : child.Best parts segments value)
    (found : literals.lookup part = some child) :
    (node v literals param).Best (part :: parts) (.literal part :: segments) value where
  fits := fits_cons.mpr ⟨fun text same => Segment.literal.inj same, best.fits⟩
  stored := by rw [get?, found, Option.bind_some, best.stored]
  least segments' fits stored := by
    cases segments' with
    | nil => cases fits.1
    | cons segment' segments' =>
      obtain ⟨first, rest⟩ := fits_cons.mp fits
      cases segment' with
      | literal text =>
        rw [get?, ← first text rfl, found, Option.bind_some] at stored
        rw [← first text rfl, shape_literal, shape_literal]
        rcases best.least segments' rest stored with same | preferred
        · exact .inl (congrArg _ same)
        · exact .inr (preferred.cons _)
      | param name => exact .inr ⟨[], part, shape segments, shape segments', rfl, rfl⟩

theorem Best.through_param (best : child.Best parts segments value) (found : param = some child)
    (full : [] ∉ parts) (none : (literals.lookup part).bind (findParts parts) = none) :
    (node v literals param).Best (part :: parts) (.param [] :: segments) value where
  fits := fits_cons.mpr ⟨nofun, best.fits⟩
  stored := by rw [get?, found, Option.bind_some, best.stored]
  least segments' fits stored := by
    cases segments' with
    | nil => cases fits.1
    | cons segment' segments' =>
      obtain ⟨first, rest⟩ := fits_cons.mp fits
      cases segment' with
      | literal text =>
        -- What is stored below the literal would have been found first.
        rw [get?, ← first text rfl, Option.isSome_iff_exists] at stored
        obtain ⟨_, stored⟩ := stored
        obtain ⟨other, present, below⟩ := Option.bind_eq_some_iff.mp stored
        have missed := Option.bind_eq_none_iff.mp none other present
        rw [findParts_eq_none_iff] at missed
        rw [missed.resolve_left full segments' rest] at below
        cases below
      | param name =>
        rw [get?, found, Option.bind_some] at stored
        rw [shape_param, shape_param]
        rcases best.least segments' rest stored with same | preferred
        · exact .inl (congrArg _ same)
        · exact .inr (preferred.cons _)

end

theorem findParts_eq_some {parts : List Bytes} {t : SegmentTrie α} {value : α}
    {captured : List Bytes} (h : t.findParts parts = some (value, captured)) :
    [] ∉ parts ∧ ∃ segments, t.Best parts segments value ∧
      captured = (bindings segments parts).map (·.2) := by
  induction parts generalizing t captured with
  | nil =>
    obtain ⟨v, literals, param⟩ := t
    rw [findParts, Option.map_eq_some_iff] at h
    obtain ⟨value, rfl, same⟩ := h
    cases same
    refine ⟨List.not_mem_nil, [], ⟨fits_nil, rfl, fun segments' fits _ => ?_⟩, rfl⟩
    rw [eq_nil_of_fits fits]
    exact .inl rfl
  | cons part parts ih =>
    obtain ⟨v, literals, param⟩ := t
    by_cases blank : part = []
    · simp [findParts, blank] at h
    · rw [findParts_cons parts v literals param blank, Option.or_eq_some_iff] at h
      rw [List.mem_cons, not_or]
      rcases h with h | ⟨none, h⟩
      · obtain ⟨child, found, below⟩ := Option.bind_eq_some_iff.mp h
        obtain ⟨full, segments, best, rfl⟩ := ih below
        exact ⟨⟨Ne.symm blank, full⟩, .literal part :: segments, best.through_literal found, rfl⟩
      · obtain ⟨child, found, hit⟩ := Option.bind_eq_some_iff.mp h
        obtain ⟨⟨value, captured⟩, below, same⟩ := Option.map_eq_some_iff.mp hit
        cases same
        obtain ⟨full, segments, best, rfl⟩ := ih below
        exact ⟨⟨Ne.symm blank, full⟩, .param [] :: segments,
          best.through_param found full none, rfl⟩

def ofList (stored : List (List Segment × α)) : SegmentTrie α :=
  stored.foldl (fun t e => (t.store e.1 e.2).2) empty

theorem get?_ofList (stored : List (List Segment × α)) (segments : List Segment) :
    (ofList stored).get? segments =
      latest (shape segments) (stored.map fun e => (shape e.1, e.2)) := by
  have after (t : SegmentTrie α) : (stored.foldl (fun t e => (t.store e.1 e.2).2) t).get? segments =
      (latest (shape segments) (stored.map fun e => (shape e.1, e.2))).or (t.get? segments) := by
    induction stored generalizing t with
    | nil => rfl
    | cons e stored ih =>
      rw [List.foldl_cons, ih, store, get?_insert, List.map_cons, latest_cons, Option.or_assoc]
      congr 1
      split <;> rfl
  rw [ofList, after, get?_empty, Option.or_none]

theorem get?_ofList_eq_none_iff {stored : List (List Segment × α)} {segments : List Segment} :
    (ofList stored).get? segments = none ↔ ∀ e ∈ stored, shape e.1 ≠ shape segments := by
  rw [get?_ofList, latest_eq_none_iff, List.forall_mem_map]

theorem find?_stored (stored : List (List Segment × α)) (path : Bytes) :
    ((ofList stored).find? path = none ↔
      [] ∈ splitPath path ∨ ∀ e ∈ stored, ¬ Fits e.1 (splitPath path)) ∧
    (∀ value captured, (ofList stored).find? path = some (value, captured) →
      ∃ before segments after, stored = before ++ (segments, value) :: after ∧
        Fits segments (splitPath path) ∧
        (∀ e ∈ stored, Fits e.1 (splitPath path) →
          shape segments = shape e.1 ∨ Preferred (shape segments) (shape e.1)) ∧
        (∀ e ∈ after, shape e.1 ≠ shape segments) ∧
        captured = (bindings segments (splitPath path)).map (·.2)) ∧
    (∀ before segments value after, stored = before ++ (segments, value) :: after →
      (((ofList before).store segments value).1 = true ↔
        ∀ e ∈ before, shape e.1 ≠ shape segments)) ∧
    ∀ parts, CutInto path parts → parts = splitPath path := by
  refine ⟨?_, ?_, ?_, fun parts cut => (cutInto_iff.mp cut).2⟩
  · rw [find?, findParts_eq_none_iff]
    apply or_congr Iff.rfl
    constructor
    · intro unstored e he fits
      exact get?_ofList_eq_none_iff.mp (unstored e.1 fits) e he rfl
    · intro unfit segments fits
      rw [get?_ofList_eq_none_iff]
      intro e he same
      exact unfit e he (fits_congr same.symm fits)
  · intro value captured found
    obtain ⟨-, segments, best, rfl⟩ := findParts_eq_some found
    have last := best.stored
    rw [get?_ofList] at last
    obtain ⟨before, e, after, rfl, same, rfl, later⟩ := latest_map_eq_some_iff.mp last
    refine ⟨before, e.1, after, rfl, fits_congr same.symm best.fits, fun e' he fits => ?_, ?_, ?_⟩
    · rw [same]
      apply best.least e'.1 fits
      rw [Option.isSome_iff_ne_none, Ne, get?_ofList_eq_none_iff]
      exact fun unstored => unstored e' he rfl
    · rwa [same]
    · exact captured_congr same.symm _
  · intro before segments value after _
    rw [store, Option.isNone_iff_eq_none, get?_ofList_eq_none_iff]

def forking : List (List Segment × Nat) := [
  ([.literal (ascii "a"), .param (ascii "x"), .literal (ascii "d")], 0),
  ([.param (ascii "y"), .literal (ascii "b"), .literal (ascii "c")], 1),
  ([.param (ascii "z"), .literal (ascii "b"), .literal (ascii "c")], 2)]

theorem find?_stored_forking :
    ∃ before segments after, forking = before ++ (segments, 2) :: after ∧
      (ofList forking).find? (ascii "/a/b/c") = some (2, [ascii "a"]) ∧
      Fits segments [ascii "a", ascii "b", ascii "c"] ∧ ∀ e ∈ after, shape e.1 ≠ shape segments := by
  have found : (ofList forking).find? (ascii "/a/b/c") = some (2, [ascii "a"]) := by decide
  obtain ⟨before, segments, after, split, fits, -, last, -⟩ :=
    (find?_stored forking (ascii "/a/b/c")).2.1 2 [ascii "a"] found
  exact ⟨before, segments, after, split, found, fits, last⟩

end SegmentTrie

end HttpRouting
