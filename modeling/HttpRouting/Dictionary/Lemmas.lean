import HttpRouting.Dictionary

namespace HttpRouting.Dictionary

variable {κ α : Type} [Ord κ]

@[simp] theorem find?_empty (k : κ) : (∅ : Dictionary κ α).find? k = none := rfl

theorem lookup_eq_none_of_lt {k : κ} {entries : List (κ × α)}
    (h : ∀ e ∈ entries, compare k e.1 = .lt) : lookup k entries = none := by
  induction entries with
  | nil => rfl
  | cons head rest ih =>
    simp only [List.mem_cons, forall_eq_or_imp] at h
    simp [lookup, h.1, ih h.2]

variable [Std.TransOrd κ]

theorem lookup_place (k k' : κ) (v : α) (entries : List (κ × α)) :
    lookup k' (place k v entries) =
      if compare k' k = .eq then some v else lookup k' entries := by
  induction entries with
  | nil => simp [place, lookup]
  | cons head rest ih =>
    obtain ⟨key, value⟩ := head
    cases h : compare k key with
    | lt => simp [place, h, lookup]
    | eq =>
      have same : compare k' key = compare k' k := (Std.TransCmp.congr_right h).symm
      by_cases hk : compare k' k = .eq <;> simp [place, h, lookup, same, hk]
    | gt =>
      by_cases hk : compare k' key = .eq
      · have ne : compare k' k ≠ .eq := by
          intro eq
          have moved : compare k' key = compare k key := Std.TransCmp.congr_left eq
          simp_all
        simp [place, h, lookup, hk, ne]
      · simp [place, h, lookup, hk, ih]

@[simp] theorem find?_insert (d : Dictionary κ α) (k k' : κ) (v : α) :
    (d.insert k v).find? k' = if compare k' k = .eq then some v else d.find? k' :=
  lookup_place k k' v d.entries

theorem lookup_filter_ne (k k' : κ) (entries : List (κ × α)) :
    lookup k' (entries.filter (fun e => compare k e.1 != .eq)) =
      if compare k' k = .eq then none else lookup k' entries := by
  induction entries with
  | nil => simp [lookup]
  | cons head rest ih =>
    by_cases same : compare k head.1 = .eq
    · have moved : compare k' head.1 = compare k' k := (Std.TransCmp.congr_right same).symm
      by_cases hk : compare k' k = .eq <;> simp_all [lookup]
    · by_cases hk : compare k' k = .eq
      · have moved : compare k' head.1 = compare k head.1 := Std.TransCmp.congr_left hk
        simp_all [lookup]
      · simp_all [lookup]

@[simp] theorem find?_erase (d : Dictionary κ α) (k k' : κ) :
    (d.erase k).find? k' = if compare k' k = .eq then none else d.find? k' :=
  lookup_filter_ne k k' d.entries

theorem entries_eq_of_lookup [Std.LawfulEqOrd κ] {left right : List (κ × α)}
    (hl : left.Pairwise (fun a b => compare a.1 b.1 = .lt))
    (hr : right.Pairwise (fun a b => compare a.1 b.1 = .lt))
    (h : ∀ k, lookup k left = lookup k right) : left = right := by
  induction left generalizing right with
  | nil =>
    cases right with
    | nil => rfl
    | cons head rest => simpa [lookup] using h head.1
  | cons head rest ih =>
    cases right with
    | nil => simpa [lookup] using h head.1
    | cons head' rest' =>
      obtain ⟨first, tail⟩ := List.pairwise_cons.mp hl
      obtain ⟨first', tail'⟩ := List.pairwise_cons.mp hr
      have least : compare head.1 head'.1 = .eq := by
        cases order : compare head.1 head'.1 with
        | eq => rfl
        | lt =>
          have none : lookup head.1 rest' = none := lookup_eq_none_of_lt fun e he =>
            Std.TransCmp.lt_trans order (first' e he)
          simpa [lookup, order, none] using h head.1
        | gt =>
          have flipped := Std.OrientedCmp.lt_of_gt order
          have none : lookup head'.1 rest = none := lookup_eq_none_of_lt fun e he =>
            Std.TransCmp.lt_trans flipped (first e he)
          simpa [lookup, flipped, none] using h head'.1
      have key : head.1 = head'.1 := Std.LawfulEqOrd.eq_of_compare least
      have value : head.2 = head'.2 := by simpa [lookup, key] using h head.1
      have heads : head = head' := Prod.ext key value
      subst heads
      congr 1
      refine ih tail tail' fun k => ?_
      by_cases eq : k = head.1
      · subst eq
        rw [lookup_eq_none_of_lt first, lookup_eq_none_of_lt first']
      · have ne : compare k head.1 ≠ .eq := fun c => eq (Std.LawfulEqOrd.eq_of_compare c)
        simpa [lookup, ne] using h k

@[ext] theorem ext_find? [Std.LawfulEqOrd κ] {d d' : Dictionary κ α}
    (h : ∀ k, d.find? k = d'.find? k) : d = d' := by
  obtain ⟨entries, sorted⟩ := d
  obtain ⟨entries', sorted'⟩ := d'
  congr
  exact entries_eq_of_lookup sorted sorted' h

end HttpRouting.Dictionary
