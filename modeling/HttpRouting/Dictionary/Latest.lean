import HttpRouting.Dictionary.Lemmas

namespace HttpRouting

variable {κ κ' α β : Type} [DecidableEq κ] [DecidableEq κ']

def latest (k : κ) : List (κ × α) → Option α
  | [] => none
  | (k', v) :: rest => (latest k rest).or (if k' = k then some v else none)

@[simp] theorem latest_nil (k : κ) : latest k ([] : List (κ × α)) = none := rfl

theorem latest_cons (k : κ) (e : κ × α) (rest : List (κ × α)) :
    latest k (e :: rest) = (latest k rest).or (if e.1 = k then some e.2 else none) := rfl

theorem latest_append (k : κ) (before after : List (κ × α)) :
    latest k (before ++ after) = (latest k after).or (latest k before) := by
  induction before with
  | nil => simp
  | cons e before ih => rw [List.cons_append, latest_cons, latest_cons, ih, Option.or_assoc]

theorem latest_eq_none_iff {k : κ} {pairs : List (κ × α)} :
    latest k pairs = none ↔ ∀ e ∈ pairs, e.1 ≠ k := by
  induction pairs with
  | nil => simp
  | cons e pairs ih =>
    rw [latest_cons, Option.or_eq_none_iff, ih, List.forall_mem_cons, and_comm]
    by_cases h : e.1 = k <;> simp [h]

theorem latest_isSome_iff {k : κ} {pairs : List (κ × α)} :
    (latest k pairs).isSome ↔ ∃ e ∈ pairs, e.1 = k := by
  rw [Option.isSome_iff_ne_none, Ne, latest_eq_none_iff]
  simp only [Classical.not_forall, exists_prop, Decidable.not_not, ne_eq]

theorem latest_eq_some_iff {k : κ} {v : α} {pairs : List (κ × α)} :
    latest k pairs = some v ↔
      ∃ before after, pairs = before ++ (k, v) :: after ∧ ∀ e ∈ after, e.1 ≠ k := by
  constructor
  · intro h
    induction pairs with
    | nil => cases h
    | cons e pairs ih =>
      rw [latest_cons, Option.or_eq_some_iff] at h
      rcases h with h | ⟨none, h⟩
      · obtain ⟨before, after, rfl, later⟩ := ih h
        exact ⟨e :: before, after, rfl, later⟩
      · obtain ⟨k', v'⟩ := e
        split at h
        · rename_i key
          cases h
          cases key
          exact ⟨[], pairs, rfl, latest_eq_none_iff.mp none⟩
        · cases h
  · rintro ⟨before, after, rfl, later⟩
    rw [latest_append, latest_cons, latest_eq_none_iff.mpr later]
    simp

theorem latest_map_eq_some_iff {ι : Type} {f : ι → κ} {g : ι → α} {k : κ} {v : α} {l : List ι} :
    latest k (l.map fun a => (f a, g a)) = some v ↔
      ∃ before a after, l = before ++ a :: after ∧ f a = k ∧ g a = v ∧ ∀ a' ∈ after, f a' ≠ k := by
  rw [latest_eq_some_iff]
  constructor
  · rintro ⟨before, after, split, later⟩
    obtain ⟨before, rest, rfl, rfl, tail⟩ := List.map_eq_append_iff.mp split
    obtain ⟨a, after, rfl, same, rfl⟩ := List.map_eq_cons_iff.mp tail
    cases same
    exact ⟨before, a, after, rfl, rfl, rfl, fun a' ha => later _ (List.mem_map_of_mem ha)⟩
  · rintro ⟨before, a, after, rfl, rfl, rfl, later⟩
    refine ⟨before.map _, after.map _, by rw [List.map_append, List.map_cons], fun e he => ?_⟩
    obtain ⟨a', ha, rfl⟩ := List.mem_map.mp he
    exact later a' ha

theorem mem_of_latest {k : κ} {v : α} {pairs : List (κ × α)} (h : latest k pairs = some v) :
    (k, v) ∈ pairs := by
  obtain ⟨before, after, rfl, -⟩ := latest_eq_some_iff.mp h
  simp

theorem latest_map_value (f : α → β) (k : κ) (pairs : List (κ × α)) :
    latest k (pairs.map (fun e => (e.1, f e.2))) = (latest k pairs).map f := by
  induction pairs with
  | nil => rfl
  | cons e pairs ih =>
    rw [List.map_cons, latest_cons, latest_cons, ih, Option.map_or]
    congr 1
    split <;> rfl

theorem latest_map_key {g : κ → κ'} (hg : Function.Injective g) (k : κ) (pairs : List (κ × α)) :
    latest (g k) (pairs.map (fun e => (g e.1, e.2))) = latest k pairs := by
  induction pairs with
  | nil => rfl
  | cons e pairs ih => simp only [List.map_cons, latest_cons, ih, hg.eq_iff]

theorem latest_map_key_congr {g : κ → κ'} (hg : Function.Injective g) {pairs pairs' : List (κ × α)}
    (same : ∀ k, latest k pairs = latest k pairs') (k' : κ') :
    latest k' (pairs.map (fun e => (g e.1, e.2))) =
      latest k' (pairs'.map (fun e => (g e.1, e.2))) := by
  by_cases image : ∃ k, g k = k'
  · obtain ⟨k, rfl⟩ := image
    rw [latest_map_key hg, latest_map_key hg, same]
  · have unbound (pairs : List (κ × α)) : latest k' (pairs.map (fun e => (g e.1, e.2))) = none := by
      rw [latest_eq_none_iff]
      intro e he key
      obtain ⟨e, -, rfl⟩ := List.mem_map.mp he
      exact image ⟨e.1, key⟩
    rw [unbound, unbound]

theorem latest_of_nodup {k : κ} {v : α} {pairs : List (κ × α)}
    (distinct : (pairs.map (·.1)).Nodup) (h : (k, v) ∈ pairs) : latest k pairs = some v := by
  obtain ⟨before, after, rfl⟩ := List.append_of_mem h
  refine latest_eq_some_iff.mpr ⟨before, after, rfl, fun e he same => ?_⟩
  rw [List.map_append, List.map_cons] at distinct
  have fresh := (List.nodup_cons.mp (List.nodup_append.mp distinct).2.1).1
  exact fresh (List.mem_map.mpr ⟨e, he, same⟩)

theorem eq_of_nodup_map {f : α → κ} {l : List α} (distinct : (l.map f).Nodup) {a a' : α}
    (ha : a ∈ l) (ha' : a' ∈ l) (same : f a = f a') : a = a' := by
  have keys : ((l.map fun a => (f a, a)).map (·.1)).Nodup := by rwa [List.map_map]
  have found (a : α) (ha : a ∈ l) : latest (f a) (l.map fun a => (f a, a)) = some a :=
    latest_of_nodup keys (List.mem_map_of_mem ha)
  exact Option.some.inj ((found a ha).symm.trans (same ▸ found a' ha'))

namespace Dictionary

variable {κ α : Type} [Ord κ]

@[simp] theorem merge_empty [Std.TransOrd κ] (d : Dictionary κ α) : d.merge ∅ = d := rfl

variable [Std.LawfulEqOrd κ]

theorem lookup_eq_none_iff {k : κ} {entries : List (κ × α)} :
    lookup k entries = none ↔ ∀ e ∈ entries, e.1 ≠ k := by
  induction entries with
  | nil => simp [lookup]
  | cons e entries ih =>
    by_cases h : e.1 = k
    · simp [lookup, h]
    · simp [lookup, h, Ne.symm h, ih]

theorem contains_insert_iff [Std.TransOrd κ] {d : Dictionary κ α} {k k' : κ} {v : α} :
    (d.insert k v).contains k' = false ↔ k' ≠ k ∧ d.contains k' = false := by
  rw [contains, find?_insert]
  by_cases same : k' = k <;> simp [same, contains]

variable [DecidableEq κ]

theorem latest_entries (d : Dictionary κ α) (k : κ) : latest k d.entries = d.find? k := by
  obtain ⟨entries, sorted⟩ := d
  change latest k entries = lookup k entries
  induction entries with
  | nil => rfl
  | cons e entries ih =>
    obtain ⟨first, tail⟩ := List.pairwise_cons.mp sorted
    rw [latest_cons, ih tail, lookup]
    by_cases h : e.1 = k
    · have rest : lookup k entries = none := lookup_eq_none_iff.mpr fun e' he' same => by
        have lt := first e' he'
        simp [h, same] at lt
      simp [rest, h]
    · simp [h, Ne.symm h]

theorem mem_keys_iff {d : Dictionary κ α} {k : κ} : k ∈ d.keys ↔ (d.find? k).isSome := by
  rw [← latest_entries, latest_isSome_iff, keys, List.mem_map]

theorem mem_entries_iff {d : Dictionary κ α} {k : κ} {v : α} :
    (k, v) ∈ d.entries ↔ d.find? k = some v := by
  rw [← latest_entries]
  refine ⟨latest_of_nodup ?_, mem_of_latest⟩
  refine List.Pairwise.map _ (fun a b lt same => ?_) d.sorted
  simp [same] at lt

variable [Std.TransOrd κ]

def insertAll (d : Dictionary κ α) (pairs : List (κ × α)) : Dictionary κ α :=
  pairs.foldl (fun d e => d.insert e.1 e.2) d

theorem find?_insertAll (pairs : List (κ × α)) (d : Dictionary κ α) (k : κ) :
    (d.insertAll pairs).find? k = (latest k pairs).or (d.find? k) := by
  induction pairs generalizing d with
  | nil => rfl
  | cons e pairs ih =>
    rw [insertAll, List.foldl_cons, ← insertAll, ih, find?_insert, latest_cons, Option.or_assoc]
    congr 1
    by_cases h : e.1 = k
    · simp [h]
    · simp [h, Ne.symm h]

theorem find?_ofList (pairs : List (κ × α)) (k : κ) : (ofList pairs).find? k = latest k pairs := by
  rw [ofList, ← insertAll, find?_insertAll, find?_empty, Option.or_none]

theorem find?_merge (d d' : Dictionary κ α) (k : κ) :
    (d.merge d').find? k = (d'.find? k).or (d.find? k) := by
  rw [merge, ← insertAll, find?_insertAll, latest_entries]

theorem mem_keys_ofList_iff {pairs : List (κ × α)} {k : κ} :
    k ∈ (ofList pairs).keys ↔ k ∈ pairs.map (·.1) := by
  rw [mem_keys_iff, find?_ofList, latest_isSome_iff, List.mem_map]

theorem mem_keys_merge_iff {d d' : Dictionary κ α} {k : κ} :
    k ∈ (d.merge d').keys ↔ k ∈ d.keys ∨ k ∈ d'.keys := by
  rw [mem_keys_iff, mem_keys_iff, mem_keys_iff, find?_merge, Option.isSome_or, Bool.or_eq_true,
    or_comm]

theorem ofList_append (pairs more : List (κ × α)) :
    ofList (pairs ++ more) = (ofList pairs).merge (ofList more) := by
  apply ext_find?
  intro k
  rw [find?_merge, find?_ofList, find?_ofList, find?_ofList, latest_append]

theorem entries_ofList {pairs : List (κ × α)}
    (sorted : pairs.Pairwise fun a b => compare a.1 b.1 = .lt) : (ofList pairs).entries = pairs := by
  have same : ofList pairs = ⟨pairs, sorted⟩ := by
    apply ext_find?
    intro k
    rw [find?_ofList, ← latest_entries]
  rw [same]

theorem ofList_cons_cons (k : κ) (v v' : α) (pairs : List (κ × α)) :
    ofList ((k, v) :: (k, v') :: pairs) = ofList ((k, v') :: pairs) := by
  apply ext_find?
  intro k'
  simp only [find?_ofList, latest_cons]
  by_cases same : k = k' <;> simp [same]

theorem empty_merge (d : Dictionary κ α) : (∅ : Dictionary κ α).merge d = d := by
  apply ext_find?
  intro k
  rw [find?_merge, find?_empty, Option.or_none]

theorem isEmpty_insert (d : Dictionary κ α) (k : κ) (v : α) : (d.insert k v).isEmpty = false := by
  have found := find?_insert d k k v
  rw [if_pos Std.ReflCmp.compare_self, ← latest_entries] at found
  rw [isEmpty, List.isEmpty_eq_false_iff]
  intro none
  rw [none] at found
  cases found

end Dictionary

end HttpRouting
