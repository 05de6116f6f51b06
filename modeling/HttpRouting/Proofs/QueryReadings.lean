import Mathlib.Data.List.Forall2
import HttpRouting.Coercion
import HttpRouting.Dictionary.Latest
import HttpRouting.Proofs.Scanning

namespace HttpRouting

open Byte Bytes

def RawQuery.given (raw : RawQuery) (name : Bytes) : List Bytes := (raw.find? name).getD []

structure Pieces (raw : Bytes) (pieces : List Bytes) : Prop where
  some : pieces ≠ []
  plain : ∀ p ∈ pieces, comma ∉ p
  joined : raw = join "," pieces

/-- The texts that a parameter takes out of its raw values, to turn them into values. -/
inductive Descriptor.Takes (d : Descriptor) (split : Bool) : List Bytes → List Bytes → Prop
  | nothing (single : d.isArray = false) : d.Takes split [] []
  | first {raw : Bytes} {raws : List Bytes} (single : d.isArray = false) :
      d.Takes split (raw :: raws) [raw]
  | all {raws : List Bytes} (array : d.isArray = true) (whole : split = false) :
      d.Takes split raws raws
  | pieces {raws : List Bytes} {cut : List (List Bytes)} (array : d.isArray = true)
      (splits : split = true) (cuts : List.Forall₂ Pieces raws cut) :
      d.Takes split raws ((cut.flatten.map trim).filter (· ≠ []))

structure QueryReading.Accounts (declared : Params) (raw : RawQuery) (split : Bool)
    (reading : QueryReading) : Prop where
  found : ∀ name vs, reading.values.find? name = some vs →
    vs ≠ [] ∧ ∃ d, declared.find? name = some d
  values : ∀ name d, declared.find? name = some d →
    ∃ texts, d.Takes split (raw.given name) texts ∧
      (reading.values.find? name).getD [] = texts.filterMap d.coerce?
  ascending : reading.missing.Pairwise fun name name' => compare name name' = .lt
  missing : ∀ name, name ∈ reading.missing ↔
    ∃ d, declared.find? name = some d ∧ d.isOptional = false ∧ reading.values.find? name = none
  absent : ∀ name d, declared.find? name = some d → name ∉ reading.missing →
    reading.values.find? name = none → d.isOptional = true

theorem pieces_iff {raw : Bytes} {pieces : List Bytes} :
    Pieces raw pieces ↔ raw.splitOn comma = pieces := by
  constructor
  · intro h
    rw [h.joined]
    exact List.splitOn_intercalate comma h.plain h.some
  · rintro rfl
    exact ⟨List.splitOn_ne_nil comma raw, fun p => not_mem_of_mem_splitOn,
      (List.intercalate_splitOn comma).symm⟩

section

variable {d : Descriptor} {split : Bool} {raws texts : List Bytes}

theorem splitAtCommas_eq {cut : List (List Bytes)} (cuts : List.Forall₂ Pieces raws cut) :
    splitAtCommas raws = (cut.flatten.map trim).filter (· ≠ []) := by
  rw [splitAtCommas]
  congr 1
  induction cuts with
  | nil => rfl
  | cons first _ ih =>
    rw [List.flatMap_cons, ih, pieces_iff.mp first, List.flatten_cons, List.map_append]

theorem exists_cut (raws : List Bytes) : ∃ cut, List.Forall₂ Pieces raws cut := by
  induction raws with
  | nil => exact ⟨[], .nil⟩
  | cons raw raws ih =>
    obtain ⟨cut, cuts⟩ := ih
    exact ⟨_, .cons (pieces_iff.mpr rfl) cuts⟩

theorem Descriptor.Takes.coerceAll_eq (h : d.Takes split raws texts) :
    d.coerceAll split raws = texts.filterMap d.coerce? := by
  rw [coerceAll]
  cases h with
  | nothing single => simp [single]
  | first single => simp [single]
  | all array whole => simp [array, whole]
  | pieces array splits cuts => simp only [array, splits, splitAtCommas_eq cuts, if_true]

theorem Descriptor.exists_takes (d : Descriptor) (split : Bool) (raws : List Bytes) :
    ∃ texts, d.Takes split raws texts := by
  cases array : d.isArray with
  | false =>
    cases raws with
    | nil => exact ⟨[], .nothing array⟩
    | cons raw raws => exact ⟨[raw], .first array⟩
  | true =>
    cases split with
    | false => exact ⟨raws, .all array rfl⟩
    | true =>
      obtain ⟨cut, cuts⟩ := exists_cut raws
      exact ⟨_, .pieces array rfl cuts⟩

end

section

variable (declared : Params) (raw : RawQuery) (split : Bool)

def valuesOf (e : Bytes × Descriptor) : List Value := e.2.coerceAll split (raw.given e.1)

def QueryReading.account (reading : QueryReading) (e : Bytes × Descriptor) : QueryReading :=
  match valuesOf raw split e with
  | [] =>
    if e.2.isOptional then reading else { reading with missing := reading.missing ++ [e.1] }
  | values => { reading with values := reading.values.insert e.1 values }

theorem foldl_account (entries : List (Bytes × Descriptor)) (reading : QueryReading) :
    entries.foldl (QueryReading.account raw split) reading =
      { values := reading.values.insertAll
          ((entries.filter (valuesOf raw split · ≠ [])).map fun e => (e.1, valuesOf raw split e))
        missing := reading.missing ++
          (entries.filter fun e => valuesOf raw split e = [] ∧ e.2.isOptional = false).map (·.1) } := by
  induction entries generalizing reading with
  | nil => simp [Dictionary.insertAll]
  | cons e entries ih =>
    rw [List.foldl_cons, ih]
    cases values : valuesOf raw split e with
    | nil => cases optional : e.2.isOptional <;> simp [QueryReading.account, values, optional]
    | cons v vs => simp [QueryReading.account, values, Dictionary.insertAll]

theorem coerceQuery_eq : coerceQuery declared raw split =
    declared.entries.foldl (QueryReading.account raw split) {} := rfl

theorem missing_coerceQuery : (coerceQuery declared raw split).missing =
    (declared.entries.filter fun e =>
      valuesOf raw split e = [] ∧ e.2.isOptional = false).map (·.1) := by
  rw [coerceQuery_eq, foldl_account]
  rfl

theorem entries_values_coerceQuery : (coerceQuery declared raw split).values.entries =
    (declared.entries.filter (valuesOf raw split · ≠ [])).map fun e =>
      (e.1, valuesOf raw split e) := by
  rw [coerceQuery_eq, foldl_account]
  refine Dictionary.entries_ofList ?_
  rw [List.pairwise_map]
  exact declared.sorted.filter _

variable {declared raw split}

theorem find?_values_coerceQuery {name : Bytes} {vs : List Value} :
    (coerceQuery declared raw split).values.find? name = some vs ↔
      ∃ d, declared.find? name = some d ∧ vs ≠ [] ∧ d.coerceAll split (raw.given name) = vs := by
  rw [← Dictionary.mem_entries_iff, entries_values_coerceQuery, List.mem_map]
  constructor
  · rintro ⟨⟨name, d⟩, listed, ⟨⟩⟩
    obtain ⟨member, some⟩ := List.mem_filter.mp listed
    exact ⟨d, Dictionary.mem_entries_iff.mp member, of_decide_eq_true some, rfl⟩
  · rintro ⟨d, found, some, rfl⟩
    refine ⟨(name, d), List.mem_filter.mpr ⟨Dictionary.mem_entries_iff.mpr found, ?_⟩, rfl⟩
    exact decide_eq_true some

theorem values_of_declared {name : Bytes} {d : Descriptor} (found : declared.find? name = some d) :
    ((coerceQuery declared raw split).values.find? name).getD [] =
      d.coerceAll split (raw.given name) := by
  cases read : (coerceQuery declared raw split).values.find? name with
  | none =>
    rw [Option.getD_none]
    by_contra some
    have bound := find?_values_coerceQuery.mpr ⟨d, found, Ne.symm some, rfl⟩
    rw [read] at bound
    cases bound
  | some vs =>
    obtain ⟨d', found', -, same⟩ := find?_values_coerceQuery.mp read
    rw [found] at found'
    cases found'
    exact same.symm

theorem mem_missing_coerceQuery {name : Bytes} :
    name ∈ (coerceQuery declared raw split).missing ↔
      ∃ d, declared.find? name = some d ∧ d.isOptional = false ∧
        (coerceQuery declared raw split).values.find? name = none := by
  rw [missing_coerceQuery, List.mem_map]
  constructor
  · rintro ⟨⟨name, d⟩, listed, rfl⟩
    obtain ⟨member, shown⟩ := List.mem_filter.mp listed
    obtain ⟨empty, required⟩ := of_decide_eq_true shown
    have found := Dictionary.mem_entries_iff.mp member
    refine ⟨d, found, required, Option.eq_none_iff_forall_ne_some.mpr fun vs read => ?_⟩
    obtain ⟨d', found', some, same⟩ := find?_values_coerceQuery.mp read
    rw [found] at found'
    cases found'
    exact some (same.symm.trans empty)
  · rintro ⟨d, found, required, none⟩
    refine ⟨(name, d), List.mem_filter.mpr ⟨Dictionary.mem_entries_iff.mpr found, ?_⟩, rfl⟩
    have empty : d.coerceAll split (raw.given name) = [] := by
      rw [← values_of_declared found, none]
      rfl
    exact decide_eq_true ⟨empty, required⟩

theorem coerceQuery_congr {raw' : RawQuery}
    (same : ∀ e ∈ declared.entries, valuesOf raw' split e = valuesOf raw split e) :
    coerceQuery declared raw' split = coerceQuery declared raw split := by
  rw [coerceQuery_eq, coerceQuery_eq]
  refine List.foldl_ext _ _ _ fun reading e he => ?_
  rw [QueryReading.account, QueryReading.account, same e he]

end

theorem coerceQuery_accounts (declared : Params) (raw : RawQuery) (split : Bool) :
    (coerceQuery declared raw split).Accounts declared raw split ∧
      ∀ raw' : RawQuery,
        (∀ name d, declared.find? name = some d → ∃ texts,
          d.Takes split (raw.given name) texts ∧ d.Takes split (raw'.given name) texts) →
        coerceQuery declared raw' split = coerceQuery declared raw split := by
  refine ⟨⟨?_, ?_, ?_, fun _ => mem_missing_coerceQuery, ?_⟩, fun raw' agree => ?_⟩
  · intro name vs read
    obtain ⟨d, found, some, -⟩ := find?_values_coerceQuery.mp read
    exact ⟨some, d, found⟩
  · intro name d found
    obtain ⟨texts, takes⟩ := d.exists_takes split (raw.given name)
    exact ⟨texts, takes, (values_of_declared found).trans takes.coerceAll_eq⟩
  · rw [missing_coerceQuery, List.pairwise_map]
    exact declared.sorted.filter _
  · intro name d found present none
    by_contra required
    rw [Bool.not_eq_true] at required
    exact present (mem_missing_coerceQuery.mpr ⟨d, found, required, none⟩)
  · refine coerceQuery_congr fun e he => ?_
    obtain ⟨texts, takes, takes'⟩ := agree e.1 e.2 (Dictionary.mem_entries_iff.mp he)
    exact takes'.coerceAll_eq.trans takes.coerceAll_eq.symm

def searchParams : Params where
  entries := [
    (ascii "page", { name := ascii "page", types := [.number] }),
    (ascii "sort", { name := ascii "sort", types := [.string], choices := [ascii "asc"] }),
    (ascii "tags", { name := ascii "tags", types := [.number], isArray := true })]
  sorted := by decide

def plainSearch : RawQuery := .ofList [
  (ascii "page", [ascii "2"]), (ascii "tags", [ascii "1,2", ascii "x, 3"])]

def noisySearch : RawQuery := .ofList [
  (ascii "limit", [ascii "9"]), (ascii "page", [ascii "2", ascii "7"]),
  (ascii "tags", [ascii "1", ascii " ,2,x ", [], ascii "3"])]

theorem coerceQuery_accounts_noisy :
    (∀ name d, searchParams.find? name = some d → ∃ texts,
      d.Takes true (plainSearch.given name) texts ∧ d.Takes true (noisySearch.given name) texts) ∧
    (coerceQuery searchParams noisySearch true).Accounts searchParams noisySearch true ∧
    coerceQuery searchParams noisySearch true = coerceQuery searchParams plainSearch true ∧
    coerceQuery searchParams plainSearch true =
      { values := .ofList [(ascii "page", [.number 2]),
          (ascii "tags", [.number 1, .number 2, .number 3])]
        missing := [ascii "sort"] } := by
  have agree : ∀ name d, searchParams.find? name = some d → ∃ texts,
      d.Takes true (plainSearch.given name) texts ∧
        d.Takes true (noisySearch.given name) texts := by
    intro name d found
    have listed := Dictionary.mem_entries_iff.mpr found
    simp only [searchParams, List.mem_cons, List.not_mem_nil, or_false, Prod.mk.injEq] at listed
    obtain ⟨rfl, rfl⟩ | ⟨rfl, rfl⟩ | ⟨rfl, rfl⟩ := listed
    · exact ⟨_, .first rfl, .first rfl⟩
    · exact ⟨_, .nothing rfl, .nothing rfl⟩
    · have cut : List.Forall₂ Pieces (plainSearch.given (ascii "tags"))
          [[ascii "1", ascii "2"], [ascii "x", ascii " 3"]] :=
        .cons (pieces_iff.mpr (by decide)) (.cons (pieces_iff.mpr (by decide)) .nil)
      have cut' : List.Forall₂ Pieces (noisySearch.given (ascii "tags"))
          [[ascii "1"], [ascii " ", ascii "2", ascii "x "], [[]], [ascii "3"]] :=
        .cons (pieces_iff.mpr (by decide)) (.cons (pieces_iff.mpr (by decide))
          (.cons (pieces_iff.mpr (by decide)) (.cons (pieces_iff.mpr (by decide)) .nil)))
      exact ⟨[ascii "1", ascii "2", ascii "x", ascii "3"], .pieces rfl rfl cut,
        .pieces rfl rfl cut'⟩
  exact ⟨agree, (coerceQuery_accounts searchParams noisySearch true).1,
    (coerceQuery_accounts searchParams plainSearch true).2 noisySearch agree, by decide +kernel⟩

end HttpRouting
