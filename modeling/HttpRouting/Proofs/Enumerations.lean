import HttpRouting.Proofs.Numerals
import HttpRouting.Proofs.QueryGrammar

namespace HttpRouting

open Byte Bytes Template

inductive ParamType.Reads : ParamType → Bytes → Value → Prop
  | number {raw : Bytes} {n : Int64} (numeral : Numeral raw n.toInt) : Reads number raw (.number n)
  | true : Reads boolean (ascii "true") (.boolean Bool.true)
  | false : Reads boolean (ascii "false") (.boolean Bool.false)

namespace ParamType

variable {t t' : ParamType} {raw : Bytes} {v v' : Value}

theorem boolean?_eq_some_iff : Value.boolean? raw = some v ↔ boolean.Reads raw v := by
  rw [Value.boolean?]
  constructor
  · intro h
    split at h
    · rename_i same
      cases h
      exact same ▸ .true
    · split at h
      · rename_i same
        cases h
        exact same ▸ .false
      · cases h
  · intro h
    cases h with
    | true => rfl
    | false => rfl

theorem coerce?_eq_some_iff (textless : t ≠ .string ∧ t ≠ .regex) :
    t.coerce? raw = some v ↔ t.Reads raw v := by
  cases t with
  | string => exact absurd rfl textless.1
  | number =>
    rw [coerce?, Value.number?_eq_some_iff]
    constructor
    · rintro ⟨n, rfl, numeral⟩
      exact .number numeral
    · rintro ⟨numeral⟩
      exact ⟨_, rfl, numeral⟩
  | boolean => exact boolean?_eq_some_iff
  | regex => exact absurd rfl textless.2

theorem Reads.textless (h : t.Reads raw v) : t ≠ .string ∧ t ≠ .regex := by
  cases h <;> decide

theorem Reads.full (h : t.Reads raw v) : raw ≠ [] := by
  cases h with
  | number numeral => exact numeral.full
  | true => decide
  | false => decide

theorem not_numeral_word {b c : UInt8} {s : Bytes} {z : Int} (other : isDigit c = false) :
    ¬Numeral (b :: c :: s) z := by
  intro numeral
  have split : b :: c :: s = [b] ++ c :: s := rfl
  rcases numeral.digit_or_sign split with digit | ⟨first, -⟩
  · rw [other] at digit
    cases digit
  · cases first

theorem Reads.unique (h : t.Reads raw v) (h' : t'.Reads raw v') : t = t' ∧ v = v' := by
  cases h with
  | number numeral =>
    cases h' with
    | number numeral' => exact ⟨rfl, congrArg _ (Int64.toInt_inj.mp (numeral.unique numeral'))⟩
    | true => exact absurd numeral (not_numeral_word (by decide))
    | false => exact absurd numeral (not_numeral_word (by decide))
  | true =>
    cases h' with
    | number numeral' => exact absurd numeral' (not_numeral_word (by decide))
    | true => exact ⟨rfl, rfl⟩
  | false =>
    cases h' with
    | number numeral' => exact absurd numeral' (not_numeral_word (by decide))
    | false => exact ⟨rfl, rfl⟩

end ParamType

namespace Descriptor

variable {d : Descriptor} {raw : Bytes} {v : Value}

theorem mem_typesBesideChoices {t : ParamType} :
    t ∈ d.typesBesideChoices ↔ t ∈ d.types ∧ t ≠ .string ∧ t ≠ .regex := by
  rw [typesBesideChoices, List.mem_filter, Bool.and_eq_true, bne_iff_ne, bne_iff_ne]

theorem findSome?_eq_some_iff {ts : List ParamType}
    (textless : ∀ t ∈ ts, t ≠ .string ∧ t ≠ .regex) :
    ts.findSome? (·.coerce? raw) = some v ↔ ∃ t ∈ ts, t.Reads raw v := by
  constructor
  · intro h
    obtain ⟨t, ht, read⟩ := List.exists_of_findSome?_eq_some h
    exact ⟨t, ht, (ParamType.coerce?_eq_some_iff (textless t ht)).mp read⟩
  · rintro ⟨t, ht, reads⟩
    have read := (ParamType.coerce?_eq_some_iff (textless t ht)).mpr reads
    have some : (ts.findSome? (·.coerce? raw)).isSome :=
      List.findSome?_isSome_iff.mpr ⟨t, ht, read ▸ rfl⟩
    -- The first type that reads the value may be another one, but only with the same value.
    obtain ⟨v', first⟩ := Option.isSome_iff_exists.mp some
    obtain ⟨t', ht', read'⟩ := List.exists_of_findSome?_eq_some first
    have reads' := (ParamType.coerce?_eq_some_iff (textless t' ht')).mp read'
    rw [first, (reads.unique reads').2]

theorem mismatched_iff :
    d.pattern.any (!·.occursIn raw) = true ↔ ¬∀ p ∈ d.pattern, p.occursIn raw = true := by
  cases d.pattern <;> simp

theorem coerce?_of_restricted (restricted : d.choices ≠ []) :
    d.coerce? raw = some v ↔ raw ≠ [] ∧ (∀ p ∈ d.pattern, p.occursIn raw = true) ∧
      (raw ∈ d.choices ∧ v = .string raw ∨
        raw ∉ d.choices ∧ ∃ t ∈ d.typesBesideChoices, t.Reads raw v) := by
  have textless : ∀ t ∈ d.typesBesideChoices, t ≠ .string ∧ t ≠ .regex :=
    fun t ht => (mem_typesBesideChoices.mp ht).2
  rw [coerce?, if_neg restricted]
  split
  · rename_i empty
    exact iff_of_false (Option.some_ne_none v).symm fun h => h.1 empty
  · rename_i full
    rw [and_iff_right full]
    split
    · rename_i mismatched
      exact iff_of_false (Option.some_ne_none v).symm fun h =>
        mismatched_iff.mp mismatched h.1
    · rename_i matched
      rw [and_iff_right (Decidable.not_not.mp (mt mismatched_iff.mpr matched))]
      split
      · rename_i listed
        rw [List.contains_iff_mem] at listed
        rw [or_iff_left fun h => h.1 listed, and_iff_right listed, Option.some_inj, eq_comm]
      · rename_i unlisted
        rw [List.contains_iff_mem] at unlisted
        rw [or_iff_right fun h => unlisted h.1, and_iff_right unlisted,
          findSome?_eq_some_iff textless]

end Descriptor

namespace Template

namespace QuerySpec

variable {q : QuerySpec} {raw : Bytes} {v : Value}

def entries (q : QuerySpec) : List Bytes := q.items.flatMap TypeItem.entries

def literals (q : QuerySpec) : List Bytes := literalsAmong q.entries

inductive Admits (q : QuerySpec) (raw : Bytes) : Value → Prop
  | literal (listed : raw ∈ q.literals) : Admits q raw (.string raw)
  | typed {t : ParamType} {v : Value} (unlisted : raw ∉ q.literals)
      (within : ascii t.name ∈ q.entries) (reads : t.Reads raw v) : Admits q raw v

/-- A raw value outside the list that a type before or after the list reads. -/
structure Strays (q : QuerySpec) (raw : Bytes) : Prop where
  unlisted : raw ∉ q.literals
  matched : ∀ p ∈ q.pattern, p.occursIn raw = true
  bare : ∃ t v, .type t ∈ q.items ∧ ascii t.name ∉ q.entries ∧ t.Reads raw v

theorem mem_typesAmong {entries : List Bytes} {t : ParamType} :
    t ∈ typesAmong entries ↔ t ≠ .regex ∧ ascii t.name ∈ entries := by
  rw [typesAmong, List.mem_filterMap]
  constructor
  · rintro ⟨e, he, named⟩
    obtain ⟨nameable, rfl⟩ := ofName?_eq_some named
    exact ⟨nameable, he⟩
  · rintro ⟨nameable, listed⟩
    exact ⟨_, listed, ofName?_name nameable⟩

theorem mem_itemTypes {items : List TypeItem} {t : ParamType} (nameable : t ≠ .regex) :
    t ∈ items.flatMap TypeItem.types ↔
      .type t ∈ items ∨ ascii t.name ∈ items.flatMap TypeItem.entries := by
  simp only [List.mem_flatMap]
  constructor
  · rintro ⟨item, hitem, ht⟩
    cases item with
    | type t' =>
      obtain rfl := List.mem_singleton.mp ht
      exact .inl hitem
    | list entries => exact .inr ⟨_, hitem, (mem_typesAmong.mp ht).2⟩
    | array => cases ht
    | optional => cases ht
  · rintro (bare | ⟨item, hitem, listed⟩)
    · exact ⟨_, bare, List.mem_singleton_self t⟩
    · cases item with
      | list entries => exact ⟨_, hitem, mem_typesAmong.mpr ⟨nameable, listed⟩⟩
      | type t' => cases listed
      | array => cases listed
      | optional => cases listed

theorem descriptor_pattern (q : QuerySpec) : q.descriptor.pattern = q.pattern := by
  obtain ⟨ts, gains, -⟩ := q.descriptor_gains
  exact gains.pattern

theorem descriptor_choices (q : QuerySpec) : q.descriptor.choices = q.literals := by
  obtain ⟨ts, gains, -⟩ := q.descriptor_gains
  exact gains.choices

theorem mem_descriptor_types {t : ParamType} (textless : t ≠ .string ∧ t ≠ .regex) :
    t ∈ q.descriptor.types ↔ .type t ∈ q.items ∨ ascii t.name ∈ q.entries := by
  obtain ⟨ts, gains, default⟩ := q.descriptor_gains
  have other : t ∉ ts := fun added => (default t added).elim textless.1 textless.2
  rw [gains.types, or_iff_right List.not_mem_nil, List.mem_append, or_iff_left other,
    mem_itemTypes textless.2]
  rfl

theorem coerce?_eq_some_iff (restricted : q.literals ≠ []) :
    q.descriptor.coerce? raw = some v ↔ raw ≠ [] ∧ (∀ p ∈ q.pattern, p.occursIn raw = true) ∧
      (raw ∈ q.literals ∧ v = .string raw ∨ raw ∉ q.literals ∧
        ∃ t, (.type t ∈ q.items ∨ ascii t.name ∈ q.entries) ∧ t.Reads raw v) := by
  have types : (∃ t ∈ q.descriptor.typesBesideChoices, t.Reads raw v) ↔
      ∃ t, (.type t ∈ q.items ∨ ascii t.name ∈ q.entries) ∧ t.Reads raw v := by
    refine exists_congr fun t => and_congr_left fun reads => ?_
    rw [Descriptor.mem_typesBesideChoices, mem_descriptor_types reads.textless,
      and_iff_left reads.textless]
  rw [Descriptor.coerce?_of_restricted (q.descriptor_choices ▸ restricted), descriptor_choices,
    descriptor_pattern, types]

theorem admits_iff (restricted : q.literals ≠ []) :
    (∀ v, q.descriptor.coerce? raw = some v → q.Admits raw v) ↔ ¬q.Strays raw := by
  constructor
  · rintro admits ⟨unlisted, matched, t, v, bare, other, reads⟩
    have taken : q.descriptor.coerce? raw = some v := (coerce?_eq_some_iff restricted).mpr
      ⟨reads.full, matched, .inr ⟨unlisted, t, .inl bare, reads⟩⟩
    cases admits v taken with
    | literal listed => exact unlisted listed
    | typed _ within reads' => exact other ((reads.unique reads').1 ▸ within)
  · intro keeps v taken
    obtain ⟨-, matched, read⟩ := (coerce?_eq_some_iff restricted).mp taken
    rcases read with ⟨listed, rfl⟩ | ⟨unlisted, t, declared, reads⟩
    · exact .literal listed
    · by_cases within : ascii t.name ∈ q.entries
      · exact .typed unlisted within reads
      · have bare := declared.resolve_right within
        exact absurd ⟨unlisted, matched, t, v, bare, within, reads⟩ keeps

end QuerySpec

theorem enumerations_keep_iff {source : Bytes} {t : Template} (h : parse source = .ok t) :
    (∃ qs, QueryText t.queryPath qs) ∧ ∀ qs, QueryText t.queryPath qs →
      (∀ name d, t.queryParams.find? name = some d → ∃ q ∈ qs, q.name = name) ∧
      ∀ q ∈ qs, ∃ d, t.queryParams.find? q.name = some d ∧ (q.literals ≠ [] →
        ∀ raw, (∀ v, d.coerce? raw = some v → q.Admits raw v) ↔ ¬q.Strays raw) := by
  obtain ⟨written, declares⟩ := queryText_of_parse h
  refine ⟨written, fun qs written => ⟨fun name d found => ?_, fun q hq => ?_⟩⟩
  · obtain ⟨q, hq, named, -⟩ := (declares qs written name d).mp found
    exact ⟨q, hq, named⟩
  · have found := (declares qs written q.name q.descriptor).mpr ⟨q, hq, rfl, rfl⟩
    exact ⟨q.descriptor, found, fun restricted _ => QuerySpec.admits_iff restricted⟩

def looseSource : Bytes := ascii "?limit=number(all)"

def looseLimit : QuerySpec where
  name := ascii "limit"
  pattern := none
  items := [.type .number, .list [ascii "all"]]

theorem queryText_loose : QueryText (ascii "limit=number(all)") [looseLimit] := by
  have ends : Ends [] := nofun
  have listed : MarkText (leftParen :: ascii "all" ++ [rightParen]) (.list [ascii "all"]) :=
    .list (.last (by decide +kernel) (by decide))
  have typed : TypePartText (ascii "number" ++ (leftParen :: ascii "all" ++ [rightParen] ++ []))
      looseLimit.items [] :=
    .mark (.type (by decide) (by decide)) listed (.last (s := []) (.blank rfl) ends)
  have blank : Blank [] := nofun
  have text : ascii "limit=number(all)" = [] ++ (ascii "limit" ++ equals ::
      ([] ++ ([] ++ (ascii "number" ++ (leftParen :: ascii "all" ++ [rightParen] ++ []))))) := by
    decide +kernel
  rw [text]
  refine .param blank (by decide +kernel) ?_ (.done blank)
  exact .param (by decide) (by decide) (by decide +kernel) (.absent blank) (.inl rfl) typed

theorem parse_loose : ∃ t, parse looseSource = .ok t ∧ t.queryPath = ascii "limit=number(all)" ∧
    t.queryParams.find? looseLimit.name =
      some { name := ascii "limit", types := [.number], choices := [ascii "all"] } := by
  have shown : (parse looseSource).toOption.map
      (fun t => (t.queryPath, t.queryParams.find? looseLimit.name)) =
      some (ascii "limit=number(all)",
        some { name := ascii "limit", types := [.number], choices := [ascii "all"] }) := by
    decide +kernel
  cases parsed : parse looseSource with
  | error e =>
    rw [parsed] at shown
    cases shown
  | ok t =>
    rw [parsed] at shown
    obtain ⟨path, found⟩ := Prod.mk.inj (Option.some.inj shown)
    exact ⟨t, rfl, path, found⟩

theorem strays_loose : looseLimit.Strays (ascii "10") := by
  have numeral : Numeral (ascii "10") (10 : Int64).toInt := Value.int64?_eq_some_iff.mp (by decide)
  exact ⟨by decide, nofun, .number, _, by decide, by decide, .number numeral⟩

theorem enumerations_keep_iff_loose :
    ∃ t d, parse looseSource = .ok t ∧ QueryText t.queryPath [looseLimit] ∧
      t.queryParams.find? looseLimit.name = some d ∧ looseLimit.literals = [ascii "all"] ∧
      ¬(∀ v, d.coerce? (ascii "10") = some v → looseLimit.Admits (ascii "10") v) ∧
      ∀ v, d.coerce? (ascii "all") = some v → looseLimit.Admits (ascii "all") v := by
  obtain ⟨t, parsed, path, -⟩ := parse_loose
  have written : QueryText t.queryPath [looseLimit] := path ▸ queryText_loose
  obtain ⟨-, declared⟩ := (enumerations_keep_iff parsed).2 _ written
  obtain ⟨d, found, keeps⟩ := declared looseLimit List.mem_cons_self
  refine ⟨t, d, parsed, written, found, by decide, ?_, ?_⟩
  · exact fun admits => (keeps (by decide) _).mp admits strays_loose
  · exact (keeps (by decide) _).mpr fun strays => strays.unlisted (by decide)

theorem enumeration_takes_others :
    ∃ t d, parse looseSource = .ok t ∧ QueryText t.queryPath [looseLimit] ∧
      t.queryParams.find? looseLimit.name = some d ∧ looseLimit.literals ≠ [] ∧
      looseLimit.literals = looseLimit.entries ∧ ascii "10" ∉ looseLimit.literals ∧
      d.coerce? (ascii "10") = some (.number 10) ∧
      ¬looseLimit.Admits (ascii "10") (.number 10) := by
  obtain ⟨t, parsed, path, found⟩ := parse_loose
  refine ⟨t, _, parsed, path ▸ queryText_loose, found, by decide, by decide, by decide,
    by decide, ?_⟩
  intro admits
  cases admits with
  | typed _ within reads =>
    cases reads with
    | number => exact absurd within (by decide)

end Template

end HttpRouting
