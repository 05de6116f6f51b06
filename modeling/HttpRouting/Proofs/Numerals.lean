import Mathlib.Data.List.Basic
import Mathlib.Data.Nat.Digits.Defs
import HttpRouting.Coercion
import HttpRouting.Proofs.Scanning

namespace HttpRouting

open Byte Bytes

structure Digits (s : Bytes) (n : Nat) : Prop where
  full : s ≠ []
  digits : ∀ b ∈ s, isDigit b = true
  value : Nat.ofDigits 10 (s.reverse.map fun b => b.toNat - 48) = n

inductive Numeral : Bytes → Int → Prop
  | plain {s : Bytes} {n : Nat} (digits : Digits s n) : Numeral s n
  | minus {s : Bytes} {n : Nat} (digits : Digits s n) : Numeral (dash :: s) (-n)

theorem isDigit_iff {b : UInt8} : isDigit b = true ↔ 48 ≤ b.toNat ∧ b.toNat ≤ 57 := by
  simp [isDigit, UInt8.le_iff_toNat_le]

theorem toNat_sub_zero {b : UInt8} (digit : isDigit b = true) : (b - 48).toNat = b.toNat - 48 :=
  UInt8.toNat_sub_of_le _ _ (UInt8.le_iff_toNat_le.mpr (isDigit_iff.mp digit).1)

theorem foldl_digits {s : Bytes} (digits : ∀ b ∈ s, isDigit b = true) :
    s.foldl (fun n b => 10 * n + (b - 48).toNat) 0 =
      Nat.ofDigits 10 (s.reverse.map fun b => b.toNat - 48) := by
  rw [Nat.ofDigits_eq_foldr, List.foldr_map, List.foldr_reverse]
  refine List.foldl_ext _ _ _ fun n b hb => ?_
  rw [toNat_sub_zero (digits b hb), add_comm, Nat.cast_id]

theorem digits?_eq_some_iff {s : Bytes} {n : Nat} : digits? s = some n ↔ Digits s n := by
  rw [digits?]
  split
  · rename_i shaped
    rw [Bool.and_eq_true, decide_eq_true_eq, List.all_eq_true] at shaped
    rw [Option.some_inj, foldl_digits shaped.2]
    exact ⟨fun value => ⟨shaped.1, shaped.2, value⟩, Digits.value⟩
  · rename_i shapeless
    refine iff_of_false nofun fun h => shapeless ?_
    rw [Bool.and_eq_true, decide_eq_true_eq, List.all_eq_true]
    exact ⟨h.full, h.digits⟩

theorem Digits.not_minus {s : Bytes} {n : Nat} : ¬Digits (dash :: s) n := fun h =>
  absurd (h.digits dash List.mem_cons_self) (by decide)

theorem Numeral.unique {s : Bytes} {z z' : Int} (h : Numeral s z) (h' : Numeral s z') : z = z' := by
  cases h with
  | plain digits =>
    cases h' with
    | plain digits' => rw [← digits.value, ← digits'.value]
    | minus => exact absurd digits Digits.not_minus
  | minus digits =>
    cases h' with
    | plain digits' => exact absurd digits' Digits.not_minus
    | minus digits' => rw [← digits.value, ← digits'.value]

theorem Numeral.full {s : Bytes} {z : Int} (h : Numeral s z) : s ≠ [] := by
  cases h with
  | plain digits => exact digits.full
  | minus digits => exact List.cons_ne_nil _ _

theorem Numeral.digit_or_sign {s : Bytes} {z : Int} (h : Numeral s z) {before after : Bytes}
    {b : UInt8} (split : s = before ++ b :: after) :
    isDigit b = true ∨ before = [] ∧ b = dash := by
  cases h with
  | plain digits =>
    subst split
    exact .inl (digits.digits b (by simp))
  | minus digits =>
    cases before with
    | nil => exact .inr ⟨rfl, (List.cons.inj split).1.symm⟩
    | cons c before =>
      obtain rfl := (List.cons.inj split).2
      exact .inl (digits.digits b (by simp))

theorem digits_tail_iff {s : Bytes} {z : Int} :
    (digits? s).map (fun n => -(n : Int)) = some z ↔ Numeral (dash :: s) z := by
  rw [Option.map_eq_some_iff]
  constructor
  · rintro ⟨m, cast, rfl⟩
    obtain ⟨n, read, same⟩ := Option.bind_eq_some_iff.mp cast
    obtain rfl := Option.some.inj same
    exact .minus (digits?_eq_some_iff.mp read)
  · intro h
    cases h with
    | plain digits => exact absurd digits Digits.not_minus
    | @minus s n digits =>
      exact ⟨n, Option.bind_eq_some_iff.mpr ⟨n, digits?_eq_some_iff.mpr digits, rfl⟩, rfl⟩

theorem digits_whole_iff {s : Bytes} (unsigned : after? dash s = none) {z : Int} :
    (digits? s).map Int.ofNat = some z ↔ Numeral s z := by
  rw [Option.map_eq_some_iff]
  constructor
  · rintro ⟨n, read, rfl⟩
    exact .plain (digits?_eq_some_iff.mp read)
  · intro h
    cases h with
    | plain digits => exact ⟨_, digits?_eq_some_iff.mpr digits, rfl⟩
    | minus digits =>
      rw [after?_eq_some_iff.mpr rfl] at unsigned
      cases unsigned

namespace Value

theorem fits_iff {z : Int} {n : Int64} :
    (if Int64.minValue.toInt ≤ z ∧ z ≤ Int64.maxValue.toInt then some (Int64.ofInt z) else none) =
      some n ↔ z = n.toInt := by
  constructor
  · intro h
    split at h
    · rename_i range
      cases h
      exact (Int64.toInt_ofInt_of_le range.1 (Int.lt_add_one_of_le range.2)).symm
    · cases h
  · rintro rfl
    rw [if_pos ⟨n.minValue_le_toInt, n.toInt_le⟩, Int64.ofInt_toInt]

theorem int64?_eq_some_iff {s : Bytes} {n : Int64} :
    int64? s = some n ↔ Numeral s n.toInt := by
  rw [int64?]
  split
  · rename_i digits signed
    obtain rfl := after?_eq_some_iff.mp signed
    rw [Option.bind_eq_bind, Option.bind_eq_some_iff]
    simp only [digits_tail_iff, fits_iff, exists_eq_right]
  · rename_i unsigned
    rw [Option.bind_eq_bind, Option.bind_eq_some_iff]
    simp only [digits_whole_iff unsigned, fits_iff, exists_eq_right]

theorem number?_eq_some_iff {s : Bytes} {v : Value} :
    number? s = some v ↔ ∃ n : Int64, v = .number n ∧ Numeral s n.toInt := by
  rw [number?, Option.map_eq_some_iff]
  constructor
  · rintro ⟨n, read, rfl⟩
    exact ⟨n, rfl, int64?_eq_some_iff.mp read⟩
  · rintro ⟨n, rfl, numeral⟩
    exact ⟨n, int64?_eq_some_iff.mpr numeral, rfl⟩

end Value

theorem digitChar_byte {n : Nat} (h : n < 10) :
    isDigit n.digitChar.toNat.toUInt8 = true ∧ n.digitChar.toNat.toUInt8.toNat - 48 = n := by
  have value : (48 + n).toUInt8.toNat = 48 + n := by
    apply UInt8.toNat_ofNat_of_lt'
    change 48 + n < 256
    omega
  rw [Nat.toNat_digitChar_of_lt_ten h, isDigit_iff, value]
  omega

theorem ofNat_of_lt {n : Nat} (h : n < 10) : Bytes.ofNat n = [n.digitChar.toNat.toUInt8] := by
  rw [Bytes.ofNat, Nat.toDigits_of_lt_base h]
  rfl

theorem ofNat_of_le {n : Nat} (h : 10 ≤ n) :
    Bytes.ofNat n = Bytes.ofNat (n / 10) ++ [(n % 10).digitChar.toNat.toUInt8] := by
  rw [Bytes.ofNat, Nat.toDigits_of_base_le (by decide) h, List.map_append]
  rfl

theorem Digits.append {s : Bytes} {m n : Nat} {b : UInt8} (h : Digits s m)
    (digit : isDigit b = true) (value : b.toNat - 48 = n) : Digits (s ++ [b]) (10 * m + n) := by
  refine ⟨by simp, List.forall_mem_append.mpr ⟨h.digits, List.forall_mem_singleton.mpr digit⟩, ?_⟩
  rw [List.reverse_append, List.reverse_singleton, List.singleton_append, List.map_cons,
    Nat.ofDigits_cons, h.value, value, add_comm]

theorem ofNat_digits (n : Nat) : Digits (Bytes.ofNat n) n := by
  induction n using Nat.strongRecOn with
  | _ n ih =>
    by_cases small : n < 10
    · obtain ⟨digit, value⟩ := digitChar_byte small
      rw [ofNat_of_lt small]
      exact ⟨by simp, List.forall_mem_singleton.mpr digit, by simpa using value⟩
    · obtain ⟨digit, value⟩ := digitChar_byte (Nat.mod_lt n (by decide : 0 < 10))
      have tens := ih (n / 10) (by omega)
      rw [ofNat_of_le (by omega)]
      have appended := tens.append digit value
      rwa [Nat.div_add_mod] at appended

theorem ofInt_numeral (z : Int) : Numeral (ofInt z) z := by
  cases z with
  | ofNat n => exact .plain (ofNat_digits n)
  | negSucc n => exact .minus (ofNat_digits (n + 1))

namespace Descriptor

theorem coerce?_of_unrestricted {d : Descriptor} {raw : Bytes} (full : raw ≠ [])
    (pattern : d.pattern = none) (choices : d.choices = []) :
    d.coerce? raw = d.types.findSome? (·.coerce? raw) := by
  rw [coerce?, if_neg full, pattern, if_neg (by simp), if_pos choices]

theorem coerce?_eq_number? {d : Descriptor} (only : d.types = [.number])
    (pattern : d.pattern = none) (choices : d.choices = []) (raw : Bytes) :
    d.coerce? raw = Value.number? raw := by
  by_cases empty : raw = []
  · rw [empty, coerce?, if_pos rfl]
    rfl
  · rw [coerce?_of_unrestricted empty pattern choices, only, List.findSome?_singleton]
    rfl

theorem coerce?_takes_numerals {d : Descriptor} (only : d.types = [.number])
    (pattern : d.pattern = none) (choices : d.choices = []) :
    (∀ raw, (d.coerce? raw).isSome ↔ ∃ z, Numeral raw z ∧ -2 ^ 63 ≤ z ∧ z ≤ 2 ^ 63 - 1) ∧
      (∀ raw v, d.coerce? raw = some v ↔ ∃ n : Int64, v = .number n ∧ Numeral raw n.toInt) ∧
      (∀ n : Int64, d.coerce? (ofInt n.toInt) = some (.number n)) ∧
      (∀ raw z, Numeral raw z → ¬(-2 ^ 63 ≤ z ∧ z ≤ 2 ^ 63 - 1) → d.coerce? raw = none) ∧
      ∀ before b after, isDigit b = false → before ≠ [] ∨ b ≠ dash →
        d.coerce? (before ++ b :: after) = none := by
  have taken (raw : Bytes) (v : Value) :
      d.coerce? raw = some v ↔ ∃ n : Int64, v = .number n ∧ Numeral raw n.toInt := by
    rw [coerce?_eq_number? only pattern choices, Value.number?_eq_some_iff]
  have fits (n : Int64) : -2 ^ 63 ≤ n.toInt ∧ n.toInt ≤ 2 ^ 63 - 1 :=
    ⟨n.le_toInt, Int.le_sub_one_of_lt n.toInt_lt⟩
  have untaken {raw : Bytes} (other : ∀ n : Int64, ¬Numeral raw n.toInt) :
      d.coerce? raw = none := by
    refine Option.eq_none_iff_forall_ne_some.mpr fun v found => ?_
    obtain ⟨n, -, numeral⟩ := (taken raw v).mp found
    exact other n numeral
  refine ⟨fun raw => ?_, taken, fun n => ?_, fun raw z numeral large => ?_, ?_⟩
  · rw [Option.isSome_iff_exists]
    constructor
    · rintro ⟨v, found⟩
      obtain ⟨n, -, numeral⟩ := (taken raw v).mp found
      exact ⟨n.toInt, numeral, fits n⟩
    · rintro ⟨z, numeral, low, high⟩
      have same := Int64.toInt_ofInt_of_le low (Int.lt_of_le_sub_one high)
      exact ⟨_, (taken raw _).mpr ⟨Int64.ofInt z, rfl, same.symm ▸ numeral⟩⟩
  · exact (taken _ _).mpr ⟨n, rfl, ofInt_numeral n.toInt⟩
  · exact untaken fun n numeral' => large (numeral.unique numeral' ▸ fits n)
  · intro before b after other inside
    refine untaken fun n numeral => ?_
    rcases numeral.digit_or_sign rfl with digit | ⟨first, sign⟩
    · rw [other] at digit
      cases digit
    · exact inside.elim (· first) (· sign)

theorem coerce?_takes_numerals_limits :
    ∃ t d, Template.parse (ascii "/<id: number>") = .ok t ∧
      t.pathParams.find? (ascii "id") = some d ∧
      d.types = [.number] ∧ d.pattern = none ∧ d.choices = [] ∧
      d.coerce? (ascii "-9223372036854775808") = some (.number Int64.minValue) ∧
      d.coerce? (ascii "0009223372036854775807") = some (.number Int64.maxValue) ∧
      d.coerce? (ascii "9223372036854775808") = none ∧
      d.coerce? (ascii "+7") = none ∧ d.coerce? (ascii "7 ") = none := by
  have shown : ((Template.parse (ascii "/<id: number>")).toOption.bind fun t =>
      t.pathParams.find? (ascii "id")) = some { name := ascii "id", types := [.number] } := by
    decide +kernel
  have lowest : Digits (ascii "9223372036854775808") (2 ^ 63) :=
    ⟨by decide, by decide +kernel, by decide +kernel⟩
  have highest : Digits (ascii "0009223372036854775807") (2 ^ 63 - 1) :=
    ⟨by decide, by decide +kernel, by decide +kernel⟩
  cases parsed : Template.parse (ascii "/<id: number>") with
  | error e =>
    rw [parsed] at shown
    cases shown
  | ok t =>
    rw [parsed] at shown
    obtain ⟨-, taken, -, large, other⟩ :=
      @coerce?_takes_numerals { name := ascii "id", types := [.number] } rfl rfl rfl
    refine ⟨t, _, rfl, shown, rfl, rfl, rfl, ?_, ?_, ?_, ?_, ?_⟩
    · exact (taken _ _).mpr ⟨Int64.minValue, rfl, .minus lowest⟩
    · exact (taken _ _).mpr ⟨Int64.maxValue, rfl, .plain highest⟩
    · exact large _ _ (.plain lowest) (by decide)
    · exact other [] plus (ascii "7") (by decide) (.inr (by decide))
    · exact other (ascii "7") space [] (by decide) (.inl (by decide))

end Descriptor

end HttpRouting
