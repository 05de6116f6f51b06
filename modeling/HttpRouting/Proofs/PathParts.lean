import HttpRouting.SegmentTrie
import HttpRouting.Proofs.Scanning

/-!
The parts of a path, cut off at one slash after the other by a cursor of 32 bits. Main statement:
cutting ends just if no slash is out of the reach of the cursor, and then with the parts that
joining puts together again; a path that is put together has the parts it was made of.
-/

namespace HttpRouting

open Byte Bytes

def slashFrom? (path : Bytes) (start : Nat) : Option Nat :=
  ((path.drop start).idxOf? slash).map (start + ·)

/-- The parts that are cut off a path from the cursor on. Offsets of slashes have any size; the
cursor keeps 32 bits of them. -/
inductive Cuts (path : Bytes) : UInt32 → List Bytes → Prop
  | last {start : UInt32} (none : slashFrom? path start.toNat = none) :
      Cuts path start [path.drop start.toNat]
  | part {start : UInt32} {stop : Nat} {parts : List Bytes}
      (found : slashFrom? path start.toNat = some stop)
      (rest : Cuts path (.ofNat (stop + 1)) parts) :
      Cuts path start (path.extract start.toNat stop :: parts)

def CutInto (path : Bytes) (parts : List Bytes) : Prop :=
  if path = [] ∨ path = [slash] then parts = []
  else Cuts path (if path.head? = some slash then 1 else 0) parts

section

variable {path : Bytes} {parts : List Bytes}

theorem slashFrom?_eq_none {start : Nat} (h : slashFrom? path start = none) :
    slash ∉ path.drop start :=
  List.idxOf?_eq_none_iff.mp (Option.map_eq_none_iff.mp h)

theorem slashFrom?_eq_some {start stop : Nat} (h : slashFrom? path start = some stop) :
    start ≤ stop ∧ path[stop]? = some slash ∧ slash ∉ path.extract start stop ∧
      path.drop start = path.extract start stop ++ slash :: path.drop (stop + 1) := by
  obtain ⟨length, found, rfl⟩ := Option.map_eq_some_iff.mp h
  obtain ⟨inside, here, before⟩ := List.idxOf?_eq_some_iff.mp found
  have cut : path.extract start (start + length) = (path.drop start).take length := by
    rw [List.extract_eq_take_drop, Nat.add_sub_cancel_left]
  refine ⟨Nat.le_add_right start length, ?_, ?_, ?_⟩
  · rw [← List.getElem?_drop, List.getElem?_eq_getElem inside, here]
  · rw [cut, List.mem_take_iff_getElem]
    rintro ⟨i, less, same⟩
    exact before i (by omega) same
  · rw [cut, Nat.add_assoc, ← List.drop_drop, ← here, ← List.drop_eq_getElem_cons inside,
      List.take_append_drop]

theorem not_cuts_of_far_slash (far : slash ∈ path.drop (UInt32.size - 1)) (start : UInt32) :
    ¬Cuts path start parts := by
  -- A slash at the last offset that the cursor can have, or behind it, is ahead of any cursor.
  intro h
  induction h with
  | @last start none =>
    have ahead : start.toNat ≤ UInt32.size - 1 := Nat.le_pred_of_lt start.toNat_lt_size
    refine slashFrom?_eq_none none ?_
    rw [← Nat.add_sub_cancel' ahead, ← List.drop_drop] at far
    exact List.mem_of_mem_drop far
  | part _ _ ih => exact ih

theorem toNat_behind {start stop : Nat} (near : slash ∉ path.drop (UInt32.size - 1))
    (found : slashFrom? path start = some stop) :
    (UInt32.ofNat (stop + 1)).toNat = stop + 1 := by
  obtain ⟨-, here, -⟩ := slashFrom?_eq_some found
  have within : stop < UInt32.size - 1 := by
    rw [← Nat.not_le]
    intro beyond
    refine near (List.mem_of_getElem? (i := stop - (UInt32.size - 1)) ?_)
    rw [List.getElem?_drop, Nat.add_sub_cancel' beyond, here]
  exact UInt32.toNat_ofNat_of_lt' (by omega)

theorem Cuts.eq_splitOn {start : UInt32} (h : Cuts path start parts) :
    parts = (path.drop start.toNat).splitOn slash := by
  induction h with
  | last none => rw [List.splitOn_eq_singleton (slashFrom?_eq_none none)]
  | part found rest ih =>
    obtain ⟨-, -, plain, cut⟩ := slashFrom?_eq_some found
    have near : slash ∉ path.drop (UInt32.size - 1) := fun far => not_cuts_of_far_slash far _ rest
    rw [toNat_behind near found] at ih
    rw [cut, List.splitOn_append_cons_self_of_not_mem plain, ih]

theorem cuts_splitOn (near : slash ∉ path.drop (UInt32.size - 1)) (start : UInt32) :
    Cuts path start ((path.drop start.toNat).splitOn slash) := by
  induction left : path.length - start.toNat using Nat.strongRecOn generalizing start with
  | _ left' ih =>
    subst left
    cases found : slashFrom? path start.toNat with
    | none =>
      rw [List.splitOn_eq_singleton (slashFrom?_eq_none found)]
      exact .last found
    | some stop =>
      obtain ⟨onward, here, plain, cut⟩ := slashFrom?_eq_some found
      obtain ⟨before, -⟩ := List.getElem?_eq_some_iff.mp here
      have counted := toNat_behind near found
      rw [cut, List.splitOn_append_cons_self_of_not_mem plain]
      refine .part found ?_
      have rest := ih _ (by omega) (.ofNat (stop + 1)) rfl
      rwa [counted] at rest

theorem splitPath_of_full (full : ¬(path = [] ∨ path = [slash])) :
    splitPath path = ((after? slash path).getD path).splitOn slash := if_neg full

theorem after?_getD_of_relative (relative : path.head? ≠ some slash) :
    (after? slash path).getD path = path := by
  cases path with
  | nil => rfl
  | cons b rest =>
    have other : b ≠ slash := fun same => relative (congrArg some same)
    rw [after?, if_neg other, Option.getD_none]

theorem cutInto_iff :
    CutInto path parts ↔ slash ∉ path.drop (UInt32.size - 1) ∧ parts = splitPath path := by
  rw [CutInto]
  split
  · rename_i bare
    rw [splitPath, if_pos bare]
    rcases bare with rfl | rfl
    · simp
    · rw [List.drop_eq_nil_of_le (by decide)]
      simp
  · rename_i full
    have behind : (path.drop (if path.head? = some slash then 1 else 0 : UInt32).toNat) =
        (after? slash path).getD path := by
      by_cases leading : path.head? = some slash
      · obtain ⟨rest, rfl⟩ := List.head?_eq_some_iff.mp leading
        rw [if_pos leading, after?, if_pos rfl]
        rfl
      · rw [if_neg leading, after?_getD_of_relative leading]
        rfl
    rw [splitPath_of_full full, ← behind]
    constructor
    · exact fun h => ⟨fun far => not_cuts_of_far_slash far _ h, h.eq_splitOn⟩
    · rintro ⟨near, rfl⟩
      exact cuts_splitOn near _

theorem not_mem_drop_of_short (short : path.length < UInt32.size) :
    slash ∉ path.drop (UInt32.size - 1) := by
  rw [List.drop_eq_nil_of_le (by omega)]
  exact List.not_mem_nil

theorem splitPath_slash_join (other : parts ≠ [[]]) (plain : ∀ part ∈ parts, slash ∉ part) :
    splitPath (slash :: join "/" parts) = parts := by
  cases parts with
  | nil => rfl
  | cons part parts =>
    have cut : (join "/" (part :: parts)).splitOn slash = part :: parts :=
      List.splitOn_intercalate slash plain (List.cons_ne_nil _ _)
    rw [splitPath_of_full]
    · exact cut
    · intro bare
      have empty : join "/" (part :: parts) = [] := by simpa using bare
      rw [empty] at cut
      exact other cut.symm

end

theorem splitPath_inverts_join :
    (∀ path : Bytes, path.length < UInt32.size →
      (∀ parts, CutInto path parts ↔ parts = splitPath path) ∧
      (path = [] ∨ path = [slash] → splitPath path = []) ∧
      (¬(path = [] ∨ path = [slash]) →
        (∀ part ∈ splitPath path, slash ∉ part) ∧
        (∀ rest, path = slash :: rest → join "/" (splitPath path) = rest) ∧
        (path.head? ≠ some slash → join "/" (splitPath path) = path))) ∧
    (∀ parts : List Bytes, parts ≠ [[]] → (∀ part ∈ parts, slash ∉ part) →
      splitPath (slash :: join "/" parts) = parts) ∧
    ∀ path parts,
      CutInto path parts ↔ slash ∉ path.drop (UInt32.size - 1) ∧ parts = splitPath path := by
  refine ⟨fun path short => ⟨fun parts => ?_, fun bare => if_pos bare, ?_⟩,
    fun parts => splitPath_slash_join, fun path parts => cutInto_iff⟩
  · rw [cutInto_iff]
    exact and_iff_right (not_mem_drop_of_short short)
  intro full
  rw [splitPath_of_full full]
  refine ⟨fun part => not_mem_of_mem_splitOn, ?_, fun relative => ?_⟩
  · rintro rest rfl
    exact List.intercalate_splitOn slash
  · rw [after?_getD_of_relative relative]
    exact List.intercalate_splitOn slash

def doubledParts : List Bytes := [ascii "a", [], ascii "b", []]

theorem splitPath_inverts_join_doubled :
    (ascii "/a//b/").length < UInt32.size ∧ CutInto (ascii "/a//b/") doubledParts ∧
      splitPath (ascii "/a//b/") = doubledParts ∧ (∀ part ∈ doubledParts, slash ∉ part) ∧
      join "/" doubledParts = ascii "a//b/" ∧ doubledParts ≠ [[]] ∧
      splitPath (slash :: join "/" doubledParts) = doubledParts := by
  have short : (ascii "/a//b/").length < UInt32.size := by decide
  have parts : splitPath (ascii "/a//b/") = doubledParts := by decide
  obtain ⟨cuts, -, full⟩ := splitPath_inverts_join.1 (ascii "/a//b/") short
  obtain ⟨plain, leading, -⟩ := full (by decide)
  rw [parts] at cuts plain leading
  exact ⟨short, (cuts _).mpr rfl, parts, plain, leading _ rfl, by decide,
    splitPath_inverts_join.2.1 doubledParts (by decide) plain⟩

end HttpRouting
