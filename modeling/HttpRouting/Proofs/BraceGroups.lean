import HttpRouting.Proofs.QuerySections

namespace HttpRouting

open Byte Bytes

namespace Template

def unhidden (hidden : Bool) : Bytes → Bytes
  | [] => []
  | b :: s => if hidden then unhidden false s else b :: unhidden (b = backslash) s

def surplus (hidden : Bool) (s : Bytes) : Int :=
  (unhidden hidden s).count leftBrace - (unhidden hidden s).count rightBrace

structure ClosedAt (source : Bytes) (k j : Nat) : Prop where
  after : k < j
  inside : j < source.length
  returns : surplus false (source.extract k (j + 1)) = 0
  first : ∀ i, k ≤ i → i < j → surplus false (source.extract k (i + 1)) ≠ 0

instance (source : Bytes) (k j : Nat) : Decidable (ClosedAt source k j) :=
  decidable_of_iff (k < j ∧ j < source.length ∧ surplus false (source.extract k (j + 1)) = 0 ∧
      ∀ i < j, k ≤ i → surplus false (source.extract k (i + 1)) ≠ 0)
    ⟨fun ⟨after, inside, returns, first⟩ =>
        ⟨after, inside, returns, fun i onward before => first i before onward⟩,
      fun h => ⟨h.after, h.inside, h.returns, fun i before onward => h.first i onward before⟩⟩

def ReadsTo (source : Bytes) (k i : Nat) : Prop :=
  ∃ depth escaped,
    balanced 0 false (source.drop (k + 1)) =
      (balanced depth escaped (source.drop i)).map
        (fun p => (source.extract (k + 1) i ++ p.1, p.2)) ∧
    surplus false (source.extract k i) = depth + 1

def braceRun (depth : Nat) (escaped : Bool) : Bytes → Option (Nat × Bool)
  | [] => some (depth, escaped)
  | b :: s => (braceStep depth escaped b).bind fun p => braceRun p.1 p.2 s

section

variable {depth depth' : Nat} {escaped escaped' : Bool} {b : UInt8} {s t text rest : Bytes}
  {p : Nat × Bool}

theorem braceStep_eq_none (h : braceStep depth escaped b = none) :
    depth = 0 ∧ escaped = false ∧ b = rightBrace := by
  grind [braceStep]

theorem surplus_nil (hidden : Bool) : surplus hidden [] = 0 := rfl

theorem surplus_hidden (b : UInt8) (s : Bytes) : surplus true (b :: s) = surplus false s := rfl

theorem surplus_leftBrace (s : Bytes) :
    surplus false (leftBrace :: s) = 1 + surplus false s := by
  have sight : unhidden false (leftBrace :: s) = leftBrace :: unhidden false s := rfl
  rw [surplus, surplus, sight, List.count_cons_self,
    List.count_cons_of_ne (show leftBrace ≠ rightBrace by decide)]
  omega

theorem surplus_rightBrace (s : Bytes) :
    surplus false (rightBrace :: s) = surplus false s - 1 := by
  have sight : unhidden false (rightBrace :: s) = rightBrace :: unhidden false s := rfl
  rw [surplus, surplus, sight, List.count_cons_self,
    List.count_cons_of_ne (show rightBrace ≠ leftBrace by decide)]
  omega

theorem surplus_byte (opens : b ≠ leftBrace) (closes : b ≠ rightBrace) (s : Bytes) :
    surplus false (b :: s) = surplus (b = backslash) s := by
  have sight : unhidden false (b :: s) = b :: unhidden (b = backslash) s := rfl
  rw [surplus, surplus, sight, List.count_cons_of_ne opens, List.count_cons_of_ne closes]

theorem braceStep_surplus (h : braceStep depth escaped b = some (depth', escaped')) (s : Bytes) :
    depth + surplus escaped (b :: s) = depth' + surplus escaped' s := by
  cases escaped with
  | true =>
    cases h
    rw [surplus_hidden]
  | false =>
    by_cases mark : b = backslash
    · subst mark
      cases h
      rw [surplus_byte (by decide) (by decide)]
      rfl
    · by_cases opens : b = leftBrace
      · subst opens
        cases h
        rw [surplus_leftBrace]
        omega
      · by_cases closes : b = rightBrace
        · subst closes
          cases depth with
          | zero => cases h
          | succ depth =>
            cases h
            rw [surplus_rightBrace]
            omega
        · have stays : braceStep depth false b = some (depth, false) := by
            simp [braceStep, mark, opens, closes]
          cases stays.symm.trans h
          rw [surplus_byte opens closes, decide_eq_false mark]

theorem braceRun_append (depth : Nat) (escaped : Bool) (s t : Bytes) :
    braceRun depth escaped (s ++ t) =
      (braceRun depth escaped s).bind fun p => braceRun p.1 p.2 t := by
  induction s generalizing depth escaped with
  | nil => rfl
  | cons b s ih =>
    rw [List.cons_append, braceRun, braceRun, Option.bind_assoc]
    exact congrArg _ (funext fun p => ih p.1 p.2)

theorem braceRun_surplus (h : braceRun depth escaped s = some (depth', escaped')) (t : Bytes) :
    depth + surplus escaped (s ++ t) = depth' + surplus escaped' t := by
  induction s generalizing depth escaped with
  | nil =>
    cases h
    rfl
  | cons b s ih =>
    obtain ⟨⟨depth'', escaped''⟩, step, run⟩ := Option.bind_eq_some_iff.mp h
    rw [List.cons_append, braceStep_surplus step, ih run]

theorem balanced_append (h : braceRun depth escaped s = some (depth', escaped')) (t : Bytes) :
    balanced depth escaped (s ++ t) =
      (balanced depth' escaped' t).map fun p => (s ++ p.1, p.2) := by
  induction s generalizing depth escaped with
  | nil =>
    cases h
    simp
  | cons b s ih =>
    obtain ⟨⟨depth'', escaped''⟩, step, run⟩ := Option.bind_eq_some_iff.mp h
    rw [List.cons_append, balanced_cons, step]
    simp only [ih run, Option.map_map, Function.comp_def, List.cons_append]

theorem braceRun_of_balanced (h : balanced depth escaped t = some (text, rest)) :
    t = text ++ rightBrace :: rest ∧ braceRun depth escaped text = some (0, false) := by
  induction t generalizing depth escaped text with
  | nil => cases h
  | cons b t ih =>
    rw [balanced_cons] at h
    cases step : braceStep depth escaped b with
    | none =>
      obtain ⟨rfl, rfl, rfl⟩ := braceStep_eq_none step
      rw [step] at h
      cases h
      exact ⟨rfl, rfl⟩
    | some p =>
      rw [step] at h
      obtain ⟨⟨text', rest'⟩, read, same⟩ := Option.map_eq_some_iff.mp h
      cases same
      obtain ⟨rfl, run⟩ := ih read
      refine ⟨rfl, ?_⟩
      rw [braceRun, step]
      exact run

theorem braceRun_of_unbalanced (h : balanced depth escaped t = none) :
    ∃ p, braceRun depth escaped t = some p := by
  induction t generalizing depth escaped with
  | nil => exact ⟨_, rfl⟩
  | cons b t ih =>
    rw [balanced_cons] at h
    cases step : braceStep depth escaped b with
    | none =>
      rw [step] at h
      cases h
    | some p =>
      rw [step] at h
      rw [braceRun, step]
      exact ih (Option.map_eq_none_iff.mp h)

theorem surplus_of_braceRun (h : braceRun 0 false s = some (depth, escaped)) :
    surplus false (leftBrace :: s) = depth + 1 := by
  -- The group itself is open as long as it is read.
  have counted := braceRun_surplus h []
  rw [List.append_nil, surplus_nil] at counted
  rw [surplus_leftBrace]
  omega

theorem surplus_closed (h : braceRun 0 false s = some (0, false)) :
    surplus false (leftBrace :: (s ++ [rightBrace])) = 0 := by
  have counted := braceRun_surplus h [rightBrace]
  rw [surplus_rightBrace, surplus_nil] at counted
  rw [surplus_leftBrace]
  omega

theorem braceRun_take (h : braceRun depth escaped s = some p) (m : Nat) :
    ∃ p', braceRun depth escaped (s.take m) = some p' := by
  rw [← List.take_append_drop m s, braceRun_append] at h
  obtain ⟨p', before, -⟩ := Option.bind_eq_some_iff.mp h
  exact ⟨p', before⟩

end

section

variable {source text rest : Bytes} {k j j' i m : Nat}

theorem extract_of_opens (opens : source[k]? = some leftBrace) (m : Nat) :
    source.extract k (k + 1 + m) = leftBrace :: (source.drop (k + 1)).take m := by
  obtain ⟨inside, here⟩ := List.getElem?_eq_some_iff.mp opens
  rw [List.extract_eq_take_drop, List.drop_eq_getElem_cons inside, here,
    show k + 1 + m - k = m + 1 by omega, List.take_succ_cons]

theorem extract_after (m : Nat) :
    source.extract (k + 1) (k + 1 + m) = (source.drop (k + 1)).take m := by
  rw [List.extract_eq_take_drop, Nat.add_sub_cancel_left]

theorem ClosedAt.unique (h : ClosedAt source k j) (h' : ClosedAt source k j') : j = j' := by
  rcases Nat.lt_trichotomy j j' with earlier | same | later
  · exact absurd h.returns (h'.first j (Nat.le_of_lt h.after) earlier)
  · exact same
  · exact absurd h'.returns (h.first j' (Nat.le_of_lt h'.after) later)

theorem readsTo_of_braceRun (opens : source[k]? = some leftBrace) {p : Nat × Bool}
    (h : braceRun 0 false ((source.drop (k + 1)).take m) = some p) :
    ReadsTo source k (k + 1 + m) := by
  refine ⟨p.1, p.2, ?_, ?_⟩
  · have ahead : source.drop (k + 1 + m) = (source.drop (k + 1)).drop m := List.drop_drop.symm
    rw [extract_after, ahead, ← balanced_append h, List.take_append_drop]
  · rw [extract_of_opens opens, surplus_of_braceRun h]

theorem readsTo_of_balanced (opens : source[k]? = some leftBrace)
    (h : balanced 0 false (source.drop (k + 1)) = some (text, rest)) (after : k < i)
    (within : i ≤ k + 1 + text.length) : ReadsTo source k i := by
  obtain ⟨m, rfl⟩ := Nat.exists_eq_add_of_le (show k + 1 ≤ i from after)
  obtain ⟨cut, run⟩ := braceRun_of_balanced h
  obtain ⟨p, run⟩ := braceRun_take run m
  have short : (source.drop (k + 1)).take m = text.take m := by
    rw [cut, List.take_append_of_le_length (by omega)]
  exact readsTo_of_braceRun opens (short ▸ run)

theorem readsTo_of_unbalanced (opens : source[k]? = some leftBrace)
    (h : balanced 0 false (source.drop (k + 1)) = none) (after : k < i) :
    ReadsTo source k i := by
  obtain ⟨m, rfl⟩ := Nat.exists_eq_add_of_le (show k + 1 ≤ i from after)
  obtain ⟨p, run⟩ := braceRun_of_unbalanced h
  obtain ⟨p', run⟩ := braceRun_take run m
  exact readsTo_of_braceRun opens run

theorem ReadsTo.surplus_ne_zero (h : ReadsTo source k i) :
    surplus false (source.extract k i) ≠ 0 := by
  obtain ⟨depth, escaped, -, counted⟩ := h
  omega

theorem closedAt_of_balanced (opens : source[k]? = some leftBrace)
    (h : balanced 0 false (source.drop (k + 1)) = some (text, rest)) :
    ClosedAt source k (k + 1 + text.length) := by
  obtain ⟨cut, run⟩ := braceRun_of_balanced h
  have length := congrArg List.length cut
  rw [List.length_drop, List.length_append, List.length_cons] at length
  refine ⟨by omega, by omega, ?_, fun i after before => ?_⟩
  · rw [Nat.add_assoc, extract_of_opens opens, cut, List.take_length_add_append]
    exact surplus_closed run
  · exact (readsTo_of_balanced opens h (Nat.lt_succ_of_le after) before).surplus_ne_zero

theorem text_of_closedAt (opens : source[k]? = some leftBrace) (h : ClosedAt source k j) :
    ∃ text rest, balanced 0 false (source.drop (k + 1)) = some (text, rest) ∧
      j = k + 1 + text.length := by
  cases read : balanced 0 false (source.drop (k + 1)) with
  | none =>
    have reads := readsTo_of_unbalanced opens read (Nat.lt_succ_of_lt h.after)
    exact absurd h.returns reads.surplus_ne_zero
  | some p => exact ⟨p.1, p.2, rfl, h.unique (closedAt_of_balanced opens read)⟩

theorem balanced_of_closedAt (opens : source[k]? = some leftBrace) (h : ClosedAt source k j) :
    balanced 0 false (source.drop (k + 1)) =
      some (source.extract (k + 1) j, source.drop (j + 1)) ∧ source[j]? = some rightBrace := by
  obtain ⟨text, rest, read, rfl⟩ := text_of_closedAt opens h
  have cut := (braceRun_of_balanced read).1
  have behind : source.drop (k + 1 + text.length + 1) = rest := by
    rw [Nat.add_assoc, ← List.drop_drop, cut, List.drop_length_add_append]
    rfl
  refine ⟨?_, ?_⟩
  · rw [read, extract_after, behind, cut, List.take_left]
  · rw [← List.getElem?_drop, cut, List.getElem?_append_right (Nat.le_refl _), Nat.sub_self]
    rfl

theorem braced_unclosed (opens : source[k]? = some leftBrace)
    (h : balanced 0 false (source.drop (k + 1)) = none) :
    (braced (source.drop k)).mapError (·.locate source) =
      .error ⟨.unclosedBrace, source.drop k, k⟩ := by
  obtain ⟨inside, -⟩ := List.getElem?_eq_some_iff.mp opens
  have place : source.length - (source.drop k).length = k := by
    rw [List.length_drop]
    omega
  have length : max ((source.drop k).length - 0) 1 = (source.drop k).length := by
    rw [List.length_drop]
    omega
  rw [braced, List.tail_drop, h]
  change Except.error (Blame.locate source (.between .unclosedBrace (source.drop k) [])) = _
  rw [Blame.between, Blame.locate, place, List.length_nil, length]
  simp only [List.take_length]

end

theorem group_read_verbatim (source : Bytes) (k : Nat) (opens : source[k]? = some leftBrace) :
    (∀ j, ClosedAt source k j →
      source[j]? = some rightBrace ∧
      balanced 0 false (source.drop (k + 1)) =
        some (source.extract (k + 1) j, source.drop (j + 1)) ∧
      (∀ p, Pattern.compile? (source.extract (k + 1) j) = some p →
        braced (source.drop k) = .ok (p, source.drop (j + 1))) ∧
      (Pattern.compile? (source.extract (k + 1) j) = none →
        braced (source.drop k) =
          .error (.quoting .invalidPattern (source.drop k) (source.extract (k + 1) j))) ∧
      ∀ i, k < i → i ≤ j → ReadsTo source k i) ∧
    ((¬∃ j, ClosedAt source k j) →
      (∃ e, (braced (source.drop k)).mapError (·.locate source) = .error e ∧
        e.fault.text = "Unclosed '\x7b'" ∧ e.position = k ∧ e.fragment = source.drop k) ∧
      ∀ i, k < i → i ≤ source.length → ReadsTo source k i) := by
  constructor
  · intro j closed
    obtain ⟨read, brace⟩ := balanced_of_closedAt opens closed
    refine ⟨brace, read, fun p compiled => ?_, fun malformed => ?_, fun i after within => ?_⟩
    · rw [braced, List.tail_drop, read]
      simp only [compiled]
      rfl
    · rw [braced, List.tail_drop, read]
      simp only [malformed]
      rfl
    · obtain ⟨text, rest, whole, rfl⟩ := text_of_closedAt opens closed
      exact readsTo_of_balanced opens whole after within
  · intro never
    cases read : balanced 0 false (source.drop (k + 1)) with
    | none =>
      exact ⟨⟨_, braced_unclosed opens read, rfl, rfl, rfl⟩,
        fun i after _ => readsTo_of_unbalanced opens read after⟩
    | some p => exact absurd ⟨_, closedAt_of_balanced opens read⟩ never

def crookedGroups : Bytes :=
  ascii "/<c:\x7b\\\x7d[\x7b]x\x7d\x7d>?q=\x7ba\\\x7d"

theorem group_read_verbatim_crooked :
    crookedGroups[4]? = some leftBrace ∧ ClosedAt crookedGroups 4 12 ∧
      balanced 0 false (crookedGroups.drop 5) =
        some (ascii "\\\x7d[\x7b]x\x7d", ascii ">?q=\x7ba\\\x7d") ∧
      ReadsTo crookedGroups 4 9 ∧
      crookedGroups[17]? = some leftBrace ∧ (¬∃ j, ClosedAt crookedGroups 17 j) ∧
      ∃ e, (braced (crookedGroups.drop 17)).mapError (·.locate crookedGroups) = .error e ∧
        e.position = 17 ∧ e.fragment = ascii "\x7ba\\\x7d" := by
  have opens : crookedGroups[4]? = some leftBrace := by decide
  have closed : ClosedAt crookedGroups 4 12 := by decide
  have opens' : crookedGroups[17]? = some leftBrace := by decide
  have inside : ∀ j < crookedGroups.length, ¬ClosedAt crookedGroups 17 j := by decide
  have never : ¬∃ j, ClosedAt crookedGroups 17 j := fun ⟨j, h⟩ => inside j h.inside h
  obtain ⟨-, read, -, -, reads⟩ := (group_read_verbatim crookedGroups 4 opens).1 12 closed
  obtain ⟨⟨e, failed, -, place, fragment⟩, -⟩ :=
    (group_read_verbatim crookedGroups 17 opens').2 never
  exact ⟨opens, closed, read, reads 9 (by decide) (by decide), opens', never, e, failed, place,
    fragment⟩

end Template

end HttpRouting
