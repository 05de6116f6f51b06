import HttpRouting.Http.Method

namespace HttpRouting

namespace Method

theorem ne_unknown {m : Method} (hm : m ∈ named) : m ≠ unknown := by
  rintro rfl
  exact absurd hm (by decide)

theorem eq_of_fnv1a_name {m m' : Method} (hm : m ∈ named) (hm' : m' ∈ named)
    (same : fnv1a (ascii m.name) = fnv1a (ascii m'.name)) : m = m' := by
  have apart : ∀ m ∈ named, ∀ m' ∈ named,
      fnv1a (ascii m.name) = fnv1a (ascii m'.name) → m = m' := by decide
  exact apart m hm m' hm' same

theorem ofName_eq_unknown_iff {s : Bytes} :
    ofName s = unknown ↔ ∀ m ∈ named, fnv1a (ascii m.name) ≠ fnv1a s := by
  rw [ofName]
  cases found : named.find? fun m => fnv1a (ascii m.name) = fnv1a s with
  | none =>
    rw [List.find?_eq_none] at found
    simpa using found
  | some m =>
    have hm := List.mem_of_find?_eq_some found
    have same := List.find?_some found
    rw [decide_eq_true_eq] at same
    constructor
    · exact fun unknown => absurd unknown (ne_unknown hm)
    · exact fun apart => absurd same (apart m hm)

theorem ofName_eq_iff {m : Method} (hm : m ∈ named) {s : Bytes} :
    ofName s = m ↔ fnv1a (ascii m.name) = fnv1a s := by
  rw [ofName]
  cases found : named.find? fun m => fnv1a (ascii m.name) = fnv1a s with
  | none =>
    rw [List.find?_eq_none] at found
    have apart : fnv1a (ascii m.name) ≠ fnv1a s := by simpa using found m hm
    constructor
    · exact fun unknown => absurd unknown.symm (ne_unknown hm)
    · exact fun same => absurd same apart
  | some m' =>
    have same := List.find?_some found
    rw [decide_eq_true_eq] at same
    constructor
    · rintro rfl
      exact same
    · exact fun same' =>
        eq_of_fnv1a_name (List.mem_of_find?_eq_some found) hm (same.trans same'.symm)

theorem ofName_name {m : Method} (hm : m ∈ named) : ofName (ascii m.name) = m :=
  (ofName_eq_iff hm).mpr rfl

structure Exact (s : Bytes) : Prop where
  recognised : ofName s ≠ unknown ↔ ∃ m ∈ named, s = ascii m.name
  named : ofName s ≠ unknown → ascii (ofName s).name = s

theorem recognised_exactly_iff (s : Bytes) :
    Exact s ↔ (∃ m ∈ named, s = ascii m.name) ∨ ∀ m ∈ named, fnv1a (ascii m.name) ≠ fnv1a s := by
  constructor
  · intro h
    by_cases known : ofName s = unknown
    · exact .inr (ofName_eq_unknown_iff.mp known)
    · exact .inl (h.recognised.mp known)
  · rintro (⟨m, hm, rfl⟩ | apart)
    · have name := ofName_name hm
      have known : ofName (ascii m.name) ≠ unknown := by
        rw [name]
        exact ne_unknown hm
      exact ⟨⟨fun _ => ⟨m, hm, rfl⟩, fun _ => known⟩, fun _ => by rw [name]⟩
    · have unknown := ofName_eq_unknown_iff.mpr apart
      refine ⟨⟨fun known => absurd unknown known, ?_⟩, fun known => absurd unknown known⟩
      rintro ⟨m, hm, rfl⟩
      exact absurd rfl (apart m hm)

theorem not_exact {m : Method} (hm : m ∈ named) {s : Bytes} (taken : ofName s = m)
    (strange : ascii m.name ≠ s) : ¬Exact s := by
  subst taken
  exact fun exact => strange (exact.named (ne_unknown hm))

theorem ofName_takes_stranger :
    ofName (ascii "HIFEADK") = get ∧ ascii get.name ≠ ascii "HIFEADK" ∧
      ¬Exact (ascii "HIFEADK") := by
  have taken : ofName (ascii "HIFEADK") = get := by decide
  have strange : ascii get.name ≠ ascii "HIFEADK" := by decide
  exact ⟨taken, strange, not_exact (by decide) taken strange⟩

end Method

end HttpRouting
