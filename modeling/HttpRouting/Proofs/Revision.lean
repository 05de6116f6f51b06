import HttpRouting.Proofs.Absorption

namespace HttpRouting

variable {σ : Type}

namespace Forest

def Current : Forest σ → Prop
  | nil => True
  | cons r children siblings => r.Current children ∧ children.Current ∧ siblings.Current

theorem offers_cons (r : Router σ) (children siblings : Forest σ) :
    (cons r children siblings).offers = r.offers ++ siblings.offers := List.flatMap_cons

theorem Current.offers_cover {f : Forest σ} (h : f.Current) {line : List (Router σ)}
    (hl : line ∈ f.lines) : (latest (spell line) f.offers).isSome := by
  induction f with
  | nil => cases hl
  | cons r children siblings _ ih =>
    obtain ⟨top, -, beside⟩ := h
    rw [lines_cons_split, List.mem_append] at hl
    rw [offers_cons, latest_append, Option.isSome_or]
    rcases hl with hl | hl
    · rw [top.offers_cover hl, Bool.or_true]
    · rw [ih beside hl, Bool.true_or]

theorem Current.offers_fresh {f : Forest σ} (h : f.Current) {k : Bytes} {e : Entry σ}
    (hk : latest k f.offers = some e) :
    ∃ line ∈ f.lines, spell line = k ∧ e = Entry.along line := by
  induction f with
  | nil => cases hk
  | cons r children siblings _ ih =>
    obtain ⟨top, -, beside⟩ := h
    rw [offers_cons, latest_append, Option.or_eq_some_iff] at hk
    rw [lines_cons_split]
    rcases hk with hk | ⟨-, hk⟩
    · obtain ⟨line, hl, spelled⟩ := ih beside hk
      exact ⟨line, List.mem_append_right _ hl, spelled⟩
    · obtain ⟨line, hl, spelled⟩ := top.offers_fresh hk
      exact ⟨line, List.mem_append_left _ hl, spelled⟩

structure Revised (old new : Forest σ) (top : Router σ) (below : Forest σ) : Prop where
  kept : ∀ line ∈ old.lines,
    line ∈ new.lines ∨ ∃ line' ∈ (cons top below nil).lines, spell line' = spell line
  gained : ∀ line ∈ (cons top below nil).lines, line ∈ new.lines
  known : ∀ line ∈ new.lines, line ∈ old.lines ∨ line ∈ (cons top below nil).lines

theorem Revised.first {r r' : Router σ} {children children' : Forest σ}
    (h : ∀ line ∈ (cons r children nil).lines,
      ∃ line' ∈ (cons r' children' nil).lines, spell line' = spell line) (siblings : Forest σ) :
    Revised (cons r children siblings) (cons r' children' siblings) r' children' where
  kept line hl := by
    rw [lines_cons_split, List.mem_append] at hl
    rcases hl with hl | hl
    · exact .inr (h line hl)
    · left
      rw [lines_cons_split]
      exact List.mem_append_right _ hl
  gained line hl := by
    rw [lines_cons_split]
    exact List.mem_append_left _ hl
  known line hl := by
    rw [lines_cons_split, List.mem_append] at hl ⊢
    rcases hl with hl | hl
    · exact .inr hl
    · exact .inl (.inr hl)

theorem Revised.beside {old new below : Forest σ} {top : Router σ} (h : Revised old new top below)
    (r : Router σ) (children : Forest σ) :
    Revised (cons r children old) (cons r children new) top below where
  kept line hl := by
    rw [lines_cons_split, List.mem_append] at hl ⊢
    rcases hl with hl | hl
    · exact .inl (.inl hl)
    · exact (h.kept line hl).imp_left .inr
  gained line hl := by
    rw [lines_cons_split]
    exact List.mem_append_right _ (h.gained line hl)
  known line hl := by
    rw [lines_cons_split, List.mem_append] at hl ⊢
    rcases hl with hl | hl
    · exact .inl (.inl hl)
    · exact (h.known line hl).imp_left .inr

theorem Revised.above {old new below : Forest σ} {top : Router σ} (h : Revised old new top below)
    {r r' : Router σ} (same : r'.bare = r.bare) :
    ∀ line ∈ (cons r old nil).lines,
      ∃ line' ∈ (cons r' new nil).lines, spell line' = spell line := by
  intro line hl
  rw [lines_congr same]
  rcases mem_lines_cons.mp hl with ⟨served, rfl⟩ | ⟨rest, hr, rfl⟩ | hl
  · exact ⟨_, mem_lines_cons.mpr (.inl ⟨served, rfl⟩), rfl⟩
  · rcases h.kept rest hr with hr | ⟨rest', hr, spelled⟩
    · exact ⟨_, mem_lines_cons.mpr (.inr (.inl ⟨rest, hr, rfl⟩)), rfl⟩
    · refine ⟨r.bare :: rest', ?_, by rw [spell_cons, spelled, spell_cons]⟩
      exact mem_lines_cons.mpr (.inr (.inl ⟨rest', h.gained rest' hr, rfl⟩))
  · cases hl

end Forest

open Forest

theorem Router.Current.absorb {r top : Router σ} {old new below : Forest σ} (h : r.Current old)
    (rev : Revised old new top below) (ht : top.Current below) :
    (r.absorb top).value.Current new := by
  have above (line : List (Router σ)) :
      Entry.along ((r.absorb top).value :: line) = Entry.along (r :: line) := by
    rw [← along_bare, bare_absorb, along_bare]
  constructor
  · intro line hl
    rw [find?_absorb, Option.isSome_or, Option.isSome_map]
    rcases rev.known line hl with hl | hl
    · rw [h.covers line hl, Bool.or_true]
    · rw [ht.offers_cover hl, Bool.true_or]
  · intro k e hk
    rw [find?_absorb, Option.or_eq_some_iff] at hk
    rcases hk with hk | ⟨none, hk⟩
    · obtain ⟨e, offered, rfl⟩ := Option.map_eq_some_iff.mp hk
      obtain ⟨line, hl, spelled, rfl⟩ := ht.offers_fresh offered
      refine ⟨line, rev.gained line hl, spelled, ?_⟩
      rw [above, extend_along r (ne_nil_of_mem_lines hl)]
    · obtain ⟨line, hl, rfl, rfl⟩ := h.fresh k e hk
      rcases rev.kept line hl with hl | ⟨line', hl, spelled⟩
      · exact ⟨line, hl, rfl, (above line).symm⟩
      -- The line has gone from the forest, so the child offers its key and the entry is replaced.
      · have offered := ht.offers_cover hl
        rw [spelled, ← Option.isSome_map, none] at offered
        cases offered

theorem Router.current_absorbAll {r : Router σ} {children : Forest σ} (h : children.Current)
    (keys : ∀ k e, r.routes.find? k = some e → ∃ line ∈ children.lines, spell line = k) :
    (r.absorbAll children.roots).Current children := by
  constructor
  · intro line hl
    rw [find?_absorbAll, Option.isSome_or, Option.isSome_map]
    change (latest _ children.offers).isSome || _
    rw [h.offers_cover hl, Bool.true_or]
  · intro k e hk
    rw [find?_absorbAll, Option.or_eq_some_iff] at hk
    rcases hk with hk | ⟨none, hk⟩
    · obtain ⟨e, offered, rfl⟩ := Option.map_eq_some_iff.mp hk
      obtain ⟨line, hl, spelled, rfl⟩ := h.offers_fresh offered
      refine ⟨line, hl, spelled, ?_⟩
      rw [← along_bare (r.absorbAll _), bare_absorbAll, along_bare,
        extend_along r (ne_nil_of_mem_lines hl)]
    · obtain ⟨line, hl, rfl⟩ := keys k e hk
      have offered := h.offers_cover hl
      change (latest _ children.offers).map _ = _ at none
      rw [← Option.isSome_map, none] at offered
      cases offered

namespace Forest

theorem revise_cons {change : Router σ → Forest σ → Noted (Router σ × Forest σ)} {id : Nat}
    {r : Router σ} {children siblings : Forest σ} {revision : Noted (Revision σ)}
    (h : (cons r children siblings).revise change id = some revision) :
    (r.ident = id ∧ revision.value =
        ⟨cons (change r children).value.1 (change r children).value.2 siblings,
          (change r children).value.1⟩) ∨
      (r.ident ≠ id ∧ ∃ below, children.revise change id = some below ∧ revision.value =
        ⟨cons (r.absorb below.value.top).value below.value.forest siblings,
          (r.absorb below.value.top).value⟩) ∨
      (r.ident ≠ id ∧ children.revise change id = none ∧
        ∃ beside, siblings.revise change id = some beside ∧ revision.value =
          ⟨cons r children beside.value.forest, beside.value.top⟩) := by
  rw [revise] at h
  split at h
  · rename_i here
    cases h
    exact .inl ⟨here, rfl⟩
  · rename_i elsewhere
    split at h
    · rename_i below found
      cases h
      exact .inr (.inl ⟨elsewhere, below, found, rfl⟩)
    · rename_i missing
      obtain ⟨beside, found, rfl⟩ := Option.map_eq_some_iff.mp h
      exact .inr (.inr ⟨elsewhere, missing, beside, found, rfl⟩)

structure Keeps (change : Router σ → Forest σ → Noted (Router σ × Forest σ)) : Prop where
  current : ∀ r children, r.Current children → children.Current →
    (change r children).value.1.Current (change r children).value.2 ∧
      (change r children).value.2.Current
  spelled : ∀ r children, ∀ line ∈ (cons r children nil).lines,
    ∃ line' ∈ (cons (change r children).value.1 (change r children).value.2 nil).lines,
      spell line' = spell line

theorem Keeps.revise {change : Router σ → Forest σ → Noted (Router σ × Forest σ)}
    (keeps : Keeps change) {id : Nat} {f : Forest σ} (hf : f.Current)
    {revision : Noted (Revision σ)} (h : f.revise change id = some revision) :
    revision.value.forest.Current ∧ ∃ below, revision.value.top.Current below ∧
      Revised f revision.value.forest revision.value.top below := by
  induction f generalizing revision with
  | nil => cases h
  | cons r children siblings ihc ihs =>
    obtain ⟨top, under, beside⟩ := hf
    rcases revise_cons h with ⟨-, value⟩ | ⟨-, below, found, value⟩ | ⟨-, -, revised, found, value⟩
    all_goals rw [value]
    · obtain ⟨top', under'⟩ := keeps.current r children top under
      exact ⟨⟨top', under', beside⟩, _, top', .first (keeps.spelled r children) siblings⟩
    · obtain ⟨under', bottom, hb, rev⟩ := ihc under found
      have top' := top.absorb rev hb
      exact ⟨⟨top', under', beside⟩, _, top',
        .first (rev.above (Router.bare_absorb r below.value.top)) siblings⟩
    · obtain ⟨beside', bottom, hb, rev⟩ := ihs beside found
      exact ⟨⟨top, under, beside'⟩, bottom, hb, rev.beside r children⟩

theorem Keeps.declare {change : Router σ → Forest σ → Noted (Router σ × Forest σ)}
    (keeps : Keeps change) {f : Forest σ} (hf : f.Current) (id : Nat) :
    (f.declare id change).forest.Current := by
  rw [Forest.declare]
  split
  · exact hf
  · rename_i revision found
    exact (keeps.revise hf found).1

end Forest

end HttpRouting
