import HttpRouting.Proofs.Revision

namespace HttpRouting

open Router

variable {σ : Type}

def Router.redeclare (id : Nat) (g : Router σ → Router σ) (r : Router σ) : Router σ :=
  if r.ident = id then g r else r

namespace Forest

def routers : Forest σ → List (Router σ)
  | nil => []
  | cons r children siblings => r.bare :: (children.routers ++ siblings.routers)

def idents (f : Forest σ) : List Nat := f.routers.map (·.ident)

theorem idents_cons (r : Router σ) (children siblings : Forest σ) :
    (cons r children siblings).idents = r.ident :: (children.idents ++ siblings.idents) := by
  rw [idents, routers, List.map_cons, List.map_append]
  rfl

def tops (f : Forest σ) : List Nat := f.roots.map (·.ident)

theorem tops_cons (r : Router σ) (children siblings : Forest σ) :
    (cons r children siblings).tops = r.ident :: siblings.tops := rfl

theorem tops_append (f g : Forest σ) : (f.append g).tops = f.tops ++ g.tops := by
  induction f with
  | nil => rfl
  | cons r children siblings _ ih => rw [append, tops_cons, ih, tops_cons, List.cons_append]

theorem ident_absorbAll (r : Router σ) (children : List (Router σ)) :
    (r.absorbAll children).ident = r.ident := by
  rw [← bare_ident, bare_absorbAll, bare_ident]

theorem tops_rebuild (f : Forest σ) : f.rebuild.value.tops = f.tops := by
  induction f with
  | nil => rfl
  | cons r children siblings _ ih =>
    change (r.absorbAll children.rebuild.value.roots).ident :: siblings.rebuild.value.tops = _
    rw [ident_absorbAll, ih, tops_cons]

def rows : Forest σ → List (Router σ × List Nat)
  | nil => []
  | cons r children siblings => (r.bare, children.tops) :: (children.rows ++ siblings.rows)

theorem map_rows (f : Forest σ) : f.rows.map (·.1) = f.routers := by
  induction f with
  | nil => rfl
  | cons r children siblings ihc ihs =>
    rw [rows, List.map_cons, List.map_append, ihc, ihs, routers]

theorem map_ident_rows (f : Forest σ) : f.rows.map (·.1.ident) = f.idents := by
  rw [idents, ← map_rows, List.map_map]
  rfl

theorem rows_append (f g : Forest σ) : (f.append g).rows = f.rows ++ g.rows := by
  induction f with
  | nil => rfl
  | cons r children siblings _ ih =>
    rw [append, rows, rows, ih, List.cons_append, List.append_assoc]

theorem rows_rebuild (f : Forest σ) : f.rebuild.value.rows = f.rows := by
  induction f with
  | nil => rfl
  | cons r children siblings ihc ihs =>
    change ((r.absorbAll children.rebuild.value.roots).bare, children.rebuild.value.tops) ::
      (children.rebuild.value.rows ++ siblings.rebuild.value.rows) = _
    rw [bare_absorbAll, tops_rebuild, ihc, ihs, rows]

theorem contains_iff {f : Forest σ} {id : Nat} : f.contains id = true ↔ id ∈ f.idents := by
  induction f with
  | nil => simp [contains, tree?, idents, routers]
  | cons r children siblings ihc ihs =>
    rw [contains, tree?_cons, idents_cons, List.mem_cons, List.mem_append, ← ihc, ← ihs]
    by_cases here : r.ident = id
    · simp [here]
    · rw [if_neg here, Option.isSome_or, Bool.or_eq_true, contains, contains]
      simp [Ne.symm here]

theorem tree?_eq_none_iff {f : Forest σ} {id : Nat} : f.tree? id = none ↔ id ∉ f.idents := by
  rw [← contains_iff, contains, Bool.not_eq_true, Option.isSome_eq_false_iff,
    Option.isNone_iff_eq_none]

theorem mem_idents_of_tree? {f : Forest σ} {id : Nat} {tree : Router σ × Forest σ}
    (found : f.tree? id = some tree) : id ∈ f.idents := by
  rw [← contains_iff, contains, found]
  rfl

theorem tree?_of_mem_children {r : Router σ} {children : Forest σ} (siblings : Forest σ) {id : Nat}
    (absent : r.ident ∉ children.idents) (inside : id ∈ children.idents) :
    (cons r children siblings).tree? id = children.tree? id := by
  have elsewhere : r.ident ≠ id := fun same => absent (same ▸ inside)
  obtain ⟨tree, found⟩ := Option.ne_none_iff_exists'.mp
    (mt tree?_eq_none_iff.mp (Decidable.not_not.mpr inside))
  rw [tree?_cons, if_neg elsewhere, found, Option.some_or]

theorem tree?_of_not_mem_children {r : Router σ} {children : Forest σ} (siblings : Forest σ)
    {id : Nat} (elsewhere : r.ident ≠ id) (outside : id ∉ children.idents) :
    (cons r children siblings).tree? id = siblings.tree? id := by
  rw [tree?_cons, if_neg elsewhere, tree?_eq_none_iff.mpr outside, Option.none_or]

theorem revise_eq_none_iff {change : Router σ → Forest σ → Noted (Router σ × Forest σ)}
    {f : Forest σ} {id : Nat} : f.revise change id = none ↔ id ∉ f.idents := by
  induction f with
  | nil => simp [revise, idents, routers]
  | cons r children siblings ihc ihs =>
    rw [idents_cons, List.mem_cons, List.mem_append, not_or, not_or, ← ihc, ← ihs, revise]
    by_cases here : r.ident = id
    · simp [here]
    · rw [if_neg here]
      cases children.revise change id with
      | some below => simp
      | none => simp [Ne.symm here]

theorem mem_idents_of_revise {change : Router σ → Forest σ → Noted (Router σ × Forest σ)}
    {f : Forest σ} {id : Nat} {revision : Noted (Revision σ)}
    (revised : f.revise change id = some revision) : id ∈ f.idents := by
  rw [← Decidable.not_not (p := id ∈ f.idents), ← revise_eq_none_iff, revised]
  exact Option.some_ne_none _

theorem declare_of_mem_idents (change : Router σ → Forest σ → Noted (Router σ × Forest σ))
    {f : Forest σ} {id : Nat} (inside : id ∈ f.idents) :
    ∃ revision, f.revise change id = some revision ∧
      (f.declare id change).forest = revision.value.forest := by
  have revises : f.revise change id ≠ none :=
    mt revise_eq_none_iff.mp (Decidable.not_not.mpr inside)
  obtain ⟨revision, revised⟩ := Option.ne_none_iff_exists'.mp revises
  exact ⟨revision, revised, by rw [declare, revised]⟩

theorem revise_cons_of_tree? {change : Router σ → Forest σ → Noted (Router σ × Forest σ)}
    {first r : Router σ} {children siblings below : Forest σ} {id : Nat}
    (absent : first.ident ∉ children.idents)
    (found : (cons first children siblings).tree? id = some (r, below))
    {revision : Noted (Revision σ)}
    (revised : (cons first children siblings).revise change id = some revision) :
    (r.ident = id ∧ first = r ∧ children = below ∧ revision.value =
        ⟨cons (change r below).value.1 (change r below).value.2 siblings,
          (change r below).value.1⟩) ∨
      (first.ident ≠ id ∧ id ∈ children.idents ∧ children.tree? id = some (r, below) ∧
        ∃ inner, children.revise change id = some inner ∧ revision.value =
          ⟨cons (first.absorb inner.value.top).value inner.value.forest siblings,
            (first.absorb inner.value.top).value⟩) ∨
      (first.ident ≠ id ∧ id ∉ children.idents ∧ siblings.tree? id = some (r, below) ∧
        ∃ beside, siblings.revise change id = some beside ∧ revision.value =
          ⟨cons first children beside.value.forest, beside.value.top⟩) := by
  rcases revise_cons revised with ⟨here, value⟩ | ⟨elsewhere, inner, rest, value⟩ |
    ⟨elsewhere, missing, beside, rest, value⟩
  · rw [tree?_cons, if_pos here] at found
    cases found
    exact .inl ⟨here, rfl, rfl, value⟩
  · have inside := mem_idents_of_revise rest
    rw [tree?_of_mem_children siblings absent inside] at found
    exact .inr (.inl ⟨elsewhere, inside, found, inner, rest, value⟩)
  · have outside := revise_eq_none_iff.mp missing
    rw [tree?_of_not_mem_children siblings elsewhere outside] at found
    exact .inr (.inr ⟨elsewhere, outside, found, beside, rest, value⟩)

theorem routers_of_tree {f : Forest σ} {id : Nat} {r : Router σ} {children : Forest σ}
    (found : f.tree? id = some (r, children)) :
    r.ident = id ∧ (cons r children nil).routers.Sublist f.routers := by
  induction f with
  | nil => cases found
  | cons first below siblings ihc ihs =>
    rw [tree?_cons] at found
    split at found
    · rename_i here
      cases found
      refine ⟨here, ?_⟩
      rw [routers, routers, routers, List.append_nil]
      exact (List.sublist_append_left _ _).cons_cons _
    · rw [Option.or_eq_some_iff] at found
      have inside : below.routers.Sublist (cons first below siblings).routers :=
        (List.sublist_append_left _ _).cons _
      have beside : siblings.routers.Sublist (cons first below siblings).routers :=
        (List.sublist_append_right _ _).cons _
      rcases found with found | ⟨-, found⟩
      · obtain ⟨same, sublist⟩ := ihc found
        exact ⟨same, sublist.trans inside⟩
      · obtain ⟨same, sublist⟩ := ihs found
        exact ⟨same, sublist.trans beside⟩

theorem bare_mem_routers {f : Forest σ} {id : Nat} {r : Router σ} {children : Forest σ}
    (found : f.tree? id = some (r, children)) : r.bare ∈ f.routers :=
  (routers_of_tree found).2.subset List.mem_cons_self

theorem mem_routers_of_line {f : Forest σ} {line : List (Router σ)} (h : line ∈ f.lines) :
    ∀ r ∈ line, r ∈ f.routers := by
  induction f generalizing line with
  | nil => cases h
  | cons first children siblings ihc ihs =>
    intro r hr
    rw [routers, List.mem_cons, List.mem_append]
    rcases mem_lines_cons.mp h with ⟨-, rfl⟩ | ⟨rest, below, rfl⟩ | beside
    · exact .inl (List.mem_singleton.mp hr)
    · rcases List.mem_cons.mp hr with rfl | hr
      · exact .inl rfl
      · exact .inr (.inl (ihc below r hr))
    · exact .inr (.inr (ihs beside r hr))

theorem root_of_parent?_eq_none {f : Forest σ} {id : Nat} (top : f.parent? id = none)
    (found : f.contains id = true) : f.roots.any (·.ident = id) = true := by
  induction f with
  | nil => cases found
  | cons r children siblings ihc ihs =>
    rw [parent?_cons] at top
    split at top
    · cases top
    · rename_i inner
      obtain ⟨topc, tops⟩ := Option.or_eq_none_iff.mp top
      rw [contains, tree?_cons] at found
      rw [roots, List.any_cons, Bool.or_eq_true]
      split at found
      · rename_i here
        exact .inl (decide_eq_true here)
      · rw [Option.isSome_or, Bool.or_eq_true] at found
        rcases found with found | found
        · exact absurd (ihc topc found) inner
        · exact .inr (ihs tops found)

theorem split_of_root {f : Forest σ} {id : Nat} {child : Router σ} {below : Forest σ}
    (top : f.parent? id = none) (found : f.tree? id = some (child, below)) :
    ∃ front back : Forest σ, f = front.append (cons child below back) ∧
      f.removeRoot id = front.append back := by
  induction f with
  | nil => cases found
  | cons r children siblings ihc ihs =>
    rw [tree?_cons] at found
    rw [removeRoot]
    split at found
    · rename_i here
      cases found
      exact ⟨nil, siblings, rfl, by rw [if_pos here, append]⟩
    · rename_i elsewhere
      rw [if_neg elsewhere]
      rw [parent?_cons] at top
      split at top
      · cases top
      · rename_i inner
        obtain ⟨topc, tops⟩ := Option.or_eq_none_iff.mp top
        rcases Option.or_eq_some_iff.mp found with found | ⟨-, found⟩
        · have contained : children.contains id = true := by rw [contains, found]; rfl
          exact absurd (root_of_parent?_eq_none topc contained) inner
        · obtain ⟨front, back, split, removed⟩ := ihs tops found
          exact ⟨cons r children front, back, by rw [append, ← split], by rw [append, ← removed]⟩

theorem rows_removeRoot {f : Forest σ} {id : Nat} {child : Router σ} {below : Forest σ}
    (top : f.parent? id = none) (found : f.tree? id = some (child, below)) :
    f.rows.Perm ((cons child below nil).rows ++ (f.removeRoot id).rows) := by
  obtain ⟨front, back, split, removed⟩ := split_of_root top found
  rw [removed, split, rows_append, rows_append, rows, rows, rows, List.append_nil,
    ← List.cons_append]
  exact List.perm_append_comm_assoc _ _ _

theorem idents_removeRoot {f : Forest σ} {id : Nat} {child : Router σ} {below : Forest σ}
    (top : f.parent? id = none) (found : f.tree? id = some (child, below)) :
    f.idents.Perm ((cons child below nil).idents ++ (f.removeRoot id).idents) := by
  have removed := (rows_removeRoot top found).map (·.1.ident)
  rwa [List.map_append, map_ident_rows, map_ident_rows, map_ident_rows] at removed

theorem nodup_removeRoot {f : Forest σ} (distinct : f.idents.Nodup) {id : Nat} {child : Router σ}
    {below : Forest σ} (top : f.parent? id = none) (found : f.tree? id = some (child, below)) :
    (f.removeRoot id).idents.Nodup :=
  (List.nodup_append.mp ((idents_removeRoot top found).nodup_iff.mp distinct)).2.1

theorem mem_idents_removeRoot {f : Forest σ} {child : Router σ} {below : Forest σ}
    (top : f.parent? child.ident = none) (found : f.tree? child.ident = some (child, below))
    {id : Nat} (inside : id ∈ f.idents) (other : child.ident ≠ id)
    (outside : ¬below.contains id = true) : id ∈ (f.removeRoot child.ident).idents := by
  rw [(idents_removeRoot top found).mem_iff, idents_cons, List.mem_append, List.mem_cons,
    List.mem_append, ← contains_iff (f := below)] at inside
  rcases inside with (same | inside | ⟨⟨⟩⟩) | inside
  · exact absurd same.symm other
  · exact absurd inside outside
  · exact inside

theorem nestOne_eq_ok {f : Forest σ} {r : Router σ} {child : Option Nat} {d : Declared σ}
    (h : f.nestOne r child = .ok d) :
    ∃ c below, child = some c.ident ∧ f.tree? c.ident = some (c, below) ∧ c.ident ≠ r.ident ∧
      (¬below.contains r.ident = true) ∧ f.parent? c.ident = none ∧ d = f.attach r c below := by
  rw [nestOne] at h
  split at h
  · cases h
  · rename_i c below bound
    obtain ⟨id, rfl, found⟩ := Option.bind_eq_some_iff.mp bound
    obtain ⟨rfl, -⟩ := routers_of_tree found
    split at h
    · cases h
    · rename_i other
      split at h
      · cases h
      · rename_i acyclic
        split at h
        · cases h
        · rename_i top
          cases h
          exact ⟨c, below, rfl, found, other, acyclic, top, rfl⟩

def enter (id : Nat) (g : Router σ → Router σ) (more : List Nat) (row : Router σ × List Nat) :
    Router σ × List Nat :=
  if row.1.ident = id then (g row.1, row.2 ++ more) else row

theorem enter_nil (id : Nat) (g : Router σ → Router σ) (row : Router σ × List Nat) :
    enter id g [] row = (Router.redeclare id g row.1, row.2) := by
  rw [enter, Router.redeclare]
  split
  · rw [List.append_nil]
  · rfl

theorem ident_enter {g : Router σ → Router σ} (kept : ∀ r, (g r).ident = r.ident) (id : Nat)
    (more : List Nat) (row : Router σ × List Nat) :
    (enter id g more row).1.ident = row.1.ident := by
  rw [enter]
  split
  · exact kept row.1
  · rfl

theorem map_enter_of_not_mem (g : Router σ → Router σ) (more : List Nat) {f : Forest σ} {id : Nat}
    (absent : id ∉ f.idents) : f.rows.map (enter id g more) = f.rows := by
  have kept : ∀ row ∈ f.rows, enter id g more row = row := by
    intro row hrow
    refine if_neg fun same => absent ?_
    rw [← map_ident_rows]
    exact List.mem_map.mpr ⟨row, hrow, same⟩
  rw [List.map_congr_left kept, List.map_id']

structure Puts (g : Router σ → Router σ) (more : Forest σ)
    (change : Router σ → Forest σ → Noted (Router σ × Forest σ)) : Prop where
  ident : ∀ r, (g r).ident = r.ident
  bare : ∀ r children, (change r children).value.1.bare = g r.bare
  tops : ∀ r children, (change r children).value.2.tops = children.tops ++ more.tops
  rows : ∀ r children, (change r children).value.2.rows = children.rows ++ more.rows

theorem Puts.revise {g : Router σ → Router σ} {more : Forest σ}
    {change : Router σ → Forest σ → Noted (Router σ × Forest σ)} (puts : Puts g more change)
    {f : Forest σ} (distinct : f.idents.Nodup) {id : Nat} {revision : Noted (Revision σ)}
    (h : f.revise change id = some revision) :
    revision.value.forest.tops = f.tops ∧
      revision.value.forest.rows.Perm (f.rows.map (enter id g more.tops) ++ more.rows) := by
  induction f generalizing revision with
  | nil => cases h
  | cons r children siblings ihc ihs =>
    rw [idents_cons, List.nodup_cons, List.mem_append, not_or, List.nodup_append] at distinct
    obtain ⟨⟨absentc, absents⟩, distinctc, distincts, apart⟩ := distinct
    rw [Forest.rows, List.map_cons, List.map_append, List.cons_append, List.append_assoc]
    rcases revise_cons h with ⟨here, value⟩ | ⟨elsewhere, below, found, value⟩ |
      ⟨elsewhere, missing, beside, found, value⟩
    all_goals rw [value, tops_cons, tops_cons, Forest.rows]
    · have ident : (change r children).value.1.ident = r.ident := by
        rw [← bare_ident, puts.bare, puts.ident, bare_ident]
      rw [ident, puts.bare, puts.tops, puts.rows, enter, bare_ident, if_pos here,
        map_enter_of_not_mem g _ (here ▸ absentc), map_enter_of_not_mem g _ (here ▸ absents),
        List.append_assoc]
      exact ⟨rfl, (List.perm_append_comm.append_left _).cons _⟩
    · have inside := mem_idents_of_revise found
      have outside : id ∉ siblings.idents := fun other => apart id inside id other rfl
      obtain ⟨tops, rows⟩ := ihc distinctc found
      rw [ident_absorb, bare_absorb, tops, enter, bare_ident, if_neg elsewhere,
        map_enter_of_not_mem g _ outside]
      refine ⟨rfl, .cons _ ((rows.append_right _).trans ?_)⟩
      rw [List.append_assoc]
      exact List.perm_append_comm.append_left _
    · obtain ⟨tops, rows⟩ := ihs distincts found
      rw [tops, enter, bare_ident, if_neg elsewhere,
        map_enter_of_not_mem g _ (revise_eq_none_iff.mp missing)]
      exact ⟨rfl, .cons _ (rows.append_left _)⟩

end Forest

end HttpRouting
