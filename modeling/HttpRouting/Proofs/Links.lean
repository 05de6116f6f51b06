import Mathlib.Data.List.Nodup
import HttpRouting.Proofs.Histories

namespace HttpRouting

open Router

variable {σ : Type}

namespace Forest

def links (f : Forest σ) : List (Nat × Nat) :=
  f.rows.flatMap fun row => row.2.map fun c => (c, row.1.ident)

theorem links_nil : (nil : Forest σ).links = [] := rfl

theorem links_cons (r : Router σ) (children siblings : Forest σ) :
    (cons r children siblings).links =
      children.tops.map (fun c => (c, r.ident)) ++ (children.links ++ siblings.links) := by
  rw [links, rows, List.flatMap_cons, List.flatMap_append]
  rfl

theorem mem_links_iff {f : Forest σ} {c p : Nat} :
    (c, p) ∈ f.links ↔ ∃ row ∈ f.rows, row.1.ident = p ∧ c ∈ row.2 := by
  simp [links, and_comm]

theorem perm_idents (f : Forest σ) : f.idents.Perm (f.tops ++ f.links.map (·.1)) := by
  induction f with
  | nil => exact .refl _
  | cons r children siblings ihc ihs =>
    rw [idents_cons, tops_cons, links_cons, List.map_append, List.map_append, List.map_map,
      List.cons_append]
    refine .cons _ ((ihc.append ihs).trans ?_)
    rw [show (fun c : Nat × Nat => c.1) ∘ (fun c => (c, r.ident)) = id from rfl, List.map_id,
      List.perm_iff_count]
    intro id
    simp only [List.count_append]
    omega

theorem nodup_linked {f : Forest σ} (distinct : f.idents.Nodup) : (f.links.map (·.1)).Nodup :=
  (List.nodup_append.mp (f.perm_idents.nodup_iff.mp distinct)).2.1

theorem mem_idents_of_top {f : Forest σ} {c : Nat} (h : c ∈ f.tops) : c ∈ f.idents := by
  rw [f.perm_idents.mem_iff, List.mem_append]
  exact .inl h

theorem any_roots_iff {f : Forest σ} {id : Nat} :
    f.roots.any (·.ident = id) = true ↔ id ∈ f.tops := by
  simp [tops]

theorem linked_of_parent? {f : Forest σ} {c : Nat} {r : Router σ} (h : f.parent? c = some r) :
    (c, r.ident) ∈ f.links := by
  induction f with
  | nil => cases h
  | cons first children siblings ihc ihs =>
    rw [links_cons, List.mem_append, List.mem_append]
    rw [parent?_cons] at h
    split at h
    · rename_i inside
      cases h
      exact .inl (List.mem_map_of_mem (any_roots_iff.mp inside))
    · rcases Option.or_eq_some_iff.mp h with h | ⟨-, h⟩
      · exact .inr (.inl (ihc h))
      · exact .inr (.inr (ihs h))

theorem parent?_isSome {f : Forest σ} {c p : Nat} (h : (c, p) ∈ f.links) :
    (f.parent? c).isSome := by
  induction f with
  | nil => cases h
  | cons first children siblings ihc ihs =>
    rw [links_cons, List.mem_append, List.mem_append] at h
    rw [parent?_cons]
    split
    · rfl
    · rename_i outside
      rw [Option.isSome_or, Bool.or_eq_true]
      rcases h with h | h | h
      · obtain ⟨c', top, same⟩ := List.mem_map.mp h
        cases same
        exact absurd (any_roots_iff.mpr top) outside
      · exact .inl (ihc h)
      · exact .inr (ihs h)

theorem parent?_eq_some_iff {f : Forest σ} (distinct : f.idents.Nodup) {c p : Nat} :
    (f.parent? c).map (·.ident) = some p ↔ (c, p) ∈ f.links := by
  constructor
  · intro h
    obtain ⟨r, found, rfl⟩ := Option.map_eq_some_iff.mp h
    exact linked_of_parent? found
  · intro h
    obtain ⟨r, found⟩ := Option.isSome_iff_exists.mp (parent?_isSome h)
    have same := List.inj_on_of_nodup_map (nodup_linked distinct) (linked_of_parent? found) h rfl
    rw [found, Option.map_some, (Prod.mk.inj same).2]

theorem tree?_of_parent? {f : Forest σ} (distinct : f.idents.Nodup) {c : Nat} {r : Router σ}
    (h : f.parent? c = some r) :
    ∃ children, f.tree? r.ident = some (r, children) ∧ c ∈ children.tops := by
  induction f with
  | nil => cases h
  | cons first children siblings ihc ihs =>
    rw [idents_cons, List.nodup_cons, List.mem_append, not_or, List.nodup_append] at distinct
    obtain ⟨⟨absentc, absents⟩, distinctc, distincts, apart⟩ := distinct
    rw [parent?_cons] at h
    split at h
    · rename_i inside
      cases h
      exact ⟨children, by rw [tree?_cons, if_pos rfl], any_roots_iff.mp inside⟩
    · rcases Option.or_eq_some_iff.mp h with h | ⟨-, h⟩
      · obtain ⟨below, found, top⟩ := ihc distinctc h
        have inside := mem_idents_of_tree? found
        exact ⟨below, by rw [tree?_of_mem_children siblings absentc inside, found], top⟩
      · obtain ⟨below, found, top⟩ := ihs distincts h
        have inside := mem_idents_of_tree? found
        refine ⟨below, ?_, top⟩
        rw [tree?_of_not_mem_children siblings, found]
        · exact fun same => absents (same ▸ inside)
        · exact fun other => apart r.ident other r.ident inside rfl

theorem tree?_of_linked {f : Forest σ} (distinct : f.idents.Nodup) {c p : Nat}
    (h : (c, p) ∈ f.links) : ∃ r children, f.tree? p = some (r, children) ∧ c ∈ children.tops := by
  obtain ⟨r, nested, rfl⟩ := Option.map_eq_some_iff.mp ((parent?_eq_some_iff distinct).mpr h)
  exact ⟨r, tree?_of_parent? distinct nested⟩

theorem links_tree {f : Forest σ} {id : Nat} {r : Router σ} {children : Forest σ}
    (found : f.tree? id = some (r, children)) : (cons r children nil).links.Sublist f.links := by
  induction f with
  | nil => cases found
  | cons first below siblings ihc ihs =>
    rw [tree?_cons] at found
    rw [links_cons first]
    split at found
    · cases found
      rw [links_cons, links_nil, List.append_nil]
      exact (List.sublist_append_left _ _).append_left _
    · refine .trans ?_ (List.sublist_append_right _ _)
      rcases Option.or_eq_some_iff.mp found with found | ⟨-, found⟩
      · exact (ihc found).trans (List.sublist_append_left _ _)
      · exact (ihs found).trans (List.sublist_append_right _ _)

theorem mem_children_iff {f : Forest σ} (distinct : f.idents.Nodup) {c p : Nat} :
    c ∈ (f.children p).map (·.ident) ↔ (c, p) ∈ f.links := by
  rw [children]
  constructor
  · intro h
    cases found : f.tree? p with
    | none => simp [found] at h
    | some tree =>
      obtain ⟨r, below⟩ := tree
      rw [found] at h
      apply (links_tree found).subset
      rw [links_cons, List.mem_append, (routers_of_tree found).1]
      exact .inl (List.mem_map_of_mem h)
  · intro h
    obtain ⟨r, below, found, top⟩ := tree?_of_linked distinct h
    rw [found]
    exact top

theorem children_eq_linked {f : Forest σ} (distinct : f.idents.Nodup) :
    f.idents.flatMap (fun p => (f.children p).map (·.ident)) = f.links.map (·.1) := by
  induction f with
  | nil => rfl
  | cons first children siblings ihc ihs =>
    rw [idents_cons, List.nodup_cons, List.mem_append, not_or, List.nodup_append] at distinct
    obtain ⟨⟨absentc, absents⟩, distinctc, distincts, apart⟩ := distinct
    have under : ∀ p ∈ children.idents,
        (cons first children siblings).children p = children.children p := by
      intro p inside
      rw [Forest.children, tree?_of_mem_children siblings absentc inside, Forest.children]
    have beside : ∀ p ∈ siblings.idents,
        (cons first children siblings).children p = siblings.children p := by
      intro p inside
      rw [Forest.children, tree?_of_not_mem_children siblings, Forest.children]
      · exact fun same => absents (same ▸ inside)
      · exact fun other => apart p other p inside rfl
    have top : (cons first children siblings).children first.ident = children.roots := by
      rw [Forest.children, tree?_cons, if_pos rfl]
      rfl
    rw [idents_cons, List.flatMap_cons, List.flatMap_append, top, links_cons, List.map_append,
      List.map_append, ← ihc distinctc, ← ihs distincts, tops, List.map_map, List.map_map]
    congr 2
    · exact List.flatMap_congr fun p inside => by rw [under p inside]
    · exact List.flatMap_congr fun p inside => by rw [beside p inside]

theorem tree?_append (f g : Forest σ) (id : Nat) :
    (f.append g).tree? id = (f.tree? id).or (g.tree? id) := by
  induction f with
  | nil => rfl
  | cons r children siblings _ ih =>
    rw [append, tree?_cons, tree?_cons, ih]
    split
    · rfl
    · rw [Option.or_assoc]

theorem parent?_append (f g : Forest σ) (id : Nat) :
    (f.append g).parent? id = (f.parent? id).or (g.parent? id) := by
  induction f with
  | nil => rfl
  | cons r children siblings _ ih =>
    rw [append, parent?_cons, parent?_cons, ih]
    split
    · rfl
    · rw [Option.or_assoc]

theorem tree?_removeRoot {f : Forest σ} {id : Nat} {r : Router σ} {children : Forest σ}
    (found : f.tree? id = some (r, children)) (top : f.parent? id = none) {id' : Nat}
    (outside : id' ∉ (cons r children nil).idents) :
    (f.removeRoot id).tree? id' = f.tree? id' := by
  obtain ⟨rfl, -⟩ := routers_of_tree found
  obtain ⟨front, back, split, removed⟩ := split_of_root top found
  simp only [idents_cons, List.mem_cons, List.mem_append, not_or] at outside
  rw [removed, split, tree?_append, tree?_append,
    tree?_of_not_mem_children back (Ne.symm outside.1) outside.2.1]

theorem mem_links_of_rows {f g : Forest σ} {e : Router σ × List Nat → Router σ × List Nat}
    {made : List (Router σ)} (rows : g.rows.Perm (f.rows.map e ++ made.map (·, [])))
    (kept : ∀ row, (e row).1.ident = row.1.ident ∧ (e row).2 = row.2) {c p : Nat} :
    (c, p) ∈ g.links ↔ (c, p) ∈ f.links := by
  rw [mem_links_iff, mem_links_iff]
  constructor
  · rintro ⟨row, hrow, rfl, nested⟩
    rw [rows.mem_iff, List.mem_append] at hrow
    rcases hrow with old | new
    · obtain ⟨row, hrow, rfl⟩ := List.mem_map.mp old
      obtain ⟨ident, tops⟩ := kept row
      exact ⟨row, hrow, ident.symm, tops ▸ nested⟩
    · obtain ⟨r, -, rfl⟩ := List.mem_map.mp new
      cases nested
  · rintro ⟨row, hrow, rfl, nested⟩
    obtain ⟨ident, tops⟩ := kept row
    refine ⟨e row, ?_, ident, tops ▸ nested⟩
    rw [rows.mem_iff, List.mem_append]
    exact .inl (List.mem_map_of_mem hrow)

theorem mem_enter {id : Nat} {g : Router σ → Router σ} {more : List Nat}
    {row : Router σ × List Nat} {c : Nat} :
    c ∈ (enter id g more row).2 ↔ c ∈ row.2 ∨ (row.1.ident = id ∧ c ∈ more) := by
  rw [enter]
  split <;> simp [*]

theorem mem_links_attach {f : Forest σ} (distinct : f.idents.Nodup) {r child : Router σ}
    {below : Forest σ} (top : f.parent? child.ident = none)
    (found : f.tree? child.ident = some (child, below))
    (remains : r.ident ∈ (f.removeRoot child.ident).idents) {c p : Nat} :
    (c, p) ∈ (f.attach r child below).forest.links ↔
      (c, p) ∈ f.links ∨ (c = child.ident ∧ p = r.ident) := by
  have attached := rows_attach distinct top found remains
  have ident := ident_enter (fun _ : Router σ => rfl) r.ident [child.ident]
  have inside : r.ident ∈ f.rows.map (·.1.ident) := by
    rw [map_ident_rows, (idents_removeRoot top found).mem_iff, List.mem_append]
    exact .inr remains
  obtain ⟨row, hrow, here⟩ := List.mem_map.mp inside
  rw [mem_links_iff, mem_links_iff]
  simp only [attached.mem_iff, List.mem_map, exists_exists_and_eq_and, ident, mem_enter,
    List.mem_singleton]
  constructor
  · rintro ⟨row, hrow, rfl, old | ⟨here, new⟩⟩
    · exact .inl ⟨row, hrow, rfl, old⟩
    · exact .inr ⟨new, here⟩
  · rintro (⟨row, hrow, same, old⟩ | ⟨new, rfl⟩)
    · exact ⟨row, hrow, same, .inl old⟩
    · exact ⟨row, hrow, here, .inr ⟨here, new⟩⟩

end Forest

end HttpRouting
