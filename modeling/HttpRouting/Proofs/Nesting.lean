import Mathlib.Logic.Relation
import Mathlib.Order.WellFounded
import HttpRouting.Proofs.Links

namespace HttpRouting

open Router Relation

variable {σ : Type}

theorem wellFounded_insert {α : Type} {R : α → α → Prop} (wf : WellFounded R) {a b : α}
    (apart : a ≠ b) (acyclic : ¬TransGen R b a) :
    WellFounded fun x y => R x y ∨ (x = a ∧ y = b) := by
  -- Nothing that the new step leads to is reached from `a`, so `a` is as accessible as it was.
  have elsewhere : ∀ y, ¬ReflTransGen R b y → Acc (fun x y => R x y ∨ (x = a ∧ y = b)) y := by
    intro y
    induction y using wf.induction with
    | _ y ih =>
      intro outside
      constructor
      rintro x (step | ⟨-, rfl⟩)
      · exact ih x step fun inside => outside (inside.tail step)
      · exact absurd .refl outside
  have accessible := elsewhere a fun reached => by
    rcases reflTransGen_iff_eq_or_transGen.mp reached with same | cycle
    · exact apart same
    · exact acyclic cycle
  refine ⟨fun y => ?_⟩
  induction y using wf.induction with
  | _ y ih =>
    constructor
    rintro x (step | ⟨rfl, -⟩)
    · exact ih x step
    · exact accessible

/-- Neither from a router to the one it is nested in, nor from a router to those nested in it, can
one go on for ever. -/
structure Rooted (nested : Nat → Nat → Prop) : Prop where
  upward : WellFounded fun p c => nested c p
  downward : WellFounded nested

namespace Rooted

variable {nested : Nat → Nat → Prop}

theorem acyclic (h : Rooted nested) (id : Nat) : ¬TransGen nested id id :=
  fun cycle => h.downward.transGen.irrefl.irrefl id cycle

theorem attach (h : Rooted nested) {c p : Nat} (other : c ≠ p) (above : ¬TransGen nested p c) :
    Rooted fun x y => nested x y ∨ (x = c ∧ y = p) where
  upward := by
    have inserted := wellFounded_insert h.upward other.symm (mt transGen_swap.mp above)
    exact Subrelation.wf (fun step => step.imp_right And.symm) inserted
  downward := wellFounded_insert h.downward other above

end Rooted

namespace Forest

def NestedIn (f : Forest σ) (c p : Nat) : Prop := (f.parent? c).map (·.ident) = some p

theorem nestedIn_iff {f : Forest σ} (distinct : f.idents.Nodup) {c p : Nat} :
    f.NestedIn c p ↔ (c, p) ∈ f.links := parent?_eq_some_iff distinct

theorem nestedIn_congr {f g : Forest σ} (distinct : f.idents.Nodup) (distinct' : g.idents.Nodup)
    (links : ∀ c p, (c, p) ∈ g.links ↔ (c, p) ∈ f.links) : g.NestedIn = f.NestedIn := by
  funext c p
  rw [nestedIn_iff distinct', nestedIn_iff distinct, links]

theorem reaches_top {R : Nat → Nat → Prop} {f : Forest σ}
    (linked : ∀ c p, (c, p) ∈ f.links → R c p) {id : Nat} (inside : id ∈ f.idents) :
    ∃ top ∈ f.tops, ReflTransGen R id top := by
  induction f with
  | nil => cases inside
  | cons r children siblings ihc ihs =>
    simp only [links_cons, List.mem_append] at linked
    rw [idents_cons, List.mem_cons, List.mem_append] at inside
    rw [tops_cons]
    rcases inside with rfl | inside | inside
    · exact ⟨r.ident, List.mem_cons_self, .refl⟩
    · obtain ⟨top, first, climb⟩ := ihc (fun c p h => linked c p (.inr (.inl h))) inside
      have last : R top r.ident := linked top r.ident (.inl (List.mem_map_of_mem first))
      exact ⟨r.ident, List.mem_cons_self, climb.tail last⟩
    · obtain ⟨top, first, climb⟩ := ihs (fun c p h => linked c p (.inr (.inr h))) inside
      exact ⟨top, List.mem_cons_of_mem _ first, climb⟩

theorem tree?_of_mem_tree {f : Forest σ} (distinct : f.idents.Nodup) {id : Nat} {r : Router σ}
    {children : Forest σ} (found : f.tree? id = some (r, children)) {id' : Nat}
    (inside : id' ∈ (cons r children nil).idents) :
    f.tree? id' = (cons r children nil).tree? id' := by
  induction f with
  | nil => cases found
  | cons first below siblings ihc ihs =>
    rw [idents_cons, List.nodup_cons, List.mem_append, not_or, List.nodup_append] at distinct
    obtain ⟨⟨absentc, absents⟩, distinctc, distincts, apart⟩ := distinct
    rw [tree?_cons] at found
    split at found
    · cases found
      rw [idents_cons, List.mem_cons, List.mem_append] at inside
      rcases inside with rfl | inside | ⟨⟨⟩⟩
      · rw [tree?_cons, if_pos rfl, tree?_cons, if_pos rfl]
      · rw [tree?_of_mem_children siblings absentc inside,
          tree?_of_mem_children nil absentc inside]
    · rcases Option.or_eq_some_iff.mp found with found | ⟨-, found⟩
      · have within := ((routers_of_tree found).2.map (·.ident)).subset inside
        rw [tree?_of_mem_children siblings absentc within, ihc distinctc found]
      · have within := ((routers_of_tree found).2.map (·.ident)).subset inside
        rw [tree?_of_not_mem_children siblings, ihs distincts found]
        · exact fun same => absents (same ▸ within)
        · exact fun other => apart id' other id' within rfl

theorem contains_iff_nestedIn {f : Forest σ} (distinct : f.idents.Nodup) {c : Nat}
    {child : Router σ} {below : Forest σ} (found : f.tree? c = some (child, below)) {id : Nat} :
    below.contains id = true ↔ TransGen f.NestedIn id c := by
  obtain ⟨rfl, -⟩ := routers_of_tree found
  have linked : ∀ c p, (c, p) ∈ (cons child below nil).links → f.NestedIn c p :=
    fun c p h => (nestedIn_iff distinct).mpr ((links_tree found).subset h)
  -- What is nested in a router of the tree stands below its root, so no way up enters the tree.
  have under : ∀ c p, p ∈ (cons child below nil).idents → f.NestedIn c p → c ∈ below.idents := by
    intro c p inside nested
    obtain ⟨r, children, owner, top⟩ := tree?_of_linked distinct ((nestedIn_iff distinct).mp nested)
    rw [tree?_of_mem_tree distinct found inside] at owner
    have listed := mem_idents_of_top top
    rw [tree?_cons, tree?, Option.or_none] at owner
    split at owner
    · cases owner
      exact listed
    · apply ((routers_of_tree owner).2.map (·.ident)).subset
      rw [← idents, idents_cons]
      exact List.mem_cons_of_mem _ (List.mem_append_left _ listed)
  rw [contains_iff]
  constructor
  · intro inside
    rw [links_cons] at linked
    obtain ⟨top, first, climb⟩ := reaches_top
      (fun c p h => linked c p (List.mem_append_right _ (List.mem_append_left _ h))) inside
    have last : f.NestedIn top child.ident :=
      linked top child.ident (List.mem_append_left _ (List.mem_map_of_mem first))
    exact .tail' climb last
  · intro climb
    induction climb using TransGen.head_induction_on with
    | single nested =>
      apply under _ _ _ nested
      simp [idents_cons]
    | head nested _ ih =>
      apply under _ _ _ nested
      simp [idents_cons, ih]

inductive Refused (f : Forest σ) (id : Nat) : Option Nat → Prop
  | missing {child : Option Nat} (h : child.bind f.tree? = none) : Refused f id child
  | itself {c : Nat} (h : c = id) : Refused f id (some c)
  | above {c : Nat} (h : TransGen f.NestedIn id c) : Refused f id (some c)
  | taken {c p : Nat} (h : f.NestedIn c p) : Refused f id (some c)

theorem nestOne_cases {f : Forest σ} (distinct : f.idents.Nodup) {r : Router σ}
    (inside : r.ident ∈ f.idents) (child : Option Nat) :
    (∃ fault, f.nestOne r child = .error fault ∧ f.Refused r.ident child) ∨
      ∃ c d, child = some c ∧ f.nestOne r child = .ok d ∧ ¬f.Refused r.ident (some c) ∧
        ∀ x p, (x, p) ∈ d.forest.links ↔ (x, p) ∈ f.links ∨ (x = c ∧ p = r.ident) := by
  rw [nestOne]
  split
  · rename_i missing
    exact .inl ⟨_, rfl, .missing missing⟩
  rename_i child below bound
  obtain ⟨c, rfl, found⟩ := Option.bind_eq_some_iff.mp bound
  obtain ⟨rfl, -⟩ := routers_of_tree found
  split
  · rename_i same
    exact .inl ⟨_, rfl, .itself same⟩
  rename_i other
  split
  · rename_i cycle
    exact .inl ⟨_, rfl, .above ((contains_iff_nestedIn distinct found).mp cycle)⟩
  rename_i acyclic
  split
  · rename_i parent nested
    refine .inl ⟨_, rfl, .taken (p := parent.ident) ?_⟩
    rw [NestedIn, nested, Option.map_some]
  · rename_i top
    have remains := mem_idents_removeRoot top found inside other acyclic
    refine .inr ⟨child.ident, _, rfl, rfl, ?_,
      fun _ _ => mem_links_attach distinct top found remains⟩
    rintro (missing | itself | above | taken)
    · rw [bound] at missing
      cases missing
    · exact other itself
    · exact acyclic ((contains_iff_nestedIn distinct found).mpr above)
    · rw [NestedIn, top] at taken
      cases taken

theorem nestedIn_nestOne {f g : Forest σ} (distinct : f.idents.Nodup) (distinct' : g.idents.Nodup)
    {c p : Nat} (links : ∀ x y, (x, y) ∈ g.links ↔ (x, y) ∈ f.links ∨ (x = c ∧ y = p)) :
    g.NestedIn = fun x y => f.NestedIn x y ∨ (x = c ∧ y = p) := by
  funext x y
  rw [nestedIn_iff distinct', nestedIn_iff distinct, links]

theorem find?_of_mem_idents {f : Forest σ} {id : Nat} (inside : id ∈ f.idents) :
    ∃ r, f.find? id = some r ∧ r.ident = id := by
  obtain ⟨⟨r, below⟩, found⟩ := Option.isSome_iff_exists.mp (contains_iff.mpr inside)
  exact ⟨r, by rw [find?, found, Option.map_some], (routers_of_tree found).1⟩

theorem nest_of_error {f : Forest σ} {r : Router σ} (found : f.find? r.ident = some r)
    {child : Option Nat} {fault : Fault} (refused : f.nestOne r child = .error fault)
    (rest : List (Option Nat)) :
    f.nest r.ident (child :: rest) = { forest := f, fault := some fault } := by
  rw [nest, found]
  dsimp only
  rw [refused]

theorem nest_of_ok {f : Forest σ} {r : Router σ} (found : f.find? r.ident = some r)
    {child : Option Nat} {d : Declared σ} (accepted : f.nestOne r child = .ok d)
    (rest : List (Option Nat)) :
    (f.nest r.ident (child :: rest)).forest = (d.forest.nest r.ident rest).forest ∧
      (f.nest r.ident (child :: rest)).fault = (d.forest.nest r.ident rest).fault := by
  rw [nest, found]
  dsimp only
  rw [accepted]
  exact ⟨rfl, rfl⟩

theorem distinct_nestOne {f : Forest σ} (distinct : f.idents.Nodup) {r : Router σ}
    (inside : r.ident ∈ f.idents) {child : Option Nat} {d : Declared σ}
    (accepted : f.nestOne r child = .ok d) :
    d.forest.idents.Nodup ∧ ∀ id, id ∈ d.forest.idents ↔ id ∈ f.idents := by
  have moved := (routers_nestOne distinct inside accepted).map (·.ident)
  exact ⟨moved.nodup_iff.mpr distinct, fun _ => moved.mem_iff⟩

theorem rooted_nestOne {f : Forest σ} (distinct : f.idents.Nodup) {r : Router σ}
    (inside : r.ident ∈ f.idents) {child : Option Nat} {d : Declared σ}
    (accepted : f.nestOne r child = .ok d) (h : Rooted f.NestedIn) : Rooted d.forest.NestedIn := by
  rcases nestOne_cases distinct inside child with ⟨fault, refused, -⟩ |
    ⟨c, d, rfl, accepted', allowed, links⟩
  · cases accepted.symm.trans refused
  · cases accepted.symm.trans accepted'
    rw [nestedIn_nestOne distinct (distinct_nestOne distinct inside accepted).1 links]
    apply h.attach
    · exact fun same => allowed (.itself same)
    · exact fun above => allowed (.above above)

theorem rooted_nest {f : Forest σ} (distinct : f.idents.Nodup) {id : Nat} (inside : id ∈ f.idents)
    (children : List (Option Nat)) (h : Rooted f.NestedIn) :
    Rooted (f.nest id children).forest.NestedIn := by
  induction children generalizing f with
  | nil => exact h
  | cons child rest ih =>
    obtain ⟨r, found, rfl⟩ := find?_of_mem_idents inside
    rcases accepted : f.nestOne r child with fault | d
    · rwa [nest_of_error found accepted]
    · rw [(nest_of_ok found accepted rest).1]
      obtain ⟨distinct', same⟩ := distinct_nestOne distinct inside accepted
      exact ih distinct' ((same _).mpr inside) (rooted_nestOne distinct inside accepted h)

/-- What a call that nests routers into one has done: it has nested those in `done`, and the first
of the others, if there are any, is refused. -/
structure NestedUpTo (f : Forest σ) (id : Nat) (children : List (Option Nat)) (done : List Nat)
    (rest : List (Option Nat)) : Prop where
  split : children = done.map some ++ rest
  succeeds : (f.nest id (done.map some)).fault = none
  state : (f.nest id children).forest = (f.nest id (done.map some)).forest
  links : ∀ c p, (f.nest id children).forest.NestedIn c p ↔
    f.NestedIn c p ∨ (c ∈ done ∧ p = id)
  fault : (f.nest id children).fault = none ↔ rest = []
  refused : ∀ child more, rest = child :: more → (f.nest id children).forest.Refused id child

theorem nestedUpTo {f : Forest σ} (distinct : f.idents.Nodup) {id : Nat} (inside : id ∈ f.idents)
    (children : List (Option Nat)) : ∃ done rest, f.NestedUpTo id children done rest := by
  induction children generalizing f with
  | nil => exact ⟨[], [], rfl, rfl, rfl, by simp [nest], by simp [nest], by simp⟩
  | cons child others ih =>
    obtain ⟨r, found, rfl⟩ := find?_of_mem_idents inside
    rcases nestOne_cases distinct inside child with ⟨fault, failed, refused⟩ |
      ⟨c, d, rfl, accepted, -, links⟩
    · have stays := nest_of_error found failed others
      refine ⟨[], child :: others, rfl, rfl, ?_, ?_, ?_, ?_⟩
      · rw [stays, List.map_nil, nest]
      · simp [stays]
      · simp [stays]
      · rw [stays]
        rintro _ _ ⟨⟩
        exact refused
    · have goesOn := nest_of_ok found accepted
      obtain ⟨distinct', same⟩ := distinct_nestOne distinct inside accepted
      obtain ⟨done, rest, next⟩ := ih distinct' ((same _).mpr inside)
      refine ⟨c :: done, rest, ?_, ?_, ?_, ?_, ?_, ?_⟩
      · rw [next.split, List.map_cons, List.cons_append]
      · rw [List.map_cons, (goesOn _).2, next.succeeds]
      · rw [List.map_cons, (goesOn _).1, (goesOn _).1, next.state]
      · intro x p
        rw [(goesOn _).1, next.links, nestedIn_nestOne distinct distinct' links, List.mem_cons,
          or_and_right, or_assoc]
      · rw [(goesOn _).2, next.fault]
      · rw [(goesOn _).1]
        exact next.refused

theorem mem_links_apply {f : Forest σ} (distinct : f.idents.Nodup) {c : Call σ}
    (possible : c.Possible f) (other : ∀ id children, c ≠ .nest id children) (x p : Nat) :
    (x, p) ∈ (c.apply f).forest.links ↔ (x, p) ∈ f.links :=
  mem_links_of_rows (rows_apply distinct possible other)
    fun row => ⟨(c.redeclare_fields row.1).1, rfl⟩

theorem Reached.rooted {calls : List (Call σ)} {f : Forest σ} (h : Reached calls f) :
    Rooted f.NestedIn := by
  induction h with
  | start =>
    have none (c p : Nat) : ¬(nil : Forest σ).NestedIn c p := by simp [NestedIn, parent?]
    exact ⟨⟨fun _ => ⟨_, fun _ step => absurd step (none _ _)⟩⟩,
      ⟨fun _ => ⟨_, fun _ step => absurd step (none _ _)⟩⟩⟩
  | call c before possible ih =>
    have distinct := distinct_apply before.distinct possible
    cases c with
    | nest id children => exact rooted_nest before.distinct (contains_iff.mp possible) children ih
    | path | middlewares | handle | compose =>
      rwa [nestedIn_congr before.distinct distinct
        (mem_links_apply before.distinct possible (by rintro _ _ ⟨⟩))]

end Forest

end HttpRouting
