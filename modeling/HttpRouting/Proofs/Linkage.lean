import HttpRouting.Proofs.Nesting

/-!
Routers that each keep a link to the one they are nested in and a list of those nested in them, the
two being set one by one. Main statement: nesting routers by following these links, with the checks
made on the way, leads to the links of the forest and to nothing else.
-/

namespace HttpRouting

open Router Relation

variable {σ : Type}

structure Linked (σ : Type) where
  router : Router σ
  parent : Option Nat := none
  children : List Nat := []

/-- The routers made so far, by name. What has no such name is a null router. -/
abbrev Linkage (σ : Type) := Nat → Option (Linked σ)

namespace Linkage

def link (s : Linkage σ) (c p : Nat) : Linkage σ := fun id =>
  (s id).map fun l =>
    { l with
      parent := if id = c then some p else l.parent
      children := if id = p then l.children ++ [c] else l.children }

/-- The walk up the links to parents, and whether it meets `c`. There is none round a cycle that `c`
is not on: the walk would not end. -/
inductive Walk (s : Linkage σ) (c : Nat) : Option Nat → Bool → Prop
  | top : Walk s c none false
  | reached : Walk s c (some c) true
  | on {a : Nat} {l : Linked σ} {met : Bool} (other : a ≠ c) (here : s a = some l)
      (rest : Walk s c l.parent met) : Walk s c (some a) met

inductive NestOne (s : Linkage σ) (into : Linked σ) :
    Option Nat → Except Fault (Linkage σ) → Prop
  | null {child : Option Nat} (missing : child.bind s = none) :
      NestOne s into child (.error (Forest.nullRouter into.router))
  | itself {child : Linked σ} (there : s into.router.ident = some child) :
      NestOne s into (some into.router.ident) (.error (Forest.selfNested into.router))
  | cycle {c : Nat} {child : Linked σ} (there : s c = some child) (other : c ≠ into.router.ident)
      (met : Walk s c into.parent true) :
      NestOne s into (some c) (.error (Forest.nestedCycle child.router into.router))
  | taken {c p : Nat} {child parent : Linked σ} (there : s c = some child)
      (other : c ≠ into.router.ident) (clear : Walk s c into.parent false)
      (nested : child.parent = some p) (owner : s p = some parent) :
      NestOne s into (some c) (.error (Forest.nestedTwice child.router parent.router))
  | linked {c : Nat} {child : Linked σ} (there : s c = some child)
      (other : c ≠ into.router.ident) (clear : Walk s c into.parent false)
      (free : child.parent = none) :
      NestOne s into (some c) (.ok (s.link c into.router.ident))

inductive Nest (id : Nat) :
    Linkage σ → List (Option Nat) → Linkage σ → Option Fault → Prop
  | done {s : Linkage σ} : Nest id s [] s none
  | refused {s : Linkage σ} {into : Linked σ} {child : Option Nat} {rest : List (Option Nat)}
      {fault : Fault} (here : s id = some into) (failed : NestOne s into child (.error fault)) :
      Nest id s (child :: rest) s (some fault)
  | linked {s s' t : Linkage σ} {into : Linked σ} {child : Option Nat} {rest : List (Option Nat)}
      {fault : Option Fault} (here : s id = some into) (one : NestOne s into child (.ok s'))
      (others : Nest id s' rest t fault) : Nest id s (child :: rest) t fault

/-- A call that nests no routers makes a router without links, or changes what one declares. -/
def declare (s : Linkage σ) (c : Call σ) : Linkage σ := fun id =>
  ((s id).map fun l => { l with router := c.redeclare l.router }).or
    ((c.made.find? (·.ident = id)).map fun router => { router })

inductive Step (s : Linkage σ) : Call σ → Linkage σ → Prop
  | nest {id : Nat} {children : List (Option Nat)} {t : Linkage σ} {fault : Option Fault}
      (nests : Nest id s children t fault) : Step s (.nest id children) t
  | other {c : Call σ} (other : ∀ id children, c ≠ .nest id children) : Step s c (s.declare c)

inductive Runs : Linkage σ → List (Call σ) → Linkage σ → Prop
  | nil {s : Linkage σ} : Runs s [] s
  | cons {s s' t : Linkage σ} {c : Call σ} {calls : List (Call σ)} (step : Step s c s')
      (rest : Runs s' calls t) : Runs s (c :: calls) t

section

variable {s t t' : Linkage σ}

theorem Walk.unique {c : Nat} {start : Option Nat} {met met' : Bool} (h : Walk s c start met)
    (h' : Walk s c start met') : met = met' := by
  induction h with
  | top =>
    cases h' with
    | top => rfl
  | reached =>
    cases h' with
    | reached => rfl
    | on other _ _ => exact absurd rfl other
  | on other here _ ih =>
    cases h' with
    | reached => exact absurd rfl other
    | on _ here' rest' =>
      cases here.symm.trans here'
      exact ih rest'

theorem NestOne.unique {into : Linked σ} {child : Option Nat} {r r' : Except Fault (Linkage σ)}
    (h : NestOne s into child r) (h' : NestOne s into child r') : r = r' := by
  cases h with
  | null missing =>
    cases h' with
    | null => rfl
    | itself there | cycle there | taken there | linked there => cases missing.symm.trans there
  | itself there =>
    cases h' with
    | null missing => cases missing.symm.trans there
    | itself => rfl
    | cycle _ other | taken _ other | linked _ other => exact absurd rfl other
  | cycle there other met =>
    cases h' with
    | null missing => cases missing.symm.trans there
    | itself => exact absurd rfl other
    | cycle there' =>
      cases there.symm.trans there'
      rfl
    | taken _ _ clear | linked _ _ clear => cases met.unique clear
  | taken there other clear nested owner =>
    cases h' with
    | null missing => cases missing.symm.trans there
    | itself => exact absurd rfl other
    | cycle _ _ met => cases met.unique clear
    | taken there' _ _ nested' owner' =>
      cases there.symm.trans there'
      cases nested.symm.trans nested'
      cases owner.symm.trans owner'
      rfl
    | linked there' _ _ free =>
      cases there.symm.trans there'
      cases nested.symm.trans free
  | linked there other clear free =>
    cases h' with
    | null missing => cases missing.symm.trans there
    | itself => exact absurd rfl other
    | cycle _ _ met => cases met.unique clear
    | taken there' _ _ nested _ =>
      cases there.symm.trans there'
      cases nested.symm.trans free
    | linked => rfl

theorem Nest.unique {id : Nat} {children : List (Option Nat)} {fault fault' : Option Fault}
    (h : Nest id s children t fault) (h' : Nest id s children t' fault') :
    t = t' ∧ fault = fault' := by
  induction h with
  | done =>
    cases h'
    exact ⟨rfl, rfl⟩
  | refused here failed =>
    cases h' with
    | refused here' failed' =>
      cases here.symm.trans here'
      cases failed.unique failed'
      exact ⟨rfl, rfl⟩
    | linked here' one' =>
      cases here.symm.trans here'
      cases failed.unique one'
  | linked here one _ ih =>
    cases h' with
    | refused here' failed' =>
      cases here.symm.trans here'
      cases one.unique failed'
    | linked here' one' others' =>
      cases here.symm.trans here'
      cases one.unique one'
      exact ih others'

theorem Step.unique {c : Call σ} (h : Step s c t) (h' : Step s c t') : t = t' := by
  cases h with
  | nest nests =>
    cases h' with
    | nest nests' => exact (nests.unique nests').1
    | other other => exact absurd rfl (other _ _)
  | other other =>
    cases h' with
    | nest => exact absurd rfl (other _ _)
    | other => rfl

theorem Runs.unique {calls : List (Call σ)} (h : Runs s calls t) (h' : Runs s calls t') :
    t = t' := by
  induction h with
  | nil =>
    cases h'
    rfl
  | cons step _ ih =>
    cases h' with
    | cons step' rest' =>
      cases step.unique step'
      exact ih rest'

theorem Runs.append {calls : List (Call σ)} {c : Call σ} (h : Runs s calls t) (step : Step t c t') :
    Runs s (calls ++ [c]) t' := by
  induction h with
  | nil => exact .cons step .nil
  | cons first _ ih => exact .cons first (ih step)

end

end Linkage

namespace Forest

def row? (f : Forest σ) (id : Nat) : Option (Router σ × List Nat) :=
  (f.tree? id).map fun tree => (tree.1.bare, tree.2.tops)

def linkage (f : Forest σ) : Linkage σ := fun id =>
  (f.row? id).map fun row =>
    { router := row.1, parent := (f.parent? id).map (·.ident), children := row.2 }

theorem row?_eq_find? (f : Forest σ) (id : Nat) :
    f.row? id = f.rows.find? (·.1.ident = id) := by
  induction f with
  | nil => rfl
  | cons r children siblings ihc ihs =>
    rw [row?, tree?_cons, rows, List.find?_cons, bare_ident, List.find?_append, ← ihc, ← ihs]
    by_cases here : r.ident = id
    · simp [here]
    · simp [here, row?, Option.map_or]

theorem ident_of_row? {f : Forest σ} {id : Nat} {row : Router σ × List Nat}
    (found : f.row? id = some row) : row.1.ident = id := by
  obtain ⟨⟨r, children⟩, tree, rfl⟩ := Option.map_eq_some_iff.mp found
  exact (routers_of_tree tree).1

theorem find?_row_iff {rows : List (Router σ × List Nat)}
    (distinct : (rows.map (·.1.ident)).Nodup) {id : Nat} {row : Router σ × List Nat} :
    rows.find? (·.1.ident = id) = some row ↔ row ∈ rows ∧ row.1.ident = id := by
  constructor
  · intro found
    have here := List.find?_some found
    exact ⟨List.mem_of_find?_eq_some found, of_decide_eq_true here⟩
  · rintro ⟨hrow, rfl⟩
    have inside : (rows.find? (·.1.ident = row.1.ident)).isSome = true :=
      List.find?_isSome.mpr ⟨row, hrow, decide_eq_true rfl⟩
    obtain ⟨row', found⟩ := Option.isSome_iff_exists.mp inside
    have here := List.find?_some found
    rw [found, List.inj_on_of_nodup_map distinct (List.mem_of_find?_eq_some found) hrow
      (of_decide_eq_true here)]

theorem row?_of_rows {f g : Forest σ} (distinct : g.idents.Nodup)
    {e : Router σ × List Nat → Router σ × List Nat} {made : List (Router σ)}
    (rows : g.rows.Perm (f.rows.map e ++ made.map (·, [])))
    (kept : ∀ row, (e row).1.ident = row.1.ident) (id : Nat) :
    g.row? id = ((f.row? id).map e).or ((made.find? (·.ident = id)).map (·, [])) := by
  have distinct' : (g.rows.map (·.1.ident)).Nodup := by rwa [map_ident_rows]
  have found : g.row? id = (f.rows.map e ++ made.map (·, [])).find? (·.1.ident = id) := by
    ext row
    rw [row?_eq_find?, find?_row_iff distinct', rows.mem_iff,
      find?_row_iff ((rows.map _).nodup_iff.mp distinct')]
  rw [found, List.find?_append, List.find?_map, List.find?_map, row?_eq_find?]
  congr 2
  · congr 1
    funext row
    change decide ((e row).1.ident = id) = _
    rw [kept]

theorem linkage_of_tree? {f : Forest σ} {id : Nat} {r : Router σ} {children : Forest σ}
    (found : f.tree? id = some (r, children)) :
    f.linkage id = some
      { router := r.bare, parent := (f.parent? id).map (·.ident), children := children.tops } := by
  rw [linkage, row?, found]
  rfl

theorem linkage_eq_none {f : Forest σ} {id : Nat} (missing : f.tree? id = none) :
    f.linkage id = none := by
  rw [linkage, row?, missing]
  rfl

theorem linkage_attach {f : Forest σ} (distinct : f.idents.Nodup) {r child : Router σ}
    {below : Forest σ} (top : f.parent? child.ident = none)
    (found : f.tree? child.ident = some (child, below))
    (remains : r.ident ∈ (f.removeRoot child.ident).idents) :
    (f.attach r child below).forest.linkage = f.linkage.link child.ident r.ident := by
  let put := enter r.ident (fun r : Router σ => r) [child.ident]
  have attached : (f.attach r child below).forest.rows.Perm
      (f.rows.map put ++ ([] : List (Router σ)).map (·, [])) := by
    rw [List.map_nil, List.append_nil]
    exact rows_attach distinct top found remains
  have kept := ident_enter (fun _ : Router σ => rfl) r.ident [child.ident]
  have distinct' : (f.attach r child below).forest.idents.Nodup :=
    ((routers_attach distinct top found remains).map _).nodup_iff.mpr distinct
  have parent (id : Nat) : ((f.attach r child below).forest.parent? id).map (·.ident) =
      if id = child.ident then some r.ident else (f.parent? id).map (·.ident) := by
    ext p
    rw [parent?_eq_some_iff distinct', mem_links_attach distinct top found remains,
      ← parent?_eq_some_iff distinct]
    by_cases here : id = child.ident
    · simp [here, top, eq_comm]
    · simp [here]
  funext id
  rw [linkage, row?_of_rows distinct' attached kept, parent, Linkage.link, linkage]
  cases found : f.row? id with
  | none => rfl
  | some row =>
    simp only [Option.map_some, Option.some_or, put, enter, ident_of_row? found]
    split <;> rfl

theorem linkage_apply {f : Forest σ} (distinct : f.idents.Nodup) {c : Call σ}
    (possible : c.Possible f) (other : ∀ id children, c ≠ .nest id children) :
    (c.apply f).forest.linkage = f.linkage.declare c := by
  have distinct' := distinct_apply distinct possible
  have parent (id : Nat) : ((c.apply f).forest.parent? id).map (·.ident) =
      (f.parent? id).map (·.ident) := by
    ext p
    rw [parent?_eq_some_iff distinct', mem_links_apply distinct possible other,
      parent?_eq_some_iff distinct]
  funext id
  rw [linkage, row?_of_rows distinct' (rows_apply distinct possible other)
    fun row => (c.redeclare_fields row.1).1, parent, Linkage.declare, linkage]
  cases found : f.row? id with
  | some row => rfl
  | none =>
    have outside : id ∉ f.idents := by
      rwa [← tree?_eq_none_iff, ← Option.map_eq_none_iff]
    have unlinked : f.parent? id = none := by
      rw [Option.eq_none_iff_forall_ne_some]
      intro p nested
      apply outside
      rw [f.perm_idents.mem_iff, List.mem_append]
      exact .inr (List.mem_map.mpr ⟨_, linked_of_parent? nested, rfl⟩)
    rw [unlinked]
    cases c.made.find? (·.ident = id) <;> rfl

theorem walk_linkage {f : Forest σ} (distinct : f.idents.Nodup) (rooted : Rooted f.NestedIn)
    (c id : Nat) : ∃ met, Linkage.Walk f.linkage c ((f.parent? id).map (·.ident)) met ∧
      (met = true ↔ TransGen f.NestedIn id c) := by
  -- From the roots down: the walk from a router goes on as the walk from the one it is nested
  -- in.
  induction id using rooted.upward.induction with
  | _ id ih =>
    cases parent : (f.parent? id).map (·.ident) with
    | none =>
      refine ⟨false, .top, iff_of_false Bool.false_ne_true fun above => ?_⟩
      obtain ⟨p, nested, -⟩ := TransGen.head'_iff.mp above
      cases parent.symm.trans nested
    | some p =>
      by_cases here : p = c
      · subst here
        exact ⟨true, .reached, iff_of_true rfl (.single parent)⟩
      · obtain ⟨met, walk, above⟩ := ih p parent
        obtain ⟨r, children, found, -⟩ :=
          tree?_of_linked distinct ((nestedIn_iff distinct).mp parent)
        refine ⟨met, .on here (linkage_of_tree? found) walk, above.trans ⟨.head parent, ?_⟩⟩
        intro climb
        obtain ⟨q, nested, rest⟩ := TransGen.head'_iff.mp climb
        cases parent.symm.trans nested
        exact (reflTransGen_iff_eq_or_transGen.mp rest).resolve_left (Ne.symm here)

theorem nestOne_linkage {f : Forest σ} (distinct : f.idents.Nodup) (rooted : Rooted f.NestedIn)
    {r : Router σ} {under : Forest σ} (here : f.tree? r.ident = some (r, under))
    (child : Option Nat) : ∃ into, f.linkage r.ident = some into ∧
      Linkage.NestOne f.linkage into child ((f.nestOne r child).map (·.forest.linkage)) := by
  refine ⟨_, linkage_of_tree? here, ?_⟩
  have inside := mem_idents_of_tree? here
  rw [nestOne]
  split
  · rename_i missing
    refine .null ?_
    cases child with
    | none => rfl
    | some c => exact linkage_eq_none missing
  rename_i child below bound
  obtain ⟨c, rfl, found⟩ := Option.bind_eq_some_iff.mp bound
  obtain ⟨rfl, -⟩ := routers_of_tree found
  have there := linkage_of_tree? found
  obtain ⟨met, walk, above⟩ := walk_linkage distinct rooted child.ident r.ident
  rw [← contains_iff_nestedIn distinct found] at above
  split
  · rename_i same
    rw [same] at there ⊢
    exact .itself there
  rename_i other
  split
  · rename_i cycle
    rw [above.mpr cycle] at walk
    exact .cycle there other walk
  rename_i acyclic
  rw [Bool.eq_false_iff.mpr (mt above.mp acyclic)] at walk
  split
  · rename_i parent nested
    obtain ⟨children, owned, -⟩ := tree?_of_parent? distinct nested
    rw [nested] at there
    exact .taken there other walk rfl (linkage_of_tree? owned)
  · rename_i top
    have remains := mem_idents_removeRoot top found inside other acyclic
    change Linkage.NestOne _ _ _ (.ok (f.attach r child below).forest.linkage)
    rw [linkage_attach distinct top found remains]
    exact .linked there other walk (by rw [top, Option.map_none])

theorem nest_linkage {f : Forest σ} (distinct : f.idents.Nodup) (rooted : Rooted f.NestedIn)
    {id : Nat} (inside : id ∈ f.idents) (children : List (Option Nat)) :
    Linkage.Nest id f.linkage children (f.nest id children).forest.linkage
      (f.nest id children).fault := by
  induction children generalizing f with
  | nil => exact .done
  | cons child rest ih =>
    obtain ⟨r, found, rfl⟩ := find?_of_mem_idents inside
    obtain ⟨⟨_, under⟩, tree, rfl⟩ := Option.map_eq_some_iff.mp found
    obtain ⟨into, here, one⟩ := nestOne_linkage distinct rooted tree child
    rcases accepted : f.nestOne _ child with fault | d
    · rw [accepted] at one
      rw [nest_of_error found accepted]
      exact .refused here one
    · rw [accepted] at one
      rw [(nest_of_ok found accepted rest).1, (nest_of_ok found accepted rest).2]
      obtain ⟨distinct', same⟩ := distinct_nestOne distinct inside accepted
      have rooted' := rooted_nestOne distinct inside accepted rooted
      exact .linked here one (ih distinct' rooted' ((same _).mpr inside))

theorem Reached.runs {calls : List (Call σ)} {f : Forest σ} (h : Reached calls f) :
    Linkage.Runs (fun _ => none) calls f.linkage := by
  induction h with
  | start => exact .nil
  | call c before possible ih =>
    refine ih.append ?_
    cases c with
    | nest id children =>
      exact .nest (nest_linkage before.distinct before.rooted (contains_iff.mp possible) children)
    | path | middlewares | handle | compose =>
      rw [linkage_apply before.distinct possible (by rintro _ _ ⟨⟩)]
      exact .other (by rintro _ _ ⟨⟩)

end Forest

open Forest in
theorem routers_form_forest {calls : List (Call σ)} {f : Forest σ} (hf : f.Reached calls) :
    (∀ c p, c ∈ (f.children p).map (·.ident) ↔ (f.parent? c).map (·.ident) = some p) ∧
      (f.idents.flatMap fun p => (f.children p).map (·.ident)).Nodup ∧
      (∀ id, ¬TransGen f.NestedIn id id) ∧ Rooted f.NestedIn ∧
      (∀ id ∈ f.idents, ∀ children, ∃ done rest, f.NestedUpTo id children done rest) ∧
      (∀ s, Linkage.Runs (fun _ => none) calls s ↔ s = f.linkage) ∧
      ∀ id ∈ f.idents, ∀ children t fault, Linkage.Nest id f.linkage children t fault ↔
        t = (f.nest id children).forest.linkage ∧ fault = (f.nest id children).fault := by
  have distinct := hf.distinct
  refine ⟨fun c p => ?_, ?_, hf.rooted.acyclic, hf.rooted, fun id inside => ?_, fun s => ?_,
    fun id inside children t fault => ?_⟩
  · rw [mem_children_iff distinct, parent?_eq_some_iff distinct]
  · rw [children_eq_linked distinct]
    exact nodup_linked distinct
  · exact nestedUpTo distinct inside
  · exact ⟨fun runs => runs.unique hf.runs, fun same => same ▸ hf.runs⟩
  · have nests := nest_linkage distinct hf.rooted inside children
    constructor
    · exact fun other => other.unique nests
    · rintro ⟨rfl, rfl⟩
      exact nests

def knotted : List (Call Unit) :=
  [.path 0 [], .path 1 (ascii "/a"), .path 2 (ascii "/b"), .path 3 (ascii "/c"),
    .nest 1 [some 2, some 2], .nest 0 [some 1, none], .nest 2 [some 3, some 0, some 1]]

open Forest in
theorem routers_form_forest_knotted :
    let f := nil.after knotted
    (f.nest 2 [some 0]).fault =
        some (.route (ascii "Nesting '' into '/b' would create a cycle") 0) ∧
      (f.linkage 2).map (fun l => (l.parent, l.children)) = some (some 1, [3]) ∧
      (∀ c p, c ∈ (f.children p).map (·.ident) ↔ (f.parent? c).map (·.ident) = some p) ∧
      (f.idents.flatMap fun p => (f.children p).map (·.ident)).Nodup ∧
      (∀ id, ¬TransGen f.NestedIn id id) ∧ Rooted f.NestedIn ∧
      (∀ id ∈ f.idents, ∀ children, ∃ done rest, f.NestedUpTo id children done rest) ∧
      (∀ s, Linkage.Runs (fun _ => none) knotted s ↔ s = f.linkage) ∧
      ∀ id ∈ f.idents, ∀ children t fault, Linkage.Nest id f.linkage children t fault ↔
        t = (f.nest id children).forest.linkage ∧ fault = (f.nest id children).fault := by
  have reached : Reached knotted (nil.after knotted) := Reached.start.after (by decide +kernel)
  exact ⟨by decide +kernel, by decide +kernel, routers_form_forest reached⟩

end HttpRouting
