import HttpRouting.Proofs.Tables

/-!
Composing again what has been declared. Calls store routes in the order in which they are made,
and composing stores them in the order in which routers are nested. Main statement: composing a
router changes no table just if the two orders agree on every key that several lines spell.
-/

namespace HttpRouting

open Router

variable {σ : Type}

theorem origin_along_cons (r : Router σ) {line : List (Router σ)} (h : line ≠ []) :
    (Entry.along (r :: line)).origin = (Entry.along line).origin := by
  rw [← extend_along r h, extend]

namespace Forest

theorem origins_sublist (f : Forest σ) :
    (f.lines.map fun line => (Entry.along line).origin).Sublist f.idents := by
  induction f with
  | nil => exact .slnil
  | cons r children siblings ihc ihs =>
    have below : (children.lines.map (r.bare :: ·)).map (fun line => (Entry.along line).origin) =
        children.lines.map fun line => (Entry.along line).origin := by
      rw [List.map_map]
      exact List.map_congr_left fun line hl => origin_along_cons r.bare (ne_nil_of_mem_lines hl)
    rw [idents_cons, lines, List.append_assoc, List.map_append, List.map_append, below]
    have rest := ihc.append ihs
    split
    · exact rest.cons _
    · exact rest.cons_cons _

theorem line_of_origin {f : Forest σ} (distinct : f.idents.Nodup) {line line' : List (Router σ)}
    (hl : line ∈ f.lines) (hl' : line' ∈ f.lines)
    (same : (Entry.along line).origin = (Entry.along line').origin) : line = line' :=
  eq_of_nodup_map ((origins_sublist f).nodup distinct) hl hl' same

def origins (f : Forest σ) : List (Bytes × Nat) :=
  f.lines.map fun line => (spell line, (Entry.along line).origin)

theorem origins_cons (r : Router σ) (children siblings : Forest σ) :
    (cons r children siblings).origins =
      (if r.handlers.isEmpty then [] else [(r.template.urlPath, r.ident)]) ++
        children.origins.map (fun e => (r.template.urlPath ++ e.1, e.2)) ++ siblings.origins := by
  have below : (children.lines.map (r.bare :: ·)).map
        (fun line => (spell line, (Entry.along line).origin)) =
      children.origins.map fun e => (r.template.urlPath ++ e.1, e.2) := by
    rw [origins, List.map_map, List.map_map]
    refine List.map_congr_left fun line hl => Prod.ext (spell_cons r.bare line) ?_
    exact origin_along_cons r.bare (ne_nil_of_mem_lines hl)
  rw [origins, lines, List.map_append, List.map_append, below]
  congr 2
  cases r.handlers.isEmpty
  · rw [if_neg Bool.false_ne_true, if_neg Bool.false_ne_true, List.map_singleton, spell_cons,
      spell_nil, List.append_nil]
    rfl
  · rfl

end Forest

theorem Router.Current.eq_of_origins {r r' : Router σ} {children : Forest σ}
    (h : r.Current children) (h' : r'.Current children) (distinct : children.idents.Nodup)
    (same : r.bare = r'.bare)
    (origins : ∀ k, (r.routes.find? k).map (·.origin) = (r'.routes.find? k).map (·.origin)) :
    r = r' := by
  refine Router.eq_of_bare same (Dictionary.ext_find? fun k => ?_)
  specialize origins k
  cases found : r.routes.find? k with
  | none =>
    rw [found, Option.map_none, eq_comm, Option.map_eq_none_iff] at origins
    rw [origins]
  | some e =>
    rw [found, Option.map_some, eq_comm, Option.map_eq_some_iff] at origins
    obtain ⟨e', found', origin⟩ := origins
    obtain ⟨line, hl, rfl, rfl⟩ := h.fresh k e found
    obtain ⟨line', hl', -, rfl⟩ := h'.fresh _ e' found'
    rw [origin_along_cons _ (Forest.ne_nil_of_mem_lines hl),
      origin_along_cons _ (Forest.ne_nil_of_mem_lines hl')] at origin
    rw [found', Forest.line_of_origin distinct hl' hl origin, ← along_bare r, same, along_bare]

/-- At each key the table has what the last line that spells it serves, in the order in which
routers are nested. -/
def Router.Settled (r : Router σ) (children : Forest σ) : Prop :=
  ∀ k, (r.routes.find? k).map (·.origin) =
    latest k children.origins

def Router.Holds (r next : Router σ) : Prop :=
  ∀ k e, latest k next.offers = some e → (r.routes.find? k).map (·.origin) = some e.origin

namespace Forest

def Settled : Forest σ → Prop
  | nil => True
  | cons r children siblings => r.Settled children ∧ children.Settled ∧ siblings.Settled

theorem origins_offers {r : Router σ} {children : Forest σ} (settled : r.Settled children)
    (k : Bytes) :
    (latest k r.offers).map (·.origin) = latest k (cons r children nil).origins := by
  have cancel : Function.Injective (r.template.urlPath ++ ·) := fun _ _ => List.append_cancel_left
  have table (k : Bytes) :
      latest k (r.routes.entries.map fun e => (e.1, e.2.origin)) = latest k children.origins := by
    rw [latest_map_value, Dictionary.latest_entries, settled]
  have above := latest_map_key_congr cancel table k
  rw [List.map_map] at above
  have own : (if r.handlers.isEmpty then [] else [(r.template.urlPath, r.ownEntry)]).map
        (fun e => (e.1, e.2.origin)) =
      if r.handlers.isEmpty then [] else [(r.template.urlPath, r.ident)] := by
    split <;> rfl
  have none : (nil : Forest σ).origins = [] := rfl
  rw [← latest_map_value, Router.offers, List.map_append, own, List.map_map, origins_cons, none,
    List.append_nil, latest_append, latest_append, ← above]
  rfl

theorem Settled.origins_offers {f : Forest σ} (h : f.Settled) (k : Bytes) :
    (latest k f.offers).map (·.origin) = latest k f.origins := by
  induction f with
  | nil => rfl
  | cons r children siblings _ ih =>
    obtain ⟨top, -, beside⟩ := h
    have split : (cons r children siblings).origins =
        (cons r children nil).origins ++ siblings.origins := by
      rw [origins, lines_cons_split, List.map_append, origins, origins]
    rw [offers_cons, latest_append, Option.map_or, ih beside, Forest.origins_offers top, split,
      latest_append]

theorem settled_iff {f : Forest σ} (distinct : f.idents.Nodup) :
    f.Settled ↔ ∀ id r children, f.tree? id = some (r, children) → r.Settled children := by
  induction f with
  | nil => exact ⟨fun _ id r children found => absurd found nofun, fun _ => trivial⟩
  | cons first below siblings ihc ihs =>
    rw [idents_cons, List.nodup_cons, List.mem_append, not_or, List.nodup_append] at distinct
    obtain ⟨⟨absentc, absents⟩, distinctc, distincts, apart⟩ := distinct
    rw [Settled, ihc distinctc, ihs distincts]
    constructor
    · rintro ⟨top, under, beside⟩ id r children found
      rw [tree?_cons] at found
      split at found
      · cases found
        exact top
      · rcases Option.or_eq_some_iff.mp found with found | ⟨-, found⟩
        · exact under id r children found
        · exact beside id r children found
    · intro all
      refine ⟨all first.ident first below (by rw [tree?_cons, if_pos rfl]), ?_, ?_⟩
      · intro id r children found
        have inside := mem_idents_of_tree? found
        exact all id r children (tree?_of_mem_children siblings absentc inside ▸ found)
      · intro id r children found
        have inside := mem_idents_of_tree? found
        have elsewhere : first.ident ≠ id := fun same => absents (same ▸ inside)
        have outside : id ∉ below.idents := fun other => apart id other id inside rfl
        exact all id r children (tree?_of_not_mem_children siblings elsewhere outside ▸ found)

theorem absorbAll_eq_iff {r : Router σ} {children : Forest σ} (h : r.Current children)
    (under : children.Current) (distinct : children.idents.Nodup) (settled : children.Settled) :
    r.absorbAll children.roots = r ↔ r.Settled children := by
  have absorbed (k : Bytes) : ((r.absorbAll children.roots).routes.find? k).map (·.origin) =
      latest k children.origins := by
    have offered : (latest k children.offers).map ((·.origin) ∘ r.extend) =
        latest k children.origins := settled.origins_offers k
    rw [find?_absorbAll, Option.map_or, Option.map_map]
    change ((latest k children.offers).map _).or _ = _
    rw [offered]
    cases last : latest k children.origins with
    | some origin => rfl
    | none =>
      rw [Option.none_or, Option.map_eq_none_iff, Option.eq_none_iff_forall_ne_some]
      intro e found
      obtain ⟨line, hl, spelled, -⟩ := h.fresh k e found
      exact latest_eq_none_iff.mp last _ (List.mem_map_of_mem hl) spelled
  have current : (r.absorbAll children.roots).Current children :=
    current_absorbAll under fun k e hk => by
      obtain ⟨line, hl, spelled, -⟩ := h.fresh k e hk
      exact ⟨line, hl, spelled⟩
  constructor
  · intro same k
    rw [← absorbed, same]
  · intro own
    refine current.eq_of_origins h distinct (bare_absorbAll r _) fun k => ?_
    rw [absorbed, own]

theorem rebuild_eq_iff {f : Forest σ} (h : f.Current) (distinct : f.idents.Nodup) :
    f.rebuild.value = f ↔ f.Settled := by
  induction f with
  | nil => exact ⟨fun _ => trivial, fun _ => rfl⟩
  | cons r children siblings ihc ihs =>
    obtain ⟨top, under, beside⟩ := h
    rw [idents_cons, List.nodup_cons, List.nodup_append] at distinct
    obtain ⟨-, distinctc, distincts, -⟩ := distinct
    rw [value_rebuild_cons, Settled, ← ihs beside distincts, cons.injEq]
    constructor
    · rintro ⟨same, samec, sames⟩
      have settled := (ihc under distinctc).mp samec
      rw [samec] at same
      exact ⟨(absorbAll_eq_iff top under distinctc settled).mp same, settled, sames⟩
    · rintro ⟨own, settled, sames⟩
      have samec := (ihc under distinctc).mpr settled
      rw [samec]
      exact ⟨(absorbAll_eq_iff top under distinctc settled).mpr own, rfl, sames⟩

def lineage : Forest σ → Nat → List (Router σ)
  | nil, _ => []
  | cons r children siblings, id =>
    if r.ident = id then [r]
    else if children.contains id then r :: children.lineage id
    else siblings.lineage id

theorem absorb_eq_iff {r next : Router σ} {children below : Forest σ} (h : r.Current children)
    (hn : next.Current below) (rev : Revised children children next below)
    (distinct : children.idents.Nodup) : (r.absorb next).value = r ↔ r.Holds next := by
  constructor
  · intro same k e offered
    rw [← same, origin_absorb, offered, Option.map_some, Option.some_or]
  · intro holds
    refine (h.absorb rev hn).eq_of_origins h distinct (bare_absorb r next) fun k => ?_
    rw [origin_absorb]
    cases offered : latest k next.offers with
    | none => rfl
    | some e => exact (holds k e offered).symm

def composing (r : Router σ) (children : Forest σ) : Noted (Router σ × Forest σ) := do
  let children ← children.rebuild
  return (← children.roots.foldlM Router.absorb r, children)

/-- Every router takes from the next what it holds already. -/
def Steady (lineage : List (Router σ)) : Prop :=
  ∀ above next, [above, next] <:+: lineage → above.Holds next

theorem steady_singleton (r : Router σ) : Steady [r] := by
  intro above next adjacent
  exact absurd adjacent.length_le (Nat.not_succ_le_self 1)

theorem Steady.tail {r : Router σ} {rest : List (Router σ)} (h : Steady (r :: rest)) :
    Steady rest :=
  fun above next adjacent => h above next (adjacent.trans (List.suffix_cons r rest).isInfix)

theorem steady_cons_cons {r next : Router σ} {rest : List (Router σ)} :
    Steady (r :: next :: rest) ↔ r.Holds next ∧ Steady (next :: rest) := by
  constructor
  · intro steady
    exact ⟨steady r next ⟨[], rest, rfl⟩, steady.tail⟩
  · rintro ⟨holds, steady⟩ above below adjacent
    rcases List.infix_cons_iff.mp adjacent with start | later
    · obtain ⟨rfl, onward⟩ := List.cons_prefix_cons.mp start
      obtain ⟨rfl, -⟩ := List.cons_prefix_cons.mp onward
      exact holds
    · exact steady above below later

theorem revise_eq_iff {f : Forest σ} (h : f.Current) (distinct : f.idents.Nodup) {id : Nat}
    {r : Router σ} {below : Forest σ} (found : f.tree? id = some (r, below))
    {revision : Noted (Revision σ)} (revised : f.revise composing id = some revision) :
    (revision.value.forest = f ↔ (cons r below nil).Settled ∧ Steady (f.lineage id)) ∧
      (revision.value.forest = f → (f.lineage id).head? = some revision.value.top) := by
  induction f generalizing revision with
  | nil => cases found
  | cons first children siblings ihc ihs =>
    obtain ⟨top, under, beside⟩ := h
    rw [idents_cons, List.nodup_cons, List.mem_append, not_or, List.nodup_append] at distinct
    obtain ⟨⟨absentc, -⟩, distinctc, distincts, -⟩ := distinct
    rcases revise_cons_of_tree? absentc found revised with ⟨here, rfl, rfl, value⟩ |
      ⟨elsewhere, inside, found, inner, rest, value⟩ |
      ⟨elsewhere, outside, found, other, rest, value⟩
    all_goals rw [value, lineage, cons.injEq]
    · rw [if_pos here]
      have distinct' : (cons first children nil).idents.Nodup := by
        have none : (nil : Forest σ).idents = [] := rfl
        rw [idents_cons, none, List.append_nil]
        exact List.nodup_cons.mpr ⟨absentc, distinctc⟩
      have tree : (cons first children nil).rebuild.value = _ ↔ _ :=
        rebuild_eq_iff ⟨top, under, trivial⟩ distinct'
      rw [value_rebuild_cons, cons.injEq] at tree
      constructor
      · constructor
        · rintro ⟨same, samec, -⟩
          exact ⟨tree.mp ⟨same, samec, rfl⟩, steady_singleton first⟩
        · rintro ⟨settled, -⟩
          obtain ⟨same, samec, -⟩ := tree.mpr settled
          exact ⟨same, samec, rfl⟩
      · rintro ⟨same, -, -⟩
        exact congrArg some same.symm
    · rw [if_neg elsewhere]
      obtain ⟨same_iff, head⟩ := ihc under distinctc found rest
      obtain ⟨-, bottom, current, rev⟩ := keeps_rebuild.revise under rest
      rw [if_pos (contains_iff.mpr inside)]
      constructor
      · constructor
        · rintro ⟨same, samec, -⟩
          obtain ⟨settled, steady⟩ := same_iff.mp samec
          obtain ⟨lower, chain⟩ := List.head?_eq_some_iff.mp (head samec)
          rw [samec] at rev
          rw [chain] at steady ⊢
          have holds := (absorb_eq_iff top current rev distinctc).mp same
          exact ⟨settled, steady_cons_cons.mpr ⟨holds, steady⟩⟩
        · rintro ⟨settled, steady⟩
          have samec := same_iff.mpr ⟨settled, steady.tail⟩
          obtain ⟨lower, chain⟩ := List.head?_eq_some_iff.mp (head samec)
          rw [samec] at rev
          rw [chain] at steady
          have holds := (steady_cons_cons.mp steady).1
          exact ⟨(absorb_eq_iff top current rev distinctc).mpr holds, samec, rfl⟩
      · rintro ⟨same, -, -⟩
        exact congrArg some same.symm
    · rw [if_neg elsewhere, if_neg (fun inside => outside (contains_iff.mp inside))]
      obtain ⟨same_iff, head⟩ := ihs beside distincts found rest
      refine ⟨?_, fun same => head same.2.2⟩
      rw [← same_iff]
      exact ⟨fun same => same.2.2, fun same => ⟨rfl, rfl, same⟩⟩

def bare : Forest σ → Forest σ
  | nil => nil
  | cons r children siblings => cons r.bare children.bare siblings.bare

theorem routers_bare (f : Forest σ) : f.bare.routers = f.routers := by
  induction f with
  | nil => rfl
  | cons r children siblings ihc ihs => rw [bare, routers, ihc, ihs, routers, Router.bare]; rfl

theorem bare_rebuild (f : Forest σ) : f.rebuild.value.bare = f.bare := by
  induction f with
  | nil => rfl
  | cons r children siblings ihc ihs =>
    rw [value_rebuild_cons, bare, bare, bare_absorbAll, ihc, ihs]

theorem bare_revise {f : Forest σ} {id : Nat} {revision : Noted (Revision σ)}
    (revised : f.revise composing id = some revision) : revision.value.forest.bare = f.bare := by
  induction f generalizing revision with
  | nil => cases revised
  | cons r children siblings ihc ihs =>
    rcases revise_cons revised with ⟨-, value⟩ | ⟨-, below, found, value⟩ |
      ⟨-, -, beside, found, value⟩
    all_goals rw [value, bare, bare]
    · change cons (r.absorbAll _).bare children.rebuild.value.bare siblings.bare = _
      rw [bare_absorbAll, bare_rebuild]
    · rw [bare_absorb, ihc found]
    · rw [ihs found]

theorem eq_of_tables {f g : Forest σ} (same : f.bare = g.bare) (distinct : f.idents.Nodup)
    (tables : ∀ id, (f.find? id).map (·.routes) = (g.find? id).map (·.routes)) : f = g := by
  induction f generalizing g with
  | nil =>
    cases g with
    | nil => rfl
    | cons => cases same
  | cons r children siblings ihc ihs =>
    cases g with
    | nil => cases same
    | cons r' children' siblings' =>
      rw [bare, bare, cons.injEq] at same
      obtain ⟨samer, samec, sames⟩ := same
      rw [idents_cons, List.nodup_cons, List.mem_append, not_or, List.nodup_append] at distinct
      obtain ⟨⟨absentc, absents⟩, distinctc, distincts, apart⟩ := distinct
      have ident : r'.ident = r.ident := congrArg (fun r => r.ident) samer.symm
      have identsc : children'.idents = children.idents := by
        rw [idents, ← routers_bare, ← samec, routers_bare, idents]
      have identss : siblings'.idents = siblings.idents := by
        rw [idents, ← routers_bare, ← sames, routers_bare, idents]
      have samer' : r = r' := by
        have routes := tables r.ident
        rw [find?, tree?_cons, if_pos rfl, find?, tree?_cons, if_pos ident] at routes
        exact Router.eq_of_bare samer (Option.some.inj routes)
      have samec' : children = children' := by
        refine ihc samec distinctc fun id => ?_
        by_cases inside : id ∈ children.idents
        · have routes := tables id
          have absentc' : r'.ident ∉ children'.idents := ident ▸ identsc ▸ absentc
          rwa [find?, tree?_of_mem_children siblings absentc inside, find?,
            tree?_of_mem_children siblings' absentc' (identsc ▸ inside)] at routes
        · rw [find?, tree?_eq_none_iff.mpr inside, find?,
            tree?_eq_none_iff.mpr (identsc ▸ inside)]
      have sames' : siblings = siblings' := by
        refine ihs sames distincts fun id => ?_
        by_cases inside : id ∈ siblings.idents
        · have routes := tables id
          have elsewhere : r.ident ≠ id := fun here => absents (here ▸ inside)
          have outside : id ∉ children.idents := fun other => apart id other id inside rfl
          rwa [find?, tree?_of_not_mem_children siblings elsewhere outside, find?,
            tree?_of_not_mem_children siblings' (ident ▸ elsewhere) (identsc ▸ outside)] at routes
        · rw [find?, tree?_eq_none_iff.mpr inside, find?,
            tree?_eq_none_iff.mpr (identss ▸ inside)]
      rw [samer', samec', sames']

end Forest

theorem compose_unchanged_iff {calls : List (Call σ)} {f : Forest σ} (hf : f.Reached calls)
    {id : Nat} {r : Router σ} {below : Forest σ} (found : f.tree? id = some (r, below)) :
    (∀ id', ((f.compose id).forest.find? id').map (·.routes) = (f.find? id').map (·.routes)) ↔
      (∀ id' r' children, (Forest.cons r below .nil).tree? id' = some (r', children) →
        r'.Settled children) ∧ Forest.Steady (f.lineage id) := by
  have distinct := hf.distinct
  have inside := Forest.mem_idents_of_tree? found
  obtain ⟨revision, revised⟩ := Option.ne_none_iff_exists'.mp
    (mt Forest.revise_eq_none_iff.mp (Decidable.not_not.mpr inside) :
      f.revise Forest.composing id ≠ none)
  have composed : (f.compose id).forest = revision.value.forest := by
    change (f.declare id Forest.composing).forest = _
    rw [Forest.declare, revised]
  have tree : (Forest.cons r below .nil).idents.Nodup :=
    ((Forest.routers_of_tree found).2.map _).nodup distinct
  have same_iff := (Forest.revise_eq_iff hf.current distinct found revised).1
  rw [composed, ← Forest.settled_iff tree, ← same_iff]
  constructor
  · intro tables
    have same := (Forest.bare_revise revised).symm
    exact (Forest.eq_of_tables same distinct fun id' => (tables id').symm).symm
  · intro same id'
    rw [same]

def drifting : List (Call Unit) :=
  [.path 0 [], .path 1 (ascii "/x"), .path 2 (ascii "/x"),
    .handle 1 .get (some (plainHandler 0)), .handle 2 .get (some (plainHandler 1)),
    .nest 0 [some 1, some 2], .handle 1 .put (some (plainHandler 2))]

theorem compose_unchanged_iff_drifting :
    ∃ r below, (Forest.nil.after drifting).tree? 1 = some (r, below) ∧
      ((∀ id', (((Forest.nil.after drifting).compose 1).forest.find? id').map (·.routes) =
          ((Forest.nil.after drifting).find? id').map (·.routes)) ↔
        (∀ id' r' children, (Forest.cons r below .nil).tree? id' = some (r', children) →
          r'.Settled children) ∧ Forest.Steady ((Forest.nil.after drifting).lineage 1)) := by
  have reached : Forest.Reached drifting (Forest.nil.after drifting) :=
    Forest.Reached.start.after (by decide +kernel)
  have inside : ((Forest.nil.after drifting).tree? 1).isSome = true := by decide +kernel
  obtain ⟨⟨r, below⟩, found⟩ := Option.isSome_iff_exists.mp inside
  exact ⟨r, below, found, compose_unchanged_iff reached found⟩

theorem compose_changes_drifting :
    Forest.Reached drifting (Forest.nil.after drifting) ∧
      (Forest.nil.after drifting).contains 0 = true ∧
      (((Forest.nil.after drifting).compose 0).forest.find? 0).map (·.routes) ≠
        ((Forest.nil.after drifting).find? 0).map (·.routes) := by
  refine ⟨Forest.Reached.start.after (by decide +kernel), by decide +kernel, fun same => ?_⟩
  have origins := congrArg (·.map fun routes => (routes.find? (ascii "/x")).map (·.origin)) same
  revert origins
  decide +kernel

end HttpRouting
