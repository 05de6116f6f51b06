import HttpRouting.Proofs.Recomposition

/-!
What declaring a handler changes in the tables above. Main statement: the router takes over its own
key in all of them and no entry at another key just if nothing below it spells the empty text, and
every router on the way up holds already what it is offered at other keys.
-/

namespace HttpRouting

open Router

variable {σ : Type}

namespace Forest

theorem find?_cons (r : Router σ) (children siblings : Forest σ) (id : Nat) :
    (cons r children siblings).find? id =
      if r.ident = id then some r else (children.find? id).or (siblings.find? id) := by
  rw [find?, tree?_cons, find?, find?]
  split
  · rfl
  · rw [Option.map_or]

def entryAt? (f : Forest σ) (id : Nat) (k : Bytes) : Option (Entry σ) :=
  (f.find? id).bind fun r => r.routes.find? k

def KeyAbove (f : Forest σ) (id a : Nat) (k : Bytes) : Prop :=
  ∃ above below, (above :: below) <:+ f.lineage id ∧ above.ident = a ∧ below ≠ [] ∧ spell below = k

def keysAlong : List (Router σ) → List (Nat × Bytes)
  | [] => []
  | r :: rest => (if rest.isEmpty then [] else [(r.ident, spell rest)]) ++ keysAlong rest

theorem mem_keysAlong_iff {lineage : List (Router σ)} {a : Nat} {k : Bytes} :
    (a, k) ∈ keysAlong lineage ↔ ∃ above below, (above :: below) <:+ lineage ∧ above.ident = a ∧
      below ≠ [] ∧ spell below = k := by
  induction lineage with
  | nil => simp [keysAlong]
  | cons r rest ih =>
    rw [keysAlong, List.mem_append, ih]
    constructor
    · rintro (own | ⟨above, below, suffix, found⟩)
      · split at own
        · cases own
        · rename_i nested
          cases List.mem_singleton.mp own
          exact ⟨r, rest, List.suffix_refl _, rfl, mt List.isEmpty_iff.mpr nested, rfl⟩
      · exact ⟨above, below, suffix.trans (List.suffix_cons _ _), found⟩
    · rintro ⟨above, below, suffix, rfl, nested, rfl⟩
      rcases List.suffix_cons_iff.mp suffix with whole | inner
      · cases whole
        left
        rw [if_neg (mt List.isEmpty_iff.mp nested)]
        exact List.mem_singleton.mpr rfl
      · exact .inr ⟨above, below, inner, rfl, nested, rfl⟩

instance (f : Forest σ) (id a : Nat) (k : Bytes) : Decidable (f.KeyAbove id a k) :=
  decidable_of_iff ((a, k) ∈ keysAlong (f.lineage id)) mem_keysAlong_iff

def SteadyElsewhere (lineage : List (Router σ)) : Prop :=
  ∀ above next rest, (above :: next :: rest) <:+ lineage → ∀ k e, latest k next.offers = some e →
    k ≠ spell (next :: rest) → (above.routes.find? k).map (·.origin) = some e.origin

theorem SteadyElsewhere.suffix {lineage lower : List (Router σ)} (h : SteadyElsewhere lineage)
    (suffix : lower <:+ lineage) : SteadyElsewhere lower :=
  fun above next rest inner => h above next rest (inner.trans suffix)

theorem lineage_sublist (f : Forest σ) (id : Nat) :
    ((f.lineage id).map (·.bare)).Sublist f.routers := by
  induction f with
  | nil => exact .slnil
  | cons r children siblings ihc ihs =>
    rw [lineage, routers]
    split
    · exact (List.nil_sublist _).cons_cons _
    · split
      · exact (ihc.trans (List.sublist_append_left _ _)).cons_cons _
      · exact (ihs.trans (List.sublist_append_right _ _)).cons _

theorem nodup_lineage {f : Forest σ} (distinct : f.idents.Nodup) (id : Nat) :
    ((f.lineage id).map (·.ident)).Nodup := by
  have sublist := (lineage_sublist f id).map (·.ident)
  rw [List.map_map] at sublist
  exact sublist.nodup distinct

theorem find?_of_mem_lineage {f : Forest σ} (distinct : f.idents.Nodup) {id : Nat} {r : Router σ}
    (h : r ∈ f.lineage id) : f.find? r.ident = some r := by
  induction f with
  | nil => cases h
  | cons first children siblings ihc ihs =>
    rw [idents_cons, List.nodup_cons, List.mem_append, not_or, List.nodup_append] at distinct
    obtain ⟨⟨absentc, absents⟩, distinctc, distincts, apart⟩ := distinct
    have inside {g : Forest σ} (found : g.find? r.ident = some r) : r.ident ∈ g.idents := by
      obtain ⟨tree, found, -⟩ := Option.map_eq_some_iff.mp found
      exact mem_idents_of_tree? found
    rw [lineage] at h
    rw [find?_cons]
    split at h
    · rw [List.mem_singleton.mp h, if_pos rfl]
    · split at h
      · rcases List.mem_cons.mp h with rfl | h
        · rw [if_pos rfl]
        · have found := ihc distinctc h
          have elsewhere : first.ident ≠ r.ident := fun same => absentc (same ▸ inside found)
          rw [if_neg elsewhere, found, Option.some_or]
      · have found := ihs distincts h
        have outside : children.find? r.ident = none := by
          rw [find?, tree?_eq_none_iff.mpr fun other => apart _ other _ (inside found) rfl,
            Option.map_none]
        have elsewhere : first.ident ≠ r.ident := fun same => absents (same ▸ inside found)
        rw [if_neg elsewhere, outside, Option.none_or, found]

end Forest

inductive Raised (bottom : Router σ) (handlers : Dictionary Method (Handler σ)) :
    List (Router σ) → List (Router σ) → Prop
  | bottom : Raised bottom handlers [bottom] [{ bottom with handlers }]
  | above (r : Router σ) {next next' : Router σ} {rest rest' : List (Router σ)}
      (h : Raised bottom handlers (next :: rest) (next' :: rest')) :
      Raised bottom handlers (r :: next :: rest) ((r.absorb next').value :: next' :: rest')

theorem Raised.absorbed {bottom top : Router σ} {handlers : Dictionary Method (Handler σ)}
    {chain chain' : List (Router σ)} (h : Raised bottom handlers chain chain')
    (head : chain'.head? = some top) (r : Router σ) :
    Raised bottom handlers (r :: chain) ((r.absorb top).value :: chain') := by
  cases h with
  | bottom =>
    cases head
    exact .above r .bottom
  | above first inner =>
    cases head
    exact .above r (.above first inner)

namespace Forest

def redeclaring (change : Router σ → Dictionary Method (Handler σ)) (r : Router σ)
    (children : Forest σ) : Noted (Router σ × Forest σ) :=
  return ({ r with handlers := change r }, children)

variable {change : Router σ → Dictionary Method (Handler σ)} {f : Forest σ} {id : Nat}
variable {revision : Noted (Revision σ)}

theorem idents_revise (revised : f.revise (redeclaring change) id = some revision) :
    revision.value.forest.idents = f.idents := by
  induction f generalizing revision with
  | nil => cases revised
  | cons r children siblings ihc ihs =>
    rcases revise_cons revised with ⟨-, value⟩ | ⟨-, below, found, value⟩ |
      ⟨-, -, beside, found, value⟩
    all_goals rw [value, idents_cons, idents_cons]
    · rfl
    · rw [ident_absorb, ihc found]
    · rw [ihs found]

theorem raised_revise (distinct : f.idents.Nodup) {r : Router σ} {below : Forest σ}
    (found : f.tree? id = some (r, below))
    (revised : f.revise (redeclaring change) id = some revision) :
    Raised r (change r) (f.lineage id) (revision.value.forest.lineage id) ∧
      (revision.value.forest.lineage id).head? = some revision.value.top := by
  induction f generalizing revision with
  | nil => cases found
  | cons first children siblings ihc ihs =>
    rw [idents_cons, List.nodup_cons, List.mem_append, not_or, List.nodup_append] at distinct
    obtain ⟨⟨absentc, -⟩, distinctc, distincts, -⟩ := distinct
    rcases revise_cons_of_tree? absentc found revised with ⟨here, rfl, rfl, value⟩ |
      ⟨elsewhere, inside, found, inner, rest, value⟩ |
      ⟨elsewhere, outside, found, other, rest, value⟩
    all_goals rw [value, lineage, lineage]
    · rw [if_pos here]
      change Raised first (change first) [first] (if first.ident = id then _ else _) ∧
        (if first.ident = id then [_] else _).head? = _
      rw [if_pos here]
      exact ⟨.bottom, rfl⟩
    · obtain ⟨raised, head⟩ := ihc distinctc found rest
      have inside' := contains_iff.mpr (idents_revise rest ▸ inside)
      rw [if_neg elsewhere, if_pos (contains_iff.mpr inside), ident_absorb, if_neg elsewhere,
        if_pos inside']
      exact ⟨raised.absorbed head first, rfl⟩
    · have outside' := mt contains_iff.mp outside
      rw [if_neg elsewhere, if_neg elsewhere, if_neg outside', if_neg outside']
      exact ihs distincts found rest

theorem find?_revise (distinct : f.idents.Nodup)
    (revised : f.revise (redeclaring change) id = some revision) {a : Nat}
    (aside : a ∉ (f.lineage id).map (·.ident)) : revision.value.forest.find? a = f.find? a := by
  induction f generalizing revision with
  | nil => cases revised
  | cons first children siblings ihc ihs =>
    rw [idents_cons, List.nodup_cons, List.nodup_append] at distinct
    obtain ⟨-, distinctc, distincts, -⟩ := distinct
    rw [lineage] at aside
    rcases revise_cons revised with ⟨here, value⟩ | ⟨elsewhere, inner, rest, value⟩ |
      ⟨elsewhere, missing, other, rest, value⟩
    all_goals rw [value, find?_cons, find?_cons]
    · rw [if_pos here, List.map_singleton, List.mem_singleton] at aside
      rw [if_neg (Ne.symm aside)]
      exact if_neg (Ne.symm aside)
    · have inside := mem_idents_of_revise rest
      rw [if_neg elsewhere, if_pos (contains_iff.mpr inside), List.map_cons, List.mem_cons,
        not_or] at aside
      rw [ident_absorb, if_neg (Ne.symm aside.1), if_neg (Ne.symm aside.1),
        ihc distinctc rest aside.2]
    · have outside' := mt contains_iff.mp (revise_eq_none_iff.mp missing)
      rw [if_neg elsewhere, if_neg outside'] at aside
      rw [ihs distincts rest aside]

end Forest

namespace Raised

open Forest

variable {b r r' : Router σ} {hs : Dictionary Method (Handler σ)}
variable {chain chain' rest rest' : List (Router σ)}

theorem suffix (h : Raised b hs chain chain') (suffix : (r :: rest) <:+ chain) :
    ∃ r' rest', (r' :: rest') <:+ chain' ∧ Raised b hs (r :: rest) (r' :: rest') := by
  induction h with
  | bottom =>
    rcases List.suffix_cons_iff.mp suffix with same | short
    · rw [same]
      exact ⟨_, _, List.suffix_refl _, .bottom⟩
    · cases List.suffix_nil.mp short
  | above first inner ih =>
    rcases List.suffix_cons_iff.mp suffix with same | short
    · rw [same]
      exact ⟨_, _, List.suffix_refl _, .above first inner⟩
    · obtain ⟨r', rest', later, raised⟩ := ih short
      exact ⟨r', rest', later.trans (List.suffix_cons _ _), raised⟩

theorem ident (h : Raised b hs (r :: rest) (r' :: rest')) : r'.ident = r.ident := by
  cases h with
  | bottom => rfl
  | above => exact ident_absorb r _

theorem offered (served : hs.isEmpty = false) (h : Raised b hs chain chain') :
    ∀ top, chain'.head? = some top → ∃ e, latest (spell chain) top.offers = some e ∧
      e.origin = ((b.routes.find? []).map (·.origin)).getD b.ident ∧
      (b.routes.find? [] = none → e.handlers = hs) := by
  induction h with
  | bottom =>
    rintro _ ⟨⟩
    have own := latest_offers_append { b with handlers := hs } []
    rw [if_pos ⟨served, rfl⟩] at own
    rw [spell_cons, spell_nil, own]
    -- The table is offered after the own entry, so an entry with the empty key hides that one.
    cases b.routes.find? [] with
    | none => exact ⟨_, rfl, rfl, fun _ => rfl⟩
    | some e => exact ⟨e, rfl, rfl, nofun⟩
  | @above first next next' rest rest' inner ih =>
    rintro _ ⟨⟩
    obtain ⟨e, offer, origin, handlers⟩ := ih next' rfl
    refine ⟨first.extend e, ?_, origin, handlers⟩
    rw [spell_cons, ← template_absorb first next', latest_offers_append, find?_absorb, offer,
      Option.map_some, Option.some_or, Option.some_or]

theorem found (served : hs.isEmpty = false) (h : Raised b hs (r :: rest) (r' :: rest'))
    (nested : rest ≠ []) : ∃ e, r'.routes.find? (spell rest) = some e ∧
      e.origin = ((b.routes.find? []).map (·.origin)).getD b.ident ∧
      (b.routes.find? [] = none → e.handlers = hs) := by
  cases h with
  | bottom => exact absurd rfl nested
  | above _ inner =>
    obtain ⟨e, offer, origin, handlers⟩ := inner.offered served _ rfl
    refine ⟨r.extend e, ?_, origin, handlers⟩
    rw [find?_absorb, offer, Option.map_some, Option.some_or]

def KeepsOrigins (r r' : Router σ) (rest : List (Router σ)) : Prop :=
  ∀ k, (rest ≠ [] → k ≠ spell rest) →
    (r'.routes.find? k).map (·.origin) = (r.routes.find? k).map (·.origin)

theorem origins_offers (h : Raised b hs (r :: rest) (r' :: rest')) (kept : KeepsOrigins r r' rest)
    {k : Bytes} (other : k ≠ spell (r :: rest)) :
    (latest k r'.offers).map (·.origin) = (latest k r.offers).map (·.origin) := by
  have template : r'.template = r.template := by
    cases h with
    | bottom => rfl
    | above => exact template_absorb r _
  by_cases start : r.template.urlPath <+: k
  · obtain ⟨k, rfl⟩ := start
    rw [latest_offers_append, ← template, latest_offers_append, Option.map_or, Option.map_or]
    rw [spell_cons, Ne, List.append_cancel_left_eq] at other
    rw [kept k fun _ => other]
    cases h with
    | bottom =>
      have inner : k ≠ [] := other
      rw [if_neg fun own => inner own.2, if_neg fun own => inner own.2]
    | above _ inner =>
      rw [handlers_absorb]
      congr 1
      split
      · exact congrArg some (ident_absorb r _)
      · rfl
  · have none {r : Router σ} (start : ¬ r.template.urlPath <+: k) : latest k r.offers = none :=
      latest_eq_none_iff.mpr fun o ho same => start (same ▸ prefix_of_mem_offers ho)
    rw [none start, none (template ▸ start)]

theorem keepsOrigins (h : Raised b hs chain chain') (steady : SteadyElsewhere chain)
    (first : chain = r :: rest) (first' : chain' = r' :: rest') : KeepsOrigins r r' rest := by
  induction h generalizing r r' rest rest' with
  | bottom =>
    cases first
    cases first'
    exact fun k _ => rfl
  | @above top next next' more more' inner ih =>
    cases first
    cases first'
    intro k other
    have kept := ih (steady.suffix (List.suffix_cons _ _)) rfl rfl
    -- The next router offers the origins that it offered before, and those are here already.
    have offers := inner.origins_offers kept (other (List.cons_ne_nil _ _))
    rw [origin_absorb, offers]
    cases last : latest k next.offers with
    | none => rfl
    | some e =>
      rw [steady top next more (List.suffix_refl _) k e last (other (List.cons_ne_nil _ _))]
      rfl

end Raised

namespace Forest

/-- The handler declared for `m` at the router `id` has come up to all tables above, and at other
keys no table of the forest has an entry of another origin than before. -/
structure Prevails (before after : Forest σ) (id : Nat) (m : Method) (h : Handler σ) : Prop where
  above : ∀ a k, before.KeyAbove id a k →
    ∃ e, after.entryAt? a k = some e ∧ e.origin = id ∧ e.handlers.find? m = some h
  elsewhere : ∀ a k, ¬ before.KeyAbove id a k →
    (after.entryAt? a k).map (·.origin) = (before.entryAt? a k).map (·.origin)

variable {f : Forest σ} {id : Nat} {r r' : Router σ} {rest rest' : List (Router σ)}

theorem entryAt?_of_suffix (distinct : f.idents.Nodup) (h : (r :: rest) <:+ f.lineage id)
    (k : Bytes) : f.entryAt? r.ident k = r.routes.find? k := by
  rw [entryAt?, find?_of_mem_lineage distinct (h.subset List.mem_cons_self)]
  rfl

theorem eq_of_suffix {chain : List (Router σ)} (distinct : (chain.map (·.ident)).Nodup)
    (h : (r :: rest) <:+ chain) (h' : (r' :: rest') <:+ chain) (same : r.ident = r'.ident) :
    rest = rest' := by
  have upper {r r' : Router σ} {rest rest' : List (Router σ)} (h : (r :: rest) <:+ chain)
      (same : r'.ident = r.ident) (inner : (r' :: rest') <:+ (r :: rest)) : rest = rest' := by
    rcases List.suffix_cons_iff.mp inner with whole | lower
    · exact (List.cons.inj whole).2.symm
    · have repeated := (h.sublist.map (·.ident)).nodup distinct
      rw [List.map_cons, List.nodup_cons] at repeated
      have twice := List.mem_map_of_mem (f := (·.ident)) (lower.subset List.mem_cons_self)
      exact absurd (same ▸ twice) repeated.1
  rcases List.suffix_or_suffix_of_suffix h h' with inner | inner
  · exact (upper h' same inner).symm
  · exact upper h same.symm inner

theorem keyAbove_iff_of_suffix (distinct : f.idents.Nodup) (h : (r :: rest) <:+ f.lineage id)
    {k : Bytes} : f.KeyAbove id r.ident k ↔ rest ≠ [] ∧ spell rest = k := by
  constructor
  · rintro ⟨r', rest', h', same, nested, spelled⟩
    rw [eq_of_suffix (nodup_lineage distinct id) h h' same.symm]
    exact ⟨nested, spelled⟩
  · rintro ⟨nested, spelled⟩
    exact ⟨r, rest, h, rfl, nested, spelled⟩

theorem forest_handle {children : Forest σ} (found : f.tree? id = some (r, children)) {m : Method}
    {h : Handler σ} (accepted : (f.handle id m (some h)).fault = none) :
    ∃ revision, f.revise (redeclaring fun r => withHandler r.handlers m h) id = some revision ∧
      (f.handle id m (some h)).forest = revision.value.forest := by
  have here : f.find? id = some r := by rw [find?, found]; rfl
  obtain ⟨revision, revised, declared⟩ := declare_of_mem_idents
    (redeclaring fun r => withHandler r.handlers m h) (mem_idents_of_tree? found)
  refine ⟨revision, revised, ?_⟩
  unfold handle at accepted ⊢
  simp only [here] at accepted ⊢
  by_cases unknown : m = .unknown
  · rw [if_pos unknown] at accepted
    cases accepted
  · rw [if_neg unknown]
    exact declared

end Forest

namespace Raised

variable {f g : Forest σ} {id : Nat} {b : Router σ} {hs : Dictionary Method (Handler σ)}

theorem entryAt?_of_keyAbove (raised : Raised b hs (f.lineage id) (g.lineage id))
    (distinct : g.idents.Nodup) (served : hs.isEmpty = false) {a : Nat} {k : Bytes}
    (above : f.KeyAbove id a k) : ∃ e, g.entryAt? a k = some e ∧
      e.origin = ((b.routes.find? []).map (·.origin)).getD b.ident ∧
      (b.routes.find? [] = none → e.handlers = hs) := by
  obtain ⟨r, rest, suffix, rfl, nested, rfl⟩ := above
  obtain ⟨r', rest', suffix', raised'⟩ := raised.suffix suffix
  rw [← raised'.ident, Forest.entryAt?_of_suffix distinct suffix']
  exact raised'.found served nested

theorem above_iff (raised : Raised b hs (f.lineage id) (g.lineage id)) (distinct : g.idents.Nodup)
    (foreign : ∀ e, b.routes.find? [] = some e → e.origin ≠ b.ident) {m : Method} {h : Handler σ}
    (served : hs.isEmpty = false) (given : hs.find? m = some h) :
    (∀ a k, f.KeyAbove id a k →
      ∃ e, g.entryAt? a k = some e ∧ e.origin = b.ident ∧ e.handlers.find? m = some h) ↔
      ((∃ a k, f.KeyAbove id a k) → b.routes.find? [] = none) := by
  constructor
  · rintro prevails ⟨a, k, above⟩
    obtain ⟨e, stored, own, -⟩ := prevails a k above
    obtain ⟨e', stored', origin, -⟩ := raised.entryAt?_of_keyAbove distinct served above
    rw [stored', Option.some.injEq] at stored
    subst stored
    cases blank : b.routes.find? [] with
    | none => rfl
    | some inner =>
      rw [blank] at origin
      exact absurd (origin.symm.trans own) (foreign inner blank)
  · intro clear a k above
    have blank := clear ⟨a, k, above⟩
    obtain ⟨e, stored, origin, handlers⟩ := raised.entryAt?_of_keyAbove distinct served above
    rw [blank] at origin
    exact ⟨e, stored, origin, handlers blank ▸ given⟩

theorem keepsOrigins_iff {r r' : Router σ} {rest rest' : List (Router σ)}
    (inner : Raised b hs (r :: rest) (r' :: rest')) (distinct : f.idents.Nodup)
    (distinct' : g.idents.Nodup) (lower : (r :: rest) <:+ f.lineage id)
    (lower' : (r' :: rest') <:+ g.lineage id) :
    KeepsOrigins r r' rest ↔ ∀ k, ¬ f.KeyAbove id r.ident k →
      (g.entryAt? r.ident k).map (·.origin) = (f.entryAt? r.ident k).map (·.origin) := by
  refine forall_congr' fun k => imp_congr ?_ ?_
  · rw [Forest.keyAbove_iff_of_suffix distinct lower, not_and, eq_comm]
  · rw [← inner.ident, Forest.entryAt?_of_suffix distinct' lower', inner.ident,
      Forest.entryAt?_of_suffix distinct lower]

theorem elsewhere_iff (raised : Raised b hs (f.lineage id) (g.lineage id))
    (distinct : f.idents.Nodup) (distinct' : g.idents.Nodup)
    (aside : ∀ a, a ∉ (f.lineage id).map (·.ident) → g.find? a = f.find? a) :
    (∀ a k, ¬ f.KeyAbove id a k →
      (g.entryAt? a k).map (·.origin) = (f.entryAt? a k).map (·.origin)) ↔
      Forest.SteadyElsewhere (f.lineage id) := by
  constructor
  · intro elsewhere above next rest lower k e last other
    obtain ⟨above', rest', lower', inner⟩ := raised.suffix lower
    have kept := (inner.keepsOrigins_iff distinct distinct' lower lower').mpr
      (elsewhere above.ident)
    cases inner with
    | @above _ _ next' _ more' under =>
      have further := (List.suffix_cons above (next :: rest)).trans lower
      have further' := (List.suffix_cons _ _).trans lower'
      have below := (under.keepsOrigins_iff distinct distinct' further further').mpr
        (elsewhere next.ident)
      rw [← kept k fun _ => other, origin_absorb, under.origins_offers below other, last]
      rfl
  · intro steady a k unrelated
    by_cases onWay : a ∈ (f.lineage id).map (·.ident)
    · obtain ⟨r, hr, rfl⟩ := List.mem_map.mp onWay
      obtain ⟨before, rest, split⟩ := List.append_of_mem hr
      have lower : (r :: rest) <:+ f.lineage id := ⟨before, split.symm⟩
      obtain ⟨r', rest', lower', inner⟩ := raised.suffix lower
      have kept := inner.keepsOrigins (steady.suffix lower) rfl rfl
      exact (inner.keepsOrigins_iff distinct distinct' lower lower').mp kept k unrelated
    · rw [Forest.entryAt?, Forest.entryAt?, aside a onWay]

end Raised

namespace Router

variable {r : Router σ} {children : Forest σ}

theorem Current.blank_eq_none_iff (current : r.Current children) :
    r.routes.find? [] = none ↔ ∀ line ∈ children.lines, spell line ≠ [] := by
  constructor
  · intro none line hl blank
    have covered := current.covers line hl
    rw [blank, none] at covered
    cases covered
  · intro clear
    rw [Option.eq_none_iff_forall_ne_some]
    intro e blank
    obtain ⟨line, hl, spelled, -⟩ := current.fresh [] e blank
    exact clear line hl spelled

theorem Current.origin_ne (current : r.Current children) (absent : r.ident ∉ children.idents)
    {k : Bytes} {e : Entry σ} (stored : r.routes.find? k = some e) : e.origin ≠ r.ident := by
  obtain ⟨line, hl, -, rfl⟩ := current.fresh k e stored
  rw [origin_along_cons r (Forest.ne_nil_of_mem_lines hl)]
  intro same
  exact absent (same ▸ (Forest.origins_sublist children).subset (List.mem_map_of_mem hl))

end Router

theorem handle_prevails_iff {calls : List (Call σ)} {f : Forest σ} (hf : f.Reached calls)
    {id : Nat} {r : Router σ} {children : Forest σ} (found : f.tree? id = some (r, children))
    {m : Method} {h : Handler σ} (accepted : (f.handle id m (some h)).fault = none) :
    f.Prevails (f.handle id m (some h)).forest id m h ↔
      ((∃ a k, f.KeyAbove id a k) → ∀ line ∈ children.lines, spell line ≠ []) ∧
      Forest.SteadyElsewhere (f.lineage id) := by
  have distinct := hf.distinct
  obtain ⟨current, -⟩ := Forest.current_tree hf.current found
  obtain ⟨revision, revised, forest⟩ := Forest.forest_handle found accepted
  obtain ⟨raised, -⟩ := Forest.raised_revise distinct found revised
  have distinct' : revision.value.forest.idents.Nodup := by
    rwa [Forest.idents_revise revised]
  obtain ⟨rfl, sublist⟩ := Forest.routers_of_tree found
  have absent : r.ident ∉ children.idents := by
    have tree : (Forest.cons r children .nil).idents.Nodup := (sublist.map _).nodup distinct
    rw [Forest.idents_cons, List.nodup_cons, List.mem_append, not_or] at tree
    exact tree.1.1
  have given : (Forest.withHandler r.handlers m h).find? m = some h := by
    rw [Forest.withHandler, Dictionary.find?_insert, if_pos Std.ReflCmp.compare_self]
  have above := raised.above_iff distinct' (fun e => current.origin_ne absent)
    (Dictionary.isEmpty_insert _ _ _) given
  have elsewhere := raised.elsewhere_iff distinct distinct' fun a =>
    Forest.find?_revise distinct revised
  rw [forest, ← current.blank_eq_none_iff, ← above, ← elsewhere]
  exact ⟨fun prevails => ⟨prevails.above, prevails.elsewhere⟩, fun h => ⟨h.1, h.2⟩⟩

def displaced : List (Call Unit) :=
  [.path 0 [], .path 1 (ascii "/x"), .path 2 (ascii "/y"), .path 3 [], .path 4 (ascii "/x/y"),
    .handle 2 .get (some (plainHandler 0)), .handle 3 .get (some (plainHandler 1)),
    .handle 4 .get (some (plainHandler 2)), .nest 1 [some 2, some 3], .nest 0 [some 1, some 4]]

theorem handle_prevails_iff_displaced :
    ∃ r children, (Forest.nil.after displaced).tree? 1 = some (r, children) ∧
      ((Forest.nil.after displaced).handle 1 .get (some (plainHandler 3))).fault = none ∧
      ((Forest.nil.after displaced).Prevails
          ((Forest.nil.after displaced).handle 1 .get (some (plainHandler 3))).forest 1 .get
          (plainHandler 3) ↔
        ((∃ a k, (Forest.nil.after displaced).KeyAbove 1 a k) →
          ∀ line ∈ children.lines, spell line ≠ []) ∧
        Forest.SteadyElsewhere ((Forest.nil.after displaced).lineage 1)) := by
  have reached : Forest.Reached displaced (Forest.nil.after displaced) :=
    Forest.Reached.start.after (by decide +kernel)
  have inside : ((Forest.nil.after displaced).tree? 1).isSome = true := by decide +kernel
  have accepted : ((Forest.nil.after displaced).handle 1 .get
      (some (plainHandler 3))).fault = none := by decide +kernel
  obtain ⟨⟨r, children⟩, found⟩ := Option.isSome_iff_exists.mp inside
  exact ⟨r, children, found, accepted, handle_prevails_iff reached found accepted⟩

theorem handle_displaces_later :
    let f := Forest.nil.after displaced
    let after := f.handle 1 .get (some (plainHandler 3))
    Forest.Reached displaced f ∧ f.contains 1 = true ∧ after.fault = none ∧
      (f.KeyAbove 1 0 (ascii "/x") ∧
        (after.forest.entryAt? 0 (ascii "/x")).map (·.origin) = some 3) ∧
      (¬ f.KeyAbove 1 0 (ascii "/x/y") ∧
        (f.entryAt? 0 (ascii "/x/y")).map (·.origin) = some 4 ∧
        (after.forest.entryAt? 0 (ascii "/x/y")).map (·.origin) = some 2) ∧
      ¬ f.Prevails after.forest 1 .get (plainHandler 3) := by
  intro f after
  have own : f.KeyAbove 1 0 (ascii "/x") ∧
      (after.forest.entryAt? 0 (ascii "/x")).map (·.origin) = some 3 := by decide +kernel
  refine ⟨Forest.Reached.start.after (by decide +kernel), by decide +kernel, by decide +kernel, own,
    by decide +kernel, fun prevails => ?_⟩
  obtain ⟨e, stored, origin, -⟩ := prevails.above 0 (ascii "/x") own.1
  have other := own.2
  rw [stored, Option.map_some, origin] at other
  cases other

end HttpRouting
