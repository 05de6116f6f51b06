import HttpRouting.Adapter
import HttpRouting.Proofs.Resolution
import HttpRouting.Proofs.WellFormed
import Mathlib.Data.List.Nodup

namespace HttpRouting

open Byte Template

variable {σ : Type}

def Entry.Declared (e : Entry σ) : Prop :=
  ∀ name, .param name ∈ e.segments → (e.pathParams.find? name).isSome

theorem Template.WellFormed.find?_isSome {t : Template} (h : t.WellFormed) {name : Bytes}
    (listed : .param name ∈ t.segments) : (t.pathParams.find? name).isSome := by
  rw [← Dictionary.mem_keys_iff, ← h.declared]
  exact List.mem_filterMap.mpr ⟨_, listed, rfl⟩

theorem declared_along {line : List (Router σ)}
    (parsed : ∀ r ∈ line, ∃ source, Template.parse source = .ok r.template) :
    (Entry.along line).Declared := by
  intro name listed
  obtain ⟨r, hr, listed⟩ := List.mem_flatMap.mp listed
  obtain ⟨source, parse⟩ := parsed r hr
  obtain ⟨-, -, wellFormed⟩ := parse_wellFormed parse
  rw [find?_pathParams_along, List.findSome?_isSome_iff]
  exact ⟨r, List.mem_reverse.mpr hr, wellFormed.find?_isSome listed⟩

theorem declared_of_entriesOf {calls : List (Call σ)} {f : Forest σ} (hf : f.Reached calls)
    {id : Nat} {root : Router σ} {children : Forest σ}
    (found : f.tree? id = some (root, children)) {e : Entry σ}
    (he : e ∈ Dispatcher.entriesOf root) : e.Declared := by
  have own : ∃ source, Template.parse source = .ok root.template := by
    obtain ⟨source, parse⟩ := hf.parsed root.bare (Forest.bare_mem_routers found)
    exact ⟨source, parse⟩
  rcases mem_entriesOf hf found he with ⟨-, rfl⟩ | ⟨line, hl, rfl, -⟩
  · rw [Router.ownEntry_eq_along]
    exact declared_along (List.forall_mem_singleton.mpr own)
  · exact declared_along (List.forall_mem_cons.mpr ⟨own, parsed_of_line hf found hl⟩)

section

variable {ε α β : Type}

theorem mapM_eq_ok_iff {f : α → Except ε β} {l : List α} {l' : List β} :
    l.mapM f = .ok l' ↔ List.Forall₂ (fun x y => f x = .ok y) l l' := by
  induction l generalizing l' with
  | nil =>
    rw [List.mapM_nil, List.forall₂_nil_left_iff]
    exact ⟨fun h => (Except.ok.inj h).symm, fun h => h ▸ rfl⟩
  | cons x l ih =>
    rw [List.mapM_cons, List.forall₂_cons_left_iff, bind_eq_ok_iff]
    constructor
    · rintro ⟨y, first, h⟩
      obtain ⟨l', rest, same⟩ := bind_eq_ok_iff.mp h
      exact ⟨y, l', first, ih.mp rest, (Except.ok.inj same).symm⟩
    · rintro ⟨y, l', first, rest, rfl⟩
      exact ⟨y, first, bind_eq_ok_iff.mpr ⟨l', ih.mpr rest, rfl⟩⟩

theorem exists_forall₂ {r : α → β → Prop} {l : List α} (h : ∀ x ∈ l, ∃ y, r x y) :
    ∃ l', List.Forall₂ r l l' := by
  induction l with
  | nil => exact ⟨[], .nil⟩
  | cons x l ih =>
    obtain ⟨first, rest⟩ := List.forall_mem_cons.mp h
    obtain ⟨y, related⟩ := first
    obtain ⟨l', others⟩ := ih rest
    exact ⟨y :: l', .cons related others⟩

end

namespace Adapter

variable {a : Adapter σ}

inductive Writes (a : Adapter σ) (params : Params) : Segment → Bytes → Prop
  | literal {text : Bytes} : Writes a params (.literal text) text
  | param {name text : Bytes} {d : Descriptor} (declared : params.find? name = some d)
      (spelled : a.spellParam name d = .ok text) : Writes a params (.param name) text

inductive WritesPath (a : Adapter σ) (e : Entry σ) : Bytes → Prop
  | blank (none : e.segments = []) : WritesPath a e [slash]
  | spelled {texts : List Bytes} (some : e.segments ≠ [])
      (written : List.Forall₂ (a.Writes e.pathParams) e.segments texts) :
      WritesPath a e (texts.flatMap (slash :: ·))

theorem spellSegment_eq_ok_iff {params : Params} {s : Segment} {text : Bytes} :
    a.spellSegment params s = .ok text ↔ a.Writes params s text := by
  cases s with
  | literal own =>
    constructor
    · rintro ⟨⟩
      exact .literal
    · rintro ⟨⟩
      rfl
  | param name =>
    rw [spellSegment]
    cases declared : params.find? name with
    | none =>
      constructor
      · rintro ⟨⟩
      · rintro ⟨⟩
        simp_all
    | some d =>
      constructor
      · exact .param declared
      · rintro ⟨⟩
        simp_all

theorem translatePath_eq_ok_iff {e : Entry σ} {path : Bytes} :
    a.translatePath e.segments e.pathParams = .ok path ↔ a.WritesPath e path := by
  rw [translatePath]
  split
  · rename_i none
    constructor
    · rintro ⟨⟩
      exact .blank none
    · rintro (⟨-⟩ | ⟨some, -⟩)
      · rfl
      · exact absurd none some
  · rename_i some
    have spelled {texts : List Bytes} :
        e.segments.mapM (a.spellSegment e.pathParams) = .ok texts ↔
          List.Forall₂ (a.Writes e.pathParams) e.segments texts := by
      simp only [mapM_eq_ok_iff, spellSegment_eq_ok_iff]
    rw [bind_eq_ok_iff]
    constructor
    · rintro ⟨texts, written, same⟩
      cases same
      exact .spelled some (spelled.mp written)
    · rintro (⟨none⟩ | ⟨-, written⟩)
      · exact absurd none some
      · exact ⟨_, spelled.mpr written, rfl⟩

theorem exists_writesPath (spells : ∀ name d, ∃ text, a.spellParam name d = .ok text)
    {e : Entry σ} (declared : e.Declared) : ∃ path, a.WritesPath e path := by
  have written (s : Segment) (hs : s ∈ e.segments) : ∃ text, a.Writes e.pathParams s text := by
    cases s with
    | literal text => exact ⟨text, .literal⟩
    | param name =>
      obtain ⟨d, found⟩ := Option.isSome_iff_exists.mp (declared name hs)
      obtain ⟨text, spelled⟩ := spells name d
      exact ⟨text, .param found spelled⟩
  by_cases none : e.segments = []
  · exact ⟨_, .blank none⟩
  · obtain ⟨texts, written⟩ := exists_forall₂ written
    exact ⟨_, .spelled none written⟩

def InOrder (r r' : LoadedRoute) : Prop :=
  compare r.path r'.path = .lt ∨ r.path = r'.path ∧ r.method.rank ≤ r'.method.rank

theorem before_iff {r r' : LoadedRoute} : before r r' = true ↔ InOrder r r' := by
  have rank : (compare r.method r'.method).isLE ↔ r.method.rank ≤ r'.method.rank :=
    Nat.isLE_compare
  rw [before, Ordering.isLE_then_iff_or, rank, Std.compare_eq_iff_eq, InOrder]

theorem inOrder_trans {r s t : LoadedRoute} (h : InOrder r s) (h' : InOrder s t) :
    InOrder r t := by
  rcases h with lt | ⟨same, le⟩
  · rcases h' with lt' | ⟨same', -⟩
    · exact .inl (Std.TransCmp.lt_trans lt lt')
    · exact .inl (same' ▸ lt)
  · rcases h' with lt' | ⟨same', le'⟩
    · exact .inl (same ▸ lt')
    · exact .inr ⟨same.trans same', le.trans le'⟩

theorem inOrder_total (r s : LoadedRoute) : InOrder r s ∨ InOrder s r := by
  cases order : compare r.path s.path with
  | lt => exact .inl (.inl order)
  | gt => exact .inr (.inl (Std.OrientedCmp.lt_of_gt order))
  | eq =>
    have same : r.path = s.path := Std.LawfulEqOrd.eq_of_compare order
    rcases Nat.le_total r.method.rank s.method.rank with le | le
    · exact .inl (.inr ⟨same, le⟩)
    · exact .inr (.inr ⟨same.symm, le⟩)

theorem pairwise_mergeSort (l : List LoadedRoute) : (l.mergeSort before).Pairwise InOrder := by
  have trans (r s t : LoadedRoute) (h : before r s) (h' : before s t) : before r t :=
    before_iff.mpr (inOrder_trans (before_iff.mp h) (before_iff.mp h'))
  have total (r s : LoadedRoute) : before r s || before s r := by
    rw [Bool.or_eq_true, before_iff, before_iff]
    exact inOrder_total r s
  exact (List.pairwise_mergeSort trans total l).imp before_iff.mp

def Hands (a : Adapter σ) (e : Bytes × CompiledRoute σ) (rs : List LoadedRoute) : Prop :=
  ∃ path, a.WritesPath e.2.entry path ∧
    rs = e.2.entry.handlers.keys.map fun method => ⟨method, path, e.1⟩

theorem translate_eq_ok_iff {d : Dispatcher σ} {loaded : List LoadedRoute} :
    a.translate d = .ok loaded ↔
      ∃ rss, List.Forall₂ a.Hands d.routes.entries rss ∧ loaded = rss.flatten.mergeSort before := by
  have hands (e : Bytes × CompiledRoute σ) (rs : List LoadedRoute) :
      (do
        let path ← a.translatePath e.2.entry.segments e.2.entry.pathParams
        return e.2.entry.handlers.keys.map fun method => ⟨method, path, e.1⟩ :
          Except Fault (List LoadedRoute)) = .ok rs ↔ a.Hands e rs := by
    rw [bind_eq_ok_iff]
    constructor
    · rintro ⟨path, written, same⟩
      exact ⟨path, translatePath_eq_ok_iff.mp written, (Except.ok.inj same).symm⟩
    · rintro ⟨path, written, rfl⟩
      exact ⟨path, translatePath_eq_ok_iff.mpr written, rfl⟩
  rw [translate, bind_eq_ok_iff]
  simp only [mapM_eq_ok_iff, hands]
  constructor
  · rintro ⟨rss, handed, same⟩
    exact ⟨rss, handed, (Except.ok.inj same).symm⟩
  · rintro ⟨rss, handed, rfl⟩
    exact ⟨rss, handed, rfl⟩

end Adapter

def Dispatcher.slots (d : Dispatcher σ) : List (Bytes × Method) :=
  d.routes.entries.flatMap fun e => e.2.entry.handlers.keys.map fun method => (e.1, method)

theorem Dictionary.nodup_keys {κ α : Type} [Ord κ] [Std.ReflOrd κ] (d : Dictionary κ α) :
    d.keys.Nodup := by
  refine List.Pairwise.map _ (fun e e' lt same => ?_) d.sorted
  rw [same, Std.ReflOrd.compare_self] at lt
  cases lt

theorem Dispatcher.nodup_slots (d : Dispatcher σ) : d.slots.Nodup := by
  rw [slots, List.nodup_flatMap]
  constructor
  · intro e _
    exact (Dictionary.nodup_keys _).map fun _ _ same => (Prod.mk.inj same).2
  · have keys : d.routes.entries.Pairwise fun e e' => e.1 ≠ e'.1 :=
      List.pairwise_map.mp (Dictionary.nodup_keys d.routes)
    refine keys.imp fun {e e'} differ slot here there => ?_
    obtain ⟨_, -, rfl⟩ := List.mem_map.mp here
    obtain ⟨_, -, same⟩ := List.mem_map.mp there
    exact differ (Prod.mk.inj same).1.symm

theorem Dispatcher.mem_slots_iff {d : Dispatcher σ} {key : Bytes} {m : Method} :
    (key, m) ∈ d.slots ↔ ∃ route, d.find? key = some route ∧ m ∈ route.entry.handlers.keys := by
  rw [slots, List.mem_flatMap]
  constructor
  · rintro ⟨⟨key', route⟩, listed, here⟩
    obtain ⟨m', served, same⟩ := List.mem_map.mp here
    obtain ⟨rfl, rfl⟩ := Prod.mk.inj same
    exact ⟨route, Dictionary.mem_entries_iff.mp listed, served⟩
  · rintro ⟨route, bound, served⟩
    exact ⟨(key, route), Dictionary.mem_entries_iff.mpr bound, List.mem_map.mpr ⟨m, served, rfl⟩⟩

namespace Adapter

variable {a : Adapter σ}

theorem slots_of_hands {entries : List (Bytes × CompiledRoute σ)} {rss : List (List LoadedRoute)}
    (h : List.Forall₂ a.Hands entries rss) :
    rss.flatten.map (fun r => (r.key, r.method)) =
      entries.flatMap fun e => e.2.entry.handlers.keys.map fun method => (e.1, method) := by
  induction h with
  | nil => rfl
  | @cons e rs entries rss hands _ ih =>
    obtain ⟨path, -, rfl⟩ := hands
    rw [List.flatten_cons, List.map_append, ih, List.flatMap_cons, List.map_map]
    rfl

theorem mem_of_hands {entries : List (Bytes × CompiledRoute σ)} {rss : List (List LoadedRoute)}
    (h : List.Forall₂ a.Hands entries rss) {r : LoadedRoute} (hr : r ∈ rss.flatten) :
    ∃ route, (r.key, route) ∈ entries ∧ a.WritesPath route.entry r.path := by
  induction h with
  | nil => cases hr
  | @cons e rs entries rss hands _ ih =>
    rw [List.flatten_cons, List.mem_append] at hr
    rcases hr with hr | hr
    · obtain ⟨path, written, rfl⟩ := hands
      obtain ⟨m, -, rfl⟩ := List.mem_map.mp hr
      exact ⟨e.2, List.mem_cons_self, written⟩
    · obtain ⟨route, listed, written⟩ := ih hr
      exact ⟨route, List.mem_cons_of_mem e listed, written⟩

end Adapter

theorem handed_over_once {calls : List (Call σ)} {f : Forest σ} (hf : f.Reached calls) {id : Nat}
    {root : Router σ} (found : f.find? id = some root) (d : Dispatcher σ) (w : World σ)
    {a : Adapter σ} (spells : ∀ name descriptor, ∃ text, a.spellParam name descriptor = .ok text) :
    (∀ e ∈ d.mountedEntries root w, e.Declared) ∧
    ∃ loaded, a.translate (d.mount root w).dispatcher = .ok loaded ∧
      (loaded.map fun r => (r.key, r.method)).Nodup ∧
      (∀ key m, (key, m) ∈ loaded.map (fun r => (r.key, r.method)) ↔
        ∃ route, (d.mount root w).dispatcher.find? key = some route ∧
          m ∈ route.entry.handlers.keys) ∧
      (∀ r ∈ loaded, ∃ route, (d.mount root w).dispatcher.find? r.key = some route ∧
        a.WritesPath route.entry r.path) ∧
      loaded.Pairwise Adapter.InOrder := by
  obtain ⟨⟨root, children⟩, tree, rfl⟩ := Option.map_eq_some_iff.mp found
  have declared (e : Entry σ) (he : e ∈ d.mountedEntries root w) : e.Declared :=
    declared_of_entriesOf hf tree ((d.mountedEntries_prefix root w).subset he)
  refine ⟨declared, ?_⟩
  obtain ⟨rss, hands⟩ : ∃ rss,
      List.Forall₂ a.Hands (d.mount root w).dispatcher.routes.entries rss := by
    refine exists_forall₂ fun e he => ?_
    have bound : (d.mount root w).dispatcher.find? e.1 = some e.2 :=
      Dictionary.mem_entries_iff.mp he
    have mounted : e.2.entry ∈ d.mountedEntries root w :=
      List.mem_map_of_mem ((d.holds_mount root w).mem_of_find? bound).1
    obtain ⟨path, written⟩ := Adapter.exists_writesPath spells (declared e.2.entry mounted)
    exact ⟨_, path, written, rfl⟩
  -- Sorting only changes the order of what the keys give rise to.
  have sorted := List.mergeSort_perm rss.flatten Adapter.before
  have slots : ((rss.flatten.mergeSort Adapter.before).map fun r => (r.key, r.method)).Perm
      (d.mount root w).dispatcher.slots := by
    rw [Dispatcher.slots, ← Adapter.slots_of_hands hands]
    exact sorted.map _
  refine ⟨_, Adapter.translate_eq_ok_iff.mpr ⟨rss, hands, rfl⟩, ?_, ?_, ?_, ?_⟩
  · exact slots.nodup_iff.mpr (Dispatcher.nodup_slots _)
  · intro key m
    rw [slots.mem_iff, Dispatcher.mem_slots_iff]
  · intro r hr
    obtain ⟨route, listed, written⟩ := Adapter.mem_of_hands hands (sorted.mem_iff.mp hr)
    exact ⟨route, Dictionary.mem_entries_iff.mp listed, written⟩
  · exact Adapter.pairwise_mergeSort _

def redeclared : List (Call Unit) :=
  [.path 0 (ascii "/<x>"), .path 1 (ascii "/<x:number>/b"), .path 2 [],
    .handle 0 .get (some (plainHandler 0)), .handle 1 .put (some (plainHandler 1)),
    .handle 1 .get (some (plainHandler 2)), .handle 2 .post (some (plainHandler 3)),
    .nest 0 [some 1, some 2]]

def colonAdapter : Adapter Unit where
  spellParam name _ := .ok (colon :: name)

theorem handed_over_once_redeclared :
    ∃ root loaded, (Forest.nil.after redeclared).find? 0 = some root ∧
      colonAdapter.translate
        (({ sink := none } : Dispatcher Unit).mount root { state := () }).dispatcher = .ok loaded ∧
      (loaded.map fun r => (r.key, r.method)).Perm
        [(ascii "/<x>", .post), (ascii "/<x>/<x:number>/b", .get),
          (ascii "/<x>/<x:number>/b", .put)] ∧
      loaded.Pairwise Adapter.InOrder := by
  have reached : Forest.Reached redeclared (Forest.nil.after redeclared) :=
    Forest.Reached.start.after (by decide +kernel)
  have slots : ((Forest.nil.after redeclared).find? 0).map (fun root =>
      (({ sink := none } : Dispatcher Unit).mount root { state := () }).dispatcher.slots) =
      some [(ascii "/<x>", .post), (ascii "/<x>/<x:number>/b", .get),
        (ascii "/<x>/<x:number>/b", .put)] := by decide +kernel
  obtain ⟨root, found, slots⟩ := Option.map_eq_some_iff.mp slots
  obtain ⟨-, loaded, handed, distinct, each, -, sorted⟩ :=
    handed_over_once reached found { sink := none } { state := () } (a := colonAdapter)
      (fun name _ => ⟨colon :: name, rfl⟩)
  refine ⟨root, loaded, found, handed, ?_, sorted⟩
  refine (List.perm_ext_iff_of_nodup distinct (by decide)).mpr fun ⟨key, m⟩ => ?_
  rw [each, ← Dispatcher.mem_slots_iff, slots]

end HttpRouting
