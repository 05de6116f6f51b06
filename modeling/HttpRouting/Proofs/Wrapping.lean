import HttpRouting.Proofs.Nesting
import HttpRouting.Proofs.Startup

namespace HttpRouting

open Router

variable {σ : Type}

theorem compare_append (u a b : Bytes) : compare (u ++ a) (u ++ b) = compare a b := by
  induction u with
  | nil => rfl
  | cons x u ih => rw [List.cons_append, List.cons_append, List.compare_cons_cons, ih]; simp

theorem Entry.relabel_id : (Entry.relabel fun id => id : Entry σ → Entry σ) = fun e => e := rfl

def Template.blank : Template := ⟨[], [], [], ∅, ∅, []⟩

theorem Template.parse_nil : Template.parse [] = .ok .blank := by with_unfolding_all rfl

namespace Router

def blank (ident : Nat) : Router σ := { ident, template := .blank }

theorem extend_blank (p : Nat) (e : Entry σ) : (blank p).extend e = e := by
  simp [extend, blank, Template.blank, joinQuery, Dictionary.empty_merge]

def wrap (p : Nat) (r : Router σ) : Router σ := ((blank p).absorb r).value

theorem routes_wrap (p : Nat) (r : Router σ) : (r.wrap p).routes = Dictionary.ofList r.offers := by
  rw [wrap, value_absorb, funext (extend_blank p), List.map_id']
  rfl

theorem entriesOf_wrap (p : Nat) (r : Router σ) :
    Dispatcher.entriesOf (r.wrap p) = (Dictionary.ofList r.offers).values := by
  have handlers : (r.wrap p).handlers.isEmpty = true := by
    rw [wrap, handlers_absorb]
    rfl
  rw [Dispatcher.entriesOf, if_pos handlers, routes_wrap, List.nil_append]

variable {r : Router σ} {children : Forest σ}

theorem Current.offers_eq (h : r.Current children) :
    r.offers = (Dispatcher.entriesOf r).map fun e => (e.urlPath, e) := by
  rw [offers, Dispatcher.entriesOf, List.map_append, Dictionary.values, List.map_map]
  congr 1
  · split <;> rfl
  · apply List.map_congr_left
    rintro ⟨k, e⟩ he
    obtain ⟨line, -, rfl, rfl⟩ := h.fresh k e (Dictionary.mem_entries_iff.mp he)
    rfl

theorem Current.entries_wrap (h : r.Current children) (p : Nat) :
    ((Dispatcher.entriesOf (r.wrap p)).map fun e => (e.urlPath, e)) =
      (Dictionary.ofList r.offers).entries := by
  have keyed : ∀ e ∈ (Dictionary.ofList r.offers).entries, (e.2.urlPath, e.2) = id e := by
    rintro ⟨k, e⟩ he
    rw [Dictionary.mem_entries_iff, Dictionary.find?_ofList, h.offers_eq] at he
    obtain ⟨e', -, same⟩ := List.mem_map.mp (mem_of_latest he)
    cases same
    rfl
  rw [entriesOf_wrap, Dictionary.values, List.map_map]
  exact (List.map_congr_left keyed).trans (List.map_id _)

theorem offers_cases (r : Router σ) :
    (r.offers.Pairwise fun a b => compare a.1 b.1 = .lt) ∨
      ∃ e rest, r.offers = (r.template.urlPath, r.ownEntry) :: (r.template.urlPath, e) :: rest ∧
        ((r.template.urlPath, e) :: rest).Pairwise fun a b => compare a.1 b.1 = .lt := by
  -- The offers of a router come in the order of their keys, but for an entry of its own whose
  -- key an entry from below has, too.
  have table : (r.routes.entries.map fun e => (r.template.urlPath ++ e.1, e.2)).Pairwise
      fun a b => compare a.1 b.1 = .lt := by
    rw [List.pairwise_map]
    simpa only [compare_append] using r.routes.sorted
  rw [offers]
  split
  · exact .inl table
  · cases stored : r.routes.entries with
    | nil => simp
    | cons first rest =>
      obtain ⟨k, e⟩ := first
      rw [stored, List.map_cons] at table
      rw [List.map_cons, List.singleton_append]
      by_cases top : k = []
      · rw [top, List.append_nil] at table ⊢
        exact .inr ⟨e, _, rfl, table⟩
      · have below : compare r.template.urlPath (r.template.urlPath ++ k) = .lt := by
          obtain ⟨b, k, rfl⟩ := List.exists_cons_of_ne_nil top
          have added := compare_append r.template.urlPath [] (b :: k)
          rwa [List.append_nil] at added
        refine .inl (List.pairwise_cons.mpr ⟨fun o ho => ?_, table⟩)
        rcases List.mem_cons.mp ho with rfl | later
        · exact below
        · exact Std.TransCmp.lt_trans below ((List.pairwise_cons.mp table).1 o later)

end Router

namespace Dispatcher

open Forest

variable {calls : List (Call σ)} {f : Forest σ} {id : Nat} {r : Router σ} {children : Forest σ}

theorem matcher_wrap (hf : f.Reached calls) (found : f.tree? id = some (r, children)) (p : Nat) :
    (entriesOf (r.wrap p)).foldl (fun t e => t.insert e.urlPath e.segments) SegmentTrie.empty =
      (entriesOf r).foldl (fun t e => t.insert e.urlPath e.segments) .empty := by
  obtain ⟨current, -⟩ := current_tree hf.current found
  have listed : r.offers.map (·.2) = entriesOf r := by
    rw [current.offers_eq, List.map_map]
    exact List.map_id' _
  rw [entriesOf_wrap, Dictionary.values, ← listed]
  rcases r.offers_cases with sorted | ⟨e, rest, split, sorted⟩
  · rw [Dictionary.entries_ofList sorted]
  -- What comes first is replaced at once by what has the same key and the same segments.
  · rw [split, Dictionary.ofList_cons_cons, Dictionary.entries_ofList sorted]
    rw [split] at listed
    have keyed := current.offers_eq
    rw [split] at keyed
    have own : r.ownEntry ∈ entriesOf r := by simp [← listed]
    have inner : e ∈ entriesOf r := by simp [← listed]
    have key : r.ownEntry.urlPath = e.urlPath := by
      rw [← listed] at keyed
      exact congrArg Prod.fst (List.cons.inj (List.cons.inj keyed).2).1
    rw [List.map_cons, List.map_cons, List.map_cons, List.foldl_cons, List.foldl_cons,
      List.foldl_cons, segments_of_urlPath hf found _ own _ inner key, key,
      SegmentTrie.insert_insert]

end Dispatcher

namespace Forest

variable {calls : List (Call σ)} {f : Forest σ} {id p : Nat} {r : Router σ} {children : Forest σ}

theorem add_reached (hf : f.Reached calls) (fresh : f.contains p = false) :
    (f.add p .blank).Reached (calls ++ [.path p []]) := by
  have reached := hf.call (.path p []) fresh
  rwa [Call.apply, Template.parse_nil] at reached

theorem tree?_attach (distinct : f.idents.Nodup) (top : f.parent? r.ident = none)
    (found : f.tree? r.ident = some (r, children)) {into : Router σ} {below : Forest σ}
    (stands : f.tree? into.ident = some (into, below))
    (outside : into.ident ∉ (cons r children nil).idents) :
    (f.attach into r children).forest.tree? into.ident =
      some ((into.absorb r).value, below.append (cons r children nil)) := by
  have remains := tree?_removeRoot found top outside
  rw [stands] at remains
  obtain ⟨revision, revised, attached⟩ :=
    declare_of_mem_idents (fun into below => do
      Noted.note .debug (ascii "[Router] Nested '" ++ r.path ++ ascii "' into '" ++ into.path ++
        ascii "'")
      return (← into.absorb r, below.append (cons r children nil))) (mem_idents_of_tree? remains)
  rw [attach, attached]
  exact tree?_revise (fun into _ => ident_absorb into r) (nodup_removeRoot distinct top found)
    remains revised

theorem nest_wrap (hf : f.Reached calls) (found : f.tree? id = some (r, children))
    (top : f.parent? id = none) (fresh : f.contains p = false) :
    ((f.add p .blank).nest p [some id]).fault = none ∧
      ((f.add p .blank).nest p [some id]).forest.tree? p = some (r.wrap p, cons r children nil) ∧
      ((f.add p .blank).nest p [some id]).forest.tree? id = some (r, children) := by
  obtain ⟨rfl, sub⟩ := routers_of_tree found
  have absent : p ∉ f.idents := by simp [← contains_iff, fresh]
  have outside : p ∉ (cons r children nil).idents :=
    fun inside => absent ((sub.map (·.ident)).subset inside)
  have other : r.ident ≠ (blank p : Router σ).ident :=
    fun same => outside (by simp [idents_cons, same, blank])
  have stands : (f.add p .blank).tree? (blank p : Router σ).ident = some (blank p, nil) := by
    rw [blank, add, tree?_append, tree?_eq_none_iff.mpr absent, Option.none_or, tree?_cons]
    exact if_pos rfl
  have found' : (f.add p .blank).tree? r.ident = some (r, children) := by
    rw [add, tree?_append, found, Option.some_or]
  have top' : (f.add p .blank).parent? r.ident = none := by
    rw [add, parent?_append, top]
    rfl
  have accepted : (f.add p .blank).nestOne (blank p) (some r.ident) =
      .ok ((f.add p .blank).attach (blank p) r children) := by
    have apart : children.contains (blank p : Router σ).ident = false := by
      rw [idents_cons, List.mem_cons, List.mem_append, not_or, not_or, ← contains_iff] at outside
      exact Bool.eq_false_iff.mpr outside.2.1
    rw [nestOne, Option.bind_some, found']
    dsimp only
    rw [if_neg other, apart, top']
    rfl
  have reached := add_reached hf fresh
  obtain ⟨forest, fault⟩ := nest_of_ok (by rw [find?, stands, Option.map_some]) accepted []
  rw [show (blank p : Router σ).ident = p from rfl] at forest fault
  have moved : ((f.add p .blank).nest p [some r.ident]).forest.tree? p =
      some (r.wrap p, cons r children nil) := by
    rw [forest, nest]
    exact tree?_attach reached.distinct top' found' stands outside
  have distinct : ((f.add p .blank).nest p [some r.ident]).forest.idents.Nodup := by
    apply ((routers_nest reached.distinct p _).map _).nodup_iff.mpr reached.distinct
  refine ⟨fault, moved, ?_⟩
  rw [tree?_of_mem_tree distinct moved (by simp [idents_cons]), tree?_cons, tree?_cons,
    if_pos rfl, Option.some_or, if_neg]
  rw [wrap, ident_absorb]
  exact other.symm

end Forest

open Forest Dispatcher in
theorem mount_wrapped {calls : List (Call σ)} {f : Forest σ} (hf : f.Reached calls) {id p : Nat}
    {r : Router σ} {children : Forest σ} (found : f.tree? id = some (r, children))
    (top : f.parent? id = none) (fresh : f.contains p = false) :
    ((f.after [.path p []]).nest p [some id]).fault = none ∧
      (f.after [.path p [], .nest p [some id]]).find? id = some r ∧
      ∃ root, (f.after [.path p [], .nest p [some id]]).find? p = some root ∧
        ∀ (d : Dispatcher σ) (w w' : World σ),
          (d.mount r w).fault = none → (d.mount root w').fault = none →
            (d.mount root w').dispatcher.routes.keys = (d.mount r w).dispatcher.routes.keys ∧
              (∀ key, ((d.mount root w').dispatcher.find? key).map (·.entry) =
                ((d.mount r w).dispatcher.find? key).map (·.entry)) ∧
              ∀ path, (d.mount root w').dispatcher.match? path =
                (d.mount r w).dispatcher.match? path := by
  obtain ⟨fault, wrapped, stays⟩ := nest_wrap hf found top fresh
  have made : f.after [.path p []] = f.add p .blank := by
    change (Call.apply f (.path p [])).forest = _
    rw [Call.apply, Template.parse_nil]
  have nested : f.after [.path p [], .nest p [some id]] =
      ((f.add p .blank).nest p [some id]).forest := by
    rw [← made]
    rfl
  rw [made, nested]
  refine ⟨fault, ?_, r.wrap p, ?_, ?_⟩
  · rw [Forest.find?, stays, Option.map_some]
  · rw [Forest.find?, wrapped, Option.map_some]
  intro d w w' mounted mounted'
  obtain ⟨current, -⟩ := current_tree hf.current found
  have alike : (d.mount r w).dispatcher.Alike (fun id => id) (d.mount (r.wrap p) w').dispatcher := by
    refine alike_of_entries ?_ ?_ fun key => ?_
    · rw [config_mount, config_mount]
    · rw [matcher_mount mounted, matcher_mount mounted', matcher_wrap hf found]
    · rw [entries_mount mounted, entries_mount mounted', current.entries_wrap,
        Dictionary.latest_entries, Dictionary.find?_ofList, current.offers_eq, Entry.relabel_id,
        Option.map_id']
  refine ⟨alike.keys, fun key => ?_, alike.found⟩
  rw [alike.entries, Entry.relabel_id, Option.map_id']

def outshone : List (Call Unit) :=
  [.path 0 (ascii "/a"), .path 1 [], .path 2 (ascii "/<x>"),
    .handle 0 .get (some (plainHandler 0)), .handle 1 .get (some (plainHandler 1)),
    .handle 2 .put (some (plainHandler 2)), .nest 0 [some 2, some 1]]

open Forest in
theorem mount_wrapped_outshone :
    let f := nil.after outshone
    let g := f.after [.path 9 [], .nest 9 [some 0]]
    let d : Dispatcher Unit := { sink := none }
    ∃ r root, f.find? 0 = some r ∧ g.find? 9 = some root ∧
      (d.mount r { state := () }).dispatcher.routes.keys = [ascii "/a", ascii "/a/<x>"] ∧
      ((d.mount r { state := () }).dispatcher.find? (ascii "/a")).map (·.entry.origin) = some 1 ∧
      ((d.mount root { state := () }).dispatcher.find? (ascii "/a")).map (·.entry.origin) =
        some 1 ∧
      ((d.mount root { state := () }).dispatcher.match? (ascii "/a/q")).map (fun m =>
        (m.key, m.params.find? (ascii "x"))) = some (ascii "/a/<x>", some (ascii "q")) ∧
      (d.mount root { state := () }).dispatcher.routes.keys =
        (d.mount r { state := () }).dispatcher.routes.keys ∧
      (∀ key, ((d.mount root { state := () }).dispatcher.find? key).map (·.entry) =
        ((d.mount r { state := () }).dispatcher.find? key).map (·.entry)) ∧
      ∀ path, (d.mount root { state := () }).dispatcher.match? path =
        (d.mount r { state := () }).dispatcher.match? path := by
  intro f g d
  have reached : Reached outshone f := Reached.start.after (by decide +kernel)
  have mounts : (f.tree? 0).map (fun tree =>
      ((d.mount tree.1 { state := () }).fault,
        (d.mount tree.1 { state := () }).dispatcher.routes.keys,
        ((d.mount tree.1 { state := () }).dispatcher.find? (ascii "/a")).map (·.entry.origin))) =
      some (none, [ascii "/a", ascii "/a/<x>"], some 1) := by decide +kernel
  have mounts' : (g.find? 9).map (fun root =>
      ((d.mount root { state := () }).fault,
        ((d.mount root { state := () }).dispatcher.find? (ascii "/a")).map (·.entry.origin))) =
      some (none, some 1) := by decide +kernel
  have matches' : (g.find? 9).bind (fun root =>
      ((d.mount root { state := () }).dispatcher.match? (ascii "/a/q")).map fun m =>
        (m.key, m.params.find? (ascii "x"))) =
      some (ascii "/a/<x>", some (ascii "q")) := by decide +kernel
  obtain ⟨⟨r, children⟩, found, mounted⟩ := Option.map_eq_some_iff.mp mounts
  obtain ⟨mounted, served⟩ := Prod.mk.inj mounted
  obtain ⟨keys, served⟩ := Prod.mk.inj served
  obtain ⟨-, -, root, found', same⟩ :=
    mount_wrapped reached (p := 9) found (by decide +kernel) (by decide +kernel)
  rw [found', Option.map_some, Option.some_inj, Prod.mk.injEq] at mounts'
  obtain ⟨mounted', served'⟩ := mounts'
  rw [found', Option.bind_some] at matches'
  refine ⟨r, root, by rw [Forest.find?, found, Option.map_some], found', keys, served, served',
    matches', ?_⟩
  exact same d _ _ mounted mounted'

end HttpRouting
