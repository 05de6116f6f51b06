import HttpRouting.Application
import HttpRouting.Proofs.Matching
import HttpRouting.Proofs.Relabelling

namespace HttpRouting

open Router

variable {σ : Type}

namespace Forest

theorem tree?_revise {change : Router σ → Forest σ → Noted (Router σ × Forest σ)}
    (kept : ∀ r children, (change r children).value.1.ident = r.ident) {f : Forest σ}
    (distinct : f.idents.Nodup) {id : Nat} {r : Router σ} {children : Forest σ}
    (found : f.tree? id = some (r, children)) {revision : Noted (Revision σ)}
    (revised : f.revise change id = some revision) :
    revision.value.forest.tree? id = some (change r children).value := by
  induction f generalizing revision with
  | nil => cases found
  | cons first below siblings ihc ihs =>
    rw [idents_cons, List.nodup_cons, List.mem_append, not_or, List.nodup_append] at distinct
    obtain ⟨⟨absentc, -⟩, distinctc, distincts, -⟩ := distinct
    rcases revise_cons_of_tree? absentc found revised with ⟨here, rfl, rfl, value⟩ |
      ⟨elsewhere, inside, found, inner, rest, value⟩ |
      ⟨elsewhere, outside, found, other, rest, value⟩
    all_goals rw [value, tree?_cons]
    · rw [kept, if_pos here]
    · rw [ident_absorb, if_neg elsewhere, ihc distinctc found rest, Option.some_or]
    · rw [if_neg elsewhere, tree?_eq_none_iff.mpr outside, Option.none_or, ihs distincts found rest]

theorem tree?_compose {f : Forest σ} (distinct : f.idents.Nodup) {id : Nat} {r : Router σ}
    {children : Forest σ} (found : f.tree? id = some (r, children)) :
    (f.compose id).forest.tree? id =
      some (r.absorbAll children.rebuild.value.roots, children.rebuild.value) := by
  have kept (r : Router σ) (children : Forest σ) :
      (composing r children).value.1.ident = r.ident := by
    change (r.absorbAll children.rebuild.value.roots).ident = r.ident
    rw [← bare_ident, bare_absorbAll, bare_ident]
  obtain ⟨revision, revised, declared⟩ :=
    declare_of_mem_idents composing (mem_idents_of_tree? found)
  change (f.declare id composing).forest.tree? id = _
  rw [declared, tree?_revise kept distinct found revised]
  rfl

end Forest

namespace Dispatcher

theorem entries_mount {d : Dispatcher σ} {root : Router σ} {w : World σ}
    (mounted : (d.mount root w).fault = none) (key : Bytes) :
    ((d.mount root w).dispatcher.find? key).map (·.entry) =
      latest key ((entriesOf root).map fun e => (e.urlPath, e)) := by
  have entries : (d.mountedRoutes root w).map (·.entry) = entriesOf root :=
    mountedEntries_eq mounted
  rw [find?, (d.holds_mount root w).found, ← latest_map_value, ← entries, List.map_map,
    List.map_map]
  rfl

theorem matcher_mount {d : Dispatcher σ} {root : Router σ} {w : World σ}
    (mounted : (d.mount root w).fault = none) :
    (d.mount root w).dispatcher.matcher =
      (entriesOf root).foldl (fun t e => t.insert e.urlPath e.segments) .empty := by
  have placed (routes : List (CompiledRoute σ)) (d : Dispatcher σ) :
      (routes.foldl (fun d r => (d.place r).value) d).matcher =
        (routes.map (·.entry)).foldl (fun t e => t.insert e.urlPath e.segments) d.matcher := by
    induction routes generalizing d with
    | nil => rfl
    | cons r routes ih => rw [List.foldl_cons, ih, value_place, List.map_cons, List.foldl_cons]
  have entries : (d.mountedRoutes root w).map (·.entry) = entriesOf root :=
    mountedEntries_eq mounted
  rw [dispatcher_mount, dispatcher_mountEntries, placed]
  change ((d.mountedRoutes root w).map (·.entry)).foldl _ _ = _
  rw [entries]

theorem entriesOf_relabel (ρ : Nat → Nat) (r : Router σ) :
    entriesOf (r.relabel ρ) = (entriesOf r).map (Entry.relabel ρ) := by
  have own : (r.relabel ρ).ownEntry = r.ownEntry.relabel ρ := rfl
  rw [entriesOf, entriesOf, List.map_append, own]
  congr 1
  · change (if r.handlers.isEmpty then _ else _) = _
    split <;> rfl
  · change ((r.routes.map (Entry.relabel ρ)).entries.map (·.2)) = _
    rw [Dictionary.map, Dictionary.values, List.map_map, List.map_map]
    rfl

/-- The dispatchers serve the same entries at the same keys, but for the names of the routers that
hold the handlers, and find the same for every path. -/
structure Alike (ρ : Nat → Nat) (d d' : Dispatcher σ) : Prop where
  keys : d'.routes.keys = d.routes.keys
  entries : ∀ key,
    (d'.find? key).map (·.entry) = ((d.find? key).map (·.entry)).map (Entry.relabel ρ)
  found : ∀ path, d'.match? path = d.match? path

theorem alike_of_entries {ρ : Nat → Nat} {d d' : Dispatcher σ} (config : d'.config = d.config)
    (matcher : d'.matcher = d.matcher)
    (entries : ∀ key,
      (d'.find? key).map (·.entry) = ((d.find? key).map (·.entry)).map (Entry.relabel ρ)) :
    d.Alike ρ d' where
  keys := by
    have same : d'.routes.map (·.entry) = (d.routes.map (·.entry)).map (Entry.relabel ρ) := by
      apply Dictionary.ext_find?
      intro key
      rw [Dictionary.find?_map, Dictionary.find?_map, Dictionary.find?_map]
      exact entries key
    rw [← Dictionary.keys_map (·.entry) d'.routes, same, Dictionary.keys_map, Dictionary.keys_map]
  entries := entries
  found path := by
    rw [match?_eq, match?_eq, config, matcher]
    congr 1
    funext hit
    have view (d : Dispatcher σ) : (d.routes.find? hit.1).map (fun route =>
          (⟨hit.1, bindParams route.entry.segments hit.2⟩ : RouteMatch)) =
        ((d.find? hit.1).map (·.entry)).map fun e => ⟨hit.1, bindParams e.segments hit.2⟩ := by
      rw [Option.map_map]
      rfl
    rw [view d', view d, entries, Option.map_map]
    rfl

theorem alike_refl (d : Dispatcher σ) : d.Alike (fun id => id) d where
  keys := rfl
  entries key := by
    have same : (Entry.relabel fun id => id : Entry σ → Entry σ) = id := rfl
    rw [same, Option.map_id, id]
  found _ := rfl

theorem alike_mount {d : Dispatcher σ} {root root' : Router σ} {ρ : Nat → Nat}
    (same : root' = root.relabel ρ) {w w' : World σ} (mounted : (d.mount root w).fault = none)
    (mounted' : (d.mount root' w').fault = none) :
    (d.mount root w).dispatcher.Alike ρ (d.mount root' w').dispatcher := by
  have entries : entriesOf root' = (entriesOf root).map (Entry.relabel ρ) := by
    rw [same, entriesOf_relabel]
  refine alike_of_entries ?_ ?_ fun key => ?_
  · rw [config_mount, config_mount]
  · rw [matcher_mount mounted, matcher_mount mounted', entries, List.foldl_map]
    rfl
  · rw [entries_mount mounted, entries_mount mounted', entries, List.map_map, ← latest_map_value,
      List.map_map]
    rfl

end Dispatcher

namespace Application

open Forest

variable {app app' : Application σ} {config : AppConfig} {f f' : Forest σ} {w w' : World σ}
variable {root root' : Router σ} {children children' : Forest σ} {calls calls' : List (Call σ)}

theorem root_start (app : Application σ) (config : AppConfig) (f : Forest σ) (w : World σ) :
    (app.start config f w).app.root = app.root := by
  rw [start]
  dsimp only
  split
  · rfl
  · split <;> rfl

theorem forest_start (app : Application σ) (config : AppConfig) (f : Forest σ) (w : World σ) :
    (app.start config f w).forest = (f.compose app.root).forest := by
  rw [start]
  dsimp only
  split
  · rfl
  · split <;> rfl

theorem dispatcher_start_of_fault (failed : (app.start config f w).fault ≠ none) :
    (app.start config f w).app.dispatcher = app.dispatcher := by
  rw [start] at failed ⊢
  dsimp only at failed ⊢
  split at failed
  · exact absurd rfl failed
  · split at failed
    · rfl
    · exact absurd rfl failed

def empty (config : AppConfig) : Dispatcher σ :=
  { config := config.dispatch, sink := some logSink }

theorem dispatcher_start (distinct : f.idents.Nodup)
    (found : f.tree? app.root = some (root, children))
    (started : (app.start config f w).fault = none) : ∃ v,
    ((empty config).mount (root.absorbAll children.rebuild.value.roots) v).fault = none ∧
      (app.start config f w).app.dispatcher =
        ((empty config).mount (root.absorbAll children.rebuild.value.roots) v).dispatcher := by
  have composed : (f.compose app.root).forest.find? app.root =
      some (root.absorbAll children.rebuild.value.roots) := by
    rw [find?, tree?_compose distinct found]
    rfl
  rw [start] at started ⊢
  dsimp only at started ⊢
  rw [composed] at started ⊢
  dsimp only at started ⊢
  split at started
  · cases started
  · rename_i mounted
    exact ⟨_, mounted, rfl⟩

theorem alike_start (hf : f.Reached calls) (hf' : f'.Reached calls')
    (found : f.tree? app.root = some (root, children))
    (found' : f'.tree? app'.root = some (root', children')) {ρ : Nat → Nat}
    (same : (cons root' children' nil).bare = (cons root children nil).bare.relabel ρ)
    (started : (app.start config f w).fault = none)
    (started' : (app'.start config f' w').fault = none) :
    (app.start config f w).app.dispatcher.Alike ρ (app'.start config f' w').app.dispatcher := by
  obtain ⟨top, under⟩ := current_tree hf.current found
  obtain ⟨top', under'⟩ := current_tree hf'.current found'
  have composed := rebuild_of_same (f := cons root children nil) (g := cons root' children' nil)
    ⟨top, under, trivial⟩ ⟨top', under', trivial⟩ same
  rw [value_rebuild_cons, value_rebuild_cons, Forest.relabel, cons.injEq] at composed
  obtain ⟨v, mounted, dispatcher⟩ := dispatcher_start hf.distinct found started
  obtain ⟨v', mounted', dispatcher'⟩ := dispatcher_start hf'.distinct found' started'
  rw [dispatcher, dispatcher']
  exact Dispatcher.alike_mount composed.1 mounted mounted'

end Application

open Forest in
theorem start_alike {calls calls' : List (Call σ)} {f f' : Forest σ} (hf : f.Reached calls)
    (hf' : f'.Reached calls') (app app' : Application σ) {config : AppConfig} {w w' : World σ}
    {root root' : Router σ} {children children' : Forest σ}
    (found : f.tree? app.root = some (root, children))
    (found' : f'.tree? app'.root = some (root', children')) {ρ : Nat → Nat}
    (same : (cons root' children' nil).bare = (cons root children nil).bare.relabel ρ)
    (started : (app.start config f w).fault = none)
    (started' : (app'.start config f' w').fault = none) :
    (app.start config f w).app.dispatcher.Alike ρ (app'.start config f' w').app.dispatcher ∧
      ∀ v, (app.start config f w).app.dispatcher.Alike (fun id => id)
        ((app.start config f w).app.start config
          (app.start config f w).forest v).app.dispatcher := by
  refine ⟨Application.alike_start hf hf' found found' same started started', fun v => ?_⟩
  have inside : f.contains app.root = true := contains_iff.mpr (mem_idents_of_tree? found)
  have again : (app.start config f w).forest.Reached (calls ++ [.compose app.root]) := by
    rw [Application.forest_start]
    exact hf.call (.compose app.root) inside
  have found₁ : (app.start config f w).forest.tree? (app.start config f w).app.root =
      some (root.absorbAll children.rebuild.value.roots, children.rebuild.value) := by
    rw [Application.forest_start, Application.root_start, tree?_compose hf.distinct found]
  -- The tables have been composed, what is declared is as before.
  have kept : (cons (root.absorbAll children.rebuild.value.roots) children.rebuild.value nil).bare =
      (cons root children nil).bare.relabel fun id => id := by
    rw [relabel_id, Forest.bare, bare_absorbAll, bare_rebuild]
    rfl
  by_cases restarted :
      ((app.start config f w).app.start config (app.start config f w).forest v).fault = none
  · exact Application.alike_start hf again found found₁ kept started restarted
  · rw [Application.dispatcher_start_of_fault restarted]
    exact Dispatcher.alike_refl _

def regrown : List (Call Unit) :=
  [.path 10 (ascii "/x"), .path 11 (ascii "/x"), .path 12 [], .nest 12 [some 10],
    .handle 10 .get (some (plainHandler 0)), .handle 10 .put (some (plainHandler 2)),
    .nest 12 [some 11], .handle 11 .get (some (plainHandler 1))]

def regrownName (id : Nat) : Nat := if id = 0 then 12 else id + 9

open Forest in
theorem start_alike_regrown :
    let once := (Application.new 0).start {} (nil.after drifting) { state := () }
    let twice := once.app.start {} once.forest { state := () }
    let other := (Application.new 12).start {} (nil.after regrown) { state := () }
    (once.app.dispatcher.routes.keys = [ascii "/x"] ∧
      (once.app.dispatcher.find? (ascii "/x")).map (fun r => (r.entry.origin, r.allowed)) =
        some (2, ascii "GET") ∧
      (other.app.dispatcher.find? (ascii "/x")).map (fun r => (r.entry.origin, r.allowed)) =
        some (11, ascii "GET") ∧
      (other.app.dispatcher.match? (ascii "/x/")).map (·.key) = some (ascii "/x")) ∧
    once.app.dispatcher.Alike regrownName other.app.dispatcher ∧
      once.app.dispatcher.Alike (fun id => id) twice.app.dispatcher := by
  have reached : Reached drifting (nil.after drifting) := Reached.start.after (by decide +kernel)
  have reached' : Reached regrown (nil.after regrown) := Reached.start.after (by decide +kernel)
  have same : ((nil.after regrown).tree? 12).map (fun tree => (cons tree.1 tree.2 nil).bare) =
      ((nil.after drifting).tree? 0).map fun tree =>
        (cons tree.1 tree.2 nil).bare.relabel regrownName := by with_unfolding_all rfl
  have inside : ((nil.after drifting).tree? 0).isSome = true := by decide +kernel
  obtain ⟨⟨root, children⟩, found⟩ := Option.isSome_iff_exists.mp inside
  rw [found, Option.map_some, Option.map_eq_some_iff] at same
  obtain ⟨⟨root', children'⟩, found', same⟩ := same
  have started :
      ((Application.new 0).start {} (nil.after drifting) { state := () }).fault = none := by
    decide +kernel
  have started' :
      ((Application.new 12).start {} (nil.after regrown) { state := () }).fault = none := by
    decide +kernel
  obtain ⟨alike, again⟩ :=
    start_alike reached reached' (.new 0) (.new 12) found found' same started started'
  exact ⟨by decide +kernel, alike, again { state := () }⟩

end HttpRouting
