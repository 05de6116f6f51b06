import HttpRouting.Proofs.Resolution
import Mathlib.Data.List.Induction

namespace HttpRouting

variable {σ : Type}

namespace Forest

theorem isEmpty_handlersAfter {accepted : List (Method × Handler σ)} :
    (handlersAfter accepted).isEmpty = true ↔ accepted = [] := by
  rcases List.eq_nil_or_concat accepted with rfl | ⟨before, ⟨m, h⟩, rfl⟩
  · exact iff_of_true rfl rfl
  · rw [List.concat_eq_append, handlersAfter_append, withHandler, Dictionary.isEmpty_insert]
    simp

def Stands (m : Method) (accepted : List (Method × Handler σ)) (h : Handler σ) : Prop :=
  ∃ before after, accepted = before ++ (m, h) :: after ∧
    ∀ e ∈ after, e.1 ≠ m ∧ e.1 ≠ .all ∧ m ≠ .all

theorem stands_append {accepted : List (Method × Handler σ)} {m m' : Method} {h h' : Handler σ} :
    Stands m (accepted ++ [(m', h')]) h ↔
      (m = m' ∧ h' = h) ∨ m ≠ m' ∧ ¬(m' = .all ∨ m = .all) ∧ Stands m accepted h := by
  constructor
  · rintro ⟨before, after, same, later⟩
    -- The handler added last is the one that stands, or it is the last of those after that one.
    rcases List.eq_nil_or_concat after with rfl | ⟨after, e, rfl⟩
    · obtain ⟨-, last⟩ := List.append_inj' same rfl
      cases last
      exact .inl ⟨rfl, rfl⟩
    · rw [List.concat_eq_append] at same later
      rw [← List.cons_append, ← List.append_assoc] at same
      obtain ⟨rfl, last⟩ := List.append_inj' same rfl
      obtain rfl := List.singleton_inj.mp last
      rw [List.forall_mem_append, List.forall_mem_singleton] at later
      obtain ⟨earlier, other, single⟩ := later
      exact .inr ⟨Ne.symm other, not_or.mpr single, before, after, rfl, earlier⟩
  · rintro (⟨rfl, rfl⟩ | ⟨other, single, before, after, rfl, later⟩)
    · exact ⟨accepted, [], rfl, nofun⟩
    · rw [not_or] at single
      refine ⟨before, after ++ [(m', h')], by simp, ?_⟩
      rw [List.forall_mem_append, List.forall_mem_singleton]
      exact ⟨later, Ne.symm other, single⟩

theorem find?_handlersAfter {accepted : List (Method × Handler σ)} {m : Method} {h : Handler σ} :
    (handlersAfter accepted).find? m = some h ↔ Stands m accepted h := by
  induction accepted using List.reverseRecOn generalizing h with
  | nil =>
    refine iff_of_false nofun ?_
    rintro ⟨before, after, same, -⟩
    simp at same
  | append_singleton accepted e ih =>
    rw [handlersAfter_append, find?_withHandler, stands_append, ← ih]
    split
    · simp_all
    · split <;> simp_all

theorem stands_all_iff {accepted : List (Method × Handler σ)} {h : Handler σ} :
    Stands .all accepted h ↔ ∃ before, accepted = before ++ [(.all, h)] := by
  constructor
  · rintro ⟨before, after, same, later⟩
    cases after with
    | nil => exact ⟨before, same⟩
    | cons e after => exact absurd rfl (later e List.mem_cons_self).2.2
  · rintro ⟨before, same⟩
    exact ⟨before, [], same, nofun⟩

/-- How accepted handlers serve a method: by the latest for the method, unless one for all methods
has come after it; else by the latest for all methods, unless another has come after it. -/
inductive ServedBy (m : Method) (accepted : List (Method × Handler σ)) (h : Handler σ) : Prop
  | own {before after : List (Method × Handler σ)} (here : accepted = before ++ (m, h) :: after)
      (later : ∀ e ∈ after, e.1 ≠ m ∧ e.1 ≠ .all)
  | general {before : List (Method × Handler σ)} (here : accepted = before ++ [(.all, h)])

theorem servedBy_iff {accepted : List (Method × Handler σ)} {m : Method} (single : m ≠ .all)
    {h : Handler σ} :
    ((handlersAfter accepted).find? m).or ((handlersAfter accepted).find? .all) = some h ↔
      ServedBy m accepted h := by
  rw [Option.or_eq_some_iff, find?_handlersAfter, find?_handlersAfter, stands_all_iff]
  constructor
  · rintro (⟨before, after, here, later⟩ | ⟨-, before, here⟩)
    · exact .own here fun e he => ⟨(later e he).1, (later e he).2.1⟩
    · exact .general here
  · rintro (⟨here, later⟩ | ⟨here⟩)
    · exact .inl ⟨_, _, here, fun e he => ⟨(later e he).1, (later e he).2, single⟩⟩
    · refine .inr ⟨?_, _, here⟩
      rw [here, handlersAfter_append, find?_withHandler, if_neg single, if_pos (.inl rfl)]

def Exclusive (handlers : Dictionary Method (Handler σ)) : Prop :=
  handlers.keys = [.all] ∨ ∀ m ∈ handlers.keys, m ∈ Method.named

theorem exclusive_handlersAfter {accepted : List (Method × Handler σ)}
    (known : ∀ e ∈ accepted, e.1 ≠ .unknown) : Exclusive (handlersAfter accepted) := by
  rcases all : (handlersAfter accepted).find? .all with _ | h
  · right
    intro m hm
    rw [Dictionary.mem_keys_iff] at hm
    obtain ⟨h, found⟩ := Option.isSome_iff_exists.mp hm
    obtain ⟨before, after, here, -⟩ := find?_handlersAfter.mp found
    have listed := known (m, h) (by rw [here]; simp)
    cases m with
    | all =>
      rw [all] at found
      cases found
    | unknown => exact absurd rfl listed
    | _ => decide
  · obtain ⟨before, rfl⟩ := stands_all_iff.mp (find?_handlersAfter.mp all)
    left
    rw [handlersAfter_append]
    rfl

end Forest

namespace Call

theorem accepted_known {id : Nat} {c : Call σ} : ∀ e ∈ c.accepted id, e.1 ≠ .unknown := by
  intro e he
  cases c with
  | path | nest | middlewares | compose => cases he
  | handle id' m h =>
    cases h with
    | none => cases he
    | some h =>
      rw [accepted] at he
      split at he
      · rename_i accepts
        rw [List.mem_singleton.mp he]
        exact accepts.2
      · cases he

end Call

namespace Forest

variable {calls : List (Call σ)} {f : Forest σ}

theorem handle_rejected {id : Nat} {m : Method} {h : Option (Handler σ)}
    (there : f.contains id = true) (rejected : h = none ∨ m = .unknown) :
    ∃ fault, f.handle id m h = { forest := f, fault := some fault } := by
  have found : (f.find? id).isSome = true := by
    rw [find?, Option.isSome_map]
    exact there
  obtain ⟨r, found⟩ := Option.isSome_iff_exists.mp found
  unfold handle
  rw [found]
  cases h with
  | none => exact ⟨_, rfl⟩
  | some h => exact ⟨_, if_pos (rejected.resolve_left (Option.some_ne_none h))⟩

theorem owner_of_line {f : Forest σ} {line : List (Router σ)} (h : line ∈ f.lines) :
    ∃ r, line.getLast? = some r ∧ r.handlers.isEmpty = false := by
  induction f generalizing line with
  | nil => cases h
  | cons r children siblings ihc ihs =>
    rcases mem_lines_cons.mp h with ⟨served, rfl⟩ | ⟨rest, below, rfl⟩ | beside
    · exact ⟨r.bare, rfl, served⟩
    · obtain ⟨owner, last, served⟩ := ihc below
      exact ⟨owner, by rw [List.getLast?_cons, last]; rfl, served⟩
    · exact ihs beside

theorem owner_of_entriesOf (hf : f.Reached calls) {id : Nat} {root : Router σ}
    {children : Forest σ} (found : f.tree? id = some (root, children)) {e : Entry σ}
    (he : e ∈ Dispatcher.entriesOf root) :
    ∃ r ∈ f.routers, r.handlers.isEmpty = false ∧ e.origin = r.ident ∧
      e.handlers = r.handlers := by
  rcases mem_entriesOf hf found he with ⟨served, rfl⟩ | ⟨line, hl, rfl, -⟩
  · exact ⟨root.bare, bare_mem_routers found, served, rfl, rfl⟩
  · obtain ⟨r, last, served⟩ := owner_of_line hl
    have listed := mem_routers_below found hl r (List.mem_of_getLast? last)
    have ends : (root :: line).getLast? = some r := by
      rw [List.getLast?_cons, last]
      rfl
    refine ⟨r, listed, served, ?_, ?_⟩
    · rw [Entry.along, ends]
      rfl
    · rw [Entry.along, ends]
      rfl

end Forest

theorem Method.keys_eq_filter {α : Type} {d : Dictionary Method α}
    (single : ∀ m ∈ d.keys, m ∈ Method.named) : d.keys = Method.named.filter d.contains := by
  have asymm (a b : Method) (ab : compare a b = .lt) (ba : compare b a = .lt) : a = b :=
    absurd ba (Std.OrientedCmp.not_lt_of_lt ab)
  have ne {a b : Method} (ab : compare a b = .lt) : a ≠ b := by
    rintro rfl
    have self : compare a a = .eq := Std.ReflCmp.compare_self
    rw [self] at ab
    cases ab
  have keys : d.keys.Pairwise (fun a b => compare a b = .lt) := List.pairwise_map.mpr d.sorted
  have listed : (Method.named.filter d.contains).Pairwise (fun a b => compare a b = .lt) :=
    List.Pairwise.filter _ (by decide)
  apply List.Perm.eq_of_pairwise (fun a b _ _ => asymm a b) keys listed
  rw [List.perm_ext_iff_of_nodup (keys.imp ne) (listed.imp ne)]
  intro m
  rw [List.mem_filter, Dictionary.mem_keys_iff, Dictionary.contains]
  exact ⟨fun bound => ⟨single m (Dictionary.mem_keys_iff.mpr bound), bound⟩, And.right⟩

namespace CompiledRoute

def served (r : CompiledRoute σ) : List Method :=
  Method.named.filter fun m => (r.chainFor? m).isSome

theorem contains_of_compile {r : CompiledRoute σ} {w w' : World σ}
    (compiled : r.entry.compile w = (.ok r, w')) (m : Method) :
    (r.chainFor? m).isSome = (r.entry.handlers.contains m || r.entry.handlers.contains .all) := by
  obtain ⟨unserved, served⟩ := r.entry.chainFor?_compile compiled m
  rw [Dictionary.contains, Dictionary.contains, ← Option.isSome_or]
  cases found : (r.entry.handlers.find? m).or (r.entry.handlers.find? .all) with
  | none =>
    rw [unserved found]
    rfl
  | some h =>
    obtain ⟨stage, chain, -⟩ := served h found
    rw [chain]
    rfl

theorem keys_eq_served {r : CompiledRoute σ} {w w' : World σ}
    (compiled : r.entry.compile w = (.ok r, w'))
    (exclusive : Forest.Exclusive r.entry.handlers) {m : Method}
    (refused : r.chainFor? m = none) : r.entry.handlers.keys = r.served := by
  have unserved := contains_of_compile compiled m
  rw [refused, Option.isSome_none, eq_comm, Bool.or_eq_false_iff] at unserved
  have single : ∀ m ∈ r.entry.handlers.keys, m ∈ Method.named := by
    rcases exclusive with all | single
    · have bound : .all ∈ r.entry.handlers.keys := by rw [all]; exact List.mem_cons_self
      rw [Dictionary.mem_keys_iff] at bound
      rw [Dictionary.contains, Dictionary.contains, bound] at unserved
      cases unserved.2
    · exact single
  rw [Method.keys_eq_filter single, served]
  congr 1
  funext m
  rw [contains_of_compile compiled, unserved.2, Bool.or_false]

end CompiledRoute

namespace Dispatcher

theorem find?_of_resolve {d : Dispatcher σ} {request filled : Request} {route : CompiledRoute σ}
    (resolved : d.resolve request = (some route, filled)) : ∃ key, d.find? key = some route := by
  rw [resolve] at resolved
  split at resolved
  · exact ⟨_, congrArg Prod.fst resolved⟩
  · split at resolved
    · cases resolved
    · exact ⟨_, congrArg Prod.fst resolved⟩

theorem mem_mountedRoutes_of_resolve {d : Dispatcher σ} {root : Router σ} {w : World σ}
    {request filled : Request} {route : CompiledRoute σ}
    (resolved : (d.mount root w).dispatcher.resolve request = (some route, filled)) :
    route ∈ d.mountedRoutes root w := by
  obtain ⟨key, found⟩ := find?_of_resolve resolved
  exact ((d.holds_mount root w).mem_of_find? found).1

theorem allow_notAllowed (route : CompiledRoute σ) :
    (notAllowed route).headers.get? (ascii "Allow") = some route.allowed := by
  with_unfolding_all rfl

end Dispatcher

open Middleware Forest

variable {calls : List (Call σ)} {f : Forest σ}

theorem handler_sets_serve (hf : f.Reached calls) :
    (∀ id m h, f.contains id = true → h = none ∨ m = .unknown →
      ∃ fault, (Call.handle id m h).apply f = { forest := f, fault := some fault }) ∧
    (∀ r ∈ f.routers,
      Exclusive r.handlers ∧
      (∀ more (f' : Forest σ), f'.Reached (calls ++ more) → ∀ r' ∈ f'.routers,
        r'.ident = r.ident → r.handlers.isEmpty = false → r'.handlers.isEmpty = false) ∧
      ∀ (e : Entry σ) route v v', e.handlers = r.handlers → e.compile v = (.ok route, v') →
        ∀ m ≠ .all,
          (∀ h, ServedBy m (calls.flatMap (Call.accepted r.ident)) h →
            ∃ stage, route.chainFor? m = some stage ∧ IsChain e.middlewares h.stage stage) ∧
          ((∀ h, ¬ServedBy m (calls.flatMap (Call.accepted r.ident)) h) →
            route.chainFor? m = none)) ∧
    ∀ id root, f.find? id = some root → ∀ (d : Dispatcher σ) w₀ request route filled,
      (d.mount root w₀).dispatcher.resolve request = (some route, filled) →
      (∃ r ∈ f.routers, route.entry.origin = r.ident ∧ route.entry.handlers = r.handlers ∧
        ∃ v v', route.entry.compile v = (.ok route, v')) ∧
      (route.chainFor? request.method = none → route.served ≠ [] ∧ ∀ w, ∃ response w',
        (d.mount root w₀).dispatcher.dispatch request w = (.ok response, w') ∧
          response.status = 405 ∧ response.headers.get? (ascii "Allow") =
            some (Bytes.join ", " (route.served.map fun m => ascii m.name))) := by
  have exclusive : ∀ r ∈ f.routers, Exclusive r.handlers := by
    intro r hr
    rw [hf.handlers_eq r hr]
    apply exclusive_handlersAfter
    intro e he
    obtain ⟨c, -, given⟩ := List.mem_flatMap.mp he
    exact Call.accepted_known e given
  refine ⟨fun id m h => handle_rejected, fun r hr => ⟨exclusive r hr, ?_, ?_⟩, ?_⟩
  · intro more f' hf' r' hr' same filled
    rw [Bool.eq_false_iff, Ne, hf.handlers_eq r hr, isEmpty_handlersAfter] at filled
    rw [Bool.eq_false_iff, Ne, hf'.handlers_eq r' hr', isEmpty_handlersAfter, same,
      List.flatMap_append, List.append_eq_nil_iff]
    exact fun nothing => filled nothing.1
  · intro e route v v' handlers compiled m single
    obtain ⟨unserved, served⟩ := e.chainFor?_compile compiled m
    rw [handlers, hf.handlers_eq r hr] at unserved served
    constructor
    · exact fun h serving => served h ((servedBy_iff single).mpr serving)
    · intro nothing
      apply unserved
      rw [Option.eq_none_iff_forall_ne_some]
      exact fun h found => nothing h ((servedBy_iff single).mp found)
  · intro id root found d w₀ request route filled resolved
    obtain ⟨⟨root, children⟩, tree, rfl⟩ := Option.map_eq_some_iff.mp found
    have mounted := Dispatcher.mem_mountedRoutes_of_resolve resolved
    obtain ⟨v, v', compiled⟩ := Dispatcher.compile_of_mem_compiled mounted
    have listed := (d.mountedEntries_prefix root w₀).subset (List.mem_map_of_mem mounted)
    obtain ⟨r, hr, able, origin, handlers⟩ := owner_of_entriesOf hf tree listed
    refine ⟨⟨r, hr, origin, handlers, v, v', compiled⟩, fun refused => ?_⟩
    have keys := CompiledRoute.keys_eq_served compiled (handlers ▸ exclusive r hr) refused
    have method : filled.method = request.method := by
      have kept := (Dispatcher.resolve_method_path (d.mount root w₀).dispatcher request).1
      rwa [resolved] at kept
    constructor
    · rw [← keys, handlers]
      intro nothing
      rw [Dictionary.isEmpty, List.map_eq_nil_iff.mp nothing] at able
      cases able
    · intro w
      refine ⟨_, _, Dispatcher.dispatch_of_refused resolved (method ▸ refused) w, rfl, ?_⟩
      rw [Dispatcher.allow_notAllowed, CompiledRoute.allowed, keys]

def alternating : List (Call Unit) :=
  [.path 0 (ascii "/a"), .handle 0 .get (some (plainHandler 0)),
    .handle 0 .all (some (plainHandler 1)), .handle 0 .unknown (some (plainHandler 2)),
    .handle 0 .post (some (plainHandler 3)), .handle 0 .get none,
    .handle 0 .put (some (plainHandler 4))]

theorem handler_sets_serve_alternating :
    ∃ root route filled response w', (Forest.nil.after alternating).find? 0 = some root ∧
      (({ sink := none } : Dispatcher Unit).mount root { state := () }).dispatcher.resolve
        { path := ascii "/a" } = (some route, filled) ∧
      (∃ stage, route.chainFor? .post = some stage ∧
        IsChain route.entry.middlewares (plainHandler 3).stage stage) ∧
      (({ sink := none } : Dispatcher Unit).mount root { state := () }).dispatcher.dispatch
        { path := ascii "/a" } { state := () } = (.ok response, w') ∧
      response.status = 405 ∧ response.headers.get? (ascii "Allow") = some (ascii "POST, PUT") := by
  have reached : Forest.Reached alternating (Forest.nil.after alternating) :=
    Forest.Reached.start.after (by decide +kernel)
  have only : (Forest.nil.after alternating).idents = [0] := by decide +kernel
  have left : ((Forest.nil.after alternating).find? 0).any (fun root =>
      ((({ sink := none } : Dispatcher Unit).mount root { state := () }).dispatcher.resolve
        { path := ascii "/a" }).1.any fun route => route.served = [.post, .put]) = true := by
    decide +kernel
  rcases found : (Forest.nil.after alternating).find? 0 with _ | root
  · rw [found] at left
    cases left
  rw [found, Option.any_some] at left
  rcases resolved : (({ sink := none } : Dispatcher Unit).mount root
    { state := () }).dispatcher.resolve { path := ascii "/a" } with ⟨_ | route, filled⟩
  · rw [resolved] at left
    cases left
  rw [resolved, Option.any_some, decide_eq_true_eq] at left
  obtain ⟨-, sets, answers⟩ := handler_sets_serve reached
  obtain ⟨⟨r, hr, -, handlers, v, v', compiled⟩, refuses⟩ := answers 0 root found _ _ _ _ _ resolved
  have ident : r.ident = 0 := by
    have listed : r.ident ∈ (Forest.nil.after alternating).idents := List.mem_map_of_mem hr
    rwa [only, List.mem_singleton] at listed
  have serves := (sets r hr).2.2 route.entry route v v' handlers compiled
  rw [ident] at serves
  have latest : alternating.flatMap (Call.accepted 0) =
      [(.get, plainHandler 0), (.all, plainHandler 1)] ++
        (.post, plainHandler 3) :: [(.put, plainHandler 4)] := rfl
  have post := (serves .post (by decide)).1 (plainHandler 3) (.own latest (by simp))
  have get : route.chainFor? .get = none := by
    refine (serves .get (by decide)).2 fun h served => ?_
    have bound := (servedBy_iff (by decide)).mpr served
    cases bound
  obtain ⟨-, refuses⟩ := refuses get
  obtain ⟨response, w', answer, status, allow⟩ := refuses { state := () }
  rw [left] at allow
  exact ⟨root, route, filled, response, w', rfl, resolved, post, answer, status, allow⟩

end HttpRouting
