import HttpRouting.Proofs.Builds
import HttpRouting.Proofs.Reports

namespace HttpRouting

open Middleware SetUpCall

variable {σ ι : Type}

def CompiledRoute.detached (r : CompiledRoute σ) : CompiledRoute σ :=
  { r with entry.middlewares := [] }

namespace Dispatcher

def detached (d : Dispatcher σ) : Dispatcher σ := d.mapRoutes CompiledRoute.detached

theorem dispatch_detached (d : Dispatcher σ) (request : Request) (w : World σ) :
    d.detached.dispatch request w = d.dispatch request w := by
  have segments (r : CompiledRoute σ) : r.detached.entry.segments = r.entry.segments := rfl
  have resolved' := d.resolve_mapRoutes segments request
  rcases resolved : d.resolve request with ⟨_ | route, filled⟩
  · rw [resolved] at resolved'
    rw [dispatch, dispatch, resolved, detached, resolved']
    rfl
  · rw [resolved] at resolved'
    cases chained : route.chainFor? filled.method with
    | none =>
      have chained' : route.detached.chainFor? filled.method = none := chained
      rw [dispatch_of_refused resolved chained, detached, dispatch_of_refused resolved' chained']
      rfl
    | some chain =>
      have chained' : route.detached.chainFor? filled.method = some chain := chained
      rw [dispatch_of_resolve resolved chained, detached, dispatch_of_resolve resolved' chained']
      rfl

theorem dispatchAll_detached (d : Dispatcher σ) (requests : List Request) (w : World σ) :
    d.detached.dispatchAll requests w = d.dispatchAll requests w := by
  induction requests generalizing w with
  | nil => rfl
  | cons request rest ih =>
    simp only [dispatchAll, dispatch_detached, ih]

end Dispatcher

inductive SetUpEvent (ι : Type)
  | created (tag : ι)
  | initialised (tag : ι)
deriving DecidableEq

section

variable (tag : MiddlewareInstance σ → ι) (register : σ → List (SetUpEvent ι))

def Assembly.event? (a : Assembly σ) : SetUpCall → Option (SetUpEvent ι)
  | .create k => a.instances[k]?.map fun i => .created (tag i)
  | .init k => a.instances[k]?.map fun i => .initialised (tag i)

def Build.events (b : Build σ) : List (SetUpEvent ι) :=
  b.site.calls.filterMap (b.assembly.event? tag)

def Build.tags (b : Build σ) : List ι := b.assembly.instances.map tag

def Stage.Quiet (s : Stage σ) : Prop := ∀ x, register (s x).2.world.state = register x.world.state

namespace Middleware

def Supplies (m : Middleware σ) (i : MiddlewareInstance σ) : Prop :=
  ∃ w w', m.callFactory w = (.ok i, w')

structure Registers (m : Middleware σ) : Prop where
  created : ∀ w i w', m.callFactory w = (.ok i, w') →
    register w'.state = register w.state ++ [.created (tag i)]
  initialised : ∀ i, m.Supplies i → ∀ w run w', i.callInit w = (.ok run, w') →
    register w'.state = register w.state ++ [.initialised (tag i)]
  quiet : ∀ run, m.Makes run → ∀ next, Stage.Quiet register next → Stage.Quiet register (run next)

/-- The factory makes an instance that there has not been before. -/
def Fresh (m : Middleware σ) : Prop :=
  ∀ w i w', m.callFactory w = (.ok i, w') → .created (tag i) ∉ register w.state

end Middleware

structure Registers (d : Dispatcher σ) (root : Router σ) : Prop where
  middlewares : ∀ e ∈ Dispatcher.entriesOf root, ∀ m ∈ e.middlewares, m.Registers tag register
  handlers : ∀ e ∈ Dispatcher.entriesOf root, ∀ m h, e.handlers.find? m = some h →
    h.stage.Quiet register
  sink : ∀ sink, d.sink = some sink → ∀ event w, register (sink event w).state = register w.state

structure Adds (w w' : World σ) (tags : List ι) : Prop where
  kept : register w.state <+: register w'.state
  distinct : tags.Nodup
  fresh : ∀ t ∈ tags, .created t ∉ register w.state
  listed : ∀ t ∈ tags, .created t ∈ register w'.state

end

section

variable {tag : MiddlewareInstance σ → ι} {register : σ → List (SetUpEvent ι)}

namespace Adds

variable {w v w' : World σ} {tags more : List ι}

theorem nothing (kept : register w.state <+: register w'.state) : Adds register w w' [] :=
  ⟨kept, .nil, nofun, nofun⟩

theorem single {t : ι} (fresh : .created t ∉ register w.state)
    (now : register w'.state = register w.state ++ [.created t]) : Adds register w w' [t] where
  kept := ⟨_, now.symm⟩
  distinct := List.nodup_singleton t
  fresh t' ht := List.mem_singleton.mp ht ▸ fresh
  listed t' ht := by simp [now, List.mem_singleton.mp ht]

theorem append (h : Adds register w v tags) (h' : Adds register v w' more) :
    Adds register w w' (tags ++ more) where
  kept := h.kept.trans h'.kept
  distinct := by
    refine List.nodup_append.mpr ⟨h.distinct, h'.distinct, fun t ht t' ht' same => ?_⟩
    exact h'.fresh t' ht' (same ▸ h.listed t ht)
  fresh t ht := by
    rcases List.mem_append.mp ht with ht | ht
    · exact h.fresh t ht
    · exact fun before => h'.fresh t ht (h.kept.subset before)
  listed t ht := by
    rcases List.mem_append.mp ht with ht | ht
    · exact h'.kept.subset (h.listed t ht)
    · exact h'.listed t ht

end Adds

section

variable {ms : List (Middleware σ)} {terminal : Stage σ} {calls made : List SetUpCall}
  {a a' : Assembly σ} {w w' : World σ}

def Assembly.Supplied (ms : List (Middleware σ)) (a : Assembly σ) : Prop :=
  ∀ i ∈ a.instances, ∃ m ∈ ms, m.Supplies i

theorem Assembly.supplied_nil : Assembly.Supplied ms {} := nofun

theorem Assembly.event?_of_prefix {call : SetUpCall} (kept : a.instances <+: a'.instances)
    {e : SetUpEvent ι} (event : a.event? tag call = some e) : a'.event? tag call = some e := by
  cases call with
  | create k | init k =>
    obtain ⟨i, here, same⟩ := Option.map_eq_some_iff.mp event
    exact Option.map_eq_some_iff.mpr ⟨i, getElem?_of_prefix kept here, same⟩

namespace SetUpCall.Yields

variable {call : SetUpCall}

theorem supplied (h : call.Yields ms terminal a w (.ok a') w') (supplied : a.Supplied ms) :
    a'.Supplied ms := by
  cases call with
  | create k =>
    obtain ⟨-, m, i, listed, called, rfl⟩ := h.create_ok
    have new : m.Supplies i := ⟨w, w', called⟩
    exact List.forall_mem_append.mpr ⟨supplied,
      List.forall_mem_singleton.mpr ⟨m, List.mem_of_getElem? listed, new⟩⟩
  | init k =>
    obtain ⟨-, i, run, -, -, rfl⟩ := h.init_ok
    exact supplied

theorem registered (registers : ∀ m ∈ ms, m.Registers tag register)
    (h : call.Yields ms terminal a w (.ok a') w') (supplied : a.Supplied ms) :
    ∃ e, a'.event? tag call = some e ∧ register w'.state = register w.state ++ [e] := by
  cases call with
  | create k =>
    obtain ⟨length, m, i, listed, called, rfl⟩ := h.create_ok
    have here : (a.created i).instances[k]? = some i := by
      rw [Assembly.created, ← length, List.getElem?_concat_length]
    refine ⟨.created (tag i), ?_, ?_⟩
    · rw [Assembly.event?, here, Option.map_some]
    · exact (registers m (List.mem_of_getElem? listed)).created w i w' called
  | init k =>
    obtain ⟨-, i, run, here, called, rfl⟩ := h.init_ok
    obtain ⟨m, hm, supplies⟩ := supplied i (List.mem_of_getElem? here)
    refine ⟨.initialised (tag i), ?_, ?_⟩
    · exact Option.map_eq_some_iff.mpr ⟨i, here, rfl⟩
    · exact (registers m hm).initialised i supplies w run w' called

theorem adds (registers : ∀ m ∈ ms, m.Registers tag register)
    (anew : ∀ m ∈ ms, m.Fresh tag register) (h : call.Yields ms terminal a w (.ok a') w')
    (supplied : a.Supplied ms) :
    ∃ new, a'.instances = a.instances ++ new ∧ Adds register w w' (new.map tag) := by
  cases call with
  | create k =>
    obtain ⟨-, m, i, listed, called, rfl⟩ := h.create_ok
    have hm : m ∈ ms := List.mem_of_getElem? listed
    exact ⟨[i], rfl, .single (anew m hm w i w' called) ((registers m hm).created w i w' called)⟩
  | init k =>
    obtain ⟨e, -, now⟩ := h.registered registers supplied
    obtain ⟨-, i, run, -, -, rfl⟩ := h.init_ok
    exact ⟨[], (List.append_nil _).symm, .nothing ⟨[e], now.symm⟩⟩

end SetUpCall.Yields

namespace Follows

theorem register_eq (registers : ∀ m ∈ ms, m.Registers tag register)
    (h : Follows ms terminal calls a w made (.ok a') w') (supplied : a.Supplied ms) :
    register w'.state = register w.state ++ calls.filterMap (a'.event? tag) := by
  generalize hr : (Except.ok a' : Except (Breakdown σ) (Assembly σ)) = r at h
  induction h with
  | done => rw [List.filterMap_nil, List.append_nil]
  | failed => cases hr
  | next yields rest ih =>
    cases hr
    obtain ⟨e, event, now⟩ := yields.registered registers supplied
    have event := Assembly.event?_of_prefix rest.keeps.1 event
    rw [List.filterMap_cons_some event, List.append_cons, ← now]
    exact ih (yields.supplied supplied) rfl

theorem adds (registers : ∀ m ∈ ms, m.Registers tag register)
    (anew : ∀ m ∈ ms, m.Fresh tag register)
    (h : Follows ms terminal calls a w made (.ok a') w') (supplied : a.Supplied ms) :
    ∃ new, a'.instances = a.instances ++ new ∧ Adds register w w' (new.map tag) := by
  generalize hr : (Except.ok a' : Except (Breakdown σ) (Assembly σ)) = r at h
  induction h with
  | done =>
    cases hr
    exact ⟨[], (List.append_nil _).symm, .nothing List.prefix_rfl⟩
  | failed => cases hr
  | next yields rest ih =>
    obtain ⟨first, instances, adds⟩ := yields.adds registers anew supplied
    obtain ⟨others, instances', adds'⟩ := ih (yields.supplied supplied) hr
    refine ⟨first ++ others, ?_, ?_⟩
    · rw [instances', instances, List.append_assoc]
    · rw [List.map_append]
      exact adds.append adds'

end Follows

end

namespace SetsUp

variable {builds : List (Build σ)} {w w' : World σ}

theorem register_eq (h : SetsUp builds w w')
    (registers : ∀ b ∈ builds, ∀ m ∈ b.site.entry.middlewares, m.Registers tag register) :
    register w'.state = register w.state ++ builds.flatMap (·.events tag) := by
  induction h with
  | done => rw [List.flatMap_nil, List.append_nil]
  | logged _ _ ih => exact ih registers
  | chain follows _ ih =>
    obtain ⟨first, others⟩ := List.forall_mem_cons.mp registers
    rw [ih others, follows.register_eq first Assembly.supplied_nil, List.flatMap_cons,
      List.append_assoc]
    rfl

theorem adds (h : SetsUp builds w w')
    (registers : ∀ b ∈ builds, ∀ m ∈ b.site.entry.middlewares, m.Registers tag register)
    (anew : ∀ b ∈ builds, ∀ m ∈ b.site.entry.middlewares, m.Fresh tag register) :
    Adds register w w' (builds.flatMap (·.tags tag)) := by
  induction h with
  | done => exact .nothing List.prefix_rfl
  | @logged _ w _ notices _ ih =>
    have unchanged : Adds register w (w.logAll notices) [] := .nothing List.prefix_rfl
    exact unchanged.append (ih registers anew)
  | chain follows _ ih =>
    obtain ⟨first, others⟩ := List.forall_mem_cons.mp registers
    obtain ⟨firstAnew, othersAnew⟩ := List.forall_mem_cons.mp anew
    obtain ⟨new, instances, adds⟩ := follows.adds first firstAnew Assembly.supplied_nil
    have made : new = _ := instances.symm
    rw [List.flatMap_cons, Build.tags, ← made]
    exact adds.append (ih others othersAnew)

end SetsUp

theorem Middleware.Built.quiet {ms : List (Middleware σ)} {terminal stage : Stage σ}
    (registers : ∀ m ∈ ms, m.Registers tag register) (silent : terminal.Quiet register)
    (h : Built terminal ms stage) : stage.Quiet register := by
  induction h with
  | nil => exact silent
  | cons made _ ih =>
    obtain ⟨first, others⟩ := List.forall_mem_cons.mp registers
    exact first.quiet _ made _ (ih others)

namespace Dispatcher

theorem ledger_dispatch {α : Type} {d : Dispatcher σ} {ledger : World σ → α}
    (spares : d.Spares ledger)
    (silent : ∀ sink, d.sink = some sink → ∀ event w, ledger (sink event w) = ledger w)
    (request : Request) (w : World σ) : ledger (d.dispatch request w).2 = ledger w := by
  have emitted (request : Request) (started : Nat) (w : World σ) :
      ledger (d.emit request started w) = ledger w := by
    rw [emit]
    cases listens : d.sink with
    | none => rfl
    | some sink => exact silent sink listens _ w
  rcases resolved : d.resolve request with ⟨_ | route, filled⟩
  · rw [dispatch, resolved]
    exact emitted filled w.clock w
  cases chained : route.chainFor? filled.method with
  | none =>
    rw [dispatch_of_refused resolved chained]
    exact emitted filled w.clock w
  | some chain =>
    obtain ⟨key, found⟩ := find?_of_resolve resolved
    have spared := spares key route filled.method chain found chained
      (route.context filled d.config.splitQueryArrays) w
    rw [dispatch_of_resolve resolved chained]
    rcases ran : chain.runOn (route.context filled d.config.splitQueryArrays) w with
      ⟨fault | response, x⟩
    · rw [ran] at spared
      exact spared
    · rw [ran] at spared
      exact (emitted x.context.request w.clock x.world).trans spared

theorem ledger_dispatchAll {α : Type} {d : Dispatcher σ} {ledger : World σ → α}
    (spares : d.Spares ledger)
    (silent : ∀ sink, d.sink = some sink → ∀ event w, ledger (sink event w) = ledger w)
    (requests : List Request) (w : World σ) : ledger (d.dispatchAll requests w).2 = ledger w := by
  induction requests generalizing w with
  | nil => rfl
  | cons request rest ih =>
    rw [← ledger_dispatch spares silent request w]
    exact ih (d.dispatch request w).2

theorem entry_of_find? {d : Dispatcher σ} {root : Router σ} {w : World σ} {key : Bytes}
    {route : CompiledRoute σ} (found : (d.mount root w).dispatcher.find? key = some route) :
    route ∈ d.mountedRoutes root w ∧ route.entry.urlPath = key ∧ route.entry ∈ entriesOf root := by
  obtain ⟨listed, key⟩ := (d.holds_mount root w).mem_of_find? found
  have mounted : route.entry ∈ d.mountedEntries root w := List.mem_map_of_mem listed
  exact ⟨listed, key, (d.mountedEntries_prefix root w).subset mounted⟩

theorem spares_mount {d : Dispatcher σ} {root : Router σ}
    (registers : Registers tag register d root) (w : World σ) :
    (d.mount root w).dispatcher.Spares fun w => register w.state := by
  intro key route m chain found chained c v
  obtain ⟨listed, -, inside⟩ := entry_of_find? found
  obtain ⟨_, _, compiled⟩ := compile_of_mem_compiled listed
  obtain ⟨unserved, served⟩ := Entry.chainFor?_compile compiled m
  cases bound : (route.entry.handlers.find? m).or (route.entry.handlers.find? .all) with
  | none =>
    rw [unserved bound] at chained
    cases chained
  | some handler =>
    obtain ⟨stage, found', _, _, built⟩ := served handler bound
    obtain rfl : stage = chain := Option.some.inj (found'.symm.trans chained)
    have silent : handler.stage.Quiet register := by
      rcases Option.or_eq_some_iff.mp bound with own | ⟨-, all⟩
      · exact registers.handlers _ inside m handler own
      · exact registers.handlers _ inside .all handler all
    exact (chain_eq_ok built).quiet (registers.middlewares _ inside) silent ⟨c, v⟩

end Dispatcher

end

theorem instances_made_once {d : Dispatcher σ} {root : Router σ} {w : World σ}
    (mounted : (d.mount root w).fault = none) :
    ∃ builds : List (Build σ),
      builds.map (·.site) = root.sites ∧
      SetsUp builds w (d.mount root w).world ∧
      (∀ b ∈ builds, b.Whole) ∧
      (∀ key route m stage, (d.mount root w).dispatcher.find? key = some route →
        route.chains.find? m = some stage →
        ∃ b ∈ builds, b.site.entry = route.entry ∧ b.site.entry.urlPath = key ∧
          b.site.method = m ∧ b.stage = stage) ∧
      (∀ requests v, (d.mount root w).dispatcher.detached.dispatchAll requests v =
        (d.mount root w).dispatcher.dispatchAll requests v) ∧
      ∀ (ι : Type) (tag : MiddlewareInstance σ → ι) (register : σ → List (SetUpEvent ι)),
        Registers tag register d root →
        register (d.mount root w).world.state =
          register w.state ++ builds.flatMap (·.events tag) ∧
        (∀ requests v, register ((d.mount root w).dispatcher.dispatchAll requests v).2.state =
          register v.state) ∧
        ((∀ e ∈ Dispatcher.entriesOf root, ∀ m ∈ e.middlewares, m.Fresh tag register) →
          (builds.flatMap (·.tags tag)).Nodup) := by
  obtain ⟨builds, sites, sets, wholes, chained⟩ := Dispatcher.setsUp_mount mounted
  have entry (b : Build σ) (hb : b ∈ builds) : b.site.entry ∈ Dispatcher.entriesOf root := by
    have listed : b.site ∈ root.sites := sites ▸ List.mem_map_of_mem hb
    obtain ⟨e, he, hs⟩ := List.mem_flatMap.mp listed
    obtain ⟨h, -, site⟩ := List.mem_map.mp hs
    exact site ▸ he
  refine ⟨builds, sites, sets, wholes, ?_, Dispatcher.dispatchAll_detached _, ?_⟩
  · intro key route m stage found bound
    obtain ⟨listed, key, -⟩ := Dispatcher.entry_of_find? found
    obtain ⟨b, hb, same, method, stage⟩ := chained route listed m stage bound
    exact ⟨b, hb, same, same ▸ key, method, stage⟩
  · intro ι tag register registers
    have supplied (b : Build σ) (hb : b ∈ builds) := registers.middlewares _ (entry b hb)
    refine ⟨sets.register_eq supplied, fun requests v => ?_, fun anew => ?_⟩
    · have silent := registers.sink
      rw [← d.sink_mount root w] at silent
      exact Dispatcher.ledger_dispatchAll (Dispatcher.spares_mount registers w) silent requests v
    · exact (sets.adds supplied fun b hb => anew _ (entry b hb)).distinct

def SetUpEvent.tag : SetUpEvent ι → ι
  | .created tag | .initialised tag => tag

def nextNumber : List (SetUpEvent Nat) → Nat
  | [] => 0
  | e :: events => max (e.tag + 1) (nextNumber events)

theorem lt_nextNumber {events : List (SetUpEvent Nat)} {e : SetUpEvent Nat} (h : e ∈ events) :
    e.tag < nextNumber events := by
  induction events with
  | nil => cases h
  | cons first rest ih =>
    rw [nextNumber, lt_max_iff]
    rcases List.mem_cons.mp h with rfl | h
    · exact .inl (Nat.lt_succ_self _)
    · exact .inr (ih h)

def numbering (ident : Nat) : Middleware (List (SetUpEvent Nat)) where
  ident
  name := []
  factory := some fun w =>
    let number := nextNumber w.state
    (.ok (some ⟨fun w => (.ok id, { w with state := w.state ++ [.initialised number] })⟩),
      { w with state := w.state ++ [.created number] })

def numberOf (i : MiddlewareInstance (List (SetUpEvent Nat))) : Nat :=
  ((i.init { state := [] }).2.state.head?.map (·.tag)).getD 0

theorem numbering_registers (ident : Nat) : (numbering ident).Registers numberOf id where
  created w i w' called := by
    cases called
    rfl
  initialised i supplies w run w' called := by
    obtain ⟨_, _, supplied⟩ := supplies
    cases supplied
    cases called
    rfl
  quiet run makes next silent := by
    obtain ⟨make, i, _, _, _, _, factory, made, init⟩ := makes
    cases factory
    cases made
    cases init
    exact silent

theorem numbering_fresh (ident : Nat) : (numbering ident).Fresh numberOf id := by
  intro w i w' called before
  cases called
  exact absurd (lt_nextNumber before) (Nat.lt_irrefl _)

def answering (ident : Nat) : Handler (List (SetUpEvent Nat)) where
  ident
  isAsync := false
  stage x := (.ok {}, x)

def inner : Router (List (SetUpEvent Nat)) where
  ident := 1
  template := ⟨[], [], [], ∅, ∅, []⟩
  middlewares := [numbering 1]
  handlers := .ofList [(.get, answering 1)]

def outer : Router (List (SetUpEvent Nat)) where
  ident := 0
  template := ⟨[], [], [], ∅, ∅, []⟩
  middlewares := [numbering 0]
  handlers := .ofList [(.put, answering 0), (.get, answering 0)]

def enclosing : Router (List (SetUpEvent Nat)) := (outer.absorb inner).value

def enclosed : Dispatcher.Mounted (List (SetUpEvent Nat)) :=
  ({ sink := none } : Dispatcher _).mount enclosing { state := [] }

def twice : List Request := [{ path := ascii "/" }, { path := ascii "/" }]

theorem entriesOf_enclosing :
    Dispatcher.entriesOf enclosing = [outer.ownEntry, outer.extend inner.ownEntry] := rfl

theorem numbering_of_mem {e : Entry (List (SetUpEvent Nat))}
    (he : e ∈ Dispatcher.entriesOf enclosing) {m : Middleware (List (SetUpEvent Nat))}
    (hm : m ∈ e.middlewares) : ∃ ident, m = numbering ident := by
  rw [entriesOf_enclosing] at he
  rcases List.mem_pair.mp he with rfl | rfl
  · exact ⟨0, List.mem_singleton.mp hm⟩
  · rcases List.mem_pair.mp hm with rfl | rfl
    · exact ⟨0, rfl⟩
    · exact ⟨1, rfl⟩

theorem enclosing_registers :
    Registers numberOf id ({ sink := none } : Dispatcher _) enclosing where
  middlewares e he m hm := by
    obtain ⟨ident, rfl⟩ := numbering_of_mem he hm
    exact numbering_registers ident
  handlers e he m h bound := by
    rw [entriesOf_enclosing] at he
    rcases List.mem_pair.mp he with rfl | rfl
    all_goals
      cases m <;> cases bound
      all_goals exact fun _ => rfl
  sink := nofun

theorem instances_made_once_enclosed :
    ∃ builds : List (Build (List (SetUpEvent Nat))),
      builds.map (·.site) = enclosing.sites ∧
      enclosing.sites.map (fun s => (s.entry.origin, s.method, s.entry.middlewares.length)) =
        [(0, .get, 1), (0, .put, 1), (1, .get, 2)] ∧
      enclosed.world.state = builds.flatMap (·.events numberOf) ∧
      enclosed.world.state = [.created 0, .initialised 0, .created 1, .initialised 1,
        .created 2, .created 3, .initialised 2, .initialised 3] ∧
      (enclosed.dispatcher.dispatchAll twice enclosed.world).1 = [.ok {}, .ok {}] ∧
      (enclosed.dispatcher.dispatchAll twice enclosed.world).2.state = enclosed.world.state ∧
      (builds.flatMap (·.tags numberOf)).Nodup := by
  have mounted : enclosed.fault = none := by decide +kernel
  obtain ⟨builds, sites, -, -, -, -, registered⟩ := instances_made_once mounted
  obtain ⟨made, spared, distinct⟩ := registered Nat numberOf id enclosing_registers
  refine ⟨builds, sites, rfl, made, rfl, rfl, spared _ _, distinct fun e he m hm => ?_⟩
  obtain ⟨ident, rfl⟩ := numbering_of_mem he hm
  exact numbering_fresh ident

end HttpRouting
