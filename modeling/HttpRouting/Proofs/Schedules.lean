import HttpRouting.Proofs.Wirings

/-!
The calls that set up a chain. Main statement: factories are called and instances initialised in
turns, each instance as soon as the one behind it exists, and the first call that fails is the last.
-/

namespace HttpRouting

variable {σ : Type}

inductive SetUpCall
  | create (place : Nat)
  | init (place : Nat)
deriving DecidableEq

inductive SetUpFailure
  | noFactory
  | noInstance
  | raised (fault : Fault)

structure Assembly (σ : Type) where
  instances : List (MiddlewareInstance σ) := []
  wired : List (Wired σ) := []

namespace Assembly

def created (a : Assembly σ) (i : MiddlewareInstance σ) : Assembly σ :=
  { a with instances := a.instances ++ [i] }

def initialised (a : Assembly σ) (wired : Wired σ) : Assembly σ :=
  { a with wired := a.wired ++ [wired] }

def wiring (a : Assembly σ) : Wiring σ := a.wired.map some

def entrance (a : Assembly σ) : Stage σ := a.wiring.enter a.wiring.length 0

theorem fill_wiring (a : Assembly σ) (wired : Wired σ) :
    (a.wiring ++ [none]).fill wired = (a.initialised wired).wiring := by
  rw [Wiring.fill, List.dropLast_concat, wiring, wiring, initialised, List.map_append]
  rfl

theorem length_wiring (a : Assembly σ) : (a.wiring ++ [none]).length = a.wired.length + 1 := by
  rw [List.length_append, wiring, List.length_map]
  rfl

end Assembly

namespace Middleware

def callFactory (m : Middleware σ) (w : World σ) :
    Except SetUpFailure (MiddlewareInstance σ) × World σ :=
  match m.factory with
  | none => (.error .noFactory, w)
  | some make =>
    match make w with
    | (.ok (some i), w) => (.ok i, w)
    | (.ok none, w) => (.error .noInstance, w)
    | (.error fault, w) => (.error (.raised fault), w)

def report (m : Middleware σ) : SetUpFailure → Fault
  | .noFactory => .middlewareInit m.name (ascii "no factory")
  | .noInstance => .middlewareInit m.name (ascii "factory returned no instance")
  | .raised fault => m.blame fault

theorem instantiate_eq (m : Middleware σ) (w : World σ) :
    m.instantiate w = ((m.callFactory w).1.mapError m.report, (m.callFactory w).2) := by
  rw [instantiate, callFactory]
  cases m.factory with
  | none => rfl
  | some make =>
    dsimp only
    rw [attributing, run_tryCatch, run_bind]
    rcases make w with ⟨_ | _ | i, w'⟩ <;> rfl

end Middleware

namespace MiddlewareInstance

def callInit (i : MiddlewareInstance σ) (w : World σ) :
    Except SetUpFailure (Stage σ → Stage σ) × World σ :=
  ((i.init w).1.mapError .raised, (i.init w).2)

theorem initialise_eq (m : Middleware σ) (i : MiddlewareInstance σ) (w : World σ) :
    m.initialise i w = ((i.callInit w).1.mapError m.report, (i.callInit w).2) := by
  rw [Middleware.initialise, Middleware.attributing, run_tryCatch, callInit]
  rcases i.init w with ⟨_ | run, w'⟩ <;> rfl

end MiddlewareInstance

namespace SetUpCall

def place : SetUpCall → Nat
  | create k => k
  | init k => k

def schedule (last : Nat) : List SetUpCall :=
  create 0 :: (List.range last).flatMap (fun k => [create (k + 1), init k]) ++ [init last]

def onward (k n : Nat) : List SetUpCall :=
  (List.range' k n).flatMap (fun k => [create (k + 1), init k]) ++ [init (k + n)]

theorem schedule_eq (last : Nat) : schedule last = create 0 :: onward 0 last := by
  rw [schedule, onward, List.range_eq_range', Nat.zero_add, List.cons_append]

theorem onward_zero (k : Nat) : onward k 0 = [init k] := rfl

theorem onward_succ (k n : Nat) :
    onward k (n + 1) = create (k + 1) :: init k :: onward (k + 1) n := by
  rw [onward, onward, List.range'_succ, List.flatMap_cons, Nat.add_right_comm, Nat.add_assoc]
  rfl

section

variable (ms : List (Middleware σ)) (terminal : Stage σ)

def given (k : Nat) : Continuation σ :=
  if k + 1 < ms.length then .place (k + 1) else .terminal terminal

inductive Yields (a : Assembly σ) (w : World σ) :
    SetUpCall → Except SetUpFailure (Assembly σ) → World σ → Prop
  | create {k : Nat} {m : Middleware σ} {r : Except SetUpFailure (MiddlewareInstance σ)}
      {w' : World σ} (here : a.instances.length = k) (listed : ms[k]? = some m)
      (called : m.callFactory w = (r, w')) : Yields a w (.create k) (r.map a.created) w'
  | init {k : Nat} {i : MiddlewareInstance σ} {r : Except SetUpFailure (Stage σ → Stage σ)}
      {w' : World σ} (here : a.wired.length = k) (made : a.instances[k]? = some i)
      (called : i.callInit w = (r, w')) :
      Yields a w (.init k) (r.map fun run => a.initialised ⟨run, given ms terminal k⟩) w'

end

end SetUpCall

structure Breakdown (σ : Type) where
  call : SetUpCall
  culprit : Middleware σ
  failure : SetUpFailure

def Breakdown.fault (b : Breakdown σ) : Fault := b.culprit.report b.failure

open SetUpCall

section

variable (ms : List (Middleware σ)) (terminal : Stage σ)

/-- Calls made one after the other up to the first that fails: the calls that are to be made, and
what stands before; the calls that have been made, and what has come of them. -/
inductive Follows : List SetUpCall → Assembly σ → World σ → List SetUpCall →
    Except (Breakdown σ) (Assembly σ) → World σ → Prop
  | done {a : Assembly σ} {w : World σ} : Follows [] a w [] (.ok a) w
  | failed {call : SetUpCall} {calls : List SetUpCall} {a : Assembly σ} {w w' : World σ}
      {m : Middleware σ} {failure : SetUpFailure} (listed : ms[call.place]? = some m)
      (yields : call.Yields ms terminal a w (.error failure) w') :
      Follows (call :: calls) a w [call] (.error ⟨call, m, failure⟩) w'
  | next {call : SetUpCall} {calls made : List SetUpCall} {a a' : Assembly σ} {w v w' : World σ}
      {r : Except (Breakdown σ) (Assembly σ)} (yields : call.Yields ms terminal a w (.ok a') v)
      (rest : Follows calls a' v made r w') : Follows (call :: calls) a w (call :: made) r w'

end

variable {ms : List (Middleware σ)} {terminal : Stage σ}

theorem Follows.made_prefix {calls made : List SetUpCall} {a : Assembly σ} {w w' : World σ}
    {r : Except (Breakdown σ) (Assembly σ)} (h : Follows ms terminal calls a w made r w') :
    made <+: calls := by
  induction h with
  | done => exact List.prefix_rfl
  | failed => exact List.prefix_append [_] _
  | next _ _ ih => exact List.cons_prefix_cons.mpr ⟨rfl, ih⟩

theorem Follows.made_all {calls made : List SetUpCall} {a a' : Assembly σ} {w w' : World σ}
    (h : Follows ms terminal calls a w made (.ok a') w') : made = calls := by
  generalize hr : (Except.ok a' : Except (Breakdown σ) (Assembly σ)) = r at h
  induction h with
  | done => rfl
  | failed => cases hr
  | next _ _ ih => rw [ih hr]

theorem Follows.made_last {calls made : List SetUpCall} {a : Assembly σ} {w w' : World σ}
    {b : Breakdown σ} (h : Follows ms terminal calls a w made (.error b) w') :
    made.getLast? = some b.call := by
  generalize hr : (Except.error b : Except (Breakdown σ) (Assembly σ)) = r at h
  induction h with
  | done => cases hr
  | failed =>
    cases hr
    rfl
  | @next _ _ made _ _ _ _ _ _ _ rest ih =>
    have last := ih hr
    rw [List.getLast?_cons, last]
    rfl

theorem SetUpCall.Yields.unique {call : SetUpCall} {a : Assembly σ} {w v v' : World σ}
    {r r' : Except SetUpFailure (Assembly σ)} (h : call.Yields ms terminal a w r v)
    (h' : call.Yields ms terminal a w r' v') : r = r' ∧ v = v' := by
  cases h with
  | create _ listed called =>
    cases h' with
    | create _ listed' called' =>
      cases Option.some.inj (listed.symm.trans listed')
      cases called.symm.trans called'
      exact ⟨rfl, rfl⟩
  | init _ made called =>
    cases h' with
    | init _ made' called' =>
      cases Option.some.inj (made.symm.trans made')
      cases called.symm.trans called'
      exact ⟨rfl, rfl⟩

theorem Follows.unique {calls made made' : List SetUpCall} {a : Assembly σ} {w v v' : World σ}
    {r r' : Except (Breakdown σ) (Assembly σ)} (h : Follows ms terminal calls a w made r v)
    (h' : Follows ms terminal calls a w made' r' v') : made = made' ∧ r = r' ∧ v = v' := by
  induction h generalizing made' r' with
  | done =>
    cases h'
    exact ⟨rfl, rfl, rfl⟩
  | failed listed yields =>
    cases h' with
    | failed listed' yields' =>
      cases Option.some.inj (listed.symm.trans listed')
      obtain ⟨same, rfl⟩ := yields.unique yields'
      cases same
      exact ⟨rfl, rfl, rfl⟩
    | next yields' => cases (yields.unique yields').1
  | next yields _ ih =>
    cases h' with
    | failed _ yields' => cases (yields.unique yields').1
    | next yields' rest' =>
      obtain ⟨same, rfl⟩ := yields.unique yields'
      cases same
      obtain ⟨rfl, rfl, rfl⟩ := ih rest'
      exact ⟨rfl, rfl, rfl⟩

theorem getElem?_of_prefix {α : Type} {l l' : List α} (h : l <+: l') {k : Nat} {x : α}
    (here : l[k]? = some x) : l'[k]? = some x := by
  obtain ⟨later, rfl⟩ := h
  rw [List.getElem?_append_left (List.getElem?_eq_some_iff.mp here).1, here]

theorem SetUpCall.Yields.create_ok {a a' : Assembly σ} {w w' : World σ} {k : Nat}
    (h : (SetUpCall.create k).Yields ms terminal a w (.ok a') w') :
    a.instances.length = k ∧ ∃ m i, ms[k]? = some m ∧ m.callFactory w = (.ok i, w') ∧
      a' = a.created i := by
  generalize hr : Except.ok a' = r at h
  cases h with
  | @create _ m r _ here listed called =>
    cases r with
    | error => cases hr
    | ok i =>
      cases hr
      exact ⟨here, m, i, listed, called, rfl⟩

theorem SetUpCall.Yields.init_ok {a a' : Assembly σ} {w w' : World σ} {k : Nat}
    (h : (SetUpCall.init k).Yields ms terminal a w (.ok a') w') :
    a.wired.length = k ∧ ∃ i run, a.instances[k]? = some i ∧ i.callInit w = (.ok run, w') ∧
      a' = a.initialised ⟨run, given ms terminal k⟩ := by
  generalize hr : Except.ok a' = r at h
  cases h with
  | @init _ i r _ here made called =>
    cases r with
    | error => cases hr
    | ok run =>
      cases hr
      exact ⟨here, i, run, made, called, rfl⟩

theorem SetUpCall.Yields.keeps {call : SetUpCall} {a a' : Assembly σ} {w w' : World σ}
    (h : call.Yields ms terminal a w (.ok a') w') :
    a.instances <+: a'.instances ∧ a.wired <+: a'.wired := by
  cases call with
  | create k =>
    obtain ⟨-, m, i, -, -, rfl⟩ := h.create_ok
    exact ⟨List.prefix_append _ [i], List.prefix_rfl⟩
  | init k =>
    obtain ⟨-, i, run, -, -, rfl⟩ := h.init_ok
    exact ⟨List.prefix_rfl, List.prefix_append ..⟩

theorem Follows.keeps {calls made : List SetUpCall} {a a' : Assembly σ} {w w' : World σ}
    (h : Follows ms terminal calls a w made (.ok a') w') :
    a.instances <+: a'.instances ∧ a.wired <+: a'.wired := by
  generalize hr : (Except.ok a' : Except (Breakdown σ) (Assembly σ)) = r at h
  induction h with
  | done =>
    cases hr
    exact ⟨List.prefix_rfl, List.prefix_rfl⟩
  | failed => cases hr
  | next yields _ ih =>
    have after := ih hr
    exact ⟨yields.keeps.1.trans after.1, yields.keeps.2.trans after.2⟩

theorem Follows.wired_of_mem {calls made : List SetUpCall} {a a' : Assembly σ} {w w' : World σ}
    (h : Follows ms terminal calls a w made (.ok a') w') {k : Nat} (due : init k ∈ calls) :
    ∃ i v run v', a'.instances[k]? = some i ∧ i.callInit v = (.ok run, v') ∧
      a'.wired[k]? = some ⟨run, given ms terminal k⟩ := by
  generalize hr : (Except.ok a' : Except (Breakdown σ) (Assembly σ)) = r at h
  induction h with
  | done => cases due
  | failed => cases hr
  | @next _ _ _ a _ _ _ _ _ yields rest ih =>
    cases hr
    rcases List.mem_cons.mp due with rfl | due
    · obtain ⟨here, i, run, made, called, rfl⟩ := yields.init_ok
      obtain ⟨instances, wired⟩ := rest.keeps
      have last : (a.wired ++ [⟨run, given ms terminal k⟩])[k]? =
          some ⟨run, given ms terminal k⟩ := by
        rw [← here, List.getElem?_concat_length]
      exact ⟨i, _, run, _, getElem?_of_prefix instances made, called,
        getElem?_of_prefix wired last⟩
    · exact ih due rfl

theorem Follows.length_wired {calls before made : List SetUpCall} {a a' : Assembly σ}
    {w w' : World σ} (h : Follows ms terminal calls a w made (.ok a') w') {k : Nat}
    (ends : calls = before ++ [init k]) : a'.wired.length = k + 1 := by
  generalize hr : (Except.ok a' : Except (Breakdown σ) (Assembly σ)) = r at h
  induction h generalizing before with
  | done => simp at ends
  | failed => cases hr
  | next yields rest ih =>
    cases before with
    | nil =>
      cases ends
      cases rest
      cases hr
      obtain ⟨here, i, run, -, -, rfl⟩ := yields.init_ok
      rw [Assembly.initialised, List.length_append, here, List.length_singleton]
    | cons first before => exact ih (List.cons.inj ends).2 hr

theorem wire_follows {rest : List (Middleware σ)} {m : Middleware σ} {i : MiddlewareInstance σ}
    {a : Assembly σ} {k : Nat} (here : a.wired.length = k) (newest : a.instances.length = k + 1)
    (made : a.instances[k]? = some i) (listed : ms.drop k = m :: rest) (w : World σ) :
    ∃ made r w', Follows ms terminal (onward k rest.length) a w made r w' ∧
      m.wire i (a.wiring ++ [none]) terminal rest w =
        ((r.mapError Breakdown.fault).map Assembly.wiring, w') := by
  have first : ms[k]? = some m := by
    rw [← List.head?_drop, listed, List.head?_cons]
  have length : ms.length - k = rest.length + 1 := by
    rw [← List.length_drop, listed, List.length_cons]
  induction rest generalizing m i a k w with
  | nil =>
    have last : given ms terminal k = .terminal terminal := by
      rw [List.length_nil] at length
      exact if_neg (by omega)
    rw [List.length_nil, onward_zero, Middleware.wire, run_bind, i.initialise_eq m]
    rcases called : i.callInit w with ⟨failure | run, w'⟩
    · exact ⟨_, _, _, .failed first (.init here made called), rfl⟩
    · refine ⟨_, _, _, .next (.init here made called) .done, ?_⟩
      rw [last]
      dsimp only [Except.mapError]
      rw [a.fill_wiring]
      rfl
  | cons next rest ih =>
    rw [List.length_cons] at length
    have later : given ms terminal k = .place (k + 1) := if_pos (by omega)
    have behind : ms.drop (k + 1) = next :: rest := by
      rw [← List.tail_drop, listed, List.tail_cons]
    have second : ms[k + 1]? = some next := by
      rw [← List.head?_drop, behind, List.head?_cons]
    rw [List.length_cons, onward_succ, Middleware.wire, run_bind, next.instantiate_eq]
    rcases created : next.callFactory w with ⟨failure | i', v⟩
    · exact ⟨_, _, _, .failed second (.create newest second created), rfl⟩
    · -- The instance behind exists by now, so this one can be initialised with it.
      have create : (SetUpCall.create (k + 1)).Yields ms terminal a w (.ok (a.created i')) v :=
        .create newest second created
      have kept : (a.created i').instances[k]? = some i := by
        rw [Assembly.created, List.getElem?_append_left (by omega), made]
      dsimp only [Except.mapError]
      rw [run_bind, i.initialise_eq m]
      rcases called : i.callInit v with ⟨failure | run, v'⟩
      · exact ⟨_, _, _,
          .next create (.failed first (.init (r := .error _) here kept called)), rfl⟩
      · have init : (SetUpCall.init k).Yields ms terminal (a.created i') v
            (.ok ((a.created i').initialised ⟨run, given ms terminal k⟩)) v' :=
          .init (r := .ok _) here kept called
        rw [later] at init
        obtain ⟨made', r, w', follows, wired⟩ :=
          ih (m := next) (i := i') (a := (a.created i').initialised ⟨run, .place (k + 1)⟩)
            (by simp [Assembly.created, Assembly.initialised, here])
            (by simp [Assembly.created, Assembly.initialised, newest])
            (by simp [Assembly.created, Assembly.initialised, newest])
            behind v' second (by omega)
        refine ⟨_, r, w', .next create (.next init follows), .trans ?_ wired⟩
        dsimp only [Except.mapError]
        rw [a.fill_wiring, a.length_wiring, here]
        rfl

namespace SetUpCall

theorem create_mem_onward {k n place : Nat} :
    create place ∈ onward k n ↔ k < place ∧ place ≤ k + n := by
  induction n generalizing k with
  | zero =>
    simp only [onward_zero, List.mem_singleton, reduceCtorEq, false_iff]
    omega
  | succ n ih =>
    simp only [onward_succ, List.mem_cons, ih, create.injEq, reduceCtorEq, false_or]
    omega

theorem init_mem_onward {k n place : Nat} :
    init place ∈ onward k n ↔ k ≤ place ∧ place ≤ k + n := by
  induction n generalizing k with
  | zero =>
    simp only [onward_zero, List.mem_singleton, init.injEq]
    omega
  | succ n ih =>
    simp only [onward_succ, List.mem_cons, ih, init.injEq, reduceCtorEq, false_or]
    omega

theorem nodup_onward (k n : Nat) : (onward k n).Nodup := by
  induction n generalizing k with
  | zero => exact List.nodup_cons.mpr ⟨List.not_mem_nil, .nil⟩
  | succ n ih =>
    have fresh : create (k + 1) ∉ init k :: onward (k + 1) n := by
      simp only [List.mem_cons, create_mem_onward, reduceCtorEq, false_or]
      omega
    have later : init k ∉ onward (k + 1) n := by
      rw [init_mem_onward]
      omega
    rw [onward_succ]
    exact List.nodup_cons.mpr ⟨fresh, List.nodup_cons.mpr ⟨later, ih (k + 1)⟩⟩

theorem nodup_schedule (last : Nat) : (schedule last).Nodup := by
  rw [schedule_eq, List.nodup_cons, create_mem_onward]
  exact ⟨by omega, nodup_onward 0 last⟩

theorem create_mem_schedule {last place : Nat} : create place ∈ schedule last ↔ place ≤ last := by
  rw [schedule_eq, List.mem_cons, create_mem_onward, create.injEq]
  omega

theorem init_mem_schedule {last place : Nat} : init place ∈ schedule last ↔ place ≤ last := by
  rw [schedule_eq, List.mem_cons, init_mem_onward]
  simp

end SetUpCall

theorem chain_follows (m : Middleware σ) (rest : List (Middleware σ)) (terminal : Stage σ)
    (w : World σ) :
    ∃ made r w', Follows (m :: rest) terminal (schedule rest.length) {} w made r w' ∧
      Middleware.chain (m :: rest) terminal w =
        ((r.mapError Breakdown.fault).map Assembly.entrance, w') := by
  rw [schedule_eq, Middleware.chain, run_bind, m.instantiate_eq]
  rcases called : m.callFactory w with ⟨failure | i, v⟩
  · exact ⟨_, _, _, .failed rfl (.create (r := .error _) rfl rfl called), rfl⟩
  · have create : (SetUpCall.create 0).Yields (m :: rest) terminal {} w
        (.ok (Assembly.created {} i)) v := .create (r := .ok _) rfl rfl called
    have first : (({} : Assembly σ).created i).instances[0]? = some i := rfl
    obtain ⟨made, r, w', follows, wired⟩ := wire_follows rfl rfl first (rfl : _ = m :: rest) v
    refine ⟨_, r, w', .next create follows, ?_⟩
    have wired : m.wire i [none] terminal rest v =
      ((r.mapError Breakdown.fault).map Assembly.wiring, w') := wired
    dsimp only [Except.mapError]
    rw [run_bind, wired]
    rcases r with b | a <;> rfl

theorem Assembly.entrance_eq {a : Assembly σ} (nonempty : ms ≠ [])
    (length : a.wired.length = ms.length)
    (wired : ∀ k < ms.length, ∃ run, a.wired[k]? = some ⟨run, given ms terminal k⟩) :
    a.entrance = nest (a.wired.map (·.run)) terminal := by
  have complete : a.wiring = Wiring.complete (a.wired.map (·.run)) terminal := by
    apply List.ext_getElem?
    intro k
    rw [Wiring.complete, List.getElem?_mapIdx, wiring, List.getElem?_map, List.getElem?_map,
      List.length_map, length]
    by_cases inside : k < ms.length
    · obtain ⟨run, here⟩ := wired k inside
      rw [here]
      rfl
    · rw [List.getElem?_eq_none (by omega)]
      rfl
  have inside : 0 < (a.wired.map (·.run)).length := by
    rw [List.length_map, length]
    exact List.length_pos_iff.mpr nonempty
  have enough : (a.wired.map (·.run)).length ≤ 0 + a.wiring.length := by
    rw [wiring, List.length_map, List.length_map]
    omega
  calc a.entrance
    _ = (Wiring.complete (a.wired.map (·.run)) terminal).enter a.wiring.length 0 := by
      rw [entrance, ← complete]
    _ = nest (a.wired.map (·.run)) terminal := Wiring.enter_complete inside enough terminal

theorem chain_follows_schedule (m : Middleware σ) (rest : List (Middleware σ))
    (terminal : Stage σ) (w : World σ) :
    let last := rest.length
    (schedule last).Nodup ∧
      (∀ k, (create k ∈ schedule last ↔ k ≤ last) ∧ (init k ∈ schedule last ↔ k ≤ last)) ∧
      ∃ made r w', Follows (m :: rest) terminal (schedule last) {} w made r w' ∧
        made <+: schedule last ∧
        match r with
        | .ok a =>
          made = schedule last ∧
            (∀ k ≤ last, ∃ i v run v', a.instances[k]? = some i ∧ i.callInit v = (.ok run, v') ∧
              a.wired[k]? =
                some ⟨run, if k < last then .place (k + 1) else .terminal terminal⟩) ∧
            Middleware.chain (m :: rest) terminal w =
              (.ok (nest (a.wired.map (·.run)) terminal), w')
        | .error b =>
          made.getLast? = some b.call ∧
            Middleware.chain (m :: rest) terminal w = (.error b.fault, w') := by
  intro last
  refine ⟨nodup_schedule last, fun k => ⟨create_mem_schedule, init_mem_schedule⟩, ?_⟩
  obtain ⟨made, r, w', follows, built⟩ := chain_follows m rest terminal w
  refine ⟨made, r, w', follows, follows.made_prefix, ?_⟩
  rcases r with b | a
  · exact ⟨follows.made_last, built⟩
  · have length : a.wired.length = (m :: rest).length := follows.length_wired rfl
    have wired (k : Nat) (inside : k ≤ last) :=
      follows.wired_of_mem (init_mem_schedule.mpr inside)
    have nested := Assembly.entrance_eq (List.cons_ne_nil m rest) length fun k inside => by
      obtain ⟨i, v, run, v', -, -, here⟩ := wired k (Nat.le_of_lt_succ inside)
      exact ⟨run, here⟩
    refine ⟨follows.made_all, fun k inside => ?_, ?_⟩
    · simpa [given] using wired k inside
    · rw [← nested]
      exact built

end HttpRouting
