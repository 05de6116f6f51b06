import HttpRouting.Stage

/-!
Middlewares, and the chains they form around a handler. Each chain has instances of its own, made
when the chain is built.
-/

namespace HttpRouting

/-- A middleware made for one place in one chain. Once initialised, it answers requests with the
help of the stage behind it.

Two contracts are in this type. A factory creates one instance per chain, a fresh one each time, so
no instance has a part in two chains or at two places of one. And an instance is handed the stage
behind it by `init`, which is called exactly once, while the chain is built, to acquire resources or
to check a configuration: what that does to the world, and whether it fails, does not depend on the
stage. -/
structure MiddlewareInstance (σ : Type) where
  init : Action σ (Stage σ → Stage σ)

/-- A declared middleware. The factory makes its instances; it may be missing, and it may make
none. -/
structure Middleware (σ : Type) where
  ident : Nat
  name : Bytes
  factory : Option (Action σ (Option (MiddlewareInstance σ)))

inductive Continuation (σ : Type)
  | place (k : Nat)
  | terminal (stage : Stage σ)

structure Wired (σ : Type) where
  run : Stage σ → Stage σ
  next : Continuation σ

abbrev Wiring (σ : Type) := List (Option (Wired σ))

variable {σ : Type}

namespace Wiring

def fill (wiring : Wiring σ) (wired : Wired σ) : Wiring σ := wiring.dropLast ++ [some wired]

/-- Runs what is at a place by then. A request is passed on within the chain fewer times than `hops`
says. -/
def enter (wiring : Wiring σ) : (hops : Nat) → (place : Nat) → Serving σ Response
  | 0, _ => throw .emptyCall
  | hops + 1, place =>
    match wiring[place]? with
    | some (some wired) =>
      wired.run <|
        match wired.next with
        | .place k => wiring.enter hops k
        | .terminal stage => stage
    | _ => throw .emptyCall

end Wiring

namespace Middleware

def same (m m' : Middleware σ) : Bool := m.ident = m'.ident && m.name = m'.name

def blame (m : Middleware σ) : Fault → Fault
  | .middlewareInit middleware cause => .middlewareInit middleware cause
  | .foreign => .foreign
  | f => .middlewareInit m.name f.description

def attributing {α : Type} (m : Middleware σ) (a : Action σ α) : Action σ α :=
  tryCatch a (fun f => throw (m.blame f))

def instantiate (m : Middleware σ) : Action σ (MiddlewareInstance σ) :=
  match m.factory with
  | none => throw (.middlewareInit m.name (ascii "no factory"))
  | some make => m.attributing do
    match ← make with
    | none => throw (.middlewareInit m.name (ascii "factory returned no instance"))
    | some i => return i

def initialise (m : Middleware σ) (i : MiddlewareInstance σ) : Action σ (Stage σ → Stage σ) :=
  m.attributing i.init

/-- Wires the instance `i` of `m`, the last one created so far, and those of the middlewares behind
it. Every instance is initialised as soon as the one behind it exists. -/
def wire (m : Middleware σ) (i : MiddlewareInstance σ) (wiring : Wiring σ) (terminal : Stage σ) :
    List (Middleware σ) → Action σ (Wiring σ)
  | [] => do
    let run ← m.initialise i
    return wiring.fill ⟨run, .terminal terminal⟩
  | next :: rest => do
    let i' ← next.instantiate
    let run ← m.initialise i
    next.wire i' (wiring.fill ⟨run, .place wiring.length⟩ ++ [none]) terminal rest

def chain (middlewares : List (Middleware σ)) (terminal : Stage σ) : Action σ (Stage σ) :=
  match middlewares with
  | [] => return terminal
  | m :: rest => do
    let i ← m.instantiate
    let wiring ← m.wire i [none] terminal rest
    return wiring.enter wiring.length 0

end Middleware

end HttpRouting
