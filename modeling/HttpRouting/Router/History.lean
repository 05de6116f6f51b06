import HttpRouting.Router.Declare

namespace HttpRouting

inductive Call (σ : Type)
  | path (ident : Nat) (source : Bytes)
  | nest (id : Nat) (children : List (Option Nat))
  | middlewares (id : Nat) (added : List (Middleware σ))
  | handle (id : Nat) (method : Method) (handler : Option (Handler σ))
  | compose (id : Nat)

namespace Call

variable {σ : Type}

def apply (f : Forest σ) : Call σ → Declared σ
  | path ident source =>
    match Template.parse source with
    | .error e => { forest := f, fault := some (.template e) }
    | .ok template => { forest := f.add ident template }
  | nest id children => f.nest id children
  | middlewares id added => f.addMiddlewares id added
  | handle id method handler => f.handle id method handler
  | compose id => f.compose id

/-- A router that is made is told apart from all others, and any other call is made on a router
that is there. -/
def Possible (f : Forest σ) : Call σ → Prop
  | path ident _ => f.contains ident = false
  | nest id _ => f.contains id = true
  | middlewares id _ => f.contains id = true
  | handle id _ _ => f.contains id = true
  | compose id => f.contains id = true

instance (f : Forest σ) (c : Call σ) : Decidable (c.Possible f) :=
  match c with
  | path ident _ => inferInstanceAs (Decidable (f.contains ident = false))
  | nest id _ => inferInstanceAs (Decidable (f.contains id = true))
  | middlewares id _ => inferInstanceAs (Decidable (f.contains id = true))
  | handle id _ _ => inferInstanceAs (Decidable (f.contains id = true))
  | compose id => inferInstanceAs (Decidable (f.contains id = true))

def added (id : Nat) : Call σ → List (Middleware σ)
  | middlewares id' added => if id' = id then added else []
  | _ => []

end Call

namespace Forest

variable {σ : Type}

inductive Reached : List (Call σ) → Forest σ → Prop
  | start : Reached [] nil
  | call {calls : List (Call σ)} {f : Forest σ} (c : Call σ) (h : Reached calls f)
      (possible : c.Possible f) : Reached (calls ++ [c]) (c.apply f).forest

def after (f : Forest σ) (calls : List (Call σ)) : Forest σ :=
  calls.foldl (fun f c => (c.apply f).forest) f

def allPossible (f : Forest σ) : List (Call σ) → Bool
  | [] => true
  | c :: rest => decide (c.Possible f) && (c.apply f).forest.allPossible rest

theorem Reached.after {calls more : List (Call σ)} {f : Forest σ} (h : Reached calls f)
    (possible : f.allPossible more = true) : Reached (calls ++ more) (f.after more) := by
  induction more generalizing calls f with
  | nil => rwa [List.append_nil]
  | cons c more ih =>
    rw [allPossible, Bool.and_eq_true, decide_eq_true_eq] at possible
    rw [List.append_cons]
    exact ih (h.call c possible.1) possible.2

end Forest

end HttpRouting
