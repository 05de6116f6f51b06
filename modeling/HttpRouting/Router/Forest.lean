import HttpRouting.Log.Notice
import HttpRouting.Router.Entry

/-!
Routers as a forest. A router has its children in the order in which they were nested; the routers
that are not nested anywhere are the roots.
-/

namespace HttpRouting

/-- A first router, the forest below it, and the forest beside it. -/
inductive Forest (σ : Type)
  | nil
  | cons (router : Router σ) (children siblings : Forest σ)

namespace Router

variable {σ : Type}

def store (r : Router σ) (key : Bytes) (e : Entry σ) : Noted (Router σ) := do
  if (r.routes.find? key).any (·.origin != e.origin) then
    Noted.note .warning (ascii "[Router] Route '" ++ key ++ ascii "' under '" ++ r.path ++
      ascii "' is declared by more than one router, the latest declaration wins")
  return { r with routes := r.routes.insert key e }

def absorb (r child : Router σ) : Noted (Router σ) :=
  child.offers.foldlM (fun r offer => r.store offer.1 (r.extend offer.2)) r

end Router

namespace Forest

variable {σ : Type}

instance : Inhabited (Forest σ) := ⟨nil⟩

def append : Forest σ → Forest σ → Forest σ
  | nil, g => g
  | cons r children siblings, g => cons r children (siblings.append g)

def roots : Forest σ → List (Router σ)
  | nil => []
  | cons r _ siblings => r :: siblings.roots

def tree? : Forest σ → Nat → Option (Router σ × Forest σ)
  | nil, _ => none
  | cons r children siblings, id =>
    if r.ident = id then some (r, children)
    else children.tree? id <|> siblings.tree? id

theorem tree?_cons (r : Router σ) (children siblings : Forest σ) (id : Nat) :
    (cons r children siblings).tree? id =
      if r.ident = id then some (r, children) else (children.tree? id).or (siblings.tree? id) := by
  rw [tree?]
  cases children.tree? id <;> rfl

def find? (f : Forest σ) (id : Nat) : Option (Router σ) := (f.tree? id).map (·.1)

def contains (f : Forest σ) (id : Nat) : Bool := (f.tree? id).isSome

def children (f : Forest σ) (id : Nat) : List (Router σ) :=
  ((f.tree? id).map (·.2.roots)).getD []

def parent? : Forest σ → Nat → Option (Router σ)
  | nil, _ => none
  | cons r children siblings, id =>
    if children.roots.any (·.ident = id) then some r
    else children.parent? id <|> siblings.parent? id

theorem parent?_cons (r : Router σ) (children siblings : Forest σ) (id : Nat) :
    (cons r children siblings).parent? id =
      if children.roots.any (·.ident = id) then some r
      else (children.parent? id).or (siblings.parent? id) := by
  rw [parent?]
  cases children.parent? id <;> rfl

def removeRoot : Forest σ → Nat → Forest σ
  | nil, _ => nil
  | cons r children siblings, id =>
    if r.ident = id then siblings else cons r children (siblings.removeRoot id)

structure Revision (σ : Type) where
  forest : Forest σ
  top : Router σ

/-- Changes the tree of a router. Every router above it then takes in the one below, from the
bottom up. -/
def revise (change : Router σ → Forest σ → Noted (Router σ × Forest σ)) (id : Nat) :
    Forest σ → Option (Noted (Revision σ))
  | nil => none
  | cons r children siblings =>
    if r.ident = id then
      some do
        let (r, children) ← change r children
        return ⟨cons r children siblings, r⟩
    else
      match children.revise change id with
      | some revision => some do
        let below ← revision
        let r ← r.absorb below.top
        return ⟨cons r below.forest siblings, r⟩
      | none => (siblings.revise change id).map fun revision => do
        let beside ← revision
        return ⟨cons r children beside.forest, beside.top⟩

def rebuild : Forest σ → Noted (Forest σ)
  | nil => return nil
  | cons r children siblings => do
    let children ← children.rebuild
    let r ← children.roots.foldlM Router.absorb r
    return cons r children (← siblings.rebuild)

end Forest

end HttpRouting
