import HttpRouting.Router.Forest

namespace HttpRouting

/-- A forest after a declaration. A declaration that fails keeps what it did before. -/
structure Declared (σ : Type) where
  forest : Forest σ
  notices : List LogMessage := []
  fault : Option Fault := none

namespace Forest

variable {σ : Type}

def nullRouter (r : Router σ) : Fault :=
  .route (ascii "Null router nested into '" ++ r.path ++ ascii "'") 0

def selfNested (r : Router σ) : Fault :=
  .route (ascii "Router '" ++ r.path ++ ascii "' cannot be nested into itself") 0

def nestedCycle (child r : Router σ) : Fault :=
  .route (ascii "Nesting '" ++ child.path ++ ascii "' into '" ++ r.path ++
    ascii "' would create a cycle") 0

def nestedTwice (child parent : Router σ) : Fault :=
  .route (ascii "Router '" ++ child.path ++ ascii "' is already nested into '" ++ parent.path ++
    ascii "'") 0

def nullHandler (m : Method) (r : Router σ) : Fault :=
  .route (ascii "Null handler for " ++ ascii m.name ++ ascii " '" ++ r.path ++ ascii "'") 0

def unknownMethod (r : Router σ) : Fault :=
  .route (ascii "Unknown method for '" ++ r.path ++ ascii "'") 0

def add (f : Forest σ) (ident : Nat) (template : Template) : Forest σ :=
  f.append (cons { ident, template } nil nil)

def declare (f : Forest σ) (id : Nat)
    (change : Router σ → Forest σ → Noted (Router σ × Forest σ)) : Declared σ :=
  match f.revise change id with
  | none => { forest := f }
  | some revision => { forest := revision.value.forest, notices := revision.notices }

def attach (f : Forest σ) (r child : Router σ) (below : Forest σ) : Declared σ :=
  (f.removeRoot child.ident).declare r.ident fun r children => do
    Noted.note .debug (ascii "[Router] Nested '" ++ child.path ++ ascii "' into '" ++ r.path ++
      ascii "'")
    return (← r.absorb child, children.append (cons child below nil))

def nestOne (f : Forest σ) (r : Router σ) (child : Option Nat) : Except Fault (Declared σ) :=
  match child.bind f.tree? with
  | none => throw (nullRouter r)
  | some (child, below) =>
    if child.ident = r.ident then throw (selfNested r)
    else if below.contains r.ident then throw (nestedCycle child r)
    else
      match f.parent? child.ident with
      | some parent => throw (nestedTwice child parent)
      | none => return f.attach r child below

def nest (f : Forest σ) (id : Nat) : List (Option Nat) → Declared σ
  | [] => { forest := f }
  | child :: rest =>
    match f.find? id with
    | none => { forest := f }
    | some r =>
      match f.nestOne r child with
      | .error fault => { forest := f, fault }
      | .ok one =>
        let others := one.forest.nest id rest
        { others with notices := one.notices ++ others.notices }

def addMiddlewares (f : Forest σ) (id : Nat) (middlewares : List (Middleware σ)) : Declared σ :=
  f.declare id fun r children => do
    let r := { r with middlewares := r.middlewares ++ middlewares }
    return (← children.roots.foldlM Router.absorb r, children)

/-- The handlers with one more. A handler for all methods and handlers for single ones replace each
other. -/
def withHandler (handlers : Dictionary Method (Handler σ)) (m : Method) (h : Handler σ) :
    Dictionary Method (Handler σ) :=
  (if m = .all then ∅ else handlers.erase .all).insert m h

def handle (f : Forest σ) (id : Nat) (m : Method) (h : Option (Handler σ)) : Declared σ :=
  match f.find? id, h with
  | none, _ => { forest := f }
  | some r, none => { forest := f, fault := nullHandler m r }
  | some r, some h =>
    if m = .unknown then { forest := f, fault := unknownMethod r }
    else
      f.declare id fun r children =>
        return ({ r with handlers := withHandler r.handlers m h }, children)

def compose (f : Forest σ) (id : Nat) : Declared σ :=
  f.declare id fun r children => do
    let children ← children.rebuild
    return (← children.roots.foldlM Router.absorb r, children)

end Forest

end HttpRouting
