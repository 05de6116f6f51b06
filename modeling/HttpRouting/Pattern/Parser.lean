import HttpRouting.Pattern.Token

namespace HttpRouting.Pattern

inductive Opening
  | whole
  | group (index : Nat)
  | cluster
  | look (negated : Bool)
deriving DecidableEq, Repr

structure Term where
  node : Node
  repeatable : Bool
deriving DecidableEq, Repr

structure Frame where
  opening : Opening
  alternatives : Option Node
  terms : List Term
deriving DecidableEq, Repr

def Opening.frame (o : Opening) : Frame := ⟨o, none, []⟩

namespace Frame

def push (f : Frame) (t : Term) : Frame := { f with terms := t :: f.terms }

def branch (f : Frame) : Node := f.terms.foldl (fun rest t => .seq t.node rest) .empty

def body (f : Frame) : Node :=
  match f.alternatives with
  | none => f.branch
  | some left => .alt left f.branch

def branchOff (f : Frame) : Frame := { f with alternatives := some f.body, terms := [] }

def close? (f : Frame) : Option Term :=
  match f.opening with
  | .whole => none
  | .group index => some ⟨.group index f.body, true⟩
  | .cluster => some ⟨.cluster f.body, true⟩
  | .look negated => some ⟨.look negated f.body, false⟩

end Frame

structure Parse where
  current : Frame
  outer : List Frame
  groups : Nat

namespace Parse

def start : Parse := ⟨Opening.whole.frame, [], 0⟩

def push (p : Parse) (node : Node) (repeatable : Bool) : Parse :=
  { p with current := p.current.push ⟨node, repeatable⟩ }

def enter (p : Parse) (o : Opening) : Parse :=
  { p with current := o.frame, outer := p.current :: p.outer }

def closed (p : Parse) (group : Nat) : Bool :=
  group ≤ p.groups && (p.current :: p.outer).all (·.opening ≠ .group group)

def step (p : Parse) : Token → Option Parse
  | .atom node => some (p.push node true)
  | .assertion node => some (p.push node false)
  | .backref group => if p.closed group then some (p.push (.backref group) true) else none
  | .quantifier q lazy =>
    match p.current.terms with
    | ⟨node, true⟩ :: rest =>
      some { p with current := { p.current with terms := ⟨.again node q lazy, true⟩ :: rest } }
    | _ => none
  | .bar => some { p with current := p.current.branchOff }
  | .openGroup => some { p.enter (.group (p.groups + 1)) with groups := p.groups + 1 }
  | .openCluster => some (p.enter .cluster)
  | .openLook negated => some (p.enter (.look negated))
  | .close =>
    match p.current.close?, p.outer with
    | some t, f :: outer => some { p with current := f.push t, outer := outer }
    | _, _ => none

def finish? (p : Parse) : Option Node :=
  if p.outer = [] then some p.current.body else none

end Parse

def stateLimit : Nat := 100000

def Node.parse? (source : Bytes) : Option Node := do
  let node ← (← (← tokens? source).foldlM Parse.step Parse.start).finish?
  if node.built + 3 ≤ stateLimit then some node else none

end HttpRouting.Pattern
