import HttpRouting.Pattern.Search

/-! Regular expressions over bytes, searched for anywhere in a text. -/

namespace HttpRouting

open Pattern

structure Pattern where
  source : Bytes
  node : Node
deriving DecidableEq, Repr

namespace Pattern

def compile? (source : Bytes) : Option Pattern :=
  (Node.parse? source).map (⟨source, ·⟩)

def occursIn (p : Pattern) (text : Bytes) : Bool := p.node.occursFrom none text

end Pattern

end HttpRouting
