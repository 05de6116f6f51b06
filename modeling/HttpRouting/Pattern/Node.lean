import HttpRouting.Pattern.ByteSet

namespace HttpRouting.Pattern

structure Count where
  least : Nat
  most : Option Nat
deriving DecidableEq, Repr

inductive Quantifier
  | star | plus | opt
  | interval (count : Count)
deriving DecidableEq, Repr

inductive Node
  | empty
  | any
  | byte (b : UInt8)
  | set (s : ByteSet)
  | lineStart
  | lineEnd
  | boundary (negated : Bool)
  | backref (group : Nat)
  | group (index : Nat) (body : Node)
  | cluster (body : Node)
  | look (negated : Bool) (body : Node)
  | seq (first rest : Node)
  | alt (left right : Node)
  | again (body : Node) (q : Quantifier) (lazy : Bool)
deriving DecidableEq, Repr

def Count.states (c : Count) (size : Nat) : Nat :=
  match c.most with
  | none => 1 + c.least * size + (size + 1)
  | some most => 1 + c.least * size + (most - c.least) * (size + 1) + 1

namespace Node

def size : Node → Nat
  | group _ body => body.size + 2
  | cluster body => body.size + 1
  | look _ body => body.size + 2
  | seq first rest => first.size + rest.size
  | alt left right => left.size + right.size + 2
  | again body .star _ => body.size + 1
  | again body .plus _ => body.size + 1
  | again body .opt _ => body.size + 2
  | again body (.interval count) _ => count.states body.size
  | _ => 1

def built : Node → Nat
  | group _ body => body.built + 2
  | cluster body => body.built + 1
  | look _ body => body.built + 2
  | seq first rest => first.built + rest.built
  | alt left right => left.built + right.built + 2
  | again body .star _ => body.built + 1
  | again body .plus _ => body.built + 1
  | again body .opt _ => body.built + 2
  | again body (.interval count) _ => body.built + count.states body.size
  | _ => 1

end Node

end HttpRouting.Pattern
