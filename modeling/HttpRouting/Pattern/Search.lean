import HttpRouting.Dictionary
import HttpRouting.Pattern.Parser

namespace HttpRouting.Pattern

structure Cursor where
  before : Option UInt8
  rest : Bytes
  captures : Dictionary Nat Bytes

namespace Cursor

def step (c : Cursor) (holds : UInt8 → Bool) : Option Cursor :=
  match c.rest with
  | [] => none
  | b :: rest => if holds b then some { c with before := some b, rest } else none

def skip? (c : Cursor) : Bytes → Option Cursor
  | [] => some c
  | b :: text => (c.step (· = b)).bind (fun c => c.skip? text)

def atBoundary (c : Cursor) : Bool :=
  c.before.any Byte.isName != c.rest.head?.any Byte.isName

def capture (c c' : Cursor) (group : Nat) : Cursor :=
  { c' with captures := c'.captures.insert group (c.rest.take (c.rest.length - c'.rest.length)) }

end Cursor

abbrev Continuation := Cursor → Option Cursor

def prefer (lazy : Bool) (more enough : Unit → Option Cursor) : Option Cursor :=
  if lazy then enough () <|> more () else more () <|> enough ()

def repeated (body : Continuation → Continuation) (lazy : Bool) (next : Continuation)
    (visits : Nat) (c : Cursor) : Option Cursor :=
  prefer lazy
    (fun _ =>
      if visits < 2 then
        body (fun c' =>
          if c'.rest.length < c.rest.length then repeated body lazy next 0 c'
          else if c'.rest.length = c.rest.length then repeated body lazy next (visits + 1) c'
          else none) c
      else none)
    (fun _ => next c)
termination_by (c.rest.length, 2 - visits)
decreasing_by all_goals (simp only [Prod.lex_def]; omega)

def times (body : Continuation → Continuation) (next : Continuation) : Nat → Continuation
  | 0 => next
  | n + 1 => body (times body next n)

def atMost (body : Continuation → Continuation) (lazy : Bool) (next : Continuation) :
    Nat → Continuation
  | 0 => next
  | n + 1 => fun c => prefer lazy (fun _ => body (atMost body lazy next n) c) (fun _ => next c)

def Quantifier.run (q : Quantifier) (lazy : Bool) (body : Continuation → Continuation)
    (next : Continuation) : Continuation :=
  match q with
  | .star => repeated body lazy next 0
  | .plus => body (repeated body lazy next 0)
  | .opt => atMost body lazy next 1
  | .interval ⟨least, none⟩ => times body (repeated body lazy next 0) least
  | .interval ⟨least, some most⟩ => times body (atMost body lazy next (most - least)) least

/-- Matches the node at a cursor and goes on with `next`. `first` says that the attempt started at
the beginning of the text: a lookahead then takes the place where it stands for a beginning too. -/
def Node.run (first : Bool) : Node → Continuation → Continuation
  | empty, next, c => next c
  | any, next, c => (c.step (fun b => b != 10 && b != 13)).bind next
  | byte b, next, c => (c.step (· = b)).bind next
  | set s, next, c => (c.step s.holds).bind next
  | lineStart, next, c => if c.before = none then next c else none
  | lineEnd, next, c => if c.rest = [] then next c else none
  | boundary negated, next, c => if c.atBoundary != negated then next c else none
  | backref g, next, c => (c.captures.find? g).bind (fun text => (c.skip? text).bind next)
  | group g body, next, c => body.run first (fun c' => next (c.capture c' g)) c
  | cluster body, next, c => body.run first next c
  | look negated body, next, c =>
    match body.run first some { c with before := if first then none else c.before }, negated with
    | some found, false => next { c with captures := found.captures }
    | none, true => next c
    | _, _ => none
  | seq head tail, next, c => head.run first (tail.run first next) c
  | alt left right, next, c => left.run first next c <|> right.run first next c
  | again body q lazy, next, c => q.run lazy (body.run first) next c

def Node.occursFrom (node : Node) (before : Option UInt8) (rest : Bytes) : Bool :=
  (node.run before.isNone some ⟨before, rest, ∅⟩).isSome ||
    match rest with
    | [] => false
    | b :: rest => node.occursFrom (some b) rest

end HttpRouting.Pattern
