import HttpRouting.Template.Parser

/-!
Matching paths against the segments of templates. A literal segment is preferred to a parameter,
which stands for any text but the empty one.
-/

namespace HttpRouting

/-- The parts of a path between its slashes, a leading slash counting for nothing. -/
def splitPath (path : Bytes) : List Bytes :=
  if path = [] ∨ path = [Byte.slash] then []
  else ((Bytes.after? Byte.slash path).getD path).splitOn Byte.slash

inductive SegmentTrie (α : Type)
  | node (value : Option α) (literals : List (Bytes × SegmentTrie α))
      (param : Option (SegmentTrie α))

namespace SegmentTrie

variable {α : Type}

def empty : SegmentTrie α := node none [] none

instance : Inhabited (SegmentTrie α) := ⟨empty⟩

def setChild (text : Bytes) (child : SegmentTrie α) :
    List (Bytes × SegmentTrie α) → List (Bytes × SegmentTrie α)
  | [] => [(text, child)]
  | (text', child') :: rest =>
    if text' = text then (text, child) :: rest else (text', child') :: setChild text child rest

def get? : SegmentTrie α → List Segment → Option α
  | node value _ _, [] => value
  | node _ literals _, .literal text :: rest =>
    (literals.lookup text).bind (fun child => child.get? rest)
  | node _ _ param, .param _ :: rest => param.bind (fun child => child.get? rest)

def insert (value : α) : List Segment → SegmentTrie α → SegmentTrie α
  | [], node _ literals param => node (some value) literals param
  | .literal text :: rest, node v literals param =>
    node v (setChild text (insert value rest ((literals.lookup text).getD empty)) literals) param
  | .param _ :: rest, node v literals param =>
    node v literals (some (insert value rest (param.getD empty)))

def store (t : SegmentTrie α) (segments : List Segment) (value : α) : Bool × SegmentTrie α :=
  ((t.get? segments).isNone, t.insert value segments)

def findParts : List Bytes → SegmentTrie α → Option (α × List Bytes)
  | [], node value _ _ => value.map (·, [])
  | part :: rest, node _ literals param =>
    if part = [] then none
    else
      (literals.lookup part).bind (findParts rest) <|>
        param.bind (fun child => (findParts rest child).map (fun hit => (hit.1, part :: hit.2)))

def find? (t : SegmentTrie α) (path : Bytes) : Option (α × List Bytes) :=
  findParts (splitPath path) t

end SegmentTrie

end HttpRouting
