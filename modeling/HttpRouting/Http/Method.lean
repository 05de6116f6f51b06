import HttpRouting.Bytes

namespace HttpRouting

inductive Method
  | get | head | post | put | delete | options | patch | all | unknown
deriving DecidableEq, Repr

namespace Method

def rank : Method → Nat
  | get => 0 | head => 1 | post => 2 | put => 3 | delete => 4
  | options => 5 | patch => 6 | all => 7 | unknown => 8

instance : Ord Method := ⟨compareOn rank⟩

instance : Std.TransOrd Method := inferInstanceAs (Std.TransCmp (compareOn rank))

instance : Std.LawfulEqOrd Method where
  eq_of_compare {a b} h := by cases a <;> cases b <;> first | rfl | cases h

def name : Method → String
  | get => "GET"
  | head => "HEAD"
  | post => "POST"
  | put => "PUT"
  | delete => "DELETE"
  | options => "OPTIONS"
  | patch => "PATCH"
  | all => "ALL"
  | unknown => "UNKNOWN"

def named : List Method := [get, head, post, put, delete, options, patch]

end Method

def fnv1a (s : Bytes) : UInt32 :=
  s.foldl (fun hash b => (hash ^^^ b.toUInt32) * 16777619) 2166136261

/-- The method that a name stands for. Names are told apart by their hashes alone, so a text that
shares its hash with a name is taken for that name. -/
def Method.ofName (name : Bytes) : Method :=
  (named.find? (fun m => fnv1a (ascii m.name) = fnv1a name)).getD unknown

end HttpRouting
