import HttpRouting.Dictionary
import HttpRouting.Bytes

namespace HttpRouting

structure HeaderName where
  text : Bytes
deriving DecidableEq, Repr

def HeaderName.key (name : HeaderName) : Bytes :=
  name.text.map (fun b => Byte.signed (Byte.toUpper b))

instance : Ord HeaderName := ⟨compareOn HeaderName.key⟩

instance : Std.TransOrd HeaderName := inferInstanceAs (Std.TransCmp (compareOn HeaderName.key))

abbrev Headers := Dictionary HeaderName Bytes

namespace Headers

def get? (h : Headers) (name : Bytes) : Option Bytes := h.find? ⟨name⟩

def ofFields (fields : List (Bytes × Bytes)) : Headers :=
  Dictionary.ofList (fields.map (fun f => (⟨f.1⟩, f.2)))

end Headers

end HttpRouting
