import HttpRouting.Bytes

namespace HttpRouting

inductive Value
  | string (text : Bytes)
  | number (n : Int64)
  | boolean (b : Bool)
deriving DecidableEq, Repr

namespace Value

def int64? (s : Bytes) : Option Int64 := do
  let n : Int ←
    match Bytes.after? Byte.dash s with
    | some digits => (Bytes.digits? digits).map (fun n => -(n : Int))
    | none => (Bytes.digits? s).map Int.ofNat
  if Int64.minValue.toInt ≤ n ∧ n ≤ Int64.maxValue.toInt then some (Int64.ofInt n) else none

def number? (s : Bytes) : Option Value := (int64? s).map number

def boolean? (s : Bytes) : Option Value :=
  if s = ascii "true" then some (boolean true)
  else if s = ascii "false" then some (boolean false)
  else none

end Value

end HttpRouting
