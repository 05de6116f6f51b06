import HttpRouting.Http.Message
import HttpRouting.Http.Value

namespace HttpRouting

abbrev Values := Dictionary Bytes Value

structure Context where
  request : Request := {}
  params : Values := ∅
  query : Dictionary Bytes (List Value) := ∅
  missing : List Bytes := []
deriving DecidableEq

namespace Context

def param? (c : Context) (name : Bytes) : Option Value := c.params.find? name

def queryAll (c : Context) (name : Bytes) : List Value := (c.query.find? name).getD []

def queryValue? (c : Context) (name : Bytes) : Option Value := (c.queryAll name).head?

end Context

end HttpRouting
