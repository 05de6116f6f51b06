import HttpRouting.Http.Header
import HttpRouting.Http.Method

namespace HttpRouting

abbrev RawQuery := Dictionary Bytes (List Bytes)

abbrev RawParams := Dictionary Bytes Bytes

/-- `route` is the key of the route to take, when it is known beforehand. -/
structure Request where
  method : Method := .get
  path : Bytes := []
  route : Bytes := []
  params : RawParams := ∅
  query : RawQuery := ∅
  headers : Headers := ∅
  body : Bytes := []
deriving DecidableEq

def Request.header? (r : Request) (name : Bytes) : Option Bytes := r.headers.get? name

def Request.queryValue? (r : Request) (name : Bytes) : Option Bytes :=
  (r.query.find? name).bind List.head?

structure Response where
  status : Int16 := 200
  headers : Headers := ∅
  body : Bytes := []
deriving DecidableEq

def Response.text (body : Bytes) (status : Int16 := 200) (headers : Headers := ∅) : Response where
  status
  headers := headers.insertIfNew ⟨ascii "Content-Type"⟩ (ascii "text/plain")
  body

end HttpRouting
