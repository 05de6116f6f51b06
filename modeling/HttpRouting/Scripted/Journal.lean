import HttpRouting.Dispatch.Event

namespace HttpRouting.Scripted

inductive Event
  | created (tag : Bytes)
  | initialised (tag : Bytes)
  | entered (tag : Bytes) (run : Nat)
  | left (tag : Bytes)
  | handled (name : Bytes) (context : Context)
  | reported (method : Method) (path : Bytes)
deriving DecidableEq

structure Journal where
  events : List Event := []
  instances : List Nat := []
  runs : List (Nat × Nat) := []
deriving DecidableEq

def recordInWorld (e : Event) (w : World Journal) : World Journal :=
  { w with state := { w.state with events := w.state.events ++ [e] } }

def record (e : Event) : Action Journal Unit := modify (recordInWorld e)

def recordingSink : Sink Journal := fun event => recordInWorld (.reported event.method event.path)

structure HandlerScript where
  ident : Nat
  name : Bytes
  isAsync : Bool
  outcome : Except Fault Response

def HandlerScript.stage (s : HandlerScript) : Serving Journal Response := do
  Action.serving (record (.handled s.name (← get).context))
  liftExcept s.outcome

def HandlerScript.handler (s : HandlerScript) : Handler Journal where
  ident := s.ident
  isAsync := s.isAsync
  stage := s.stage

end HttpRouting.Scripted
