import HttpRouting.Template.Blame

namespace HttpRouting

inductive Fault
  | template (e : TemplateError)
  | middlewareInit (middleware cause : Bytes)
  | unimplemented (operation : String)
  | route (message : Bytes) (status : Nat)
  | base (message : Bytes) (status : Nat) (label : String)
  | badArgument (text : Bytes)
  | failure (text : Bytes)
  | emptyCall
  | foreign
deriving DecidableEq, Repr

namespace Fault

def message : Fault → Bytes
  | template e => e.message
  | middlewareInit middleware cause =>
    ascii "Middleware '" ++ middleware ++ ascii "' failed to initialize: " ++ cause
  | unimplemented operation =>
    ascii "'" ++ ascii operation ++ ascii "' must be implemented by the transport adapter"
  | route message _ => message
  | base message _ _ => message
  | badArgument text => text
  | failure text => text
  | emptyCall => ascii "bad_function_call"
  | foreign => []

def label : Fault → String
  | template _ => "Path-Template"
  | middlewareInit _ _ => "Middleware-Init"
  | unimplemented _ => "Collaborator"
  | route _ _ => "Route"
  | base _ _ label => label
  | _ => ""

def status : Fault → Nat
  | route _ status => status
  | base _ status _ => status
  | _ => 0

def description (f : Fault) : Bytes :=
  let text := if f.label = "" then f.message else ascii ("[" ++ f.label ++ "] ") ++ f.message
  text.takeWhile (· != 0)

end Fault

end HttpRouting
