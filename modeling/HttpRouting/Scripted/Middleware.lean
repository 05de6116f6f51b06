import HttpRouting.Middleware.Chain
import HttpRouting.Scripted.Journal

namespace HttpRouting.Scripted

inductive Behaviour
  | untagged
  | pass
  | missingFactory
  | noInstance
  | failCreate (fault : Fault)
  | failInit (fault : Fault)
  | loseNext
  | answer (response : Response)
  | failBefore (fault : Fault)
  | failAfter (fault : Fault)
  | requireQuery
  | setParam (name : Bytes) (value : Value)
  | repeatNext
  | recover (describe : Fault → Bytes)

structure MiddlewareScript where
  ident : Nat
  ref : Bytes
  name : Bytes
  behaviour : Behaviour

namespace MiddlewareScript

def tag (s : MiddlewareScript) (number : Nat) : Bytes :=
  match s.behaviour with
  | .untagged => s.ref
  | _ => s.ref ++ ascii "#" ++ Bytes.ofNat number

def enter (s : MiddlewareScript) (number : Nat) : Action Journal Unit := do
  modify fun w => { w with state.runs := w.state.runs ++ [(s.ident, number)] }
  let run := (← get).state.runs.count (s.ident, number)
  record (.entered (s.tag number) run)

def callNext (s : MiddlewareScript) (next : Stage Journal) : Serving Journal Response :=
  match s.behaviour with
  | .loseNext => throw .emptyCall
  | .repeatNext => do
    let _ ← next
    next
  | .recover describe => tryCatch next (fun f => return .text (describe f) 500)
  | _ => next

def signHeader (s : MiddlewareScript) (r : Response) : Response :=
  let earlier := (r.headers.get? (ascii "x-trace")).getD []
  { r with headers := r.headers.insert ⟨ascii "x-trace"⟩ (s.ref ++ Byte.comma :: earlier) }

def around (s : MiddlewareScript) (number : Nat) (next : Stage Journal) :
    Serving Journal Response := do
  let response ← s.callNext next
  Action.serving (record (.left (s.tag number)))
  match s.behaviour with
  | .failAfter f => throw f
  | _ => return s.signHeader response

def run (s : MiddlewareScript) (number : Nat) (next : Stage Journal) :
    Serving Journal Response := do
  Action.serving (s.enter number)
  match s.behaviour with
  | .answer response => return response
  | .failBefore f => throw f
  | .requireQuery =>
    let missing := (← get).context.missing
    if missing = [] then s.around number next
    else return .text (ascii "missing " ++ Bytes.join "," missing) 400
  | .setParam name value => do
    modify fun x => { x with context.params := x.context.params.insert name value }
    s.around number next
  | _ => s.around number next

def create (s : MiddlewareScript) : Action Journal (Option (MiddlewareInstance Journal)) := do
  modify fun w => { w with state.instances := w.state.instances ++ [s.ident] }
  let number := (← get).state.instances.count s.ident
  record (.created (s.tag number))
  match s.behaviour with
  | .failCreate f => throw f
  | _ => return some {
      init := do
        record (.initialised (s.tag number))
        match s.behaviour with
        | .failInit f => throw f
        | _ => return s.run number }

def middleware (s : MiddlewareScript) : Middleware Journal where
  ident := s.ident
  name := s.name
  factory :=
    match s.behaviour with
    | .missingFactory => none
    | .noInstance => some (return none)
    | _ => some s.create

end MiddlewareScript

end HttpRouting.Scripted
