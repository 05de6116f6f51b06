import HttpRouting.Bytes

namespace HttpRouting

inductive LogLevel
  | debug | info | warning | error | critical | none
deriving DecidableEq, Repr

namespace LogLevel

def code : LogLevel → Int
  | debug => 0 | info => 1 | warning => 2 | error => 3 | critical => 4 | none => -1

def name : LogLevel → String
  | debug => "DEBUG"
  | info => "INFO"
  | warning => "WARNING"
  | error => "ERROR"
  | critical => "CRITICAL"
  | none => "UNKNOWN"

end LogLevel

structure LogMessage where
  level : LogLevel
  text : Bytes
deriving DecidableEq, Repr

def LogMessage.line (m : LogMessage) : Bytes := ascii m.level.name ++ ascii " - " ++ m.text

structure LogBuffer where
  capacity : Nat := 4096
  pending : List LogMessage := []
deriving DecidableEq, Repr

namespace LogBuffer

def size (b : LogBuffer) : Nat := b.pending.length

def push? (b : LogBuffer) (m : LogMessage) : Option LogBuffer :=
  if b.size < b.capacity then some { b with pending := b.pending ++ [m] } else none

def pop? (b : LogBuffer) : Option (LogMessage × LogBuffer) :=
  match b.pending with
  | [] => none
  | m :: rest => some (m, { b with pending := rest })

def take (b : LogBuffer) (n : Nat) : List LogMessage × LogBuffer :=
  (b.pending.take n, { b with pending := b.pending.drop n })

end LogBuffer

end HttpRouting
