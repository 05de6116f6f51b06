import HttpRouting.Log.Buffer

namespace HttpRouting

inductive Overflow
  | block | discardOldest | discardNewest
deriving DecidableEq, Repr

structure LogSettings where
  level : LogLevel := .info
  forceFlush : Bool := false
  async : Bool := true
  bufferSize : Nat := 16384
  overflow : Overflow := .discardOldest
deriving DecidableEq, Repr

/-- `buffer` is there while a writer runs; `written` is what has been written so far. -/
structure Logger where
  level : LogLevel := .none
  forceFlush : Bool := false
  bufferSize : Nat := 16384
  overflow : Overflow := .discardOldest
  buffer : Option LogBuffer := none
  written : List LogMessage := []
deriving DecidableEq, Repr

namespace Logger

def batchSize : Nat := 256

def enabled (l : Logger) (level : LogLevel) : Bool :=
  l.level != .none && l.level.code ≤ level.code

def write (l : Logger) (messages : List LogMessage) : Logger :=
  { l with written := l.written ++ messages }

def writeBatch (l : Logger) : Logger :=
  match l.buffer with
  | none => l
  | some b => { l with buffer := some (b.take batchSize).2 }.write (b.take batchSize).1

def start (l : Logger) : Logger :=
  if l.buffer.isSome then l else { l with buffer := some { capacity := l.bufferSize } }

def stop (l : Logger) : Logger :=
  match l.buffer with
  | none => l
  | some b => { l with buffer := none }.write b.pending

def init (l : Logger) (s : LogSettings) : Logger :=
  let l := { l with
    level := s.level, forceFlush := s.forceFlush, bufferSize := s.bufferSize
    overflow := s.overflow }
  if s.async then l.start else l

def overflowed (l : Logger) (b : LogBuffer) (m : LogMessage) : Logger :=
  match l.overflow with
  | .block =>
    let l := l.writeBatch
    { l with buffer := (b.take batchSize).2.push? m <|> some (b.take batchSize).2 }
  | .discardOldest =>
    match b.pop? with
    | none => l
    | some (_, rest) => { l with buffer := rest.push? m <|> some rest }
  | .discardNewest => l

def logMessage (l : Logger) (m : LogMessage) : Logger :=
  if l.enabled m.level then
    match l.buffer with
    | none => l.write [m]
    | some b =>
      match b.push? m with
      | some b => { l with buffer := some b }
      | none => l.overflowed b m
  else l

def log (l : Logger) (level : LogLevel) (text : Bytes) : Logger := l.logMessage ⟨level, text⟩

def forceLog (l : Logger) (level : LogLevel) (text : Bytes) : Logger := l.write [⟨level, text⟩]

end Logger

end HttpRouting
