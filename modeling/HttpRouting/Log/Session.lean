import HttpRouting.Log.Logger

/-!
A program and the writer of its log, side by side. Each goes on by one step when it has its turn,
and whose turn it is is not determined. A thread that has to wait stays where it is.
-/

namespace HttpRouting

inductive LogCall
  | init (settings : LogSettings)
  | start
  | log (level : LogLevel) (text : Bytes)
  | stop
deriving DecidableEq, Repr

inductive LogStage
  | free
  | overflowed (m : LogMessage)
  | retrying (m : LogMessage)
  | joining
deriving DecidableEq, Repr

/-- Where the writer is. It may wake at any time, as it waits for a limited time only. `ended` also
stands for no writer. -/
inductive WriterStage
  | waiting
  | woken
  | closing
  | taking
  | writing (batch : List LogMessage)
  | ended
deriving DecidableEq, Repr

inductive LogThread
  | program
  | writer
deriving DecidableEq, Repr

structure LogSession where
  logger : Logger
  todo : List LogCall
  stage : LogStage := .free
  running : Bool := false
  writer : WriterStage := .ended
deriving DecidableEq, Repr

namespace LogSession

def opened (level : LogLevel) (forceFlush : Bool) (calls : List LogCall) : LogSession where
  logger := { level, forceFlush }
  todo := calls

def locked (s : LogSession) : Bool := s.writer = .woken || s.writer = .closing

def full (s : LogSession) : Bool := s.logger.buffer.any fun b => b.capacity ≤ b.size

def launch (s : LogSession) : LogSession :=
  if s.running then s else { s with logger := s.logger.start, running := true, writer := .waiting }

def logMessage (s : LogSession) (m : LogMessage) : LogSession :=
  if s.logger.enabled m.level && s.running && s.full then { s with stage := .overflowed m }
  else { s with logger := s.logger.logMessage m }

def call (s : LogSession) : LogCall → LogSession
  | .init settings =>
    let s := { s with logger := s.logger.init { settings with async := false } }
    if settings.async then s.launch else s
  | .start => s.launch
  | .log level text => s.logMessage ⟨level, text⟩
  | .stop => if s.running then { s with running := false, stage := .joining } else s

def retry (s : LogSession) (m : LogMessage) : LogSession :=
  { s with
    logger := { s.logger with buffer := s.logger.buffer.map fun b => (b.push? m).getD b }
    stage := .free }

def overflow (s : LogSession) (m : LogMessage) : LogSession :=
  match s.logger.overflow with
  | .block =>
    if s.locked || s.running && s.logger.buffer.any fun b => s.logger.bufferSize ≤ b.size then s
    else if s.running then s.retry m
    else { s with stage := .free }
  | .discardOldest =>
    match s.logger.buffer.bind LogBuffer.pop? with
    | none => { s with stage := .free }
    | some (_, b) => { s with logger := { s.logger with buffer := some b }, stage := .retrying m }
  | .discardNewest => { s with stage := .free }

def close (s : LogSession) : LogSession :=
  match s.logger.buffer with
  | none => { s with stage := .free }
  | some b =>
    { s with
      logger := { s.logger with buffer := none }.write (b.take s.logger.bufferSize).1
      stage := .free }

def programTurn (s : LogSession) : LogSession :=
  match s.stage, s.todo with
  | .free, [] => s
  | .free, c :: rest =>
    if c = .stop && s.running && s.locked then s else { s with todo := rest }.call c
  | .overflowed m, _ => s.overflow m
  | .retrying m, _ => s.retry m
  | .joining, _ => if s.writer = .ended then s.close else s

def writerTurn (s : LogSession) : LogSession :=
  match s.writer, s.logger.buffer with
  | .waiting, _ => { s with writer := .woken }
  | .woken, _ => { s with writer := if s.running then .taking else .closing }
  | .closing, some b => { s with writer := if b.pending = [] then .ended else .taking }
  | .taking, some b =>
    match b.take Logger.batchSize with
    | ([], _) => { s with writer := .waiting }
    | (batch, b) =>
      { s with logger := { s.logger with buffer := some b }, writer := .writing batch }
  | .writing [], _ => { s with writer := .waiting }
  | .writing (m :: rest), _ => { s with logger := s.logger.write [m], writer := .writing rest }
  | .closing, none | .taking, none | .ended, _ => s

def turn (s : LogSession) : LogThread → LogSession
  | .program => s.programTurn
  | .writer => s.writerTurn

def run (s : LogSession) (schedule : List LogThread) : LogSession := schedule.foldl turn s

end LogSession

end HttpRouting
