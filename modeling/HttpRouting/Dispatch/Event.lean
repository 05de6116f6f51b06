import HttpRouting.Log.Notice
import HttpRouting.Stage

namespace HttpRouting

structure RequestEvent where
  method : Method
  path : Bytes
  elapsed : Nat
deriving DecidableEq, Repr

/-- Where reports go. A sink changes the world and nothing else: one that fails, and so takes the
place of the response that it is told about, is not a sink here. -/
abbrev Sink (σ : Type) := RequestEvent → World σ → World σ

variable {σ : Type}

def milliseconds (elapsed : Nat) : Bytes :=
  Bytes.ofNat (elapsed / 1000) ++ Byte.dot :: (Bytes.ofNat (1000 + elapsed % 1000)).drop 1

def logSink : Sink σ := fun event w =>
  w.log .info (ascii "[Dispatch] " ++ ascii event.method.name ++ ascii " " ++ event.path ++
    ascii " " ++ milliseconds event.elapsed ++ ascii "ms")

def World.logAll (w : World σ) (notices : List LogMessage) : World σ :=
  { w with logger := w.logger.logAll notices }

end HttpRouting
