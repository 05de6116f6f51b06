import HttpRouting.Log.Session
import HttpRouting.Proofs.Queueing

namespace HttpRouting

namespace Logger

variable {l : Logger}

theorem start_of_none (unbuffered : l.buffer = none) :
    l.start = { l with buffer := some { capacity := l.bufferSize } } := by
  simp [start, unbuffered]

theorem start_of_some {b : LogBuffer} (buffered : l.buffer = some b) : l.start = l := by
  simp [start, buffered]

theorem stop_of_none (unbuffered : l.buffer = none) : l.stop = l := by
  rw [stop, unbuffered]

theorem stop_of_some {b : LogBuffer} (buffered : l.buffer = some b) :
    l.stop = { l with buffer := none, written := l.written ++ b.pending } := by
  rw [stop, buffered]
  rfl

theorem logMessage_of_none (unbuffered : l.buffer = none) {m : LogMessage}
    (enabled : l.enabled m.level = true) : l.logMessage m = l.write [m] := by
  simp [logMessage, enabled, unbuffered]

theorem logMessage_of_lt {b : LogBuffer} (buffered : l.buffer = some b)
    (space : b.size < b.capacity) {m : LogMessage} (enabled : l.enabled m.level = true) :
    l.logMessage m = { l with buffer := some { b with pending := b.pending ++ [m] } } := by
  simp [logMessage, enabled, buffered, LogBuffer.push?_of_lt space]

theorem logMessage_of_not {m : LogMessage} (disabled : ¬l.enabled m.level = true) :
    l.logMessage m = l := if_neg disabled

def direct (l : Logger) : LogCall → Logger
  | .init settings => l.init { settings with async := false }
  | .start => l
  | .log level text => l.log level text
  | .stop => l.stop

def directAll (l : Logger) (calls : List LogCall) : Logger := calls.foldl direct l

end Logger

/-- The messages that are let through, `level` being the one that is set. -/
def admitted (level : LogLevel) : List LogCall → List LogMessage
  | [] => []
  | .init settings :: calls => admitted settings.level calls
  | .log of text :: calls =>
    if ({ level } : Logger).enabled of then ⟨of, text⟩ :: admitted level calls
    else admitted level calls
  | .start :: calls | .stop :: calls => admitted level calls

theorem Logger.written_directAll {l : Logger} (unbuffered : l.buffer = none)
    (calls : List LogCall) :
    (l.directAll calls).written = l.written ++ admitted l.level calls := by
  induction calls generalizing l with
  | nil => simp [directAll, admitted]
  | cons c calls ih =>
    rw [directAll, List.foldl_cons, ← directAll]
    cases c with
    | init settings => exact ih unbuffered
    | start => exact ih unbuffered
    | stop =>
      have same : l.direct .stop = l := stop_of_none unbuffered
      rw [same]
      exact ih unbuffered
    | log level text =>
      have let_through : l.enabled level = ({ level := l.level } : Logger).enabled level := rfl
      rw [admitted, ← let_through]
      by_cases enabled : l.enabled level = true
      · have written : l.direct (.log level text) = l.write [⟨level, text⟩] :=
          logMessage_of_none unbuffered enabled
        rw [written, ih (l := l.write [⟨level, text⟩]) unbuffered, if_pos enabled]
        simp [write]
      · have same : l.direct (.log level text) = l := logMessage_of_not enabled
        rw [same, if_neg enabled]
        exact ih unbuffered

def WriterStage.batch : WriterStage → List LogMessage
  | .writing batch => batch
  | _ => []

namespace LogSession

def pushes (s : LogSession) : Bool :=
  match s.stage, s.todo with
  | .free, .log level _ :: _ => s.running && s.logger.enabled level
  | _, _ => false

def Roomy (s : LogSession) : List LogThread → Prop
  | [] => True
  | t :: schedule => (t = .program → s.pushes = true → s.full = false) ∧ Roomy (s.turn t) schedule

instance : ∀ (s : LogSession) (schedule : List LogThread), Decidable (s.Roomy schedule)
  | _, [] => .isTrue trivial
  | s, t :: schedule =>
    have := instDecidableRoomy (s.turn t) schedule
    inferInstanceAs (Decidable (_ ∧ _))

def backlog (s : LogSession) : List LogMessage :=
  s.writer.batch ++ (s.logger.buffer.map LogBuffer.pending).getD []

/-- The logger, were it to write its backlog at once. -/
def settled (s : LogSession) : Logger :=
  { s.logger with buffer := none, written := s.logger.written ++ s.backlog }

inductive Phase : LogSession → Prop
  | quiet (l : Logger) (todo : List LogCall) (unbuffered : l.buffer = none) :
      Phase ⟨l, todo, .free, false, .ended⟩
  | active {l : Logger} {b : LogBuffer} (todo : List LogCall) (w : WriterStage)
      (buffered : l.buffer = some b) (alive : w ≠ .closing ∧ w ≠ .ended) :
      Phase ⟨l, todo, .free, true, w⟩
  | joining {l : Logger} {b : LogBuffer} (todo : List LogCall) (w : WriterStage)
      (buffered : l.buffer = some b) (drained : w = .ended → b.pending = []) :
      Phase ⟨l, todo, .joining, false, w⟩

variable {s : LogSession}

theorem backlog_of_none (unbuffered : s.logger.buffer = none) : s.backlog = s.writer.batch := by
  simp [backlog, unbuffered]

theorem backlog_of_some {b : LogBuffer} (buffered : s.logger.buffer = some b) :
    s.backlog = s.writer.batch ++ b.pending := by
  simp [backlog, buffered]

theorem writerTurn_empty {b : LogBuffer} (taking : s.writer = .taking)
    (buffered : s.logger.buffer = some b) (empty : b.pending = []) :
    s.writerTurn = { s with writer := .waiting } := by
  simp [writerTurn, taking, buffered, LogBuffer.take, empty]

theorem writerTurn_taking {b : LogBuffer} (taking : s.writer = .taking)
    (buffered : s.logger.buffer = some b) (waiting : b.pending ≠ []) :
    s.writerTurn = { s with
      logger := { s.logger with buffer := some (b.take Logger.batchSize).2 }
      writer := .writing (b.take Logger.batchSize).1 } := by
  obtain ⟨m, rest, pending⟩ := List.exists_cons_of_ne_nil waiting
  simp [writerTurn, taking, buffered, LogBuffer.take, pending, Logger.batchSize]

theorem settled_writerTurn (s : LogSession) : s.writerTurn.settled = s.settled := by
  obtain ⟨l, todo, stage, running, w⟩ := s
  cases w with
  | waiting => rfl
  | woken => cases running <;> rfl
  | closing =>
    cases buffer : l.buffer with
    | none => simp [writerTurn, buffer]
    | some b => by_cases empty : b.pending = [] <;>
        simp [writerTurn, settled, backlog, WriterStage.batch, buffer, empty]
  | taking =>
    cases buffer : l.buffer with
    | none => simp [writerTurn, buffer]
    | some b =>
      by_cases empty : b.pending = []
      · rw [writerTurn_empty rfl buffer empty]
        rfl
      · rw [writerTurn_taking rfl buffer empty]
        simp [settled, backlog_of_some, WriterStage.batch, LogBuffer.take, buffer]
  | writing batch =>
    cases batch with
    | nil => rfl
    | cons m rest => simp [writerTurn, settled, backlog, WriterStage.batch, Logger.write]
  | ended => rfl

theorem Phase.writerTurn (h : s.Phase) : s.writerTurn.Phase := by
  cases h with
  | quiet l todo unbuffered => exact .quiet l todo unbuffered
  | @active l b todo w buffered alive =>
    cases w with
    | waiting => exact .active todo _ buffered (by simp)
    | woken => exact .active todo _ buffered (by simp)
    | closing => exact absurd rfl alive.1
    | ended => exact absurd rfl alive.2
    | taking =>
      by_cases empty : b.pending = []
      · rw [writerTurn_empty rfl buffered empty]
        exact .active todo _ buffered (by simp)
      · rw [writerTurn_taking rfl buffered empty]
        exact .active todo _ rfl (by simp)
    | writing batch => cases batch <;> exact .active todo _ buffered (by simp)
  | @joining l b todo w buffered drained =>
    cases w with
    | waiting => exact .joining todo _ buffered (by simp)
    | woken => exact .joining todo _ buffered (by simp)
    | ended => exact .joining todo _ buffered drained
    | closing =>
      rw [LogSession.writerTurn, buffered]
      refine .joining todo _ buffered ?_
      split <;> simp_all
    | taking =>
      by_cases empty : b.pending = []
      · rw [writerTurn_empty rfl buffered empty]
        exact .joining todo _ buffered (by simp)
      · rw [writerTurn_taking rfl buffered empty]
        exact .joining todo _ rfl (by simp)
    | writing batch => cases batch <;> exact .joining todo _ buffered (by simp)

theorem Phase.launch (h : s.Phase) (free : s.stage = .free) :
    s.launch.Phase ∧ s.launch.settled = s.settled := by
  cases h with
  | joining => cases free
  | active todo w buffered alive => exact ⟨.active todo w buffered alive, rfl⟩
  | quiet l todo unbuffered =>
    simp only [LogSession.launch, Logger.start_of_none unbuffered]
    refine ⟨.active todo .waiting rfl (by simp), ?_⟩
    simp [settled, backlog_of_some, backlog_of_none, unbuffered, WriterStage.batch]

theorem Phase.configure (h : s.Phase) (settings : LogSettings) :
    Phase { s with logger := s.logger.init { settings with async := false } } := by
  cases h with
  | quiet l todo unbuffered => exact .quiet _ todo unbuffered
  | active todo w buffered alive => exact .active todo w buffered alive
  | joining todo w buffered drained => exact .joining todo w buffered drained

theorem logMessage_of_room {m : LogMessage}
    (room : s.running = true → s.logger.enabled m.level = true → s.full = false) :
    s.logMessage m = { s with logger := s.logger.logMessage m } := by
  rw [LogSession.logMessage, if_neg]
  simp only [Bool.and_eq_true, not_and, Bool.not_eq_true, and_imp]
  exact fun enabled running => room running enabled

theorem Phase.logMessage (h : s.Phase) (free : s.stage = .free) {m : LogMessage}
    (room : s.running = true → s.logger.enabled m.level = true → s.full = false) :
    (s.logMessage m).Phase ∧ (s.logMessage m).settled = s.settled.logMessage m := by
  rw [logMessage_of_room room]
  by_cases enabled : s.logger.enabled m.level = true
  · have enabled' : s.settled.enabled m.level = true := enabled
    rw [Logger.logMessage_of_none rfl enabled']
    cases h with
    | joining => cases free
    | quiet l todo unbuffered =>
      rw [Logger.logMessage_of_none unbuffered enabled]
      refine ⟨.quiet _ todo unbuffered, ?_⟩
      simp [settled, backlog_of_none, unbuffered, WriterStage.batch, Logger.write]
    | @active l b todo w buffered alive =>
      have space : b.size < b.capacity := by simpa [full, buffered] using room rfl enabled
      rw [Logger.logMessage_of_lt buffered space enabled]
      refine ⟨.active todo w rfl alive, ?_⟩
      simp [settled, backlog_of_some, buffered, Logger.write]
  · have enabled' : ¬s.settled.enabled m.level = true := enabled
    rw [Logger.logMessage_of_not enabled, Logger.logMessage_of_not enabled']
    exact ⟨h, rfl⟩

theorem Phase.call (h : s.Phase) (free : s.stage = .free) {c : LogCall}
    (room : ∀ level text, c = .log level text → s.running = true →
      s.logger.enabled level = true → s.full = false) :
    (s.call c).Phase ∧ (s.call c).settled = s.settled.direct c := by
  cases c with
  | init settings =>
    have configured := h.configure settings
    rw [LogSession.call]
    split
    · exact configured.launch free
    · exact ⟨configured, rfl⟩
  | start => exact h.launch free
  | log level text => exact h.logMessage free (room level text rfl)
  | stop =>
    cases h with
    | joining => cases free
    | quiet l todo unbuffered => exact ⟨.quiet l todo unbuffered, rfl⟩
    | active todo w buffered alive =>
      exact ⟨.joining todo w buffered fun ended => absurd ended alive.2, rfl⟩

theorem Phase.close (h : s.Phase) (joining : s.stage = .joining) (ended : s.writer = .ended) :
    s.close.Phase ∧ s.close.settled = s.settled := by
  cases h with
  | quiet => cases joining
  | active => cases joining
  | @joining l b todo w buffered drained =>
    subst ended
    have closed : LogSession.close ⟨l, todo, .joining, false, .ended⟩ =
        ⟨{ l with buffer := none }, todo, .free, false, .ended⟩ := by
      simp [LogSession.close, buffered, LogBuffer.take, drained rfl, Logger.write]
    rw [closed]
    refine ⟨.quiet _ todo rfl, ?_⟩
    simp [settled, backlog_of_some, backlog_of_none, buffered, drained rfl]

theorem todo_launch (s : LogSession) : s.launch.todo = s.todo := by
  rw [launch]
  split <;> rfl

theorem todo_call (s : LogSession) (c : LogCall) : (s.call c).todo = s.todo := by
  cases c with
  | init settings =>
    rw [call]
    split
    · exact todo_launch _
    · rfl
  | start => exact s.todo_launch
  | log level text =>
    rw [call, LogSession.logMessage]
    split <;> rfl
  | stop =>
    rw [call]
    split <;> rfl

theorem todo_close (s : LogSession) : s.close.todo = s.todo := by
  rw [close]
  split <;> rfl

theorem todo_writerTurn (s : LogSession) : s.writerTurn.todo = s.todo := by
  rw [writerTurn]
  split <;> try rfl
  split <;> rfl

theorem running_close (s : LogSession) : s.close.running = s.running := by
  rw [close]
  split <;> rfl

theorem running_writerTurn (s : LogSession) : s.writerTurn.running = s.running := by
  rw [writerTurn]
  split <;> try rfl
  split <;> rfl

theorem Phase.next (h : s.Phase) (rest : List LogCall) : Phase { s with todo := rest } := by
  cases h with
  | quiet l todo unbuffered => exact .quiet l rest unbuffered
  | active todo w buffered alive => exact .active rest w buffered alive
  | joining todo w buffered drained => exact .joining rest w buffered drained

theorem Phase.programTurn_cases (h : s.Phase) :
    s.programTurn = s ∨
    (∃ c rest, s.stage = .free ∧ s.todo = c :: rest ∧
      s.programTurn = { s with todo := rest }.call c) ∨
    s.stage = .joining ∧ s.writer = .ended ∧ s.programTurn = s.close := by
  rw [LogSession.programTurn]
  split
  · exact .inl rfl
  · rename_i c rest free todo
    split
    · exact .inl rfl
    · exact .inr (.inl ⟨c, rest, free, todo, rfl⟩)
  · rename_i overflowed
    cases h <;> cases overflowed
  · rename_i retrying
    cases h <;> cases retrying
  · rename_i joining
    split
    · rename_i ended
      exact .inr (.inr ⟨joining, ended, rfl⟩)
    · exact .inl rfl

theorem running_stop (s : LogSession) : (s.call .stop).running = false := by
  cases running : s.running <;> simp [call, running]

structure Reached (l : Logger) (calls made : List LogCall) (s : LogSession) : Prop where
  phase : s.Phase
  split : calls = made ++ s.todo
  settled : s.settled = l.directAll made
  told : made.getLast? = some .stop → s.running = false

variable {l : Logger} {calls made : List LogCall}

theorem Reached.writerTurn (h : Reached l calls made s) : Reached l calls made s.writerTurn where
  phase := h.phase.writerTurn
  split := (todo_writerTurn s).symm ▸ h.split
  settled := (settled_writerTurn s).trans h.settled
  told := (running_writerTurn s).symm ▸ h.told

theorem Reached.programTurn (h : Reached l calls made s) (room : s.pushes = true → s.full = false) :
    ∃ made', Reached l calls made' s.programTurn := by
  obtain same | ⟨c, rest, free, todo, same⟩ | ⟨joining, ended, same⟩ := h.phase.programTurn_cases
  · exact ⟨made, same.symm ▸ h⟩
  · have space (level : LogLevel) (text : Bytes) (logs : c = .log level text)
        (running : s.running = true) (enabled : s.logger.enabled level = true) :
        s.full = false := by
      subst logs
      exact room (by simp [pushes, free, todo, running, enabled])
    obtain ⟨phase, settled⟩ := (h.phase.next rest).call free space
    rw [same]
    refine ⟨made ++ [c], phase, ?_, ?_, ?_⟩
    · rw [todo_call, h.split, todo, List.append_assoc]
      rfl
    · calc
        (call { s with todo := rest } c).settled = s.settled.direct c := settled
        _ = (l.directAll made).direct c := by rw [h.settled]
        _ = l.directAll (made ++ [c]) := by
          rw [Logger.directAll, Logger.directAll, List.foldl_append]
          rfl
    · intro last
      obtain rfl : c = .stop := by simpa using last
      exact running_stop _
  · obtain ⟨phase, settled⟩ := h.phase.close joining ended
    rw [same]
    exact ⟨made, phase, (todo_close s).symm ▸ h.split, settled.trans h.settled,
      (running_close s).symm ▸ h.told⟩

theorem Reached.run {schedule : List LogThread} (h : Reached l calls made s)
    (room : s.Roomy schedule) : ∃ made', Reached l calls made' (s.run schedule) := by
  induction schedule generalizing s made with
  | nil => exact ⟨made, h⟩
  | cons t schedule ih =>
    cases t with
    | program =>
      obtain ⟨made', next⟩ := h.programTurn (room.1 rfl)
      exact ih next room.2
    | writer => exact ih h.writerTurn room.2

theorem reached_opened (level : LogLevel) (forceFlush : Bool) (calls : List LogCall) :
    Reached { level, forceFlush } calls [] (opened level forceFlush calls) where
  phase := .quiet _ _ rfl
  split := rfl
  settled := rfl
  told := by simp

theorem Reached.logger_eq (h : Reached l calls made s) (free : s.stage = .free)
    (told : s.running = false) : s.logger = l.directAll made := by
  rw [← h.settled]
  obtain ⟨phase, -, -, -⟩ := h
  cases phase with
  | active => cases told
  | joining => cases free
  | quiet own todo unbuffered =>
    have same : { own with buffer := none } = own := by rw [← unbuffered]
    simpa [LogSession.settled, backlog_of_none, WriterStage.batch, unbuffered] using same.symm

def remaining (s : LogSession) : Nat :=
  let size := (s.logger.buffer.map LogBuffer.size).getD 0
  match s.writer with
  | .waiting => 6 * size + 3
  | .woken => 6 * size + 2
  | .closing => 6 * size + 1
  | .taking => max 4 (6 * size)
  | .writing batch => 6 * size + 4 + batch.length
  | .ended => 0

theorem remaining_writerTurn (h : s.Phase) (told : s.running = false) :
    s.writerTurn.remaining ≤ s.remaining - 1 := by
  cases h with
  | quiet => exact Nat.le_refl 0
  | active => cases told
  | @joining l b todo w buffered drained =>
    cases w with
    | waiting => simp [writerTurn, remaining]
    | woken => simp [writerTurn, remaining]
    | closing =>
      by_cases empty : b.pending = []
      · simp [writerTurn, remaining, buffered, empty]
      · have size : b.size ≠ 0 := mt List.length_eq_zero_iff.mp empty
        simp [writerTurn, remaining, buffered, empty]
        omega
    | taking =>
      by_cases empty : b.pending = []
      · rw [writerTurn_empty rfl buffered empty]
        simp [remaining, buffered, LogBuffer.size, empty]
      · have size : b.size ≠ 0 := mt List.length_eq_zero_iff.mp empty
        rw [writerTurn_taking rfl buffered empty]
        simp only [remaining, buffered, LogBuffer.take, LogBuffer.size, Option.map_some,
          Option.getD_some, List.length_drop, List.length_take, Logger.batchSize] at size ⊢
        omega
    | writing batch =>
      cases batch with
      | nil => simp [writerTurn, remaining]
      | cons m rest => simp [writerTurn, remaining, Logger.write]
    | ended => exact Nat.le_refl 0

theorem stage_writerTurn (s : LogSession) : s.writerTurn.stage = s.stage := by
  rw [writerTurn]
  split <;> try rfl
  split <;> rfl

theorem returns_at_once (joining : s.stage = .joining) (ended : s.writer = .ended) :
    s.programTurn.stage = .free ∧ s.programTurn.todo = s.todo := by
  have closed : s.programTurn = s.close := by simp [LogSession.programTurn, joining, ended]
  rw [closed, todo_close, close]
  split <;> exact ⟨rfl, rfl⟩

theorem ended_of_remaining (none : s.remaining = 0) : s.writer = .ended := by
  rw [remaining] at none
  cases writer : s.writer <;> simp [writer] at none ⊢

theorem Phase.returns (h : s.Phase) (joining : s.stage = .joining) {more : List LogThread}
    (enough : s.remaining ≤ more.count .writer) :
    ∃ before, before <+: more ++ [.program] ∧ (s.run before).stage = .free ∧
      (s.run before).todo = s.todo := by
  -- The program waits, and each turn of the writer brings the end of the wait nearer.
  induction more generalizing s with
  | nil =>
    have ended := ended_of_remaining (Nat.le_zero.mp enough)
    exact ⟨[.program], List.prefix_rfl, returns_at_once joining ended⟩
  | cons t more ih =>
    cases t with
    | program =>
      by_cases ended : s.writer = .ended
      · exact ⟨[.program], ⟨more ++ [.program], rfl⟩, returns_at_once joining ended⟩
      · have waits : s.programTurn = s := by simp [LogSession.programTurn, joining, ended]
        obtain ⟨before, within, returned⟩ := ih h joining (by simpa using enough)
        refine ⟨.program :: before, List.cons_prefix_cons.mpr ⟨rfl, within⟩, ?_⟩
        rw [LogSession.run, List.foldl_cons, LogSession.turn, waits]
        exact returned
    | writer =>
      have told : s.running = false := by
        cases h with
        | quiet => rfl
        | active => cases joining
        | joining => rfl
      have step := remaining_writerTurn h told
      rw [List.count_cons_self] at enough
      obtain ⟨before, within, free, todo⟩ :=
        ih h.writerTurn ((stage_writerTurn s).trans joining) (by omega)
      exact ⟨.writer :: before, List.cons_prefix_cons.mpr ⟨rfl, within⟩, free,
        todo.trans (todo_writerTurn s)⟩

end LogSession

end HttpRouting
