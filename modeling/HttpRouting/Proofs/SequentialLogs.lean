import HttpRouting.Proofs.LogSessions

/-!
The log writer beside the program. Main statement: whichever turns the two take, once the program
has stopped the writer the messages that were let through have been written, each once and in the
order in which they were logged, as long as none of them has found the buffer full. The logger is
then the one that the same calls leave when they are made one after the other.
-/

namespace HttpRouting

namespace Logger

def perform (l : Logger) : LogCall → Logger
  | .init settings => l.init settings
  | .start => l.start
  | .log level text => l.log level text
  | .stop => l.stop

def performAll (l : Logger) (calls : List LogCall) : Logger := calls.foldl perform l

def admits (l : Logger) : LogCall → Bool
  | .log level _ => l.enabled level
  | _ => false

def full (l : Logger) : Bool := l.buffer.any fun b => b.capacity ≤ b.size

def Roomy (l : Logger) : List LogCall → Prop
  | [] => True
  | c :: calls => (l.admits c = true → l.full = false) ∧ Roomy (l.perform c) calls

instance : ∀ (l : Logger) (calls : List LogCall), Decidable (l.Roomy calls)
  | _, [] => .isTrue trivial
  | l, c :: calls =>
    have := instDecidableRoomy (l.perform c) calls
    inferInstanceAs (Decidable (_ ∧ _))

variable {l : Logger}

theorem Roomy.left {calls more : List LogCall} (h : l.Roomy (calls ++ more)) : l.Roomy calls := by
  induction calls generalizing l with
  | nil => trivial
  | cons c calls ih => exact ⟨h.1, ih h.2⟩

theorem buffer_stop (l : Logger) : l.stop.buffer = none := by
  cases buffer : l.buffer with
  | none => rw [stop_of_none buffer, buffer]
  | some b => rw [stop_of_some buffer]

theorem size_lt_of_full {b : LogBuffer} (buffered : l.buffer = some b) (room : l.full = false) :
    b.size < b.capacity := by
  simpa [full, buffered] using room

theorem stop_start (l : Logger) : l.start.stop = l.stop := by
  cases buffer : l.buffer with
  | none =>
    have same : { l with buffer := none } = l := by rw [← buffer]
    simpa [start_of_none, stop_of_some, stop_of_none, buffer] using same
  | some b => rw [start_of_some buffer]

theorem stop_logMessage {m : LogMessage} (room : l.enabled m.level = true → l.full = false) :
    (l.logMessage m).stop = l.stop.logMessage m := by
  have same : l.stop.enabled m.level = l.enabled m.level := by
    cases buffer : l.buffer with
    | none => rw [stop_of_none buffer]
    | some b => rw [stop_of_some buffer]; rfl
  by_cases enabled : l.enabled m.level = true
  · rw [logMessage_of_none l.buffer_stop (same.trans enabled)]
    cases buffer : l.buffer with
    | none =>
      rw [logMessage_of_none buffer enabled, stop_of_none buffer]
      exact stop_of_none buffer
    | some b =>
      rw [logMessage_of_lt buffer (size_lt_of_full buffer (room enabled)) enabled,
        stop_of_some buffer, stop_of_some rfl]
      simp [write]
  · rw [logMessage_of_not enabled, logMessage_of_not (by rwa [same])]

theorem init_eq (l : Logger) (settings : LogSettings) :
    l.init settings =
      if settings.async then (l.init { settings with async := false }).start
      else l.init { settings with async := false } := rfl

theorem stop_init (l : Logger) (settings : LogSettings) :
    (l.init settings).stop = l.stop.init { settings with async := false } := by
  have configured : (l.init { settings with async := false }).stop =
      l.stop.init { settings with async := false } := by
    cases buffer : l.buffer with
    | none => rw [stop_of_none buffer]; exact stop_of_none buffer
    | some b => rw [stop_of_some buffer]; exact stop_of_some buffer
  rw [init_eq]
  split
  · exact (stop_start _).trans configured
  · exact configured

theorem stop_perform {c : LogCall} (room : l.admits c = true → l.full = false) :
    (l.perform c).stop = l.stop.direct c := by
  cases c with
  | init settings => exact l.stop_init settings
  | start => exact l.stop_start
  | log level text => exact stop_logMessage room
  | stop => rfl

theorem stop_performAll {calls : List LogCall} (room : l.Roomy calls) :
    (l.performAll calls).stop = l.stop.directAll calls := by
  induction calls generalizing l with
  | nil => rfl
  | cons c calls ih =>
    calc
      ((l.perform c).performAll calls).stop = (l.perform c).stop.directAll calls := ih room.2
      _ = l.stop.directAll (c :: calls) := by
        rw [stop_perform room.1]
        rfl

end Logger

namespace LogSession

structure Behind (s : LogSession) (l : Logger) : Prop where
  phase : s.Phase
  level : s.logger.level = l.level
  bufferSize : s.logger.bufferSize = l.bufferSize
  unbuffered : s.running = false → l.buffer = none
  buffered : s.running = true → ∀ b ∈ s.logger.buffer, ∃ b' ∈ l.buffer,
    b.capacity = b'.capacity ∧ b.size ≤ b'.size

variable {s : LogSession} {l : Logger}

theorem behind_of_running (phase : s.Phase) (running : s.running = true)
    (level : s.logger.level = l.level) (bufferSize : s.logger.bufferSize = l.bufferSize)
    (buffered : ∀ b ∈ s.logger.buffer, ∃ b' ∈ l.buffer,
      b.capacity = b'.capacity ∧ b.size ≤ b'.size) : s.Behind l where
  phase := phase
  level := level
  bufferSize := bufferSize
  unbuffered := fun told => absurd (running.symm.trans told) (by decide)
  buffered := fun _ => buffered

theorem behind_of_told (phase : s.Phase) (told : s.running = false)
    (level : s.logger.level = l.level) (bufferSize : s.logger.bufferSize = l.bufferSize)
    (unbuffered : l.buffer = none) : s.Behind l where
  phase := phase
  level := level
  bufferSize := bufferSize
  unbuffered := fun _ => unbuffered
  buffered := fun running => absurd (told.symm.trans running) (by decide)

theorem Behind.full (h : s.Behind l) (running : s.running = true) (room : l.full = false) :
    s.full = false := by
  cases buffer : s.logger.buffer with
  | none => simp [LogSession.full, buffer]
  | some b =>
    obtain ⟨b', shadow, capacity, size⟩ := h.buffered running b buffer
    have space := Logger.size_lt_of_full shadow room
    simp [LogSession.full, buffer]
    omega

theorem logger_writerTurn (s : LogSession) :
    s.writerTurn.logger = s.logger ∨ (∃ m, s.writerTurn.logger = s.logger.write [m]) ∨
      ∃ b, s.logger.buffer = some b ∧
        s.writerTurn.logger = { s.logger with buffer := some (b.take Logger.batchSize).2 } := by
  rw [LogSession.writerTurn]
  split
  · exact .inl rfl
  · exact .inl rfl
  · exact .inl rfl
  · rename_i b _ buffer
    split
    · exact .inl rfl
    · rename_i taken
      exact .inr (.inr ⟨b, buffer, by rw [taken]⟩)
  · exact .inl rfl
  · exact .inr (.inl ⟨_, rfl⟩)
  · exact .inl rfl
  · exact .inl rfl
  · exact .inl rfl

theorem settings_writerTurn (s : LogSession) :
    s.writerTurn.logger.level = s.logger.level ∧
      s.writerTurn.logger.bufferSize = s.logger.bufferSize := by
  obtain same | ⟨m, same⟩ | ⟨b, -, same⟩ := logger_writerTurn s <;> rw [same] <;> exact ⟨rfl, rfl⟩

theorem buffer_writerTurn (s : LogSession) : ∀ b ∈ s.writerTurn.logger.buffer,
    ∃ b' ∈ s.logger.buffer, b.capacity = b'.capacity ∧ b.size ≤ b'.size := by
  obtain same | ⟨m, same⟩ | ⟨b, buffer, same⟩ := logger_writerTurn s
  · rw [same]
    exact fun b held => ⟨b, held, rfl, Nat.le_refl _⟩
  · rw [same]
    exact fun b held => ⟨b, held, rfl, Nat.le_refl _⟩
  · rw [same]
    rintro _ ⟨⟩
    refine ⟨b, buffer, rfl, ?_⟩
    simp [LogBuffer.take, LogBuffer.size]

theorem Behind.writerTurn (h : s.Behind l) : s.writerTurn.Behind l where
  phase := h.phase.writerTurn
  level := (settings_writerTurn s).1.trans h.level
  bufferSize := (settings_writerTurn s).2.trans h.bufferSize
  unbuffered := running_writerTurn s ▸ h.unbuffered
  buffered := by
    intro running b held
    rw [running_writerTurn] at running
    obtain ⟨b', held', capacity, size⟩ := buffer_writerTurn s b held
    obtain ⟨shadow, shadowed, capacity', size'⟩ := h.buffered running b' held'
    exact ⟨shadow, shadowed, capacity.trans capacity', Nat.le_trans size size'⟩

theorem Behind.launch (h : s.Behind l) (free : s.stage = .free) : s.launch.Behind l.start := by
  obtain ⟨phase, level, bufferSize, unbuffered, buffered⟩ := h
  cases phase with
  | joining => cases free
  | quiet own todo idle =>
    simp only [LogSession.launch, Logger.start_of_none idle,
      Logger.start_of_none (unbuffered rfl)]
    refine behind_of_running (.active todo .waiting rfl (by simp)) rfl level bufferSize ?_
    rintro _ ⟨⟩
    exact ⟨_, rfl, bufferSize, Nat.le_refl 0⟩
  | active todo w held alive =>
    obtain ⟨b', shadow, -⟩ := buffered rfl _ held
    rw [Logger.start_of_some shadow]
    exact behind_of_running (.active todo w held alive) rfl level bufferSize (buffered rfl)

theorem Behind.logMessage (h : s.Behind l) (free : s.stage = .free) {m : LogMessage}
    (room : l.enabled m.level = true → l.full = false) :
    (s.logMessage m).Behind (l.logMessage m) := by
  have same : s.logger.enabled m.level = l.enabled m.level := by
    rw [Logger.enabled, Logger.enabled, h.level]
  rw [logMessage_of_room fun running enabled => h.full running (room (same ▸ enabled))]
  by_cases enabled : l.enabled m.level = true
  · have enabled' := same.trans enabled
    obtain ⟨phase, level, bufferSize, unbuffered, buffered⟩ := h
    cases phase with
    | joining => cases free
    | quiet own todo idle =>
      rw [Logger.logMessage_of_none idle enabled',
        Logger.logMessage_of_none (unbuffered rfl) enabled]
      exact behind_of_told (.quiet _ todo idle) rfl level bufferSize (unbuffered rfl)
    | active todo w held alive =>
      obtain ⟨b', shadow, capacity, size⟩ := buffered rfl _ held
      have space := Logger.size_lt_of_full shadow (room enabled)
      rw [Logger.logMessage_of_lt held (by omega) enabled',
        Logger.logMessage_of_lt shadow space enabled]
      refine behind_of_running (.active todo w rfl alive) rfl level bufferSize ?_
      rintro _ ⟨⟩
      refine ⟨_, rfl, capacity, ?_⟩
      simpa [LogBuffer.size] using size
  · rwa [Logger.logMessage_of_not (by rwa [same]), Logger.logMessage_of_not enabled]

theorem Behind.stop (h : s.Behind l) (free : s.stage = .free) : (s.call .stop).Behind l.stop := by
  obtain ⟨phase, level, bufferSize, unbuffered, buffered⟩ := h
  cases phase with
  | joining => cases free
  | quiet own todo idle =>
    rw [Logger.stop_of_none (unbuffered rfl)]
    exact behind_of_told (.quiet own todo idle) rfl level bufferSize (unbuffered rfl)
  | active todo w held alive =>
    obtain ⟨b', shadow, -⟩ := buffered rfl _ held
    rw [Logger.stop_of_some shadow]
    have phase := Phase.joining todo w held fun ended => absurd ended alive.2
    exact behind_of_told phase rfl level bufferSize rfl

theorem Behind.call (h : s.Behind l) (free : s.stage = .free) {c : LogCall}
    (room : l.admits c = true → l.full = false) : (s.call c).Behind (l.perform c) := by
  cases c with
  | init settings =>
    have configured : Behind { s with logger := s.logger.init { settings with async := false } }
        (l.init { settings with async := false }) :=
      ⟨h.phase.configure settings, rfl, rfl, h.unbuffered, h.buffered⟩
    rw [LogSession.call, Logger.perform, Logger.init_eq l]
    split
    · exact configured.launch free
    · exact configured
  | start => exact h.launch free
  | log level text => exact h.logMessage free room
  | stop => exact h.stop free

theorem Behind.next (h : s.Behind l) (rest : List LogCall) :
    Behind { s with todo := rest } l :=
  ⟨h.phase.next rest, h.level, h.bufferSize, h.unbuffered, h.buffered⟩

theorem Behind.close (h : s.Behind l) (joining : s.stage = .joining) (ended : s.writer = .ended) :
    s.close.Behind l := by
  obtain ⟨phase, level, bufferSize, unbuffered, buffered⟩ := h
  have closed := (phase.close joining ended).1
  cases phase with
  | quiet => cases joining
  | active => cases joining
  | joining todo w held drained =>
    simp only [LogSession.close, held] at closed ⊢
    exact behind_of_told closed rfl level bufferSize (unbuffered rfl)

theorem Behind.space (h : s.Behind l) (room : l.Roomy s.todo) (pushes : s.pushes = true) :
    s.full = false := by
  rw [LogSession.pushes] at pushes
  split at pushes
  · rename_i level text rest _ todo
    rw [todo] at room
    obtain ⟨running, enabled⟩ := Bool.and_eq_true_iff.mp pushes
    rw [Logger.enabled, h.level] at enabled
    exact h.full running (room.1 enabled)
  · cases pushes

theorem Behind.programTurn (h : s.Behind l) (room : l.Roomy s.todo) :
    ∃ l', s.programTurn.Behind l' ∧ l'.Roomy s.programTurn.todo := by
  obtain same | ⟨c, rest, free, todo, same⟩ | ⟨joining, ended, same⟩ := h.phase.programTurn_cases
  · rw [same]
    exact ⟨l, h, room⟩
  · rw [todo] at room
    rw [same, todo_call]
    exact ⟨l.perform c, (h.next rest).call free room.1, room.2⟩
  · rw [same, todo_close]
    exact ⟨l, h.close joining ended, room⟩

theorem Behind.turn (h : s.Behind l) (room : l.Roomy s.todo) (t : LogThread) :
    ∃ l', (s.turn t).Behind l' ∧ l'.Roomy (s.turn t).todo := by
  cases t with
  | program => exact h.programTurn room
  | writer => exact ⟨l, h.writerTurn, (todo_writerTurn s).symm ▸ room⟩

theorem Behind.roomy (h : s.Behind l) (room : l.Roomy s.todo) (schedule : List LogThread) :
    s.Roomy schedule := by
  induction schedule generalizing s l with
  | nil => trivial
  | cons t schedule ih =>
    obtain ⟨l', behind, room'⟩ := h.turn room t
    exact ⟨fun _ => h.space room, ih behind room'⟩

theorem roomy_opened (level : LogLevel) (forceFlush : Bool) {calls : List LogCall}
    (room : ({ level, forceFlush } : Logger).Roomy calls) (schedule : List LogThread) :
    (opened level forceFlush calls).Roomy schedule := by
  refine Behind.roomy (l := { level, forceFlush }) ?_ room schedule
  exact behind_of_told (.quiet _ _ rfl) rfl rfl rfl rfl

variable {calls made : List LogCall}

theorem Reached.logger_sequential {level : LogLevel} {forceFlush : Bool}
    (h : Reached { level, forceFlush } calls made s) (free : s.stage = .free)
    (told : s.running = false) (room : ({ level, forceFlush } : Logger).Roomy calls) :
    s.logger = (({ level, forceFlush } : Logger).performAll made).stop := by
  rw [h.logger_eq free told]
  rw [h.split] at room
  exact (Logger.stop_performAll room.left).symm

/-- A stop returns when the writer has had enough turns, and leaves no writer; while there is none,
everything is written. If the calls one after the other find room, they do so beside a writer,
whichever turns the two take, and leave the logger as it is then. -/
theorem written_when_stopped (level : LogLevel) (forceFlush : Bool) (calls : List LogCall)
    {schedule : List LogThread} (room : (opened level forceFlush calls).Roomy schedule) :
    let s := (opened level forceFlush calls).run schedule
    (s.stage = .joining → ∃ turns, ∀ more, turns ≤ more.count .writer →
      ∃ before, before <+: more ++ [.program] ∧ (s.run before).stage = .free ∧
        (s.run before).todo = s.todo) ∧
    (∀ made, calls = made ++ s.todo → s.stage = .free →
      (made.getLast? = some .stop → s.running = false) ∧
      (s.running = false → s.logger.written = admitted level made ∧
        s.logger.written = (({ level, forceFlush } : Logger).directAll made).written)) ∧
    (({ level, forceFlush } : Logger).Roomy calls →
      (∀ turns, (opened level forceFlush calls).Roomy turns) ∧
      ∀ made, calls = made ++ s.todo → s.stage = .free → s.running = false →
        s.logger = (({ level, forceFlush } : Logger).performAll made).stop) := by
  intro s
  obtain ⟨made, reached⟩ := (reached_opened level forceFlush calls).run room
  have only (made' : List LogCall) (split : calls = made' ++ s.todo) : made = made' :=
    List.append_cancel_right (reached.split.symm.trans split)
  refine ⟨fun joining => ?_, fun made' split free => ?_, fun room => ⟨?_, ?_⟩⟩
  · exact ⟨s.remaining, fun more => reached.phase.returns joining⟩
  · obtain rfl := only made' split
    refine ⟨reached.told, fun told => ?_⟩
    have same : s.logger = ({ level, forceFlush } : Logger).directAll made :=
      reached.logger_eq free told
    rw [same]
    exact ⟨Logger.written_directAll rfl _, rfl⟩
  · exact roomy_opened level forceFlush room
  · intro made' split free told
    obtain rfl := only made' split
    exact reached.logger_sequential free told room

def twoWriters : List LogCall :=
  [.init { bufferSize := 3 }, .log .info (ascii "a"), .log .debug (ascii "b"),
    .log .warning (ascii "c"), .init { level := .debug, async := false, bufferSize := 1 },
    .log .debug (ascii "d"), .stop, .log .error (ascii "e"), .start, .log .info (ascii "f")]

def racingStops : List LogThread :=
  [.program, .writer, .program, .writer, .writer] ++ List.replicate 6 .program ++
    List.replicate 12 .writer ++ List.replicate 5 .program ++ List.replicate 9 .writer ++ [.program]

theorem written_when_stopped_racing :
    let s := (opened .none false (twoWriters ++ [.stop])).run racingStops
    s.todo = [] ∧ s.logger.written.map (·.text) =
        [ascii "a", ascii "c", ascii "d", ascii "e", ascii "f"] ∧
      s.logger = (({} : Logger).performAll (twoWriters ++ [.stop])).stop := by
  have room : (opened .none false (twoWriters ++ [.stop])).Roomy racingStops := by decide +kernel
  have finished : ((opened .none false (twoWriters ++ [.stop])).run racingStops).todo = [] ∧
      ((opened .none false (twoWriters ++ [.stop])).run racingStops).stage = .free := by
    decide +kernel
  have let_through : (admitted .none (twoWriters ++ [.stop])).map (·.text) =
      [ascii "a", ascii "c", ascii "d", ascii "e", ascii "f"] := by decide
  obtain ⟨-, stopped, sequential⟩ := written_when_stopped .none false (twoWriters ++ [.stop]) room
  have split : twoWriters ++ [.stop] = (twoWriters ++ [.stop]) ++
      ((opened .none false (twoWriters ++ [.stop])).run racingStops).todo := by
    rw [finished.1, List.append_nil]
  obtain ⟨told, written⟩ := stopped (twoWriters ++ [.stop]) split finished.2
  have quiet := told List.getLast?_concat
  have alone := (sequential (by decide +kernel)).2 _ split finished.2 quiet
  exact ⟨finished.1, by rw [(written quiet).1, let_through], alone⟩

end LogSession

end HttpRouting
