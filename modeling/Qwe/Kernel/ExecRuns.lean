import Qwe.Kernel.Exec

/-!
# What a command is given and what is got from it

Over every run of `Exec.machine`: the parent and the command never wait for each other, and
where the parent's calls do what they can nothing that the command writes is lost.
-/

set_option autoImplicit false

namespace Qwe.Kernel

open Qwe.Redact (Bytes)

namespace Exec

/-! ## What holds of every run -/

/-- What was fed is the beginning of the input, what was collected is what was read, each end
is the pipe's, and what `poll` reported stays so. -/
structure Sound (s : Exec) : Prop where
  fed : (s.pipes .stdin).sent = s.input.take s.inOff
  inputEnd : (s.pipes .stdin).writable = s.ends .stdin
  outputEnd : ∀ c, c ≠ .stdin → (s.pipes c).readable = s.ends c
  kept : s.failed = false → ∀ c, c ≠ .stdin → s.buf c = (s.pipes c).taken
  nodup : ∀ todo, s.phase = .loop todo → todo.Nodup
  todo : ∀ todo, s.phase = .loop todo → ∀ c ∈ todo,
    s.ends c = true ∧ (c ≠ .stdin → (s.pipes c).ReadProceeds)
  closed : (∀ todo, s.phase ≠ .loop todo) → ∀ c, s.ends c = false
  returned : ∀ r, s.phase = .done r → ∃ status, r = s.result status

section Operations
variable {s : Exec} {c d : Channel} {p : Pipe UInt8} {todo : List Channel}

@[simp] theorem withPipe_self : (s.withPipe c p).pipes c = p := Function.update_self ..

@[simp] theorem withPipe_other (other : d ≠ c) : (s.withPipe c p).pipes d = s.pipes d :=
  Function.update_of_ne other ..

@[simp] theorem endClose_ends : (s.endClose c).ends c = false := Function.update_self ..

@[simp] theorem endClose_ends_other (other : d ≠ c) : (s.endClose c).ends d = s.ends d :=
  Function.update_of_ne other ..

@[simp] theorem endClose_pipe_other (other : d ≠ c) : (s.endClose c).pipes d = s.pipes d :=
  Function.update_of_ne other ..

theorem endClose_stdin : (s.endClose .stdin).pipes .stdin = (s.pipes .stdin).dropWriter := by
  simp only [endClose, Function.update_self, if_true]

theorem endClose_output (output : c ≠ .stdin) : (s.endClose c).pipes c = (s.pipes c).dropReader := by
  simp only [endClose, Function.update_self, if_neg output]

/-- What the parent's pipes hold does not change when an end is closed. -/
theorem endClose_pipe (s : Exec) (c d : Channel) :
    ((s.endClose c).pipes d).taken = (s.pipes d).taken ∧
      ((s.endClose c).pipes d).held = (s.pipes d).held := by
  by_cases same : d = c
  · obtain rfl := same
    by_cases input : d = .stdin
    · obtain rfl := input
      rw [endClose_stdin]
      exact ⟨rfl, rfl⟩
    · rw [endClose_output input]
      exact ⟨rfl, rfl⟩
  · rw [endClose_pipe_other same]
    exact ⟨rfl, rfl⟩

theorem leave_ends (s : Exec) (c : Channel) : s.leave.ends c = false := by
  cases c <;> rfl

/-- The sides that the parent does not close. -/
theorem endClose_sides (s : Exec) (c d : Channel) :
    (d = .stdin → ((s.endClose c).pipes d).readable = (s.pipes d).readable) ∧
      (d ≠ .stdin → ((s.endClose c).pipes d).writable = (s.pipes d).writable) := by
  by_cases same : d = c
  · obtain rfl := same
    by_cases input : d = .stdin
    · obtain rfl := input
      rw [endClose_stdin]
      exact ⟨fun _ => rfl, fun no => absurd rfl no⟩
    · rw [endClose_output input]
      exact ⟨fun yes => absurd yes input, fun _ => rfl⟩
  · rw [endClose_pipe_other same]
    exact ⟨fun _ => rfl, fun _ => rfl⟩

theorem leave_pipe (s : Exec) (c : Channel) :
    (s.leave.pipes c).taken = (s.pipes c).taken ∧ (s.leave.pipes c).held = (s.pipes c).held ∧
      (c = .stdin → (s.leave.pipes c).readable = (s.pipes c).readable ∧
        (s.leave.pipes c).writable = false) ∧
      (c ≠ .stdin → (s.leave.pipes c).writable = (s.pipes c).writable ∧
        (s.leave.pipes c).readable = false) := by
  cases c
  · exact ⟨rfl, rfl, fun _ => ⟨rfl, rfl⟩, fun no => absurd rfl no⟩
  · exact ⟨rfl, rfl, fun no => absurd no (by decide), fun _ => ⟨rfl, rfl⟩⟩
  · exact ⟨rfl, rfl, fun no => absurd no (by decide), fun _ => ⟨rfl, rfl⟩⟩

/-- The command's side of a pipe moves. -/
theorem Sound.withPipe (sound : s.Sound)
    (input : c = .stdin → p.sent = (s.pipes c).sent ∧ p.writable = (s.pipes c).writable)
    (output : c ≠ .stdin → p.readable = (s.pipes c).readable ∧ p.taken = (s.pipes c).taken ∧
      ((s.pipes c).ReadProceeds → p.ReadProceeds)) : (s.withPipe c p).Sound where
  fed := by
    by_cases same : c = .stdin
    · obtain rfl := same
      rw [withPipe_self, (input rfl).1]
      exact sound.fed
    · rw [withPipe_other (Ne.symm same)]
      exact sound.fed
  inputEnd := by
    by_cases same : c = .stdin
    · obtain rfl := same
      rw [withPipe_self, (input rfl).2]
      exact sound.inputEnd
    · rw [withPipe_other (Ne.symm same)]
      exact sound.inputEnd
  outputEnd := by
    intro d isOutput
    by_cases same : d = c
    · obtain rfl := same
      rw [withPipe_self, (output isOutput).1]
      exact sound.outputEnd d isOutput
    · rw [withPipe_other same]
      exact sound.outputEnd d isOutput
  kept := by
    intro good d isOutput
    by_cases same : d = c
    · obtain rfl := same
      rw [withPipe_self, (output isOutput).2.1]
      exact sound.kept good d isOutput
    · rw [withPipe_other same]
      exact sound.kept good d isOutput
  nodup := sound.nodup
  todo := by
    intro todo serving d listed
    refine ⟨(sound.todo todo serving d listed).1, fun isOutput => ?_⟩
    have proceeds := (sound.todo todo serving d listed).2 isOutput
    by_cases same : d = c
    · obtain rfl := same
      rw [withPipe_self]
      exact (output isOutput).2.2 proceeds
    · rwa [withPipe_other same]
  closed := sound.closed
  returned := sound.returned

/-- The inner loop has served a descriptor. -/
theorem Sound.next (sound : s.Sound) (serving : s.phase = .loop (c :: todo)) :
    (s.next todo).Sound :=
  { sound with
    nodup := fun later same => by
      obtain rfl := ExecPhase.loop.inj same
      exact (List.nodup_cons.mp (sound.nodup _ serving)).2
    todo := fun later same d listed => by
      obtain rfl := ExecPhase.loop.inj same
      exact sound.todo _ serving d (List.mem_cons_of_mem c listed)
    closed := fun notLoop => absurd rfl (notLoop todo)
    returned := fun _ done => ExecPhase.noConfusion done }

/-- An end that is not waited for is closed. -/
theorem Sound.endClose (sound : s.Sound) (inLoop : s.phase = .loop todo) (served : c ∉ todo) :
    (s.endClose c).Sound where
  fed := by
    have same := endClose_pipe s c .stdin
    rw [Pipe.sent, same.1, same.2]
    exact sound.fed
  inputEnd := by
    by_cases same : c = .stdin
    · obtain rfl := same
      rw [endClose_stdin, endClose_ends]
      rfl
    · rw [endClose_pipe_other (Ne.symm same), endClose_ends_other (Ne.symm same)]
      exact sound.inputEnd
  outputEnd := by
    intro d output
    by_cases same : d = c
    · obtain rfl := same
      rw [endClose_output output, endClose_ends]
      rfl
    · rw [endClose_pipe_other same, endClose_ends_other same]
      exact sound.outputEnd d output
  kept := fun good d output => (sound.kept good d output).trans (endClose_pipe s c d).1.symm
  nodup := sound.nodup
  todo := by
    intro later same d listed
    have old := sound.todo later same d listed
    obtain rfl := ExecPhase.loop.inj (inLoop.symm.trans same)
    have other : d ≠ c := fun equal => served (equal ▸ listed)
    rwa [endClose_ends_other other, endClose_pipe_other other]
  closed := fun notLoop => absurd inLoop (notLoop todo)
  returned := fun r done => ExecPhase.noConfusion (inLoop.symm.trans done)

theorem Sound.leave (sound : s.Sound) : s.leave.Sound where
  fed := by
    obtain ⟨taken, held, -, -⟩ := leave_pipe s .stdin
    rw [Pipe.sent, taken, held]
    exact sound.fed
  inputEnd := by
    rw [leave_ends]
    exact ((leave_pipe s .stdin).2.2.1 rfl).2
  outputEnd := by
    intro c output
    rw [leave_ends]
    exact ((leave_pipe s c).2.2.2 output).2
  kept := fun good c output => (sound.kept good c output).trans (leave_pipe s c).1.symm
  nodup := fun todo inLoop => ExecPhase.noConfusion inLoop
  todo := fun todo inLoop => ExecPhase.noConfusion inLoop
  closed := fun _ c => leave_ends s c
  returned := fun r done => ExecPhase.noConfusion done

theorem sent_fed (sound : s.Sound) {n : Nat} (fits : n ≤ (s.pipes .stdin).room) :
    ((s.pipes .stdin).write ((s.input.drop s.inOff).take n)).sent =
      s.input.take (s.inOff + n) := by
  rw [Pipe.sent_write (Nat.le_trans (List.length_take_le n _) fits), sound.fed, List.take_add]

/-- The fed bytes are in the pipe. -/
theorem Sound.fedInput (sound : s.Sound) {n : Nat} (fits : n ≤ (s.pipes .stdin).room) :
    ({ s.withPipe .stdin ((s.pipes .stdin).write ((s.input.drop s.inOff).take n)) with
      inOff := s.inOff + n } : Exec).Sound where
  fed := by
    dsimp only
    rw [withPipe_self, sent_fed sound fits]
    rfl
  inputEnd := by
    dsimp only
    rw [withPipe_self]
    exact sound.inputEnd
  outputEnd := fun c output => by
    dsimp only
    rw [withPipe_other output]
    exact sound.outputEnd c output
  kept := fun good c output => by
    dsimp only
    rw [withPipe_other output]
    exact sound.kept good c output
  nodup := sound.nodup
  todo := fun todo inLoop c listed => by
    refine ⟨(sound.todo todo inLoop c listed).1, fun output => ?_⟩
    dsimp only
    rw [withPipe_other output]
    exact (sound.todo todo inLoop c listed).2 output
  closed := sound.closed
  returned := sound.returned

/-- What is read from an output is kept, or the memory for it is gone. -/
theorem Sound.collect (sound : s.Sound) (inLoop : s.phase = .loop todo) (served : c ∉ todo)
    (output : c ≠ .stdin) (n : Nat) (buf : Channel → Bytes) (failed : Bool)
    (keeps : failed = false → s.failed = false ∧
      buf = Function.update s.buf c (s.buf c ++ (s.pipes c).held.take n)) :
    ({ s.withPipe c ((s.pipes c).read n) with buf, failed } : Exec).Sound where
  fed := by
    dsimp only
    rw [withPipe_other (Ne.symm output)]
    exact sound.fed
  inputEnd := by
    dsimp only
    rw [withPipe_other (Ne.symm output)]
    exact sound.inputEnd
  outputEnd := by
    intro d isOutput
    dsimp only
    by_cases same : d = c
    · obtain rfl := same
      rw [withPipe_self]
      exact sound.outputEnd d isOutput
    · rw [withPipe_other same]
      exact sound.outputEnd d isOutput
  kept := by
    intro good d isOutput
    obtain ⟨was, grown⟩ := keeps good
    dsimp only
    rw [grown]
    by_cases same : d = c
    · obtain rfl := same
      rw [withPipe_self, Function.update_self, sound.kept was d isOutput]
      rfl
    · rw [withPipe_other same, Function.update_of_ne same]
      exact sound.kept was d isOutput
  nodup := sound.nodup
  todo := by
    intro later same d listed
    obtain rfl := ExecPhase.loop.inj (inLoop.symm.trans same)
    have other : d ≠ c := fun equal => served (equal ▸ listed)
    dsimp only
    rw [withPipe_other other]
    exact sound.todo todo inLoop d listed
  closed := fun notLoop => absurd inLoop (notLoop todo)
  returned := fun r done => ExecPhase.noConfusion (inLoop.symm.trans done)

theorem spawned_sound (capacity : Nat) (roomy : 0 < capacity) (input : Bytes)
    (timeoutMs : Option Nat) : (spawned capacity roomy input timeoutMs).Sound := by
  have start : Exec.Sound
      { input, timeoutMs, elapsed := 0, pipes := fun _ => .fresh capacity roomy
        ends := fun _ => true, buf := fun _ => [], inOff := 0, failed := false
        timedOut := false, phase := .loop [] } :=
    { fed := rfl
      inputEnd := rfl
      outputEnd := fun _ _ => rfl
      kept := fun _ _ _ => rfl
      nodup := fun todo same => by
        obtain rfl := ExecPhase.loop.inj same
        exact List.nodup_nil
      todo := fun todo same c listed => by
        obtain rfl := ExecPhase.loop.inj same
        exact absurd listed List.not_mem_nil
      closed := fun notLoop => absurd rfl (notLoop [])
      returned := fun r done => ExecPhase.noConfusion done }
  rw [spawned]
  split_ifs
  · exact start.endClose rfl List.not_mem_nil
  · exact start

/-- The step lemma. -/
theorem Sound.step {s' : Exec} {event : ExecEvent} (sound : s.Sound)
    (moved : s.step event = some s') : s'.Sound := by
  have served : ∀ {c todo}, s.phase = .loop (c :: todo) → c ∉ todo := fun serving =>
    (List.nodup_cons.mp (sound.nodup _ serving)).1
  cases moves_of_step moved with
  | consumed n =>
      exact sound.withPipe (fun _ => ⟨Pipe.sent_read n, rfl⟩) fun no => absurd rfl no
  | written c data output fits readable writable =>
      refine sound.withPipe (fun yes => absurd yes output) fun _ => ⟨rfl, rfl, ?_⟩
      intro proceeds
      rcases proceeds with some_ | ended
      · exact Or.inl fun none_ => some_ (List.append_eq_nil_iff.mp none_).1
      · exact Or.inr ended
  | droppedInput => exact sound.withPipe (fun _ => ⟨rfl, rfl⟩) fun no => absurd rfl no
  | droppedOutput c output =>
      exact sound.withPipe (fun yes => absurd yes output) fun _ => ⟨rfl, rfl, fun _ => Or.inr rfl⟩
  | passed ms => exact { sound with returned := sound.returned }
  | stayed head => exact sound
  | left head r why => exact sound.leave
  | ranOut head r =>
      have late : Exec.Sound { s with timedOut := true } :=
        { sound with returned := fun r done => ExecPhase.noConfusion (head.symm.trans done) }
      exact late.leave
  | polled head ready events nodup able =>
      refine { sound with nodup := ?_, todo := ?_, closed := ?_, returned := ?_ }
      · intro later same
        obtain rfl := ExecPhase.loop.inj same
        exact nodup
      · intro later same c listed
        obtain rfl := ExecPhase.loop.inj same
        refine ⟨(able c listed).1, fun output => ?_⟩
        have proceeds := (able c listed).2
        cases c with
        | stdin => exact absurd rfl output
        | stdout => exact proceeds
        | stderr => exact proceeds
      · exact fun notLoop => absurd rfl (notLoop events)
      · exact fun r done => ExecPhase.noConfusion done
  | again c todo serving => exact sound.next serving
  | closed c todo serving r why => exact (sound.next serving).endClose rfl (served serving)
  | fed todo serving n memory fits more => exact (sound.next serving).fedInput fits
  | fedAll todo serving n memory fits all =>
      exact ((sound.next serving).fedInput fits).endClose rfl (served serving)
  | kept c todo serving output n =>
      exact (sound.next serving).collect rfl (served serving) output n _ _ fun good => ⟨good, rfl⟩
  | lost c todo serving output n =>
      exact (sound.next serving).collect rfl (served serving) output n _ _ fun bad =>
        absurd bad (by decide)
  | running reaping timedOut older =>
      exact { sound with returned := fun r done => ExecPhase.noConfusion (reaping.symm.trans done) }
  | reaped reaping status =>
      refine { sound with nodup := ?_, todo := ?_, closed := ?_, returned := ?_ }
      · exact fun todo inLoop => ExecPhase.noConfusion inLoop
      · exact fun todo inLoop => ExecPhase.noConfusion inLoop
      · exact fun _ => sound.closed fun todo inLoop =>
          ExecPhase.noConfusion (reaping.symm.trans inLoop)
      · exact fun r done => ⟨status, (ExecPhase.done.inj done).symm⟩

end Operations

section Runs
variable {capacity : Nat} {roomy : 0 < capacity} {input : Bytes} {timeoutMs : Option Nat}
  {allowed : Exec → ExecEvent → Prop} {s : Exec}

theorem reachable_sound
    (reachable : (machine capacity roomy input timeoutMs).Reachable allowed s) : s.Sound :=
  reachable.invariant (spawned_sound capacity roomy input timeoutMs) fun _ _ _ sound _ moved =>
    sound.step moved

/-- The command would wait for one of its standard streams. -/
def CommandWaits (s : Exec) : Prop :=
  ¬(s.pipes .stdin).ReadProceeds ∨ ¬(s.pipes .stdout).WriteProceeds ∨
    ¬(s.pipes .stderr).WriteProceeds

/-- The parent waits: in `poll` on ends none of which must have an event, or for the command. -/
def ParentWaits (s : Exec) : Prop :=
  s.phase = .loop [] ∧ (∃ c, s.ends c = true) ∧ (∀ c, s.ends c = true → ¬s.Ready c) ∨
    s.phase = .reaping

/-- The two never wait for each other: where the parent waits, a command that reads or writes
its standard streams goes on, whichever it does; and no `read` of the parent waits. -/
theorem exec_never_deadlocks (capacity : Nat) (roomy : 0 < capacity) (input : Bytes)
    (timeoutMs : Option Nat) (s : Exec)
    (reachable : (machine capacity roomy input timeoutMs).Reachable Machine.Any s) :
    ¬(s.ParentWaits ∧ s.CommandWaits) ∧
      ∀ c todo, s.phase = .loop (c :: todo) → c ≠ .stdin → (s.pipes c).ReadProceeds := by
  have sound := reachable_sound reachable
  refine ⟨fun ⟨parent, command⟩ => ?_, fun c todo serving =>
    (sound.todo _ serving c List.mem_cons_self).2⟩
  -- an end the parent waits for: its pipe holds nothing to read, or something to be read
  have input : s.ends .stdin = true → ¬s.Ready .stdin → (s.pipes .stdin).ReadProceeds := by
    intro _ blocked
    refine Or.inl fun empty => blocked (Or.inl empty)
  have output : ∀ c, c ≠ .stdin → s.ends c = true → ¬s.Ready c → (s.pipes c).WriteProceeds := by
    intro c isOutput _ blocked
    rcases (s.pipes c).proceeds with free | some_
    · exact free
    · refine absurd ?_ blocked
      cases c with
      | stdin => exact absurd rfl isOutput
      | stdout => exact Or.inl some_
      | stderr => exact Or.inl some_
  -- a closed end lets the command go on with a failure or an end of file
  have closedInput : s.ends .stdin = false → (s.pipes .stdin).ReadProceeds := fun closed =>
    Or.inr (sound.inputEnd.trans closed)
  have closedOutput : ∀ c, c ≠ .stdin → s.ends c = false → (s.pipes c).WriteProceeds :=
    fun c isOutput closed => Or.inr ((sound.outputEnd c isOutput).trans closed)
  have free : (∀ c, s.ends c = true → ¬s.Ready c) → False := by
    intro blocked
    rcases command with waits | waits | waits
    · rcases isOpen : s.ends .stdin
      · exact waits (closedInput isOpen)
      · exact waits (input isOpen (blocked _ isOpen))
    · rcases isOpen : s.ends .stdout
      · exact waits (closedOutput _ (by decide) isOpen)
      · exact waits (output _ (by decide) isOpen (blocked _ isOpen))
    · rcases isOpen : s.ends .stderr
      · exact waits (closedOutput _ (by decide) isOpen)
      · exact waits (output _ (by decide) isOpen (blocked _ isOpen))
  rcases parent with ⟨-, -, blocked⟩ | reaping
  · exact free blocked
  · refine free fun c isOpen => ?_
    have closed := sound.closed (fun todo inLoop =>
      ExecPhase.noConfusion (reaping.symm.trans inLoop)) c
    rw [closed] at isOpen
    exact absurd isOpen (by decide)

/-- A command that has filled its output before `poll` was called. -/
theorem exec_never_deadlocks_full :
    ¬(Exec.ParentWaits ((spawned 1 (by decide) [] none).withPipe .stdout
          ((Pipe.fresh 1 (by decide)).write [7])) ∧
        Exec.CommandWaits ((spawned 1 (by decide) [] none).withPipe .stdout
          ((Pipe.fresh 1 (by decide)).write [7]))) :=
  (exec_never_deadlocks 1 (by decide) [] none _
    (.tail .refl (.commandWrites .stdout [7]) trivial rfl)).1

/-! ## What is lost -/

/-- The calls of the parent do what they can: `poll` does not fail, no `read` does, and there
is memory. -/
def Served (s : Exec) : ExecEvent → Prop
  | .poll .failed => False
  | .io .failed => ∃ todo, s.phase = .loop (.stdin :: todo)
  | .io (.moved _ memory) => memory = true
  | _ => True

/-- As long as the time is not out, an output is closed at its end, and the input once it is
all fed or nobody reads it. -/
structure Complete (s : Exec) : Prop where
  memory : s.failed = false
  drained : s.timedOut = false → ∀ c, c ≠ .stdin → s.ends c = false →
    (s.pipes c).held = [] ∧ (s.pipes c).writable = false
  inputDone : s.timedOut = false → s.ends .stdin = false →
    s.inOff = s.input.length ∨ (s.pipes .stdin).readable = false

theorem spawned_complete (capacity : Nat) (roomy : 0 < capacity) (input : Bytes)
    (timeoutMs : Option Nat) : (spawned capacity roomy input timeoutMs).Complete := by
  rw [spawned]
  split_ifs with nothing
  · refine ⟨rfl, fun _ c output closed => ?_, fun _ _ => Or.inl nothing.symm⟩
    rw [endClose_ends_other output] at closed
    exact Bool.noConfusion closed
  · exact ⟨rfl, fun _ c output closed => Bool.noConfusion closed,
      fun _ closed => Bool.noConfusion closed⟩

/-- Another input pipe, which is as much at its end. -/
theorem Complete.withInput (complete : s.Complete) {p : Pipe UInt8}
    (same : (s.pipes .stdin).readable = false → p.readable = false) :
    (s.withPipe .stdin p).Complete := by
  refine ⟨complete.memory, fun intime c output closed => ?_, fun intime closed => ?_⟩
  · rw [withPipe_other output]
    exact complete.drained intime c output closed
  · rw [withPipe_self]
    exact (complete.inputDone intime closed).imp_right same

/-- Another output pipe, which is at its end if the parent's end is closed. -/
theorem Complete.withOutput (complete : s.Complete) {c : Channel} (output : c ≠ .stdin)
    {p : Pipe UInt8}
    (same : s.ends c = false → (s.pipes c).held = [] → p.held = [] ∧ p.writable = false) :
    (s.withPipe c p).Complete := by
  refine ⟨complete.memory, fun intime d isOutput closed => ?_, fun intime closed => ?_⟩
  · have old := complete.drained intime d isOutput closed
    by_cases here : d = c
    · obtain rfl := here
      rw [withPipe_self]
      exact same closed old.1
    · rwa [withPipe_other here]
  · rw [withPipe_other (Ne.symm output)]
    exact complete.inputDone intime closed

/-- The step lemma. -/
theorem Complete.step {s' : Exec} {event : ExecEvent} (sound : s.Sound) (complete : s.Complete)
    (served : s.Served event) (moved : s.step event = some s') : s'.Complete := by
  cases moves_of_step moved with
  | consumed n => exact complete.withInput id
  | written c data output fits readable writable =>
      refine complete.withOutput output fun closed _ => ?_
      rw [sound.outputEnd c output] at readable
      exact absurd (closed.symm.trans readable) (by decide)
  | droppedInput => exact complete.withInput fun _ => rfl
  | droppedOutput c output => exact complete.withOutput output fun _ drained => ⟨drained, rfl⟩
  | passed ms => exact ⟨complete.memory, complete.drained, complete.inputDone⟩
  | stayed head => exact complete
  | left head r why =>
      rcases why with all | broken
      · refine ⟨complete.memory, fun intime c output _ => ?_, fun intime _ => ?_⟩
        · obtain ⟨-, held, -, sides⟩ := leave_pipe s c
          rw [held, (sides output).1]
          exact complete.drained intime c output (all c)
        · rw [((leave_pipe s .stdin).2.2.1 rfl).1]
          exact complete.inputDone intime (all .stdin)
      · rw [broken] at served
        exact served.elim
  | ranOut head r =>
      exact ⟨complete.memory, fun intime => Bool.noConfusion intime,
        fun intime => Bool.noConfusion intime⟩
  | polled head ready events nodup able =>
      exact ⟨complete.memory, complete.drained, complete.inputDone⟩
  | again c todo serving => exact ⟨complete.memory, complete.drained, complete.inputDone⟩
  | closed c todo serving r why =>
      refine ⟨complete.memory, fun intime d isOutput closed => ?_, fun intime closed => ?_⟩
      · rw [(endClose_pipe _ c d).2, (endClose_sides _ c d).2 isOutput]
        by_cases same : d = c
        · obtain rfl := same
          rw [if_neg isOutput] at why
          rcases why with broken | ended
          · rw [broken] at served
            obtain ⟨others, input⟩ := served
            have equal := ExecPhase.loop.inj (serving.symm.trans input)
            exact absurd (List.cons.inj equal).1 isOutput
          · exact ended
        · rw [endClose_ends_other same] at closed
          exact complete.drained intime d isOutput closed
      · rw [(endClose_sides _ c .stdin).1 rfl]
        by_cases same : Channel.stdin = c
        · rw [if_pos same.symm] at why
          exact Or.inr why
        · rw [endClose_ends_other same] at closed
          exact complete.inputDone intime closed
  | fed todo serving n memory fits more =>
      refine ⟨complete.memory, fun intime c output closed => ?_, fun intime closed => ?_⟩
      · dsimp only
        rw [withPipe_other output]
        exact complete.drained intime c output closed
      · have isOpen := (sound.todo _ serving .stdin List.mem_cons_self).1
        exact absurd (closed.symm.trans isOpen) (by decide)
  | fedAll todo serving n memory fits all =>
      refine ⟨complete.memory, fun intime c output closed => ?_, fun _ _ => Or.inl all⟩
      rw [endClose_ends_other output] at closed
      rw [endClose_pipe_other output]
      dsimp only
      rw [withPipe_other output]
      exact complete.drained intime c output closed
  | kept c todo serving output n =>
      have isOpen := (sound.todo _ serving c List.mem_cons_self).1
      refine ⟨complete.memory, fun intime d isOutput closed => ?_, fun intime closed => ?_⟩
      · have other : d ≠ c := by
          rintro rfl
          exact absurd (closed.symm.trans isOpen) (by decide)
        dsimp only
        rw [withPipe_other other]
        exact complete.drained intime d isOutput closed
      · dsimp only
        rw [withPipe_other (Ne.symm output)]
        exact complete.inputDone intime closed
  | lost c todo serving output n => exact absurd served (by simp [Served])
  | running reaping timedOut older =>
      have before : timedOut = false → s.timedOut = false := by
        intro intime
        rcases was : s.timedOut
        · rfl
        · exact absurd (intime.symm.trans (older was)) (by decide)
      exact ⟨complete.memory, fun intime => complete.drained (before intime),
        fun intime => complete.inputDone (before intime)⟩
  | reaped reaping status => exact ⟨complete.memory, complete.drained, complete.inputDone⟩

theorem step_input {s' : Exec} {event : ExecEvent} (moved : s.step event = some s') :
    s'.input = s.input := by
  cases moves_of_step moved <;> rfl

theorem result_finished {s : Exec} {status st : Int} {out err : Bytes}
    (finished : s.result status = .finished st out err) :
    s.timedOut = false ∧ out = s.buf .stdout ∧ err = s.buf .stderr := by
  rw [result] at finished
  split_ifs at finished with broken late
  simp only [ExecResult.finished.injEq] at finished
  exact ⟨by simpa using late, finished.2.1.symm, finished.2.2.symm⟩

/-- Nothing is lost: a command never reads anything but the beginning of its input, a buffer
holds all the bytes read so far, which are the first the command wrote, in that order, and
when its outputs are returned they are all that it, and whatever it started, ever wrote, with
nobody left to write more; the input was then fed to its end, or nobody reads it. -/
theorem exec_collects_everything (capacity : Nat) (roomy : 0 < capacity) (input : Bytes)
    (timeoutMs : Option Nat) (s : Exec)
    (reachable : (machine capacity roomy input timeoutMs).Reachable Served s) :
    (s.pipes .stdin).taken <+: input ∧
      (∀ c, c ≠ .stdin → s.buf c = (s.pipes c).taken ∧ s.buf c <+: (s.pipes c).sent) ∧
      ∀ status out err, s.phase = .done (.finished status out err) →
        out = (s.pipes .stdout).sent ∧ err = (s.pipes .stderr).sent ∧
          (s.pipes .stdout).writable = false ∧ (s.pipes .stderr).writable = false ∧
          ((s.pipes .stdin).sent = input ∨ (s.pipes .stdin).readable = false) := by
  have sound := reachable_sound reachable
  have complete : s.Complete := reachable.along (spawned_complete capacity roomy input timeoutMs)
    fun _ _ _ run complete served moved => complete.step (reachable_sound run) served moved
  have given : s.input = input := by
    refine Machine.Reachable.invariant (P := fun s => s.input = input) ?_
      (fun _ _ _ same _ moved => (step_input moved).trans same) reachable
    dsimp only [machine, spawned]
    split_ifs <;> rfl
  refine ⟨?_, fun c output => ?_, fun status out err done => ?_⟩
  · have fed := sound.fed
    rw [given] at fed
    have front := (s.pipes .stdin).taken_leads
    rw [fed] at front
    exact front.trans (List.take_prefix _ _)
  · have collected := sound.kept complete.memory c output
    refine ⟨collected, ?_⟩
    rw [collected]
    exact (s.pipes c).taken_leads
  · have closed := sound.closed fun todo inLoop =>
      ExecPhase.noConfusion (done.symm.trans inLoop)
    obtain ⟨code, returned⟩ := sound.returned _ done
    obtain ⟨intime, rfl, rfl⟩ := result_finished returned.symm
    have stdout := complete.drained intime .stdout (by decide) (closed _)
    have stderr := complete.drained intime .stderr (by decide) (closed _)
    refine ⟨?_, ?_, stdout.2, stderr.2, ?_⟩
    · rw [sound.kept complete.memory .stdout (by decide), Pipe.taken_of_drained stdout.1]
    · rw [sound.kept complete.memory .stderr (by decide), Pipe.taken_of_drained stderr.1]
    · rcases complete.inputDone intime (closed _) with all | unread
      · refine Or.inl ?_
        rw [sound.fed, all, List.take_length, given]
      · exact Or.inr unread

/-- The calls that do what they can, whatever the state. -/
def served (_ : Exec) : ExecEvent → Bool
  | .poll .failed => false
  | .io .failed => false
  | .io (.moved _ memory) => memory
  | _ => true

theorem served_sound (s : Exec) (event : ExecEvent) (passed : s.served event = true) :
    s.Served event := by
  cases event with
  | poll r => cases r <;> trivial
  | io r => cases r <;> trivial
  | _ => trivial

/-- A command that reads a byte and writes another, through pipes of one byte. -/
theorem exec_collects_everything_byte : ∃ s : Exec, ∃ status out err,
    s.phase = .done (.finished status out err) ∧ s.buf .stdout = (s.pipes .stdout).taken ∧
      out = (s.pipes .stdout).sent ∧ err = (s.pipes .stderr).sent := by
  obtain ⟨s, run, test⟩ := Machine.exists_run_of_replay served served_sound
    (M := machine 1 Nat.one_pos [5] none) (s := spawned 1 Nat.one_pos [5] none)
    [.poll (.events [.stdin]), .io (.moved 1 true), .commandReads 1, .commandWrites .stdout [7],
      .poll (.events [.stdout]), .io (.moved 1 true), .commandDrops .stdout,
      .commandDrops .stderr, .poll (.events [.stdout, .stderr]), .io (.moved 0 true),
      .io (.moved 0 true), .poll .interrupted, .waitpid (some 0)]
    (fun s => s.phase == .done (.finished 0 [7] [])) (by decide)
  have done : s.phase = .done (.finished 0 [7] []) := by simpa using test
  obtain ⟨-, collected, finished⟩ := exec_collects_everything 1 Nat.one_pos [5] none s run
  obtain ⟨stdout, stderr, -⟩ := finished 0 [7] [] done
  exact ⟨s, 0, [7], [], done, (collected .stdout (by decide)).1, stdout, stderr⟩

end Runs

end Exec

end Qwe.Kernel
