import Qwe.Kernel.Child
import Qwe.Kernel.SentMessage
import Qwe.Lua.Extends

/-!
# What arrives

Whatever the order in which the child writes, the parent reads and signals arrive, the parent
has the child's message as a whole or none at all: no document of the encoder is one that the
decoder takes when its end is missing.
-/

set_option autoImplicit false

namespace Qwe.Kernel

open Qwe.Cbor Qwe.Lua
open Qwe.Redact (Bytes)
open Qwe.Template (bytes)

/-! ## What the child announces -/

section Announced
variable {numeral : Number → Bytes} {granted : Nat → Bool} {encode : Nat → Value → Except String Bytes}

/-- The messages that `child_argv` may begin with, each with what follows it. -/
inductive Announces (numeral : Number → Bytes) (granted : Nat → Bool) (ret : StepReturn) :
    Value → Next → Prop where
  | result {argv result : Value} (is : ret = .returned argv result) (table : isTable result = true) :
      Announces numeral granted ret result (.result (saysOk result))
  | exec {mt : Metatable} {sequence : List Value} {fields : List (Bytes × Value)} {others : Bool}
      {result : Value} (is : ret = .returned (.table mt sequence fields others) result)
      (other : isTable result = false) (some_ : sequence ≠ []) {argv : List Bytes}
      (built : buildArgv numeral granted sequence = .ok argv) :
      Announces numeral granted ret (statusTable "exec" none) (.exec argv)
  | failure (reason : String) (code : Nat) (named : reason = "plugin-error" ∨ reason = "engine-error")
      (fails : code ≠ 0) : Announces numeral granted ret (statusTable "failed" (some reason)) (.exit code)

/-- What there is to do once `run_step` is over: end at once, or send a message. -/
inductive Starts (numeral : Number → Bytes) (granted : Nat → Bool)
    (encode : Nat → Value → Except String Bytes) (ret : StepReturn) : Child → Prop where
  | silent (code : Nat) (fails : code ≠ 0) : Starts numeral granted encode ret (.exited code)
  | sending {v : Value} {next : Next} {text : Bytes} (call : Nat) (announced : Announces numeral granted ret v next)
      (first : (∀ code, next ≠ .exit code) → call = 0) (encoded : encode call v = .ok text) :
      Starts numeral granted encode ret (.sending text 0 next)

variable (numeral granted encode) in
/-- No message is empty. -/
def Worded (ret : StepReturn) : Prop :=
  ∀ call v next text, Announces numeral granted ret v next → encode call v = .ok text → text ≠ []

theorem starts_of_failure {ret : StepReturn} (worded : Worded numeral granted encode ret)
    (call : Nat) {reason : String} (named : reason = "plugin-error" ∨ reason = "engine-error") {code : Nat}
    (fails : code ≠ 0) : Starts numeral granted encode ret (sendFailure encode call reason code) := by
  have announced : Announces numeral granted ret _ _ := .failure reason code named fails
  rw [sendFailure]
  cases encoded : encode call (statusTable "failed" (some reason)) with
  | error err => exact .silent code fails
  | ok text =>
      dsimp only
      rw [if_neg (mt List.length_eq_zero_iff.mp (worded _ _ _ _ announced encoded))]
      exact .sending call announced (fun other => absurd rfl (other code)) encoded

theorem starts_of_send {ret : StepReturn} (worded : Worded numeral granted encode ret)
    {v : Value} {next : Next} (announced : Announces numeral granted ret v next) :
    Starts numeral granted encode ret (startSend encode v next) := by
  rw [startSend]
  cases encoded : encode 0 v with
  | ok text =>
      dsimp only
      rw [if_neg (mt List.length_eq_zero_iff.mp (worded _ _ _ _ announced encoded))]
      exact .sending 0 announced (fun _ => rfl) encoded
  | error err =>
      cases announced with
      | result => exact starts_of_failure worded 1 (Or.inr rfl) Nat.one_ne_zero
      | exec => exact starts_of_failure worded 1 (Or.inr rfl) (by decide)
      | failure reason code named fails => exact .silent code fails

theorem childArgv_starts {ret : StepReturn} (worded : Worded numeral granted encode ret)
    (isPlugin : Bool) :
    Starts numeral granted encode ret (childArgv numeral granted encode isPlugin ret) := by
  have unable : Starts numeral granted encode ret (.exited 126) := .silent 126 (by decide)
  cases ret with
  | raised =>
      unfold childArgv
      dsimp only
      split
      · exact starts_of_failure worded 0 (Or.inl rfl) Nat.one_ne_zero
      · exact unable
  | returned argv result =>
      unfold childArgv
      dsimp only
      by_cases table : isTable result = true
      · rw [if_pos table]
        exact starts_of_send worded (.result rfl table)
      rw [if_neg table]
      cases argv with
      | table kind sequence fields others =>
          dsimp only
          split
          · exact unable
          rename_i some_
          cases built : buildArgv numeral granted sequence with
          | ok argv => exact starts_of_send worded (.exec rfl (Bool.eq_false_iff.mpr table)
              (mt List.length_eq_zero_iff.mpr some_) built)
          | error why =>
              cases why with
              | notString => exact unable
              | noMemory => exact starts_of_failure worded 0 (Or.inr rfl) (by decide)
      | _ => exact unable

/-- What the child means to write. -/
def Child.message : Child → Bytes
  | .sending text _ _ => text
  | _ => []

end Announced

/-! ## Where the child is -/

/-- Where a child can be that has sent its message. -/
inductive Reaches : Next → Child → Prop where
  | flushing (ok : Bool) : Reaches (.result ok) (.flushing ok)
  | flushed (ok worked : Bool) : Reaches (.result ok) (.exited (if ok && worked then 0 else 1))
  | execing (argv : List Bytes) : Reaches (.exec argv) (.execing argv)
  | unexeced (argv : List Bytes) {code : Nat} (fails : code ≠ 0) : Reaches (.exec argv) (.exited code)
  | command (argv : List Bytes) : Reaches (.exec argv) (.command argv)
  | finished (argv : List Bytes) (status : WaitStatus) : Reaches (.exec argv) (.ended status)
  | exited (code : Nat) : Reaches (.exit code) (.exited code)

/-- The child, and what it has written. -/
inductive Place (start : Child) : Child → Bytes → Prop where
  | stepping : Place start .stepping []
  | silent {code : Nat} (from_ : start = .exited code) : Place start (.exited code) []
  | sending {text : Bytes} {off : Nat} {next : Next} (from_ : start = .sending text 0 next)
      (more : off < text.length) : Place start (.sending text off next) (text.take off)
  | sent {text : Bytes} {next : Next} {child : Child} (from_ : start = .sending text 0 next)
      (reached : Reaches next child) : Place start child text
  | killed (signal : Nat) {sent : Bytes} (part : sent <+: start.message) :
      Place start (.ended (.signaled signal)) sent

/-- The child begins with a text, or it ends at once. -/
inductive Begins : Child → Prop where
  | silent (code : Nat) : Begins (.exited code)
  | sending {text : Bytes} (next : Next) (some_ : text ≠ []) : Begins (.sending text 0 next)

namespace Place
variable {start child : Child} {sent text : Bytes} {off : Nat} {next : Next}

theorem part (place : Place start child sent) : sent <+: start.message := by
  cases place with
  | stepping => exact List.nil_prefix
  | silent => exact List.nil_prefix
  | sending from_ more =>
      rw [from_]
      exact List.take_prefix _ _
  | sent from_ reached =>
      rw [from_]
      exact List.prefix_refl _
  | killed signal part => exact part

theorem begin_ (begins : Begins start) : Place start start [] := by
  cases begins with
  | silent code => exact .silent rfl
  | sending next some_ => exact .sending rfl (List.length_pos_iff.mpr some_)

theorem of_stepping (place : Place start .stepping sent) : sent = [] := by
  cases place with
  | stepping => rfl
  | sent from_ reached => nomatch reached

theorem of_sending (place : Place start (.sending text off next) sent) :
    start = .sending text 0 next ∧ off < text.length ∧ sent = text.take off := by
  cases place with
  | sending from_ more => exact ⟨from_, more, rfl⟩
  | sent from_ reached => nomatch reached

/-- A child that has sent its message and has not ended goes on as the message says. -/
theorem go_on (place : Place start child sent) {child' : Child} (stepped : child ≠ .stepping)
    (unsent : ∀ text off next, child ≠ .sending text off next) (alive : ∀ status, child ≠ .ended status)
    (reaches : ∀ next, Reaches next child → Reaches next child') : Place start child' sent := by
  cases place with
  | stepping => exact absurd rfl stepped
  | silent => exact absurd rfl (alive _)
  | sending => exact absurd rfl (unsent _ _ _)
  | sent from_ reached => exact .sent from_ (reaches _ reached)
  | killed => exact absurd rfl (alive _)

end Place

theorem Starts.begins {numeral : Number → Bytes} {granted : Nat → Bool}
    {encode : Nat → Value → Except String Bytes} {ret : StepReturn} {start : Child}
    (starts : Starts numeral granted encode ret start) (worded : Worded numeral granted encode ret) :
    Begins start := by
  cases starts with
  | silent code fails => exact .silent code
  | sending call announced first encoded => exact .sending _ (worded _ _ _ _ announced encoded)

theorem after_reaches {encode : Nat → Value → Except String Bytes} (next : Next) :
    Reaches next (after encode next true) := by
  cases next with
  | result ok => exact .flushing ok
  | exec argv => exact .execing argv
  | exit code => exact .exited code

/-- The buffer holds what was read, the pipe is read from while the child is there, and what was
written is the part of the message that the child's place says. -/
structure Safe (start : Child) (s : ResultRun) : Prop where
  told : s.res.Tells s.pipe.taken
  readable : (∀ status, s.child ≠ .ended status) → s.pipe.readable = true
  place : Place start s.child s.pipe.sent

namespace ResultRun
variable {start : Child} {memory : Nat → UInt8} {encode : Nat → Value → Except String Bytes}
  {s s' : ResultRun}

/-- The child goes on, and nothing is written. -/
theorem safe_goes (safe : Safe start s) {child : Child} (readable : s.pipe.readable = true)
    (place : Place start child s.pipe.sent) : Safe start (s.goes child) :=
  ⟨by rw [goes_res, goes_taken]; exact safe.told, fun _ => by rw [goes_readable]; exact readable,
    by rw [goes_child, goes_sent]; exact place⟩

/-- A write, and where the child goes from there. -/
theorem safe_write (safe : Safe start s) {text : Bytes} {off n : Nat} {next : Next} {child : Child}
    (at_ : s.child = .sending text off next) (room : n ≤ s.pipe.room)
    (place : Place start child (text.take (off + n))) :
    Safe start ((s.written ((text.drop off).take n)).goes child) := by
  have readable : s.pipe.readable = true := safe.readable (by rw [at_]; nofun)
  have enough : ((text.drop off).take n).length ≤ s.pipe.room :=
    (List.length_take_le n _).trans room
  have before := safe.place
  rw [at_] at before
  have sent : (s.written ((text.drop off).take n)).pipe.sent = text.take (off + n) := by
    rw [written, Pipe.sent_write enough, before.of_sending.2.2, List.take_add]
  refine ⟨?_, fun _ => ?_, ?_⟩
  · rw [goes_res, goes_taken]
    exact safe.told
  · rw [goes_readable]
    exact readable
  · rw [goes_child, goes_sent, sent]
    exact place

theorem safe_step (begins : Begins start) (safe : Safe start s) {event : ResultEvent}
    (moved : step start memory encode s event = some s') : Safe start s' := by
  have place := safe.place
  have alive {child : Child} (at_ : s.child = child) (going : ∀ status, child ≠ .ended status) :
      s.pipe.readable = true := safe.readable (at_ ▸ going)
  cases moves_of_step moved with
  | returned at_ =>
      rw [at_] at place
      apply safe_goes safe (alive at_ nofun)
      rw [place.of_stepping]
      exact .begin_ begins
  | wrote n at_ some_ room more =>
      rw [at_] at place
      exact safe_write safe at_ room (.sending place.of_sending.1 more)
  | wroteLast n at_ some_ room last =>
      rw [at_] at place
      apply safe_write safe at_ room
      rw [last, List.take_length]
      exact .sent place.of_sending.1 (after_reaches _)
  | interrupted at_ => exact safe
  | failed at_ alone =>
      rw [alive at_ nofun] at alone
      contradiction
  | flushed worked at_ =>
      rw [at_] at place
      refine safe_goes safe (alive at_ nofun) (place.go_on nofun nofun nofun ?_)
      intro next reached
      cases reached
      exact .flushed _ worked
  | execed at_ =>
      rw [at_] at place
      refine safe_goes safe (alive at_ nofun) (place.go_on nofun nofun nofun ?_)
      intro next reached
      cases reached
      exact .command _
  | unexeced code fails at_ =>
      rw [at_] at place
      refine safe_goes safe (alive at_ nofun) (place.go_on nofun nofun nofun ?_)
      intro next reached
      cases reached
      exact .unexeced _ fails
  | exited status at_ =>
      rw [at_] at place
      refine safe_goes safe (alive at_ nofun) (place.go_on nofun nofun nofun ?_)
      intro next reached
      cases reached
      exact .finished _ status
  | killed signal going own =>
      exact safe_goes safe (safe.readable going) (.killed signal place.part)
  | drained n granted filled short =>
      have read : (s.drained memory ⟨s.pipe.held.take n, filled, short, granted⟩).pipe =
          s.pipe.read (s.pipe.held.take n).length := rfl
      refine ⟨?_, safe.readable, ?_⟩
      · have told := ResFields.tells_drainRead memory safe.told ⟨s.pipe.held.take n, filled, short, granted⟩
        have taken : (s.pipe.read (s.pipe.held.take n).length).taken = s.pipe.taken ++ s.pipe.held.take n := by
          rw [Pipe.read, List.length_take, ← List.take_take, List.take_length]
        rw [read, taken]
        exact told
      · rw [read, Pipe.sent_read]
        exact place
  | closed at_ => exact ⟨safe.told, fun going => absurd at_ (going _), place⟩

theorem safe_of_reachable (begins : Begins start) {capacity : Nat} {roomy : 0 < capacity} {res : ResFields}
    (fresh : res.Tells []) {allowed : ResultRun → ResultEvent → Prop}
    (reachable : (machine start memory encode capacity roomy res).Reachable allowed s) : Safe start s := by
  refine Machine.Reachable.invariant ?_ ?_ reachable
  · exact ⟨fresh, fun _ => rfl, .stepping⟩
  · intro s event s' safe _ moved
    exact safe_step begins safe moved

/-! ## With memory -/

/-- `realloc` does not fail. -/
def Remembers (_ : ResultRun) (event : ResultEvent) : Prop := ∀ n, event ≠ .reads n false

theorem overflow_of_drainRead {r : ResFields} {read : ResRead} (granted : read.granted = true)
    (flag : (r.drainRead memory read).overflow = true) :
    r.overflow = true ∨ resultMax < r.len + read.chunk.length := by
  unfold ResFields.drainRead at flag
  split at flag
  · rename_i long
    exact Or.inr long
  split at flag
  · exact Or.inl flag
  · exact Or.inl flag

/-- The step lemma: what is read sets the flag only where too much was read. -/
theorem overflow_step (safe : Safe start s) (long : s.res.overflow = true → resultMax < s.pipe.taken.length)
    {event : ResultEvent} (remembers : Remembers s event)
    (moved : step start memory encode s event = some s') :
    s'.res.overflow = true → resultMax < s'.pipe.taken.length := by
  cases moves_of_step moved with
  | drained n granted filled short =>
      have given : granted = true := by
        cases granted with
        | true => rfl
        | false => exact absurd rfl (remembers n)
      intro flag
      have chunk : (s.pipe.held.take n).length ≤ s.pipe.held.length := List.length_take_le' n _
      have taken : (s.drained memory ⟨s.pipe.held.take n, filled, short, granted⟩).pipe.taken.length =
          s.pipe.taken.length + (s.pipe.held.take n).length := by
        simp only [drained, Pipe.read, List.length_append, List.length_take]
        omega
      rw [taken]
      cases before : s.res.overflow with
      | true =>
          have already := long before
          omega
      | false =>
          have same := ResFields.length_contents safe.told.toOk
          rw [safe.told.told before] at same
          rcases overflow_of_drainRead given flag with flag | more
          · rw [before] at flag
            contradiction
          · rw [same]
            exact more
  | wrote | wroteLast | returned | failed | flushed | execed | unexeced | exited | killed =>
      rw [goes_res, goes_taken]
      exact long
  | interrupted => exact long
  | closed => exact long

/-- The flag is set only by a message that is too long. -/
theorem overflow_of_reachable (begins : Begins start) {capacity : Nat} {roomy : 0 < capacity}
    {res : ResFields} (fresh : res.Tells []) (clear : res.overflow = false)
    (reachable : (machine start memory encode capacity roomy res).Reachable Remembers s) :
    s.res.overflow = true → resultMax < s.pipe.taken.length := by
  induction reachable with
  | refl =>
      intro flag
      rw [show (machine start memory encode capacity roomy res).init.res = res from rfl, clear] at flag
      contradiction
  | tail run event remembers moved inductionHypothesis =>
      exact overflow_step (safe_of_reachable begins fresh run) inductionHypothesis remembers moved

end ResultRun

end Qwe.Kernel
