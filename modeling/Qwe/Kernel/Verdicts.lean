import Qwe.Kernel.Records

/-!
# Outcomes and reasons

How a job ends follows from what it was told while it ran and from its step
records.  `Triggers` follows the job timeout and the cancel through a career,
`Judged` the failures.
-/

set_option autoImplicit false

namespace Qwe.Kernel

open Qwe.Lifecycle Qwe.History

/-! ## What a job was told -/

/-- The event got past the stale filter in a state of this kind. -/
def Note.tells (ev : Event) (kind : State → Bool) : Note → Bool
  | .told e _ before _ => e == ev && kind before
  | _ => false

/-- The job was told the event while it ran. -/
def triggered (ev : Event) (notes : List Note) : Bool := notes.any (Note.tells ev State.isRunning)

/-- The job was told the cancel before it had started. -/
def cancelledEarly (notes : List Note) : Bool :=
  notes.any (Note.tells .cancel fun s => s == .pending || s == .ready)

/-- A job timeout or a cancel is what ends the job. -/
def stopping : Phase → Bool
  | .settling .cancelTimeout _ => true
  | .settling .cancelRequested _ => true
  | .final .cancelled => true
  | _ => false

/-- A cancel is what ends the job. -/
def cancelling (reason : Option Reason) : Phase → Bool
  | .settling .cancelRequested _ => true
  | .final .cancelled => reason == some .cancelRequested
  | _ => false

structure Triggers (v : View) : Prop where
  stopped : (triggered .jobTimeout v.notes || triggered .cancel v.notes) = stopping (phase v.state)
  cancelled : triggered .cancel v.notes = cancelling v.reason (phase v.state)
  early : cancelledEarly v.notes = true → v.state = .skipped ∧ v.reason = some .cancelRequested
  reason : v.state = .cancelled → v.reason = some .timeout ∨ v.reason = some .cancelRequested

theorem triggers_initial : Triggers View.initial :=
  ⟨rfl, rfl, by simp [View.initial, cancelledEarly], by simp [View.initial]⟩

theorem isRunning_of_live {s : State} (live : (phase s).live = true) : s.isRunning = true := by
  rw [isRunning_iff]
  rcases phase_of_isLive live with ⟨coe, sent, at_⟩ | ⟨verdict, killed, at_⟩ <;> simp [at_]

/-- Only a job that is over, or that a cancel already stops, ignores one. -/
theorem react_ignore {coe : Bool} {p : Phase} {ev : Event} (still : react coe p ev = .ignore) :
    (∃ verdict killed, p = .settling verdict killed ∧
      (ev = .cancel ∨ ev = .jobTimeout → verdict = .cancelRequested)) ∨
    ∃ outcome, p = .final outcome ∧ ev = .cancel := by
  unfold react at still
  split at still
  all_goals first
    | contradiction
    | exact Or.inl ⟨_, _, rfl, by simp⟩
    | exact Or.inr ⟨_, rfl, rfl⟩

/-- What was told before, and now. -/
theorem triggered_told (ev e : Event) (live : Option Nat) (before after : State)
    (notes : List Note) :
    triggered ev (.told e live before after :: notes) =
      ((e == ev && before.isRunning) || triggered ev notes) := rfl

theorem cancelledEarly_told (e : Event) (live : Option Nat) (before after : State)
    (notes : List Note) :
    cancelledEarly (.told e live before after :: notes) =
      ((e == .cancel && (before == .pending || before == .ready)) || cancelledEarly notes) := rfl

/-- A running job is told an event that moves it. -/
theorem Triggers.move {v v' : View} (triggers : Triggers v) (ev : Event)
    (running : v.state.isRunning = true)
    (told : ∀ e, triggered e v'.notes = ((ev == e && v.state.isRunning) || triggered e v.notes))
    (toldEarly : cancelledEarly v'.notes =
      ((ev == .cancel && (v.state == .pending || v.state == .ready)) || cancelledEarly v.notes))
    (stops : stopping (phase v'.state) =
      (stopping (phase v.state) || ev == .jobTimeout || ev == .cancel))
    (cancels : cancelling v'.reason (phase v'.state) =
      (cancelling v.reason (phase v.state) || ev == .cancel))
    (reason : v'.state = .cancelled →
      v'.reason = some .timeout ∨ v'.reason = some .cancelRequested) : Triggers v' := by
  have apart : v.state ≠ .pending ∧ v.state ≠ .ready ∧ v.state ≠ .skipped := by
    refine ⟨?_, ?_, ?_⟩ <;> rintro same <;> rw [same] at running <;> contradiction
  refine ⟨?_, ?_, ?_, reason⟩
  · rw [told, told, running, stops, ← triggers.stopped]
    cases triggered .jobTimeout v.notes <;> cases triggered .cancel v.notes <;>
      cases ev == .jobTimeout <;> cases ev == .cancel <;> rfl
  · rw [told, running, cancels, ← triggers.cancelled, Bool.and_true, Bool.or_comm]
  · intro early
    rw [toldEarly] at early
    have before : cancelledEarly v.notes = true := by simpa [apart.1, apart.2.1] using early
    exact absurd (triggers.early before).1 apart.2.2

theorem triggers_step {spec : JobSpec} {v v' : View} (triggers : Triggers v)
    (step : Step spec v v') : Triggers v' := by
  have triggers' := triggers
  obtain ⟨stopped, cancelled, early, reason⟩ := triggers
  have between : phase v.state = .between → v.state.isRunning = true := by
    intro at_
    rw [isRunning_iff, at_]
    simp
  cases step with
  | ignored coe ev live still =>
      rcases react_ignore still with ⟨verdict, killed, at_, only⟩ | ⟨outcome, at_, rfl⟩
      · have apart : v.state ≠ .pending ∧ v.state ≠ .ready := by
          constructor <;> rintro same <;> rw [same] at at_ <;> contradiction
        refine ⟨?_, ?_, ?_, reason⟩
        · simp only [triggered_told]
          by_cases trigger : ev = .cancel ∨ ev = .jobTimeout
          · have told := only trigger
            subst told
            simp only [at_, stopping] at stopped ⊢
            grind
          · grind
        · simp only [triggered_told]
          by_cases trigger : ev = .cancel
          · have told := only (Or.inl trigger)
            subst told
            simp only [at_, cancelling] at cancelled ⊢
            grind
          · grind
        · simpa [cancelledEarly_told, apart.1, apart.2] using early
      · have finished : v.state.isRunning = false := by
          rw [Bool.eq_false_iff]
          intro running
          exact ((isRunning_iff v.state).mp running).2.2 outcome at_
        have apart : v.state ≠ .pending ∧ v.state ≠ .ready := by
          constructor <;> rintro same <;> rw [same] at at_ <;> contradiction
        exact ⟨by simpa [triggered_told, finished] using stopped,
          by simpa [triggered_told, finished] using cancelled,
          by simpa [cancelledEarly_told, apart.1, apart.2] using early, reason⟩
  | reaped => exact ⟨stopped, cancelled, early, reason⟩
  | needsMet at_ =>
      have here : v.state = .pending := phase_injective at_
      have waits : State.pending.isRunning = false := rfl
      simp only [here] at *
      constructor <;> simp_all [triggered_told, cancelledEarly_told, phase, stopping, cancelling]
  | skipped ev why at_ skips =>
      have here : v.state = .pending ∨ v.state = .ready :=
        at_.imp (fun at_ => phase_injective at_) (fun at_ => phase_injective at_)
      have waits : v.state.isRunning = false := by rcases here with here | here <;> rw [here] <;> rfl
      have unstopped : stopping (phase v.state) = false := by
        rcases at_ with at_ | at_ <;> rw [at_] <;> rfl
      have uncancelled : cancelling v.reason (phase v.state) = false := by
        rcases at_ with at_ | at_ <;> rw [at_] <;> rfl
      rw [unstopped] at stopped
      rw [uncancelled] at cancelled
      refine ⟨?_, ?_, ?_, by simp⟩
      · simpa [triggered, Note.tells, waits, phase, stopping] using stopped
      · simpa [triggered, Note.tells, waits, phase, cancelling] using cancelled
      · intro told
        refine ⟨rfl, ?_⟩
        cases skips with
        | cancel => rfl
        | needs =>
            have := (early (by simpa [cancelledEarly, Note.tells] using told)).1
            rcases here with here | here <;> simp [here] at this
        | disabled =>
            have := (early (by simpa [cancelledEarly, Note.tells] using told)).1
            rcases here with here | here <;> simp [here] at this
  | started ok at_ =>
      have here : v.state = .ready := phase_injective at_
      have waits : v.state.isRunning = false := by rw [here]; rfl
      rw [at_] at stopped cancelled
      refine ⟨?_, ?_, ?_, by simp⟩
      · simpa [triggered, Note.tells, phase, stopping] using stopped
      · simpa [triggered, Note.tells, phase, cancelling] using cancelled
      · intro told
        have := (early (by simpa [cancelledEarly, Note.tells] using told)).1
        simp [here] at this
  | notStarted at_ =>
      exact triggers'.move .startFailed (between at_) (fun _ => rfl) rfl (by rw [at_]; rfl)
        (by rw [at_]; rfl) (by simp)
  | stopped ev last why at_ opened stops =>
      cases stops with
      | done =>
          exact triggers'.move .noMoreSteps (between at_) (fun _ => rfl) rfl (by rw [at_]; rfl)
            (by rw [at_]; rfl) (by simp)
      | timeout =>
          exact triggers'.move .jobTimeout (between at_) (fun _ => rfl) rfl (by rw [at_]; rfl)
            (by rw [at_]; rfl) (by simp)
      | cancel =>
          exact triggers'.move .cancel (between at_) (fun _ => rfl) rfl (by rw [at_]; rfl)
            (by rw [at_]; rfl) (by simp)
  | spawned step next ok at_ opened here reached =>
      refine triggers'.move .nextStep (between at_) (fun _ => rfl) rfl (by rw [at_, reached]; rfl)
        (by rw [at_, reached]; rfl) ?_
      rintro rfl
      contradiction
  | notSpawned coe changed at_ =>
      exact triggers'.move .startFailed (isRunning_of_live (by rw [at_]; rfl)) (fun _ => rfl) rfl
        (by rw [at_]; rfl) (by rw [at_]; rfl) (by simp)
  | timedOut coe next at_ forked reached =>
      refine triggers'.move .stepTimeout (isRunning_of_live (by rw [at_]; rfl)) (fun _ => rfl) rfl
        (by rw [at_, reached]; rfl) (by rw [at_, reached]; rfl) ?_
      rintro rfl
      contradiction
  | killed next forked moves =>
      rcases moves with ⟨coe, at_, reached⟩ | ⟨verdict, at_, reached⟩
      · refine triggers'.move .graceExpired (isRunning_of_live (by rw [at_]; rfl)) (fun _ => rfl) rfl
          (by rw [at_, reached]; rfl) (by rw [at_, reached]; rfl) ?_
        rintro rfl
        contradiction
      · refine triggers'.move .graceExpired (isRunning_of_live (by rw [at_]; rfl)) (fun _ => rfl) rfl
          (by rw [at_, reached]; cases verdict <;> rfl) (by rw [at_, reached]; cases verdict <;> rfl)
          ?_
        rintro rfl
        contradiction
  | decided coe sent ev verdict why changed next at_ forked reaped decides reached =>
      have told : ∀ e, triggered e (.recorded v.cur ::
          (tornDown sent v.cur ++ .told ev (some v.cur) v.state next :: v.notes)) =
            ((ev == e && v.state.isRunning) || triggered e v.notes) := by
        intro e
        cases sent <;> rfl
      have toldEarly : cancelledEarly (.recorded v.cur ::
          (tornDown sent v.cur ++ .told ev (some v.cur) v.state next :: v.notes)) =
            ((ev == .cancel && (v.state == .pending || v.state == .ready)) ||
              cancelledEarly v.notes) := by
        cases sent <;> rfl
      refine triggers'.move ev (isRunning_of_live (by rw [at_]; rfl)) told toldEarly ?_ ?_ ?_
      · rw [at_, reached]
        cases decides with
        | succeeded => rfl
        | failed => cases coe <;> rfl
        | late _ _ _ exits => rcases exits with rfl | rfl <;> cases coe <;> rfl
        | timeout => rfl
        | cancel => rfl
      · rw [at_, reached]
        cases decides with
        | succeeded => rfl
        | failed => cases coe <;> rfl
        | late _ _ _ exits => rcases exits with rfl | rfl <;> cases coe <;> rfl
        | timeout => rfl
        | cancel => rfl
      · rintro rfl
        contradiction
  | overruled verdict verdict' killed ev why next at_ overrules reached =>
      refine triggers'.move ev (isRunning_of_live (by rw [at_]; rfl)) (fun _ => rfl) rfl ?_ ?_ ?_
      · rw [at_, reached]
        cases overrules with
        | timeout open_ => rcases open_ with rfl | rfl <;> rfl
        | cancel => cases verdict <;> rfl
      · rw [at_, reached]
        cases overrules with
        | timeout open_ => rcases open_ with rfl | rfl <;> rfl
        | cancel => cases verdict <;> rfl
      · rintro rfl
        contradiction
  | movedOn killed at_ =>
      exact triggers'.move .groupEmpty (isRunning_of_live (by rw [at_]; rfl)) (fun _ => rfl) rfl
        (by rw [at_]; rfl) (by rw [at_]; rfl) (by simp)
  | closed verdict killed last why at_ forked reaped closes =>
      refine triggers'.move .groupEmpty (isRunning_of_live (by rw [at_]; rfl)) (fun _ => rfl) rfl
        ?_ ?_ ?_
      · rw [at_]
        cases closes <;> rfl
      · rw [at_]
        cases closes <;> rfl
      · cases closes <;> simp

/-! ## What the records say -/

/-- `continue-on-error` of step `i`. -/
def coeAt (spec : JobSpec) (i : Nat) : Bool :=
  ((spec.steps[i]?).map (·.continueOnError)).getD false

/-- The job goes on after such a record. -/
def Tolerated (spec : JobSpec) (i : Nat) (r : StepResult) : Prop :=
  r.outcome = some .success ∨ (r.outcome = some .failed ∧ coeAt spec i = true)

/-- The step recorded last. -/
def lastRecorded : List Note → Option Nat
  | [] => none
  | .recorded i :: _ => some i
  | _ :: older => lastRecorded older

/-- The timeout of step `i`, not ignored: it came while the step was undecided. -/
def Note.timesOut (i : Nat) : Note → Bool
  | .told ev live before after => ev == .stepTimeout && live == some i && before != after
  | _ => false

def timedOut (i : Nat) (notes : List Note) : Bool := notes.any (Note.timesOut i)

theorem timedOut_cons (i : Nat) (entry : Note) (notes : List Note) :
    timedOut i (entry :: notes) = (entry.timesOut i || timedOut i notes) := rfl

/-- The places the cursor has passed are tolerated in these phases. -/
def passing : Phase → Bool
  | .between => true
  | .undecided _ _ => true
  | .settling _ _ => true
  | .final .success => true
  | _ => false

/-- How a job and its steps came to run. -/
structure Begun (v : View) : Prop where
  unstarted : phase v.state = .pending ∨ phase v.state = .ready ∨ phase v.state = .final .skipped →
    ∀ ok, .started ok ∉ v.notes
  notStarted : .started false ∈ v.notes →
    v.results = none ∧ (phase v.state = .between ∨ phase v.state = .final .failed)
  unopened : phase v.state = .between → v.results = none → .started false ∈ v.notes ∧ v.cur = 0
  spawnFailed : ∀ i, .spawned i false ∈ v.notes →
    ((∃ coe, phase v.state = .undecided coe .none) ∧ i = v.cur) ∨ phase v.state = .final .failed
  last : lastRecorded v.notes =
    if (phase v.state).decided then some v.cur else if v.cur = 0 then none else some (v.cur - 1)

theorem begun_initial : Begun View.initial := by
  constructor <;> simp [View.initial, phase, lastRecorded, Phase.decided]

/-- A step that was forked is not one whose spawn failed. -/
theorem Begun.noneFailed {v : View} (begun : Begun v) (shown : Shown v) (forked : v.forked = true)
    (i : Nat) : .spawned i false ∉ v.notes := by
  intro spawned
  rcases begun.spawnFailed i spawned with ⟨⟨coe, at_⟩, rfl⟩ | ended
  · rcases shown.spawned v.cur false spawned with past | ⟨_, _, unforked⟩
    · exact Nat.lt_irrefl _ past
    · rw [forked] at unforked
      contradiction
  · rw [shown.idle (by rw [ended]; rfl)] at forked
    contradiction

theorem Begun.noneUnstarted {v : View} (begun : Begun v) (opened : v.results.isSome = true) :
    .started false ∉ v.notes := by
  intro unstarted
  rw [(begun.notStarted unstarted).1] at opened
  contradiction

theorem Begun.noneUnspawned {v : View} (begun : Begun v) {p : Phase} (at_ : phase v.state = p)
    (forked : ∀ coe, p ≠ .undecided coe .none) (open_ : p ≠ .final .failed) (i : Nat) :
    .spawned i false ∉ v.notes := by
  intro unspawned
  rcases begun.spawnFailed i unspawned with ⟨⟨coe, other⟩, _⟩ | other
  · exact forked coe (at_.symm.trans other)
  · exact open_ (at_.symm.trans other)

/-- The job has not started. -/
theorem Begun.of_waiting {v : View} (unstarted : ∀ ok, .started ok ∉ v.notes)
    (unspawned : ∀ i, .spawned i false ∉ v.notes) (apart : phase v.state ≠ .between)
    (last : lastRecorded v.notes =
      if (phase v.state).decided then some v.cur else if v.cur = 0 then none else some (v.cur - 1)) :
    Begun v where
  unstarted := fun _ => unstarted
  notStarted := fun member => absurd member (unstarted false)
  unopened := fun at_ => absurd at_ apart
  spawnFailed := fun i member => absurd member (unspawned i)
  last := last

/-- The job has started, and so has every step it came to. -/
theorem Begun.of_begun {v : View}
    (begun : phase v.state ≠ .pending ∧ phase v.state ≠ .ready ∧ phase v.state ≠ .final .skipped)
    (started : .started false ∉ v.notes) (spawned : ∀ i, .spawned i false ∉ v.notes)
    (opened : phase v.state = .between → v.results.isSome = true)
    (last : lastRecorded v.notes =
      if (phase v.state).decided then some v.cur else if v.cur = 0 then none else some (v.cur - 1)) :
    Begun v where
  unstarted := by
    rintro (at_ | at_ | at_)
    · exact absurd at_ begun.1
    · exact absurd at_ begun.2.1
    · exact absurd at_ begun.2.2
  notStarted := fun member => absurd member started
  unopened := by
    intro at_ none_
    have some_ := opened at_
    rw [none_] at some_
    contradiction
  spawnFailed := fun i member => absurd member (spawned i)
  last := last

theorem begun_step {spec : JobSpec} {v v' : View} (begun : Begun v) (recorded : Recorded spec v)
    (shown : Shown v) (step : Step spec v v') : Begun v' := by
  have noneFailed := begun.noneFailed shown
  have last := begun.last
  cases step with
  | ignored =>
      constructor <;> simp only [List.mem_cons, reduceCtorEq, false_or, lastRecorded]
      exacts [begun.unstarted, begun.notStarted, begun.unopened, begun.spawnFailed, last]
  | reaped =>
      constructor <;> simp only [List.mem_cons, reduceCtorEq, false_or, lastRecorded]
      exacts [begun.unstarted, begun.notStarted, begun.unopened, begun.spawnFailed, last]
  | needsMet at_ =>
      rw [at_] at last
      refine Begun.of_waiting ?_ ?_ (by simp [phase]) last
      · simpa using begun.unstarted (Or.inl at_)
      · simpa using begun.noneUnspawned at_ (by simp) (by simp)
  | skipped ev why at_ skips =>
      have undecided : (phase v.state).decided = false := by
        rcases at_ with at_ | at_ <;> rw [at_] <;> rfl
      rw [undecided] at last
      refine Begun.of_waiting ?_ ?_ (by simp [phase]) last
      · have unstarted : ∀ ok, .started ok ∉ v.notes := by
          rcases at_ with at_ | at_
          · exact begun.unstarted (Or.inl at_)
          · exact begun.unstarted (Or.inr (Or.inl at_))
        simpa using unstarted
      · have unspawned : ∀ i, .spawned i false ∉ v.notes := by
          rcases at_ with at_ | at_ <;> exact begun.noneUnspawned at_ (by simp) (by simp)
        simpa using unspawned
  | started ok at_ =>
      rw [at_] at last
      obtain ⟨start, none_⟩ := recorded.waiting (Or.inr at_)
      refine ⟨by simp [phase], ?_, ?_, ?_, last⟩
      · intro unstarted
        have was := begun.unstarted (Or.inr (Or.inl at_)) false
        obtain rfl : ok = false := by simpa [was] using unstarted
        exact ⟨none_, Or.inl rfl⟩
      · intro _ unopened
        cases ok with
        | false => exact ⟨List.mem_cons_self, start⟩
        | true => contradiction
      · intro i unspawned
        exact absurd (by simpa using unspawned) (begun.noneUnspawned at_ (by simp) (by simp) i)
  | notStarted at_ closed =>
      rw [at_] at last
      refine ⟨by simp [phase], ?_, by simp [phase], fun _ _ => Or.inr rfl, last⟩
      exact fun _ => ⟨by rw [closed]; rfl, Or.inr rfl⟩
  | stopped ev final why at_ opened stops =>
      rw [at_] at last
      obtain ⟨outcome, next, apart⟩ : ∃ outcome, phase final = .final outcome ∧ outcome ≠ .skipped := by
        cases stops <;> exact ⟨_, rfl, by simp⟩
      refine Begun.of_begun (by simp [next, apart]) ?_ ?_ (by simp [next]) (by simp only [next]; exact last)
      · simpa using begun.noneUnstarted opened
      · simpa using begun.noneUnspawned at_ (by simp) (by simp)
  | spawned step next ok at_ opened here reached =>
      rw [at_] at last
      refine ⟨by simp [reached], ?_, by simp [reached], ?_, by simp only [reached]; exact last⟩
      · intro unstarted
        exact absurd (by simpa using unstarted) (begun.noneUnstarted opened)
      · intro i unspawned
        have was := begun.noneUnspawned at_ (by simp) (by simp) i
        obtain ⟨rfl, _⟩ : i = v.cur ∧ ok = false := by simpa [was, eq_comm] using unspawned
        exact Or.inl ⟨⟨_, reached⟩, rfl⟩
  | notSpawned coe changed at_ unforked =>
      have opened := (recorded.live (by rw [at_]; rfl)).2
      refine ⟨by simp [phase], ?_, by simp [phase], fun _ _ => Or.inr rfl, rfl⟩
      intro unstarted
      exact absurd (by simpa using unstarted) (begun.noneUnstarted opened)
  | timedOut coe next at_ forked reached =>
      have opened := (recorded.live (by rw [at_]; rfl)).2
      rw [at_] at last
      refine Begun.of_begun (by simp [reached]) ?_ ?_ (by simp [reached])
        (by simp only [reached]; exact last)
      · simpa using begun.noneUnstarted opened
      · simpa using noneFailed forked
  | killed next forked moves =>
      have flags : (phase v.state).live = true ∧ (phase next).live = true ∧
          (phase next).decided = (phase v.state).decided := by
        rcases moves with ⟨coe, at_, reached⟩ | ⟨verdict, at_, reached⟩ <;> rw [at_, reached] <;>
          exact ⟨rfl, rfl, rfl⟩
      obtain ⟨live, live', decided⟩ := flags
      have apart : ∀ {p : Phase}, p.live = false → phase next ≠ p := by
        rintro p idle rfl
        rw [live'] at idle
        contradiction
      have opened := (recorded.live live).2
      refine Begun.of_begun ⟨apart rfl, apart rfl, apart rfl⟩ ?_ ?_
        (fun at_ => absurd at_ (apart rfl)) (by simpa only [lastRecorded, decided] using last)
      · simpa using begun.noneUnstarted opened
      · simpa using noneFailed forked
  | decided coe sent ev verdict why changed next at_ forked reaped decides reached =>
      have opened := (recorded.live (by rw [at_]; rfl)).2
      refine Begun.of_begun (by simp [reached]) ?_ ?_ (by simp [reached])
        (by simp [reached, lastRecorded, Phase.decided])
      · cases sent <;> simpa [tornDown] using begun.noneUnstarted opened
      · cases sent <;> simpa [tornDown] using noneFailed forked
  | overruled verdict verdict' killed ev why next at_ overrules reached =>
      have opened := (recorded.live (by rw [at_]; rfl)).2
      rw [at_] at last
      refine Begun.of_begun (by simp [reached]) ?_ ?_ (by simp [reached])
        (by simp only [reached]; exact last)
      · simpa using begun.noneUnstarted opened
      · simpa using begun.noneUnspawned at_ (by simp) (by simp)
  | movedOn killed at_ forked reaped =>
      have opened := (recorded.live (by rw [at_]; rfl)).2
      rw [at_] at last
      refine Begun.of_begun (by simp [phase]) ?_ ?_ (fun _ => opened) last
      · simpa using begun.noneUnstarted opened
      · simpa using noneFailed forked
  | closed verdict killed final why at_ forked reaped closes =>
      obtain ⟨outcome, next, apart⟩ : ∃ outcome, phase final = .final outcome ∧ outcome ≠ .skipped := by
        cases closes <;> exact ⟨_, rfl, by simp⟩
      have opened := (recorded.live (by rw [at_]; rfl)).2
      rw [at_] at last
      refine Begun.of_begun (by simp [next, apart]) ?_ ?_ (by simp [next])
        (by simp only [next]; exact last)
      · simpa using begun.noneUnstarted opened
      · simpa using noneFailed forked

/-- A record that was written before the step is the one found after it. -/
theorem result_of_wrote {spec : JobSpec} {v v' : View} (recorded : Recorded spec v)
    (step : Step spec v v') {i : Nat} {r : StepResult} (opened : v.results.isSome = true)
    (wrote : v.wrote i) (there : v'.result i = some r) : v.result i = some r := by
  obtain ⟨rs, results⟩ := Option.isSome_iff_exists.mp opened
  obtain ⟨rs', results', place'⟩ := View.result_eq_some.mp there
  have inRange : i < rs.length := by
    have lengths := recorded.length rs results
    have lengths' := (recorded_step recorded step).length rs' results'
    have bound := (List.getElem?_eq_some_iff.mp place').1
    omega
  have place : rs[i]? = some rs[i] := List.getElem?_eq_getElem inRange
  have here : v.result i = some rs[i] := View.result_eq_some.mpr ⟨rs, results, place⟩
  have settled := recorded.run rs i rs[i] results place wrote
  have written : (rs[i]).outcome.isSome = true := by
    rcases settled with is | is | is <;> rw [is] <;> rfl
  rw [kept_step recorded step here written] at there
  rw [here, there]

theorem Recorded.resultAt {spec : JobSpec} {v : View} (recorded : Recorded spec v)
    (live : (phase v.state).live = true) :
    ∃ rs r, v.results = some rs ∧ rs[v.cur]? = some r ∧ v.result v.cur = some r := by
  obtain ⟨inRange, opened⟩ := recorded.live live
  obtain ⟨rs, results⟩ := Option.isSome_iff_exists.mp opened
  rw [← recorded.length rs results] at inRange
  have place : rs[v.cur]? = some rs[v.cur] := List.getElem?_eq_getElem inRange
  exact ⟨rs, rs[v.cur], results, place, View.result_eq_some.mpr ⟨rs, results, place⟩⟩

/-- What the records mean for the job. -/
structure Judged (spec : JobSpec) (v : View) : Prop where
  past : passing (phase v.state) = true → ∀ i r, i < v.cur → v.result i = some r →
    Tolerated spec i r
  coe : ∀ coe sent, phase v.state = .undecided coe sent → coeAt spec v.cur = coe
  goOn : ∀ killed, phase v.state = .settling .goOn killed → ∀ r, v.result v.cur = some r →
    Tolerated spec v.cur r
  fail : ∀ killed, phase v.state = .settling .fail killed → coeAt spec v.cur = false ∧
    ∀ r, v.result v.cur = some r → r.outcome = some .failed ∧ r.reason = v.carried
  success : phase v.state = .final .success → v.reason = none ∧ v.cur = spec.steps.length ∧
    v.results.isSome = true
  failed : phase v.state = .final .failed →
    (.started false ∈ v.notes ∧ v.reason = some .engineError ∧ lastRecorded v.notes = none) ∨
    ∃ i r, lastRecorded v.notes = some i ∧ v.result i = some r ∧ r.outcome = some .failed ∧
      r.reason = v.reason ∧
      ((.spawned i false ∈ v.notes ∧ v.reason = some .engineError) ∨
        ((∀ k, .spawned k false ∉ v.notes) ∧ coeAt spec i = false))
  timedOut : ∀ i, timedOut i v.notes = true →
    (i = v.cur ∧ ∃ coe sent, phase v.state = .undecided coe sent ∧ sent ≠ .none) ∨
    ∃ r, v.result i = some r ∧
      ((r.outcome = some .failed ∧ r.reason = some .timeout) ∨ r.outcome = some .cancelled)
  cancelled : ∀ i r, v.result i = some r → r.outcome = some .cancelled →
    stopping (phase v.state) = true

theorem judged_initial (spec : JobSpec) : Judged spec View.initial := by
  constructor <;> simp [View.initial, View.result, phase, Kernel.timedOut]

/-- The timeouts of decided steps, after a step that tells no new one. -/
theorem Judged.timedOut_of {spec : JobSpec} {v v' : View} (judged : Judged spec v)
    (recorded : Recorded spec v) (step : Step spec v v')
    (none_ : ∀ coe sent, phase v.state = .undecided coe sent → sent = .none)
    (same : ∀ i, Kernel.timedOut i v'.notes = Kernel.timedOut i v.notes) (i : Nat)
    (late : Kernel.timedOut i v'.notes = true) :
    ∃ r, v'.result i = some r ∧
      ((r.outcome = some .failed ∧ r.reason = some .timeout) ∨ r.outcome = some .cancelled) := by
  rcases judged.timedOut i (same i ▸ late) with ⟨_, coe, sent, at_, signalled⟩ | ⟨r, here, how⟩
  · exact absurd (none_ coe sent at_) signalled
  · refine ⟨r, kept_step recorded step here ?_, how⟩
    rcases how with ⟨is, _⟩ | is <;> rw [is] <;> rfl

/-- A cancelled record was there before, unless the step wrote it. -/
theorem Judged.cancelled_of {spec : JobSpec} {v v' : View} (judged : Judged spec v)
    (recorded : Recorded spec v) (step : Step spec v v') (opened : v.results.isSome = true)
    (i : Nat) (r : StepResult) (there : v'.result i = some r) (is : r.outcome = some .cancelled)
    (before : v'.wrote i → v.wrote i) : stopping (phase v.state) = true := by
  by_cases wrote : v'.wrote i
  · exact judged.cancelled i r (result_of_wrote recorded step opened (before wrote) there) is
  · obtain ⟨rs, results, place⟩ := View.result_eq_some.mp there
    rw [(recorded_step recorded step).rest rs i r results place wrote] at is
    split at is <;> contradiction

/-- A job without a live step has seen no timeout it did not record. -/
theorem Judged.untold {spec : JobSpec} {v : View} (judged : Judged spec v)
    (closed : v.results = none) (idle : (phase v.state).live = false) (i : Nat) :
    Kernel.timedOut i v.notes = false := by
  by_contra late
  rcases judged.timedOut i (by simpa using late) with ⟨_, coe, sent, at_, _⟩ | ⟨r, here, _⟩
  · rw [at_] at idle
    contradiction
  · obtain ⟨rs, results, _⟩ := View.result_eq_some.mp here
    rw [closed] at results
    contradiction

/-- A job without records has nothing to be judged by. -/
theorem Judged.of_closed {spec : JobSpec} {v : View} (closed : v.results = none)
    (idle : (phase v.state).live = false) (open_ : phase v.state ≠ .final .success)
    (untold : ∀ i, Kernel.timedOut i v.notes = false)
    (failed : phase v.state = .final .failed →
      .started false ∈ v.notes ∧ v.reason = some .engineError ∧ lastRecorded v.notes = none) :
    Judged spec v := by
  have none_ : ∀ i, v.result i = none := by
    intro i
    rw [View.result, closed]
    rfl
  have dead : ∀ {p : Phase}, phase v.state = p → p.live = false := by
    rintro p rfl
    exact idle
  refine ⟨by simp [none_], ?_, ?_, ?_, fun won => absurd won open_, fun lost => Or.inl (failed lost),
    by simp [untold], by simp [none_]⟩
  · intro coe sent at_
    exact absurd (dead at_) (by simp [Phase.live])
  · intro killed at_
    exact absurd (dead at_) (by simp [Phase.live])
  · intro killed at_
    exact absurd (dead at_) (by simp [Phase.live])

/-- A step that stays live with its records: what is judged is what was judged. -/
theorem Judged.stillLive {spec : JobSpec} {v v' : View} (judged : Judged spec v)
    (results : v'.results = v.results) (cur : v'.cur = v.cur)
    (passes : passing (phase v.state) = true) (live : (phase v'.state).live = true)
    (coe : ∀ flag sent, phase v'.state = .undecided flag sent → coeAt spec v.cur = flag)
    (goOn : ∀ killed, phase v'.state = .settling .goOn killed → ∀ r, v.result v.cur = some r →
      Tolerated spec v.cur r)
    (fail : ∀ killed, phase v'.state = .settling .fail killed → coeAt spec v.cur = false ∧
      ∀ r, v.result v.cur = some r → r.outcome = some .failed ∧ r.reason = v'.carried)
    (late : ∀ i, Kernel.timedOut i v'.notes = true →
      (i = v.cur ∧ ∃ flag sent, phase v'.state = .undecided flag sent ∧ sent ≠ .none) ∨
      ∃ r, v.result i = some r ∧
        ((r.outcome = some .failed ∧ r.reason = some .timeout) ∨ r.outcome = some .cancelled))
    (stops : stopping (phase v.state) = true → stopping (phase v'.state) = true) :
    Judged spec v' := by
  have same : ∀ i, v'.result i = v.result i := by
    intro i
    rw [View.result, View.result, results]
  have notOver : ∀ {outcome}, phase v'.state ≠ .final outcome := by
    intro outcome over_
    rw [over_] at live
    contradiction
  refine ⟨?_, ?_, ?_, ?_, fun won => absurd won notOver, fun lost => absurd lost notOver, ?_, ?_⟩
  · intro _ i r before there
    rw [cur] at before
    rw [same] at there
    exact judged.past passes i r before there
  · simpa only [cur] using coe
  · simpa only [cur, same] using goOn
  · simpa only [cur, same] using fail
  · simpa only [cur, same] using late
  · intro i r there is
    rw [same] at there
    exact stops (judged.cancelled i r there is)

/-! ## What a decision records -/

section Decides

variable {coe : Bool} {sent : Signal} {ev : Event} {verdict : Verdict} {why : Option Reason}

theorem Decides.notStepTimeout (decides : Decides coe sent ev verdict why) : ev ≠ .stepTimeout := by
  cases decides with
  | late _ _ _ exits => rcases exits with rfl | rfl <;> simp
  | _ => simp

theorem Decides.goesOn (decides : Decides coe sent ev .goOn why) :
    decidedOutcome .goOn why = .success ∨ decidedOutcome .goOn why = .failed ∧ coe = true := by
  generalize same : Verdict.goOn = verdict at decides
  cases decides with
  | succeeded => exact .inl rfl
  | failed => exact .inr ⟨by rw [← same]; rfl, by cases coe <;> simp_all [onFailure]⟩
  | late => exact .inr ⟨by rw [← same]; rfl, by cases coe <;> simp_all [onFailure]⟩
  | timeout => contradiction
  | cancel => contradiction

theorem Decides.fails (decides : Decides coe sent ev .fail why) :
    coe = false ∧ ∃ reason, why = some reason := by
  generalize same : Verdict.fail = verdict at decides
  cases decides with
  | succeeded => contradiction
  | failed => exact ⟨by cases coe <;> simp_all [onFailure], _, rfl⟩
  | late => exact ⟨by cases coe <;> simp_all [onFailure], _, rfl⟩
  | timeout => contradiction
  | cancel => contradiction

/-- A step that was signalled has timed out, unless its job is stopped. -/
theorem Decides.signalled (decides : Decides coe sent ev verdict why) (signalled : sent ≠ .none) :
    (decidedOutcome verdict why = .failed ∧ why = some .timeout) ∨
      decidedOutcome verdict why = .cancelled := by
  cases decides with
  | succeeded => contradiction
  | failed => contradiction
  | late => exact .inl ⟨by cases coe <;> rfl, rfl⟩
  | timeout => exact .inr rfl
  | cancel => exact .inr rfl

theorem stopping_of_cancelled (killed : Bool) (cancelled : decidedOutcome verdict why = .cancelled) :
    stopping (.settling verdict killed) = true := by
  cases verdict with
  | goOn => cases why <;> contradiction
  | fail => cases why <;> contradiction
  | cancelTimeout => rfl
  | cancelRequested => rfl

end Decides

theorem judged_step {spec : JobSpec} {v v' : View} (judged : Judged spec v) (begun : Begun v)
    (recorded : Recorded spec v) (shown : Shown v) (step : Step spec v v') : Judged spec v' := by
  have judged' := judged
  obtain ⟨past, coe, goOn, fail, success, failed, timeouts, cancelled⟩ := judged'
  cases step with
  | ignored flag ev live still =>
      constructor <;>
        simp only [List.mem_cons, reduceCtorEq, false_or, lastRecorded, timedOut_cons, Note.timesOut,
          bne_self_eq_false, Bool.and_false, Bool.false_or, View.result]
      exacts [past, coe, goOn, fail, success, failed, timeouts, cancelled]
  | reaped forked =>
      constructor <;>
        simp only [List.mem_cons, reduceCtorEq, false_or, lastRecorded, timedOut_cons, Note.timesOut,
          Bool.false_or, View.result]
      exacts [past, coe, goOn, fail, success, failed, timeouts, cancelled]
  | needsMet at_ =>
      obtain ⟨_, none_⟩ := recorded.waiting (Or.inl at_)
      refine Judged.of_closed none_ rfl (by simp [phase]) (fun i => ?_) (by simp [phase])
      simpa [timedOut_cons, Note.timesOut] using judged.untold none_ (by rw [at_]; rfl) i
  | skipped ev why at_ skips =>
      have apart : ev ≠ .stepTimeout := by cases skips <;> simp
      obtain ⟨_, none_⟩ := recorded.waiting at_
      have idle : (phase v.state).live = false := by rcases at_ with at_ | at_ <;> rw [at_] <;> rfl
      refine Judged.of_closed (by simp [none_]) rfl (by simp [phase]) (fun i => ?_) (by simp [phase])
      simpa [timedOut_cons, Note.timesOut, apart] using judged.untold none_ idle i
  | started ok at_ =>
      obtain ⟨start, none_⟩ := recorded.waiting (Or.inr at_)
      have untold : ∀ i, Kernel.timedOut i (.started ok ::
          .told .slotGranted none v.state .betweenSteps :: v.notes) = false := by
        intro i
        simpa [timedOut_cons, Note.timesOut] using judged.untold none_ (by rw [at_]; rfl) i
      cases ok with
      | false => exact Judged.of_closed none_ rfl (by simp [phase]) untold (by simp [phase])
      | true =>
          -- the cursor is at the first step, and no record is written yet
          refine ⟨?_, by simp [phase], by simp [phase], by simp [phase], by simp [phase],
            by simp [phase], by simp [untold], ?_⟩
          · intro _ i r before
            rw [show v.cur = 0 from start] at before
            exact absurd before (Nat.not_lt_zero i)
          · intro i r there is
            obtain ⟨rs, results, place⟩ := View.result_eq_some.mp there
            cases results
            obtain ⟨_, _, rfl⟩ := List.mem_map.mp (List.mem_of_getElem? place)
            contradiction
  | notStarted at_ closed =>
      obtain ⟨started, start⟩ := begun.unopened at_ closed
      refine Judged.of_closed (by simp [closed]) rfl (by simp [phase]) (fun i => ?_) (fun _ => ?_)
      · simpa [timedOut_cons, Note.timesOut] using judged.untold closed (by rw [at_]; rfl) i
      · refine ⟨by simpa using started, rfl, ?_⟩
        simpa [at_, start, Phase.decided, lastRecorded] using begun.last
  | timedOut flag next at_ forked reached =>
      refine judged.stillLive rfl rfl (by rw [at_]; rfl) (by simp [reached, Phase.live]) ?_
        (by simp [reached]) (by simp [reached]) ?_ (by simp [at_, stopping])
      · intro flag' sent is
        rw [reached, Phase.undecided.injEq] at is
        exact is.1 ▸ coe flag .none at_
      · intro i late
        by_cases here : i = v.cur
        · exact Or.inl ⟨here, flag, .term, reached, by simp⟩
        · have old : Kernel.timedOut i v.notes = true := by
            simpa [timedOut_cons, Note.timesOut, Ne.symm here] using late
          exact Or.inr ((timeouts i old).resolve_left fun mine => here mine.1)
  | killed next forked moves =>
      have told : ∀ i, Kernel.timedOut i (.sigkill (some v.cur) ::
          .told .graceExpired (some v.cur) v.state next :: .graceSeen (some v.cur) :: v.notes) =
            Kernel.timedOut i v.notes := by
        simp [timedOut_cons, Note.timesOut]
      rcases moves with ⟨flag, at_, reached⟩ | ⟨verdict, at_, reached⟩
      · refine judged.stillLive rfl rfl (by rw [at_]; rfl) (by simp [reached, Phase.live]) ?_
          (by simp [reached]) (by simp [reached]) ?_ (by simp [at_, stopping])
        · intro flag' sent is
          rw [reached, Phase.undecided.injEq] at is
          exact is.1 ▸ coe flag .term at_
        · intro i late
          exact (timeouts i (told i ▸ late)).imp_left
            fun old => ⟨old.1, flag, .kill, reached, by simp⟩
      · refine judged.stillLive rfl rfl (by rw [at_]; rfl) (by simp [reached, Phase.live])
          (by simp [reached]) ?_ ?_ ?_ ?_
        · intro killed is
          rw [reached, Phase.settling.injEq] at is
          exact goOn false (is.1 ▸ at_)
        · intro killed is
          rw [reached, Phase.settling.injEq] at is
          exact fail false (is.1 ▸ at_)
        · intro i late
          refine Or.inr ((timeouts i (told i ▸ late)).resolve_left ?_)
          simp [at_]
        · intro stops
          rw [at_] at stops
          rw [reached]
          cases verdict <;> exact stops
  | overruled verdict verdict' killed ev why next at_ overrules reached =>
      have apart : ev ≠ .stepTimeout ∧ verdict' ≠ .goOn ∧ verdict' ≠ .fail := by
        cases overrules <;> simp
      refine judged.stillLive rfl rfl (by rw [at_]; rfl) (by simp [reached, Phase.live])
        (by simp [reached]) (by simp [reached, apart.2.1]) (by simp [reached, apart.2.2]) ?_ ?_
      · intro i late
        have old : Kernel.timedOut i v.notes = true := by
          simpa [timedOut_cons, Note.timesOut, apart.1] using late
        refine Or.inr ((timeouts i old).resolve_left ?_)
        simp [at_]
      · intro _
        rw [reached]
        cases overrules <;> rfl
  | stopped ev final why at_ opened stops =>
      have apart : ev ≠ .stepTimeout := by cases stops <;> simp
      obtain ⟨outcome, next, which⟩ : ∃ outcome, phase final = .final outcome ∧
          ((outcome = .success ∧ why = none ∧ v.cur = spec.steps.length) ∨ outcome = .cancelled) := by
        cases stops with
        | done past_ =>
            have bound := recorded.bound
            rw [List.getElem?_eq_none_iff] at past_
            exact ⟨.success, rfl, Or.inl ⟨rfl, rfl, by omega⟩⟩
        | timeout => exact ⟨.cancelled, rfl, Or.inr rfl⟩
        | cancel => exact ⟨.cancelled, rfl, Or.inr rfl⟩
      have step : Step spec v _ := .stopped v ev final why at_ opened stops
      refine ⟨?_, by simp [next], by simp [next], by simp [next], ?_, ?_, ?_, ?_⟩
      · intro _ i r before there
        exact past (by rw [at_]; rfl) i r before
          (result_of_wrote recorded step opened (Or.inl before) there)
      · intro won
        rcases which with ⟨rfl, none_, all⟩ | rfl
        · exact ⟨none_, all, by simpa using opened⟩
        · simp [next] at won
      · intro lost
        rcases which with ⟨rfl, _⟩ | rfl <;> simp [next] at lost
      · intro i late
        exact Or.inr (judged.timedOut_of recorded step (by simp [at_])
          (by simp [timedOut_cons, Note.timesOut]) i late)
      · intro i r there is
        have before := judged.cancelled_of recorded step opened i r there is
          (by simp [View.wrote, next, at_, Phase.decided])
        simp [at_, stopping] at before
  | spawned spawn next ok at_ opened here reached =>
      have step : Step spec v _ := .spawned v spawn next ok at_ opened here reached
      refine ⟨?_, ?_, by simp [reached], by simp [reached], by simp [reached], by simp [reached], ?_,
        ?_⟩
      · intro _ i r before there
        exact past (by rw [at_]; rfl) i r before
          (result_of_wrote recorded step opened (Or.inl before) there)
      · intro flag sent is
        rw [reached, Phase.undecided.injEq] at is
        simp [coeAt, here, is.1]
      · intro i late
        exact Or.inr (judged.timedOut_of recorded step (by simp [at_])
          (by simp [timedOut_cons, Note.timesOut]) i late)
      · intro i r there is
        have before := judged.cancelled_of recorded step opened i r there is
          (by simp [View.wrote, reached, at_, Phase.decided])
        simp [at_, stopping] at before
  | notSpawned flag changed at_ unforked =>
      have step : Step spec v _ := .notSpawned v flag changed at_ unforked
      have live : (phase v.state).live = true := by rw [at_]; rfl
      obtain ⟨rs, r, results, place, _⟩ := recorded.resultAt live
      have spawned : .spawned v.cur false ∈ v.notes := unforked ▸ shown.spawnedHere live
      have here : ¬ v.cur + 1 ≤ v.cur := by omega
      refine ⟨by simp [phase, passing], by simp [phase], by simp [phase], by simp [phase],
        by simp [phase], ?_, ?_, ?_⟩
      · intro _
        refine Or.inr ⟨v.cur, record .failed (some .engineError) changed r, rfl, ?_, rfl, rfl,
          Or.inl ⟨by simp [spawned], rfl⟩⟩
        simp [View.result, results, getElem?_skipFrom, place, here]
      · intro i late
        refine Or.inr (judged.timedOut_of recorded step ?_
          (by simp [timedOut_cons, Note.timesOut]) i late)
        intro other sent is
        rw [at_, Phase.undecided.injEq] at is
        exact is.2.symm
      · intro i r' there is
        exfalso
        by_cases mine : i = v.cur
        · subst mine
          simp [View.result, results, getElem?_skipFrom, place, here] at there
          rw [← there] at is
          simp [record] at is
        · have before := judged.cancelled_of recorded step (recorded.live live).2 i r' there is (by
            rintro (before | ⟨_, decided⟩)
            · exact Or.inl (by simp only at before; omega)
            · contradiction)
          simp [at_, stopping] at before
  | decided flag sent ev verdict why changed next at_ forked reaped decides reached =>
      have step : Step spec v _ :=
        .decided v flag sent ev verdict why changed next at_ forked reaped decides reached
      have live : (phase v.state).live = true := by rw [at_]; rfl
      obtain ⟨rs, r, results, place, _⟩ := recorded.resultAt live
      have told : ∀ i, Kernel.timedOut i (.recorded v.cur ::
          (tornDown sent v.cur ++ .told ev (some v.cur) v.state next :: v.notes)) =
            Kernel.timedOut i v.notes := by
        intro i
        cases sent <;> simp [tornDown, timedOut_cons, Note.timesOut, decides.notStepTimeout]
      have mine : ∀ r', View.result { v with
            state := next, carried := why.or v.carried
            results := v.results.map fun rs =>
              rs.modify v.cur (record (decidedOutcome verdict why) why changed)
            notes := .recorded v.cur ::
              (tornDown sent v.cur ++ .told ev (some v.cur) v.state next :: v.notes) } v.cur =
          some r' → r'.outcome = some (decidedOutcome verdict why) ∧ r'.reason = why := by
        intro r' there
        simp [View.result, results, place] at there
        rw [← there]
        exact ⟨rfl, rfl⟩
      have flagHere := coe flag sent at_
      refine ⟨?_, by simp [reached], ?_, ?_, by simp [reached], by simp [reached], ?_, ?_⟩
      · intro _ i r' before there
        exact past (by rw [at_]; rfl) i r' before
          (result_of_wrote recorded step (recorded.live live).2 (Or.inl before) there)
      · intro killed is r' there
        rw [reached, Phase.settling.injEq] at is
        obtain ⟨rfl, -⟩ := is
        rw [Tolerated, (mine r' there).1]
        exact decides.goesOn.imp (congrArg some) fun lost =>
          ⟨congrArg some lost.1, flagHere.trans lost.2⟩
      · intro killed is
        rw [reached, Phase.settling.injEq] at is
        obtain ⟨rfl, -⟩ := is
        obtain ⟨intolerant, reason, rfl⟩ := decides.fails
        refine ⟨flagHere.trans intolerant, fun r' there => ?_⟩
        rw [(mine r' there).1, (mine r' there).2]
        exact ⟨rfl, rfl⟩
      · intro i late
        rcases timeouts i (told i ▸ late) with ⟨rfl, _, _, is, signalled⟩ | ⟨r', here, how⟩
        · rw [at_, Phase.undecided.injEq] at is
          refine Or.inr ⟨record (decidedOutcome verdict why) why changed r, ?_, ?_⟩
          · simp [View.result, results, place]
          · exact (decides.signalled (is.2 ▸ signalled)).imp
              (fun lost => ⟨congrArg some lost.1, lost.2⟩) (congrArg some)
        · refine Or.inr ⟨r', kept_step recorded step here ?_, how⟩
          rcases how with ⟨is, _⟩ | is <;> rw [is] <;> rfl
      · intro i r' there is
        by_cases here : i = v.cur
        · subst here
          rw [(mine r' there).1, Option.some.injEq] at is
          rw [reached]
          exact stopping_of_cancelled _ is
        · have before := judged.cancelled_of recorded step (recorded.live live).2 i r' there is (by
            rintro (before | ⟨mine, _⟩)
            · exact Or.inl before
            · exact absurd mine here)
          simp [at_, stopping] at before
  | movedOn killed at_ forked reaped =>
      have step : Step spec v _ := .movedOn v killed at_ forked reaped
      have opened := (recorded.live (by rw [at_]; rfl)).2
      have wrote : ∀ i, i < v.cur + 1 → v.wrote i :=
        fun i before => View.wrote_of_decided (by rw [at_]; rfl) before
      refine ⟨?_, by simp [phase], by simp [phase], by simp [phase], by simp [phase], by simp [phase],
        ?_, ?_⟩
      · intro _ i r before there
        have was := result_of_wrote recorded step opened (wrote i before) there
        rcases Nat.lt_succ_iff_lt_or_eq.mp before with before | rfl
        · exact past (by rw [at_]; rfl) i r before was
        · exact goOn killed at_ r was
      · intro i late
        exact Or.inr (judged.timedOut_of recorded step (by simp [at_])
          (by simp [timedOut_cons, Note.timesOut]) i late)
      · intro i r there is
        have before := judged.cancelled_of recorded step opened i r there is
          (by simpa [View.wrote, phase, Phase.decided] using wrote i)
        simp [at_, stopping] at before
  | closed verdict killed final why at_ forked reaped closes =>
      have step : Step spec v _ := .closed v verdict killed final why at_ forked reaped closes
      have live : (phase v.state).live = true := by rw [at_]; rfl
      have opened := (recorded.live live).2
      obtain ⟨rs, r, results, place, here⟩ := recorded.resultAt live
      have same : stopping (phase final) = stopping (phase v.state) := by
        rw [at_]
        cases closes <;> rfl
      obtain ⟨outcome, next⟩ := closes.final
      have notWon : outcome ≠ .success := by
        rintro rfl
        cases closes <;> contradiction
      refine ⟨?_, by simp [next], by simp [next], by simp [next], by simp [next, notWon], ?_, ?_, ?_⟩
      · intro passes
        cases closes <;> contradiction
      · intro lost
        have isFail : verdict = .fail ∧ why = v.carried := by
          cases closes with
          | fail => exact ⟨rfl, rfl⟩
          | timeout => exact absurd lost (by simp [phase])
          | cancel => exact absurd lost (by simp [phase])
        obtain ⟨rfl, rfl⟩ := isFail
        obtain ⟨intolerant, records⟩ := fail killed at_
        obtain ⟨lostStep, reason⟩ := records r here
        have last := begun.last
        rw [at_] at last
        refine Or.inr ⟨v.cur, r, last, kept_step recorded step here (by rw [lostStep]; rfl), lostStep,
          reason, Or.inr ⟨?_, intolerant⟩⟩
        simpa using begun.noneFailed shown forked
      · intro i late
        exact Or.inr (judged.timedOut_of recorded step (by simp [at_])
          (by simp [timedOut_cons, Note.timesOut]) i late)
      · intro i r' there is
        rw [same]
        refine judged.cancelled_of recorded step opened i r' there is ?_
        rintro (before | ⟨_, decided'⟩)
        · exact View.wrote_of_decided (by rw [at_]; rfl) before
        · simp only [next] at decided'
          contradiction

/-! ## How a job ends -/

/-- All that a career tells about the end of its job. -/
structure Accounted (spec : JobSpec) (v : View) : Prop where
  triggers : Triggers v
  shown : Shown v
  recorded : Recorded spec v
  begun : Begun v
  judged : Judged spec v

theorem accounted_step {spec : JobSpec} {v v' : View} (accounted : Accounted spec v)
    (step : Step spec v v') : Accounted spec v' where
  triggers := triggers_step accounted.triggers step
  shown := shown_step accounted.shown step
  recorded := recorded_step accounted.recorded step
  begun := begun_step accounted.begun accounted.recorded accounted.shown step
  judged := judged_step accounted.judged accounted.begun accounted.recorded accounted.shown step

theorem accounted_of_reachable {w : Workflow} {allowed : RunCtx → Answer → Prop} {ctx : RunCtx}
    {job : Job} (reachable : (machine w).Reachable allowed ctx) (member : job ∈ ctx.jobs) :
    Accounted job.spec job.view := by
  obtain ⟨j, here⟩ := List.mem_iff_getElem?.mp member
  exact (career_of_reachable reachable here).invariant (fun _ _ => accounted_step)
    ⟨triggers_initial, disciplined_initial.toShown, recorded_initial job.spec, begun_initial,
      judged_initial job.spec⟩

/-- While it ran the job was told of neither its timeout nor a cancel. -/
def Undisturbed (job : Job) : Prop :=
  triggered .jobTimeout job.notes = false ∧ triggered .cancel job.notes = false

/-- The job could not be started, or one of its steps could not be spawned. -/
def EngineFailed (job : Job) : Prop :=
  .started false ∈ job.notes ∨ ∃ i, .spawned i false ∈ job.notes

/-- `r`, the record written last, is a failure without `continue-on-error`. -/
def LastFailed (job : Job) (r : StepResult) : Prop :=
  ∃ i, lastRecorded job.notes = some i ∧ job.view.result i = some r ∧
    r.outcome = some .failed ∧ coeAt job.spec i = false

/-- How a job that was started ends. -/
structure OutcomeLaws (job : Job) : Prop where
  cancelled : job.state = .cancelled ↔
    triggered .jobTimeout job.notes = true ∨ triggered .cancel job.notes = true
  cancelRequested : triggered .cancel job.notes = true → job.reason = some .cancelRequested
  timeout : triggered .jobTimeout job.notes = true → triggered .cancel job.notes = false →
    job.reason = some .timeout
  failed : Undisturbed job → (job.state = .failed ↔ EngineFailed job ∨ ∃ r, LastFailed job r)
  engineError : Undisturbed job → EngineFailed job → job.reason = some .engineError
  stepReason : Undisturbed job → ∀ r, LastFailed job r → job.reason = r.reason
  /-- a step that timed out is recorded as such, whatever its leader exits with -/
  stepTimeout : Undisturbed job → ∀ i, timedOut i job.notes = true →
    ∃ r, job.view.result i = some r ∧ r.outcome = some .failed ∧ r.reason = some .timeout
  success : Undisturbed job → job.state ≠ .failed →
    job.state = .success ∧ job.reason = none ∧
      ∃ rs, job.steps = some rs ∧ rs.length = job.spec.steps.length ∧
        ∀ i r, rs[i]? = some r → Tolerated job.spec i r

theorem not_tolerated {spec : JobSpec} {i : Nat} {r : StepResult} (lost : r.outcome = some .failed)
    (intolerant : coeAt spec i = false) : ¬ Tolerated spec i r := by
  rintro (won | ⟨_, tolerant⟩)
  · rw [won] at lost
    contradiction
  · rw [intolerant] at tolerant
    contradiction

/-- A job that succeeded has tolerated records only. -/
theorem Accounted.tolerated {spec : JobSpec} {v : View} (accounted : Accounted spec v)
    (won : phase v.state = .final .success) {i : Nat} {r : StepResult}
    (here : v.result i = some r) : Tolerated spec i r := by
  obtain ⟨rs, results, place⟩ := View.result_eq_some.mp here
  have inRange := (List.getElem?_eq_some_iff.mp place).1
  rw [accounted.recorded.length rs results, ← (accounted.judged.success won).2.1] at inRange
  exact accounted.judged.past (by rw [won]; rfl) i r inRange here

/-- A job that succeeded had no failure that counts. -/
theorem Accounted.noneLost {job : Job} (accounted : Accounted job.spec job.view)
    (won : job.state = .success) : ¬ (EngineFailed job ∨ ∃ r, LastFailed job r) := by
  have at_ : phase job.view.state = .final .success := congrArg phase won
  rintro ((unstarted | ⟨i, unspawned⟩) | ⟨r, i, _, here, lost, intolerant⟩)
  · rcases (accounted.begun.notStarted unstarted).2 with other | other <;>
      rw [at_] at other <;> contradiction
  · rcases accounted.begun.spawnFailed i unspawned with ⟨⟨coe, other⟩, _⟩ | other <;>
      rw [at_] at other <;> contradiction
  · exact not_tolerated lost intolerant (accounted.tolerated at_ here)

/-- A job that failed failed for one of the two reasons, and says which. -/
theorem Accounted.lost {job : Job} (accounted : Accounted job.spec job.view)
    (lost : job.state = .failed) :
    (EngineFailed job ∨ ∃ r, LastFailed job r) ∧
      (EngineFailed job → job.reason = some .engineError) ∧
      ∀ r, LastFailed job r → job.reason = r.reason := by
  have at_ : phase job.view.state = .final .failed := congrArg phase lost
  rcases accounted.judged.failed at_ with ⟨unstarted, reason, none_⟩ |
    ⟨i, r, last, here, outcome, reason, cause⟩
  · refine ⟨Or.inl (Or.inl unstarted), fun _ => reason, ?_⟩
    rintro r ⟨i, last, _⟩
    rw [show lastRecorded job.notes = none from none_] at last
    contradiction
  · have only : ∀ r', LastFailed job r' → job.reason = r'.reason := by
      rintro r' ⟨i', last', here', _⟩
      obtain rfl : i = i' := Option.some.inj (last.symm.trans last')
      obtain rfl : r = r' := Option.some.inj (here.symm.trans here')
      exact reason.symm
    have opened : .started false ∉ job.notes := by
      intro unstarted
      obtain ⟨rs, results, _⟩ := View.result_eq_some.mp here
      rw [(accounted.begun.notStarted unstarted).1] at results
      contradiction
    rcases cause with ⟨unspawned, engine⟩ | ⟨spawned, intolerant⟩
    · exact ⟨Or.inl (Or.inr ⟨i, unspawned⟩), fun _ => engine, only⟩
    · refine ⟨Or.inr ⟨r, i, last, here, outcome, intolerant⟩, ?_, only⟩
      rintro (unstarted | ⟨k, unspawned⟩)
      · exact absurd unstarted opened
      · exact absurd unspawned (spawned k)

/-- A final job that was started ended by a trigger, or failed, or succeeded. -/
theorem Accounted.ended {job : Job} (accounted : Accounted job.spec job.view)
    (started : ∃ ok, .started ok ∈ job.notes) (final : job.state.isFinal = true) :
    job.state = .cancelled ∨ job.state = .failed ∨ job.state = .success := by
  obtain ⟨outcome, at_⟩ := (isFinal_iff job.state).mp final
  cases outcome with
  | cancelled => exact Or.inl (phase_injective at_)
  | failed => exact Or.inr (Or.inl (phase_injective at_))
  | success => exact Or.inr (Or.inr (phase_injective at_))
  | skipped =>
      obtain ⟨ok, there⟩ := started
      exact absurd there (accounted.begun.unstarted (Or.inr (Or.inr at_)) ok)

theorem Accounted.cancelled_iff {job : Job} (accounted : Accounted job.spec job.view)
    (final : job.state.isFinal = true) :
    job.state = .cancelled ↔
      triggered .jobTimeout job.notes = true ∨ triggered .cancel job.notes = true := by
  rw [← Bool.or_eq_true, show (triggered .jobTimeout job.notes || triggered .cancel job.notes) =
    stopping (phase job.state) from accounted.triggers.stopped]
  obtain ⟨outcome, at_⟩ := (isFinal_iff job.state).mp final
  constructor
  · rintro is
    rw [is]
    rfl
  · rw [at_]
    intro stops
    cases outcome with
    | cancelled => exact phase_injective at_
    | _ => contradiction

theorem outcomeLaws_of_accounted {job : Job} (accounted : Accounted job.spec job.view)
    (started : ∃ ok, .started ok ∈ job.notes) (final : job.state.isFinal = true) :
    OutcomeLaws job := by
  have cancelled := accounted.cancelled_iff final
  have cancels : triggered .cancel job.notes = cancelling job.reason (phase job.state) :=
    accounted.triggers.cancelled
  have ends : Undisturbed job → job.state = .failed ∨ job.state = .success := by
    rintro ⟨noTimeout, noCancel⟩
    refine (accounted.ended started final).resolve_left fun is => ?_
    rcases cancelled.mp is with told | told
    · rw [noTimeout] at told
      contradiction
    · rw [noCancel] at told
      contradiction
  refine ⟨cancelled, ?_, ?_, ?_, ?_, ?_, ?_, ?_⟩
  · intro told
    rw [told, cancelled.mpr (Or.inr told)] at cancels
    simpa [phase, cancelling] using cancels.symm
  · intro told untold
    have is := cancelled.mpr (Or.inl told)
    rw [untold, is] at cancels
    refine (accounted.triggers.reason is).resolve_right fun other => ?_
    rw [show job.reason = _ from other] at cancels
    contradiction
  · intro undisturbed
    rcases ends undisturbed with lost | won
    · exact ⟨fun _ => (accounted.lost lost).1, fun _ => lost⟩
    · refine ⟨fun lost => ?_, fun cause => absurd cause (accounted.noneLost won)⟩
      rw [won] at lost
      contradiction
  · intro undisturbed engine
    rcases ends undisturbed with lost | won
    · exact (accounted.lost lost).2.1 engine
    · exact absurd (Or.inl engine) (accounted.noneLost won)
  · intro undisturbed r last
    rcases ends undisturbed with lost | won
    · exact (accounted.lost lost).2.2 r last
    · exact absurd (Or.inr ⟨r, last⟩) (accounted.noneLost won)
  · intro undisturbed i late
    obtain ⟨outcome, at_⟩ := (isFinal_iff job.view.state).mp final
    rcases accounted.judged.timedOut i late with ⟨_, coe, sent, other, _⟩ | ⟨r, here, how⟩
    · rw [at_] at other
      contradiction
    · rcases how with how | cancelledStep
      · exact ⟨r, here, how⟩
      · have stops := accounted.judged.cancelled i r here cancelledStep
        rcases ends undisturbed with is | is <;>
          rw [show job.view.state = _ from is] at stops <;> contradiction
  · intro undisturbed notLost
    have won := (ends undisturbed).resolve_left notLost
    obtain ⟨reason, _, opened⟩ := accounted.judged.success (congrArg phase won)
    obtain ⟨rs, results⟩ := Option.isSome_iff_exists.mp opened
    refine ⟨won, reason, rs, results, accounted.recorded.length rs results, fun i r place => ?_⟩
    exact accounted.tolerated (congrArg phase won) (View.result_eq_some.mpr ⟨rs, results, place⟩)

/-- In every run and any order of events, how a started job ends follows from its
records and from what it was told. -/
theorem job_outcome_follows {w : Workflow} {ctx : RunCtx}
    (reachable : (machine w).Reachable Machine.Any ctx) :
    ∀ job ∈ ctx.jobs, (∃ ok, .started ok ∈ job.notes) → job.state.isFinal = true →
      OutcomeLaws job :=
  fun _ member => outcomeLaws_of_accounted (accounted_of_reachable reachable member)

theorem job_outcome_follows_stubbornStep : ∃ (ctx : RunCtx) (job : Job),
    (machine (localJobs ["solo"] true)).Reachable Machine.Any ctx ∧ job ∈ ctx.jobs ∧
      (∃ ok, .started ok ∈ job.notes) ∧ job.state = .success ∧ OutcomeLaws job := by
  obtain ⟨ctx, job, reachable, _, jobs, state, _, started, _⟩ := stubbornStep_runs
  have member : job ∈ ctx.jobs := by simp [jobs]
  exact ⟨ctx, job, reachable, member, started, state,
    job_outcome_follows reachable job member started (by rw [state]; rfl)⟩

end Qwe.Kernel
