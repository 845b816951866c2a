import Qwe.Kernel.Lifecycle

/-!
# What the table is for

The 21 states are a product in disguise.  A job waits, is between steps, has a
live step or is over; a live step is undecided or settling; an undecided step
knows its continue-on-error flag and the signal its group was sent, a settling
one the verdict and whether the group was killed.

`react` says in these terms what each event does.  `lookup_react` shows that the
flat table is exactly this machine: every later argument about a job goes
through `react` and never through the 294 cells.
-/

set_option autoImplicit false

namespace Qwe.Lifecycle

/-- What the live step's group has been sent. -/
inductive Signal where
  | none
  | term
  | kill
deriving DecidableEq, Repr

/-- What happens when the settling step's group is empty. -/
inductive Verdict where
  | goOn
  | fail
  | cancelTimeout
  | cancelRequested
deriving DecidableEq, Repr

inductive Phase where
  | pending
  | ready
  | between
  | undecided (coe : Bool) (sent : Signal)
  | settling (verdict : Verdict) (killed : Bool)
  | final (outcome : Outcome)
deriving DecidableEq, Repr

def phase : State → Phase
  | .pending => .pending
  | .ready => .ready
  | .betweenSteps => .between
  | .stepRunning => .undecided false .none
  | .stepRunningCoe => .undecided true .none
  | .stepStopping => .undecided false .term
  | .stepStoppingCoe => .undecided true .term
  | .stepKilling => .undecided false .kill
  | .stepKillingCoe => .undecided true .kill
  | .settlingContinueTerm => .settling .goOn false
  | .settlingContinueKill => .settling .goOn true
  | .settlingFailTerm => .settling .fail false
  | .settlingFailKill => .settling .fail true
  | .settlingCancelTimeoutTerm => .settling .cancelTimeout false
  | .settlingCancelTimeoutKill => .settling .cancelTimeout true
  | .settlingCancelRequestedTerm => .settling .cancelRequested false
  | .settlingCancelRequestedKill => .settling .cancelRequested true
  | .success => .final .success
  | .failed => .final .failed
  | .skipped => .final .skipped
  | .cancelled => .final .cancelled

theorem phase_injective : Function.Injective phase := by
  intro s t same
  cases s <;> cases t <;> first | rfl | cases same

/-- A step is live. -/
def Phase.live : Phase → Bool
  | .undecided _ _ => true
  | .settling _ _ => true
  | _ => false

/-- The live step's group has been sent SIGTERM. -/
def Phase.signalled : Phase → Bool
  | .undecided _ sent => sent ≠ .none
  | .settling _ _ => true
  | _ => false

/-- The live step's group has been sent SIGKILL. -/
def Phase.killed : Phase → Bool
  | .undecided _ sent => sent = .kill
  | .settling _ killed => killed
  | _ => false

/-- The live step is recorded. -/
def Phase.decided : Phase → Bool
  | .settling _ _ => true
  | _ => false

theorem phase_of_isLive {p : Phase} (live : p.live = true) :
    (∃ coe sent, p = .undecided coe sent) ∨ ∃ verdict killed, p = .settling verdict killed := by
  cases p with
  | undecided coe sent => exact Or.inl ⟨coe, sent, rfl⟩
  | settling verdict killed => exact Or.inr ⟨verdict, killed, rfl⟩
  | _ => contradiction

inductive Move where
  | impossible
  | ignore
  | go (next : Phase) (reason : ReasonKind) (actions : List Action)
deriving DecidableEq, Repr

/-- Teardown begins once: a group that has been signalled is not signalled again. -/
def teardown : Signal → List Action
  | .none => [.sigtermGroup, .armGrace]
  | .term => []
  | .kill => []

def Signal.killed : Signal → Bool
  | .kill => true
  | _ => false

/-- A decided step settles; it is recorded at that moment. -/
def settle (sent : Signal) (verdict : Verdict) (reason : ReasonKind) : Move :=
  .go (.settling verdict sent.killed) reason (teardown sent ++ [.recordStep])

/-- What follows a failed step. -/
def onFailure (coe : Bool) : Verdict := if coe then .goOn else .fail

/-- The whole group is gone. -/
def settled : Verdict → Move
  | .goOn => .go .between .none []
  | .fail => .go (.final .failed) .carried [.recordJob, .endJob]
  | .cancelTimeout => .go (.final .cancelled) .timeout [.recordJob, .endJob]
  | .cancelRequested => .go (.final .cancelled) .cancelRequested [.recordJob, .endJob]

/-- The machine the table encodes.  `coe` is the payload of next-step. -/
def react (coe : Bool) : Phase → Event → Move
  | .pending, .needsMet => .go .ready .none []
  | .pending, .needsFailed => .go (.final .skipped) .dependencyFailed [.recordJob, .endJob]
  | .pending, .cancel => .go (.final .skipped) .cancelRequested [.recordJob, .endJob]
  | .pending, .skip => .go (.final .skipped) .fromEvent [.recordJob, .endJob]
  | .ready, .slotGranted => .go .between .none [.startJob]
  | .ready, .cancel => .go (.final .skipped) .cancelRequested [.recordJob, .endJob]
  | .ready, .skip => .go (.final .skipped) .fromEvent [.recordJob, .endJob]
  | .between, .nextStep => .go (.undecided coe .none) .none [.spawnStep]
  | .between, .noMoreSteps => .go (.final .success) .none [.recordJob, .endJob]
  | .between, .startFailed => .go (.final .failed) .engineError [.recordJob, .endJob]
  | .between, .jobTimeout => .go (.final .cancelled) .timeout [.recordJob, .endJob]
  | .between, .cancel => .go (.final .cancelled) .cancelRequested [.recordJob, .endJob]
  | .undecided _ .none, .startFailed =>
      .go (.final .failed) .engineError [.recordStep, .recordJob, .endJob]
  | .undecided _ .none, .leaderExitOk => settle .none .goOn .none
  | .undecided coe .none, .leaderExitFail => settle .none (onFailure coe) .fromEvent
  -- a timed-out step failed whatever its leader's status was
  | .undecided coe sent, .leaderExitOk => settle sent (onFailure coe) .timeout
  | .undecided coe sent, .leaderExitFail => settle sent (onFailure coe) .timeout
  | .undecided coe .none, .stepTimeout =>
      .go (.undecided coe .term) .timeout (teardown .none)
  | .undecided _ sent, .jobTimeout => settle sent .cancelTimeout .timeout
  | .undecided _ sent, .cancel => settle sent .cancelRequested .cancelRequested
  | .undecided coe .term, .graceExpired => .go (.undecided coe .kill) .none [.sigkillGroup]
  | .settling _ _, .leaderExitOk => .ignore
  | .settling _ _, .leaderExitFail => .ignore
  | .settling _ _, .stepTimeout => .ignore
  | .settling .cancelTimeout _, .jobTimeout => .impossible
  | .settling .cancelRequested _, .jobTimeout => .ignore
  | .settling _ killed, .jobTimeout => .go (.settling .cancelTimeout killed) .timeout []
  | .settling .cancelRequested _, .cancel => .ignore
  | .settling _ killed, .cancel => .go (.settling .cancelRequested killed) .cancelRequested []
  | .settling verdict false, .graceExpired => .go (.settling verdict true) .none [.sigkillGroup]
  | .settling verdict _, .groupEmpty => settled verdict
  | .final _, .cancel => .ignore
  | _, _ => .impossible

/-! ## Where an event can arrive -/

section Arrives
variable {coe : Bool} {p : Phase}

theorem phase_of_needsMet (possible : react coe p .needsMet ≠ .impossible) : p = .pending := by
  rcases p with _ | _ | _ | ⟨_, _ | _ | _⟩ | ⟨_ | _ | _ | _, _ | _⟩ | _
  · rfl
  all_goals exact absurd rfl possible

theorem phase_of_needsFailed (possible : react coe p .needsFailed ≠ .impossible) :
    p = .pending := by
  rcases p with _ | _ | _ | ⟨_, _ | _ | _⟩ | ⟨_ | _ | _ | _, _ | _⟩ | _
  · rfl
  all_goals exact absurd rfl possible

theorem phase_of_slotGranted (possible : react coe p .slotGranted ≠ .impossible) :
    p = .ready := by
  rcases p with _ | _ | _ | ⟨_, _ | _ | _⟩ | ⟨_ | _ | _ | _, _ | _⟩ | _
  all_goals first | rfl | exact absurd rfl possible

theorem phase_of_skip (possible : react coe p .skip ≠ .impossible) :
    p = .pending ∨ p = .ready := by
  rcases p with _ | _ | _ | ⟨_, _ | _ | _⟩ | ⟨_ | _ | _ | _, _ | _⟩ | _
  · exact Or.inl rfl
  · exact Or.inr rfl
  all_goals exact absurd rfl possible

theorem phase_of_nextStep (possible : react coe p .nextStep ≠ .impossible) : p = .between := by
  rcases p with _ | _ | _ | ⟨_, _ | _ | _⟩ | ⟨_ | _ | _ | _, _ | _⟩ | _
  all_goals first | rfl | exact absurd rfl possible

theorem phase_of_noMoreSteps (possible : react coe p .noMoreSteps ≠ .impossible) :
    p = .between := by
  rcases p with _ | _ | _ | ⟨_, _ | _ | _⟩ | ⟨_ | _ | _ | _, _ | _⟩ | _
  all_goals first | rfl | exact absurd rfl possible

theorem phase_of_groupEmpty (possible : react coe p .groupEmpty ≠ .impossible) :
    ∃ verdict killed, p = .settling verdict killed := by
  rcases p with _ | _ | _ | ⟨_, _ | _ | _⟩ | ⟨verdict, killed⟩ | _
  all_goals first | exact ⟨_, _, rfl⟩ | exact absurd rfl possible

theorem phase_of_stepTimeout (possible : react coe p .stepTimeout ≠ .impossible) :
    (∃ flag, p = .undecided flag .none) ∨ ∃ verdict killed, p = .settling verdict killed := by
  rcases p with _ | _ | _ | ⟨flag, _ | _ | _⟩ | ⟨verdict, killed⟩ | _
  all_goals first
    | exact Or.inl ⟨_, rfl⟩
    | exact Or.inr ⟨_, _, rfl⟩
    | exact absurd rfl possible

theorem phase_of_graceExpired (possible : react coe p .graceExpired ≠ .impossible) :
    (∃ flag, p = .undecided flag .term) ∨ ∃ verdict, p = .settling verdict false := by
  rcases p with _ | _ | _ | ⟨flag, _ | _ | _⟩ | ⟨_ | _ | _ | _, _ | _⟩ | _
  all_goals first
    | exact Or.inl ⟨_, rfl⟩
    | exact Or.inr ⟨_, rfl⟩
    | exact absurd rfl possible

end Arrives

/-- A leader's exit decides an undecided step. -/
theorem react_leaderExit (payload coe : Bool) (sent : Signal) {ev : Event}
    (exits : ev = .leaderExitOk ∨ ev = .leaderExitFail) :
    ∃ verdict kind, react payload (.undecided coe sent) ev = settle sent verdict kind ∧
      (verdict = .goOn ∨ verdict = .fail) := by
  rcases exits with rfl | rfl <;> cases sent <;> cases coe <;>
    first
      | exact ⟨.goOn, _, rfl, Or.inl rfl⟩
      | exact ⟨.fail, _, rfl, Or.inr rfl⟩

/-! ## Where an action can come from -/

section Actions
variable {coe : Bool} {p next : Phase} {ev : Event} {kind : ReasonKind} {actions : List Action}

/-- Neither a start nor a spawn. -/
def Plain (actions : List Action) : Prop :=
  Action.startJob ∉ actions ∧ Action.spawnStep ∉ actions

theorem plain_of_settle {sent : Signal} {verdict : Verdict} {reason : ReasonKind}
    (moves : settle sent verdict reason = .go next kind actions) : Plain actions := by
  cases moves
  cases sent <;> simp [Plain, teardown]

theorem plain_of_settled {verdict : Verdict} (moves : settled verdict = .go next kind actions) :
    Plain actions := by
  cases verdict <;> cases moves <;> simp [Plain]

/-- A job is started when it is granted a slot, a step spawned by next-step. -/
theorem react_actions (moves : react coe p ev = .go next kind actions) :
    Plain actions ∨ (p = .ready ∧ ev = .slotGranted ∧ actions = [.startJob]) ∨
      (p = .between ∧ ev = .nextStep ∧ actions = [.spawnStep]) := by
  unfold react at moves
  split at moves
  all_goals first
    | contradiction
    | exact Or.inl (plain_of_settle moves)
    | exact Or.inl (plain_of_settled moves)
    | (cases moves; simp [Plain, teardown])

theorem react_spawnStep (moves : react coe p ev = .go next kind actions)
    (spawns : Action.spawnStep ∈ actions) :
    p = .between ∧ ev = .nextStep ∧ actions = [.spawnStep] := by
  rcases react_actions moves with plain | ⟨_, _, rfl⟩ | here
  · exact absurd spawns plain.2
  · simp at spawns
  · exact here

/-- No move leads back to waiting. -/
theorem react_started (moves : react coe p ev = .go next kind actions)
    (started : p ≠ .pending ∧ p ≠ .ready) : next ≠ .pending ∧ next ≠ .ready := by
  unfold react at moves
  split at moves
  all_goals first
    | contradiction
    | (cases moves; simp)
    | (rename_i verdict _; cases verdict <;> cases moves <;> simp)

end Actions

/-- A lookup as a move of the abstract machine. -/
def moveOf : Option Result → Move
  | none => .impossible
  | some r =>
      match r.kind with
      | .ignore => .ignore
      | _ => .go (phase r.next) r.reasonKind r.actions

/-- The flat table refines the machine, cell by cell. -/
theorem lookup_react (s : State) (e : Event) (p : Payload) :
    moveOf (lookup s e p) = react p.coe (phase s) e := by
  obtain ⟨coe, reason, carried⟩ := p
  cases s <;> cases e <;> cases coe <;> rfl

theorem lookup_ne_none {s : State} {e : Event} {p : Payload}
    (possible : react p.coe (phase s) e ≠ .impossible) : ∃ r, lookup s e p = some r := by
  cases found : lookup s e p with
  | none =>
      have refines := lookup_react s e p
      rw [found] at refines
      exact absurd refines.symm possible
  | some r => exact ⟨r, rfl⟩

/-- Everything a lookup can return: an ignore changes nothing, a transition is
the machine's. -/
theorem lookup_cases {s : State} {e : Event} {p : Payload} {r : Result}
    (found : lookup s e p = some r) :
    (react p.coe (phase s) e = .ignore ∧ r = ⟨.ignore, s, .none, none, []⟩) ∨
    (react p.coe (phase s) e = .go (phase r.next) r.reasonKind r.actions ∧
      r.kind = .transition ∧ r.reason = reasonText r.reasonKind p) := by
  obtain ⟨coe, reason, carried⟩ := p
  cases s <;> cases e <;> cases coe <;> cases found <;>
    first | exact Or.inl ⟨rfl, rfl⟩ | exact Or.inr ⟨rfl, rfl, rfl⟩

theorem isFinal_iff (s : State) : s.isFinal = true ↔ ∃ outcome, phase s = .final outcome := by
  cases s <;> simp [phase] <;> decide

theorem isRunning_iff (s : State) :
    s.isRunning = true ↔
      phase s ≠ .pending ∧ phase s ≠ .ready ∧ ∀ outcome, phase s ≠ .final outcome := by
  cases s <;> simp [phase] <;> decide

end Qwe.Lifecycle
