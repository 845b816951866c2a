import Mathlib.Tactic.Common

/-!
# The lifecycle table

`src/kernel/lifecycle.c`: one flat table from (state, event) to a cell.  The
table is written row by row in the order of the source, one cell per event; a
cell left out of a row is `unset`, as in a zero-initialised C array.

The reason of a cell is one of the fixed reasons, the event's own one, or the
one carried from an earlier transition.  `Reason` lists every text the kernel
puts into a payload or a record.
-/

set_option autoImplicit false

namespace Qwe.Lifecycle

inductive State where
  | pending
  | ready
  | betweenSteps
  | stepRunning
  | stepRunningCoe
  | stepStopping
  | stepStoppingCoe
  | stepKilling
  | stepKillingCoe
  | settlingContinueTerm
  | settlingContinueKill
  | settlingFailTerm
  | settlingFailKill
  | settlingCancelTimeoutTerm
  | settlingCancelTimeoutKill
  | settlingCancelRequestedTerm
  | settlingCancelRequestedKill
  | success
  | failed
  | skipped
  | cancelled
deriving DecidableEq, Repr

inductive Event where
  | needsMet
  | needsFailed
  | slotGranted
  | nextStep
  | noMoreSteps
  | startFailed
  | leaderExitOk
  | leaderExitFail
  | stepTimeout
  | jobTimeout
  | cancel
  | graceExpired
  | groupEmpty
  | skip
deriving DecidableEq, Repr

/-- The actions of a cell.  `QWE_LC_ACT_NONE` only pads the C array and is not
needed in a list. -/
inductive Action where
  | startJob
  | spawnStep
  | sigtermGroup
  | armGrace
  | sigkillGroup
  | recordStep
  | recordJob
  | endJob
deriving DecidableEq, Repr

inductive Kind where
  | unset
  | transition
  | ignore
  | impossible
deriving DecidableEq, Repr

/-- `enum qwe_lc_reason`. -/
inductive ReasonKind where
  | none
  | dependencyFailed
  | cancelRequested
  | timeout
  | engineError
  | fromEvent
  | carried
deriving DecidableEq, Repr

/-- The reason texts of the kernel. -/
inductive Reason where
  | dependencyFailed
  | cancelRequested
  | timeout
  | engineError
  | exitCode
  | notConverged
  | becomeDenied
  | pluginError
  | unreachable
  | connectionLost
  | targetDisabled
deriving DecidableEq, Repr

structure Cell where
  kind : Kind
  next : State
  reason : ReasonKind
  coeByPayload : Bool
  actions : List Action
deriving DecidableEq, Repr

/-! ## The table -/

def T (next : State) (reason : ReasonKind) (actions : List Action) : Cell :=
  ⟨.transition, next, reason, false, actions⟩

/-- Like `T`, but the next-step event says which of two states. -/
def TC (next : State) (reason : ReasonKind) (actions : List Action) : Cell :=
  ⟨.transition, next, reason, true, actions⟩

def I (state : State) : Cell := ⟨.ignore, state, .none, false, []⟩

def X : Cell := ⟨.impossible, .pending, .none, false, []⟩

def unsetCell : Cell := ⟨.unset, .pending, .none, false, []⟩

/-- The rows of `table`.  The columns are needs-met, needs-failed, slot-granted,
next-step, no-more-steps, start-failed, leader-exit-ok, leader-exit-fail,
step-timeout, job-timeout, cancel, grace-expired, group-empty, skip. -/
def row : State → List Cell
  | .pending =>
      [T .ready .none [], T .skipped .dependencyFailed [.recordJob, .endJob],
        X, X, X, X, X, X, X, X,
        T .skipped .cancelRequested [.recordJob, .endJob], X, X,
        T .skipped .fromEvent [.recordJob, .endJob]]
  | .ready =>
      [X, X, T .betweenSteps .none [.startJob], X, X, X, X, X, X, X,
        T .skipped .cancelRequested [.recordJob, .endJob], X, X,
        T .skipped .fromEvent [.recordJob, .endJob]]
  | .betweenSteps =>
      [X, X, X, TC .stepRunning .none [.spawnStep], T .success .none [.recordJob, .endJob],
        T .failed .engineError [.recordJob, .endJob], X, X, X,
        T .cancelled .timeout [.recordJob, .endJob],
        T .cancelled .cancelRequested [.recordJob, .endJob], X, X, X]
  | .stepRunning =>
      [X, X, X, X, X, T .failed .engineError [.recordStep, .recordJob, .endJob],
        T .settlingContinueTerm .none [.sigtermGroup, .armGrace, .recordStep],
        T .settlingFailTerm .fromEvent [.sigtermGroup, .armGrace, .recordStep],
        T .stepStopping .timeout [.sigtermGroup, .armGrace],
        T .settlingCancelTimeoutTerm .timeout [.sigtermGroup, .armGrace, .recordStep],
        T .settlingCancelRequestedTerm .cancelRequested [.sigtermGroup, .armGrace, .recordStep],
        X, X, X]
  | .stepRunningCoe =>
      [X, X, X, X, X, T .failed .engineError [.recordStep, .recordJob, .endJob],
        T .settlingContinueTerm .none [.sigtermGroup, .armGrace, .recordStep],
        T .settlingContinueTerm .fromEvent [.sigtermGroup, .armGrace, .recordStep],
        T .stepStoppingCoe .timeout [.sigtermGroup, .armGrace],
        T .settlingCancelTimeoutTerm .timeout [.sigtermGroup, .armGrace, .recordStep],
        T .settlingCancelRequestedTerm .cancelRequested [.sigtermGroup, .armGrace, .recordStep],
        X, X, X]
  | .stepStopping =>
      [X, X, X, X, X, X,
        T .settlingFailTerm .timeout [.recordStep],
        T .settlingFailTerm .timeout [.recordStep], X,
        T .settlingCancelTimeoutTerm .timeout [.recordStep],
        T .settlingCancelRequestedTerm .cancelRequested [.recordStep],
        T .stepKilling .none [.sigkillGroup], X, X]
  | .stepStoppingCoe =>
      [X, X, X, X, X, X,
        T .settlingContinueTerm .timeout [.recordStep],
        T .settlingContinueTerm .timeout [.recordStep], X,
        T .settlingCancelTimeoutTerm .timeout [.recordStep],
        T .settlingCancelRequestedTerm .cancelRequested [.recordStep],
        T .stepKillingCoe .none [.sigkillGroup], X, X]
  | .stepKilling =>
      [X, X, X, X, X, X,
        T .settlingFailKill .timeout [.recordStep],
        T .settlingFailKill .timeout [.recordStep], X,
        T .settlingCancelTimeoutKill .timeout [.recordStep],
        T .settlingCancelRequestedKill .cancelRequested [.recordStep], X, X, X]
  | .stepKillingCoe =>
      [X, X, X, X, X, X,
        T .settlingContinueKill .timeout [.recordStep],
        T .settlingContinueKill .timeout [.recordStep], X,
        T .settlingCancelTimeoutKill .timeout [.recordStep],
        T .settlingCancelRequestedKill .cancelRequested [.recordStep], X, X, X]
  | .settlingContinueTerm =>
      [X, X, X, X, X, X,
        I .settlingContinueTerm, I .settlingContinueTerm, I .settlingContinueTerm,
        T .settlingCancelTimeoutTerm .timeout [],
        T .settlingCancelRequestedTerm .cancelRequested [],
        T .settlingContinueKill .none [.sigkillGroup],
        T .betweenSteps .none [], X]
  | .settlingContinueKill =>
      [X, X, X, X, X, X,
        I .settlingContinueKill, I .settlingContinueKill, I .settlingContinueKill,
        T .settlingCancelTimeoutKill .timeout [],
        T .settlingCancelRequestedKill .cancelRequested [], X,
        T .betweenSteps .none [], X]
  | .settlingFailTerm =>
      [X, X, X, X, X, X,
        I .settlingFailTerm, I .settlingFailTerm, I .settlingFailTerm,
        T .settlingCancelTimeoutTerm .timeout [],
        T .settlingCancelRequestedTerm .cancelRequested [],
        T .settlingFailKill .none [.sigkillGroup],
        T .failed .carried [.recordJob, .endJob], X]
  | .settlingFailKill =>
      [X, X, X, X, X, X,
        I .settlingFailKill, I .settlingFailKill, I .settlingFailKill,
        T .settlingCancelTimeoutKill .timeout [],
        T .settlingCancelRequestedKill .cancelRequested [], X,
        T .failed .carried [.recordJob, .endJob], X]
  | .settlingCancelTimeoutTerm =>
      [X, X, X, X, X, X,
        I .settlingCancelTimeoutTerm, I .settlingCancelTimeoutTerm,
        I .settlingCancelTimeoutTerm, X,
        T .settlingCancelRequestedTerm .cancelRequested [],
        T .settlingCancelTimeoutKill .none [.sigkillGroup],
        T .cancelled .timeout [.recordJob, .endJob], X]
  | .settlingCancelTimeoutKill =>
      [X, X, X, X, X, X,
        I .settlingCancelTimeoutKill, I .settlingCancelTimeoutKill,
        I .settlingCancelTimeoutKill, X,
        T .settlingCancelRequestedKill .cancelRequested [], X,
        T .cancelled .timeout [.recordJob, .endJob], X]
  | .settlingCancelRequestedTerm =>
      [X, X, X, X, X, X,
        I .settlingCancelRequestedTerm, I .settlingCancelRequestedTerm,
        I .settlingCancelRequestedTerm, I .settlingCancelRequestedTerm,
        I .settlingCancelRequestedTerm,
        T .settlingCancelRequestedKill .none [.sigkillGroup],
        T .cancelled .cancelRequested [.recordJob, .endJob], X]
  | .settlingCancelRequestedKill =>
      [X, X, X, X, X, X,
        I .settlingCancelRequestedKill, I .settlingCancelRequestedKill,
        I .settlingCancelRequestedKill, I .settlingCancelRequestedKill,
        I .settlingCancelRequestedKill, X,
        T .cancelled .cancelRequested [.recordJob, .endJob], X]
  | .success => [X, X, X, X, X, X, X, X, X, X, I .success, X, X, X]
  | .failed => [X, X, X, X, X, X, X, X, X, X, I .failed, X, X, X]
  | .skipped => [X, X, X, X, X, X, X, X, X, X, I .skipped, X, X, X]
  | .cancelled => [X, X, X, X, X, X, X, X, X, X, I .cancelled, X, X, X]

/-- `qwe_lc_cell`. -/
def cell (s : State) (e : Event) : Cell := (row s).getD e.ctorIdx unsetCell

/-! ## The lookup -/

/-- What an event carries. -/
structure Payload where
  coe : Bool
  reason : Option Reason
  carried : Option Reason
deriving DecidableEq, Repr

/-- `{0, NULL, NULL}`. -/
def Payload.none : Payload := ⟨false, Option.none, Option.none⟩

/-- A cell with the payload applied. -/
structure Result where
  kind : Kind
  next : State
  reasonKind : ReasonKind
  reason : Option Reason
  actions : List Action
deriving DecidableEq, Repr

/-- The states in the enum's order. -/
def State.all : List State :=
  [.pending, .ready, .betweenSteps, .stepRunning, .stepRunningCoe, .stepStopping,
    .stepStoppingCoe, .stepKilling, .stepKillingCoe, .settlingContinueTerm,
    .settlingContinueKill, .settlingFailTerm, .settlingFailKill,
    .settlingCancelTimeoutTerm, .settlingCancelTimeoutKill,
    .settlingCancelRequestedTerm, .settlingCancelRequestedKill, .success, .failed,
    .skipped, .cancelled]

/-- The enum value after `s`: a coe state is its plain state plus one. -/
def State.plusOne (s : State) : State := State.all.getD (s.ctorIdx + 1) s

/-- `qwe_lc_next`. -/
def next (c : Cell) (coe : Bool) : State :=
  if c.coeByPayload && coe then c.next.plusOne else c.next

/-- `qwe_lc_reason_name`: the text of a fixed reason. -/
def reasonName : ReasonKind → Option Reason
  | .dependencyFailed => some .dependencyFailed
  | .cancelRequested => some .cancelRequested
  | .timeout => some .timeout
  | .engineError => some .engineError
  | _ => Option.none

/-- The reason of a cell, with the payload applied. -/
def reasonText (kind : ReasonKind) (p : Payload) : Option Reason :=
  match kind with
  | .fromEvent => p.reason
  | .carried => p.carried
  | fixed => reasonName fixed

/-- `qwe_lc_lookup`.  An impossible or unset cell aborts the run: no result. -/
def lookup (s : State) (e : Event) (p : Payload) : Option Result :=
  let c := cell s e
  match c.kind with
  | .impossible => Option.none
  | .unset => Option.none
  | kind =>
      some {
        kind := kind
        next := if kind = .ignore then s else next c p.coe
        reasonKind := c.reason
        reason := reasonText c.reason p
        actions := c.actions }

def State.isFinal (s : State) : Bool :=
  State.success.ctorIdx ≤ s.ctorIdx

def State.isRunning (s : State) : Bool :=
  State.betweenSteps.ctorIdx ≤ s.ctorIdx &&
    s.ctorIdx ≤ State.settlingCancelRequestedKill.ctorIdx

/-- `qwe_lc_event_is_stale`.  A step index is `none` for -1. -/
def eventIsStale (s : State) (e : Event) (eventStep liveStep : Option Nat) : Bool :=
  match e with
  | .leaderExitOk | .leaderExitFail | .stepTimeout | .graceExpired | .groupEmpty =>
      eventStep != liveStep
  | .jobTimeout => s.isFinal
  | _ => false

inductive Outcome where
  | success
  | failed
  | cancelled
  | skipped
deriving DecidableEq, Repr

/-- `qwe_lc_step_outcome`. -/
def stepOutcome (r : Result) : Outcome :=
  if State.settlingCancelTimeoutTerm.ctorIdx ≤ r.next.ctorIdx &&
      r.next.ctorIdx ≤ State.settlingCancelRequestedKill.ctorIdx then .cancelled
  else if r.reason.isSome then .failed
  else .success

end Qwe.Lifecycle
