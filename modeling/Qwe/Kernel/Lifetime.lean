import Mathlib
import Qwe.Kernel.View

/-!
# How long a job can live

The events come in any order and any number, but a job changes its state only so often: a
waiting job can be started, each of its steps can time out, be killed, be decided and settle,
and the last one's verdict can be overruled twice.  `potential` counts what is left of this, and
every step of a career takes from it what it adds to the history.
-/

set_option autoImplicit false

namespace Qwe.Kernel

open Qwe.Lifecycle Qwe.Sched

/-- The job was told of an event, and changed its state. -/
def Note.moves : Note → Bool
  | .told _ _ before after => before != after
  | _ => false

def moves (notes : List Note) : Nat := notes.countP Note.moves

/-- How often the verdict can still be overruled, and the group be emptied. -/
def openness : Verdict → Nat
  | .goOn => 3
  | .fail => 3
  | .cancelTimeout => 2
  | .cancelRequested => 1

/-- How often a job with so many steps can still change its state, `later` of them after the
step that is live or comes next. -/
def potentialOf (steps later : Nat) : Phase → Nat
  | .pending => 5 * steps + 4
  | .ready => 5 * steps + 3
  | .between => 5 * steps + 2
  | .undecided _ .none => 5 * later + 6
  | .undecided _ .term => 5 * later + 5
  | .undecided _ .kill => 5 * later + 4
  | .settling verdict killed => 5 * later + openness verdict + if killed then 0 else 1
  | .final _ => 0

def potential (spec : JobSpec) (v : View) : Nat :=
  potentialOf (spec.steps.length - v.cur) (spec.steps.length - (v.cur + 1)) (phase v.state)

section Moves
variable {spec : JobSpec} {v v' : View}

theorem moves_told (ev : Event) (live : Option Nat) (before after : State) (notes : List Note) :
    moves (.told ev live before after :: notes) ≤ moves notes + 1 := by
  rw [moves, List.countP_cons]
  exact Nat.add_le_add_left (by split <;> decide) _

theorem moves_still (ev : Event) (live : Option Nat) (state : State) (notes : List Note) :
    moves (.told ev live state state :: notes) = moves notes := by
  rw [moves, List.countP_cons, Note.moves, bne_self_eq_false]
  rfl

/-- Other notes do not count. -/
theorem moves_tornDown (sent : Signal) (step : Nat) (notes : List Note) :
    moves (tornDown sent step ++ notes) = moves notes := by
  cases sent <;> rfl

theorem openness_pos (verdict : Verdict) : 1 ≤ openness verdict ∧ openness verdict ≤ 3 := by
  cases verdict <;> decide

theorem openness_overruled {verdict verdict' : Verdict} {ev : Event} {why : Reason}
    (overrules : Overrules verdict ev verdict' why) : openness verdict' < openness verdict := by
  cases overrules with
  | timeout open_ =>
      rcases open_ with rfl | rfl <;> decide
  | cancel open_ =>
      cases verdict with
      | cancelRequested => contradiction
      | _ => decide

/-- One transition, to a phase with less ahead of it. -/
theorem potential_moved {ev : Event} {live : Option Nat} {notes : List Note}
    (told : moves v'.notes = moves (.told ev live v.state v'.state :: notes)) (same : moves notes = moves v.notes)
    (less : potential spec v' < potential spec v) :
    moves v'.notes + potential spec v' ≤ moves v.notes + potential spec v := by
  have more := moves_told ev live v.state v'.state notes
  rw [told]
  omega

/-- A step takes from the potential what it adds to the history. -/
theorem potential_step (step : Step spec v v') :
    moves v'.notes + potential spec v' ≤ moves v.notes + potential spec v := by
  have ready : phase .ready = .ready := rfl
  have between : phase .betweenSteps = .between := rfl
  have skipped : phase .skipped = .final .skipped := rfl
  have failed : phase .failed = .final .failed := rfl
  cases step with
  | ignored coe ev live still => exact Nat.le_of_eq (congrArg (· + _) (moves_still ev live v.state v.notes))
  | reaped => exact Nat.le_refl _
  | needsMet at_ =>
      refine potential_moved rfl rfl ?_
      simp only [potential, at_, ready, potentialOf]
      omega
  | skipped ev why at_ skips =>
      refine potential_moved rfl rfl ?_
      rcases at_ with at_ | at_
      · simp only [potential, at_, skipped, potentialOf]
        omega
      · simp only [potential, at_, skipped, potentialOf]
        omega
  | started ok at_ =>
      refine potential_moved rfl rfl ?_
      simp only [potential, at_, between, potentialOf]
      omega
  | notStarted at_ closed =>
      refine potential_moved rfl rfl ?_
      simp only [potential, at_, failed, potentialOf]
      omega
  | stopped ev last why at_ opened stops =>
      obtain ⟨outcome, final⟩ := stops.final
      refine potential_moved rfl rfl ?_
      simp only [potential, at_, final, potentialOf]
      omega
  | spawned step next ok at_ opened here reached =>
      have more : v.cur < spec.steps.length := (List.getElem?_eq_some_iff.mp here).1
      refine potential_moved rfl rfl ?_
      simp only [potential, at_, reached, potentialOf]
      omega
  | notSpawned coe changed at_ unforked =>
      refine potential_moved rfl rfl ?_
      simp only [potential, at_, failed, potentialOf]
      omega
  | timedOut coe next at_ forked reached =>
      refine potential_moved rfl rfl ?_
      simp only [potential, at_, reached, potentialOf]
      omega
  | killed next forked changes =>
      refine potential_moved rfl rfl ?_
      rcases changes with ⟨coe, at_, reached⟩ | ⟨verdict, at_, reached⟩
      · simp only [potential, at_, reached, potentialOf]
        omega
      · simp only [potential, at_, reached, potentialOf, Bool.false_eq_true, if_false, if_true]
        omega
  | decided coe sent ev verdict why changed next at_ forked reaped decides reached =>
      refine potential_moved (moves_tornDown sent v.cur _) rfl ?_
      have open_ := (openness_pos verdict).2
      cases sent with
      | none =>
          simp only [potential, at_, reached, potentialOf]
          split <;> omega
      | term =>
          simp only [potential, at_, reached, potentialOf]
          split <;> omega
      | kill =>
          simp only [potential, at_, reached, potentialOf, Signal.killed, if_true]
          omega
  | overruled verdict verdict' killed ev why next at_ overrules reached =>
      have less := openness_overruled overrules
      refine potential_moved rfl rfl ?_
      simp only [potential, at_, reached, potentialOf]
      omega
  | movedOn killed at_ forked reaped =>
      refine potential_moved rfl rfl ?_
      simp only [potential, at_, between, potentialOf, openness]
      split <;> omega
  | closed verdict killed last why at_ forked reaped closes =>
      obtain ⟨outcome, final⟩ := closes.final
      have open_ := (openness_pos verdict).1
      refine potential_moved rfl rfl ?_
      simp only [potential, at_, final, potentialOf]
      omega

theorem potential_career (career : Career spec v v') :
    moves v'.notes + potential spec v' ≤ moves v.notes + potential spec v := by
  induction career with
  | refl => exact Nat.le_refl _
  | tail _ step inductionHypothesis => exact Nat.le_trans (potential_step step) inductionHypothesis

end Moves

/-! ## Every run -/

/-- All the jobs of a run together. -/
def RunCtx.moves (ctx : RunCtx) : Nat := (ctx.jobs.map fun job => Kernel.moves job.notes).sum

section Runs
variable {w : Workflow} {allowed : RunCtx → Answer → Prop} {ctx : RunCtx}

/-- A job changes its state at most five times for each of its steps, and four times more. -/
theorem job_moves_bounded (reachable : (machine w).Reachable allowed ctx) {k : Nat} {job : Job}
    (here : ctx.jobs[k]? = some job) : moves job.notes ≤ 5 * job.spec.steps.length + 4 := by
  have bound := potential_career (career_of_reachable reachable here)
  have start : moves View.initial.notes + potential job.spec View.initial = 5 * job.spec.steps.length + 4 := by
    simp [potential, View.initial, phase, potentialOf, moves]
  rw [start] at bound
  exact Nat.le_of_add_right_le bound

/-- Whatever events come in whatever order, each job, and a run as a whole, has so many
state changes and no more. -/
theorem moves_bounded (reachable : (machine w).Reachable allowed ctx) :
    (∀ (k : Nat) (job : Job), ctx.jobs[k]? = some job → moves job.notes ≤ 5 * job.spec.steps.length + 4) ∧
      ctx.moves ≤ (w.jobs.map fun spec => 5 * spec.steps.length + 4).sum := by
  refine ⟨fun k job here => job_moves_bounded reachable here, ?_⟩
  rw [← specs_of_reachable reachable, List.map_map, RunCtx.moves]
  apply List.sum_le_sum
  intro job member
  obtain ⟨k, here⟩ := List.getElem?_of_mem member
  exact job_moves_bounded reachable here

end Runs

/-- A job with one step and a timeout of its own. -/
def wornJob : Workflow :=
  { localJobs ["one"] false with
    jobs := [⟨"one", "local", [], [⟨none, none, none, false, false, 1000⟩], 60000⟩] }

/-- The step times out and is killed, then the job times out, and then it is cancelled. -/
def wornOut : List Answer :=
  List.replicate 15 .calm ++ List.replicate 8 (.reports (tagMake 0 .stepTimer (some 0))) ++
    List.replicate 8 (.reports (tagMake 0 .graceTimer (some 0))) ++
    List.replicate 2 (.reports (tagMake tagNoJob .child none)) ++ [.exits (.signaled 9)] ++
    List.replicate 10 .calm ++ List.replicate 8 (.reports (tagMake 0 .jobTimer none)) ++
    List.replicate 8 { Answer.calm with signal := true, epoll := [tagMake tagNoJob .cancel none] } ++
    List.replicate 8 (.reports (tagMake tagNoJob .child none)) ++
    List.replicate 5 { Answer.calm with groupEmpty := true }

/-- The bound is met. -/
theorem moves_bounded_wornOut : ∃ ctx : RunCtx, (machine wornJob).Reachable Machine.Any ctx ∧
    9 ≤ ctx.moves ∧ ctx.moves ≤ 9 ∧ ∀ job, ctx.jobs[0]? = some job →
      moves job.notes ≤ 5 * job.spec.steps.length + 4 := by
  have found : ∃ ctx, (machine wornJob).Reachable Machine.Any ctx ∧ decide (9 ≤ ctx.moves) = true :=
    Machine.exists_run_of_replay (fun _ _ => true) (fun _ _ _ => trivial) wornOut _ (by decide +kernel)
  obtain ⟨ctx, reachable, passed⟩ := found
  obtain ⟨each, whole⟩ := moves_bounded reachable
  exact ⟨ctx, reachable, of_decide_eq_true passed, whole, each 0⟩

end Qwe.Kernel
