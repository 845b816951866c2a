import Qwe.Kernel.Teardown

/-!
# Step records

Every step that is spawned is recorded once, at its own place, while the cursor
stands there.  `Recorded` says which records are written at each moment of a
career; that none is ever overwritten follows step by step.
-/

set_option autoImplicit false

namespace Qwe.Kernel

open Qwe.Lifecycle Qwe.History

/-- The outcome of a step that was run. -/
def Settled (outcome : Option Outcome) : Prop :=
  outcome = some .success ∨ outcome = some .failed ∨ outcome = some .cancelled

/-- The places whose record is written: those before the cursor, and the cursor's
own once its step is decided. -/
def View.wrote (v : View) (i : Nat) : Prop :=
  i < v.cur ∨ (i = v.cur ∧ (phase v.state).decided = true)

/-- With the live step decided its record is written, too. -/
theorem View.wrote_of_decided {v : View} {i : Nat} (decided : (phase v.state).decided = true)
    (before : i < v.cur + 1) : v.wrote i := by
  rcases Nat.lt_succ_iff_lt_or_eq.mp before with before | here
  · exact Or.inl before
  · exact Or.inr ⟨here, decided⟩

structure Recorded (spec : JobSpec) (v : View) : Prop where
  waiting : phase v.state = .pending ∨ phase v.state = .ready → v.cur = 0 ∧ v.results = none
  length : ∀ rs, v.results = some rs → rs.length = spec.steps.length
  bound : v.cur ≤ spec.steps.length
  live : (phase v.state).live = true → v.cur < spec.steps.length ∧ v.results.isSome = true
  run : ∀ rs i r, v.results = some rs → rs[i]? = some r → v.wrote i → Settled r.outcome
  rest : ∀ rs i r, v.results = some rs → rs[i]? = some r → ¬ v.wrote i →
    r.outcome = if v.state.isFinal then some .skipped else none

theorem recorded_initial (spec : JobSpec) : Recorded spec View.initial := by
  constructor <;> simp [View.initial, phase, Phase.live]

/-! ## Reading a record back -/

theorem getElem?_skipFrom (spec : JobSpec) (k i : Nat) (rs : List StepResult) :
    (skipFrom spec k rs)[i]? = rs[i]?.map fun r =>
      if k ≤ i then { describeStep spec.steps[i]? r with outcome := some .skipped } else r := by
  simp [skipFrom]

theorem describeStep_outcome (spec : Option StepSpec) (r : StepResult) :
    (describeStep spec r).outcome = r.outcome := by
  cases spec <;> rfl

theorem getElem?_modify_at (k i : Nat) (f : StepResult → StepResult) (rs : List StepResult) :
    (rs.modify k f)[i]? = rs[i]?.map fun r => if k = i then f r else r := by
  rw [List.getElem?_modify]
  cases rs[i]? <;> simp

theorem settled_decidedOutcome (verdict : Verdict) (why : Option Reason) :
    Settled (some (decidedOutcome verdict why)) := by
  cases verdict <;> cases why <;> simp [Settled, decidedOutcome]

/-! ## What a step of a career writes -/

/-- The records after a step, place by place. -/
theorem Recorded.of_map {spec : JobSpec} {v v' : View} (recorded : Recorded spec v)
    (write : Nat → StepResult → StepResult) (after : List StepResult → List StepResult)
    (results : v'.results = v.results.map after)
    (lengths : ∀ rs, (after rs).length = rs.length)
    (places : ∀ rs i, (after rs)[i]? = rs[i]?.map (write i))
    (waiting : phase v'.state = .pending ∨ phase v'.state = .ready → v'.cur = 0 ∧ v'.results = none)
    (bound : v'.cur ≤ spec.steps.length)
    (live : (phase v'.state).live = true → v'.cur < spec.steps.length ∧ v'.results.isSome = true)
    (run : ∀ i r, v'.wrote i → (v.wrote i → Settled r.outcome) → Settled (write i r).outcome)
    (rest : ∀ i r, ¬ v'.wrote i → (¬ v.wrote i → r.outcome = if v.state.isFinal then some .skipped
      else none) → (write i r).outcome = if v'.state.isFinal then some .skipped else none) :
    Recorded spec v' := by
  have read : ∀ rs' i r', v'.results = some rs' → rs'[i]? = some r' →
      ∃ rs r, v.results = some rs ∧ rs[i]? = some r ∧ write i r = r' := by
    intro rs' i r' found there
    rw [results, Option.map_eq_some_iff] at found
    obtain ⟨rs, before, rfl⟩ := found
    rw [places, Option.map_eq_some_iff] at there
    obtain ⟨r, here, same⟩ := there
    exact ⟨rs, r, before, here, same⟩
  refine ⟨waiting, ?_, bound, live, ?_, ?_⟩
  · intro rs' found
    rw [results, Option.map_eq_some_iff] at found
    obtain ⟨rs, before, rfl⟩ := found
    rw [lengths, recorded.length rs before]
  · intro rs' i r' found there wrote
    obtain ⟨rs, r, before, here, rfl⟩ := read rs' i r' found there
    exact run i r wrote (recorded.run rs i r before here)
  · intro rs' i r' found there unwritten
    obtain ⟨rs, r, before, here, rfl⟩ := read rs' i r' found there
    exact rest i r unwritten (recorded.rest rs i r before here)

/-- A step that writes no record. -/
theorem Recorded.of_same {spec : JobSpec} {v v' : View} (recorded : Recorded spec v)
    (results : v'.results = v.results) (cur : v'.cur = v.cur)
    (waiting : phase v'.state = .pending ∨ phase v'.state = .ready →
      phase v.state = .pending ∨ phase v.state = .ready)
    (live : (phase v'.state).live = (phase v.state).live)
    (decided : (phase v'.state).decided = (phase v.state).decided)
    (final : v'.state.isFinal = v.state.isFinal) : Recorded spec v' := by
  have wrote : ∀ i, v'.wrote i ↔ v.wrote i := by simp [View.wrote, cur, decided]
  refine ⟨fun waits => ?_, ?_, cur ▸ recorded.bound, fun is => ?_, ?_, ?_⟩
  · rw [cur, results]
    exact recorded.waiting (waiting waits)
  · rw [results]
    exact recorded.length
  · rw [cur, results]
    exact recorded.live (live ▸ is)
  · rw [results]
    exact fun rs i r found here wrote' => recorded.run rs i r found here ((wrote i).mp wrote')
  · rw [results, final]
    exact fun rs i r found here unwritten =>
      recorded.rest rs i r found here fun was => unwritten ((wrote i).mpr was)

theorem isFinal_of_phase {s : State} {outcome : Outcome} (at_ : phase s = .final outcome) :
    s.isFinal = true :=
  (isFinal_iff s).mpr ⟨outcome, at_⟩

theorem not_isFinal_of_phase {s : State} (apart : ∀ outcome, phase s ≠ .final outcome) :
    s.isFinal = false := by
  rw [Bool.eq_false_iff]
  intro final
  obtain ⟨outcome, at_⟩ := (isFinal_iff s).mp final
  exact apart outcome at_

theorem not_isFinal_of_live {s : State} (live : (phase s).live = true) : s.isFinal = false := by
  apply not_isFinal_of_phase
  intro outcome at_
  rw [at_] at live
  contradiction

/-- A step that stays live and as decided as it was. -/
theorem Recorded.of_live {spec : JobSpec} {v v' : View} (recorded : Recorded spec v)
    (results : v'.results = v.results) (cur : v'.cur = v.cur)
    (live : (phase v.state).live = true) (live' : (phase v'.state).live = true)
    (decided : (phase v'.state).decided = (phase v.state).decided) : Recorded spec v' := by
  refine recorded.of_same results cur ?_ (live'.trans live.symm) decided ?_
  · intro waits
    rcases waits with at_ | at_ <;> rw [at_] at live' <;> contradiction
  · rw [not_isFinal_of_live live', not_isFinal_of_live live]

/-- A job that ends: what is not written yet is skipped. -/
theorem Recorded.of_ended {spec : JobSpec} {v v' : View} (recorded : Recorded spec v)
    {outcome : Outcome} (last : phase v'.state = .final outcome)
    (results : v'.results = v.results.map (skipFrom spec v'.cur))
    (bound : v'.cur ≤ spec.steps.length) (written : ∀ i, i < v'.cur → v.wrote i) :
    Recorded spec v' := by
  refine recorded.of_map (fun i r => if v'.cur ≤ i then
    { describeStep spec.steps[i]? r with outcome := some .skipped } else r)
    (skipFrom spec v'.cur) results (by simp [skipFrom])
    (fun rs i => getElem?_skipFrom spec v'.cur i rs) (by simp [last]) bound
    (by simp [last, Phase.live]) ?_ ?_
  · intro i r wrote settled
    have before : i < v'.cur := by simpa [View.wrote, last, Phase.decided] using wrote
    rw [if_neg (by omega)]
    exact settled (written i before)
  · intro i r unwritten _
    have after : v'.cur ≤ i := by simpa [View.wrote, last, Phase.decided] using unwritten
    simp [after, isFinal_of_phase last]

theorem recorded_step {spec : JobSpec} {v v' : View} (recorded : Recorded spec v)
    (step : Step spec v v') : Recorded spec v' := by
  cases step with
  | ignored => exact recorded.of_same rfl rfl id rfl rfl rfl
  | reaped => exact recorded.of_same rfl rfl id rfl rfl rfl
  | needsMet at_ =>
      refine recorded.of_same rfl rfl (fun _ => Or.inl at_) ?_ ?_ ?_
      · rw [at_]; rfl
      · rw [at_]; rfl
      · rw [not_isFinal_of_phase (s := v.state) (by simp [at_])]; rfl
  | skipped ev why at_ =>
      obtain ⟨start, none_⟩ := recorded.waiting at_
      constructor <;> simp [none_, start, phase, Phase.live]
  | started ok at_ =>
      obtain ⟨start, none_⟩ := recorded.waiting (Or.inr at_)
      refine ⟨by simp [phase], ?_, by simp [start], by simp [phase, Phase.live], ?_, ?_⟩
      · intro rs found
        cases ok <;> simp [none_] at found
        simp [← found]
      · intro rs i r _ _ wrote
        simp [View.wrote, start, phase, Phase.decided] at wrote
      · intro rs i r found here _
        cases ok <;> simp [none_] at found
        rw [← found] at here
        rw [List.eq_of_mem_replicate (List.mem_of_getElem? here)]
        rfl
  | notStarted at_ closed =>
      have bound := recorded.bound
      constructor <;> simp [closed, phase, Phase.live, bound]
  | stopped ev last why at_ opened stops =>
      obtain ⟨outcome, last_⟩ := stops.final
      exact recorded.of_ended last_ rfl recorded.bound fun i before => Or.inl before
  | spawned step next ok at_ opened here reached =>
      have inRange : v.cur < spec.steps.length := (List.getElem?_eq_some_iff.mp here).1
      have unfinished : v.state.isFinal = false := not_isFinal_of_phase (by simp [at_])
      refine recorded.of_map (fun i r => if v.cur = i then describeStep (some step) r else r)
        (fun rs => rs.modify v.cur (describeStep (some step))) rfl (by simp)
        (fun rs i => getElem?_modify_at v.cur i _ rs) (by simp [reached]) recorded.bound ?_ ?_ ?_
      · intro _
        exact ⟨inRange, by simpa using opened⟩
      · intro i r wrote settled
        have before : i < v.cur := by simpa [View.wrote, reached, Phase.decided] using wrote
        rw [if_neg (by omega)]
        exact settled (Or.inl before)
      · intro i r unwritten same
        have after : ¬ v.wrote i := by
          simpa [View.wrote, reached, at_, Phase.decided] using unwritten
        have outcome := same after
        rw [unfinished] at outcome
        rw [not_isFinal_of_phase (by simp [reached])]
        split
        · rw [describeStep_outcome]; exact outcome
        · exact outcome
  | notSpawned coe changed at_ unforked =>
      have live := recorded.live (by rw [at_]; rfl)
      refine recorded.of_map (fun i r => if v.cur + 1 ≤ i then
          { describeStep spec.steps[i]? r with outcome := some .skipped }
          else if v.cur = i then record .failed (some .engineError) changed r else r)
        (fun rs => skipFrom spec (v.cur + 1)
          (rs.modify v.cur (record .failed (some .engineError) changed))) rfl (by simp [skipFrom])
        ?_ (by simp [phase]) live.1 (by simp [phase, Phase.live]) ?_ ?_
      · intro rs i
        rw [getElem?_skipFrom, getElem?_modify_at, Option.map_map]
        congr 1
        funext r
        simp only [Function.comp_apply]
        split
        · rw [if_neg (by omega)]
        · rfl
      · intro i r wrote settled
        have before : i < v.cur + 1 := by simpa [View.wrote, phase, Phase.decided] using wrote
        rw [if_neg (by omega)]
        split
        · simp [record, Settled]
        · exact settled (Or.inl (by omega))
      · intro i r unwritten _
        have after : v.cur + 1 ≤ i := by simpa [View.wrote, phase, Phase.decided] using unwritten
        simp only [after, if_true]
        rfl
  | timedOut coe next at_ forked reached =>
      exact recorded.of_live rfl rfl (by rw [at_]; rfl) (by rw [reached]; rfl)
        (by rw [at_, reached]; rfl)
  | killed next forked moves =>
      rcases moves with ⟨coe, at_, reached⟩ | ⟨verdict, at_, reached⟩ <;>
        exact recorded.of_live rfl rfl (by rw [at_]; rfl) (by rw [reached]; rfl)
          (by rw [at_, reached]; rfl)
  | overruled verdict verdict' killed ev why next at_ overrules reached =>
      exact recorded.of_live rfl rfl (by rw [at_]; rfl) (by rw [reached]; rfl)
        (by rw [at_, reached]; rfl)
  | decided coe sent ev verdict why changed next at_ forked reaped decides reached =>
      have live := recorded.live (by rw [at_]; rfl)
      have unfinished : v.state.isFinal = false := not_isFinal_of_phase (by simp [at_])
      refine recorded.of_map
        (fun i r => if v.cur = i then record (decidedOutcome verdict why) why changed r else r)
        (fun rs => rs.modify v.cur (record (decidedOutcome verdict why) why changed)) rfl (by simp)
        (fun rs i => getElem?_modify_at v.cur i _ rs) (by simp [reached]) recorded.bound ?_ ?_ ?_
      · intro _
        exact ⟨live.1, by simpa using live.2⟩
      · intro i r wrote settled
        split
        · exact settled_decidedOutcome verdict why
        · rename_i other
          refine settled (Or.inl ?_)
          rcases wrote with before | ⟨here, _⟩
          · exact before
          · exact absurd here.symm other
      · intro i r unwritten same
        rw [View.wrote, not_or] at unwritten
        have other : v.cur ≠ i := by
          intro here
          exact unwritten.2 ⟨here.symm, by simp [reached, Phase.decided]⟩
        rw [if_neg other, not_isFinal_of_phase (by simp [reached])]
        have outcome := same (by
          rintro (before | ⟨here, _⟩)
          · exact unwritten.1 before
          · exact other here.symm)
        rwa [unfinished] at outcome
  | movedOn killed at_ forked reaped =>
      have live := recorded.live (by rw [at_]; rfl)
      have unfinished : v.state.isFinal = false := not_isFinal_of_phase (by simp [at_])
      refine recorded.of_map (fun _ r => r) id (by simp) (by simp) (by simp) (by simp [phase]) live.1
        (by simp [phase, Phase.live]) ?_ ?_
      · intro i r wrote settled
        have before : i < v.cur + 1 := by simpa [View.wrote, phase, Phase.decided] using wrote
        exact settled (View.wrote_of_decided (by rw [at_]; rfl) before)
      · intro i r unwritten same
        have after : v.cur + 1 ≤ i := by simpa [View.wrote, phase, Phase.decided] using unwritten
        have outcome := same (by
          rintro (before | ⟨here, _⟩) <;> omega)
        rw [unfinished] at outcome
        exact outcome
  | closed verdict killed last why at_ forked reaped closes =>
      have live := recorded.live (by rw [at_]; rfl)
      obtain ⟨outcome, last_⟩ := closes.final
      exact recorded.of_ended last_ rfl live.1 fun i before =>
        View.wrote_of_decided (by rw [at_]; rfl) before

/-! ## A written record stays -/

/-- The record at place `i`. -/
def View.result (v : View) (i : Nat) : Option StepResult := v.results.bind (·[i]?)

theorem View.result_eq_some {v : View} {i : Nat} {r : StepResult} :
    v.result i = some r ↔ ∃ rs, v.results = some rs ∧ rs[i]? = some r := by
  rw [View.result, Option.bind_eq_some_iff]

theorem Recorded.wrote_of_outcome {spec : JobSpec} {v : View} (recorded : Recorded spec v)
    (unfinished : v.state.isFinal = false) {i : Nat} {r : StepResult} (here : v.result i = some r)
    (written : r.outcome.isSome = true) : v.wrote i := by
  obtain ⟨rs, results, place⟩ := View.result_eq_some.mp here
  by_contra unwritten
  rw [recorded.rest rs i r results place unwritten, unfinished] at written
  contradiction

/-- Writing elsewhere leaves a record alone. -/
theorem result_of_map {v v' : View} {i : Nat} {r : StepResult} (here : v.result i = some r)
    (write : StepResult → StepResult) (after : List StepResult → List StepResult)
    (results : v'.results = v.results.map after)
    (place : ∀ rs, (after rs)[i]? = rs[i]?.map write) (same : write r = r) :
    v'.result i = some r := by
  obtain ⟨rs, found, there⟩ := View.result_eq_some.mp here
  rw [View.result, results, found, Option.map_some, Option.bind_some, place, there, Option.map_some,
    same]

theorem kept_step {spec : JobSpec} {v v' : View} (recorded : Recorded spec v)
    (step : Step spec v v') {i : Nat} {r : StepResult} (here : v.result i = some r)
    (written : r.outcome.isSome = true) : v'.result i = some r := by
  cases step with
  | skipped ev why at_ => simp [View.result, (recorded.waiting at_).2] at here
  | started ok at_ => simp [View.result, (recorded.waiting (Or.inr at_)).2] at here
  | notStarted at_ closed => simp [View.result, closed] at here
  | stopped ev last why at_ opened stops =>
      have wrote := recorded.wrote_of_outcome (not_isFinal_of_phase (by simp [at_])) here written
      have before : i < v.cur := by simpa [View.wrote, at_, Phase.decided] using wrote
      exact result_of_map here _ (skipFrom spec v.cur) rfl
        (fun rs => getElem?_skipFrom spec v.cur i rs) (if_neg (by omega))
  | spawned step next ok at_ opened place reached =>
      have wrote := recorded.wrote_of_outcome (not_isFinal_of_phase (by simp [at_])) here written
      have before : i < v.cur := by simpa [View.wrote, at_, Phase.decided] using wrote
      exact result_of_map here _ (fun rs => rs.modify v.cur (describeStep (some step))) rfl
        (fun rs => getElem?_modify_at v.cur i _ rs) (if_neg (by omega))
  | notSpawned coe changed at_ unforked =>
      have wrote := recorded.wrote_of_outcome (not_isFinal_of_phase (by simp [at_])) here written
      have before : i < v.cur := by simpa [View.wrote, at_, Phase.decided] using wrote
      refine result_of_map here id (fun rs => skipFrom spec (v.cur + 1) (rs.modify v.cur _)) rfl
        (fun rs => ?_) rfl
      rw [getElem?_skipFrom, getElem?_modify_at, Option.map_map]
      congr 1
      funext other
      simp only [Function.comp_apply, id]
      rw [if_neg (by omega), if_neg (by omega)]
  | decided coe sent ev verdict why changed next at_ =>
      have wrote := recorded.wrote_of_outcome (not_isFinal_of_phase (by simp [at_])) here written
      have before : i < v.cur := by simpa [View.wrote, at_, Phase.decided] using wrote
      exact result_of_map here _ (fun rs => rs.modify v.cur _) rfl
        (fun rs => getElem?_modify_at v.cur i _ rs) (if_neg (by omega))
  | closed verdict killed last why at_ =>
      have wrote := recorded.wrote_of_outcome (not_isFinal_of_phase (by simp [at_])) here written
      have before : i < v.cur + 1 := by
        rcases wrote with before | ⟨place, _⟩ <;> omega
      exact result_of_map here _ (skipFrom spec (v.cur + 1)) rfl
        (fun rs => getElem?_skipFrom spec (v.cur + 1) i rs) (if_neg (by omega))
  | _ => exact here

theorem kept_of_career {spec : JobSpec} {v v' : View} (recorded : Recorded spec v)
    (career : Career spec v v') {i : Nat} {r : StepResult} (here : v.result i = some r)
    (written : r.outcome.isSome = true) : v'.result i = some r := by
  have kept := career.invariant (P := fun v => Recorded spec v ∧ v.result i = some r)
    (fun _ _ holds step => ⟨recorded_step holds.1 step, kept_step holds.1 step holds.2 written⟩)
    ⟨recorded, here⟩
  exact kept.2

theorem recorded_of_reachable {w : Workflow} {allowed : RunCtx → Answer → Prop} {ctx : RunCtx}
    {job : Job} (reachable : (machine w).Reachable allowed ctx) (member : job ∈ ctx.jobs) :
    Recorded job.spec job.view := by
  obtain ⟨j, here⟩ := List.mem_iff_getElem?.mp member
  exact (career_of_reachable reachable here).invariant (fun _ _ => recorded_step)
    (recorded_initial job.spec)

/-! ## The laws of the records -/

structure RecordLaws (job : Job) : Prop where
  once : ∀ i, job.notes.count (.recorded i) ≤ 1
  /-- a step is recorded after its spawn, while the cursor stands at it: it has
  moved past the earlier steps and no others -/
  inTime : ∀ newer i older, job.notes = newer ++ .recorded i :: older →
    (∃ ok, .spawned i ok ∈ older) ∧ ∀ k, .finished k ∈ older ↔ k < i
  /-- the cursor moves past recorded steps only -/
  beforeMoving : ∀ newer i older, job.notes = newer ++ .finished i :: older → .recorded i ∈ older
  /-- every spawned step but the live one has its record -/
  recorded : ∀ i ok, .spawned i ok ∈ job.notes → job.liveStep ≠ some i →
    job.notes.count (.recorded i) = 1
  /-- a job that is over has no live step -/
  noneLive : job.state.isFinal = true → job.liveStep = none
  /-- the records of the steps that were run stand at these steps' places, and a
  skipped one at a place that was never reached -/
  places : ∀ rs i r, job.steps = some rs → rs[i]? = some r →
    (Settled r.outcome ↔ .recorded i ∈ job.notes) ∧
      (r.outcome = some .skipped → .ended ∈ job.notes ∧ ∀ ok, .spawned i ok ∉ job.notes)
  /-- at the end: steps that were run, then skipped ones -/
  split : job.state.isFinal = true → ∀ rs, job.steps = some rs →
    rs.length = job.spec.steps.length ∧
      ∃ k ≤ rs.length, (∀ i r, rs[i]? = some r → i < k → Settled r.outcome) ∧
        ∀ i r, rs[i]? = some r → k ≤ i → r.outcome = some .skipped

theorem not_settled_of_eq {outcome : Option Outcome}
    (other : outcome = some .skipped ∨ outcome = none) : ¬ Settled outcome := by
  rcases other with rfl | rfl <;> simp [Settled]

theorem recordLaws_of_reachable {w : Workflow} {allowed : RunCtx → Answer → Prop} {ctx : RunCtx}
    {job : Job} (reachable : (machine w).Reachable allowed ctx) (member : job ∈ ctx.jobs) :
    RecordLaws job := by
  have disciplined := disciplined_of_reachable reachable member
  have recorded := recorded_of_reachable reachable member
  have fits := (sound_of_reachable reachable).fits job member
  have legal : Always Legal job.notes := disciplined.legal
  have once : ∀ i, job.notes.count (.recorded i) ≤ 1 :=
    fun i => count_le_one_of_always (fun _ rule => rule.2.1) legal
  have wrote : ∀ i, .recorded i ∈ job.notes ↔ job.view.wrote i := disciplined.recorded
  have noneLive : job.state.isFinal = true → job.liveStep = none := by
    intro final
    obtain ⟨outcome, at_⟩ := (isFinal_iff job.state).mp final
    rw [Fits, at_] at fits
    exact fits.live
  refine ⟨once, ?_, ?_, ?_, noneLive, ?_, ?_⟩
  · intro newer i older split
    have rule : Legal (.recorded i) older := always_at (split ▸ legal)
    exact ⟨rule.1, rule.2.2⟩
  · intro newer i older split
    have rule : Legal (.finished i) older := always_at (split ▸ legal)
    exact rule.1
  · intro i ok spawned apart
    have there : .recorded i ∈ job.notes := by
      rw [wrote]
      rcases disciplined.spawned i ok spawned with past | ⟨here, live, _⟩
      · exact Or.inl past
      · rcases phase_of_isLive live with ⟨coe, signal, at_⟩ | ⟨verdict, killed, at_⟩
        · rw [Fits, show phase job.state = _ from at_] at fits
          exact absurd (fits.live.trans (congrArg some here.symm)) apart
        · exact Or.inr ⟨here, by rw [at_]; rfl⟩
    have atLeast := List.count_pos_iff.mpr there
    have atMost := once i
    omega
  · intro rs i r results here
    by_cases written : job.view.wrote i
    · have settled := recorded.run rs i r results here written
      refine ⟨⟨fun _ => (wrote i).mpr written, fun _ => settled⟩, fun skipped => ?_⟩
      exact absurd settled (not_settled_of_eq (Or.inl skipped))
    · have outcome := recorded.rest rs i r results here written
      refine ⟨⟨fun settled => ?_, fun there => absurd ((wrote i).mp there) written⟩,
        fun skipped => ?_⟩
      · refine absurd settled (not_settled_of_eq ?_)
        rw [outcome]
        split
        · exact Or.inl rfl
        · exact Or.inr rfl
      · have final : job.state.isFinal = true := by
          by_contra unfinished
          rw [outcome, if_neg (show ¬ job.view.state.isFinal = true from unfinished)] at skipped
          contradiction
        obtain ⟨last, at_⟩ := (isFinal_iff job.state).mp final
        refine ⟨disciplined.ended.mpr ⟨last, at_⟩, fun ok spawned => ?_⟩
        rcases disciplined.spawned i ok spawned with past | ⟨_, live, _⟩
        · exact written (Or.inl past)
        · rw [show phase job.view.state = _ from at_] at live
          contradiction
  · intro final rs results
    have lengths := recorded.length rs results
    obtain ⟨last, at_⟩ := (isFinal_iff job.state).mp final
    refine ⟨lengths, job.cur, ?_, fun i r here before => ?_, fun i r here after => ?_⟩
    · rw [lengths]
      exact recorded.bound
    · exact recorded.run rs i r results here (Or.inl before)
    · have unwritten : ¬ job.view.wrote i := by
        rintro (before | ⟨_, decided⟩)
        · exact absurd before (by simpa [Job.view] using after)
        · rw [show phase job.view.state = _ from at_] at decided
          contradiction
      rw [recorded.rest rs i r results here unwritten, show job.view.state = job.state from rfl,
        final]
      rfl

/-- In every run, each job keeps the laws of its records, and a record once
written is found unchanged in every later state. -/
theorem steps_recorded_once {w : Workflow} {ctx : RunCtx}
    (reachable : (machine w).Reachable Machine.Any ctx) :
    (∀ job ∈ ctx.jobs, RecordLaws job) ∧
      ∀ ctx', (machine w).Run Machine.Any ctx ctx' → ∀ (j : Nat) (job : Job),
        ctx.jobs[j]? = some job → ∃ job', ctx'.jobs[j]? = some job' ∧
          ∀ (rs : List StepResult) (i : Nat) (r : StepResult), job.steps = some rs →
            rs[i]? = some r → r.outcome.isSome = true →
            ∃ rs', job'.steps = some rs' ∧ rs'[i]? = some r := by
  refine ⟨fun job member => recordLaws_of_reachable reachable member, ?_⟩
  intro ctx' run j job here
  obtain ⟨job', here', _, career⟩ := career_of_run (sound_of_reachable reachable) run here
  refine ⟨job', here', fun rs i r results place written => ?_⟩
  have recorded := recorded_of_reachable reachable (List.mem_of_getElem? here)
  have before : job.view.result i = some r := View.result_eq_some.mpr ⟨rs, results, place⟩
  exact View.result_eq_some.mp (kept_of_career recorded career before written)

theorem steps_recorded_once_stubbornStep : ∃ (ctx : RunCtx) (job : Job),
    (machine (localJobs ["solo"] true)).Reachable Machine.Any ctx ∧ job ∈ ctx.jobs ∧
      job.state.isFinal = true ∧ job.steps.map (·.map (·.outcome)) = some [some .failed] ∧
      RecordLaws job := by
  obtain ⟨ctx, job, reachable, _, jobs, state, _, _, _, _, outcomes⟩ := stubbornStep_runs
  have member : job ∈ ctx.jobs := by simp [jobs]
  exact ⟨ctx, job, reachable, member, by rw [state]; rfl, outcomes,
    (steps_recorded_once reachable).1 job member⟩

end Qwe.Kernel
