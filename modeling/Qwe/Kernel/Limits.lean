import Qwe.Kernel.Unstarted
import Qwe.Lib.Counting

/-!
# The limits on running jobs

A pass grants no more slots than are free, counting the grants it has already
made.  Between two passes a job only starts to run on a slot it was granted, so
the running jobs and the slots still owed never exceed the limit together.
-/

set_option autoImplicit false

/-! ## What one pass grants -/

namespace Qwe.Sched

open Qwe.Lifecycle

theorem grantLoop_parallel (jobs : List SchedJob) (caps : List Nat) {maxParallel running : Nat}
    (limited : 0 < maxParallel) (rest : List (SchedJob × Nat)) (out : List SchedEvent)
    (within : running + out.length ≤ maxParallel) :
    running + (grantLoop jobs maxParallel caps running rest out).length ≤ maxParallel := by
  induction rest generalizing out with
  | nil => exact within
  | cons entry rest ih =>
      simp only [grantLoop]
      split
      · exact ih out within
      split
      · exact within
      rename_i free
      split
      · exact ih out within
      · refine ih _ ?_
        rw [List.length_append, List.length_singleton]
        omega

theorem groupUsed_append (jobs : List SchedJob) (group : Nat) (out : List SchedEvent)
    (ev : SchedEvent) :
    groupUsed jobs group (out ++ [ev]) =
      groupUsed jobs group out + if groupAt jobs ev.job = group then 1 else 0 := by
  simp only [groupUsed, List.countP_append, List.countP_singleton, beq_iff_eq]
  omega

theorem grantLoop_caps (jobs : List SchedJob) (maxParallel : Nat) (caps : List Nat) (running : Nat)
    {group : Nat} (limited : group ≠ 0) (rest : List (SchedJob × Nat)) (out : List SchedEvent)
    (places : ∀ entry ∈ rest, jobs[entry.2]? = some entry.1)
    (within : groupUsed jobs group out ≤ caps.getD (group - 1) 0) :
    groupUsed jobs group (grantLoop jobs maxParallel caps running rest out) ≤
      caps.getD (group - 1) 0 := by
  induction rest generalizing out with
  | nil => exact within
  | cons entry rest ih =>
      have later : ∀ entry ∈ rest, jobs[entry.2]? = some entry.1 :=
        fun other member => places other (List.mem_cons_of_mem entry member)
      simp only [grantLoop]
      split
      · exact ih out later within
      split
      · exact within
      split
      · exact ih out later within
      rename_i free
      refine ih _ later ?_
      have at_ : groupAt jobs entry.2 = entry.1.group := by
        rw [groupAt, places entry List.mem_cons_self]
        rfl
      rw [groupUsed_append, at_]
      split
      · rename_i mine
        rw [mine] at free
        omega
      · exact within

/-- A pass looks at the needs, or grants slots. -/
theorem schedPass_cases (jobs : List SchedJob) (maxParallel : Nat) (caps : List Nat) :
    (∀ ev ∈ schedPass jobs maxParallel caps, ev.event ≠ .slotGranted) ∨
      schedPass jobs maxParallel caps =
        grantLoop jobs maxParallel caps (jobs.countP (·.state.isRunning)) jobs.zipIdx [] := by
  simp only [schedPass]
  split
  · refine Or.inl fun ev member => ?_
    obtain ⟨⟨job, i⟩, _, given⟩ := List.mem_filterMap.mp member
    unfold needsEvent at given
    simp only at given
    split at given
    · contradiction
    split at given
    · contradiction
    cases given
    simp only
    split <;> simp
  · exact Or.inr rfl

end Qwe.Sched

namespace Qwe.Kernel

open Qwe.Lifecycle Qwe.Sched Qwe.Counting

/-! ## Running jobs and slots owed -/

/-- The running jobs among `places`. -/
def load (places : Nat → Bool) (ctx : RunCtx) : Nat :=
  countAt (fun i job => places i && job.state.isRunning) ctx.jobs

/-- The slots the current pass has granted and not yet handed out. -/
def slotsOwed (places : Nat → Bool) : Loop → Nat
  | .grants evs => evs.countP fun ev => places ev.job && ev.event == .slotGranted
  | _ => 0

def Within (places : Nat → Bool) (limit : Nat) (ctx : RunCtx) : Prop :=
  load places ctx + slotsOwed places ctx.loop ≤ limit

section Within
variable {w : Workflow} {a : Answer} {ctx ctx' : RunCtx} {call : Call} {places : Nat → Bool}
  {limit : Nat}

theorem within_initial (w : Workflow) (places : Nat → Bool) (limit : Nat) :
    Within places limit (RunCtx.initial w) := by
  have idle : load places (RunCtx.initial w) ≤ countAt (fun _ _ => false) (RunCtx.initial w).jobs := by
    refine countAt_mono fun i job here running => ?_
    obtain ⟨spec, _, rfl⟩ := List.mem_map.mp (List.mem_of_getElem? here)
    simp [Job.initial, State.isRunning, State.ctorIdx] at running
  have none_ : countAt (fun _ _ => false) (RunCtx.initial w).jobs = 0 := by
    simp [countAt, List.countP_eq_zero, List.mem_mapIdx]
  rw [Within, show slotsOwed places (RunCtx.initial w).loop = 0 from rfl]
  omega

/-- Steps that touch no job, a pass apart, owe no new slot. -/
theorem within_quiet (within : Within places limit ctx)
    (passes : ctx.loop = .pass → Within places limit (schedule w ctx))
    (quiet : Quiet w a ctx ctx') : Within places limit ctx' := by
  have bound : load places ctx ≤ limit := Nat.le_trans (Nat.le_add_right _ _) within
  cases quiet with
  | sent => exact within
  | schedule idle at_ => exact passes at_
  | grantGone ev evs idle at_ =>
      rw [Within, at_] at within
      have fewer : slotsOwed places (.grants evs) ≤ slotsOwed places (.grants (ev :: evs)) :=
        (List.sublist_cons_self ev evs).countP_le
      exact Nat.le_trans (Nat.add_le_add_left fewer (load places ctx)) within
  | tally =>
      unfold Kernel.tally
      split
      · exact bound
      split <;> exact bound
  | cancelNone =>
      unfold afterBroadcast
      split <;> exact bound
  | cancelDone =>
      unfold afterBroadcast
      split <;> exact bound
  | orphan => exact within
  | halted => exact within
  | _ => exact bound

/-- A job that did not run runs after a call only if the call grants it a slot. -/
theorem Sends.runs (sends : Sends w a ctx call)
    (reachable : (machine w).Reachable Machine.Any ctx) {job' : Job}
    (sent : dispatchOne a call.read call.ev call.pl call.evStep = some job')
    (running : job'.state.isRunning = true) :
    call.job.state.isRunning = true ∨ call.ev = .slotGranted := by
  by_cases waits : Waits call.job.state
  · have still : ¬ ∃ s, job'.state = s ∧ s.isRunning = false := by
      rintro ⟨s, rfl, idle⟩
      rw [idle] at running
      contradiction
    rw [← sends.read_spec.2] at waits
    rcases dispatch_waiting waits sent with ⟨_, rfl⟩ | ⟨_, state⟩ | ⟨_, state, _⟩ |
      ⟨_, state, _⟩ | ⟨_, state, _⟩ | ⟨granted, _⟩
    · rcases waits with is | is <;> exact absurd ⟨_, is, rfl⟩ still
    · exact absurd ⟨_, state, rfl⟩ still
    · exact absurd ⟨_, state, rfl⟩ still
    · exact absurd ⟨_, state, rfl⟩ still
    · exact absurd ⟨_, state, rfl⟩ still
    · exact Or.inr granted
  · refine Or.inl ((isRunning_iff _).mpr ?_)
    rw [waits_iff, not_or] at waits
    refine ⟨waits.1, waits.2, fun outcome final => ?_⟩
    have shown := (accounted_of_reachable reachable (List.mem_of_getElem? sends.here)).shown
    have career := sends.career (sound_of_reachable reachable) sent
    have same : job'.state = call.job.state := (career.ofFinal shown final).1
    rw [same] at running
    exact ((isRunning_iff _).mp running).2.2 outcome final

/-- A call that grants a slot hands out one that was owed. -/
theorem Sends.slots (sends : Sends w a ctx call) (sound : Sound ctx) (places : Nat → Bool) :
    slotsOwed places call.loop +
      (if places call.index && call.ev == .slotGranted then 1 else 0) ≤
        slotsOwed places ctx.loop := by
  have fits : Fits call.job := sound.fits _ (List.mem_of_getElem? sends.here)
  cases sends with
  | sched ev evs job idle at_ here =>
      simp [at_, slotsOwed, List.countP_cons]
  | owed j job ev sending here owes => simp [(startFailed_of_owed fits owes).1]
  | lateTimer tag tags job ev idle at_ kind =>
      rcases kind with ⟨_, rfl⟩ | ⟨_, rfl⟩ <;> simp [slotsOwed]
  | leaderExit e j job =>
      rcases leaderExitEvent_exits job e with exit | exit <;> simp [slotsOwed, exit]
  | _ => simp [slotsOwed]

theorem within_sends (within : Within places limit ctx)
    (reachable : (machine w).Reachable Machine.Any ctx) (sends : Sends w a ctx call) {job' : Job}
    (sent : dispatchOne a call.read call.ev call.pl call.evStep = some job') :
    Within places limit
      ⟨ctx.jobs.set call.index job', call.cancelRequested, some call.index, call.loop⟩ := by
  have slots := sends.slots (sound_of_reachable reachable) places
  have grows : load places ⟨ctx.jobs.set call.index job', call.cancelRequested, some call.index,
      call.loop⟩ ≤ load places ctx +
        (if places call.index && call.ev == .slotGranted then 1 else 0) := by
    refine countAt_set_le sends.here fun counted => ?_
    rw [Bool.and_eq_true] at counted ⊢
    rcases sends.runs reachable sent counted.2 with was | granted
    · exact Or.inl ⟨counted.1, was⟩
    · exact Or.inr (by simp [counted.1, granted])
  unfold Within at within ⊢
  simp only at grows ⊢
  omega

theorem within_of_reachable
    (passes : ∀ ctx, load places ctx ≤ limit → Within places limit (schedule w ctx))
    (reachable : (machine w).Reachable Machine.Any ctx) : Within places limit ctx := by
  refine reachable.along (within_initial w places limit) ?_
  intro s input t reachable within ok moved
  rcases stepKernel_cases moved with quiet | ⟨call, job', sends, sent, rfl⟩
  · exact within_quiet within
      (fun _ => passes s (Nat.le_trans (Nat.le_add_right _ _) within)) quiet
  · exact within_sends within reachable sends sent

end Within

/-! ## A pass keeps to the limits -/

/-- After a pass the slots of its events are owed. -/
theorem within_schedule {w : Workflow} {ctx : RunCtx} {places : Nat → Bool} {limit : Nat}
    (grants : load places ctx + (schedPass (ctx.schedJobs w) w.parallel w.caps).countP
      (fun ev => places ev.job && ev.event == .slotGranted) ≤ limit) :
    Within places limit (schedule w ctx) := by
  unfold schedule
  split
  · exact Nat.le_trans (Nat.le_add_right _ _) grants
  · rename_i ev evs pass
    rw [pass] at grants
    exact grants

theorem running_eq_load (w : Workflow) (ctx : RunCtx) :
    (ctx.schedJobs w).countP (·.state.isRunning) = load (fun _ => true) ctx := by
  rw [countP_eq_countAt, RunCtx.schedJobs, countAt_mapIdx]
  simp [load]

theorem within_parallel {w : Workflow} {ctx : RunCtx} (limited : 0 < w.parallel)
    (before : load (fun _ => true) ctx ≤ w.parallel) :
    Within (fun _ => true) w.parallel (schedule w ctx) := by
  refine within_schedule ?_
  rcases schedPass_cases (ctx.schedJobs w) w.parallel w.caps with none_ | grants
  · rw [List.countP_eq_zero.mpr fun ev member => by simp [none_ ev member]]
    exact before
  · rw [grants, running_eq_load]
    refine Nat.le_trans (Nat.add_le_add_left List.countP_le_length _) ?_
    exact grantLoop_parallel (ctx.schedJobs w) w.caps limited (ctx.schedJobs w).zipIdx [] before

/-- The jobs of a session group. -/
def inGroup (w : Workflow) (group i : Nat) : Bool := w.groups.getD i 0 == group

theorem groupRunning_eq_load (w : Workflow) (ctx : RunCtx) (group : Nat) :
    (ctx.schedJobs w).countP (fun job => job.group == group && job.state.isRunning) =
      load (inGroup w group) ctx := by
  rw [countP_eq_countAt, RunCtx.schedJobs, countAt_mapIdx]
  rfl

theorem groupAt_schedJobs {w : Workflow} {ctx : RunCtx} {ev : SchedEvent}
    (member : ev ∈ schedPass (ctx.schedJobs w) w.parallel w.caps) :
    groupAt (ctx.schedJobs w) ev.job = w.groups.getD ev.job 0 := by
  obtain ⟨entry, found, _⟩ := (schedPass_spec (ctx.schedJobs w) w.parallel w.caps).2 ev member
  rw [groupAt, found]
  rw [RunCtx.schedJobs, List.getElem?_mapIdx, Option.map_eq_some_iff] at found
  obtain ⟨job, _, rfl⟩ := found
  rfl

theorem within_group {w : Workflow} {ctx : RunCtx} {group : Nat} (limited : group ≠ 0)
    (before : load (inGroup w group) ctx ≤ w.caps.getD (group - 1) 0) :
    Within (inGroup w group) (w.caps.getD (group - 1) 0) (schedule w ctx) := by
  refine within_schedule ?_
  rcases schedPass_cases (ctx.schedJobs w) w.parallel w.caps with none_ | grants
  · rw [List.countP_eq_zero.mpr fun ev member => by simp [none_ ev member]]
    exact before
  · have start : groupUsed (ctx.schedJobs w) group [] ≤ w.caps.getD (group - 1) 0 := by
      rw [groupUsed, groupRunning_eq_load]
      exact before
    have bound := grantLoop_caps (ctx.schedJobs w) w.parallel w.caps
      ((ctx.schedJobs w).countP (·.state.isRunning)) limited (ctx.schedJobs w).zipIdx []
      (fun _ member => List.mem_zipIdx_iff_getElem?.mp member) start
    rw [← grants, groupUsed, groupRunning_eq_load] at bound
    refine Nat.le_trans (Nat.add_le_add_left (List.countP_mono_left fun ev member owed => ?_) _)
      bound
    rw [groupAt_schedJobs member]
    exact (Bool.and_eq_true _ _ ▸ owed).1

/-! ## Groups and targets -/

/-- Each group is named once and has its target's cap. -/
structure Groups.Named (w : Workflow) (g : Groups) : Prop where
  nodup : g.names.Nodup
  caps : g.caps = g.names.map w.targetMaxSessions

theorem joinGroup_spec {w : Workflow} {g : Groups} (named : g.Named w) (target : String) :
    (w.joinGroup g target).1.Named w ∧ g.names <+: (w.joinGroup g target).1.names ∧
      (target ≠ "local" → ∃ k, (w.joinGroup g target).2 = k + 1 ∧
        (w.joinGroup g target).1.names[k]? = some target) := by
  unfold Workflow.joinGroup
  split
  · rename_i isLocal
    exact ⟨named, List.prefix_refl _, fun other => absurd isLocal other⟩
  split
  · rename_i new
    have absent : target ∉ g.names := List.idxOf_eq_length_iff.mp new
    refine ⟨⟨?_, ?_⟩, List.prefix_append _ _, fun _ => ⟨g.names.length, rfl, ?_⟩⟩
    · rw [List.nodup_append]
      refine ⟨named.nodup, by simp, fun a member b single => ?_⟩
      rw [List.mem_singleton] at single
      rintro rfl
      exact absent (single ▸ member)
    · simp [named.caps]
    · simp
  · rename_i known
    have inRange : g.names.idxOf target < g.names.length :=
      Nat.lt_of_le_of_ne List.idxOf_le_length known
    refine ⟨named, List.prefix_refl _, fun _ => ⟨g.names.idxOf target, rfl, ?_⟩⟩
    rw [List.getElem?_eq_getElem inRange, List.getElem_idxOf]

theorem groupJobs_spec {w : Workflow} {g : Groups} (named : g.Named w) (specs : List JobSpec) :
    (w.groupJobs g specs).1.Named w ∧ g.names <+: (w.groupJobs g specs).1.names ∧
      ∀ (i : Nat) (spec : JobSpec), specs[i]? = some spec → spec.target ≠ "local" →
        ∃ k, (w.groupJobs g specs).2[i]? = some (k + 1) ∧
          (w.groupJobs g specs).1.names[k]? = some spec.target := by
  induction specs generalizing g with
  | nil => exact ⟨named, List.prefix_refl _, by simp⟩
  | cons spec specs ih =>
      obtain ⟨joined, first, here⟩ := joinGroup_spec named spec.target
      obtain ⟨named', rest, later⟩ := ih joined
      refine ⟨named', first.trans rest, fun i other place remote => ?_⟩
      cases i with
      | zero =>
          obtain rfl : spec = other := Option.some.inj place
          obtain ⟨k, group, name⟩ := here remote
          refine ⟨k, by simp [Workflow.groupJobs, group], ?_⟩
          obtain ⟨more, names⟩ := rest
          rw [Workflow.groupJobs, ← names, List.getElem?_append_left]
          · exact name
          · exact (List.getElem?_eq_some_iff.mp name).1
      | succ i => exact later i other place remote

theorem groupJobs_local {w : Workflow} (g : Groups) {specs : List JobSpec} {i : Nat} {spec : JobSpec}
    (place : specs[i]? = some spec) (here : spec.target = "local") :
    (w.groupJobs g specs).2[i]? = some 0 := by
  induction specs generalizing g i with
  | nil => simp at place
  | cons first specs ih =>
      cases i with
      | zero =>
          obtain rfl : first = spec := Option.some.inj place
          simp [Workflow.groupJobs, Workflow.joinGroup, here]
      | succ i => exact ih _ place

/-- The jobs of a remote target are one group, which has the target's cap. -/
theorem exists_group (w : Workflow) {target : String} (remote : target ≠ "local")
    {i₀ : Nat} {spec₀ : JobSpec} (place₀ : w.jobs[i₀]? = some spec₀) (on₀ : spec₀.target = target) :
    ∃ group, group ≠ 0 ∧ w.caps.getD (group - 1) 0 = w.targetMaxSessions target ∧
      ∀ (i : Nat) (spec : JobSpec), w.jobs[i]? = some spec →
        (inGroup w group i = true ↔ spec.target = target) := by
  obtain ⟨⟨nodup, caps⟩, _, joined⟩ :=
    groupJobs_spec (w := w) (g := ⟨[], []⟩) ⟨List.nodup_nil, rfl⟩ w.jobs
  obtain ⟨k, group, name⟩ := joined i₀ spec₀ place₀ (on₀ ▸ remote)
  rw [on₀] at name
  refine ⟨k + 1, Nat.succ_ne_zero k, ?_, fun i spec place => ?_⟩
  · rw [Workflow.caps, caps, List.getD_eq_getElem?_getD, Nat.add_sub_cancel, List.getElem?_map,
      name]
    rfl
  · rw [inGroup, Workflow.groups, List.getD_eq_getElem?_getD, beq_iff_eq]
    by_cases here : spec.target = "local"
    · rw [groupJobs_local _ place here]
      constructor
      · intro same
        simp at same
      · intro on
        exact absurd (on ▸ here) remote
    · obtain ⟨k', group', name'⟩ := joined i spec place here
      rw [group', Option.getD_some, Nat.succ_inj]
      constructor
      · rintro rfl
        exact Option.some.inj (name'.symm.trans name)
      · intro on
        rw [on] at name'
        obtain ⟨inRange, is⟩ := List.getElem?_eq_some_iff.mp name
        obtain ⟨inRange', is'⟩ := List.getElem?_eq_some_iff.mp name'
        exact (nodup.getElem_inj_iff).mp (is'.trans is.symm)

theorem load_inGroup {w : Workflow} {ctx : RunCtx}
    (reachable : (machine w).Reachable Machine.Any ctx) {target : String} {group : Nat}
    (members : ∀ (i : Nat) (spec : JobSpec), w.jobs[i]? = some spec →
      (inGroup w group i = true ↔ spec.target = target)) :
    load (inGroup w group) ctx =
      ctx.jobs.countP fun job => job.spec.target == target && job.state.isRunning := by
  rw [countP_eq_countAt]
  apply Nat.le_antisymm
  · refine countAt_mono fun i job here counted => ?_
    simp only [Bool.and_eq_true, beq_iff_eq] at counted ⊢
    exact ⟨(members i job.spec (specAt reachable here)).mp counted.1, counted.2⟩
  · refine countAt_mono fun i job here counted => ?_
    simp only [Bool.and_eq_true, beq_iff_eq] at counted ⊢
    exact ⟨(members i job.spec (specAt reachable here)).mpr counted.1, counted.2⟩

/-- In every reachable state no more jobs run than `max_parallel` allows, and on
each remote target no more than its cap. -/
theorem limits_hold {w : Workflow} {ctx : RunCtx}
    (reachable : (machine w).Reachable Machine.Any ctx) :
    (0 < w.parallel → ctx.jobs.countP (·.state.isRunning) ≤ w.parallel) ∧
      ∀ target, target ≠ "local" →
        ctx.jobs.countP (fun job => job.spec.target == target && job.state.isRunning) ≤
          w.targetMaxSessions target := by
  constructor
  · intro limited
    have within := within_of_reachable (fun _ => within_parallel limited) reachable
    have counted : ctx.jobs.countP (·.state.isRunning) = load (fun _ => true) ctx := by
      rw [countP_eq_countAt]
      simp [load]
    rw [counted]
    exact Nat.le_trans (Nat.le_add_right _ _) within
  · intro target remote
    by_cases used : ∃ (i : Nat) (spec : JobSpec), w.jobs[i]? = some spec ∧ spec.target = target
    · obtain ⟨i₀, spec₀, place₀, on₀⟩ := used
      obtain ⟨group, limited, cap, members⟩ := exists_group w remote place₀ on₀
      have within := within_of_reachable (fun _ => within_group (w := w) limited) reachable
      rw [cap] at within
      rw [← load_inGroup reachable members]
      exact Nat.le_trans (Nat.le_add_right _ _) within
    · rw [List.countP_eq_zero.mpr]
      · exact Nat.zero_le _
      · intro job member counted
        obtain ⟨i, here⟩ := List.mem_iff_getElem?.mp member
        simp only [Bool.and_eq_true, beq_iff_eq] at counted
        exact used ⟨i, job.spec, specAt reachable here, counted.1⟩

/-- A local job, and three on a target that takes one session. -/
def oneSession : Workflow where
  jobs := [("a", "local"), ("b", "far"), ("c", "far"), ("d", "far")].map fun (id, target) =>
    ⟨id, target, [], [⟨none, none, none, false, false, 0⟩], 0⟩
  maxParallel := some 3
  maxSessions := fun _ => some 1
  disabled := fun _ => none
  payloadLast := true

theorem oneSession_runs : ∃ ctx : RunCtx,
    (machine oneSession).Reachable Machine.Any ctx ∧ ctx.loop = .wait ∧
      ctx.jobs.map (·.state) = [.stepRunning, .stepRunning, .ready, .ready] :=
  ⟨_, Machine.run_of_replay (fun _ _ => true) (fun _ _ _ => trivial) (List.replicate 27 .calm) rfl,
    rfl, rfl⟩

theorem limits_hold_oneSession : ∃ ctx : RunCtx, ctx.loop = .wait ∧
    ctx.jobs.map (·.state) = [.stepRunning, .stepRunning, .ready, .ready] ∧
      ctx.jobs.countP (·.state.isRunning) ≤ 3 ∧
      ctx.jobs.countP (fun job => job.spec.target == "far" && job.state.isRunning) ≤ 1 := by
  obtain ⟨ctx, reachable, waits, states⟩ := oneSession_runs
  exact ⟨ctx, waits, states, (limits_hold reachable).1 (by decide),
    (limits_hold reachable).2 "far" (by decide)⟩

end Qwe.Kernel
