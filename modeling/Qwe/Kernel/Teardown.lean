import Qwe.Kernel.View
import Qwe.Lib.History

/-!
# Teardown discipline

Which notes a career may hold, and in which order.  `Shown` ties the notes about
the step at the cursor to the phase; `Legal` is the order, entry by entry.
-/

set_option autoImplicit false

namespace Qwe.Kernel

open Qwe.Lifecycle Qwe.History

structure Shown (v : View) : Prop where
  spawned : ∀ i ok, .spawned i ok ∈ v.notes →
    i < v.cur ∨ (i = v.cur ∧ (phase v.state).live = true ∧ ok = v.forked)
  spawnedHere : (phase v.state).live = true → .spawned v.cur v.forked ∈ v.notes
  sigterm : ∀ i, .sigterm (some i) ∈ v.notes →
    i < v.cur ∨ (i = v.cur ∧ (phase v.state).signalled = true)
  armed : ∀ i, .graceArmed (some i) ∈ v.notes →
    i < v.cur ∨ (i = v.cur ∧ (phase v.state).signalled = true)
  armedHere : (phase v.state).signalled = true → .graceArmed (some v.cur) ∈ v.notes
  sigkill : ∀ i, .sigkill (some i) ∈ v.notes →
    i < v.cur ∨ (i = v.cur ∧ (phase v.state).killed = true)
  recorded : ∀ i, .recorded i ∈ v.notes ↔
    i < v.cur ∨ (i = v.cur ∧ (phase v.state).decided = true)
  finished : ∀ i, .finished i ∈ v.notes ↔ i < v.cur
  reaped : (phase v.state).live = true → v.reaped = true → .leaderReaped (some v.cur) ∈ v.notes
  gone : ∀ i, i < v.cur → .spawned i true ∈ v.notes →
    .leaderReaped (some i) ∈ v.notes ∧ .groupSeenEmpty (some i) ∈ v.notes
  ended : .ended ∈ v.notes ↔ ∃ outcome, phase v.state = .final outcome
  idle : (phase v.state).live = false → v.forked = false

theorem shown_initial : Shown View.initial := by
  constructor <;> simp [View.initial, phase, Phase.live, Phase.signalled, Phase.decided]

/-- The entry is about one of the steps. -/
def Note.ofStep : Note → Bool
  | .told _ _ _ _ => false
  | .started _ => false
  | .graceSeen _ => false
  | .ended => false
  | .spawned _ _ => true
  | .sigterm _ => true
  | .graceArmed _ => true
  | .sigkill _ => true
  | .leaderReaped _ => true
  | .groupSeenEmpty _ => true
  | .recorded _ => true
  | .finished _ => true

theorem mem_cons_ofStep {entry newest : Note} {notes : List Note} (ofStep : entry.ofStep = true)
    (other : newest.ofStep = false) : entry ∈ newest :: notes ↔ entry ∈ notes := by
  rw [List.mem_cons, or_iff_right]
  rintro rfl
  rw [ofStep] at other
  contradiction

/-- The job moves, and nothing happens to its steps. -/
theorem Shown.frame {v v' : View} (shown : Shown v)
    (same : v'.cur = v.cur ∧ v'.forked = v.forked ∧ v'.reaped = v.reaped)
    (live : (phase v'.state).live = (phase v.state).live)
    (signalled : (phase v'.state).signalled = (phase v.state).signalled)
    (killed : (phase v'.state).killed = (phase v.state).killed)
    (decided : (phase v'.state).decided = (phase v.state).decided)
    (notes : ∀ entry : Note, entry.ofStep = true → (entry ∈ v'.notes ↔ entry ∈ v.notes))
    (ended : .ended ∈ v'.notes ↔ ∃ outcome, phase v'.state = .final outcome) : Shown v' := by
  obtain ⟨cur, forked, reaped⟩ := same
  constructor
  · intro i ok
    rw [notes (.spawned i ok) rfl, cur, live, forked]
    exact shown.spawned i ok
  · rw [notes (.spawned _ _) rfl, cur, live, forked]
    exact shown.spawnedHere
  · intro i
    rw [notes (.sigterm _) rfl, cur, signalled]
    exact shown.sigterm i
  · intro i
    rw [notes (.graceArmed _) rfl, cur, signalled]
    exact shown.armed i
  · rw [notes (.graceArmed _) rfl, cur, signalled]
    exact shown.armedHere
  · intro i
    rw [notes (.sigkill _) rfl, cur, killed]
    exact shown.sigkill i
  · intro i
    rw [notes (.recorded _) rfl, cur, decided]
    exact shown.recorded i
  · intro i
    rw [notes (.finished _) rfl, cur]
    exact shown.finished i
  · rw [notes (.leaderReaped _) rfl, cur, live, reaped]
    exact shown.reaped
  · intro i
    rw [notes (.spawned _ _) rfl, notes (.leaderReaped _) rfl, notes (.groupSeenEmpty _) rfl, cur]
    exact shown.gone i
  · exact ended
  · rw [live, forked]
    exact shown.idle

theorem flags_of_idle {p : Phase} (idle : p.live = false) :
    p.signalled = false ∧ p.killed = false ∧ p.decided = false := by
  cases p <;> first | contradiction | exact ⟨rfl, rfl, rfl⟩

/-- The job moves without a live step before or after. -/
theorem Shown.idleMove {v v' : View} (shown : Shown v)
    (same : v'.cur = v.cur ∧ v'.forked = v.forked ∧ v'.reaped = v.reaped)
    (before : (phase v.state).live = false) (after : (phase v'.state).live = false)
    (notes : ∀ entry : Note, entry.ofStep = true → (entry ∈ v'.notes ↔ entry ∈ v.notes))
    (ended : .ended ∈ v'.notes ↔ ∃ outcome, phase v'.state = .final outcome) : Shown v' := by
  obtain ⟨signalled, killed, decided⟩ := flags_of_idle before
  obtain ⟨signalled', killed', decided'⟩ := flags_of_idle after
  exact shown.frame same (after.trans before.symm) (signalled'.trans signalled.symm)
    (killed'.trans killed.symm) (decided'.trans decided.symm) notes ended

/-- The cursor moves on: nothing is left of the step it stood at. -/
theorem Shown.advance {v v' : View} (shown : Shown v) (cur : v'.cur = v.cur + 1)
    (idle : (phase v'.state).live = false) (unforked : v'.forked = false)
    (spawned : ∀ i ok, .spawned i ok ∈ v'.notes → .spawned i ok ∈ v.notes)
    (sigterm : ∀ i, .sigterm (some i) ∈ v'.notes → .sigterm (some i) ∈ v.notes)
    (armed : ∀ i, .graceArmed (some i) ∈ v'.notes → .graceArmed (some i) ∈ v.notes)
    (sigkill : ∀ i, .sigkill (some i) ∈ v'.notes → .sigkill (some i) ∈ v.notes)
    (recorded : ∀ i, .recorded i ∈ v'.notes ↔ i ≤ v.cur)
    (finished : ∀ i, .finished i ∈ v'.notes ↔ i ≤ v.cur)
    (gone : ∀ i, i ≤ v.cur → .spawned i true ∈ v.notes →
      .leaderReaped (some i) ∈ v'.notes ∧ .groupSeenEmpty (some i) ∈ v'.notes)
    (ended : .ended ∈ v'.notes ↔ ∃ outcome, phase v'.state = .final outcome) : Shown v' := by
  obtain ⟨signalled, _, decided⟩ := flags_of_idle idle
  have passed : ∀ {i : Nat} {here : Prop}, i < v.cur ∨ (i = v.cur ∧ here) → i < v'.cur := by
    rintro i here (past | ⟨rfl, _⟩) <;> omega
  refine ⟨?_, ?_, ?_, ?_, ?_, ?_, ?_, ?_, ?_, ?_, ended, fun _ => unforked⟩
  · exact fun i ok member => Or.inl (passed (shown.spawned i ok (spawned i ok member)))
  · intro live
    rw [idle] at live
    contradiction
  · exact fun i member => Or.inl (passed (shown.sigterm i (sigterm i member)))
  · exact fun i member => Or.inl (passed (shown.armed i (armed i member)))
  · intro live
    rw [signalled] at live
    contradiction
  · exact fun i member => Or.inl (passed (shown.sigkill i (sigkill i member)))
  · intro i
    rw [recorded, cur, decided, Nat.lt_succ_iff]
    simp
  · intro i
    rw [finished, cur]
    omega
  · intro live
    rw [idle] at live
    contradiction
  · intro i past forked
    exact gone i (by omega) (spawned i true forked)

/-- A signal is sent to the live step, or it is decided. -/
theorem Shown.liveMove {v v' : View} (shown : Shown v)
    (same : v'.cur = v.cur ∧ v'.forked = v.forked ∧ v'.reaped = v.reaped)
    (live : (phase v.state).live = true) (live' : (phase v'.state).live = true)
    (signalled : (phase v'.state).signalled = true)
    (spawned : ∀ i ok, .spawned i ok ∈ v'.notes ↔ .spawned i ok ∈ v.notes)
    (finished : ∀ i, .finished i ∈ v'.notes ↔ .finished i ∈ v.notes)
    (reaped : ∀ i, .leaderReaped i ∈ v'.notes ↔ .leaderReaped i ∈ v.notes)
    (empty : ∀ i, .groupSeenEmpty i ∈ v'.notes ↔ .groupSeenEmpty i ∈ v.notes)
    (sigterm : ∀ i, .sigterm (some i) ∈ v'.notes → .sigterm (some i) ∈ v.notes ∨ i = v.cur)
    (armed : ∀ i, .graceArmed (some i) ∈ v'.notes → .graceArmed (some i) ∈ v.notes ∨ i = v.cur)
    (armedHere : .graceArmed (some v.cur) ∈ v'.notes)
    (sigkill : ∀ i, .sigkill (some i) ∈ v'.notes →
      i < v.cur ∨ (i = v.cur ∧ (phase v'.state).killed = true))
    (recorded : ∀ i, .recorded i ∈ v'.notes ↔
      i < v.cur ∨ (i = v.cur ∧ (phase v'.state).decided = true))
    (notEnded : .ended ∉ v'.notes) : Shown v' := by
  obtain ⟨cur, forked, wasReaped⟩ := same
  refine ⟨?_, ?_, ?_, ?_, ?_, ?_, ?_, ?_, ?_, ?_, ?_, ?_⟩
  · intro i ok
    rw [spawned, cur, forked, live'.trans live.symm]
    exact shown.spawned i ok
  · rw [spawned, cur, forked]
    exact fun _ => shown.spawnedHere live
  · intro i member
    rw [cur, signalled]
    rcases sigterm i member with old | here
    · exact (shown.sigterm i old).imp_right fun here => ⟨here.1, rfl⟩
    · exact Or.inr ⟨here, rfl⟩
  · intro i member
    rw [cur, signalled]
    rcases armed i member with old | here
    · exact (shown.armed i old).imp_right fun here => ⟨here.1, rfl⟩
    · exact Or.inr ⟨here, rfl⟩
  · rw [cur]
    exact fun _ => armedHere
  · rw [cur]
    exact sigkill
  · rw [cur]
    exact recorded
  · intro i
    rw [finished, cur]
    exact shown.finished i
  · rw [reaped, cur, wasReaped]
    exact fun _ => shown.reaped live
  · intro i
    rw [spawned, reaped, empty, cur]
    exact shown.gone i
  · refine ⟨fun ended => absurd ended notEnded, ?_⟩
    rintro ⟨outcome, final⟩
    rw [final] at live'
    contradiction
  · intro idle
    rw [live'] at idle
    contradiction

/-- The group of the live step is seen empty, its leader having been reaped. -/
theorem Shown.goneAt {v : View} (shown : Shown v) (live : (phase v.state).live = true)
    (wasReaped : v.reaped = true) {i : Nat} (reached : i ≤ v.cur)
    (spawned : .spawned i true ∈ v.notes) :
    .leaderReaped (some i) ∈ v.notes ∧ (i = v.cur ∨ .groupSeenEmpty (some i) ∈ v.notes) := by
  rcases Nat.lt_or_eq_of_le reached with past | rfl
  · exact ⟨(shown.gone i past spawned).1, Or.inr (shown.gone i past spawned).2⟩
  · exact ⟨shown.reaped live wasReaped, Or.inl rfl⟩

theorem shown_step {spec : JobSpec} {v v' : View} (shown : Shown v) (step : Step spec v v') :
    Shown v' := by
  have open_ : ∀ {p : Phase}, phase v.state = p → (∀ outcome, p ≠ .final outcome) →
      .ended ∉ v.notes := by
    rintro _ rfl notFinal ended
    obtain ⟨outcome, final⟩ := shown.ended.mp ended
    exact notFinal outcome final
  cases step with
  | ignored coe ev live still =>
      refine shown.frame ⟨rfl, rfl, rfl⟩ rfl rfl rfl rfl
        (fun _ ofStep => mem_cons_ofStep ofStep rfl) ?_
      simpa using shown.ended
  | needsMet at_ =>
      refine shown.idleMove ⟨rfl, rfl, rfl⟩ (by rw [at_]; rfl) rfl
        (fun _ ofStep => mem_cons_ofStep ofStep rfl) ?_
      simp [open_ at_, phase]
  | skipped ev why at_ =>
      refine shown.idleMove ⟨rfl, rfl, rfl⟩ (by rcases at_ with at_ | at_ <;> rw [at_] <;> rfl) rfl
        (fun _ ofStep => (mem_cons_ofStep ofStep rfl).trans (mem_cons_ofStep ofStep rfl)) ?_
      simp [phase]
  | started ok at_ =>
      refine shown.idleMove ⟨rfl, rfl, rfl⟩ (by rw [at_]; rfl) rfl
        (fun _ ofStep => (mem_cons_ofStep ofStep rfl).trans (mem_cons_ofStep ofStep rfl)) ?_
      simp [open_ at_, phase]
  | notStarted at_ =>
      refine shown.idleMove ⟨rfl, rfl, rfl⟩ (by rw [at_]; rfl) rfl
        (fun _ ofStep => (mem_cons_ofStep ofStep rfl).trans (mem_cons_ofStep ofStep rfl)) ?_
      simp [phase]
  | stopped ev last why at_ opened stops =>
      obtain ⟨outcome, next⟩ := stops.final
      refine shown.idleMove ⟨rfl, rfl, rfl⟩ (by rw [at_]; rfl) (by simp only [next]; rfl)
        (fun _ ofStep => (mem_cons_ofStep ofStep rfl).trans (mem_cons_ofStep ofStep rfl)) ?_
      simp [next]
  | overruled verdict verdict' killed ev why next at_ overrules reached =>
      refine shown.frame ⟨rfl, rfl, rfl⟩ (by simp only [at_, reached]; rfl)
        (by simp only [at_, reached]; rfl) (by simp only [at_, reached]; rfl)
        (by simp only [at_, reached]; rfl) (fun _ ofStep => mem_cons_ofStep ofStep rfl) ?_
      simp [open_ at_, reached]
  | reaped forked =>
      refine ⟨?_, ?_, ?_, ?_, ?_, ?_, ?_, ?_, fun _ _ => List.mem_cons_self, ?_, ?_, shown.idle⟩
      · simpa using shown.spawned
      · simpa using shown.spawnedHere
      · simpa using shown.sigterm
      · simpa using shown.armed
      · simpa using shown.armedHere
      · simpa using shown.sigkill
      · simpa using shown.recorded
      · simpa using shown.finished
      · intro i past forked
        have gone := shown.gone i past (by simpa using forked)
        exact ⟨List.mem_cons_of_mem _ gone.1, List.mem_cons_of_mem _ gone.2⟩
      · simpa using shown.ended
  | spawned step next ok at_ opened here reached =>
      obtain ⟨spawned, _, sigterm, armed, _, sigkill, recorded, finished, _, gone, _, _⟩ := shown
      simp only [at_, Phase.live, Phase.signalled, Phase.killed, Phase.decided, Bool.false_eq_true,
        false_and, and_false, or_false] at spawned sigterm armed sigkill recorded
      refine ⟨?_, fun _ => List.mem_cons_self, ?_, ?_, ?_, ?_, ?_, ?_, ?_, ?_, ?_, ?_⟩
      · rintro i ok' member
        rcases List.mem_cons.mp member with same | old
        · cases same
          exact Or.inr ⟨rfl, by simp only [reached]; rfl, rfl⟩
        · exact Or.inl (spawned i ok' (by simpa using old))
      · exact fun i member => Or.inl (sigterm i (by simpa using member))
      · exact fun i member => Or.inl (armed i (by simpa using member))
      · simp [reached, Phase.signalled]
      · exact fun i member => Or.inl (sigkill i (by simpa using member))
      · simpa [reached, Phase.decided] using recorded
      · simpa using finished
      · simp
      · intro i past forked
        have old : .spawned i true ∈ v.notes := by
          simpa [Nat.ne_of_lt past] using forked
        simpa using gone i past old
      · simp [open_ at_, reached]
      · simp [reached, Phase.live]
  | notSpawned coe changed at_ unforked =>
      have recorded := shown.recorded
      simp only [at_, Phase.decided, Bool.false_eq_true, and_false, or_false] at recorded
      refine shown.advance rfl rfl (by simpa using unforked) (by simp) (by simp) (by simp) (by simp)
        ?_ ?_ ?_ (by simp [phase])
      · intro i
        simp [recorded, Nat.le_iff_lt_or_eq, or_comm]
      · intro i
        simp [shown.finished, Nat.le_iff_lt_or_eq, or_comm]
      · intro i reached forked
        rcases shown.spawned i true forked with past | ⟨_, _, forked'⟩
        · simpa using shown.gone i past forked
        · rw [unforked] at forked'
          contradiction
  | timedOut coe next at_ forked reached =>
      have sigkill := shown.sigkill
      have recorded := shown.recorded
      simp only [at_, Phase.killed, Phase.decided] at sigkill recorded
      refine shown.liveMove ⟨rfl, rfl, rfl⟩ (by rw [at_]; rfl) (by simp only [reached]; rfl)
        (by simp only [reached]; rfl) (by simp) (by simp) (by simp) (by simp)
        (fun i => by simp +contextual [or_comm]) (fun i => by simp +contextual [or_comm]) (by simp)
        ?_ ?_ ?_
      · simpa [reached, Phase.killed] using sigkill
      · simpa [reached, Phase.decided] using recorded
      · simpa using open_ at_ (by simp)
  | killed next forked moves =>
      have flags : (phase v.state).live = true ∧ (phase v.state).signalled = true ∧
          (phase next).live = true ∧ (phase next).signalled = true ∧ (phase next).killed = true ∧
          (phase next).decided = (phase v.state).decided := by
        rcases moves with ⟨coe, at_, reached⟩ | ⟨verdict, at_, reached⟩ <;> rw [at_, reached] <;>
          exact ⟨rfl, rfl, rfl, rfl, rfl, rfl⟩
      obtain ⟨live, signalled, live', signalled', killed', decided'⟩ := flags
      have notEnded : .ended ∉ v.notes := by
        rcases moves with ⟨coe, at_, _⟩ | ⟨verdict, at_, _⟩ <;> exact open_ at_ (by simp)
      refine shown.liveMove ⟨rfl, rfl, rfl⟩ live live' signalled' (by simp) (by simp) (by simp)
        (by simp) (fun i => by simp +contextual) (fun i => by simp +contextual)
        (by simpa using shown.armedHere signalled) ?_ ?_ (by simpa using notEnded)
      · intro i member
        rcases List.mem_cons.mp member with same | old
        · exact Or.inr ⟨by simpa using same, killed'⟩
        · exact (shown.sigkill i (by simpa using old)).imp_right fun here => ⟨here.1, killed'⟩
      · simpa [decided'] using shown.recorded
  | decided coe sent ev verdict why changed next at_ forked wasReaped decides reached =>
      have live : (phase v.state).live = true := by rw [at_]; rfl
      have armedHere := shown.armedHere
      have sigkill := shown.sigkill
      have recorded := shown.recorded
      simp only [at_, Phase.killed, Phase.decided, Phase.signalled] at armedHere sigkill recorded
      refine shown.liveMove ⟨rfl, rfl, rfl⟩ live (by simp only [reached]; rfl)
        (by simp only [reached]; rfl) ?_ ?_ ?_ ?_ ?_ ?_ ?_ ?_ ?_ ?_
      · cases sent <;> simp [tornDown]
      · cases sent <;> simp [tornDown]
      · cases sent <;> simp [tornDown]
      · cases sent <;> simp [tornDown]
      · cases sent <;> simp +contextual [tornDown, or_comm]
      · cases sent <;> simp +contextual [tornDown, or_comm]
      · cases sent <;> simp_all [tornDown]
      · cases sent <;> simpa [tornDown, reached, Phase.killed, Signal.killed] using sigkill
      · cases sent <;> simp [tornDown, reached, Phase.decided, recorded, or_comm]
      · cases sent <;> simpa [tornDown] using open_ at_ (by simp)
  | movedOn killed at_ forked wasReaped =>
      have live : (phase v.state).live = true := by rw [at_]; rfl
      have recorded := shown.recorded
      simp only [at_, Phase.decided, and_true] at recorded
      refine shown.advance rfl rfl rfl (by simp) (by simp) (by simp) (by simp) ?_ ?_ ?_
        (by simp [phase, open_ at_])
      · intro i
        simp [recorded, Nat.le_iff_lt_or_eq]
      · intro i
        simp [shown.finished, Nat.le_iff_lt_or_eq, or_comm]
      · intro i reached spawned
        simpa using shown.goneAt live wasReaped reached spawned
  | closed verdict killed last why at_ forked wasReaped closes =>
      obtain ⟨outcome, next⟩ := closes.final
      have live : (phase v.state).live = true := by rw [at_]; rfl
      have recorded := shown.recorded
      simp only [at_, Phase.decided, and_true] at recorded
      refine shown.advance rfl (by simp only [next]; rfl) rfl (by simp) (by simp) (by simp) (by simp)
        ?_ ?_ ?_ (by simp [next])
      · intro i
        simp [recorded, Nat.le_iff_lt_or_eq]
      · intro i
        simp [shown.finished, Nat.le_iff_lt_or_eq, or_comm]
      · intro i reached spawned
        simpa using shown.goneAt live wasReaped reached spawned

/-! ## The order of the notes -/

/-- The step's leader was reaped and its group seen empty. -/
def Gone (step : Nat) (older : List Note) : Prop :=
  .leaderReaped (some step) ∈ older ∧ .groupSeenEmpty (some step) ∈ older

/-- When an entry may be written. -/
def Legal : Note → List Note → Prop
  | .spawned step _, older =>
      .ended ∉ older ∧ ∀ k ok, .spawned k ok ∈ older → k < step ∧ (ok = true → Gone k older)
  | .sigterm (some step), older => .spawned step true ∈ older ∧ .sigterm (some step) ∉ older
  | .graceArmed (some step), older =>
      (∃ rest, older = .sigterm (some step) :: rest) ∧ .graceArmed (some step) ∉ older
  | .graceSeen (some step), older => .graceArmed (some step) ∈ older
  | .sigkill (some step), older => .sigkill (some step) ∉ older ∧ .graceSeen (some step) ∈ older
  | .leaderReaped (some step), older => .spawned step true ∈ older
  | .groupSeenEmpty (some step), older => .leaderReaped (some step) ∈ older
  -- the steps before `step` are finished, so the cursor stands at it
  | .recorded step, older =>
      (∃ ok, .spawned step ok ∈ older) ∧ .recorded step ∉ older ∧
        ∀ k, .finished k ∈ older ↔ k < step
  | .finished step, older => .recorded step ∈ older ∧ .finished step ∉ older
  | .ended, older => .ended ∉ older ∧ ∀ k, .spawned k true ∈ older → Gone k older
  | .told _ _ _ _, _ => True
  | .started _, _ => True
  -- a signal, a timer or a process is always some step's
  | _, _ => False

/-- Only the arming of the grace timer comes right after a SIGTERM. -/
def Prompt (entry : Note) (older : List Note) : Prop :=
  ∀ step, older.head? = some (.sigterm step) → entry = .graceArmed step

structure Disciplined (v : View) : Prop extends Shown v where
  legal : Always Legal v.notes
  prompt : Always Prompt v.notes
  armedLast : ∀ step, v.notes.head? ≠ some (.sigterm step)

theorem disciplined_initial : Disciplined View.initial :=
  ⟨shown_initial, trivial, trivial, by simp [View.initial]⟩

section Order
variable {v : View}

theorem Gone.cons {step : Nat} {older : List Note} (gone : Gone step older) (entry : Note) :
    Gone step (entry :: older) :=
  ⟨List.mem_cons_of_mem entry gone.1, List.mem_cons_of_mem entry gone.2⟩

/-- With no live step, every step that was forked is gone. -/
theorem Shown.allGone (shown : Shown v) (idle : (phase v.state).live = false) (k : Nat) (ok : Bool)
    (spawned : .spawned k ok ∈ v.notes) : k < v.cur ∧ (ok = true → Gone k v.notes) := by
  rcases shown.spawned k ok spawned with past | ⟨_, live, _⟩
  · exact ⟨past, fun forked => shown.gone k past (forked ▸ spawned)⟩
  · rw [idle] at live
    contradiction

theorem Shown.notEnded (shown : Shown v) (open_ : ∀ outcome, phase v.state ≠ .final outcome) :
    .ended ∉ v.notes := by
  intro ended
  obtain ⟨outcome, final⟩ := shown.ended.mp ended
  exact open_ outcome final

/-- A job that ends without a live step. -/
theorem Shown.legal_ended (shown : Shown v) (idle : (phase v.state).live = false)
    (open_ : ∀ outcome, phase v.state ≠ .final outcome) (ev : Event) (live : Option Nat)
    (before after : State) : Legal .ended (.told ev live before after :: v.notes) := by
  refine ⟨by simpa using shown.notEnded open_, fun k spawned => ?_⟩
  have spawned : .spawned k true ∈ v.notes := by simpa using spawned
  exact ((shown.allGone idle k true spawned).2 rfl).cons _

theorem Shown.legal_recorded (shown : Shown v) (live : (phase v.state).live = true)
    (undecided : (phase v.state).decided = false) {older : List Note}
    (spawned : ∀ i ok, .spawned i ok ∈ v.notes → .spawned i ok ∈ older)
    (same : ∀ i, (.recorded i ∈ older ↔ .recorded i ∈ v.notes) ∧
      (.finished i ∈ older ↔ .finished i ∈ v.notes)) :
    Legal (.recorded v.cur) older := by
  refine ⟨⟨_, spawned _ _ (shown.spawnedHere live)⟩, fun again => ?_, fun k => ?_⟩
  · rcases (shown.recorded v.cur).mp ((same _).1.mp again) with past | ⟨_, decided⟩
    · exact Nat.lt_irrefl _ past
    · rw [undecided] at decided
      contradiction
  · rw [(same k).2]
    exact shown.finished k

/-- A step that was not signalled is sent SIGTERM, and its grace timer armed. -/
theorem Shown.legal_torn (shown : Shown v) (legal : Always Legal v.notes)
    (live : (phase v.state).live = true) (quiet : (phase v.state).signalled = false)
    (forked : v.forked = true) (ev : Event) (next : State) :
    Always Legal (.graceArmed (some v.cur) :: .sigterm (some v.cur) ::
      .told ev (some v.cur) v.state next :: v.notes) := by
  have term : .sigterm (some v.cur) ∉ v.notes := by
    intro member
    have := shown.sigterm v.cur member
    simp [quiet] at this
  have armed : .graceArmed (some v.cur) ∉ v.notes := by
    intro member
    have := shown.armed v.cur member
    simp [quiet] at this
  have spawned : .spawned v.cur true ∈ v.notes := forked ▸ shown.spawnedHere live
  exact ⟨⟨⟨_, rfl⟩, by simpa using armed⟩,
    ⟨List.mem_cons_of_mem _ spawned, by simpa using term⟩, trivial, legal⟩

/-- A decided step is recorded and not finished. -/
theorem Shown.finishes (shown : Shown v) (decided : (phase v.state).decided = true) :
    .recorded v.cur ∈ v.notes ∧ .finished v.cur ∉ v.notes :=
  ⟨by simp [shown.recorded, decided], by simp [shown.finished]⟩

theorem legal_step {spec : JobSpec} {v' : View} (shown : Shown v) (legal : Always Legal v.notes)
    (step : Step spec v v') : Always Legal v'.notes := by
  cases step with
  | ignored => exact ⟨trivial, legal⟩
  | needsMet => exact ⟨trivial, legal⟩
  | started => exact ⟨trivial, trivial, legal⟩
  | overruled => exact ⟨trivial, legal⟩
  | reaped forked =>
      have live : (phase v.state).live = true := by
        by_contra idle
        rw [shown.idle (by simpa using idle)] at forked
        contradiction
      have here : .spawned v.cur true ∈ v.notes := forked ▸ shown.spawnedHere live
      exact ⟨here, legal⟩
  | skipped ev why at_ =>
      have idle : (phase v.state).live = false := by rcases at_ with at_ | at_ <;> rw [at_] <;> rfl
      have open_ : ∀ outcome, phase v.state ≠ .final outcome := by
        rcases at_ with at_ | at_ <;> simp [at_]
      exact ⟨shown.legal_ended idle open_ _ _ _ _, trivial, legal⟩
  | notStarted at_ =>
      exact ⟨shown.legal_ended (by rw [at_]; rfl) (by simp [at_]) _ _ _ _, trivial, legal⟩
  | stopped ev last why at_ =>
      exact ⟨shown.legal_ended (by rw [at_]; rfl) (by simp [at_]) _ _ _ _, trivial, legal⟩
  | spawned step next ok at_ =>
      refine ⟨⟨by simpa using shown.notEnded (by simp [at_]), fun k ok spawned => ?_⟩, trivial,
        legal⟩
      have spawned : .spawned k ok ∈ v.notes := by simpa using spawned
      obtain ⟨past, gone⟩ := shown.allGone (by rw [at_]; rfl) k ok spawned
      exact ⟨past, fun forked => (gone forked).cons _⟩
  | notSpawned coe changed at_ unforked =>
      have recorded : Legal (.recorded v.cur)
          (.told .startFailed (some v.cur) v.state .failed :: v.notes) :=
        shown.legal_recorded (by rw [at_]; rfl) (by rw [at_]; rfl)
          (fun _ _ member => List.mem_cons_of_mem _ member) (by simp)
      have finished : .finished v.cur ∉ v.notes := by simp [shown.finished]
      refine ⟨⟨?_, fun k spawned => ?_⟩, ⟨by simp, by simpa using finished⟩, recorded, trivial,
        legal⟩
      · simpa using shown.notEnded (by simp [at_])
      · have spawned : .spawned k true ∈ v.notes := by simpa using spawned
        rcases shown.spawned k true spawned with past | ⟨_, _, forked⟩
        · exact (((show Gone k v.notes from shown.gone k past spawned).cons _).cons _).cons _
        · rw [unforked] at forked
          contradiction
  | timedOut coe next at_ forked =>
      exact shown.legal_torn legal (by rw [at_]; rfl) (by rw [at_]; rfl) forked _ _
  | killed next forked moves =>
      have signalled : (phase v.state).signalled = true ∧ (phase v.state).killed = false := by
        rcases moves with ⟨coe, at_, _⟩ | ⟨verdict, at_, _⟩ <;> rw [at_] <;> exact ⟨rfl, rfl⟩
      have killed : .sigkill (some v.cur) ∉ v.notes := by
        intro member
        have := shown.sigkill v.cur member
        simp [signalled.2] at this
      exact ⟨⟨by simpa using killed, by simp⟩, trivial, shown.armedHere signalled.1, legal⟩
  | decided coe sent ev verdict why changed next at_ forked =>
      have live : (phase v.state).live = true := by rw [at_]; rfl
      have undecided : (phase v.state).decided = false := by rw [at_]; rfl
      have told : Always Legal (.told ev (some v.cur) v.state next :: v.notes) := ⟨trivial, legal⟩
      cases sent with
      | none =>
          refine ⟨shown.legal_recorded live undecided ?_ ?_,
            shown.legal_torn legal live (by rw [at_]; rfl) forked _ _⟩
          · intro i ok member
            simp [tornDown, member]
          · simp [tornDown]
      | term =>
          exact ⟨shown.legal_recorded live undecided
            (fun _ _ member => List.mem_cons_of_mem _ member) (by simp [tornDown]), told⟩
      | kill =>
          exact ⟨shown.legal_recorded live undecided
            (fun _ _ member => List.mem_cons_of_mem _ member) (by simp [tornDown]), told⟩
  | movedOn killed at_ forked reaped =>
      have live : (phase v.state).live = true := by rw [at_]; rfl
      obtain ⟨recorded, finished⟩ := shown.finishes (by rw [at_]; rfl)
      exact ⟨⟨by simpa using recorded, by simpa using finished⟩, trivial, shown.reaped live reaped,
        legal⟩
  | closed verdict killed last why at_ forked reaped =>
      have live : (phase v.state).live = true := by rw [at_]; rfl
      obtain ⟨recorded, finished⟩ := shown.finishes (by rw [at_]; rfl)
      refine ⟨⟨?_, fun k spawned => ?_⟩, ⟨by simpa using recorded, by simpa using finished⟩, trivial,
        shown.reaped live reaped, legal⟩
      · simpa using shown.notEnded (by simp [at_])
      · have spawned : .spawned k true ∈ v.notes := by simpa using spawned
        rcases shown.spawned k true spawned with past | ⟨rfl, _, _⟩
        · exact (((show Gone k v.notes from shown.gone k past spawned).cons _).cons _).cons _
        · exact ⟨by simpa using shown.reaped live reaped, by simp⟩

theorem prompt_step {spec : JobSpec} {v' : View} (prompt : Always Prompt v.notes)
    (armedLast : ∀ step, v.notes.head? ≠ some (.sigterm step)) (step : Step spec v v') :
    Always Prompt v'.notes ∧ ∀ step, v'.notes.head? ≠ some (.sigterm step) := by
  cases step with
  | decided coe sent => cases sent <;> simp [Prompt, tornDown, prompt, armedLast]
  | _ => simp [Prompt, prompt, armedLast]

theorem disciplined_step {spec : JobSpec} {v' : View} (disciplined : Disciplined v)
    (step : Step spec v v') : Disciplined v' := by
  obtain ⟨prompt, armedLast⟩ := prompt_step disciplined.prompt disciplined.armedLast step
  exact ⟨shown_step disciplined.toShown step,
    legal_step disciplined.toShown disciplined.legal step, prompt, armedLast⟩

end Order

theorem disciplined_of_reachable {w : Workflow} {allowed : RunCtx → Answer → Prop} {ctx : RunCtx}
    {job : Job} (reachable : (machine w).Reachable allowed ctx) (member : job ∈ ctx.jobs) :
    Disciplined job.view := by
  obtain ⟨j, here⟩ := List.mem_iff_getElem?.mp member
  exact (career_of_reachable reachable here).invariant (fun _ _ => disciplined_step)
    disciplined_initial

/-! ## The laws of teardown -/

/-- What may be said of the history of every job, at every moment. -/
structure TeardownLaws (notes : List Note) : Prop where
  sigtermOnce : ∀ i, notes.count (.sigterm (some i)) ≤ 1
  armedOnce : ∀ i, notes.count (.graceArmed (some i)) ≤ 1
  sigkillOnce : ∀ i, notes.count (.sigkill (some i)) ≤ 1
  /-- signals and the grace timer are always some step's -/
  ofStep : .sigterm none ∉ notes ∧ .graceArmed none ∉ notes ∧ .sigkill none ∉ notes
  /-- the grace timer is armed right after the SIGTERM, ... -/
  armedAtSigterm : ∀ newer step older, notes = newer ++ .graceArmed step :: older →
    ∃ rest, older = .sigterm step :: rest
  /-- ... and after every SIGTERM -/
  sigtermArms : ∀ newer step older, notes = newer ++ .sigterm step :: older →
    ∃ rest, newer = rest ++ [.graceArmed step]
  /-- SIGKILL comes after the expiry of the timer that was armed for this step -/
  sigkillAfterGrace : ∀ newer step older, notes = newer ++ .sigkill step :: older →
    ∃ middle rest, older = middle ++ .graceSeen step :: rest ∧ .graceArmed step ∈ rest
  spawnedOnce : ∀ newer i ok older, notes = newer ++ .spawned i ok :: older →
    ∀ ok', .spawned i ok' ∉ older
  /-- no later step is spawned, and the job not ended, before every step that was
  forked is gone: its leader reaped, then its group seen empty -/
  goneFirst : ∀ newer entry older, notes = newer ++ entry :: older →
    (entry = .ended ∨ ∃ i ok, entry = .spawned i ok) →
    ∀ k, .spawned k true ∈ older →
      ∃ middle rest, older = middle ++ .groupSeenEmpty (some k) :: rest ∧
        .leaderReaped (some k) ∈ rest

theorem teardownLaws_of_disciplined {v : View} (disciplined : Disciplined v) :
    TeardownLaws v.notes := by
  have legal := disciplined.legal
  have olderLegal : ∀ {newer entry older}, v.notes = newer ++ entry :: older →
      Legal entry older ∧ Always Legal older := by
    intro newer entry older split
    have suffix : Always Legal (entry :: older) := always_of_append (split ▸ legal)
    exact suffix
  have allowed : ∀ {entry : Note}, entry ∈ v.notes → ∃ older, Legal entry older := by
    intro entry member
    obtain ⟨_, older, _, rule⟩ := always_of_mem legal member
    exact ⟨older, rule⟩
  refine ⟨fun i => count_le_one_of_always (fun _ rule => rule.2) legal,
    fun i => count_le_one_of_always (fun _ rule => rule.2) legal,
    fun i => count_le_one_of_always (fun _ rule => rule.1) legal,
    ⟨fun member => (allowed member).choose_spec, fun member => (allowed member).choose_spec,
      fun member => (allowed member).choose_spec⟩, ?_, ?_, ?_, ?_, ?_⟩
  · intro newer step older split
    cases step with
    | none => exact (olderLegal split).1.elim
    | some i => exact (olderLegal split).1.1
  · intro newer step older split
    rcases List.eq_nil_or_concat newer with rfl | ⟨rest, entry, rfl⟩
    · exact absurd (by rw [split]; rfl) (disciplined.armedLast step)
    · refine ⟨rest, ?_⟩
      have prompt := disciplined.prompt
      rw [split, List.concat_eq_append, List.append_assoc] at prompt
      rw [List.concat_eq_append, always_at prompt step rfl]
  · intro newer step older split
    cases step with
    | none => exact (olderLegal split).1.elim
    | some i =>
        obtain ⟨⟨_, seen⟩, rest⟩ := olderLegal split
        exact always_of_mem rest seen
  · intro newer i ok older split ok' again
    exact Nat.lt_irrefl i ((olderLegal split).1.2 i ok' again).1
  · intro newer entry older split ends k forked
    have gone : Gone k older := by
      rcases ends with rfl | ⟨i, ok, rfl⟩
      · exact (olderLegal split).1.2 k forked
      · exact ((olderLegal split).1.2 k true forked).2 rfl
    exact always_of_mem (olderLegal split).2 gone.2

/-- In every run and any order of events, every job's history keeps the laws. -/
theorem teardown_discipline {w : Workflow} {ctx : RunCtx}
    (reachable : (machine w).Reachable Machine.Any ctx) :
    ∀ job ∈ ctx.jobs, TeardownLaws job.notes :=
  fun _ member => teardownLaws_of_disciplined (disciplined_of_reachable reachable member)

theorem stubbornStep_runs : ∃ (ctx : RunCtx) (job : Job),
    (machine (localJobs ["solo"] true)).Reachable Machine.Any ctx ∧ ctx.loop = .halted 0 ∧
      ctx.jobs = [job] ∧ job.state = .success ∧ job.reason = none ∧
      (∃ ok, .started ok ∈ job.notes) ∧
      job.notes.count (.sigterm (some 0)) = 1 ∧ job.notes.count (.sigkill (some 0)) = 1 ∧
      job.steps.map (·.map (·.outcome)) = some [some .failed] := by
  refine ⟨_, _, Machine.run_of_replay (fun _ _ => true) (fun _ _ _ => trivial) stubbornStep
    rfl, rfl, rfl, rfl, rfl, ⟨true, ?_⟩, ?_⟩
  · decide
  · decide

theorem teardown_discipline_stubbornStep : ∃ (ctx : RunCtx) (job : Job),
    (machine (localJobs ["solo"] true)).Reachable Machine.Any ctx ∧ job ∈ ctx.jobs ∧
      job.notes.count (.sigterm (some 0)) = 1 ∧ job.notes.count (.sigkill (some 0)) = 1 ∧
      TeardownLaws job.notes := by
  obtain ⟨ctx, job, reachable, _, jobs, _, _, _, term, kill, _⟩ := stubbornStep_runs
  have member : job ∈ ctx.jobs := by simp [jobs]
  exact ⟨ctx, job, reachable, member, term, kill, teardown_discipline reachable job member⟩

end Qwe.Kernel
