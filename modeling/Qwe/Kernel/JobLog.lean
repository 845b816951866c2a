import Qwe.Kernel.Ring
import Qwe.Redact.Calls
import Qwe.Template.Document

/-!
# The log of a job

`emit`, `drain` and `drain_flush` of `src/kernel/workflow.c`: what a step writes
is read in chunks, redacted, put into the ring and from there at once into the
job's sink.  Secrets join the run's set at any time, from this job or another.

The ring is drained after every write, so it drops bytes only when one release
alone is longer than the ring.  The redactor can hold nearly a whole secret and
release it together with a chunk, and no length of a secret is refused.
-/

set_option autoImplicit false

namespace Qwe.Kernel

open Qwe.Redact
open Qwe.Template (bytes decimalNat)

/-- `CHUNK` -/
def chunkSize : Nat := 65536

/-- The loop of `emit`: the ring is read until it is empty. -/
def drainRing (r : Ring) (sink : Bytes) : Ring × Bytes :=
  if (r.read chunkSize).2.length > 0 then
    drainRing (r.read chunkSize).1 (sink ++ (r.read chunkSize).2)
  else ((r.read chunkSize).1, sink)
termination_by r.len
decreasing_by
  rename_i got
  rw [(r.read_contents chunkSize).1, List.length_take, r.length_contents] at got
  have rest := congrArg List.length (r.read_contents chunkSize).2.1
  rw [Ring.length_contents, List.length_drop, r.length_contents] at rest
  omega

/-- The text of the alarm. -/
def alarm (dropped : Nat) : Bytes :=
  bytes "qwe: ALARM: ring overflow, " ++ decimalNat dropped ++ bytes " bytes dropped\n"

/-- `emit`: the ring and the sink afterwards. -/
def emit (r : Ring) (sink data : Bytes) : Ring × Bytes :=
  let (after, sink) := drainRing (r.write data) sink
  if after.dropped ≠ r.dropped then (after, sink ++ alarm after.dropped) else (after, sink)

/-- What one `read` of the step's pipe returns. -/
structure Chunk where
  bytes : Bytes
  filled : bytes ≠ []
  short : bytes.length ≤ chunkSize

inductive LogEvent where
  /-- A value joins the run's set. -/
  | secret (value : Bytes)
  /-- `drain` reads a chunk. -/
  | output (chunk : Chunk)
  /-- A step has ended: `drain_flush`. -/
  | ended

/-- The log of a job and the set of its run.  `released` is everything that the
redactor has released. -/
structure JobLog where
  set : List Bytes
  redactor : Redactor
  ring : Ring
  sink : Bytes
  released : Bytes

namespace JobLog

/-- A job's log before its first step. -/
def start (memory : Nat → UInt8) : JobLog :=
  { set := [], redactor := { held := [] }, ring := .init memory ringCapacity, sink := [],
    released := [] }

/-- What is done with the bytes that the redactor releases. -/
def release (log : JobLog) (redactor : Redactor) (safe : Bytes) : JobLog :=
  if safe.length > 0 then
    { log with
      redactor := redactor
      ring := (emit log.ring log.sink safe).1
      sink := (emit log.ring log.sink safe).2
      released := log.released ++ safe }
  else { log with redactor := redactor }

def step (log : JobLog) : LogEvent → JobLog
  | .secret value => { log with set := redactAdd log.set value }
  | .output chunk =>
      log.release (redactFeed log.set log.redactor chunk.bytes).1
        (redactFeed log.set log.redactor chunk.bytes).2
  | .ended => log.release (redactFlush log.redactor).1 (redactFlush log.redactor).2

def run (log : JobLog) (events : List LogEvent) : JobLog := events.foldl step log

/-- Everything released is in the sink, in order, and nothing was dropped. -/
def Intact (log : JobLog) : Prop := log.sink = log.released ∧ log.ring.dropped = 0

/-- The ring between two events. -/
def Drained (log : JobLog) : Prop := log.ring.len = 0 ∧ log.ring.cap = ringCapacity

end JobLog

/-! ## One write -/

theorem drainRing_spec (r : Ring) (sink : Bytes) :
    (drainRing r sink).2 = sink ++ r.contents ∧ (drainRing r sink).1.len = 0 ∧
      (drainRing r sink).1.cap = r.cap ∧ (drainRing r sink).1.dropped = r.dropped := by
  induction r, sink using drainRing.induct with
  | case1 r sink got inductionHypothesis =>
      obtain ⟨all, empty, cap, dropped⟩ := inductionHypothesis
      obtain ⟨taken, left, sameCap, sameDropped⟩ := r.read_contents chunkSize
      rw [drainRing, if_pos got]
      refine ⟨?_, empty, cap.trans sameCap, dropped.trans sameDropped⟩
      rw [all, taken, left, List.append_assoc, List.take_append_drop]
  | case2 r sink nothing =>
      obtain ⟨taken, left, sameCap, sameDropped⟩ := r.read_contents chunkSize
      have none_ : r.contents = [] := by
        rw [taken, List.length_take] at nothing
        apply List.length_eq_zero_iff.mp
        unfold chunkSize at nothing
        omega
      rw [drainRing, if_neg nothing]
      refine ⟨by rw [none_, List.append_nil], ?_, sameCap, sameDropped⟩
      rw [← Ring.length_contents, left, none_, List.drop_nil, List.length_nil]

theorem emit_drains (r : Ring) (sink data : Bytes) :
    (emit r sink data).1.len = 0 ∧ (emit r sink data).1.cap = r.cap := by
  obtain ⟨-, empty, cap, -⟩ := drainRing_spec (r.write data) sink
  simp only [emit]
  split_ifs <;> exact ⟨empty, cap.trans (Ring.cap_write r data)⟩

theorem emit_fits {r : Ring} {data : Bytes} (sink : Bytes) (empty : r.len = 0)
    (fits : data.length ≤ r.cap) :
    (emit r sink data).2 = sink ++ data ∧ (emit r sink data).1.dropped = r.dropped := by
  obtain ⟨all, -, -, dropped⟩ := drainRing_spec (r.write data) sink
  obtain ⟨contents, same⟩ := Ring.write_fits empty fits
  rw [contents] at all
  rw [same] at dropped
  simp only [emit, dropped, ne_eq, not_true_eq_false, if_false]
  exact ⟨all, trivial⟩

/-- A release longer than the ring: either the count is not 0 any more, or it came
round to 0 and the bytes are missing without an alarm. -/
theorem emit_overflows {r : Ring} {data : Bytes} (sink : Bytes) (empty : r.len = 0)
    (fresh : r.dropped = 0) (long : r.cap < data.length) :
    ¬ ((emit r sink data).2 = sink ++ data ∧ (emit r sink data).1.dropped = 0) := by
  rintro ⟨all, none_⟩
  obtain ⟨drained, -, -, dropped⟩ := drainRing_spec (r.write data) sink
  obtain ⟨contents, counted⟩ := Ring.write_overflows empty long
  rw [contents] at drained
  by_cases wrapped : (drainRing (r.write data) sink).1.dropped = 0
  · simp only [emit, wrapped, fresh, ne_eq, not_true_eq_false, if_false] at all
    have lengths := congrArg List.length (drained.symm.trans all)
    rw [List.length_append, List.length_append, List.length_drop] at lengths
    omega
  · simp only [emit, fresh, if_pos wrapped] at none_
    exact wrapped none_

/-! ## One event -/

/-- The bytes that a feed of `p` releases, counted: 3 for every secret that the
scan meets, none for the tail that may still become one, 1 for any other byte. -/
def weight (set : List Bytes) (p : Bytes) : Nat :=
  match p with
  | [] => 0
  | byte :: rest =>
      if matchAt set (byte :: rest) ≠ 0 then
        3 + weight set ((byte :: rest).drop (matchAt set (byte :: rest)))
      else if couldStart set (byte :: rest) then 0
      else 1 + weight set rest
termination_by p.length
decreasing_by
  all_goals simp
  omega

theorem length_feedLoop (set : List Bytes) (p : Bytes) :
    (feedLoop set p).1.length = weight set p := by
  induction p using feedLoop.induct set with
  | case1 => rw [feedLoop, weight, List.length_nil]
  | case2 byte rest m hit inductionHypothesis =>
      rw [feedLoop_hit hit, weight, if_pos hit, List.length_append, inductionHypothesis]
      rfl
  | case3 byte rest m miss open_ =>
      rw [feedLoop_hold (not_not.mp miss) open_, weight, if_neg miss, if_pos open_]
      rfl
  | case4 byte rest m miss closed inductionHypothesis =>
      rw [feedLoop_keep (not_not.mp miss) (by simpa using closed), weight, if_neg miss,
        if_neg closed, List.length_cons, inductionHypothesis, Nat.add_comm]

namespace JobLog

/-- What an event makes the redactor release is no longer than the ring. -/
def Fits (log : JobLog) : LogEvent → Prop
  | .secret _ => True
  | .output chunk => weight log.set (log.redactor.held ++ chunk.bytes) ≤ ringCapacity
  | .ended => log.redactor.held.length ≤ ringCapacity

theorem release_drained {log : JobLog} (drained : log.Drained) (redactor : Redactor)
    (safe : Bytes) : (log.release redactor safe).Drained := by
  unfold release
  split_ifs
  · obtain ⟨empty, cap⟩ := emit_drains log.ring log.sink safe
    exact ⟨empty, cap.trans drained.2⟩
  · exact drained

theorem step_drained {log : JobLog} (drained : log.Drained) (event : LogEvent) :
    (log.step event).Drained := by
  cases event with
  | secret value => exact drained
  | output chunk => exact release_drained drained _ _
  | ended => exact release_drained drained _ _

theorem release_intact_iff {log : JobLog} (drained : log.Drained) (intact : log.Intact)
    (redactor : Redactor) (safe : Bytes) :
    (log.release redactor safe).Intact ↔ safe.length ≤ ringCapacity := by
  obtain ⟨empty, cap⟩ := drained
  obtain ⟨whole, fresh⟩ := intact
  unfold release
  split_ifs with some_
  · constructor
    · rintro ⟨all, none_⟩
      by_contra fits
      have long : log.ring.cap < safe.length := by omega
      refine emit_overflows log.sink empty fresh long ⟨?_, none_⟩
      rw [whole] at all ⊢
      exact all
    · intro fits
      have room : safe.length ≤ log.ring.cap := by omega
      obtain ⟨all, same⟩ := emit_fits log.sink empty room
      exact ⟨by rw [all, whole], by rw [same, fresh]⟩
  · constructor
    · intro _
      omega
    · intro _
      exact ⟨whole, fresh⟩

/-- The step lemma: an event keeps the log intact exactly when what it releases
fits into the ring. -/
theorem step_intact_iff {log : JobLog} (drained : log.Drained) (intact : log.Intact)
    (event : LogEvent) : (log.step event).Intact ↔ log.Fits event := by
  cases event with
  | secret value => exact ⟨fun _ => trivial, fun _ => intact⟩
  | output chunk =>
      rw [step, release_intact_iff drained intact, redactFeed_eq, length_feedLoop, Fits]
  | ended =>
      rw [step, release_intact_iff drained intact]
      rfl

theorem run_cons (log : JobLog) (event : LogEvent) (events : List LogEvent) :
    log.run (event :: events) = (log.step event).run events := rfl

theorem run_concat (log : JobLog) (events : List LogEvent) (event : LogEvent) :
    log.run (events ++ [event]) = (log.run events).step event := by
  simp [run]

theorem run_drained (memory : Nat → UInt8) (events : List LogEvent) :
    ((start memory).run events).Drained := by
  induction events using List.reverseRecOn with
  | nil => exact ⟨rfl, rfl⟩
  | append_singleton events event inductionHypothesis =>
      rw [run_concat]
      exact step_drained inductionHypothesis event

/-- The log is intact after every event of a run if and only if every event fits:
what it makes the redactor release, counted from the set, the held bytes and the
chunk before the event, is no longer than the ring. -/
theorem job_log_intact_iff (memory : Nat → UInt8) (events : List LogEvent) :
    (∀ k, ((start memory).run (events.take k)).Intact) ↔
      ∀ k event, events[k]? = some event → ((start memory).run (events.take k)).Fits event := by
  have next {k : Nat} {event : LogEvent} (at_k : events[k]? = some event) :
      (start memory).run (events.take (k + 1)) = ((start memory).run (events.take k)).step event := by
    rw [List.take_add_one, at_k, Option.toList_some, run_concat]
  constructor
  · intro intact k event at_k
    rw [← step_intact_iff (run_drained memory _) (intact k), ← next at_k]
    exact intact (k + 1)
  · intro fits k
    induction k with
    | zero => exact ⟨rfl, rfl⟩
    | succ k inductionHypothesis =>
        cases at_k : events[k]? with
        | none =>
            have ended : events.take (k + 1) = events.take k := by
              rw [List.take_add_one, at_k, Option.toList_none, List.append_nil]
            rw [ended]
            exact inductionHypothesis
        | some event =>
            rw [next at_k, step_intact_iff (run_drained memory _) inductionHypothesis]
            exact fits k event at_k

/-! ## Short secrets -/

theorem weight_le (set : List Bytes) (p : Bytes) : weight set p ≤ 3 * p.length := by
  induction p using weight.induct set with
  | case1 => rw [weight]; exact Nat.zero_le _
  | case2 byte rest hit inductionHypothesis =>
      rw [weight, if_pos hit]
      rw [List.length_drop] at inductionHypothesis
      rw [List.length_cons] at inductionHypothesis ⊢
      omega
  | case3 byte rest miss open_ => rw [weight, if_neg miss, if_pos open_]; exact Nat.zero_le _
  | case4 byte rest miss closed inductionHypothesis =>
      rw [weight, if_neg miss, if_neg closed, List.length_cons]
      omega

/-- No secret is longer than `limit`, and less than that is held. -/
def Short (limit : Nat) (log : JobLog) : Prop :=
  (∀ secret ∈ log.set, secret.length ≤ limit) ∧ log.redactor.held.length ≤ limit

@[simp] theorem set_release (log : JobLog) (redactor : Redactor) (safe : Bytes) :
    (log.release redactor safe).set = log.set := by
  unfold release
  split_ifs <;> rfl

@[simp] theorem redactor_release (log : JobLog) (redactor : Redactor) (safe : Bytes) :
    (log.release redactor safe).redactor = redactor := by
  unfold release
  split_ifs <;> rfl

theorem step_short {limit : Nat} {log : JobLog} (short : log.Short limit) {event : LogEvent}
    (bounded : ∀ value, event = .secret value → value.length ≤ limit) :
    (log.step event).Short limit := by
  obtain ⟨secrets, held⟩ := short
  cases event with
  | secret value =>
      refine ⟨fun secret member => ?_, held⟩
      rcases (mem_redactAdd log.set value secret).mp member with old | ⟨rfl, -⟩
      · exact secrets secret old
      · exact bounded secret rfl
  | output chunk =>
      simp only [Short, step, set_release, redactor_release, redactFeed_eq]
      refine ⟨secrets, ?_⟩
      rcases feedLoop_held log.set (log.redactor.held ++ chunk.bytes) with
        empty | ⟨secret, member, -, proper⟩
      · rw [empty]
        exact Nat.zero_le limit
      · have := secrets secret member
        omega
  | ended =>
      simp only [Short, step, set_release, redactor_release, redactFlush]
      exact ⟨secrets, Nat.zero_le limit⟩

theorem fits_of_short {limit : Nat} (small : 3 * (limit + chunkSize) ≤ ringCapacity)
    {log : JobLog} (short : log.Short limit) (event : LogEvent) : log.Fits event := by
  cases event with
  | secret value => trivial
  | output chunk =>
      have bound := weight_le log.set (log.redactor.held ++ chunk.bytes)
      rw [List.length_append] at bound
      have held := short.2
      have read := chunk.short
      simp only [Fits]
      omega
  | ended =>
      have held := short.2
      simp only [Fits]
      omega

/-- As long as no secret is longer than 283989 bytes the log loses nothing: a
release is at most three times what was held and read. -/
theorem run_intact_of_short {limit : Nat} (small : 3 * (limit + chunkSize) ≤ ringCapacity)
    (memory : Nat → UInt8) (events : List LogEvent)
    (bounded : ∀ value, .secret value ∈ events → value.length ≤ limit) :
    ((start memory).run events).Intact := by
  have both : ((start memory).run events).Short limit ∧ ((start memory).run events).Intact := by
    induction events using List.reverseRecOn with
    | nil => exact ⟨⟨by simp [run, start], Nat.zero_le limit⟩, rfl, rfl⟩
    | append_singleton events event inductionHypothesis =>
        obtain ⟨short, intact⟩ := inductionHypothesis fun value member =>
          bounded value (List.mem_append_left [event] member)
        rw [run_concat]
        refine ⟨step_short short fun value same => ?_, ?_⟩
        · exact bounded value (by simp [same])
        · rw [step_intact_iff (run_drained memory events) intact]
          exact fits_of_short small short event
  exact both.2

/-! ## A secret of a million bytes -/

/-- A chunk of one byte, repeated. -/
def repeated (byte : UInt8) (n : Nat) (filled : 0 < n) (short : n ≤ chunkSize) : Chunk where
  bytes := List.replicate n byte
  filled := by simp; omega
  short := by simpa using short

/-- The secret is `x`, a million times. -/
def longSecret : Bytes := List.replicate 1000000 120

def fullChunk : Chunk := repeated 120 65536 (by decide) (by decide)

def lastChunk : Chunk := repeated 120 10000 (by decide) (by decide)

def otherChunk : Chunk := repeated 121 65536 (by decide) (by decide)

/-- A step that knows the secret and prints its first 993040 bytes. -/
def almostAll : List LogEvent :=
  .secret longSecret :: (List.replicate 15 (.output fullChunk) ++ [.output lastChunk])

theorem longSecret_ne_nil : longSecret ≠ [] := by
  rw [longSecret, Ne, List.replicate_eq_nil_iff]
  decide

theorem redactAdd_nil {value : Bytes} (filled : value ≠ []) : redactAdd [] value = [value] := by
  rw [redactAdd, if_neg fun empty => filled (List.length_eq_zero_iff.mp empty)]
  rfl

theorem step_holds {log : JobLog} {n h total : Nat} {chunk : Chunk}
    (known : log.set = [longSecret]) (held : log.redactor.held = List.replicate h 120)
    (printed : chunk.bytes = List.replicate n 120) (sum : h + n = total)
    (short : total < 1000000) :
    (log.step (.output chunk)).set = [longSecret] ∧
      (log.step (.output chunk)).redactor.held = List.replicate total 120 := by
  subst sum
  have fed : log.redactor.held ++ chunk.bytes = List.replicate (h + n) 120 := by
    rw [held, printed, List.replicate_append_replicate]
  have starts : List.replicate (h + n) 120 <+: longSecret := by
    refine ⟨List.replicate (1000000 - (h + n)) 120, ?_⟩
    rw [List.replicate_append_replicate, longSecret, Nat.add_sub_cancel' short.le]
  have length : longSecret.length = 1000000 := List.length_replicate
  have miss : matchAt [longSecret] (List.replicate (h + n) 120) = 0 := by
    by_contra hit
    obtain ⟨s, member, prefixed, -⟩ := exists_of_matchAt_ne_zero hit
    rw [List.mem_singleton.mp member] at prefixed
    have := prefixed.length_le
    rw [length, List.length_replicate] at this
    omega
  have open_ : couldStart [longSecret] (List.replicate (h + n) 120) = true := by
    rw [couldStart_iff]
    refine ⟨longSecret, List.mem_singleton.mpr rfl, starts, ?_⟩
    rw [length, List.length_replicate]
    exact short
  simp only [step, set_release, redactor_release, redactFeed_eq, known, fed,
    feedLoop_hold miss open_, and_self]

theorem run_holds {log : JobLog} {h : Nat} (known : log.set = [longSecret])
    (held : log.redactor.held = List.replicate h 120) (count : Nat) {total : Nat}
    (sum : h + count * 65536 = total) (short : total < 1000000) :
    (log.run (List.replicate count (.output fullChunk))).set = [longSecret] ∧
      (log.run (List.replicate count (.output fullChunk))).redactor.held
        = List.replicate total 120 := by
  induction count generalizing total with
  | zero =>
      rw [Nat.zero_mul, Nat.add_zero] at sum
      exact ⟨known, sum ▸ held⟩
  | succ count inductionHypothesis =>
      have split : h + count * 65536 + 65536 = total := by
        rw [← sum, Nat.succ_mul, Nat.add_assoc]
      obtain ⟨known, held⟩ := inductionHypothesis rfl (Nat.lt_of_add_right_lt (split ▸ short))
      rw [List.replicate_succ', run_concat]
      exact step_holds known held rfl split short

theorem holds_almostAll (memory : Nat → UInt8) :
    ((start memory).run almostAll).set = [longSecret] ∧
      ((start memory).run almostAll).redactor.held = List.replicate 993040 120 := by
  have known : ((start memory).step (.secret longSecret)).set = [longSecret] := by
    simp only [step, start]
    exact redactAdd_nil longSecret_ne_nil
  have held : ((start memory).step (.secret longSecret)).redactor.held = List.replicate 0 120 := rfl
  have first : 0 + 15 * 65536 = 983040 := by decide
  obtain ⟨known, held⟩ := run_holds known held 15 first (by decide)
  have both : 983040 + 10000 = 993040 := by decide
  rw [almostAll, ← List.cons_append, run_concat, run_cons]
  exact step_holds known held rfl both (by decide)

/-- Bytes whose last one is in no secret, and that hold no secret, are released whole. -/
theorem weight_of_foreign {set : List Bytes} {p : Bytes} {last : UInt8}
    (ends_ : p.getLast? = some last) (foreign : ∀ s ∈ set, last ∉ s)
    (absent : ∀ s ∈ set, ¬ s <:+: p) : weight set p = p.length := by
  induction p with
  | nil => rw [weight, List.length_nil]
  | cons byte rest inductionHypothesis =>
      have miss : matchAt set (byte :: rest) = 0 := by
        by_contra hit
        obtain ⟨s, member, starts, -⟩ := exists_of_matchAt_ne_zero hit
        exact absent s member starts.isInfix
      have closed : ¬ couldStart set (byte :: rest) = true := by
        rw [couldStart_iff]
        rintro ⟨s, member, starts, -⟩
        exact foreign s member (starts.subset (List.mem_of_getLast? ends_))
      rw [weight, if_neg (not_not.mpr miss), if_neg closed, List.length_cons]
      cases rest with
      | nil => rw [weight, List.length_nil]
      | cons next rest =>
          rw [inductionHypothesis (by simpa using ends_) fun s member occurs =>
            absent s member (occurs.trans (List.suffix_cons byte _).isInfix)]
          omega

/-- Another 65536 bytes that do not go on with the secret: 1058576 bytes are
released at once, and the ring takes 1048576. -/
theorem job_log_drops_bytes :
    ¬ ∀ (memory : Nat → UInt8) (events : List LogEvent), ((start memory).run events).Intact := by
  intro claim
  have before := claim (fun _ => 0) almostAll
  have after := claim (fun _ => 0) (almostAll ++ [.output otherChunk])
  obtain ⟨known, held⟩ := holds_almostAll fun _ => 0
  rw [run_concat, step_intact_iff (run_drained _ _) before, Fits, known, held] at after
  have all : weight [longSecret] (List.replicate 993040 120 ++ List.replicate 65536 121)
      = 993040 + 65536 := by
    have ends_ : (List.replicate 993040 (120 : UInt8) ++ List.replicate 65536 121).getLast?
        = some 121 := by
      rw [List.getLast?_append, List.getLast?_replicate]
      rfl
    rw [weight_of_foreign ends_]
    · rw [List.length_append, List.length_replicate, List.length_replicate]
    · intro s member other
      rw [List.mem_singleton.mp member] at other
      exact absurd (List.eq_of_mem_replicate other) (by decide)
    · intro s member occurs
      rw [List.mem_singleton.mp member] at occurs
      have counts := occurs.sublist.count_le 120
      rw [longSecret, List.count_replicate_self, List.count_append, List.count_replicate_self,
        List.count_replicate] at counts
      simp at counts
  have printed : otherChunk.bytes = List.replicate 65536 121 := rfl
  rw [printed, all] at after
  exact absurd after (by decide)

end JobLog

end Qwe.Kernel
