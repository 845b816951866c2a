import Mathlib.Data.List.Infix
import Qwe.Redact.Stream

/-!
# What the redactor lets through

A secret can leave the redactor in one place only: the tail `qwe_redact_flush`
emits.  That tail starts some secret and no secret starts it, but a shorter
secret may lie inside it.  `Exposed` names the sets for which this can happen.

Where the chunks are cut matters exactly when one secret starts another: the
shorter one is masked as soon as it is complete, and the rest of the longer one
then passes.
-/

set_option autoImplicit false

namespace Qwe.Redact

open Qwe.Masking

/-- Some proper prefix of a value contains a value but does not start with one. -/
def Exposed (values : List Bytes) : Prop :=
  ∃ t ∈ values, ∃ n < t.length,
    (∃ s ∈ values, s <:+: t.take n) ∧ ∀ s ∈ values, ¬ s <+: t.take n

/-- No value starts another value. -/
def PrefixFree (values : List Bytes) : Prop :=
  ∀ p ∈ values, ∀ q ∈ values, p ≠ [] → p <+: q → p = q

instance (values : List Bytes) : Decidable (Exposed values) := by
  unfold Exposed
  infer_instance

instance (values : List Bytes) : Decidable (PrefixFree values) := by
  unfold PrefixFree
  infer_instance

theorem mask_ne_nil : mask ≠ [] := by decide

theorem notMem_mask {v : Bytes} (starless : 42 ∉ v) : ∀ byte ∈ v, byte ∉ mask := by
  intro byte member inMask
  have star : byte = 42 := by simpa [mask] using inMask
  exact starless (star ▸ member)

theorem redactSet_nonempty (values : List Bytes) : ∀ s ∈ redactSet values, s ≠ [] :=
  fun s member => ((mem_redactSet values s).mp member).2

/-! ## Streams of one chunk -/

theorem redactStream_single (set : List Bytes) (chunk : Bytes) :
    redactStream set [chunk] = (feedLoop set chunk).1 ++ (feedLoop set chunk).2 := by
  simp [redactStream, redactFrom, redactFeed_eq, redactFlush]

theorem redactStream_single_held {set : List Bytes} {chunk : Bytes}
    (miss : matchAt set chunk = 0) (open_ : couldStart set chunk = true) :
    redactStream set [chunk] = chunk := by
  rw [redactStream_single, feedLoop_hold miss open_, List.nil_append]

theorem matchAt_self {set : List Bytes} {s : Bytes} (member : s ∈ set) :
    matchAt set s = s.length := by
  have covers := length_le_matchAt member (List.prefix_refl s)
  by_cases zero : matchAt set s = 0
  · omega
  · obtain ⟨t, _, starts, length⟩ := exists_of_matchAt_ne_zero zero
    have := starts.length_le
    omega

theorem feedLoop_secret {set : List Bytes} {s : Bytes} (member : s ∈ set)
    (nonempty : s ≠ []) : feedLoop set s = (mask, []) := by
  have hit : matchAt set s ≠ 0 := by
    rw [matchAt_self member]
    exact fun zero => nonempty (List.length_eq_zero_iff.mp zero)
  rw [feedLoop_hit hit, matchAt_self member, List.drop_length, feedLoop, List.append_nil]

/-! ## No secret leaves the redactor -/

/-- A value in the output lies in the tail that the flush emits. -/
theorem exposed_of_leak {values chunks : List Bytes} {v : Bytes}
    (plain : ∀ v ∈ values, v ≠ [] ∧ 42 ∉ v) (member : v ∈ values)
    (leak : v <:+: redactStream (redactSet values) chunks) : Exposed values := by
  have masked := redactStream_masks (redactSet_nonempty values) chunks
  obtain ⟨nonempty, starless⟩ := plain v member
  have known : v ∈ redactSet values := (mem_redactSet values v).mpr ⟨member, nonempty⟩
  obtain ⟨tail, _, kept, inside⟩ :=
    tail_of_infix masked mask_ne_nil known nonempty (notMem_mask starless) leak
  rcases kept with empty | ⟨⟨t, tKnown, starts⟩, unstarted⟩
  · rw [empty, List.infix_nil] at inside
    exact absurd inside nonempty
  · have tMember := ((mem_redactSet values t).mp tKnown).1
    have proper : tail.length < t.length := by
      by_contra long
      have same : tail = t := starts.eq_of_length_le (by omega)
      exact unstarted t tKnown (same ▸ List.prefix_refl tail)
    have cut : t.take tail.length = tail := (List.prefix_iff_eq_take.mp starts).symm
    refine ⟨t, tMember, tail.length, proper, ⟨v, member, cut.symm ▸ inside⟩, ?_⟩
    intro s sMember
    rw [cut]
    exact unstarted s ((mem_redactSet values s).mpr ⟨sMember, (plain s sMember).1⟩)

/-- The prefix that makes a set exposed is held whole, and the flush emits it. -/
theorem leak_of_exposed {values : List Bytes} (plain : ∀ v ∈ values, v ≠ [] ∧ 42 ∉ v)
    (exposed : Exposed values) :
    ∃ chunk, ∃ v ∈ values, v <:+: redactStream (redactSet values) [chunk] := by
  obtain ⟨t, tMember, n, short, ⟨v, member, inside⟩, unstarted⟩ := exposed
  have miss : matchAt (redactSet values) (t.take n) = 0 := by
    by_contra hit
    obtain ⟨s, known, starts, _⟩ := exists_of_matchAt_ne_zero hit
    exact unstarted s ((mem_redactSet values s).mp known).1 starts
  have open_ : couldStart (redactSet values) (t.take n) = true := by
    rw [couldStart_iff]
    refine ⟨t, (mem_redactSet values t).mpr ⟨tMember, (plain t tMember).1⟩,
      List.take_prefix n t, ?_⟩
    rw [List.length_take]
    omega
  refine ⟨t.take n, v, member, ?_⟩
  rw [redactStream_single_held miss open_]
  exact inside

/-- For a set of non-empty values without `*`, no stream and no way of cutting it
lets a value through if and only if the set is not exposed. -/
theorem redact_emits_no_secret_iff (values : List Bytes)
    (plain : ∀ v ∈ values, v ≠ [] ∧ 42 ∉ v) :
    (∀ chunks : List Bytes, ∀ v ∈ values,
      ¬ v <:+: redactStream (redactSet values) chunks) ↔ ¬ Exposed values := by
  constructor
  · intro safe exposed
    obtain ⟨chunk, v, member, leak⟩ := leak_of_exposed plain exposed
    exact safe [chunk] v member leak
  · intro covered chunks v member leak
    exact covered (exposed_of_leak plain member leak)

/-- The values `ab`, `bc` overlap and are not exposed: nothing gets through. -/
theorem redact_emits_no_secret_ab_bc :
    ¬ Exposed [[97, 98], [98, 99]] ∧ ∀ chunks : List Bytes, ∀ v ∈ [[97, 98], [98, 99]],
      ¬ v <:+: redactStream (redactSet [[97, 98], [98, 99]]) chunks :=
  ⟨by decide, (redact_emits_no_secret_iff [[97, 98], [98, 99]] (by decide)).mpr (by decide)⟩

/-- With the secrets `abcd` and `bc`, the stream `abc` is held whole and flushed:
`bc` leaves the redactor. -/
theorem redact_emits_bc :
    ¬ ∀ values : List Bytes, (∀ v ∈ values, v ≠ [] ∧ 42 ∉ v) →
      ∀ chunks : List Bytes, ∀ v ∈ values,
        ¬ v <:+: redactStream (redactSet values) chunks := by
  intro claim
  have absent := claim [[97, 98, 99, 100], [98, 99]] (by decide) [[97, 98, 99]] [98, 99]
    (by decide)
  rw [redactStream_single_held (by decide) (by decide)] at absent
  exact absent (by decide)

/-! ## The cuts between the chunks -/

/-- A value and a longer one it starts: one feed masks the longer value whole,
two feeds mask the shorter one and let the rest pass. -/
theorem cut_changes_output {set : List Bytes} (nonempty : ∀ s ∈ set, s ≠ [])
    (p rest : Bytes) (short : p ∈ set) (long : p ++ rest ∈ set) (more : rest ≠ []) :
    redactStream set [p ++ rest] ≠ redactStream set [p, rest] := by
  have whole : redactStream set [p ++ rest] = mask := by
    rw [redactStream_single, feedLoop_secret long (nonempty _ long), List.append_nil]
  have first : redactFeed set { held := [] } p = ({ held := [] }, mask) := by
    rw [redactFeed_eq, List.nil_append, feedLoop_secret short (nonempty _ short)]
  have cut : redactStream set [p, rest] = mask ++ redactStream set [rest] := by
    rw [redactStream, redactFrom, first]
    rfl
  have masked := redactStream_masks nonempty [rest]
  have passed : redactStream set [rest] ≠ [] :=
    out_ne_nil masked mask_ne_nil (by simpa using more)
  rw [whole, cut]
  intro same
  exact passed (List.append_right_eq_self.mp same.symm)

/-- The output is the same for every way of cutting every stream if and only if
no non-empty value starts another value. -/
theorem redact_ignores_cuts_iff (values : List Bytes) :
    (∀ chunks chunks' : List Bytes, chunks.flatten = chunks'.flatten →
      redactStream (redactSet values) chunks = redactStream (redactSet values) chunks') ↔
        PrefixFree values := by
  constructor
  · intro same p pMember q qMember nonempty starts
    by_contra differ
    obtain ⟨rest, rfl⟩ := starts
    have more : rest ≠ [] := fun empty => differ (by simp [empty])
    have short : p ∈ redactSet values := (mem_redactSet values p).mpr ⟨pMember, nonempty⟩
    have long : p ++ rest ∈ redactSet values :=
      (mem_redactSet values (p ++ rest)).mpr ⟨qMember, by simp [nonempty]⟩
    exact cut_changes_output (redactSet_nonempty values) p rest short long more
      (same [p ++ rest] [p, rest] (by simp))
  · intro prefixFree chunks chunks' same
    have first := redactStream_masks (redactSet_nonempty values) chunks
    have second := redactStream_masks (redactSet_nonempty values) chunks'
    rw [← same] at second
    refine masks_functional ?_ (redactSet_nonempty values) first second
    intro p pKnown q qKnown starts
    obtain ⟨pMember, nonempty⟩ := (mem_redactSet values p).mp pKnown
    exact prefixFree p pMember q ((mem_redactSet values q).mp qKnown).1 nonempty starts

/-- With the secrets `abc` and `abcdef`, the stream `abcdef` becomes `***` in one
chunk and `***def` when it is cut after `abc`. -/
theorem redact_cut_abc_def :
    ¬ ∀ values chunks chunks' : List Bytes, chunks.flatten = chunks'.flatten →
      redactStream (redactSet values) chunks = redactStream (redactSet values) chunks' := by
  intro claim
  have same := claim [[97, 98, 99], [97, 98, 99, 100, 101, 102]]
    [[97, 98, 99, 100, 101, 102]] [[97, 98, 99], [100, 101, 102]] (by decide)
  exact cut_changes_output (redactSet_nonempty _) [97, 98, 99] [100, 101, 102]
    (by decide) (by decide) (by decide) same

end Qwe.Redact
