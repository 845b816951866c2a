import Mathlib.Data.List.Infix
import Qwe.Lib.Masking

/-!
# The redactor

The run-wide secret set and the redactor of `src/kernel/redact.c`.  A byte of
step output passes `redactFeed` on its way to the ring: a secret becomes `***`,
and a tail that may still become one is held until more bytes arrive or the
stream ends.

The set is the C array in insertion order.  Allocation is assumed to succeed,
so every call returns 0 and the buffer is just the bytes appended to it.
-/

set_option autoImplicit false

namespace Qwe.Redact

open Qwe.Masking

abbrev Bytes := List UInt8

/-- `MASK`. -/
def mask : Bytes := [42, 42, 42]

/-- `qwe_redact_add`: empty values and repeats are ignored. -/
def redactAdd (set : List Bytes) (value : Bytes) : List Bytes :=
  if value.length = 0 then set
  else if set.any (fun s => s.length == value.length && s == value) then set
  else set ++ [value]

/-- The set after adding the values in turn to an empty one. -/
def redactSet (values : List Bytes) : List Bytes :=
  values.foldl redactAdd []

/-- `match_at`: the length of the longest secret that starts at `p`, or 0. -/
def matchAt (set : List Bytes) (p : Bytes) : Nat :=
  set.foldl (fun best s =>
    if s.length ≤ p.length ∧ best < s.length ∧ p.take s.length = s then s.length
    else best) 0

/-- `could_start`: whether `p` is a proper prefix of some secret. -/
def couldStart (set : List Bytes) (p : Bytes) : Bool :=
  set.any fun s => p.length < s.length && p == s.take p.length

/-- One redactor per stream: the bytes held back. -/
structure Redactor where
  held : Bytes
deriving DecidableEq, Repr

/-- The loop of `qwe_redact_feed` over the bytes not yet consumed.  Returns what
it appends to the buffer and what it holds back. -/
def feedLoop (set : List Bytes) (p : Bytes) : Bytes × Bytes :=
  match p with
  | [] => ([], [])
  | byte :: rest =>
      let m := matchAt set (byte :: rest)
      if m ≠ 0 then
        let next := feedLoop set ((byte :: rest).drop m)
        (mask ++ next.1, next.2)
      else if couldStart set (byte :: rest) then
        ([], byte :: rest)
      else
        let next := feedLoop set rest
        (byte :: next.1, next.2)
termination_by p.length
decreasing_by
  all_goals simp
  omega

/-- `qwe_redact_feed`: the redactor afterwards and the bytes appended to `out`. -/
def redactFeed (set : List Bytes) (r : Redactor) (input : Bytes) : Redactor × Bytes :=
  if set.length = 0 ∧ r.held.length = 0 then (r, input)
  else
    let result := feedLoop set (r.held ++ input)
    ({ held := result.2 }, result.1)

/-- `qwe_redact_flush`. -/
def redactFlush (r : Redactor) : Redactor × Bytes :=
  ({ held := [] }, r.held)

/-- Feeding the chunks one after another and then flushing: everything emitted. -/
def redactFrom (set : List Bytes) (r : Redactor) : List Bytes → Bytes
  | [] => (redactFlush r).2
  | chunk :: chunks =>
      (redactFeed set r chunk).2 ++ redactFrom set (redactFeed set r chunk).1 chunks

def redactStream (set : List Bytes) (chunks : List Bytes) : Bytes :=
  redactFrom set { held := [] } chunks

/-! ## The set -/

theorem mem_redactAdd (set : List Bytes) (value secret : Bytes) :
    secret ∈ redactAdd set value ↔ secret ∈ set ∨ secret = value ∧ value ≠ [] := by
  unfold redactAdd
  split_ifs with empty known
  · rw [List.length_eq_zero_iff] at empty
    simp [empty]
  · have old : value ∈ set := by
      obtain ⟨s, member, same⟩ := List.any_eq_true.mp known
      simp only [Bool.and_eq_true, beq_iff_eq] at same
      exact same.2 ▸ member
    constructor
    · exact Or.inl
    · rintro (member | ⟨rfl, _⟩)
      · exact member
      · exact old
  · rw [List.length_eq_zero_iff] at empty
    simp [empty]

theorem mem_foldl_redactAdd (values set : List Bytes) (secret : Bytes) :
    secret ∈ values.foldl redactAdd set ↔
      secret ∈ set ∨ secret ∈ values ∧ secret ≠ [] := by
  induction values generalizing set with
  | nil => simp
  | cons value values ih =>
      rw [List.foldl_cons, ih, mem_redactAdd]
      constructor
      · rintro ((old | ⟨rfl, nonempty⟩) | ⟨later, nonempty⟩)
        · exact Or.inl old
        · exact Or.inr ⟨by simp, nonempty⟩
        · exact Or.inr ⟨List.mem_cons_of_mem value later, nonempty⟩
      · rintro (old | ⟨member, nonempty⟩)
        · exact Or.inl (Or.inl old)
        · rcases List.mem_cons.mp member with rfl | later
          · exact Or.inl (Or.inr ⟨rfl, nonempty⟩)
          · exact Or.inr ⟨later, nonempty⟩

theorem mem_redactSet (values : List Bytes) (secret : Bytes) :
    secret ∈ redactSet values ↔ secret ∈ values ∧ secret ≠ [] := by
  simp [redactSet, mem_foldl_redactAdd]

/-! ## Matching -/

/-- The scan of `match_at` ends with the best length it started from or with the
length of a secret that starts `p`, and no secret that starts `p` is longer. -/
theorem matchAt_scan (p : Bytes) (set : List Bytes) (best : Nat) :
    let m := set.foldl (fun best s =>
      if s.length ≤ p.length ∧ best < s.length ∧ p.take s.length = s then s.length
      else best) best
    best ≤ m ∧ (∀ s ∈ set, s <+: p → s.length ≤ m) ∧
      (m = best ∨ ∃ s ∈ set, s <+: p ∧ s.length = m) := by
  induction set generalizing best with
  | nil => simp
  | cons s set ih =>
      simp only [List.foldl_cons]
      split_ifs with better
      · obtain ⟨fits, longer, starts⟩ := better
        have isPrefix : s <+: p := List.prefix_iff_eq_take.mpr starts.symm
        obtain ⟨above, covers, found⟩ := ih s.length
        refine ⟨longer.le.trans above, ?_, ?_⟩
        · intro t member prefixed
          rcases List.mem_cons.mp member with rfl | member
          · exact above
          · exact covers t member prefixed
        · rcases found with same | ⟨t, member, prefixed, length⟩
          · exact Or.inr ⟨s, by simp, isPrefix, same.symm⟩
          · exact Or.inr ⟨t, List.mem_cons_of_mem s member, prefixed, length⟩
      · obtain ⟨above, covers, found⟩ := ih best
        refine ⟨above, ?_, ?_⟩
        · intro t member prefixed
          rcases List.mem_cons.mp member with rfl | member
          · have short : t.length ≤ best := by
              by_contra longer
              exact better ⟨prefixed.length_le, by omega,
                (List.prefix_iff_eq_take.mp prefixed).symm⟩
            exact short.trans above
          · exact covers t member prefixed
        · rcases found with same | ⟨t, member, prefixed, length⟩
          · exact Or.inl same
          · exact Or.inr ⟨t, List.mem_cons_of_mem s member, prefixed, length⟩

theorem length_le_matchAt {set : List Bytes} {p s : Bytes} (member : s ∈ set)
    (starts : s <+: p) : s.length ≤ matchAt set p :=
  (matchAt_scan p set 0).2.1 s member starts

theorem exists_of_matchAt_ne_zero {set : List Bytes} {p : Bytes}
    (hit : matchAt set p ≠ 0) : ∃ s ∈ set, s <+: p ∧ s.length = matchAt set p := by
  rcases (matchAt_scan p set 0).2.2 with zero | found
  · exact absurd zero hit
  · exact found

theorem couldStart_iff (set : List Bytes) (p : Bytes) :
    couldStart set p = true ↔ ∃ s ∈ set, p <+: s ∧ p.length < s.length := by
  simp only [couldStart, List.any_eq_true, Bool.and_eq_true, decide_eq_true_eq, beq_iff_eq]
  constructor
  · rintro ⟨s, member, shorter, same⟩
    exact ⟨s, member, List.prefix_iff_eq_take.mpr same, shorter⟩
  · rintro ⟨s, member, starts, shorter⟩
    exact ⟨s, member, shorter, List.prefix_iff_eq_take.mp starts⟩

section Scan
variable {set : List Bytes}

theorem not_prefix_of_matchAt_eq_zero (nonempty : ∀ s ∈ set, s ≠ []) {p : Bytes}
    (miss : matchAt set p = 0) : ∀ s ∈ set, ¬ s <+: p := by
  intro s member starts
  have short := length_le_matchAt member starts
  rw [miss, Nat.le_zero, List.length_eq_zero_iff] at short
  exact nonempty s member short

/-- A miss that cannot become a hit: whatever follows, no secret starts here and
the bytes start no secret. -/
theorem apart_of_miss (nonempty : ∀ s ∈ set, s ≠ []) {p : Bytes}
    (miss : matchAt set p = 0) (closed : couldStart set p = false) :
    ∀ s ∈ set, Apart s p := by
  intro s member
  have unstarted := not_prefix_of_matchAt_eq_zero nonempty miss s member
  refine ⟨unstarted, ?_⟩
  intro starts
  have open_ : couldStart set p = true := by
    rw [couldStart_iff]
    refine ⟨s, member, starts, ?_⟩
    by_contra long
    have same : p = s := starts.eq_of_length_le (by omega)
    exact unstarted (same ▸ List.prefix_refl p)
  rw [closed] at open_
  contradiction

theorem openTail_of_held (nonempty : ∀ s ∈ set, s ≠ []) {p : Bytes}
    (miss : matchAt set p = 0) (open_ : couldStart set p = true) :
    OpenTail set p := by
  obtain ⟨s, member, starts, _⟩ := (couldStart_iff set p).mp open_
  exact Or.inr ⟨⟨s, member, starts⟩, not_prefix_of_matchAt_eq_zero nonempty miss⟩

theorem feedLoop_hit {p : Bytes} (hit : matchAt set p ≠ 0) :
    feedLoop set p =
      (mask ++ (feedLoop set (p.drop (matchAt set p))).1,
        (feedLoop set (p.drop (matchAt set p))).2) := by
  cases p with
  | nil =>
      obtain ⟨s, _, starts, length⟩ := exists_of_matchAt_ne_zero hit
      rw [List.prefix_nil.mp starts] at length
      exact absurd length.symm hit
  | cons byte rest =>
      rw [feedLoop]
      exact if_pos hit

theorem feedLoop_hold {p : Bytes} (miss : matchAt set p = 0)
    (open_ : couldStart set p = true) : feedLoop set p = ([], p) := by
  cases p with
  | nil => rw [feedLoop]
  | cons byte rest =>
      rw [feedLoop]
      exact (if_neg (not_not.mpr miss)).trans (if_pos open_)

theorem feedLoop_keep {byte : UInt8} {rest : Bytes}
    (miss : matchAt set (byte :: rest) = 0)
    (closed : couldStart set (byte :: rest) = false) :
    feedLoop set (byte :: rest) = (byte :: (feedLoop set rest).1, (feedLoop set rest).2) := by
  rw [feedLoop]
  exact (if_neg (not_not.mpr miss)).trans (if_neg (by simp [closed]))

/-- A match splits the bytes into the matched secret and what follows it. -/
theorem split_of_matchAt_ne_zero {p : Bytes} (hit : matchAt set p ≠ 0) :
    ∃ s ∈ set, p = s ++ p.drop (matchAt set p) := by
  obtain ⟨s, member, ⟨tail, whole⟩, length⟩ := exists_of_matchAt_ne_zero hit
  refine ⟨s, member, ?_⟩
  rw [← length, ← whole, List.drop_left]

/-- One run of the loop: what it holds is an open tail, and its output extends
any masking of the held bytes and the bytes still to come. -/
theorem feedLoop_masks (nonempty : ∀ s ∈ set, s ≠ []) (p : Bytes) :
    OpenTail set (feedLoop set p).2 ∧
      ∀ future out, Masks mask set ((feedLoop set p).2 ++ future) out →
        Masks mask set (p ++ future) ((feedLoop set p).1 ++ out) := by
  induction p using feedLoop.induct set with
  | case1 =>
      rw [feedLoop]
      exact ⟨Or.inl rfl, fun _ _ masked => masked⟩
  | case2 byte rest m hit ih =>
      obtain ⟨held, extends_⟩ := ih
      rw [feedLoop_hit hit]
      refine ⟨held, ?_⟩
      intro future out masked
      obtain ⟨s, member, split⟩ := split_of_matchAt_ne_zero hit
      have later := Masks.hit member (extends_ future out masked)
      rw [← List.append_assoc, ← split, ← List.append_assoc] at later
      exact later
  | case3 byte rest m miss open_ =>
      rw [feedLoop_hold (not_not.mp miss) open_]
      refine ⟨openTail_of_held nonempty (not_not.mp miss) open_, ?_⟩
      intro future out masked
      exact masked
  | case4 byte rest m miss closed ih =>
      obtain ⟨held, extends_⟩ := ih
      have closed' : couldStart set (byte :: rest) = false := by simpa using closed
      rw [feedLoop_keep (not_not.mp miss) closed']
      refine ⟨held, ?_⟩
      intro future out masked
      have apart := apart_of_miss nonempty (not_not.mp miss) closed'
      have later := extends_ future out masked
      exact Masks.keep (fun s member => apart_append (apart s member) future) later

theorem feedLoop_nil_set (p : Bytes) : feedLoop [] p = (p, []) := by
  induction p with
  | nil => rw [feedLoop]
  | cons byte rest ih => rw [feedLoop]; simp [matchAt, couldStart, ih]

/-- The early return of `qwe_redact_feed` is the loop on an empty set. -/
theorem redactFeed_eq (r : Redactor) (input : Bytes) :
    redactFeed set r input =
      ({ held := (feedLoop set (r.held ++ input)).2 }, (feedLoop set (r.held ++ input)).1) := by
  unfold redactFeed
  split_ifs with early
  · have noSet : set = [] := List.length_eq_zero_iff.mp early.1
    have noHeld : r.held = [] := List.length_eq_zero_iff.mp early.2
    subst noSet
    rw [noHeld, List.nil_append, feedLoop_nil_set, ← noHeld]
  · rfl

theorem redactFrom_masks (nonempty : ∀ s ∈ set, s ≠ []) (chunks : List Bytes)
    (r : Redactor) (held : OpenTail set r.held) :
    Masks mask set (r.held ++ chunks.flatten) (redactFrom set r chunks) := by
  induction chunks generalizing r with
  | nil =>
      rw [List.flatten_nil, List.append_nil, redactFrom]
      exact Masks.tail held
  | cons chunk chunks ih =>
      obtain ⟨held', extends_⟩ := feedLoop_masks nonempty (r.held ++ chunk)
      rw [redactFrom, redactFeed_eq, List.flatten_cons, ← List.append_assoc]
      have later := ih { held := (feedLoop set (r.held ++ chunk)).2 } held'
      exact extends_ chunks.flatten _ later

/-- Whatever the chunks, the total output masks the total input. -/
theorem redactStream_masks (nonempty : ∀ s ∈ set, s ≠ []) (chunks : List Bytes) :
    Masks mask set chunks.flatten (redactStream set chunks) :=
  redactFrom_masks nonempty chunks { held := [] } (Or.inl rfl)

end Scan

end Qwe.Redact
