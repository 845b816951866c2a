import Qwe.Redact.Laws

/-!
# A stream whose set grows

The calls that one redactor sees: secrets join the set at any time, also while
bytes are held, and chunks are fed; the stream ends with a flush.

Everything fed comes out in pieces, in order: a byte as it is, or a secret of
the set as it was when the feed matched it, as `***`.  The tail that is held is
released as it is.
-/

set_option autoImplicit false

namespace Qwe.Redact

open Qwe.Masking

inductive Call where
  /-- `qwe_redact_add` -/
  | add (value : Bytes)
  /-- `qwe_redact_feed` -/
  | feed (chunk : Bytes)
deriving DecidableEq, Repr

/-- The set, the redactor of the stream and all it has released. -/
structure Stream where
  set : List Bytes
  redactor : Redactor
  output : Bytes
deriving DecidableEq, Repr

def Stream.start : Stream := { set := [], redactor := { held := [] }, output := [] }

def Stream.step (s : Stream) : Call → Stream
  | .add value => { s with set := redactAdd s.set value }
  | .feed chunk =>
      { s with
        redactor := (redactFeed s.set s.redactor chunk).1
        output := s.output ++ (redactFeed s.set s.redactor chunk).2 }

/-- The stream after the calls. -/
def after (calls : List Call) : Stream := calls.foldl Stream.step .start

/-- What a call feeds. -/
def Call.fed : Call → Bytes
  | .add _ => []
  | .feed chunk => chunk

/-- All that the calls feed. -/
def fed (calls : List Call) : Bytes := calls.flatMap Call.fed

/-- All that the calls and the final flush release. -/
def released (calls : List Call) : Bytes :=
  (after calls).output ++ (redactFlush (after calls).redactor).2

/-! ## Pieces -/

/-- A piece of a stream: a byte, or a secret that is masked. -/
inductive Piece where
  | kept (byte : UInt8)
  | masked (secret : Bytes)
deriving DecidableEq, Repr

def Piece.source : Piece → Bytes
  | .kept byte => [byte]
  | .masked secret => secret

def Piece.shown : Piece → Bytes
  | .kept byte => [byte]
  | .masked _ => mask

/-- The pieces as they are fed. -/
def sources (pieces : List Piece) : Bytes := pieces.flatMap Piece.source

/-- The pieces as they are released. -/
def shown (pieces : List Piece) : Bytes := pieces.flatMap Piece.shown

/-- The loop of one feed takes its bytes apart into pieces and a held tail. -/
theorem feedLoop_pieces (set : List Bytes) (p : Bytes) :
    ∃ pieces, p = sources pieces ++ (feedLoop set p).2 ∧ (feedLoop set p).1 = shown pieces ∧
      ∀ secret, .masked secret ∈ pieces → secret ∈ set := by
  induction p using feedLoop.induct set with
  | case1 => exact ⟨[], by simp [sources, feedLoop], by simp [shown, feedLoop], by simp⟩
  | case2 byte rest m hit ih =>
      obtain ⟨pieces, whole, out, known⟩ := ih
      obtain ⟨s, member, split⟩ := split_of_matchAt_ne_zero hit
      rw [feedLoop_hit hit]
      refine ⟨.masked s :: pieces, ?_, ?_, ?_⟩
      · calc byte :: rest
            = s ++ (byte :: rest).drop (matchAt set (byte :: rest)) := split
          _ = s ++ (sources pieces ++ (feedLoop set ((byte :: rest).drop m)).2) := by rw [← whole]
          _ = sources (.masked s :: pieces) ++ (feedLoop set ((byte :: rest).drop m)).2 := by
              simp [sources, Piece.source]
      · change mask ++ (feedLoop set ((byte :: rest).drop m)).1 = shown (.masked s :: pieces)
        rw [out]
        rfl
      · intro secret present
        rcases List.mem_cons.mp present with same | later
        · cases same
          exact member
        · exact known secret later
  | case3 byte rest m miss open_ =>
      rw [feedLoop_hold (not_not.mp miss) open_]
      exact ⟨[], rfl, rfl, by simp⟩
  | case4 byte rest m miss closed ih =>
      obtain ⟨pieces, whole, out, known⟩ := ih
      rw [feedLoop_keep (not_not.mp miss) (by simpa using closed)]
      refine ⟨.kept byte :: pieces, ?_, ?_, ?_⟩
      · calc byte :: rest
            = byte :: (sources pieces ++ (feedLoop set rest).2) := by rw [← whole]
          _ = sources (.kept byte :: pieces) ++ (feedLoop set rest).2 := by
              simp [sources, Piece.source]
      · rw [out]
        rfl
      · intro secret present
        exact known secret (by simpa using present)

/-! ## What a call does -/

theorem after_concat (calls : List Call) (call : Call) :
    after (calls ++ [call]) = (after calls).step call := by
  simp [after]

theorem fed_concat (calls : List Call) (call : Call) :
    fed (calls ++ [call]) = fed calls ++ call.fed := by
  simp [fed]

/-- What one call releases, in pieces. -/
theorem step_pieces (s : Stream) (call : Call) :
    ∃ pieces, s.redactor.held ++ call.fed = sources pieces ++ (s.step call).redactor.held ∧
      (s.step call).output = s.output ++ shown pieces ∧
      ∀ secret, .masked secret ∈ pieces → secret ∈ s.set := by
  cases call with
  | add value =>
      exact ⟨[], by simp [Stream.step, Call.fed, sources], by simp [Stream.step, shown], by simp⟩
  | feed chunk =>
      obtain ⟨pieces, whole, out, known⟩ := feedLoop_pieces s.set (s.redactor.held ++ chunk)
      refine ⟨pieces, ?_, ?_, known⟩
      · simp only [Stream.step, Call.fed, redactFeed_eq]
        exact whole
      · simp only [Stream.step, redactFeed_eq, out]

/-- The pieces of a whole run, call by call: each call releases its own pieces,
and masks only what is in the set when it is made. -/
theorem after_pieces (calls : List Call) :
    ∃ pieces : List (List Piece), pieces.length = calls.length ∧
      (∀ i own, pieces[i]? = some own →
        (after (calls.take (i + 1))).output = (after (calls.take i)).output ++ shown own ∧
        ∀ secret, .masked secret ∈ own → secret ∈ (after (calls.take i)).set) ∧
      fed calls = sources pieces.flatten ++ (after calls).redactor.held ∧
      (after calls).output = shown pieces.flatten := by
  induction calls using List.reverseRecOn with
  | nil => exact ⟨[], rfl, by simp, rfl, rfl⟩
  | append_singleton calls call inductionHypothesis =>
      obtain ⟨pieces, count, each, whole, out⟩ := inductionHypothesis
      obtain ⟨own, step, emitted, known⟩ := step_pieces (after calls) call
      refine ⟨pieces ++ [own], by simp [count], ?_, ?_, ?_⟩
      · intro i some_ at_i
        rcases Nat.lt_or_ge i calls.length with before | last
        · rw [List.getElem?_append_left (by omega)] at at_i
          rw [List.take_append_of_le_length (by omega), List.take_append_of_le_length (by omega)]
          exact each i some_ at_i
        · have bound : i < (pieces ++ [own]).length := (List.getElem?_eq_some_iff.mp at_i).1
          have here : i = calls.length := by
            rw [List.length_append, List.length_singleton] at bound
            omega
          subst here
          rw [← count, List.getElem?_concat_length] at at_i
          cases at_i
          rw [List.take_of_length_le (by simp), List.take_left, after_concat]
          exact ⟨emitted, known⟩
      · calc fed (calls ++ [call])
            = sources pieces.flatten ++ ((after calls).redactor.held ++ call.fed) := by
              rw [fed_concat, whole, List.append_assoc]
          _ = sources pieces.flatten ++ (sources own ++
                ((after calls).step call).redactor.held) := by rw [step]
          _ = sources (pieces ++ [own]).flatten ++ (after (calls ++ [call])).redactor.held := by
              simp [sources, after_concat]
      · rw [after_concat, emitted, out]
        simp [shown]

/-! ## What is held -/

/-- The held bytes start a secret and are not all of it. -/
def Stream.HoldsPrefix (s : Stream) : Prop :=
  (∀ secret ∈ s.set, secret ≠ []) ∧
    (s.set = [] ∧ s.redactor.held = [] ∨
      ∃ secret ∈ s.set, s.redactor.held <+: secret ∧ s.redactor.held.length < secret.length)

theorem feedLoop_held (set : List Bytes) (p : Bytes) :
    (feedLoop set p).2 = [] ∨
      ∃ secret ∈ set, (feedLoop set p).2 <+: secret ∧ (feedLoop set p).2.length < secret.length := by
  induction p using feedLoop.induct set with
  | case1 => exact .inl (by rw [feedLoop])
  | case2 byte rest m hit ih =>
      rw [feedLoop_hit hit]
      exact ih
  | case3 byte rest m miss open_ =>
      rw [feedLoop_hold (not_not.mp miss) open_]
      exact .inr ((couldStart_iff set _).mp open_)
  | case4 byte rest m miss closed ih =>
      rw [feedLoop_keep (not_not.mp miss) (by simpa using closed)]
      exact ih

theorem step_holdsPrefix {s : Stream} (holds : s.HoldsPrefix) (call : Call) :
    (s.step call).HoldsPrefix := by
  obtain ⟨nonempty, held⟩ := holds
  cases call with
  | add value =>
      refine ⟨?_, ?_⟩
      · intro secret member
        rcases (mem_redactAdd s.set value secret).mp member with old | ⟨rfl, filled⟩
        · exact nonempty secret old
        · exact filled
      · rcases held with ⟨noSet, noHeld⟩ | ⟨secret, member, starts, shorter⟩
        · by_cases empty : value = []
          · subst empty
            exact .inl ⟨by simp [Stream.step, redactAdd, noSet], noHeld⟩
          · refine .inr ⟨value, (mem_redactAdd s.set value value).mpr (.inr ⟨rfl, empty⟩), ?_⟩
            simp only [Stream.step, noHeld]
            exact ⟨List.nil_prefix, List.length_pos_iff.mpr empty⟩
        · exact .inr ⟨secret, (mem_redactAdd s.set value secret).mpr (.inl member), starts, shorter⟩
  | feed chunk =>
      refine ⟨nonempty, ?_⟩
      simp only [Stream.step, redactFeed_eq]
      rcases feedLoop_held s.set (s.redactor.held ++ chunk) with empty | found
      · cases inSet : s.set with
        | nil =>
            rw [inSet] at empty
            exact .inl ⟨rfl, empty⟩
        | cons secret rest =>
            rw [inSet] at empty
            refine .inr ⟨secret, by simp, ?_⟩
            rw [empty]
            exact ⟨List.nil_prefix, List.length_pos_iff.mpr (nonempty secret (by simp [inSet]))⟩
      · exact .inr found

theorem after_holdsPrefix (calls : List Call) : (after calls).HoldsPrefix := by
  induction calls using List.reverseRecOn with
  | nil => exact ⟨by simp [after, Stream.start], .inl ⟨rfl, rfl⟩⟩
  | append_singleton calls call inductionHypothesis =>
      rw [after_concat]
      exact step_holdsPrefix inductionHypothesis call

/-! ## A set fixed before the stream -/

theorem foldl_add (values : List Bytes) (s : Stream) :
    (values.map Call.add).foldl Stream.step s = { s with set := values.foldl redactAdd s.set } := by
  induction values generalizing s with
  | nil => rfl
  | cons value values inductionHypothesis =>
      rw [List.map_cons, List.foldl_cons, inductionHypothesis]
      rfl

theorem foldl_feed (chunks : List Bytes) (s : Stream) :
    ((chunks.map Call.feed).foldl Stream.step s).output ++
        (redactFlush ((chunks.map Call.feed).foldl Stream.step s).redactor).2
      = s.output ++ redactFrom s.set s.redactor chunks := by
  induction chunks generalizing s with
  | nil => rfl
  | cons chunk chunks inductionHypothesis =>
      rw [List.map_cons, List.foldl_cons, inductionHypothesis, redactFrom]
      simp [Stream.step]

/-- All adds before all feeds: the stream of a fixed set. -/
theorem released_fixed (values chunks : List Bytes) :
    released (values.map Call.add ++ chunks.map Call.feed)
      = redactStream (redactSet values) chunks := by
  rw [released, after, List.foldl_append, foldl_add, foldl_feed]
  rfl

/-- The redactor masks and loses nothing.  Everything released is everything fed,
in pieces: a byte, or a secret that is in the set when the call that releases it
is made, shown as `***`; the held tail comes last.  What is held ends what was
fed and starts a secret.  With a set fixed before the stream in which no secret
occurs in another, every split gives the plain scan of the whole. -/
theorem redactor_masks_and_loses_nothing :
    (∀ calls : List Call,
      (∃ pieces : List (List Piece), pieces.length = calls.length ∧
        (∀ i own, pieces[i]? = some own →
          (after (calls.take (i + 1))).output = (after (calls.take i)).output ++ shown own ∧
          ∀ secret, .masked secret ∈ own → secret ∈ (after (calls.take i)).set) ∧
        fed calls = sources pieces.flatten ++ (after calls).redactor.held ∧
        released calls = shown pieces.flatten ++ (after calls).redactor.held) ∧
      (after calls).redactor.held <:+ fed calls ∧
      ((after calls).set = [] ∧ (after calls).redactor.held = [] ∨
        ∃ secret ∈ (after calls).set, (after calls).redactor.held <+: secret ∧
          (after calls).redactor.held.length < secret.length)) ∧
    ∀ values chunks : List Bytes,
      (∀ p ∈ redactSet values, ∀ q ∈ redactSet values, p <:+: q → p = q) →
      released (values.map Call.add ++ chunks.map Call.feed)
        = replaceAll mask (redactSet values) chunks.flatten := by
  constructor
  · intro calls
    obtain ⟨pieces, count, each, whole, out⟩ := after_pieces calls
    refine ⟨⟨pieces, count, each, whole, ?_⟩, ⟨sources pieces.flatten, whole.symm⟩,
      (after_holdsPrefix calls).2⟩
    rw [released, out]
    rfl
  · intro values chunks infixFree
    rw [released_fixed]
    apply masks_eq_replaceAll infixFree (redactSet_nonempty values)
    exact redactStream_masks (redactSet_nonempty values) chunks

/-- The secrets `ab` and `bc`, the stream cut inside `ab`. -/
theorem redactor_masks_ab_bc :
    released ([[97, 98], [98, 99]].map Call.add ++ [[120, 97], [98, 99]].map Call.feed)
      = [120, 42, 42, 42, 99] := by
  rw [redactor_masks_and_loses_nothing.2 [[97, 98], [98, 99]] [[120, 97], [98, 99]] (by decide)]
  simp [replaceAll, redactSet, redactAdd, mask]

end Qwe.Redact
