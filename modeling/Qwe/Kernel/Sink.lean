import Qwe.Lib.Lines
import Qwe.Template.Document

/-!
# The sink of a job

`src/kernel/sink.c`: a job's bytes go raw to its log and line by line, behind the job's name,
to the terminal.  The line that is not finished yet waits in a buffer that grows by doubling.
Allocations and writes succeed.
-/

set_option autoImplicit false

namespace Qwe.Kernel

open Qwe.Redact (Bytes)
open Qwe.Template (bytes)

/-- `struct qwe_sink`, with what its two descriptors have received.  `line` is the whole
buffer, its cells up to `line_cap`. -/
structure Sink where
  job : Bytes
  log : Bytes
  term : Bytes
  line : Bytes
  lineLen : Nat
deriving DecidableEq, Repr

/-- A line as the terminal shows it. -/
def shownLine (job line : Bytes) : Bytes := bytes "[" ++ job ++ bytes "] " ++ line ++ [10]

namespace Sink

/-- `qwe_sink_open` -/
def opened (job : Bytes) : Sink := { job := job, log := [], term := [], line := [], lineLen := 0 }

/-- `emit_line` -/
def emitLine (s : Sink) : Sink :=
  { s with
    term := s.term ++ shownLine s.job (s.line.take s.lineLen)
    lineLen := 0 }

section Growing
/- What stands in the cells that `realloc` adds. -/
variable (memory : Nat → UInt8)

/-- A buffer of `cap` cells that begins like the one before. -/
def realloc (line : Bytes) (cap : Nat) : Bytes :=
  line ++ (List.range (cap - line.length)).map memory

/-- Room for one more byte. -/
def grow (s : Sink) : Sink :=
  if s.lineLen = s.line.length then
    { s with line := realloc memory s.line (if s.line.length ≠ 0 then s.line.length * 2 else 256) }
  else s

/-- The loop of `qwe_sink_write`, at one byte. -/
def put (s : Sink) (b : UInt8) : Sink :=
  if b = 10 then s.emitLine
  else
    let s := s.grow memory
    { s with line := s.line.set s.lineLen b, lineLen := s.lineLen + 1 }

/-- `qwe_sink_write` -/
def write (s : Sink) (data : Bytes) : Sink :=
  data.foldl (put memory) { s with log := s.log ++ data }

end Growing

/-- `qwe_sink_close` -/
def close (s : Sink) : Sink :=
  let s := if s.lineLen > 0 then s.emitLine else s
  { s with line := [], lineLen := 0 }

/-! ## What was shown of a stream -/

/-- The unfinished line. -/
def rest (s : Sink) : Bytes := s.line.take s.lineLen

/-- The finished lines of the stream have been shown, and the rest of it waits. -/
structure Shows (s : Sink) (stream : Bytes) (lines : List Bytes) : Prop where
  fits : s.lineLen ≤ s.line.length
  text : stream = lines.flatMap (· ++ [10]) ++ s.rest
  free : ∀ line ∈ lines, 10 ∉ line
  unbroken : 10 ∉ s.rest
  term : s.term = lines.flatMap (shownLine s.job)

section Steps
variable {memory : Nat → UInt8} {s : Sink} {stream : Bytes} {lines : List Bytes} {b : UInt8}

theorem shows_opened (job : Bytes) : (opened job).Shows [] [] where
  fits := Nat.le_refl 0
  text := rfl
  free := fun _ present => absurd present List.not_mem_nil
  unbroken := List.not_mem_nil
  term := rfl

/-- There is room for a byte, and nothing else has changed. -/
theorem grow_spec (memory : Nat → UInt8) (fits : s.lineLen ≤ s.line.length) :
    (s.grow memory).lineLen < (s.grow memory).line.length ∧ (s.grow memory).rest = s.rest ∧
      (s.grow memory).lineLen = s.lineLen ∧ (s.grow memory).log = s.log ∧
      (s.grow memory).term = s.term ∧ (s.grow memory).job = s.job := by
  unfold grow
  by_cases full : s.lineLen = s.line.length
  · rw [if_pos full]
    refine ⟨?_, ?_, rfl, rfl, rfl, rfl⟩
    · simp only [realloc, List.length_append, List.length_map, List.length_range]
      split <;> omega
    · simp only [rest, realloc, full, List.take_left', List.take_length]
  · rw [if_neg full]
    exact ⟨by omega, rfl, rfl, rfl, rfl, rfl⟩

/-- The byte behind the end of the line. -/
theorem take_set {line : Bytes} {n : Nat} (inside : n < line.length) (b : UInt8) :
    (line.set n b).take (n + 1) = line.take n ++ [b] := by
  rw [List.take_add_one, List.take_set_of_le (Nat.le_refl n), List.getElem?_set_self inside]
  rfl

/-- The step lemma: one more byte of the stream. -/
theorem shows_put (memory : Nat → UInt8) (shows_ : s.Shows stream lines) (b : UInt8) :
    (∃ lines', (s.put memory b).Shows (stream ++ [b]) lines') ∧
      (s.put memory b).job = s.job ∧ (s.put memory b).log = s.log := by
  obtain ⟨fits, rfl, free, unbroken, term⟩ := shows_
  by_cases newline : b = 10
  · rw [put, if_pos newline, newline]
    refine ⟨⟨lines ++ [s.rest], ⟨Nat.zero_le _, ?_, ?_, List.not_mem_nil, ?_⟩⟩, rfl, rfl⟩
    · simp [emitLine, rest]
    · intro line present
      rcases List.mem_append.mp present with old | last
      · exact free line old
      · rw [List.mem_singleton.mp last]
        exact unbroken
    · simp [emitLine, term, rest]
  · obtain ⟨room, same, len, log, term', job⟩ := grow_spec memory fits
    have longer : (s.put memory b).rest = s.rest ++ [b] := by
      rw [put, if_neg newline]
      dsimp only [rest]
      rw [take_set room]
      exact congrArg (· ++ [b]) same
    rw [put, if_neg newline] at longer ⊢
    refine ⟨⟨lines, ⟨?_, ?_, free, ?_, ?_⟩⟩, job, log⟩
    · simpa using room
    · rw [longer, List.append_assoc]
    · rw [longer, List.mem_append, not_or]
      exact ⟨unbroken, fun present => newline (List.mem_singleton.mp present).symm⟩
    · dsimp only
      rw [term', job, term]

theorem shows_foldl (shows_ : s.Shows stream lines) (data : Bytes) :
    (∃ lines', (data.foldl (put memory) s).Shows (stream ++ data) lines') ∧
      (data.foldl (put memory) s).job = s.job ∧ (data.foldl (put memory) s).log = s.log := by
  induction data generalizing s stream lines with
  | nil => exact ⟨⟨lines, by rwa [List.append_nil]⟩, rfl, rfl⟩
  | cons b data inductionHypothesis =>
      obtain ⟨⟨next, shown⟩, job, log⟩ := shows_put memory shows_ b
      obtain ⟨later, job', log'⟩ := inductionHypothesis shown
      rw [List.append_assoc] at later
      exact ⟨later, job'.trans job, log'.trans log⟩

theorem shows_write (memory : Nat → UInt8) (shows_ : s.Shows stream lines) (data : Bytes) :
    (∃ lines', (s.write memory data).Shows (stream ++ data) lines') ∧
      (s.write memory data).job = s.job ∧ (s.write memory data).log = s.log ++ data := by
  obtain ⟨fits, text, free, unbroken, term⟩ := shows_
  have logged : ({ s with log := s.log ++ data } : Sink).Shows stream lines :=
    ⟨fits, text, free, unbroken, term⟩
  exact shows_foldl logged data

/-- The run lemma: however the stream is cut into writes. -/
theorem shows_writes (memory : Nat → UInt8) (shows_ : s.Shows stream lines) (chunks : List Bytes) :
    (∃ lines', (chunks.foldl (write memory) s).Shows (stream ++ chunks.flatten) lines') ∧
      (chunks.foldl (write memory) s).job = s.job ∧
      (chunks.foldl (write memory) s).log = s.log ++ chunks.flatten := by
  induction chunks generalizing s stream lines with
  | nil => exact ⟨⟨lines, by rwa [List.flatten_nil, List.append_nil]⟩, rfl, by simp⟩
  | cons data chunks inductionHypothesis =>
      obtain ⟨⟨next, shown⟩, job, log⟩ := shows_write memory shows_ data
      obtain ⟨later, job', log'⟩ := inductionHypothesis shown
      rw [List.flatten_cons, List.foldl_cons]
      refine ⟨?_, job'.trans job, ?_⟩
      · rwa [List.append_assoc] at later
      · rw [log', log, List.append_assoc]

/-- The lines of the stream, the unfinished one among them. -/
theorem read_of_shows (shows_ : s.Shows stream lines) :
    (Lines.read 10 stream).1 = if s.rest = [] then lines else lines ++ [s.rest] := by
  obtain ⟨-, rfl, free, unbroken, -⟩ := shows_
  split_ifs with nothing
  · rw [nothing, List.append_nil]
    by_cases none_ : lines = []
    · rw [none_]
      rfl
    · rw [← Lines.intercalate_terminated none_, ← Lines.write_terminated none_,
        Lines.read_write free, Lines.settle, if_neg none_, if_neg]
      rintro ⟨impossible, -⟩
      exact Bool.false_ne_true impossible.symm
  · have all : ∀ line ∈ lines ++ [s.rest], 10 ∉ line := by
      simp only [List.mem_append, List.mem_singleton]
      rintro line (old | rfl)
      · exact free line old
      · exact unbroken
    have joined : lines.flatMap (· ++ [10]) ++ s.rest = Lines.write 10 (lines ++ [s.rest], false) := by
      rw [Lines.write_unterminated]
      by_cases none_ : lines = []
      · rw [none_]
        simp [List.intercalate]
      · rw [Lines.intercalate_concat none_, ← Lines.intercalate_terminated none_,
          List.append_assoc]
        rfl
    rw [joined, Lines.read_write all, Lines.settle, if_neg (by simp), if_neg]
    rintro ⟨-, last⟩
    rw [List.getLast?_concat] at last
    exact nothing (Option.some.inj last)

theorem close_of_shows (shows_ : s.Shows stream lines) :
    s.close.term = (Lines.read 10 stream).1.flatMap (shownLine s.job) ∧ s.close.log = s.log := by
  have nothing_iff : s.rest = [] ↔ s.lineLen = 0 := by
    rw [rest, List.take_eq_nil_iff]
    refine ⟨fun none_ => none_.elim id fun empty => ?_, Or.inl⟩
    have fits := shows_.fits
    rw [empty, List.length_nil] at fits
    omega
  rw [read_of_shows shows_]
  by_cases nothing : s.rest = []
  · rw [if_pos nothing, close, if_neg (by rw [nothing_iff] at nothing; omega)]
    exact ⟨shows_.term, rfl⟩
  · rw [if_neg nothing, close, if_pos (by rw [nothing_iff] at nothing; omega)]
    refine ⟨?_, rfl⟩
    rw [List.flatMap_append, List.flatMap_singleton, ← shows_.term]
    rfl

end Steps

end Sink

end Qwe.Kernel
