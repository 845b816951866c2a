import Mathlib.Data.List.DropRight
import Mathlib.Data.List.Infix
import Mathlib.Logic.Function.Basic

/-!
# A fragment of the POSIX shell

Simple commands, lists, `||` and `while`, with the built-in utilities that need no
other process, over bytes.  Every expansion stands in double quotes or in an
assignment, so it is never split into fields and never taken for a file pattern.

What the language leaves open is a `Host`: the shell's own variables and the system
that programs are started on.

`run` has fuel for the loops.  `Runs` says that enough fuel gives a result, and the
rules below are stated for it.
-/

set_option autoImplicit false

namespace Qwe.Shell

abbrev Text := List UInt8

/-! ## Patterns -/

/-- A part of a pattern: `*`, or a byte that stands for itself. -/
inductive Glob where
  | star
  | byte (b : UInt8)

def accepts : List Glob → Text → Bool
  | [], s => s.isEmpty
  | .star :: p, s => s.tails.any (accepts p)
  | .byte _ :: _, [] => false
  | .byte b :: p, c :: s => b == c && accepts p s

/-- What is done to the value of a parameter: `${x}`, `${x#p}`, `${x%p}`, `${x%%p}`. -/
inductive Trim where
  | whole
  | smallestPrefix (p : List Glob)
  | smallestSuffix (p : List Glob)
  | largestSuffix (p : List Glob)

def Trim.apply (s : Text) : Trim → Text
  | .whole => s
  | .smallestPrefix p =>
      match (List.range (s.length + 1)).find? fun k => accepts p (s.take k) with
      | some k => s.drop k
      | none => s
  | .smallestSuffix p =>
      match (List.range (s.length + 1)).reverse.find? fun k => accepts p (s.drop k) with
      | some k => s.take k
      | none => s
  | .largestSuffix p =>
      match (List.range (s.length + 1)).find? fun k => accepts p (s.drop k) with
      | some k => s.take k
      | none => s

/-- Of the numbers below a bound, the first that has the property. -/
theorem find_range {p : Nat → Bool} {n k : Nat} (inside : k < n) (holds : p k = true)
    (first : ∀ j < k, p j = false) : (List.range n).find? p = some k := by
  rw [List.find?_range_eq_some]
  exact ⟨holds, List.mem_range.mpr inside, fun j before => by simp [first j before]⟩

theorem accepts_star_byte {b : UInt8} {s : Text} :
    accepts [.star, .byte b] s = true ↔ ∃ a, s = a ++ [b] := by
  have last (t : Text) : accepts [.byte b] t = true ↔ t = [b] := by
    cases t with
    | nil => simp [accepts]
    | cons c t =>
        simp only [accepts, Bool.and_eq_true, beq_iff_eq, List.isEmpty_iff, List.cons.injEq]
        exact and_congr_left fun _ => eq_comm
  rw [accepts, List.any_eq_true]
  constructor
  · rintro ⟨t, tail, hit⟩
    obtain ⟨a, rfl⟩ := List.mem_tails _ _ |>.mp tail
    exact ⟨a, by rw [(last t).mp hit]⟩
  · rintro ⟨a, rfl⟩
    exact ⟨[b], (List.mem_tails _ _).mpr ⟨a, rfl⟩, (last [b]).mpr rfl⟩

theorem accepts_byte_star {b : UInt8} {s : Text} :
    accepts [.byte b, .star] s = true ↔ s.head? = some b := by
  cases s with
  | nil => simp [accepts]
  | cons c s =>
      have rest : accepts [.star] s = true := by
        rw [accepts, List.any_eq_true]
        exact ⟨[], (List.mem_tails _ _).mpr ⟨s, by simp⟩, rfl⟩
      rw [accepts, rest, Bool.and_true, beq_iff_eq, List.head?_cons, Option.some.injEq]
      exact eq_comm

/-- `${x#*b}` cuts through the first `b`. -/
theorem smallestPrefix_star_byte {a c : Text} {b : UInt8} (absent : b ∉ a) :
    (Trim.smallestPrefix [.star, .byte b]).apply (a ++ b :: c) = c := by
  have found : (List.range ((a ++ b :: c).length + 1)).find?
      (fun k => accepts [.star, .byte b] ((a ++ b :: c).take k)) = some (a.length + 1) := by
    apply find_range
    · simp only [List.length_append, List.length_cons]
      omega
    · rw [accepts_star_byte]
      exact ⟨a, by rw [List.take_length_add_append]; rfl⟩
    · intro j before
      rw [Bool.eq_false_iff, ne_eq, accepts_star_byte]
      rintro ⟨front, cut⟩
      rw [List.take_append_of_le_length (by omega)] at cut
      apply absent
      apply List.mem_of_mem_take
      rw [cut]
      simp
  rw [Trim.apply, found]
  simp [List.drop_append]

/-- `${x%%b*}` cuts from the first `b` on. -/
theorem largestSuffix_byte_star {a c : Text} {b : UInt8} (absent : b ∉ a) :
    (Trim.largestSuffix [.byte b, .star]).apply (a ++ b :: c) = a := by
  have found : (List.range ((a ++ b :: c).length + 1)).find?
      (fun k => accepts [.byte b, .star] ((a ++ b :: c).drop k)) = some a.length := by
    apply find_range
    · simp only [List.length_append, List.length_cons]
      omega
    · rw [accepts_byte_star]
      simp
    · intro j before
      rw [Bool.eq_false_iff, ne_eq, accepts_byte_star, List.head?_drop, List.getElem?_append_left before]
      intro here
      exact absent (List.mem_of_getElem? here)
  rw [Trim.apply, found]
  simp

/-- `${x%b}` cuts a last `b`. -/
theorem smallestSuffix_byte (a : Text) (b : UInt8) :
    (Trim.smallestSuffix [.byte b]).apply (a ++ [b]) = a := by
  have range : (List.range ((a ++ [b]).length + 1)).reverse
      = (a.length + 1) :: a.length :: (List.range a.length).reverse := by
    simp [List.range_succ]
  have end_ : accepts [.byte b] ((a ++ [b]).drop (a.length + 1)) = false := by
    rw [List.drop_of_length_le (by simp)]
    rfl
  have last : accepts [.byte b] ((a ++ [b]).drop a.length) = true := by
    simp [accepts]
  have found : (List.range ((a ++ [b]).length + 1)).reverse.find?
      (fun k => accepts [.byte b] ((a ++ [b]).drop k)) = some a.length := by
    rw [range, List.find?_cons_of_neg (by rw [end_]; decide), List.find?_cons_of_pos (by exact last)]
  rw [Trim.apply, found]
  simp

/-! ## The escapes of `printf %b` -/

/-- What a backslash and the text behind it stand for. -/
inductive Escape where
  /-- A byte, with so many bytes of the text used up. -/
  | byte (b : UInt8) (used : Nat)
  /-- `\c`: nothing more is printed, not even the rest of the format. -/
  | stop

def isOctal (b : UInt8) : Bool := 48 ≤ b && b ≤ 55

def octal (digits : Text) : UInt8 := digits.foldl (fun n d => n * 8 + (d - 48)) 0

/-- The single letters, and the bytes they stand for. -/
def letterEscapes : List (UInt8 × UInt8) :=
  [(92, 92), (97, 7), (98, 8), (102, 12), (110, 10), (114, 13), (116, 9), (118, 11)]

def escapeAt : Text → Escape
  | [] => .byte 92 0
  | c :: rest =>
      if c = 99 then .stop
      else if c = 48 then
        let digits := (rest.take 3).takeWhile isOctal
        .byte (octal digits) (1 + digits.length)
      else match letterEscapes.lookup c with
        | some b => .byte b 1
        -- any other backslash stands for itself
        | none => .byte 92 0

/-- The text with its escapes expanded, after `skip` bytes, and whether a `\c` ended it. -/
def expandEscapes (skip : Nat) : Text → Text × Bool
  | [] => ([], false)
  | b :: rest =>
      match skip with
      | skip + 1 => expandEscapes skip rest
      | 0 =>
          if b = 92 then
            match escapeAt rest with
            | .stop => ([], true)
            | .byte c used =>
                let tail := expandEscapes used rest
                (c :: tail.1, tail.2)
          else
            let tail := expandEscapes 0 rest
            (b :: tail.1, tail.2)

theorem expandEscapes_plain {b : UInt8} (plain : b ≠ 92) (rest : Text) :
    expandEscapes 0 (b :: rest)
      = (b :: (expandEscapes 0 rest).1, (expandEscapes 0 rest).2) := by
  rw [expandEscapes]
  exact if_neg plain

theorem expandEscapes_letter {c b : UInt8} (known : letterEscapes.lookup c = some b)
    (rest : Text) :
    expandEscapes 0 (92 :: c :: rest)
      = (b :: (expandEscapes 0 rest).1, (expandEscapes 0 rest).2) := by
  have stop : c ≠ 99 := by
    rintro rfl
    cases known
  have zero : c ≠ 48 := by
    rintro rfl
    cases known
  rw [expandEscapes, escapeAt, if_neg stop, if_neg zero, known]
  rfl

/-! ## Commands -/

mutual

/-- A part of a word in double quotes. -/
inductive Piece where
  | text (s : Text)
  | param (name : Text) (trim : Trim)
  /-- `$1` is the argument 0. -/
  | arg (i : Nat)
  /-- `$(c)` -/
  | output (c : Cmd)

inductive Cmd where
  /-- `name=word` -/
  | assign (name : Text) (word : List Piece)
  /-- `IFS= read -r name` -/
  | read (name : Text)
  /-- `[ -n word ]` -/
  | nonempty (word : List Piece)
  /-- `printf '%b…' word`, with plain text behind the conversion. -/
  | printf (tail : Text) (word : List Piece)
  | export (word : List Piece)
  | unset (names : List Text)
  | leave
  | exit (status : Nat)
  | exec (argv : List (List Piece))
  | seq (first second : Cmd)
  /-- `first || second` -/
  | orElse (first second : Cmd)
  | whileDo (cond body : Cmd)

end

structure Var where
  value : Text
  exported : Bool

/-- A shell: its variables, its arguments, what is unread on its standard input and
what it has written. -/
structure Sh where
  vars : Text → Option Var
  args : List Text
  stdin : Text
  stdout : Text

/-- How a command ends. -/
inductive Flow where
  | next (status : Nat)
  /-- `break` -/
  | left
  | exited (status : Nat)
  /-- The shell's process goes on as another program. -/
  | replaced (argv : List Text)

/-- What the language leaves open. -/
structure Host where
  /-- Whether the shell takes this value for this variable.  It has variables of its
  own, of which some are never written and some take a number only. -/
  takes : Text → Text → Bool
  /-- The status with which `exec` fails: no such program along this `PATH`, or one that
  the system does not start with these arguments and this environment. -/
  refuses : Option Text → List Text → (Text → Option Text) → Option Nat

/-- dash takes a number only for the index of `getopts`. -/
def dashTakes (name text : Text) : Bool :=
  name != optind || (text != [] && text.all fun b => 48 ≤ b && b ≤ 57)
where
  /-- `OPTIND` -/
  optind : Text := [79, 80, 84, 73, 78, 68]

namespace Sh

/-- A parameter that is not set has the empty value. -/
def value (s : Sh) (name : Text) : Text := ((s.vars name).map Var.value).getD []

/-- A variable that is exported stays so. -/
def assign (s : Sh) (name text : Text) : Sh :=
  let exported := ((s.vars name).map Var.exported).getD false
  { s with vars := Function.update s.vars name (some ⟨text, exported⟩) }

def exportAs (s : Sh) (name text : Text) : Sh :=
  { s with vars := Function.update s.vars name (some ⟨text, true⟩) }

def unset (s : Sh) (names : List Text) : Sh :=
  { s with vars := fun name => if name ∈ names then none else s.vars name }

/-- The environment that another program gets. -/
def environ (s : Sh) (name : Text) : Option Text :=
  match s.vars name with
  | some ⟨value, true⟩ => some value
  | _ => none

/-- Where `exec` looks for a program. -/
def path (s : Sh) : Option Text := (s.vars [80, 65, 84, 72]).map Var.value

/-- One line, without its newline.  Nothing is split off while `IFS` is empty, which
it is for this command only.  The status is 1 at the end of the input. -/
def readLine (host : Host) (s : Sh) (name : Text) : Flow × Sh :=
  let line := s.stdin.takeWhile (· != 10)
  let (status, rest) := match s.stdin.dropWhile (· != 10) with
    | [] => (1, [])
    | _ :: rest => (0, rest)
  if host.takes name line then (.next status, Sh.assign { s with stdin := rest } name line)
  else (.next 2, { s with stdin := rest })

end Sh

/-- A name of a variable. -/
def isName : Text → Bool
  | [] => false
  | b :: rest => isStart b && rest.all fun c => isStart c || (48 ≤ c && c ≤ 57)
where
  isStart (b : UInt8) : Bool := (65 ≤ b && b ≤ 90) || (97 ≤ b && b ≤ 122) || b == 95

/-- `export` of one word.  A special built-in that is misused ends the shell. -/
def exportWord (host : Host) (s : Sh) (word : Text) : Flow × Sh :=
  let name := word.takeWhile (· != 61)
  if isName name then
    match word.dropWhile (· != 61) with
    | [] =>
        match s.vars name with
        | some var => (.next 0, s.exportAs name var.value)
        | none => (.next 0, s)
    | _ :: text =>
        if host.takes name text then (.next 0, s.exportAs name text) else (.exited 2, s)
  else (.exited 2, s)

/-- Command substitution takes the newlines off the end. -/
def stripNewlines (s : Text) : Text := s.rdropWhile (· == 10)

section Expand
variable (sub : Cmd → Sh → Option (Flow × Sh))

/-- The text of a piece, the status of the command in it, and the shell behind it.
The command runs in a copy of the shell that shares its standard input. -/
def expandPiece (s : Sh) : Piece → Option (Text × Option Nat × Sh)
  | .text t => some (t, none, s)
  | .param name trim => some (trim.apply (s.value name), none, s)
  | .arg i => some ((s.args[i]?).getD [], none, s)
  | .output c =>
      match sub c { s with stdout := [] } with
      | some (.next status, inner) =>
          some (stripNewlines inner.stdout, some status, { s with stdin := inner.stdin })
      | some (.exited status, inner) =>
          some (stripNewlines inner.stdout, some status, { s with stdin := inner.stdin })
      | _ => none

def expand (s : Sh) : List Piece → Option (Text × Option Nat × Sh)
  | [] => some ([], none, s)
  | piece :: rest => do
      let (text, status, s) ← expandPiece sub s piece
      let (tail, later, s) ← expand s rest
      some (text ++ tail, later.or status, s)

def expandAll (s : Sh) : List (List Piece) → Option (List Text × Sh)
  | [] => some ([], s)
  | word :: rest => do
      let (text, _, s) ← expand sub s word
      let (texts, s) ← expandAll s rest
      some (text :: texts, s)

end Expand

section Run
variable (host : Host)

/-- A command in a shell; nothing where the fuel does not suffice. -/
def run : Nat → Cmd → Sh → Option (Flow × Sh)
  | 0, _, _ => none
  | fuel + 1, .assign name word, s => do
      let (text, status, s) ← expand (run fuel) s word
      some (if host.takes name text then (.next (status.getD 0), s.assign name text)
        else (.exited 2, s))
  | _ + 1, .read name, s => some (s.readLine host name)
  | fuel + 1, .nonempty word, s => do
      let (text, _, s) ← expand (run fuel) s word
      some (.next (if text = [] then 1 else 0), s)
  | fuel + 1, .printf tail word, s => do
      let (text, _, s) ← expand (run fuel) s word
      let (out, stopped) := expandEscapes 0 text
      some (.next 0, { s with stdout := s.stdout ++ out ++ if stopped then [] else tail })
  | fuel + 1, .export word, s => do
      let (text, _, s) ← expand (run fuel) s word
      some (exportWord host s text)
  | _ + 1, .unset names, s => some (.next 0, s.unset names)
  | _ + 1, .leave, s => some (.left, s)
  | _ + 1, .exit status, s => some (.exited status, s)
  | fuel + 1, .exec argv, s => do
      let (texts, s) ← expandAll (run fuel) s argv
      some (match host.refuses s.path texts s.environ with
        | none => (.replaced texts, s)
        | some status => (.exited status, s))
  | fuel + 1, .seq first second, s =>
      match run fuel first s with
      | some (.next _, s) => run fuel second s
      | ended => ended
  | fuel + 1, .orElse first second, s =>
      match run fuel first s with
      | some (.next (_ + 1), s) => run fuel second s
      | ended => ended
  | fuel + 1, .whileDo cond body, s =>
      match run fuel cond s with
      | some (.next 0, s) =>
          match run fuel body s with
          | some (.next _, s) => run fuel (.whileDo cond body) s
          | some (.left, s) => some (.next 0, s)
          | ended => ended
      | some (.next (_ + 1), s) => some (.next 0, s)
      | some (.left, s) => some (.next 0, s)
      | ended => ended

/-! ## Rules -/

/-- With enough fuel the command ends in this way. -/
def Runs (c : Cmd) (s : Sh) (flow : Flow) (s' : Sh) : Prop :=
  ∃ enough, ∀ fuel, enough ≤ fuel → run host fuel c s = some (flow, s')

/-- With enough fuel the word is expanded to this text. -/
def Expands (word : List Piece) (s : Sh) (text : Text) (status : Option Nat) (s' : Sh) : Prop :=
  ∃ enough, ∀ fuel, enough ≤ fuel → expand (run host fuel) s word = some (text, status, s')

end Run

variable {host : Host}

theorem Runs.unique {c : Cmd} {s s' s'' : Sh} {flow flow' : Flow} (first : Runs host c s flow s')
    (second : Runs host c s flow' s'') : flow = flow' ∧ s' = s'' := by
  obtain ⟨n, ran⟩ := first
  obtain ⟨m, also⟩ := second
  have same := (ran (max n m) (by omega)).symm.trans (also (max n m) (by omega))
  simpa using same

theorem runs_of_step {c : Cmd} {s s' : Sh} {flow : Flow} (n : Nat)
    (step : ∀ fuel, n ≤ fuel → run host (fuel + 1) c s = some (flow, s')) : Runs host c s flow s' := by
  refine ⟨n + 1, fun fuel bound => ?_⟩
  cases fuel with
  | zero => omega
  | succ fuel => exact step fuel (by omega)

section Words
variable {s s' inner : Sh} {word rest : List Piece} {text tail : Text} {status later : Option Nat}

theorem Expands.nil (s : Sh) : Expands host [] s [] none s := ⟨0, fun _ _ => rfl⟩

theorem Expands.plain {piece : Piece} (own : ∀ sub, expandPiece sub s piece = some (text, none, s))
    (behind : Expands host rest s tail later s') :
    Expands host (piece :: rest) s (text ++ tail) later s' := by
  obtain ⟨n, ran⟩ := behind
  refine ⟨n, fun fuel bound => ?_⟩
  rw [expand, own]
  simp only [Option.bind_eq_bind, Option.bind_some, ran fuel bound]
  cases later <;> rfl

theorem Expands.output {c : Cmd} {k : Nat}
    (ran : Runs host c { s with stdout := [] } (.next k) inner)
    (behind : Expands host rest { s with stdin := inner.stdin } tail later s') :
    Expands host (.output c :: rest) s (stripNewlines inner.stdout ++ tail) (later.or (some k)) s' := by
  obtain ⟨n, inside⟩ := ran
  obtain ⟨m, outside⟩ := behind
  refine ⟨max n m, fun fuel bound => ?_⟩
  rw [expand, expandPiece, inside fuel (by omega)]
  simp only [Option.bind_eq_bind, Option.bind_some]
  rw [outside fuel (by omega)]
  rfl

theorem Runs.assign {name : Text} (word_ : Expands host word s text status s')
    (taken : host.takes name text = true) :
    Runs host (.assign name word) s (.next (status.getD 0)) (s'.assign name text) := by
  obtain ⟨n, ran⟩ := word_
  apply runs_of_step n
  intro fuel bound
  conv_lhs => whnf
  rw [ran fuel bound]
  exact congrArg some (if_pos taken)

theorem Runs.nonempty (word_ : Expands host word s text status s') :
    Runs host (.nonempty word) s (.next (if text = [] then 1 else 0)) s' := by
  obtain ⟨n, ran⟩ := word_
  apply runs_of_step n
  intro fuel bound
  conv_lhs => whnf
  rw [ran fuel bound]

theorem Runs.printf {after out : Text} (word_ : Expands host word s text status s')
    (expanded : expandEscapes 0 text = (out, false)) :
    Runs host (.printf after word) s (.next 0) { s' with stdout := s'.stdout ++ out ++ after } := by
  obtain ⟨n, ran⟩ := word_
  apply runs_of_step n
  intro fuel bound
  conv_lhs => whnf
  rw [ran fuel bound]
  simp only [expanded]
  rfl

theorem Runs.export (word_ : Expands host word s text status s') :
    Runs host (.export word) s (exportWord host s' text).1 (exportWord host s' text).2 := by
  obtain ⟨n, ran⟩ := word_
  apply runs_of_step n
  intro fuel bound
  conv_lhs => whnf
  rw [ran fuel bound]

end Words

section Commands
variable {s s' s'' : Sh} {first second cond body : Cmd} {flow : Flow} {k j : Nat}

theorem Runs.read (s : Sh) (name : Text) :
    Runs host (.read name) s (s.readLine host name).1 (s.readLine host name).2 :=
  runs_of_step 0 fun _ _ => rfl

theorem Runs.unset (s : Sh) (names : List Text) : Runs host (.unset names) s (.next 0) (s.unset names) :=
  runs_of_step 0 fun _ _ => rfl

theorem Runs.leave (s : Sh) : Runs host .leave s .left s := runs_of_step 0 fun _ _ => rfl

theorem Runs.seq (ran : Runs host first s (.next k) s') (then_ : Runs host second s' flow s'') :
    Runs host (.seq first second) s flow s'' := by
  obtain ⟨n, one⟩ := ran
  obtain ⟨m, two⟩ := then_
  apply runs_of_step (max n m)
  intro fuel bound
  conv_lhs => whnf
  rw [one fuel (by omega)]
  exact two fuel (by omega)

theorem Runs.seq_left (ran : Runs host first s .left s') : Runs host (.seq first second) s .left s' := by
  obtain ⟨n, one⟩ := ran
  apply runs_of_step n
  intro fuel bound
  conv_lhs => whnf
  rw [one fuel bound]

theorem Runs.seq_exited (ran : Runs host first s (.exited k) s') :
    Runs host (.seq first second) s (.exited k) s' := by
  obtain ⟨n, one⟩ := ran
  apply runs_of_step n
  intro fuel bound
  conv_lhs => whnf
  rw [one fuel bound]

theorem Runs.orElse_done (ran : Runs host first s (.next 0) s') :
    Runs host (.orElse first second) s (.next 0) s' := by
  obtain ⟨n, one⟩ := ran
  apply runs_of_step n
  intro fuel bound
  conv_lhs => whnf
  rw [one fuel bound]

theorem Runs.orElse_failed (ran : Runs host first s (.next (k + 1)) s')
    (then_ : Runs host second s' flow s'') : Runs host (.orElse first second) s flow s'' := by
  obtain ⟨n, one⟩ := ran
  obtain ⟨m, two⟩ := then_
  apply runs_of_step (max n m)
  intro fuel bound
  conv_lhs => whnf
  rw [one fuel (by omega)]
  exact two fuel (by omega)

/-- One round of a loop, and the rounds behind it. -/
theorem Runs.while_again {final : Sh} (test : Runs host cond s (.next 0) s')
    (round : Runs host body s' (.next k) s'') (again : Runs host (.whileDo cond body) s'' flow final) :
    Runs host (.whileDo cond body) s flow final := by
  obtain ⟨n, one⟩ := test
  obtain ⟨m, two⟩ := round
  obtain ⟨l, three⟩ := again
  apply runs_of_step (max n (max m l))
  intro fuel bound
  conv_lhs => whnf
  rw [one fuel (by omega)]
  simp only [two fuel (by omega)]
  exact three fuel (by omega)

theorem Runs.while_left (test : Runs host cond s (.next 0) s') (round : Runs host body s' .left s'') :
    Runs host (.whileDo cond body) s (.next 0) s'' := by
  obtain ⟨n, one⟩ := test
  obtain ⟨m, two⟩ := round
  apply runs_of_step (max n m)
  intro fuel bound
  conv_lhs => whnf
  rw [one fuel (by omega)]
  simp only [two fuel (by omega)]

theorem Runs.while_exited (test : Runs host cond s (.next 0) s')
    (round : Runs host body s' (.exited k) s'') :
    Runs host (.whileDo cond body) s (.exited k) s'' := by
  obtain ⟨n, one⟩ := test
  obtain ⟨m, two⟩ := round
  apply runs_of_step (max n m)
  intro fuel bound
  conv_lhs => whnf
  rw [one fuel (by omega)]
  simp only [two fuel (by omega)]

end Commands

section Exec
variable {s s' : Sh} {argv : List (List Piece)} {texts : List Text} (n : Nat)
  (all : ∀ fuel, n ≤ fuel → expandAll (run host fuel) s argv = some (texts, s'))

include all

theorem Runs.exec (starts : host.refuses s'.path texts s'.environ = none) :
    Runs host (.exec argv) s (.replaced texts) s' := by
  apply runs_of_step n
  intro fuel bound
  conv_lhs => whnf
  rw [all fuel bound]
  simp only [starts]

theorem Runs.exec_refused {status : Nat}
    (refused : host.refuses s'.path texts s'.environ = some status) :
    Runs host (.exec argv) s (.exited status) s' := by
  apply runs_of_step n
  intro fuel bound
  conv_lhs => whnf
  rw [all fuel bound]
  simp only [refused]

end Exec

end Qwe.Shell
