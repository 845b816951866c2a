import Qwe.Lib.Shell
import Qwe.Lua.Value

/-!
# The stdin preamble

`src/kernel/preamble.c`: the declared env of a step reaches its command as lines on
standard input, which a bootstrap shell reads, exports and leaves behind.

The shell's loop works with two variables of its own, `qwe_l` and `qwe_v`, and unsets
them behind the loop.  Both are names that `name_ok` accepts, and so are the names of
the variables that mean something to the shell: one with a value that it does not take
ends the loop, and `PATH` is where the last `exec` looks for `sh`.
-/

set_option autoImplicit false

namespace Qwe.Kernel.Preamble

open Qwe.Shell
open Qwe.Redact (Bytes)
open Qwe.Template (bytes)

/-- A C string: the bytes before its NUL. -/
abbrev CStr := { s : Bytes // 0 ∉ s }

/-- A byte behind the first of a name. -/
def isNameByte (b : UInt8) : Bool :=
  (65 ≤ b && b ≤ 90) || (97 ≤ b && b ≤ 122) || (48 ≤ b && b ≤ 57) || b == 95

/-- `name_ok` -/
def nameOk : Bytes → Bool
  | [] => false
  | b :: rest => ((65 ≤ b && b ≤ 90) || (97 ≤ b && b ≤ 122) || b == 95) && rest.all isNameByte

/-- A value as it is written: a backslash as two, a newline as `\n`. -/
def escapeValue (value : Bytes) : Bytes :=
  value.flatMap fun b => if b = 92 then [92, 92] else if b = 10 then [92, 110] else [b]

def preambleLine (name value : Bytes) : Bytes := name ++ 61 :: escapeValue value ++ [10]

/-- `qwe_preamble_build`; a failure names the index of the bad name. -/
def preambleBuild (vars : List (CStr × CStr)) : Except Nat Bytes :=
  match vars.findIdx? fun v => !nameOk v.1.val with
  | some bad => .error bad
  | none => .ok ((vars.flatMap fun v => preambleLine v.1.val v.2.val) ++ [10])

/-- The name of the line that is read. -/
def qweL : Bytes := bytes "qwe_l"

/-- The name of the value in it. -/
def qweV : Bytes := bytes "qwe_v"

/-- `[ -n "$qwe_l" ] || break` -/
def stopAtEmpty : Cmd := .orElse (.nonempty [.param qweL .whole]) .leave

/-- `qwe_v=$(printf '%b.' "${qwe_l#*=}") || exit 125` -/
def decodeValue : Cmd :=
  .orElse
    (.assign qweV
      [.output (.printf (bytes ".") [.param qweL (.smallestPrefix [.star, .byte 61])])])
    (.exit 125)

/-- `export "${qwe_l%%=*}=${qwe_v%.}"` -/
def exportLine : Cmd :=
  .export
    [.param qweL (.largestSuffix [.byte 61, .star]), .text (bytes "="),
     .param qweV (.smallestSuffix [.byte 46])]

def loopBody : Cmd := .seq stopAtEmpty (.seq decodeValue exportLine)

/-- `while IFS= read -r qwe_l; do …; done` -/
def bootstrapLoop : Cmd := .whileDo (.read qweL) loopBody

/-- `qwe_preamble_bootstrap`: the loop, `unset qwe_l qwe_v` and `exec sh -c "$1"`. -/
def bootstrap : Cmd :=
  .seq bootstrapLoop
    (.seq (.unset [qweL, qweV])
      (.exec [[.text (bytes "sh")], [.text (bytes "-c")], [.arg 0]]))

/-! ## One line -/

theorem qweL_ne_qweV : qweL ≠ qweV := by decide

theorem isNameByte_of_mem {name : Bytes} (accepted : nameOk name = true) {b : UInt8}
    (member : b ∈ name) : isNameByte b = true := by
  cases name with
  | nil => cases member
  | cons first rest =>
      simp only [nameOk, Bool.and_eq_true, List.all_eq_true] at accepted
      rcases List.mem_cons.mp member with rfl | later
      · have start := accepted.1
        simp only [isNameByte, Bool.or_eq_true] at start ⊢
        tauto
      · exact accepted.2 b later

/-- What `name_ok` accepts is a name to the shell. -/
theorem isName_of_nameOk {name : Bytes} (accepted : nameOk name = true) : isName name = true := by
  cases name with
  | nil => cases accepted
  | cons first rest =>
      simp only [nameOk, Bool.and_eq_true, List.all_eq_true] at accepted
      simp only [isName, Bool.and_eq_true, List.all_eq_true]
      refine ⟨accepted.1, fun c member => ?_⟩
      have own := accepted.2 c member
      simp only [isNameByte, isName.isStart, Bool.or_eq_true] at own ⊢
      tauto

theorem notMem_of_nameOk {name : Bytes} (accepted : nameOk name = true) {b : UInt8}
    (other : isNameByte b = false) : b ∉ name := by
  intro member
  rw [isNameByte_of_mem accepted member] at other
  cases other

theorem newline_notMem_escapeValue (value : Bytes) : 10 ∉ escapeValue value := by
  intro member
  obtain ⟨b, -, inside⟩ := List.mem_flatMap.mp member
  split_ifs at inside with slash newline
  · exact absurd inside (by decide)
  · exact absurd inside (by decide)
  · rw [List.mem_singleton] at inside
    exact newline inside.symm

/-- `%b` undoes the escaping. -/
theorem expandEscapes_escapeValue (value : Bytes) :
    expandEscapes 0 (escapeValue value) = (value, false) := by
  induction value with
  | nil => rfl
  | cons b rest inductionHypothesis =>
      rw [escapeValue, List.flatMap_cons, ← escapeValue]
      split_ifs with slash newline
      · rw [List.cons_append, List.singleton_append, expandEscapes_letter rfl, inductionHypothesis,
          slash]
      · rw [List.cons_append, List.singleton_append, expandEscapes_letter rfl, inductionHypothesis,
          newline]
      · rw [List.singleton_append, expandEscapes_plain slash, inductionHypothesis]

theorem takeWhile_until {line rest : Bytes} {b : UInt8} (absent : b ∉ line) :
    (line ++ b :: rest).takeWhile (· != b) = line := by
  rw [List.takeWhile_append_of_pos]
  · simp
  · intro c member
    rw [bne_iff_ne]
    rintro rfl
    exact absent member

theorem dropWhile_until {line rest : Bytes} {b : UInt8} (absent : b ∉ line) :
    (line ++ b :: rest).dropWhile (· != b) = b :: rest := by
  rw [List.dropWhile_append_of_pos]
  · simp
  · intro c member
    rw [bne_iff_ne]
    rintro rfl
    exact absent member

section Host
variable {host : Host}

theorem readLine_line {s : Sh} {line rest name : Bytes} (absent : 10 ∉ line)
    (input : s.stdin = line ++ 10 :: rest) (taken : host.takes name line = true) :
    s.readLine host name = (.next 0, Sh.assign { s with stdin := rest } name line) := by
  rw [Sh.readLine, input, dropWhile_until absent, takeWhile_until absent]
  exact if_pos taken

theorem exportWord_pair {name : Bytes} (accepted : nameOk name = true) (s : Sh) (value : Bytes) :
    exportWord host s (name ++ 61 :: value)
      = if host.takes name value then (.next 0, s.exportAs name value) else (.exited 2, s) := by
  have absent : 61 ∉ name := notMem_of_nameOk accepted (by decide)
  simp only [exportWord, takeWhile_until absent, dropWhile_until absent, isName_of_nameOk accepted,
    if_true]

theorem value_assign (s : Sh) (name text : Bytes) : (s.assign name text).value name = text := by
  simp [Sh.assign, Sh.value]

theorem value_assign_other (s : Sh) {name other : Bytes} (differ : other ≠ name) (text : Bytes) :
    (s.assign name text).value other = s.value other := by
  simp [Sh.assign, Sh.value, differ]

/-! ## The loop -/

theorem expands_param {s s' : Sh} {rest : List Piece} {tail : Bytes} {status : Option Nat}
    (name : Bytes) (trim : Trim) (behind : Expands host rest s tail status s') :
    Expands host (.param name trim :: rest) s (trim.apply (s.value name) ++ tail) status s' :=
  Expands.plain (fun _ => rfl) behind

variable (host) in
/-- A parameter that stands alone in its quotes. -/
theorem expands_alone (s : Sh) (name : Bytes) (trim : Trim) :
    Expands host [.param name trim] s (trim.apply (s.value name)) none s := by
  have nothing : Expands host [] s [] none s := Expands.nil s
  have expanded := expands_param name trim nothing
  rwa [List.append_nil] at expanded

section Line
variable {s : Sh} {name value : Bytes} (accepted : nameOk name = true)
  (line : s.value qweL = name ++ 61 :: escapeValue value)

include line

theorem runs_stopAtEmpty : Runs host stopAtEmpty s (.next 0) s := by
  apply Runs.orElse_done
  have tested := Runs.nonempty (expands_alone host s qweL .whole)
  rw [Trim.apply, line, if_neg (by simp)] at tested
  exact tested

include accepted

theorem runs_decodeValue (taken : host.takes qweV (value ++ [46]) = true) :
    Runs host decodeValue s (.next 0) (s.assign qweV (value ++ [46])) := by
  have absent : 61 ∉ name := notMem_of_nameOk accepted (by decide)
  have word := expands_alone host { s with stdout := [] } qweL
    (.smallestPrefix [.star, .byte 61])
  have plain : Sh.value { s with stdout := [] } qweL = name ++ 61 :: escapeValue value := line
  rw [plain, smallestPrefix_star_byte absent] at word
  have printed : Runs host (.printf (bytes ".") _) _ _ _ :=
    Runs.printf word (expandEscapes_escapeValue value)
  have output := Expands.output printed (Expands.nil _)
  have kept : stripNewlines ([] ++ value ++ bytes ".") ++ [] = value ++ [46] := by
    rw [List.append_nil, List.nil_append, stripNewlines]
    exact List.rdropWhile_concat_neg _ _ _ (by decide)
  rw [kept] at output
  apply Runs.orElse_done
  exact Runs.assign output taken

theorem runs_exportLine (decoded : s.value qweV = value ++ [46]) :
    Runs host exportLine s (if host.takes name value then .next 0 else .exited 2)
      (if host.takes name value then s.exportAs name value else s) := by
  have absent : 61 ∉ name := notMem_of_nameOk accepted (by decide)
  have last := expands_alone host s qweV (.smallestSuffix [.byte 46])
  rw [decoded, smallestSuffix_byte] at last
  have sign : Expands host [.text (bytes "="), .param qweV (.smallestSuffix [.byte 46])] s
      (bytes "=" ++ value) none s := Expands.plain (fun _ => rfl) last
  have word := expands_param qweL (.largestSuffix [.byte 61, .star]) sign
  rw [line, largestSuffix_byte_star absent] at word
  have exported := Runs.export word
  have equals : bytes "=" ++ value = 61 :: value := rfl
  rw [equals, exportWord_pair accepted] at exported
  split at exported
  · rename_i taken
    rw [if_pos taken, if_pos taken]
    exact exported
  · rename_i refused
    rw [if_neg refused, if_neg refused]
    exact exported

end Line

/-- The shell takes any value for the two variables of the loop. -/
def LoopFree (host : Host) : Prop :=
  ∀ text, host.takes qweL text = true ∧ host.takes qweV text = true

/-- The shell in the loop, with a line read and decoded. -/
def readShell (s : Sh) (name value rest : Bytes) : Sh :=
  (Sh.assign { s with stdin := rest } qweL (name ++ 61 :: escapeValue value)).assign qweV
    (value ++ [46])

/-- The shell behind one line. -/
def afterLine (s : Sh) (name value rest : Bytes) : Sh :=
  (readShell s name value rest).exportAs name value

section Loop
variable (free : LoopFree host)

include free

/-- A line that the kernel has written is read, and its variable is exported or refused. -/
theorem runs_body {s : Sh} {name value rest : Bytes} (accepted : nameOk name = true)
    (input : s.stdin = preambleLine name value ++ rest) :
    Runs host (.read qweL) s (.next 0)
        (Sh.assign { s with stdin := rest } qweL (name ++ 61 :: escapeValue value)) ∧
      Runs host loopBody (Sh.assign { s with stdin := rest } qweL (name ++ 61 :: escapeValue value))
        (if host.takes name value then .next 0 else .exited 2)
        (if host.takes name value then afterLine s name value rest
          else readShell s name value rest) := by
  have absent : 10 ∉ name ++ 61 :: escapeValue value := by
    simp only [List.mem_append, List.mem_cons, not_or]
    exact ⟨notMem_of_nameOk accepted (by decide), by decide, newline_notMem_escapeValue value⟩
  have cut : s.stdin = name ++ 61 :: escapeValue value ++ 10 :: rest := by
    rw [input, preambleLine, List.append_assoc]
    rfl
  have read : Runs host (.read qweL) s _ _ := Runs.read s qweL
  rw [readLine_line absent cut (free _).1] at read
  have line := value_assign { s with stdin := rest } qweL (name ++ 61 :: escapeValue value)
  have kept := value_assign_other
    (Sh.assign { s with stdin := rest } qweL (name ++ 61 :: escapeValue value))
    qweL_ne_qweV (value ++ [46])
  exact ⟨read, Runs.seq (runs_stopAtEmpty line) (Runs.seq
    (runs_decodeValue accepted line (free _).2)
    (runs_exportLine accepted (kept.trans line) (value_assign _ _ _)))⟩

/-- A line that the kernel has written exports its variable. -/
theorem runs_line {s final : Sh} {name value rest : Bytes} {flow : Flow}
    (accepted : nameOk name = true) (input : s.stdin = preambleLine name value ++ rest)
    (taken : host.takes name value = true)
    (again : Runs host bootstrapLoop (afterLine s name value rest) flow final) :
    Runs host bootstrapLoop s flow final := by
  obtain ⟨read, body⟩ := runs_body free accepted input
  rw [if_pos taken, if_pos taken] at body
  exact Runs.while_again read body again

/-- The empty line ends the loop. -/
theorem runs_end {s : Sh} {data : Bytes} (input : s.stdin = 10 :: data) :
    Runs host bootstrapLoop s (.next 0) (Sh.assign { s with stdin := data } qweL []) := by
  have read : Runs host (.read qweL) s _ _ := Runs.read s qweL
  have empty : 10 ∉ ([] : Bytes) := List.not_mem_nil
  rw [readLine_line empty input (free _).1] at read
  have tested := Runs.nonempty
    (expands_alone host (Sh.assign { s with stdin := data } qweL []) qweL .whole)
  rw [Trim.apply, value_assign, if_pos rfl] at tested
  exact Runs.while_left read (Runs.seq_left (Runs.orElse_failed tested (Runs.leave _)))

/-- The loop reads the lines of all variables and the empty line.  Any other variable
than its own two is as the lines have set it, or as it was. -/
theorem runs_bootstrapLoop {vars : List (CStr × CStr)} (distinct : (vars.map Prod.fst).Nodup)
    (accepted : ∀ v ∈ vars, nameOk v.1.val = true)
    (taken : ∀ v ∈ vars, host.takes v.1.val v.2.val = true) {s : Sh} {data : Bytes}
    (input : s.stdin = (vars.flatMap fun v => preambleLine v.1.val v.2.val) ++ 10 :: data) :
    ∃ final, Runs host bootstrapLoop s (.next 0) final ∧ final.stdin = data ∧
      final.args = s.args ∧
      (∀ v ∈ vars, v.1.val ≠ qweL → v.1.val ≠ qweV → final.vars v.1.val = some ⟨v.2.val, true⟩) ∧
      ∀ name, name ≠ qweL → name ≠ qweV → (∀ v ∈ vars, v.1.val ≠ name) →
        final.vars name = s.vars name := by
  induction vars generalizing s with
  | nil =>
      refine ⟨_, runs_end free input, rfl, rfl, by simp, ?_⟩
      intro name notL notV _
      exact Function.update_of_ne notL _ _
  | cons v vars inductionHypothesis =>
      obtain ⟨fresh, others⟩ := List.nodup_cons.mp distinct
      rw [List.forall_mem_cons] at accepted taken
      rw [List.flatMap_cons, List.append_assoc] at input
      obtain ⟨final, ran, unread, args, exported, kept⟩ :=
        inductionHypothesis others accepted.2 taken.2 (s := afterLine s v.1.val v.2.val _) rfl
      refine ⟨final, runs_line free accepted.1 input taken.1 ran, unread, args, ?_, ?_⟩
      · intro w member notL notV
        rcases List.mem_cons.mp member with rfl | later
        · -- no later line has this name again
          have absent : ∀ u ∈ vars, u.1.val ≠ w.1.val := fun u inside same =>
            fresh (List.mem_map.mpr ⟨u, inside, Subtype.ext same⟩)
          rw [kept w.1.val notL notV absent]
          exact Function.update_self _ _ _
        · exact exported w later notL notV
      · intro name notL notV absent
        rw [kept name notL notV fun u inside => absent u (by simp [inside])]
        have other : name ≠ v.1.val := fun same => absent v (by simp) same.symm
        simp only [afterLine, readShell, Sh.exportAs, Sh.assign, Function.update_of_ne other,
          Function.update_of_ne notL, Function.update_of_ne notV]

/-- A value that the shell does not take ends it in the loop. -/
theorem runs_refused {vars : List (CStr × CStr)} (accepted : ∀ v ∈ vars, nameOk v.1.val = true)
    (refused : ∃ v ∈ vars, host.takes v.1.val v.2.val = false) {s : Sh} {data : Bytes}
    (input : s.stdin = (vars.flatMap fun v => preambleLine v.1.val v.2.val) ++ 10 :: data) :
    ∃ final, Runs host bootstrapLoop s (.exited 2) final := by
  induction vars generalizing s with
  | nil =>
      obtain ⟨v, member, -⟩ := refused
      cases member
  | cons v vars inductionHypothesis =>
      rw [List.forall_mem_cons] at accepted
      rw [List.flatMap_cons, List.append_assoc] at input
      cases taken : host.takes v.1.val v.2.val with
      | true =>
          have later : ∃ w ∈ vars, host.takes w.1.val w.2.val = false := by
            obtain ⟨w, member, not_⟩ := refused
            rcases List.mem_cons.mp member with rfl | member
            · rw [taken] at not_
              cases not_
            · exact ⟨w, member, not_⟩
          obtain ⟨final, ran⟩ :=
            inductionHypothesis accepted.2 later (s := afterLine s v.1.val v.2.val _) rfl
          exact ⟨final, runs_line free accepted.1 input taken ran⟩
      | false =>
          obtain ⟨read, body⟩ := runs_body free accepted.1 input
          rw [if_neg (by simp [taken]), if_neg (by simp [taken])] at body
          exact ⟨_, Runs.while_exited read body⟩

end Loop

end Host

/-! ## The whole bootstrap -/

theorem preambleBuild_ok {vars : List (CStr × CStr)}
    (accepted : ∀ v ∈ vars, nameOk v.1.val = true) :
    preambleBuild vars = .ok ((vars.flatMap fun v => preambleLine v.1.val v.2.val) ++ [10]) := by
  have none_bad : vars.findIdx? (fun v => !nameOk v.1.val) = none := by
    rw [List.findIdx?_eq_none_iff]
    intro v member
    rw [accepted v member]
    rfl
  rw [preambleBuild, none_bad]

/-- The shell as it is started: `sh -c <bootstrap> sh <script>`. -/
def started (inherited : Bytes → Option Var) (script stdin : Bytes) : Sh :=
  ⟨inherited, [script], stdin, []⟩

/-- The variables of the shell with those of the list exported and the loop's own two
gone. -/
def declared (vars : List (CStr × CStr)) (inherited : Bytes → Option Var) (name : Bytes) :
    Option Var :=
  if name = qweL ∨ name = qweV then none
  else match vars.find? fun v => v.1.val = name with
    | some v => some ⟨v.2.val, true⟩
    | none => inherited name

/-- The shell at the last `exec`. -/
def scriptShell (vars : List (CStr × CStr)) (inherited : Bytes → Option Var)
    (script data : Bytes) : Sh :=
  ⟨declared vars inherited, [script], data, []⟩

def scriptArgv (script : Bytes) : List Bytes := [bytes "sh", bytes "-c", script]

theorem find?_of_mem {vars : List (CStr × CStr)} (distinct : (vars.map Prod.fst).Nodup)
    {v : CStr × CStr} (member : v ∈ vars) : vars.find? (fun w => w.1.val = v.1.val) = some v := by
  induction vars with
  | nil => cases member
  | cons w vars inductionHypothesis =>
      obtain ⟨fresh, others⟩ := List.nodup_cons.mp distinct
      rcases List.mem_cons.mp member with rfl | later
      · simp
      · have other : ¬w.1.val = v.1.val := fun same =>
          fresh (List.mem_map.mpr ⟨v, later, (Subtype.ext same).symm⟩)
        rw [List.find?_cons_of_neg (by simpa using other), inductionHypothesis others later]

theorem declared_of_mem {vars : List (CStr × CStr)} (distinct : (vars.map Prod.fst).Nodup)
    (inherited : Bytes → Option Var) {v : CStr × CStr} (member : v ∈ vars)
    (free : v.1.val ≠ qweL ∧ v.1.val ≠ qweV) :
    declared vars inherited v.1.val = some ⟨v.2.val, true⟩ := by
  rw [declared, if_neg (by simp [free]), find?_of_mem distinct member]

section Bootstrap
variable {host : Host} (free : LoopFree host) {vars : List (CStr × CStr)}
  (distinct : (vars.map Prod.fst).Nodup) (accepted : ∀ v ∈ vars, nameOk v.1.val = true)

include free distinct accepted

/-- Where the shell takes every value, it comes to the last `exec` with the list's
variables and the data unread. -/
theorem runs_to_exec (taken : ∀ v ∈ vars, host.takes v.1.val v.2.val = true)
    (inherited : Bytes → Option Var) (script data : Bytes) :
    ∃ last, last.vars = declared vars inherited ∧ last.args = [script] ∧ last.stdin = data ∧
      ∀ flow final,
        Runs host (.exec [[.text (bytes "sh")], [.text (bytes "-c")], [.arg 0]]) last flow final →
        Runs host bootstrap (started inherited script
          ((vars.flatMap fun v => preambleLine v.1.val v.2.val) ++ [10] ++ data)) flow final := by
  obtain ⟨looped, ran, unread, args, exported, kept⟩ :=
    runs_bootstrapLoop free distinct accepted taken (List.append_assoc _ _ _)
      (s := started inherited script
        ((vars.flatMap fun v => preambleLine v.1.val v.2.val) ++ [10] ++ data))
  refine ⟨looped.unset [qweL, qweV], ?_, args, unread,
    fun flow final ends => Runs.seq ran (Runs.seq (Runs.unset _ _) ends)⟩
  funext name
  have left : (looped.unset [qweL, qweV]).vars name
      = if name = qweL ∨ name = qweV then none else looped.vars name := by
    simp [Sh.unset]
  rw [left, declared]
  by_cases own : name = qweL ∨ name = qweV
  · rw [if_pos own, if_pos own]
  rw [if_neg own, if_neg own]
  rw [not_or] at own
  cases found : vars.find? fun v => v.1.val = name with
  | some v =>
      have same : v.1.val = name := by simpa using List.find?_some found
      subst same
      exact exported v (List.mem_of_find?_eq_some found) own.1 own.2
  | none =>
      have absent : ∀ v ∈ vars, v.1.val ≠ name := by simpa using found
      exact kept name own.1 own.2 absent

/-- The bootstrap ends in the script, with the list's variables and the data unread, or
with a status: in the loop when the shell does not take some value, or at the `exec`. -/
theorem runs_bootstrap (inherited : Bytes → Option Var) (script data : Bytes) :
    ∃ flow final, Runs host bootstrap (started inherited script
        ((vars.flatMap fun v => preambleLine v.1.val v.2.val) ++ [10] ++ data)) flow final ∧
      if (∀ v ∈ vars, host.takes v.1.val v.2.val = true) ∧
          host.refuses (scriptShell vars inherited script data).path (scriptArgv script)
            (scriptShell vars inherited script data).environ = none
      then flow = .replaced (scriptArgv script) ∧ final.vars = declared vars inherited ∧
        final.stdin = data
      else ∃ status, flow = .exited status := by
  by_cases taken : ∀ v ∈ vars, host.takes v.1.val v.2.val = true
  swap
  · have refused : ∃ v ∈ vars, host.takes v.1.val v.2.val = false := by simpa using taken
    obtain ⟨final, ran⟩ := runs_refused free accepted refused (List.append_assoc _ _ _)
      (s := started inherited script
        ((vars.flatMap fun v => preambleLine v.1.val v.2.val) ++ [10] ++ data))
    refine ⟨_, final, Runs.seq_exited ran, ?_⟩
    rw [if_neg (fun both => taken both.1)]
    exact ⟨2, rfl⟩
  obtain ⟨last, declares, args, unread, goesOn⟩ :=
    runs_to_exec free distinct accepted taken inherited script data
  have argv (fuel : Nat) : expandAll (run host fuel) last
      [[.text (bytes "sh")], [.text (bytes "-c")], [.arg 0]] = some (scriptArgv script, last) := by
    simp [expandAll, expand, expandPiece, args, scriptArgv]
  have path : last.path = (scriptShell vars inherited script data).path := by
    rw [Sh.path, declares]
    rfl
  have environ : last.environ = (scriptShell vars inherited script data).environ := by
    funext name
    rw [Sh.environ, declares]
    rfl
  rw [← path, ← environ]
  cases refused : host.refuses last.path (scriptArgv script) last.environ with
  | none =>
      refine ⟨_, last, goesOn _ _ (Runs.exec 0 (fun fuel _ => argv fuel) refused), ?_⟩
      rw [if_pos ⟨taken, rfl⟩]
      exact ⟨rfl, declares, unread⟩
  | some status =>
      refine ⟨_, last, goesOn _ _ (Runs.exec_refused 0 (fun fuel _ => argv fuel) refused), ?_⟩
      rw [if_neg (by simp)]
      exact ⟨status, rfl⟩

end Bootstrap

/-- The round trip: what the kernel has built, followed by any data, leaves every listed
variable exported with its value when the script is started, and the data unread. -/
def RoundTrips (host : Host) (vars : List (CStr × CStr)) (inherited : Bytes → Option Var)
    (script data : Bytes) : Prop :=
  ∃ out final, preambleBuild vars = .ok out ∧
    Runs host bootstrap (started inherited script (out ++ data)) (.replaced (scriptArgv script))
      final ∧
    (∀ v ∈ vars, final.environ v.1.val = some v.2.val) ∧ final.stdin = data

/-- The preamble makes its round trip exactly when no variable of the list has one of the
names that the loop uses, the shell takes the value of each, and `sh` is started with
them. -/
theorem preamble_round_trip_iff (host : Host) (free : LoopFree host) (vars : List (CStr × CStr))
    (distinct : (vars.map Prod.fst).Nodup) (accepted : ∀ v ∈ vars, nameOk v.1.val = true)
    (inherited : Bytes → Option Var) (script data : Bytes) :
    RoundTrips host vars inherited script data ↔
      (∀ v ∈ vars, (v.1.val ≠ qweL ∧ v.1.val ≠ qweV) ∧ host.takes v.1.val v.2.val = true) ∧
        host.refuses (scriptShell vars inherited script data).path (scriptArgv script)
          (scriptShell vars inherited script data).environ = none := by
  obtain ⟨flow, final, ran, ends⟩ := runs_bootstrap free distinct accepted inherited script data
  constructor
  · rintro ⟨out, other, built, also, all, -⟩
    rw [preambleBuild_ok accepted] at built
    cases built
    obtain ⟨rfl, rfl⟩ := Runs.unique ran also
    split at ends
    · rename_i starts
      refine ⟨fun v member => ⟨?_, starts.1 v member⟩, starts.2⟩
      have own := all v member
      by_contra used
      have gone : declared vars inherited v.1.val = none := by
        rw [declared, if_pos (by tauto)]
      simp [Sh.environ, ends.2.1, gone] at own
    · obtain ⟨status, exits⟩ := ends
      cases exits
  · rintro ⟨all, starts⟩
    rw [if_pos ⟨fun v member => (all v member).2, starts⟩] at ends
    obtain ⟨rfl, declares, unread⟩ := ends
    refine ⟨_, final, preambleBuild_ok accepted, ran, fun v member => ?_, unread⟩
    rw [Sh.environ, declares, declared_of_mem distinct inherited member (all v member).1]

/-- dash, on a system that has it as `/bin/sh` and starts it with any arguments and
environment. -/
def binSh : Host where
  takes := dashTakes
  refuses path argv _ :=
    if argv.head? = some (bytes "sh") ∧
        ((path.getD (bytes "/bin")).splitOn 58).any (fun directory => directory = bytes "/bin")
    then none else some 127

theorem loopFree_binSh : LoopFree binSh := fun _ => ⟨rfl, rfl⟩

/-- `A` with a value of two lines, the second of which ends in a backslash, and an
`OPTIND` and a `PATH` that the shell can use. -/
def twoLines : List (CStr × CStr) :=
  [(⟨bytes "A", by decide⟩, ⟨bytes "x=1\n.\\", by decide⟩),
   (⟨bytes "B", by decide⟩, ⟨[], by decide⟩),
   (⟨bytes "OPTIND", by decide⟩, ⟨bytes "2", by decide⟩),
   (⟨bytes "PATH", by decide⟩, ⟨bytes "/usr/bin:/bin", by decide⟩)]

theorem preamble_round_trip_twoLines :
    RoundTrips binSh twoLines (fun _ => none) (bytes "cat") (bytes "\nrest") :=
  (preamble_round_trip_iff binSh loopFree_binSh twoLines (by decide) (by decide) _ _ _).mpr
    ⟨by decide, by decide⟩

/-- A variable with the name of the line that is read. -/
def lineVar : List (CStr × CStr) := [(⟨qweL, by decide⟩, ⟨bytes "1", by decide⟩)]

theorem preamble_loses_qweL :
    (lineVar.map Prod.fst).Nodup ∧ (∀ v ∈ lineVar, nameOk v.1.val = true) ∧
      ¬ RoundTrips binSh lineVar (fun _ => none) (bytes "env") [] := by
  have distinct : (lineVar.map Prod.fst).Nodup := by decide
  have accepted : ∀ v ∈ lineVar, nameOk v.1.val = true := by decide
  refine ⟨distinct, accepted, ?_⟩
  rintro ⟨out, other, built, also, all, -⟩
  obtain ⟨flow, final, ran, ends⟩ :=
    runs_bootstrap loopFree_binSh distinct accepted (fun _ => none) (bytes "env") []
  rw [preambleBuild_ok accepted] at built
  cases built
  obtain ⟨rfl, rfl⟩ := Runs.unique ran also
  rw [if_pos (by decide)] at ends
  have own := all (⟨qweL, by decide⟩, ⟨bytes "1", by decide⟩) (by simp [lineVar])
  rw [Sh.environ, ends.2.1] at own
  cases own

end Qwe.Kernel.Preamble
