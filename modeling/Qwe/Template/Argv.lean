import Qwe.Lib.CutTexts
import Qwe.Lua.Value
import Qwe.Template.Resolve

/-!
# Command lines

`prefix` of `src/kernel/lua/become.lua`, the translation of a script by the two
backends (`backend_local/local.lua` and `backend-ssh/ssh.lua`), and the argv of
a `run:` step as `run_step` of `src/kernel/lua/plugins.lua` makes it and
`child_argv` of `src/kernel/workflow.c` copies it.  The command's stdin, which
carries the env, is not part of it.
-/

set_option autoImplicit false

namespace Qwe.Template

open Qwe.Lua (cString cString_eq_self)
open Qwe.Redact (Bytes)

/-- `prefix`: the words before the command for a step's `become:` value. -/
def prefixOf : Option Become → List Bytes
  | none => []
  | some (.flag false) => []
  | some (.flag true) => [bytes "sudo", bytes "-n"]
  | some (.user name) => [bytes "sudo", bytes "-n", bytes "-u", name]
  | some (.uid n) => [bytes "sudo", bytes "-n", bytes "-u", bytes "#" ++ formatInt n]

/-- `qwe_preamble_bootstrap` -/
def bootstrap : Bytes :=
  bytes "while IFS= read -r qwe_l; do\n" ++
  bytes "  [ -n \"$qwe_l\" ] || break\n" ++
  bytes "  qwe_v=$(printf '%b.' \"$\x7bqwe_l#*=\x7d\") || exit 125\n" ++
  bytes "  export \"$\x7bqwe_l%%=*\x7d=$\x7bqwe_v%.\x7d\"\n" ++
  bytes "done\n" ++
  bytes "unset qwe_l qwe_v\n" ++
  bytes "exec sh -c \"$1\"\n"

/-! ## The local backend -/

/-- The argv of `Backend:command`. -/
def localArgv (become : Option Become) (script : Bytes) : List Bytes :=
  prefixOf become ++ [bytes "sh", bytes "-c", bootstrap, bytes "sh", script]

/-! ## The ssh backend -/

/-- One byte between single quotes. -/
def quoteByte (b : UInt8) : Bytes := if b = 39 then [39, 92, 39, 39] else [b]

/-- `quote`: one word for a POSIX shell. -/
def quote (s : Bytes) : Bytes := 39 :: s.flatMap quoteByte ++ [39]

/-- `[A-Za-z0-9_./=+-]` -/
def isPlainByte (b : UInt8) : Bool :=
  isLetter b || isDigit b || b == 95 || [46, 47, 61, 43, 45].contains b

/-- `word`: a word that needs no quoting stays as it is. -/
def word (s : Bytes) : Bytes :=
  if s ≠ [] ∧ s.all isPlainByte = true then s else quote s

/-- `client`: the options every client of a master takes. -/
def client (sock : Bytes) : List Bytes :=
  [bytes "ssh", bytes "-S", sock, bytes "-o", bytes "ControlMaster=no", bytes "-o",
    bytes "BatchMode=yes"]

/-- The words of the remote command. -/
def remoteWords (become : Option Become) (script : Bytes) : List Bytes :=
  (prefixOf become).map word ++
    [bytes "sh -c " ++ quote bootstrap ++ bytes " sh " ++ quote script]

/-- `command_argv` -/
def commandArgv (host sock script : Bytes) (become : Option Become) : List Bytes :=
  client sock ++ [bytes "-o", bytes "ProxyCommand=false", host, bytes "--",
    (bytes " ").intercalate (remoteWords become script)]

/-! ## The argv of a `run:` step -/

/-- The backend that `run_step` picks.  Without an ssh target of that name there
is no connection and no command. -/
def scriptArgv (inventory : Inventory) (session : Session) (target : Option Bytes)
    (become : Option Become) (script : Bytes) : Option (List Bytes) :=
  match target with
  | none => some (localArgv become script)
  | some name =>
      (inventory.targets.lookup name).map fun t =>
        commandArgv t.host (session.sock name) script become

/-- The argv of step `i` of a job, for a `run:` step that starts.  `child_argv` copies
each word with `strdup`, up to its first NUL. -/
def runArgv (project : Project) (session : Session) (run : Run) (jobId : Bytes) (job : Job)
    (i : Nat) : Option (List Bytes) :=
  (job.steps[i]?).bind fun step =>
    (resolvedStep project session run jobId job i step).bind fun resolved =>
      resolved.run.bind fun script =>
        (scriptArgv project.inventory session resolved.target resolved.become script).map
          fun words => words.map cString

/-! ## What a word shows -/

/-- `strdup` of a text that is put together. -/
theorem cString_append (s t : Bytes) :
    cString (s ++ t) = if 0 ∈ s then cString s else s ++ cString t :=
  CutTexts.cut_append s t

theorem cString_append_clean {s : Bytes} (clean : 0 ∉ s) (t : Bytes) :
    cString (s ++ t) = s ++ cString t :=
  CutTexts.cut_append_clean clean t

theorem quoteByte_inj_head {a b : UInt8} {as bs : Bytes}
    (same : quoteByte a ++ as = quoteByte b ++ bs) : a = b ∧ as = bs := by
  unfold quoteByte at same
  split_ifs at same with left right right
  · simp only [List.cons_append, List.nil_append, List.cons.injEq, true_and] at same
    exact ⟨left.trans right.symm, same⟩
  · simp only [List.cons_append, List.nil_append, List.cons.injEq] at same
    exact absurd same.1.symm right
  · simp only [List.cons_append, List.nil_append, List.cons.injEq] at same
    exact absurd same.1 left
  · simp only [List.cons_append, List.nil_append, List.cons.injEq] at same
    exact same

theorem quoteByte_ne_nil (b : UInt8) : quoteByte b ≠ [] := by
  unfold quoteByte
  split_ifs
  · exact List.cons_ne_nil _ _
  · exact List.cons_ne_nil _ _

theorem zero_mem_quoteByte {b : UInt8} : 0 ∈ quoteByte b ↔ b = 0 := by
  unfold quoteByte
  split_ifs with own
  · rw [own]
    decide
  · rw [List.mem_singleton, eq_comm]

/-- The closing quote, unless a NUL comes before it. -/
def closing (s : Bytes) : Bytes := if 0 ∈ s then [] else [39]

theorem cString_quote (s : Bytes) :
    cString (quote s) = 39 :: ((cString s).flatMap quoteByte ++ closing s) := by
  have tail : ∀ s : Bytes, cString (s.flatMap quoteByte ++ [39])
      = (cString s).flatMap quoteByte ++ closing s := by
    intro s
    induction s with
    | nil => rfl
    | cons b s inductionHypothesis =>
        rw [List.flatMap_cons, List.append_assoc]
        by_cases nul : b = 0
        · rw [nul]
          rfl
        · have clean : 0 ∉ quoteByte b := zero_mem_quoteByte.not.mpr nul
          have rest : cString (b :: s) = b :: cString s :=
            cString_append_clean (s := [b]) (by simpa using fun zero : 0 = b => nul zero.symm) s
          have closes : closing (b :: s) = closing s := by
            simp only [closing, List.mem_cons, eq_comm (a := (0 : UInt8)), nul, false_or]
          rw [cString_append_clean clean, inductionHypothesis, rest, List.flatMap_cons, closes,
            List.append_assoc]
  rw [quote, List.cons_append]
  exact (cString_append_clean (s := [39]) (by decide) _).trans (congrArg _ (tail s))

theorem flatMap_quoteByte_injective : ∀ {s t e f : Bytes}, (e = [] ∨ e = [39]) →
    (f = [] ∨ f = [39]) → s.flatMap quoteByte ++ e = t.flatMap quoteByte ++ f → s = t ∧ e = f
  | [], [], _, _, _, _, same => ⟨rfl, same⟩
  | [], b :: t, e, f, left, _, same => by
      rw [List.flatMap_cons, List.flatMap_nil, List.nil_append, List.append_assoc] at same
      rcases left with rfl | rfl
      · exact absurd (List.append_eq_nil_iff.mp same.symm).1 (quoteByte_ne_nil b)
      · unfold quoteByte at same
        split_ifs at same with own
        · cases same
        · rw [List.singleton_append, List.cons.injEq] at same
          exact absurd same.1.symm own
  | a :: s, [], e, f, _, right, same => by
      rw [List.flatMap_cons, List.flatMap_nil, List.nil_append, List.append_assoc] at same
      rcases right with rfl | rfl
      · exact absurd (List.append_eq_nil_iff.mp same).1 (quoteByte_ne_nil a)
      · unfold quoteByte at same
        split_ifs at same with own
        · cases same
        · rw [List.singleton_append, List.cons.injEq] at same
          exact absurd same.1 own
  | a :: s, b :: t, e, f, left, right, same => by
      rw [List.flatMap_cons, List.flatMap_cons, List.append_assoc, List.append_assoc] at same
      obtain ⟨heads, tails⟩ := quoteByte_inj_head same
      obtain ⟨rests, ends⟩ := flatMap_quoteByte_injective left right tails
      exact ⟨by rw [heads, rests], ends⟩

theorem closing_cases (s : Bytes) : closing s = [] ∨ closing s = [39] := by
  unfold closing
  split_ifs
  · exact .inl rfl
  · exact .inr rfl

/-- A quoted script, cut at its first NUL, shows the script up to there. -/
theorem cString_quote_injective {s t : Bytes} (same : cString (quote s) = cString (quote t)) :
    cString s = cString t := by
  rw [cString_quote, cString_quote, List.cons.injEq] at same
  exact (flatMap_quoteByte_injective (closing_cases s) (closing_cases t) same.2).1

/-! ## The script shows in the argv -/

theorem intercalate_words (words : List Bytes) (last : Bytes) :
    (bytes " ").intercalate (words.map word ++ [last])
      = words.flatMap (fun s => word s ++ [32]) ++ last := by
  induction words with
  | nil => simp [List.intercalate]
  | cons s words inductionHypothesis =>
      rw [List.map_cons, List.cons_append, List.flatMap_cons, List.append_assoc,
        ← inductionHypothesis]
      cases words with
      | nil => rw [List.map_nil, List.nil_append, List.intercalate_cons_cons]; rfl
      | cons next words => rw [List.map_cons, List.cons_append, List.intercalate_cons_cons]; rfl

/-- What stands before the script in the remote command. -/
def remoteLead (become : Option Become) : Bytes :=
  (prefixOf become).flatMap (fun s => word s ++ [32]) ++
    (bytes "sh -c " ++ quote bootstrap ++ bytes " sh ")

theorem remoteCommand_eq (become : Option Become) (script : Bytes) :
    (bytes " ").intercalate (remoteWords become script) = remoteLead become ++ quote script := by
  rw [remoteWords, intercalate_words, remoteLead, List.append_assoc (List.flatMap _ _)]

/-- A user in `become:` has no NUL in his name. -/
def Clean (become : Option Become) : Prop := ∀ word ∈ prefixOf become, (0 : UInt8) ∉ word

theorem zero_notMem_word {s : Bytes} (clean : 0 ∉ s) : 0 ∉ word s := by
  unfold word
  split_ifs
  · exact clean
  · simp only [quote, List.mem_append, List.mem_cons, List.mem_flatMap, zero_mem_quoteByte,
      List.not_mem_nil, or_false, not_or, not_exists, not_and]
    refine ⟨⟨by decide, ?_⟩, by decide⟩
    rintro b inside rfl
    exact clean inside

theorem zero_notMem_remoteLead {become : Option Become} (clean : Clean become) :
    0 ∉ remoteLead become := by
  rw [remoteLead, List.mem_append, not_or]
  refine ⟨?_, by decide⟩
  intro inside
  obtain ⟨s, listed, inside⟩ := List.mem_flatMap.mp inside
  rw [List.mem_append] at inside
  rcases inside with inside | blank
  · exact zero_notMem_word (clean s listed) inside
  · exact absurd blank (by decide)

section Shown

variable {inventory : Inventory} {session : Session} {target : Option Bytes}
  {become : Option Become} {s t : Bytes}

/-- The argv of a script depends on no more than what its word shows. -/
theorem scriptArgv_congr (shown : cString s = cString t) (more : 0 ∈ s ↔ 0 ∈ t) :
    (scriptArgv inventory session target become s).map (fun words => words.map cString)
      = (scriptArgv inventory session target become t).map (fun words => words.map cString) := by
  have quoted : cString (remoteLead become ++ quote s) = cString (remoteLead become ++ quote t) := by
    have closes : closing s = closing t := by simp only [closing, more]
    rw [cString_append, cString_append, cString_quote, cString_quote, shown, closes]
  cases target with
  | none => simp only [scriptArgv, localArgv, Option.map_some, List.map_append, List.map_cons, shown]
  | some name =>
      simp only [scriptArgv, Option.map_map]
      cases inventory.targets.lookup name with
      | none => rfl
      | some t =>
          simp only [commandArgv, remoteCommand_eq, Option.map_some, Function.comp,
            List.map_append, List.map_cons, quoted]

/-- Two scripts with one argv are the same up to the first NUL. -/
theorem scriptArgv_shows (clean : Clean become)
    (built : (scriptArgv inventory session target become s).isSome)
    (same : (scriptArgv inventory session target become s).map (fun words => words.map cString)
      = (scriptArgv inventory session target become t).map fun words => words.map cString) :
    cString s = cString t := by
  cases target with
  | none =>
      simp only [scriptArgv, localArgv, Option.map_some, Option.some.injEq, List.map_append,
        List.map_cons, List.append_cancel_left_eq, List.cons.injEq] at same
      exact same.2.2.2.2.1
  | some name =>
      simp only [scriptArgv, Option.map_map] at same built
      cases found : inventory.targets.lookup name with
      | none => rw [found] at built; cases built
      | some host =>
          rw [found] at same
          simp only [commandArgv, remoteCommand_eq, Option.map_some, Function.comp,
            Option.some.injEq, List.map_append, List.map_cons, List.append_cancel_left_eq,
            List.cons.injEq] at same
          have last := same.2.2.2.2.1
          rw [cString_append_clean (zero_notMem_remoteLead clean),
            cString_append_clean (zero_notMem_remoteLead clean)] at last
          exact cString_quote_injective (List.append_cancel_left last)

end Shown

end Qwe.Template
