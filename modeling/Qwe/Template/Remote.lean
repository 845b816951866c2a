import Qwe.Lib.Words
import Qwe.Template.Argv

/-!
# The remote command

What `command_argv` and `kill_argv` of `backend-ssh/ssh.lua` send is one word for the remote
shell.  Split into words again it is the command that was meant: the argv of the local backend,
and the killer with its two arguments.
-/

set_option autoImplicit false

namespace Qwe.Template

open Qwe.Redact (Bytes)

/-! ## Stopping a step -/

/-- `KILLER` -/
def killer : Bytes :=
  bytes "tok=$1; sig=$2\n" ++
  bytes "for d in /proc/[0-9]*; do\n" ++
  bytes "  tr '\\0' '\\n' < \"$d/environ\" 2>/dev/null | grep -qx \"QWE_STEP=$tok\" && " ++
  bytes "kill -\"$sig\" \"$\x7bd#/proc/\x7d\" 2>/dev/null\n" ++
  bytes "done\n" ++
  bytes "exit 0\n"

/-- The remote command of `kill_argv`. -/
def killWords (token signal : Bytes) : Bytes :=
  bytes "sh -c " ++ quote killer ++ bytes " sh " ++ quote token ++ bytes " " ++ quote signal

/-- `kill_argv` -/
def killArgv (host sock token signal : Bytes) : List Bytes :=
  client sock ++ [bytes "-o", bytes "ConnectTimeout=5", host, bytes "--", killWords token signal]

/-! ## Quoting -/

section Quoting
variable {done : List Bytes} {s : Bytes}

theorem scan_quoteBytes (done : List Bytes) (begun s rest : Bytes) :
    Words.scan .single done (some begun) (s.flatMap quoteByte ++ 39 :: rest)
      = Words.scan .bare done (some (begun ++ s)) rest := by
  induction s generalizing begun with
  | nil => rw [List.flatMap_nil, List.nil_append, Words.scan_close, List.append_nil]
  | cons b s inductionHypothesis =>
      rw [List.flatMap_cons, List.append_assoc]
      by_cases own : b = 39
      · rw [quoteByte, if_pos own]
        change Words.scan .single done (some begun)
          (39 :: 92 :: 39 :: 39 :: (s.flatMap quoteByte ++ 39 :: rest)) = _
        rw [Words.scan_escaped, inductionHypothesis, own, List.append_assoc, List.singleton_append]
      · rw [quoteByte, if_neg own, List.singleton_append, Words.scan_single own,
          inductionHypothesis, List.append_assoc, List.singleton_append]

/-- A quoted string is one word. -/
theorem scan_quote (done : List Bytes) (s rest : Bytes) :
    Words.scan .bare done none (quote s ++ rest) = Words.scan .bare done (some s) rest := by
  have spelled : quote s ++ rest = 39 :: (s.flatMap quoteByte ++ 39 :: rest) := by simp [quote]
  rw [spelled, Words.scan_open, scan_quoteBytes]
  rfl

theorem ordinary_of_plain {b : UInt8} (plain : isPlainByte b = true) :
    Words.Ordinary b ∧ b ≠ 35 ∧ b ≠ 126 := by
  have other {c : UInt8} (quoted : isPlainByte c = false) : b ≠ c := by
    rintro rfl
    exact Bool.false_ne_true (quoted.symm.trans plain)
  have special : b ∉ Words.special := by
    have quoted : (Words.special.all fun c => !isPlainByte c) = true := by decide
    exact fun inside => other (by simpa using List.all_eq_true.mp quoted b inside) rfl
  exact ⟨⟨special, other (by decide), other (by decide), other (by decide), other (by decide),
    other (by decide)⟩, other (by decide), other (by decide)⟩

/-- And so is what `word` makes of it, where it is not taken for an assignment. -/
theorem scan_word_word (assigns : done = [] → 61 ∉ s) (rest : Bytes) :
    Words.scan .bare done none (word s ++ rest) = Words.scan .bare done (some s) rest := by
  unfold word
  by_cases plain : s ≠ [] ∧ s.all isPlainByte = true
  · rw [if_pos plain]
    obtain ⟨b, s, rfl⟩ := List.exists_cons_of_ne_nil plain.1
    have each : ∀ c ∈ b :: s, isPlainByte c = true := List.all_eq_true.mp plain.2
    exact Words.scan_word (fun c inside => (ordinary_of_plain (each c inside)).1)
      (ordinary_of_plain (each b List.mem_cons_self)).2 assigns
  · rw [if_neg plain, scan_quote]

end Quoting

/-! ## The commands -/

section Commands
variable {done : List Bytes}

theorem scan_shell (done : List Bytes) (rest : Bytes) :
    Words.scan .bare done none (bytes "sh -c " ++ rest)
      = Words.scan .bare (done ++ [bytes "sh", bytes "-c"]) none rest := by
  have spelled : bytes "sh -c " ++ rest
      = word (bytes "sh") ++ 32 :: (word (bytes "-c") ++ 32 :: rest) := rfl
  rw [spelled, scan_word_word fun _ => by decide, Words.scan_blank,
    scan_word_word fun _ => by decide, Words.scan_blank]
  simp

theorem scan_sh (done : List Bytes) (s rest : Bytes) :
    Words.scan .bare done (some s) (bytes " sh " ++ rest)
      = Words.scan .bare (done ++ [s, bytes "sh"]) none rest := by
  have spelled : bytes " sh " ++ rest = 32 :: (word (bytes "sh") ++ 32 :: rest) := rfl
  rw [spelled, Words.scan_blank, scan_word_word fun _ => by decide, Words.scan_blank]
  simp

/-- Words with a blank behind each. -/
theorem scan_words (nonempty : done ≠ []) (words : List Bytes) (rest : Bytes) :
    Words.scan .bare done none (words.flatMap (fun s => word s ++ [32]) ++ rest)
      = Words.scan .bare (done ++ words) none rest := by
  induction words generalizing done with
  | nil => rw [List.flatMap_nil, List.nil_append, List.append_nil]
  | cons s words inductionHypothesis =>
      rw [List.flatMap_cons, List.append_assoc, List.append_assoc,
        scan_word_word fun first => absurd first nonempty, List.singleton_append,
        Words.scan_blank, inductionHypothesis (by simp)]
      simp

/-- The words that every script comes with. -/
theorem scan_script (done : List Bytes) (script : Bytes) :
    Words.scan .bare done none
        (bytes "sh -c " ++ quote bootstrap ++ bytes " sh " ++ quote script)
      = some (done ++ [bytes "sh", bytes "-c", bootstrap, bytes "sh", script]) := by
  rw [List.append_assoc, List.append_assoc, scan_shell, scan_quote, scan_sh,
    ← List.append_nil (quote script), scan_quote, Words.scan_end]
  simp

theorem scan_prefix (become : Option Become) (rest : Bytes) :
    Words.scan .bare [] none
        ((prefixOf become).flatMap (fun s => word s ++ [32]) ++ rest)
      = Words.scan .bare (prefixOf become) none rest := by
  have begun (more : List Bytes) :
      Words.scan .bare [] none
        ((bytes "sudo" :: more).flatMap (fun s => word s ++ [32]) ++ rest)
        = Words.scan .bare (bytes "sudo" :: more) none rest := by
    rw [List.flatMap_cons, List.append_assoc, List.append_assoc, scan_word_word fun _ => by decide,
      List.singleton_append, Words.scan_blank, scan_words (by simp)]
    rfl
  match become with
  | none => rfl
  | some (.flag false) => rfl
  | some (.flag true) => exact begun _
  | some (.user name) => exact begun _
  | some (.uid n) => exact begun _

/-- A command begins with `sh` or with `sudo`. -/
theorem localArgv_first (become : Option Become) (script : Bytes) :
    ∃ first rest, localArgv become script = first :: rest ∧ first ∉ Words.reserved := by
  have shell : bytes "sh" ∉ Words.reserved := by decide
  have raised : bytes "sudo" ∉ Words.reserved := by decide
  match become with
  | none => exact ⟨_, _, rfl, shell⟩
  | some (.flag false) => exact ⟨_, _, rfl, shell⟩
  | some (.flag true) => exact ⟨_, _, rfl, raised⟩
  | some (.user name) => exact ⟨_, _, rfl, raised⟩
  | some (.uid n) => exact ⟨_, _, rfl, raised⟩

theorem split_remoteWords (become : Option Become) (script : Bytes) :
    Words.split ((bytes " ").intercalate (remoteWords become script))
      = some (localArgv become script) := by
  have scanned : Words.scan .bare [] none ((bytes " ").intercalate (remoteWords become script))
      = some (localArgv become script) := by
    rw [remoteWords, intercalate_words, scan_prefix, scan_script, localArgv]
  obtain ⟨first, rest, words, free⟩ := localArgv_first become script
  rw [words] at scanned ⊢
  exact Words.split_eq scanned free

theorem split_killWords (token signal : Bytes) :
    Words.split (killWords token signal)
      = some [bytes "sh", bytes "-c", killer, bytes "sh", token, signal] := by
  have scanned : Words.scan .bare [] none (killWords token signal)
      = some ([bytes "sh", bytes "-c"] ++ [killer, bytes "sh"] ++ [token, signal]) := by
    have blank : bytes " " ++ quote signal = 32 :: (quote signal ++ []) := by
      rw [List.append_nil]
      rfl
    rw [killWords, List.append_assoc, List.append_assoc, List.append_assoc, List.append_assoc,
      blank, scan_shell, scan_quote, scan_sh, scan_quote, Words.scan_blank, scan_quote,
      Words.scan_end]
    simp
  exact Words.split_eq scanned (by decide)

/-- The word that the remote shell is sent is the argv of the local backend, and the word of a
kill is the killer with its token and its signal. -/
theorem remote_words_split (host sock script token signal : Bytes) (become : Option Become) :
    ((commandArgv host sock script become).getLast?.bind Words.split
      = some (localArgv become script)) ∧
    ((killArgv host sock token signal).getLast?.bind Words.split
      = some [bytes "sh", bytes "-c", killer, bytes "sh", token, signal]) := by
  constructor
  · rw [← split_remoteWords become script]
    rfl
  · rw [← split_killWords token signal]
    rfl

end Commands

end Qwe.Template
