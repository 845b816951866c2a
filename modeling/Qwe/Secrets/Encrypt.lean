import Qwe.Kernel.ExitCode
import Qwe.Secrets.KeyFile

/-!
# Sealing and revealing a secret

`qwe encrypt` (`src/cli/encrypt/encrypt.c`) and `qwe.secrets.reveal`
(`src/kernel/luasecrets.c`) on one key file.  What `reveal` returns for the line that `encrypt`
prints is what `encrypt` read, without the newline at its end.
-/

set_option autoImplicit false

namespace Qwe.Secrets

open Qwe.Kernel (exitOk exitFailed exitUsage)
open Qwe.Redact (Bytes redactAdd)
open Qwe.Template (bytes)

/-! ## The command -/

/-- `MAX_PLAIN` -/
def maxPlain : Nat := 64 * 1024

/-- Why `read_stdin` returns nothing: -1 and -2. -/
inductive ReadFailure where
  | unreadable
  | tooLong
deriving DecidableEq, Repr

/-- The loop of `read_stdin`, with what each `read` returns: none is a failure, and no bytes
the end of the input, which follows the last one listed. -/
def readStdin (buf : Bytes) : List (Option Bytes) → Except ReadFailure Bytes
  | [] => .ok buf
  | none :: _ => .error .unreadable
  | some got :: later =>
      if got = [] then .ok buf
      else if maxPlain < (buf ++ got).length then .error .tooLong
      else readStdin (buf ++ got) later

/-- One newline at the end is not part of the secret. -/
def withoutNewline (plain : Bytes) : Bytes :=
  if plain.getLast? = some 10 then plain.dropLast else plain

/-- What a command leaves behind. -/
structure Outcome where
  code : Nat
  out : Bytes
  err : Bytes
deriving DecidableEq, Repr

/-- `qwe_cmd_encrypt` -/
def cmdEncrypt (crypto : Primitives) (nonce : Nonce) (argc : Nat) (sodium : Bool)
    (loaded : Except Bytes Key) (reads : List (Option Bytes)) : Outcome :=
  if argc ≠ 1 then
    ⟨exitUsage, [], bytes "qwe encrypt: takes no arguments: the plaintext is read from stdin, " ++
      bytes "so it never\nappears in a command line (echo -n \"...\" | qwe encrypt)\n"⟩
  else if sodium = false then ⟨exitFailed, [], bytes "qwe encrypt: cannot initialize libsodium\n"⟩
  else
    match loaded with
    | .error why => ⟨exitUsage, [], bytes "qwe encrypt: " ++ why ++ bytes "\n"⟩
    | .ok key =>
        match readStdin [] reads with
        | .error .tooLong =>
            ⟨exitUsage, [], bytes "qwe encrypt: the secret is longer than 65536 bytes\n"⟩
        | .error .unreadable => ⟨exitUsage, [], bytes "qwe encrypt: cannot read stdin\n"⟩
        | .ok plain =>
            match envelopeSeal crypto key nonce (withoutNewline plain) with
            | none => ⟨exitFailed, [], bytes "qwe encrypt: encryption failed\n"⟩
            | some envelope => ⟨exitOk, envelope ++ [10], []⟩

/-! ## Revealing -/

/-- What `luasecrets.c` keeps: the run's key once it is loaded, and the redactor's set. -/
structure SecretsState where
  runKey : Option Key
  set : List Bytes

/-- A Lua string as C reads it. -/
def cString (s : Bytes) : Bytes := s.takeWhile (· != 0)

/-- `ensure_key` -/
def ensureKey (s : SecretsState) (loaded : Except Bytes Key) : Except Bytes (Key × SecretsState) :=
  match s.runKey with
  | some key => .ok (key, s)
  | none =>
      match loaded with
      | .error why => .error why
      | .ok key => .ok (key, { s with runKey := some key })

/-- `secrets_reveal`: the value's text, none where it has none. -/
def secretsReveal (signed : Bool) (crypto : Primitives) (loaded : Except Bytes Key)
    (s : SecretsState) (text : Option Bytes) : Except Bytes Bytes × SecretsState :=
  match text with
  | none => (.error (bytes "not a secret"), s)
  | some text =>
      match ensureKey s loaded with
      | .error why => (.error why, s)
      | .ok (key, s) =>
          match envelopeOpen signed crypto key (cString text) with
          | .error why => (.error (bytes "cannot decrypt a secret: " ++ why), s)
          | .ok plain => (.ok plain, { s with set := redactAdd s.set plain })

/-! ## From one to the other -/

theorem readStdin_chunks {buf : Bytes} {chunks : List Bytes} (some_ : ∀ c ∈ chunks, c ≠ [])
    (room : buf.length ≤ maxPlain) :
    readStdin buf (chunks.map some) =
      if maxPlain < (buf ++ chunks.flatten).length then .error .tooLong
      else .ok (buf ++ chunks.flatten) := by
  induction chunks generalizing buf with
  | nil => simp [readStdin, room]
  | cons got chunks inductionHypothesis =>
      rw [List.map_cons, readStdin, if_neg (some_ got List.mem_cons_self), List.flatten_cons,
        ← List.append_assoc]
      by_cases full : maxPlain < (buf ++ got).length
      · rw [if_pos full, if_pos]
        rw [List.length_append]
        omega
      · rw [if_neg full]
        exact inductionHypothesis (fun c present => some_ c (List.mem_cons_of_mem _ present))
          (Nat.le_of_not_lt full)

theorem b64Char_ascii : ∀ d < 2 ^ 6, b64Char d < 128 ∧ b64Char d ≠ 0 ∧ b64Char d ≠ 10 := by
  decide +kernel

theorem base64_printable (bin : Bytes) : ∀ c ∈ base64 bin, c < 128 ∧ c ≠ 0 ∧ c ≠ 10 := by
  obtain ⟨digits, zeros, spells, text⟩ := base64_spec bin
  intro c present
  rw [text] at present
  rcases List.mem_append.mp present with digit | pad
  · obtain ⟨d, inside, rfl⟩ := List.mem_map.mp digit
    exact b64Char_ascii d (spells.small d inside)
  · rw [List.eq_of_mem_replicate pad]
    decide

theorem envelopePrefix_printable : ∀ c ∈ envelopePrefix, c < 128 ∧ c ≠ 0 ∧ c ≠ 10 := by
  decide +kernel

/-- A sealed text is one line of ASCII. -/
theorem envelopeSeal_printable {crypto : Primitives} {key : Key} {nonce : Nonce}
    {plain text : Bytes} (sealed : envelopeSeal crypto key nonce plain = some text) :
    ∀ c ∈ text, c < 128 ∧ c ≠ 0 ∧ c ≠ 10 := by
  rw [envelopeSeal_eq] at sealed
  obtain rfl := Option.some.inj sealed
  intro c present
  rcases List.mem_append.mp present with front | back
  · exact envelopePrefix_printable c front
  · exact base64_printable _ c back

theorem cString_of_printable {text : Bytes} (printable : ∀ c ∈ text, c < 128 ∧ c ≠ 0 ∧ c ≠ 10) :
    cString text = text := by
  rw [cString, List.takeWhile_eq_self_iff]
  intro c present
  simpa using (printable c present).2.1

/-- A key file that `qwe keygen` wrote loads as the key it drew. -/
theorem keyLoad_generated {signed : Bool} {euid : Nat} {home : Option Bytes} {making : Making}
    {key : Key} {stored : Stored} {opened : Bytes → Except Bytes Reading} {name : Bytes}
    (made : keyGenerate euid home none 512 making key none = some (.ok (), some stored))
    (named : resolve home none 512 = .ok name)
    (lies : opened name = .ok ⟨some stored.stat, some stored.content⟩) :
    keyLoad signed euid home opened none 512 = .ok key := by
  rcases keyGenerate_spec made with ⟨why, failed, -⟩ | ⟨-, -, same⟩
  · exact absurd failed (by simp)
  · rw [Option.some.inj same] at lies
    have whole : key.toList.take 256 = key.toList :=
      List.take_of_length_le (by rw [Vector.length_toList]; omega)
    exact keyLoad_of_file named lies rfl rfl (Nat.mod_eq_zero_of_dvd ⟨6, rfl⟩)
      (keyIn_iff.mpr (Or.inl whole))

/-- The line that `qwe encrypt` prints reveals what it read, in whatever pieces it came,
without one newline at its end: on a key file that `qwe keygen` wrote, in whatever pieces it
was written, and in a run that has loaded its key or not.  A value that is not empty is in the
redactor's set from then on.  Longer input than 64 KiB is refused, with nothing printed. -/
theorem encrypt_then_reveal (signed : Bool) (crypto : Primitives) (nonce : Nonce) (euid : Nat)
    (home : Option Bytes) (making : Making) (key : Key) (stored : Stored)
    (opened : Bytes → Except Bytes Reading) (name : Bytes) (chunks : List Bytes)
    (s : SecretsState)
    (made : keyGenerate euid home none 512 making key none = some (.ok (), some stored))
    (named : resolve home none 512 = .ok name)
    (lies : opened name = .ok ⟨some stored.stat, some stored.content⟩)
    (pieces : ∀ c ∈ chunks, c ≠ []) (fresh : s.runKey = none ∨ s.runKey = some key) :
    let loaded := keyLoad signed euid home opened none 512
    let outcome := cmdEncrypt crypto nonce 1 true loaded (chunks.map some)
    let plain := withoutNewline chunks.flatten
    if chunks.flatten.length ≤ maxPlain then
      outcome.code = exitOk ∧ ∃ line, outcome.out = line ++ [10] ∧ 10 ∉ line ∧
        secretsReveal signed crypto loaded s (some line) =
          (.ok plain, ⟨some key, redactAdd s.set plain⟩)
    else outcome.code = exitUsage ∧ outcome.out = [] := by
  have loads : keyLoad signed euid home opened none 512 = .ok key :=
    keyLoad_generated made named lies
  have input : readStdin [] (chunks.map some) = if maxPlain < chunks.flatten.length then
      .error .tooLong else .ok chunks.flatten :=
    readStdin_chunks pieces (Nat.zero_le maxPlain)
  dsimp only
  rw [loads, cmdEncrypt, if_neg (not_not.mpr rfl), if_neg Bool.false_ne_true.symm, input]
  split_ifs with fits long long
  · omega
  · -- the input fits: it is sealed, and its text opens again
    have sealed := envelopeSeal_eq crypto key nonce (withoutNewline chunks.flatten)
    have printable := envelopeSeal_printable sealed
    have opens := (envelopeOpen_ok_iff signed crypto key _ _).mpr ⟨nonce, sealed.trans
      (congrArg some (map_readAs_ascii signed fun c present => (printable c present).1).symm)⟩
    have keyed : ensureKey s (.ok key) = .ok (key, ⟨some key, s.set⟩) := by
      rcases fresh with none_ | some_
      · rw [ensureKey, none_]
      · rw [ensureKey, some_]
        dsimp only
        rw [← some_]
    dsimp only
    rw [sealed]
    refine ⟨rfl, _, rfl, fun present => (printable 10 present).2.2 rfl, ?_⟩
    rw [secretsReveal, keyed]
    dsimp only
    rw [cString_of_printable printable, opens]
  · exact ⟨rfl, rfl⟩
  · omega

/-- A key written in two pieces, and a secret that comes in two with a newline at its end. -/
theorem encrypt_then_reveal_abc :
    ∃ line, (cmdEncrypt ⟨fun _ k => k, fun _ _ _ => 7, fun _ _ => .replicate 16 9⟩
        (.replicate 24 1) 1 true (.ok (.replicate 32 5)) [some [97, 98], some [99, 10]]).out =
          line ++ [10] ∧
      (secretsReveal true ⟨fun _ k => k, fun _ _ _ => 7, fun _ _ => .replicate 16 9⟩
        (.ok (.replicate 32 5)) ⟨none, []⟩ (some line)).1 = .ok [97, 98, 99] := by
  have made : keyGenerate 0 (some [47]) none 512
      ⟨true, fun _ => none, none, [.wrote 10, .interrupted, .wrote 40]⟩ (.replicate 32 5) none =
        some (.ok (), some ⟨⟨0, .regular, 0o600⟩, List.replicate 32 5⟩) := rfl
  have whole := encrypt_then_reveal true
    ⟨fun _ k => k, fun _ _ _ => 7, fun _ _ => .replicate 16 9⟩ (.replicate 24 1) 0 (some [47]) _
    _ _ (fun _ => .ok ⟨some ⟨0, .regular, 0o600⟩, some (List.replicate 32 5)⟩)
    ([47] ++ bytes "/.config/qwe/secret") [[97, 98], [99, 10]] ⟨none, []⟩ made rfl rfl
    (by decide) (Or.inl rfl)
  obtain ⟨-, line, printed, -, revealed⟩ := whole
  exact ⟨line, printed, congrArg Prod.fst revealed⟩

end Qwe.Secrets
