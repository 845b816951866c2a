import Qwe.Files.Backend

/-!
# `file.ensure`

The step plugin `plugins/builtin/file.ensure/plugin.lua`: a file has a content
and a mode.  Modes are compared as texts of four octal digits; the last section
says for which of them a run ends with the file as it should be.
-/

set_option autoImplicit false

namespace Qwe.Files.Ensure

open Qwe.Redact (Bytes)
open Qwe.Template (bytes quote)
open Qwe.Patterns (Pattern Place match_ gsub search)

/-- `with:` -/
structure With where
  path : Bytes
  content : Option Bytes
  mode : Option Bytes
deriving DecidableEq, Repr

/-- `[0-7]` -/
def octalDigit : Patterns.Class := .set false [.range 48 55]

/-- `normalize_mode` -/
def normalize_mode (text : Bytes) : Option Bytes :=
  let pattern : Pattern :=
    ⟨true, [.one octalDigit, .one octalDigit, .optional octalDigit, .optional octalDigit, .finish]⟩
  if (match_ pattern text).isNone then none else some (octal4 (octalValue text))

/-- The file as `inspect` sees it. -/
structure Seen where
  mode : Bytes
  content : Option Bytes
deriving DecidableEq, Repr

variable {σ : Type}

def wanted_mode (with_ : With) : Action σ (Option Bytes) :=
  match with_.mode with
  | none => pure none
  | some text =>
      match normalize_mode text with
      | none => throw (bytes "file.ensure: mode must be octal, like 0644: " ++ text)
      | some mode => pure (some mode)

def inspect (backend : Backend σ) (with_ : With) : Action σ (Option Seen) := do
  let path := quote with_.path
  let stat ← backend (bytes "stat -c %a -- " ++ path) none
  if stat.code ≠ 0 then return none
  match normalize_mode (gsub ⟨false, [.plus (.kind .space false), .finish]⟩ (fun _ => [])
      stat.stdout) with
  | none => throw (bytes "file.ensure: cannot read the mode of " ++ with_.path)
  | some mode =>
      if with_.content = none then return some ⟨mode, none⟩
      let cat ← backend (bytes "cat -- " ++ path) none
      if cat.code ≠ 0 then
        throw (bytes "file.ensure: cannot read " ++ with_.path ++ bytes ": " ++
          clean_reason cat.stderr)
      return some ⟨mode, some cat.stdout⟩

/-- The content is given, and the file has another. -/
def contentDiffers (with_ : With) (seen : Seen) : Bool :=
  with_.content ≠ none && seen.content ≠ with_.content

def modeDiffers (want_mode : Option Bytes) (seen : Seen) : Bool :=
  want_mode ≠ none && some seen.mode ≠ want_mode

def check (backend : Backend σ) (with_ : With) : Action σ (Bool × Option Outputs) := do
  let want_mode ← wanted_mode with_
  let state ← inspect backend with_
  match state with
  | none => return (true, none)
  | some seen =>
      return (contentDiffers with_ seen || modeDiffers want_mode seen,
        some [(bytes "mode", seen.mode)])

/-- The first half of `apply`. -/
def applyContent (backend : Backend σ) (with_ : With) (state : Option Seen) : Action σ Unit := do
  if state.all (contentDiffers with_) then
    let write ← backend (bytes "cat > " ++ quote with_.path) (some (with_.content.getD []))
    if write.code ≠ 0 then
      throw (bytes "file.ensure: cannot write " ++ with_.path ++ bytes ": " ++
        clean_reason write.stderr)

/-- The second half of `apply`. -/
def applyMode (backend : Backend σ) (with_ : With) (want_mode : Option Bytes)
    (state : Option Seen) : Action σ Unit := do
  match want_mode with
  | none => return ()
  | some mode =>
      if state.all (modeDiffers want_mode) then
        let chmod ← backend (bytes "chmod " ++ mode ++ bytes " " ++ quote with_.path) none
        if chmod.code ≠ 0 then
          throw (bytes "file.ensure: cannot chmod " ++ with_.path ++ bytes ": " ++
            clean_reason chmod.stderr)

def apply (backend : Backend σ) (with_ : With) : Action σ Unit := do
  let want_mode ← wanted_mode with_
  let state ← inspect backend with_
  applyContent backend with_ state
  applyMode backend with_ want_mode state

def plugin (backend : Backend σ) : StepModule σ With := ⟨check backend, apply backend⟩

/-! ## Octal texts -/

section Octal
variable {n : Nat} {text : Bytes}

/-- All digits are octal. -/
def IsOctal (text : Bytes) : Prop := ∀ d ∈ text, 48 ≤ d ∧ d ≤ 55

instance (text : Bytes) : Decidable (IsOctal text) :=
  List.decidableBAll (fun d => 48 ≤ d ∧ d ≤ 55) text

theorem octalDigit_has (d : UInt8) : octalDigit.has d = true ↔ 48 ≤ d ∧ d ≤ 55 := by
  rw [octalDigit, Patterns.Class.has, Patterns.setHas]
  simp [Patterns.Part.has]

theorem octal_not_space {d : UInt8} (octal : 48 ≤ d ∧ d ≤ 55) :
    ¬ Patterns.Class.has (.kind .space false) d = true := by
  simp only [UInt8.le_iff_toNat_le, UInt8.reduceToNat] at octal
  simp only [Patterns.Class.has, Patterns.Kind.has, Bool.bne_false, Bool.or_eq_true, Bool.and_eq_true,
    beq_iff_eq, decide_eq_true_eq, UInt8.le_iff_toNat_le, UInt8.reduceToNat, ← UInt8.toNat_inj]
  omega

theorem isOctal_octal (n : Nat) : IsOctal (octal n) := by
  intro d inside
  have digit := Numerals.isNumeral_numeral (by decide) (by decide) n d inside
  simp only [UInt8.le_iff_toNat_le, UInt8.reduceToNat]
  omega

theorem octalValue_octal (n : Nat) : octalValue (octal n) = n :=
  Numerals.value_numeral (by decide) (by decide) n

theorem octalValue_octal4 (n : Nat) : octalValue (octal4 n) = n := by
  rw [octal4, octalValue, Numerals.value_zeros]
  exact octalValue_octal n

theorem octal4_injective {m : Nat} (same : octal4 m = octal4 n) : m = n := by
  rw [← octalValue_octal4 m, same, octalValue_octal4]

theorem octal_length_le {k : Nat} (positive : 0 < k) : (octal n).length ≤ k ↔ n < 8 ^ k :=
  Numerals.numeral_length_le (by decide) positive

theorem normalize_of_octal (digits : IsOctal text) (two : 2 ≤ text.length)
    (four : text.length ≤ 4) : normalize_mode text = some (octal4 (octalValue text)) := by
  have each : ∀ d ∈ text, octalDigit.has d = true := fun d inside =>
    (octalDigit_has d).mpr (digits d inside)
  rw [normalize_mode, if_neg]
  match text, each, two, four with
  | [a, b], each, _, _ =>
      simp only [List.forall_mem_cons] at each
      simp [match_, search, Patterns.run, Place.first, Place.sees, Place.next, each]
  | [a, b, c], each, _, _ =>
      simp only [List.forall_mem_cons] at each
      simp [match_, search, Patterns.run, Place.first, Place.sees, Place.next, each]
  | [a, b, c, d], each, _, _ =>
      simp only [List.forall_mem_cons] at each
      simp [match_, search, Patterns.run, Place.first, Place.sees, Place.next, each]

/-- One digit is not a mode. -/
theorem normalize_short (one : text.length < 2) : normalize_mode text = none := by
  rw [normalize_mode, if_pos]
  match text, one with
  | [], _ => rfl
  | [a], _ => simp [match_, search, Patterns.run, Place.first, Place.sees, Place.next]

/-- What `inspect` reads is the printed mode, where that has two digits. -/
theorem normalize_stat (mode : Fin 4096) :
    normalize_mode (gsub ⟨false, [.plus (.kind .space false), .finish]⟩ (fun _ => [])
      (octal mode ++ [10])) = if mode.val < 8 then none else some (octal4 mode) := by
  have digits := isOctal_octal mode.val
  have printed : gsub ⟨false, [.plus (.kind .space false), .finish]⟩ (fun _ => [])
      (octal mode ++ [10]) = octal mode := by
    rw [Patterns.gsub_trailing, List.rdropWhile_concat_pos _ _ _ (by decide),
      List.rdropWhile_eq_self_iff]
    intro nonempty
    exact octal_not_space (digits _ (List.getLast_mem nonempty))
  rw [printed]
  by_cases short : mode.val < 8
  · rw [if_pos short]
    apply normalize_short
    exact Nat.lt_succ_of_le ((octal_length_le Nat.one_pos).mpr short)
  · rw [if_neg short]
    have two : ¬ (octal mode.val).length ≤ 1 := fun one =>
      short ((octal_length_le Nat.one_pos).mp one)
    have four := (octal_length_le (k := 4) (by decide)).mpr mode.isLt
    rw [normalize_of_octal digits (by omega) four, octalValue_octal]

theorem octal4_length (mode : Fin 4096) : (octal4 mode).length = 4 := by
  have four := (octal_length_le (n := mode.val) (k := 4) (by decide)).mpr mode.isLt
  rw [octal4, List.length_append, List.length_replicate]
  omega

theorem disk_chmods (path : Bytes) (fresh : Fin 4096) : Chmods (disk path fresh) path id := by
  rintro file old mode rfl
  have script (rest : Bytes) : bytes "chmod " ++ octal4 mode ++ bytes " " ++ rest
      = bytes "chmod " ++ (octal4 mode ++ (bytes " " ++ rest)) := by
    simp only [List.append_assoc]
  have digits (rest : Bytes) :
      ((bytes "chmod " ++ (octal4 mode ++ (bytes " " ++ rest))).drop 6).take 4 = octal4 mode := by
    rw [List.drop_left' (by decide), List.take_left' (octal4_length mode)]
  refine ⟨⟨0, [], []⟩, some ⟨mode, old.content⟩, ?_, rfl, rfl⟩
  rw [disk, exec_bind _ exec_get, script,
    if_neg (append_ne 1 (by decide) (by decide) (by decide) _ _),
    if_neg (append_ne 2 (by decide) (by decide) (by decide) _ _),
    if_neg (append_ne 2 (by decide) (by decide) (by decide) _ _), digits]
  dsimp only
  rw [octalValue_octal4]
  change (Except.ok _, some (File.mk (Fin.ofNat 4096 mode.val) old.content)) = _
  rw [Fin.ofNat_val_eq_self]

end Octal

/-! ## What the step does to the file -/

section Steps
variable {backend : Backend σ} {with_ : With} {fresh : Fin 4096} {file : σ → Option File}

/-- Two to four octal digits. -/
def IsMode (text : Bytes) : Prop := IsOctal text ∧ 2 ≤ text.length ∧ text.length ≤ 4

/-- The modes that the plugin's schema admits. -/
def Admitted (with_ : With) : Prop := ∀ text, with_.mode = some text → IsMode text

/-- The permission bits of a mode. -/
def bits (text : Bytes) : Fin 4096 := ⟨octalValue text % 4096, Nat.mod_lt _ (by decide)⟩

/-- The file as it should be: what is not given is kept, or is as the host makes it. -/
def ensured (with_ : With) (fresh : Fin 4096) (file : Option File) : File :=
  ⟨(with_.mode.map bits).getD ((file.map (·.mode)).getD fresh),
    with_.content.getD ((file.map (·.content)).getD [])⟩

/-- A file whose mode has one digit cannot be looked at. -/
def needs (with_ : With) (fresh : Fin 4096) : Option File → Option Bool
  | none => some true
  | some old =>
      if old.mode.val < 8 then none else some (decide (ensured with_ fresh (some old) ≠ old))

theorem octalValue_lt {text : Bytes} (octal : IsOctal text) :
    octalValue text < 8 ^ text.length := by
  apply Numerals.value_lt
  intro d inside
  have digit := octal d inside
  simp only [UInt8.le_iff_toNat_le, UInt8.reduceToNat] at digit
  omega

theorem bits_val {text : Bytes} (mode : IsMode text) : (bits text).val = octalValue text := by
  have below := octalValue_lt mode.1
  have at_most : 8 ^ text.length ≤ 8 ^ 4 := Nat.pow_le_pow_right (by decide) mode.2.2
  exact Nat.mod_eq_of_lt (by omega)

theorem wanted_mode_eq (admitted : Admitted with_) (s : σ) :
    exec (wanted_mode with_ : Action σ (Option Bytes)) s
      = (.ok (with_.mode.map fun text => octal4 (bits text)), s) := by
  unfold wanted_mode
  cases given : with_.mode with
  | none => rfl
  | some text =>
      have mode := admitted text given
      dsimp only
      rw [normalize_of_octal mode.1 mode.2.1 mode.2.2, Option.map_some, bits_val mode]
      rfl

/-- What `inspect` sees of a file that it can look at. -/
def seenOf (with_ : With) (old : File) : Seen :=
  ⟨octal4 old.mode, with_.content.map fun _ => old.content⟩

theorem exec_inspect (faithful : Faithful backend with_.path fresh file) (s : σ)
    (readable : ∀ old, file s = some old → 8 ≤ old.mode.val) :
    ∃ s', exec (inspect backend with_) s = (.ok ((file s).map (seenOf with_)), s') ∧
      file s' = file s := by
  obtain ⟨stat, stated, stat_eq, same, there, stdout⟩ := faithful.stat s
  unfold inspect
  dsimp only
  rw [exec_bind _ stat_eq]
  cases found : file s with
  | none =>
      rw [found] at there
      have missing : stat.code ≠ 0 := fun zero => there.mp zero rfl
      exact ⟨stated, by rw [if_pos missing]; rfl, same.trans found⟩
  | some old =>
      have present : stat.code = 0 := there.mpr (by rw [found]; exact Option.some_ne_none _)
      rw [if_neg (not_not.mpr present), stdout old found, normalize_stat,
        if_neg (Nat.not_lt.mpr (readable old found))]
      dsimp only
      cases given : with_.content with
      | none =>
          refine ⟨stated, ?_, same.trans found⟩
          rw [if_pos rfl, Option.map_some, seenOf, given]
          rfl
      | some content =>
          obtain ⟨cat, read, cat_eq, still, code, text⟩ :=
            faithful.cat stated old (same.trans found)
          refine ⟨read, ?_, still.trans (same.trans found)⟩
          rw [if_neg (Option.some_ne_none _), exec_bind _ cat_eq]
          rw [if_neg (not_not.mpr code), text, Option.map_some, seenOf, given]
          rfl

theorem exec_inspect_error (faithful : Faithful backend with_.path fresh file) (s : σ) {old : File}
    (there : file s = some old) (short : old.mode.val < 8) :
    ∃ e s', exec (inspect backend with_) s = (.error e, s') := by
  obtain ⟨stat, stated, stat_eq, -, code, stdout⟩ := faithful.stat s
  have present : stat.code = 0 := code.mpr (by rw [there]; exact Option.some_ne_none _)
  refine ⟨bytes "file.ensure: cannot read the mode of " ++ with_.path, stated, ?_⟩
  unfold inspect
  dsimp only
  rw [exec_bind _ stat_eq, if_neg (not_not.mpr present), stdout old there, normalize_stat,
    if_pos short]
  rfl

theorem contentDiffers_seenOf (with_ : With) (old : File) :
    contentDiffers with_ (seenOf with_ old)
      = decide (with_.content.getD old.content ≠ old.content) := by
  unfold contentDiffers seenOf
  cases with_.content with
  | none => simp
  | some content => simp [eq_comm]

theorem modeDiffers_seenOf (with_ : With) (old : File) :
    modeDiffers (with_.mode.map fun text => octal4 (bits text)) (seenOf with_ old)
      = decide ((with_.mode.map bits).getD old.mode ≠ old.mode) := by
  unfold modeDiffers seenOf
  cases with_.mode with
  | none => simp
  | some text =>
      have same : octal4 old.mode = octal4 (bits text) ↔ bits text = old.mode :=
        ⟨fun same => (Fin.ext (octal4_injective same)).symm, fun same => by rw [same]⟩
      simp [same]

theorem ensured_ne (with_ : With) (fresh : Fin 4096) (old : File) :
    decide (ensured with_ fresh (some old) ≠ old)
      = (decide (with_.content.getD old.content ≠ old.content) ||
        decide ((with_.mode.map bits).getD old.mode ≠ old.mode)) := by
  rw [← Bool.decide_or, decide_eq_decide, ← not_and_or, not_iff_not]
  obtain ⟨mode, content⟩ := old
  rw [ensured, File.mk.injEq, and_comm]
  rfl

theorem exec_applyContent (faithful : Faithful backend with_.path fresh file) (s : σ) :
    ∃ s', exec (applyContent backend with_ ((file s).map (seenOf with_))) s = (.ok (), s') ∧
      file s' = some ⟨((file s).map (·.mode)).getD fresh,
        with_.content.getD (((file s).map (·.content)).getD [])⟩ := by
  obtain ⟨reply, written, write_eq, code, made⟩ := faithful.write s (with_.content.getD [])
  unfold applyContent
  cases found : file s with
  | none =>
      refine ⟨written, ?_, by rw [made, found]; rfl⟩
      have all : ((none : Option File).map (seenOf with_)).all (contentDiffers with_) = true := rfl
      rw [if_pos all, exec_bind _ write_eq, if_neg (not_not.mpr code)]
      rfl
  | some old =>
      simp only [Option.map_some, Option.all_some, contentDiffers_seenOf, Option.getD_some]
      by_cases differs : with_.content.getD old.content ≠ old.content
      · refine ⟨written, ?_, ?_⟩
        · rw [if_pos (decide_eq_true differs), exec_bind _ write_eq, if_neg (not_not.mpr code)]
          rfl
        · rw [made, found]
          cases given : with_.content with
          | none => exact absurd (by rw [given]; rfl) differs
          | some content => rfl
      · refine ⟨s, ?_, ?_⟩
        · rw [if_neg (by rw [decide_eq_true_iff]; exact differs)]
          rfl
        · rw [found, not_not.mp differs]

theorem exec_applyMode (with_ : With) (chmods : Chmods backend with_.path file) (s : σ)
    (before : Option File) {now : File} (there : file s = some now)
    (kept : ∀ old, before = some old → now.mode = old.mode) :
    ∃ s', exec (applyMode backend with_ (with_.mode.map fun text => octal4 (bits text))
        (before.map (seenOf with_))) s = (.ok (), s') ∧
      file s' = some ⟨(with_.mode.map bits).getD now.mode, now.content⟩ := by
  have differs := modeDiffers_seenOf with_
  unfold applyMode
  cases given : with_.mode with
  | none => exact ⟨s, rfl, there⟩
  | some text =>
      rw [given] at differs
      simp only [Option.map_some, Option.getD_some] at differs ⊢
      obtain ⟨reply, changed, chmod_eq, code, made⟩ := chmods s now (bits text) there
      by_cases needed : (before.map (seenOf with_)).all
          (modeDiffers (some (octal4 (bits text)))) = true
      · refine ⟨changed, ?_, made⟩
        rw [if_pos needed, exec_bind _ chmod_eq, if_neg (not_not.mpr code)]
        rfl
      · refine ⟨s, ?_, ?_⟩
        · rw [if_neg needed]
          rfl
        · cases before with
          | none => exact absurd rfl needed
          | some old =>
              rw [Option.map_some, Option.all_some, differs, decide_eq_true_iff, not_not] at needed
              rw [needed, ← kept old rfl, there]

theorem watches (faithful : Faithful backend with_.path fresh file)
    (chmods : Chmods backend with_.path file) (admitted : Admitted with_) :
    Watches (plugin backend) with_ file (needs with_ fresh)
      (fun old => some (ensured with_ fresh old)) := by
  have readable_of {s : σ} {needed : Bool} (need : needs with_ fresh (file s) = some needed) :
      ∀ old, file s = some old → 8 ≤ old.mode.val := by
    intro old there
    by_contra short
    rw [there, needs, if_pos (Nat.lt_of_not_le short)] at need
    cases need
  constructor
  · intro s needed need
    obtain ⟨s', inspect_eq, same⟩ := exec_inspect faithful s (readable_of need)
    change ∃ outputs s', exec (check backend with_) s = _ ∧ _
    unfold check
    rw [exec_bind _ (wanted_mode_eq admitted s), exec_bind _ inspect_eq]
    cases found : file s with
    | none =>
        rw [found] at need
        cases need
        exact ⟨none, s', rfl, same.trans found⟩
    | some old =>
        refine ⟨some [(bytes "mode", octal4 old.mode)], s', ?_, same.trans found⟩
        have long := readable_of need old found
        rw [found, needs, if_neg (Nat.not_lt.mpr long), Option.some_inj] at need
        simp only [Option.map_some, contentDiffers_seenOf, modeDiffers_seenOf]
        rw [← need, ensured_ne]
        rfl
  · intro s raised
    cases found : file s with
    | none => rw [found] at raised; cases raised
    | some old =>
        have short : old.mode.val < 8 := by
          by_contra long
          rw [found, needs, if_neg long] at raised
          cases raised
        obtain ⟨e, s', inspect_eq⟩ := exec_inspect_error faithful s found short
        refine ⟨e, s', ?_⟩
        change exec (check backend with_) s = _
        rw [check, exec_bind _ (wanted_mode_eq admitted s), exec_bind_error _ inspect_eq]
  · intro s need
    obtain ⟨inspected, inspect_eq, same⟩ := exec_inspect faithful s (readable_of need)
    obtain ⟨written, content_eq, made⟩ :=
      exec_applyContent faithful inspected
    rw [same] at content_eq made
    obtain ⟨changed, mode_eq, done⟩ := exec_applyMode with_ chmods written (file s) made
      (fun old there => by rw [there]; rfl)
    refine ⟨changed, ?_, done⟩
    change exec (apply backend with_) s = _
    rw [apply, exec_bind _ (wanted_mode_eq admitted s), exec_bind _ inspect_eq,
      exec_bind _ content_eq, mode_eq]

theorem ensured_again (old : Option File) :
    ensured with_ fresh (some (ensured with_ fresh old)) = ensured with_ fresh old := by
  unfold ensured
  cases with_.mode with
  | none =>
      cases with_.content with
      | none => rfl
      | some content => rfl
  | some text =>
      cases with_.content with
      | none => rfl
      | some content => rfl

theorem needs_ensured (old : Option File) :
    needs with_ fresh (some (ensured with_ fresh old)) = some false ↔
      8 ≤ (ensured with_ fresh old).mode.val := by
  rw [needs, ensured_again, decide_eq_false (not_not.mpr rfl)]
  by_cases short : (ensured with_ fresh old).mode.val < 8
  · rw [if_pos short]
    exact iff_of_false (by decide) (Nat.not_le.mpr short)
  · rw [if_neg short]
    exact iff_of_true rfl (Nat.not_lt.mp short)

/-- A run makes of a file that it can look at the file as it should be. -/
theorem final_eq (old : Option File) (readable : ∀ there, old = some there → 8 ≤ there.mode.val) :
    final (needs with_ fresh) (fun old => some (ensured with_ fresh old)) old
      = some (ensured with_ fresh old) := by
  unfold final
  cases old with
  | none => exact if_pos rfl
  | some there =>
      by_cases same : ensured with_ fresh (some there) = there
      · dsimp only
        rw [same, ite_self]
      · rw [if_pos]
        rw [needs, if_neg (Nat.not_lt.mpr (readable there rfl)), decide_eq_true same]

theorem settles_iff (old : Option File) :
    needs with_ fresh (final (needs with_ fresh) (fun old => some (ensured with_ fresh old)) old)
      = some false ∧
      final (needs with_ fresh) (fun old => some (ensured with_ fresh old)) old
        = some (ensured with_ fresh old) ↔
    (∀ there, old = some there → 8 ≤ there.mode.val) ∧
      (∀ text, with_.mode = some text → 8 ≤ (bits text).val) ∧
      (old = none → with_.mode = none → 8 ≤ fresh.val) := by
  by_cases readable : ∀ there, old = some there → 8 ≤ there.mode.val
  · rw [final_eq old readable, needs_ensured, and_iff_left rfl, and_iff_right readable, ensured]
    cases given : with_.mode with
    | some text => simp
    | none =>
        cases old with
        | none => simp
        | some there => simpa using readable there rfl
  · refine iff_of_false ?_ fun rest => readable rest.1
    rintro ⟨rested, -⟩
    push Not at readable
    obtain ⟨there, rfl, short⟩ := readable
    have blind : needs with_ fresh (some there) = none := by rw [needs, if_pos short]
    rw [final, blind, if_neg (by decide), blind] at rested
    cases rested

end Steps

/-- A run of the step ends with the file as it should be exactly where no mode it looks at has
one digit only. -/
theorem ensure_converges_iff {backend : Backend σ} {with_ : With} {fresh : Fin 4096}
    {file : σ → Option File} (faithful : Faithful backend with_.path fresh file)
    (chmods : Chmods backend with_.path file) (admitted : Admitted with_) (s : σ) :
    Converges (plugin backend) with_
        (fun s' => file s' = some (ensured with_ fresh (file s))) s ↔
      (∀ old, file s = some old → 8 ≤ old.mode.val) ∧
        (∀ text, with_.mode = some text → 8 ≤ (bits text).val) ∧
        (file s = none → with_.mode = none → 8 ≤ fresh.val) := by
  rw [← settles_iff]
  exact (watches faithful chmods admitted).converges_iff
    fun reached => reached = some (ensured with_ fresh (file s))

/-- A file of one line, and who may read it. -/
def motd (mode : Bytes) : With := ⟨bytes "f", some (bytes "hi"), some mode⟩

theorem ensure_converges_iff_motd :
    Converges (plugin (disk (bytes "f") 420)) (motd (bytes "600"))
      (fun file => file = some ⟨384, bytes "hi"⟩) none := by
  have faithful : Faithful (disk (bytes "f") 420) (motd (bytes "600")).path 420 id :=
    disk_faithful (bytes "f") 420
  have chmods : Chmods (disk (bytes "f") 420) (motd (bytes "600")).path id :=
    disk_chmods (bytes "f") 420
  have admitted : Admitted (motd (bytes "600")) := by
    rintro text given
    cases given
    exact ⟨by decide, by decide, by decide⟩
  refine (ensure_converges_iff faithful chmods admitted none).mpr ⟨fun _ there => ?_, ?_, ?_⟩
  · cases there
  · rintro text given
    cases given
    decide
  · intro _ given
    cases given

/-- A file that nobody may touch has the mode `0`. -/
theorem ensure_not_always_converges :
    ¬ ∀ (with_ : With) (fresh : Fin 4096) (file : Option File), with_.path ≠ [] → Admitted with_ →
      Converges (plugin (disk with_.path fresh)) with_
        (fun reached => reached = some (ensured with_ fresh file)) file := by
  intro claim
  have admitted : Admitted (motd (bytes "0644")) := by
    rintro text given
    cases given
    exact ⟨by decide, by decide, by decide⟩
  have converges := claim (motd (bytes "0644")) 420 (some ⟨0, []⟩) (by decide) admitted
  have settled := ((watches (disk_faithful _ _) (disk_chmods _ _) admitted).converges_iff
    fun reached => reached = some (ensured (motd (bytes "0644")) 420 (some ⟨0, []⟩))).mp converges
  revert settled
  decide

end Qwe.Files.Ensure
