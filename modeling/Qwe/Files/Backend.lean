import Qwe.Lib.Numerals
import Qwe.Lib.Pattern
import Qwe.Template.Argv

/-!
# Step plugins on a backend

The check/apply protocol (`run` of `src/kernel/lua/checkapply.lua`), and what
the builtin file plugins share.  A backend is its `run`: a script and its stdin
change the state of the target and give a reply, or the call raises.
-/

set_option autoImplicit false

namespace Qwe.Files

open Qwe.Redact (Bytes)
open Qwe.Template (bytes quote)
open Qwe.Patterns (match_ gsub)

/-! ## Calls that may raise -/

abbrev Action (σ α : Type) := ExceptT Bytes (StateM σ) α

section Actions
variable {σ α β : Type} {s s' : σ}

/-- Runs an action: its value or what it raised, and the state behind it. -/
def exec (action : Action σ α) (s : σ) : Except Bytes α × σ := (action.run.run s).run

theorem exec_get : exec (get : Action σ σ) s = (.ok s, s) := rfl

theorem exec_bind {action : Action σ α} {a : α} (f : α → Action σ β)
    (done : exec action s = (.ok a, s')) : exec (action >>= f) s = exec (f a) s' := by
  unfold exec
  rw [ExceptT.run_bind, StateT.run_bind, show action.run.run s = (.ok a, s') from done]
  rfl

theorem exec_bind_error {action : Action σ α} {e : Bytes} (f : α → Action σ β)
    (raised : exec action s = (.error e, s')) : exec (action >>= f) s = (.error e, s') := by
  unfold exec
  rw [ExceptT.run_bind, StateT.run_bind, show action.run.run s = (.error e, s') from raised]
  rfl

end Actions

/-! ## Backends -/

structure Reply where
  code : Int
  stdout : Bytes
  stderr : Bytes
deriving DecidableEq, Repr

/-- `run` of a backend. -/
abbrev Backend (σ : Type) := Bytes → Option Bytes → Action σ Reply

/-- `clean_reason` -/
def clean_reason (stderr : Bytes) : Bytes :=
  let space := Patterns.Class.kind .space false
  let trimmed := gsub ⟨false, [.plus space, .finish]⟩ (fun _ => [])
    (gsub ⟨true, [.plus space]⟩ (fun _ => []) stderr)
  match match_ ⟨false, [.star .any, .one (.byte 58), .one (.byte 32), .start, .star .any, .stop,
      .finish]⟩ trimmed with
  | some found => found.text 0
  | none => trimmed

/-! ## A file behind a backend -/

/-- A regular file: its permission bits and its content. -/
structure File where
  mode : Fin 4096
  content : Bytes
deriving DecidableEq, Repr

/-- `stat -c %a`: octal, without leading zeros. -/
def octal (n : Nat) : Bytes := Numerals.numeral 8 n

/-- `%04o` -/
def octal4 (n : Nat) : Bytes := List.replicate (4 - (octal n).length) 48 ++ octal n

def writeFile (fresh : Fin 4096) (content : Bytes) : Option File → File
  | none => ⟨fresh, content⟩
  | some old => ⟨old.mode, content⟩

section Faith
variable {σ : Type}

/-- The commands of the file plugins do to the file at a path what they say: `stat` and `cat`
report it, and a redirection keeps the mode of a file that exists. -/
structure Faithful (backend : Backend σ) (path : Bytes) (fresh : Fin 4096)
    (file : σ → Option File) : Prop where
  stat : ∀ s, ∃ reply s', exec (backend (bytes "stat -c %a -- " ++ quote path) none) s
      = (.ok reply, s') ∧ file s' = file s ∧ (reply.code = 0 ↔ file s ≠ none) ∧
      ∀ old, file s = some old → reply.stdout = octal old.mode ++ [10]
  cat : ∀ s old, file s = some old →
    ∃ reply s', exec (backend (bytes "cat -- " ++ quote path) none) s = (.ok reply, s') ∧
      file s' = file s ∧ reply.code = 0 ∧ reply.stdout = old.content
  write : ∀ s content,
    ∃ reply s', exec (backend (bytes "cat > " ++ quote path) (some content)) s = (.ok reply, s') ∧
      reply.code = 0 ∧ file s' = some (writeFile fresh content (file s))

/-- `chmod` of a mode as `%04o` prints it. -/
def Chmods (backend : Backend σ) (path : Bytes) (file : σ → Option File) : Prop :=
  ∀ s old (mode : Fin 4096), file s = some old →
    ∃ reply s', exec (backend (bytes "chmod " ++ octal4 mode ++ bytes " " ++ quote path) none) s
      = (.ok reply, s') ∧ reply.code = 0 ∧ file s' = some ⟨mode, old.content⟩

end Faith

/-! ## A backend with one path -/

/-- The value of octal digits. -/
def octalValue (digits : Bytes) : Nat := Numerals.value 8 digits

def disk (path : Bytes) (fresh : Fin 4096) : Backend (Option File) := fun script stdin => do
  let file ← get
  if script = bytes "stat -c %a -- " ++ quote path then
    match file with
    | none => return ⟨1, [], bytes "stat: cannot statx: No such file or directory\n"⟩
    | some old => return ⟨0, octal old.mode ++ [10], []⟩
  else if script = bytes "cat -- " ++ quote path then
    match file with
    | none => return ⟨1, [], bytes "cat: No such file or directory\n"⟩
    | some old => return ⟨0, old.content, []⟩
  else if script = bytes "cat > " ++ quote path then
    set (some (writeFile fresh (stdin.getD []) file))
    return ⟨0, [], []⟩
  else
    let digits := (script.drop 6).take 4
    match file with
    | none => return ⟨1, [], bytes "chmod: No such file or directory\n"⟩
    | some old =>
        set (some (File.mk (Fin.ofNat 4096 (octalValue digits)) old.content))
        return ⟨0, [], []⟩

theorem append_ne {a b : Bytes} (n : Nat) (left : n ≤ a.length) (right : n ≤ b.length)
    (differ : a.take n ≠ b.take n) (x y : Bytes) : a ++ x ≠ b ++ y := by
  intro same
  apply differ
  rw [← List.take_append_of_le_length left, same, List.take_append_of_le_length right]

theorem disk_faithful (path : Bytes) (fresh : Fin 4096) :
    Faithful (disk path fresh) path fresh id := by
  have cat_stat : bytes "cat -- " ++ quote path ≠ bytes "stat -c %a -- " ++ quote path :=
    append_ne 1 (by decide) (by decide) (by decide) _ _
  have write_stat : bytes "cat > " ++ quote path ≠ bytes "stat -c %a -- " ++ quote path :=
    append_ne 1 (by decide) (by decide) (by decide) _ _
  have write_cat : bytes "cat > " ++ quote path ≠ bytes "cat -- " ++ quote path :=
    append_ne 5 (by decide) (by decide) (by decide) _ _
  constructor
  · intro file
    cases file with
    | none =>
        refine ⟨⟨1, [], bytes "stat: cannot statx: No such file or directory\n"⟩, none, ?_, rfl,
          by simp, fun _ found => by cases found⟩
        rw [disk, exec_bind _ exec_get, if_pos rfl]
        rfl
    | some old =>
        refine ⟨⟨0, octal old.mode ++ [10], []⟩, some old, ?_, rfl, by simp, ?_⟩
        · rw [disk, exec_bind _ exec_get, if_pos rfl]
          rfl
        · intro other found
          cases found
          rfl
  · rintro file old rfl
    refine ⟨⟨0, old.content, []⟩, some old, ?_, rfl, rfl, rfl⟩
    rw [disk, exec_bind _ exec_get, if_neg cat_stat, if_pos rfl]
    rfl
  · intro file content
    refine ⟨⟨0, [], []⟩, some (writeFile fresh content file), ?_, rfl, rfl⟩
    rw [disk, exec_bind _ exec_get, if_neg write_stat, if_neg write_cat, if_pos rfl]
    rfl

/-! ## The protocol -/

abbrev Outputs := List (Bytes × Bytes)

/-- What a step plugin exports, for its `with:` of type `ω`. -/
structure StepModule (σ ω : Type) where
  check : ω → Action σ (Bool × Option Outputs)
  apply : ω → Action σ Unit

inductive Status where
  | ok
  | failed
deriving DecidableEq, Repr

structure Result where
  status : Status
  changed : Bool
  outputs : Outputs
  reason : Option Bytes
deriving DecidableEq, Repr

/-- `run` of `checkapply.lua` -/
def run {σ ω : Type} (mod : StepModule σ ω) (with_ : ω) : Action σ Result := do
  let (needs, outputs) ← mod.check with_
  if !needs then
    return { status := .ok, changed := false, outputs := outputs.getD [], reason := none }
  mod.apply with_
  let (needs, outputs) ← mod.check with_
  if needs then
    return { status := .failed, changed := true, outputs := [],
             reason := some (bytes "not-converged") }
  return { status := .ok, changed := true, outputs := outputs.getD [], reason := none }

/-! ## When a run converges -/

section Convergence
variable {σ ω V : Type} {mod : StepModule σ ω} {with_ : ω} {s : σ}

/-- The first run ends well, in a state as wanted, and a second one right behind it has
nothing to change. -/
def Converges (mod : StepModule σ ω) (with_ : ω) (wanted : σ → Prop) (s : σ) : Prop :=
  ∃ first between second after, exec (run mod with_) s = (.ok first, between) ∧
    first.status = .ok ∧ wanted between ∧ exec (run mod with_) between = (.ok second, after) ∧
    second.changed = false

/-- What a module does to the part of the target that it looks at: whether it sees a need
(`none` where it raises), and what it makes of that part. -/
structure Watches (mod : StepModule σ ω) (with_ : ω) (view : σ → V) (needs : V → Option Bool)
    (target : V → V) : Prop where
  checks : ∀ s needed, needs (view s) = some needed →
    ∃ outputs s', exec (mod.check with_) s = (.ok (needed, outputs), s') ∧ view s' = view s
  raises : ∀ s, needs (view s) = none → ∃ e s', exec (mod.check with_) s = (.error e, s')
  applies : ∀ s, needs (view s) = some true →
    ∃ s', exec (mod.apply with_) s = (.ok (), s') ∧ view s' = target (view s)

/-- What a run leaves. -/
def final (needs : V → Option Bool) (target : V → V) (v : V) : V :=
  if needs v = some true then target v else v

variable {view : σ → V} {needs : V → Option Bool} {target : V → V}

theorem Watches.run_ok (watches : Watches mod with_ view needs target)
    (settled : needs (final needs target (view s)) = some false) :
    ∃ result s', exec (run mod with_) s = (.ok result, s') ∧ result.status = .ok ∧
      result.changed = decide (needs (view s) = some true) ∧
      view s' = final needs target (view s) := by
  unfold final at settled ⊢
  by_cases needed : needs (view s) = some true
  · rw [if_pos needed] at settled
    rw [if_pos needed]
    obtain ⟨first, checked, check_eq, same⟩ := watches.checks s true needed
    obtain ⟨applied, apply_eq, made⟩ := watches.applies checked (by rw [same]; exact needed)
    rw [same] at made
    obtain ⟨outputs, again, again_eq, still⟩ :=
      watches.checks applied false (by rw [made]; exact settled)
    refine ⟨⟨.ok, true, outputs.getD [], none⟩, again, ?_, rfl, ?_, still.trans made⟩
    · rw [run, exec_bind _ check_eq]
      dsimp only
      rw [Bool.not_true, if_neg Bool.false_ne_true, exec_bind _ apply_eq, exec_bind _ again_eq]
      rfl
    · rw [decide_eq_true needed]
  · rw [if_neg needed] at settled
    rw [if_neg needed]
    obtain ⟨outputs, checked, check_eq, same⟩ := watches.checks s false settled
    refine ⟨⟨.ok, false, outputs.getD [], none⟩, checked, ?_, rfl, ?_, same⟩
    · rw [run, exec_bind _ check_eq]
      rfl
    · rw [decide_eq_false needed]

theorem Watches.run_not_ok (watches : Watches mod with_ view needs target)
    (unsettled : needs (final needs target (view s)) ≠ some false) {result : Result} {s' : σ}
    (run_eq : exec (run mod with_) s = (.ok result, s')) : result.status ≠ .ok := by
  unfold final at unsettled
  rw [run] at run_eq
  match needed : needs (view s) with
  | none =>
      obtain ⟨e, raised, check_eq⟩ := watches.raises s needed
      rw [exec_bind_error _ check_eq] at run_eq
      cases run_eq
  | some false =>
      rw [needed, if_neg (by decide)] at unsettled
      exact absurd needed unsettled
  | some true =>
      rw [if_pos needed] at unsettled
      obtain ⟨first, checked, check_eq, same⟩ := watches.checks s true needed
      obtain ⟨applied, apply_eq, made⟩ := watches.applies checked (by rw [same]; exact needed)
      rw [same] at made
      rw [exec_bind _ check_eq] at run_eq
      dsimp only at run_eq
      rw [Bool.not_true, if_neg Bool.false_ne_true, exec_bind _ apply_eq] at run_eq
      match again : needs (view applied) with
      | none =>
          obtain ⟨e, raised, again_eq⟩ := watches.raises applied again
          rw [exec_bind_error _ again_eq] at run_eq
          cases run_eq
      | some false =>
          rw [made] at again
          exact absurd again unsettled
      | some true =>
          obtain ⟨outputs, last, again_eq, -⟩ := watches.checks applied true again
          rw [exec_bind _ again_eq] at run_eq
          cases run_eq
          decide

theorem Watches.converges_iff (watches : Watches mod with_ view needs target) (wanted : V → Prop) :
    Converges mod with_ (fun s => wanted (view s)) s ↔
      needs (final needs target (view s)) = some false ∧
        wanted (final needs target (view s)) := by
  constructor
  · rintro ⟨first, between, second, after, run_eq, ok, reached, -, -⟩
    by_cases settled : needs (final needs target (view s)) = some false
    · obtain ⟨result, s', same_run, -, -, left⟩ := watches.run_ok settled
      rw [run_eq] at same_run
      cases same_run
      rw [← left]
      exact ⟨left ▸ settled, reached⟩
    · exact absurd ok (watches.run_not_ok settled run_eq)
  · rintro ⟨settled, reached⟩
    obtain ⟨first, between, run_eq, ok, -, left⟩ := watches.run_ok settled
    -- what the first run leaves needs nothing, so the second run leaves it as it is
    have rest : final needs target (view between) = view between := by
      rw [left]
      exact if_neg (by rw [settled]; decide)
    obtain ⟨second, after, again_eq, -, changed, -⟩ :=
      watches.run_ok (s := between) (by rw [rest, left]; exact settled)
    refine ⟨first, between, second, after, run_eq, ok, ?_, again_eq, ?_⟩
    · change wanted (view between)
      rw [left]
      exact reached
    · rw [changed, left, decide_eq_false_iff_not, settled]
      decide

end Convergence

end Qwe.Files
