import Mathlib.Data.List.DropRight
import Qwe.Lib.Numerals
import Qwe.Secrets.Envelope

/-!
# The key file

`src/secrets/keyfile.c`: which file is taken as which key, and how a new one is written.
What the system calls return is given: a stat, the bytes of one read, and the outcomes of the
writes one after the other.
-/

set_option autoImplicit false

namespace Qwe.Secrets

open Qwe.Redact (Bytes)
open Qwe.Template (bytes)

/-! ## Paths and messages -/

/-- `qwe_msg`: a message is cut where its buffer ends. -/
def qweMsg (errSize : Nat) (text : Bytes) : Bytes := text.take (errSize - 1)

/-- `qwe_key_default_path`: none when there is no home or no room. -/
def keyDefaultPath (n : Nat) (home : Option Bytes) : Option Bytes :=
  match home with
  | none => none
  | some home =>
      if home = [] then none
      else
        let path := home ++ bytes "/.config/qwe/secret"
        if path.length < n then some path else none

/-- `resolve` -/
def resolve (home path : Option Bytes) (errSize : Nat) : Except Bytes Bytes :=
  match path with
  | some path => .ok path
  | none =>
      match keyDefaultPath 1024 home with
      | some path => .ok path
      | none =>
          .error (qweMsg errSize (if home.getD [] ≠ [] then bytes "no key file: HOME is too long"
            else bytes "no key file: HOME is not set"))

/-- The file type in `st_mode`, as far as it is asked for. -/
inductive FileType where
  | regular
  | directory
  | other
deriving DecidableEq, Repr

/-- `struct stat`: the type is kept apart from the other bits of the mode. -/
structure Stat where
  uid : Nat
  type : FileType
  mode : Nat
deriving DecidableEq, Repr

/-- `%u` -/
def unsigned (n : Nat) : Bytes := Numerals.numeral 10 n

/-- `%04o` -/
def modeText (n : Nat) : Bytes :=
  List.replicate (4 - (Numerals.numeral 8 n).length) 48 ++ Numerals.numeral 8 n

/-- `qwe_private_check`: what is said against the file, if anything is. -/
def privateCheck (euid : Nat) (st : Stat) (what path : Bytes) (errSize : Nat) : Option Bytes :=
  if st.uid ≠ euid then
    some (qweMsg errSize (what ++ bytes " " ++ path ++ bytes " is owned by uid " ++
      unsigned st.uid ++ bytes ", not by you (uid " ++ unsigned euid ++ bytes ")"))
  else if st.mode % 64 ≠ 0 then
    some (qweMsg errSize (what ++ bytes " " ++ path ++ bytes " has mode " ++
      modeText (st.mode % 512) ++
      bytes ": it must not be accessible by group or others (chmod " ++
      bytes (if st.type = .directory then "700" else "600") ++ bytes ")"))
  else none

/-! ## Loading a key -/

/-- What comes of opening a file: its stat, and what one read returns. -/
structure Reading where
  stat : Option Stat
  got : Option Bytes
deriving DecidableEq, Repr

/-- The bytes as a key, if there are 32. -/
def keyOf (bin : Bytes) : Option Key :=
  if long : bin.length = 32 then some ⟨bin.toArray, by simpa using long⟩ else none

/-- `'\n'`, `'\r'` or `' '`. -/
def isTail (c : UInt8) : Bool := c == 10 || c == 13 || c == 32

section Load
variable (signed : Bool)

/-- The key in the bytes that were read. -/
def keyIn (raw : Bytes) : Option Key :=
  if raw.length = 32 then keyOf raw
  else
    let got := raw.rdropWhile isTail
    if got = [] then none else (sodiumBase642bin signed 32 got).bind keyOf

/-- `qwe_key_load` -/
def keyLoad (euid : Nat) (home : Option Bytes) (opened : Bytes → Except Bytes Reading)
    (path : Option Bytes) (errSize : Nat) : Except Bytes Key :=
  match resolve home path errSize with
  | .error why => .error why
  | .ok path =>
      match opened path with
      | .error reason =>
          .error (qweMsg errSize (bytes "cannot read the key file " ++ path ++ bytes ": " ++
            reason ++ bytes " (make one with qwe keygen)"))
      | .ok reading =>
          match reading.stat with
          | none => .error (qweMsg errSize
              (bytes "the key file " ++ path ++ bytes " is not a regular file"))
          | some st =>
              if st.type ≠ .regular then
                .error (qweMsg errSize
                  (bytes "the key file " ++ path ++ bytes " is not a regular file"))
              else
                match privateCheck euid st (bytes "the key file") path errSize with
                | some why => .error why
                | none =>
                    match keyIn signed ((reading.got.getD []).take 256) with
                    | some key => .ok key
                    | none => .error (qweMsg errSize (bytes "the key file " ++ path ++
                        bytes " is neither 32 raw bytes nor base64 of 32 bytes"))

end Load

/-! ## Making a key -/

/-- The directories that `qwe_key_generate` makes, one after the other: the beginnings of
`dir` up to a slash or the end. -/
def parents (dir : Bytes) : List Bytes :=
  ((List.range' 1 dir.length).filter fun i => i = dir.length ∨ dir[i]? = some 47).map dir.take

/-- The directory part of a path, none where there is nothing to make. -/
def directory (path : Bytes) : Option Bytes :=
  let upToSlash := path.rdropWhile (· != 47)
  if upToSlash.length ≤ 1 then none else some upToSlash.dropLast

/-- What one `write` does. -/
inductive Write where
  | interrupted
  | failed (reason : Bytes)
  | wrote (n : Nat)
deriving DecidableEq, Repr

/-- The write loop: the bytes written, and the reason when it failed.  None: it goes on. -/
def writeKey (key : Key) : Nat → List Write → Option (Bytes × Option Bytes)
  | off, [] => if off < 32 then none else some (key.toList.take off, none)
  | off, outcome :: later =>
      if off < 32 then
        match outcome with
        | .interrupted => writeKey key off later
        | .failed reason => some (key.toList.take off, some reason)
        | .wrote n => writeKey key (off + min n (32 - off)) later
      else some (key.toList.take off, none)

/-- A file as it lies on the disk. -/
structure Stored where
  stat : Stat
  content : Bytes
deriving DecidableEq, Repr

/-- What the system answers to `qwe_key_generate`: `mkdir` with the reason of a failure other
than `EEXIST`, `open` with the reason of a failure, and the writes. -/
structure Making where
  sodium : Bool
  mkdir : Bytes → Option Bytes
  openFails : Option Bytes
  writes : List Write

/-- `qwe_key_generate`: what it returns and the file that is at the path afterwards.  None:
it is still writing. -/
def keyGenerate (euid : Nat) (home path : Option Bytes) (errSize : Nat) (making : Making)
    (key : Key) (before : Option Stored) : Option (Except Bytes Unit × Option Stored) :=
  match resolve home path errSize with
  | .error why => some (.error why, before)
  | .ok path =>
      if !making.sodium then
        some (.error (qweMsg errSize (bytes "cannot initialize libsodium")), before)
      else if 1024 ≤ path.length then
        some (.error (qweMsg errSize (bytes "the key file path is too long (over 1023 bytes): " ++
          path.take 64 ++ bytes "...")), before)
      else
        match (((directory path).map parents).getD []).findSome?
            fun dir => (making.mkdir dir).map fun reason => (dir, reason) with
        | some (dir, reason) =>
            some (.error (qweMsg errSize
              (bytes "cannot create " ++ dir ++ bytes ": " ++ reason)), before)
        | none =>
            match making.openFails with
            | some reason =>
                some (.error (qweMsg errSize
                  (bytes "cannot create the key file " ++ path ++ bytes ": " ++ reason)), before)
            | none =>
                if before.isSome then
                  some (.error (qweMsg errSize (bytes "the key file " ++ path ++
                    bytes " already exists: not overwriting it")), before)
                else
                  match writeKey key 0 making.writes with
                  | none => none
                  | some (_, some reason) =>
                      some (.error (qweMsg errSize
                        (bytes "cannot write " ++ path ++ bytes ": " ++ reason)), none)
                  | some (content, none) =>
                      some (.ok (), some ⟨⟨euid, .regular, 0o600⟩, content⟩)

/-! ## Which files hold which keys -/

theorem keyOf_iff {bin : Bytes} {key : Key} : keyOf bin = some key ↔ bin = key.toList := by
  rw [keyOf]
  constructor
  · intro found
    split_ifs at found
    rw [← Option.some.inj found, Vector.toList_mk]
  · intro same
    have long : bin.length = 32 := by rw [same, Vector.length_toList]
    rw [dif_pos long, Option.some.injEq]
    apply Vector.toList_inj.mp
    rw [Vector.toList_mk, same]

/-- The text of a key ends in its padding. -/
theorem base64_key (key : Key) : ∃ front, base64 key.toList = front ++ [61] := by
  obtain ⟨digits, zeros, spells, text⟩ := base64_spec key.toList
  have long := spells.long
  have few := spells.few
  rw [Vector.length_toList] at long
  have two : zeros = 2 := by omega
  exact ⟨digits.map b64Char, by rw [text, two]; rfl⟩

/-- Nothing of a text that holds a key is taken for its tail. -/
theorem rdropWhile_key {signed : Bool} {b64 tail : Bytes} {key : Key}
    (holds : b64.map (readAs signed) = base64 key.toList) (blank : ∀ c ∈ tail, isTail c = true) :
    (b64 ++ tail).rdropWhile isTail = b64 := by
  obtain ⟨front, ends⟩ := base64_key key
  rw [ends] at holds
  obtain ⟨front', last, rfl, -, lastRead⟩ := List.map_eq_append_iff.mp holds
  obtain ⟨c, rest, rfl, read, none_⟩ := List.map_eq_cons_iff.mp lastRead
  obtain rfl := List.map_eq_nil_iff.mp none_
  obtain rfl := (readAs_eq_pad signed c).mp read
  induction tail using List.reverseRecOn with
  | nil => rw [List.append_nil, List.rdropWhile_concat_neg _ _ _ (by decide)]
  | append_singleton tail c inductionHypothesis =>
      rw [← List.append_assoc, List.rdropWhile_concat_pos]
      · exact inductionHypothesis fun d present => blank d (List.mem_append_left _ present)
      · exact blank c (List.mem_append_right _ (List.mem_singleton_self c))

/-- A key as 32 raw bytes, or as the text that is read as theirs with a tail behind it. -/
theorem keyIn_iff {signed : Bool} {raw : Bytes} {key : Key} : keyIn signed raw = some key ↔
    raw = key.toList ∨ raw.length ≠ 32 ∧ ∃ b64 tail, raw = b64 ++ tail ∧
      (∀ c ∈ tail, isTail c = true) ∧ b64.map (readAs signed) = base64 key.toList := by
  have keyLong : key.toList.length = 32 := Vector.length_toList
  by_cases long : raw.length = 32
  · rw [keyIn, if_pos long, keyOf_iff]
    simp only [long, ne_eq, not_true_eq_false, false_and, or_false]
  · have notRaw : raw ≠ key.toList := fun same => long (by rw [same, keyLong])
    rw [keyIn, if_neg long]
    simp only [notRaw, false_or, ne_eq, long, not_false_eq_true, true_and]
    constructor
    · intro found
      split_ifs at found
      obtain ⟨bin, decoded, isKey⟩ := Option.bind_eq_some_iff.mp found
      obtain rfl := keyOf_iff.mp isKey
      refine ⟨raw.rdropWhile isTail, raw.rtakeWhile isTail,
        List.rdropWhile_append_rtakeWhile.symm, fun c present => ?_,
        (sodiumBase642bin_iff.mp decoded).2⟩
      exact List.mem_rtakeWhile_imp present
    · rintro ⟨b64, tail, rfl, blank, holds⟩
      have something : b64 ≠ [] := by
        rintro rfl
        obtain ⟨front, ends⟩ := base64_key key
        rw [ends] at holds
        simp at holds
      rw [rdropWhile_key holds blank, if_neg something, sodiumBase642bin_iff.mpr ⟨keyLong.le, holds⟩]
      exact keyOf_iff.mpr rfl

theorem privateCheck_iff {euid errSize : Nat} {st : Stat} {what path : Bytes} :
    privateCheck euid st what path errSize = none ↔ st.uid = euid ∧ st.mode % 64 = 0 := by
  rw [privateCheck]
  by_cases mine : st.uid = euid
  · by_cases closed : st.mode % 64 = 0 <;> simp [mine, closed]
  · simp [mine]

theorem keyLoad_of_file {signed : Bool} {euid errSize : Nat} {home path got : Option Bytes}
    {opened : Bytes → Except Bytes Reading} {name : Bytes} {st : Stat} {key : Key}
    (resolved : resolve home path errSize = .ok name) (isOpen : opened name = .ok ⟨some st, got⟩)
    (regular : st.type = .regular) (mine : st.uid = euid) (closed : st.mode % 64 = 0)
    (content : keyIn signed ((got.getD []).take 256) = some key) :
    keyLoad signed euid home opened path errSize = .ok key := by
  rw [keyLoad, resolved]
  dsimp only
  rw [isOpen]
  dsimp only
  rw [if_neg (not_not.mpr regular), privateCheck_iff.mpr ⟨mine, closed⟩]
  dsimp only
  rw [content]

/-- Just the files that a key is loaded from: owned by the user, closed to everybody else, and
with the key in the first 256 bytes. -/
theorem keyLoad_iff (signed : Bool) (euid : Nat) (home : Option Bytes)
    (opened : Bytes → Except Bytes Reading) (path : Option Bytes) (errSize : Nat) (key : Key) :
    keyLoad signed euid home opened path errSize = .ok key ↔
      ∃ name st got, resolve home path errSize = .ok name ∧
        opened name = .ok ⟨some st, got⟩ ∧ st.type = .regular ∧ st.uid = euid ∧
        st.mode % 64 = 0 ∧
        ((got.getD []).take 256 = key.toList ∨
          ((got.getD []).take 256).length ≠ 32 ∧ ∃ b64 tail,
            (got.getD []).take 256 = b64 ++ tail ∧ (∀ c ∈ tail, isTail c = true) ∧
            b64.map (readAs signed) = base64 key.toList) := by
  constructor
  · intro loaded
    rw [keyLoad] at loaded
    split at loaded
    · exact absurd loaded (by simp)
    rename_i name resolved
    split at loaded
    · exact absurd loaded (by simp)
    rename_i reading isOpen
    split at loaded
    · exact absurd loaded (by simp)
    rename_i st stats
    split_ifs at loaded with regular
    split at loaded
    · exact absurd loaded (by simp)
    rename_i allowed
    split at loaded
    · rename_i found isKey
      obtain rfl := Except.ok.inj loaded
      obtain ⟨mine, closed⟩ := privateCheck_iff.mp allowed
      refine ⟨name, st, reading.got, resolved, ?_, not_not.mp regular, mine, closed,
        keyIn_iff.mp isKey⟩
      rw [isOpen, ← stats]
    · exact absurd loaded (by simp)
  · rintro ⟨name, st, got, resolved, isOpen, regular, mine, closed, content⟩
    exact keyLoad_of_file resolved isOpen regular mine closed (keyIn_iff.mpr content)

/-! ## What a new key file holds -/

/-- The write loop stops with all of the key, however the writes are cut. -/
theorem writeKey_done {key : Key} {off : Nat} {outcomes : List Write} {content : Bytes}
    (inside : off ≤ 32) (done : writeKey key off outcomes = some (content, none)) :
    content = key.toList := by
  have whole : ∀ off, 32 ≤ off → key.toList.take off = key.toList := fun off full =>
    List.take_of_length_le (by rwa [Vector.length_toList])
  induction outcomes generalizing off with
  | nil =>
      rw [writeKey] at done
      split_ifs at done with more
      simp only [Option.some.injEq, Prod.mk.injEq, and_true] at done
      rw [← done, whole off (by omega)]
  | cons outcome later inductionHypothesis =>
      rw [writeKey.eq_def] at done
      dsimp only at done
      split_ifs at done with more
      · cases outcome with
        | interrupted => exact inductionHypothesis inside done
        | failed reason => simp at done
        | wrote n => exact inductionHypothesis (by omega) done
      · simp only [Option.some.injEq, Prod.mk.injEq, and_true] at done
        rw [← done, whole off (by omega)]

/-- A key file is new, and holds the whole key; where none is made, what was at the path is
there still. -/
theorem keyGenerate_spec {euid errSize : Nat} {home path : Option Bytes} {making : Making}
    {key : Key} {before after : Option Stored} {result : Except Bytes Unit}
    (made : keyGenerate euid home path errSize making key before = some (result, after)) :
    (∃ why, result = .error why ∧ after = before) ∨
      result = .ok () ∧ before = none ∧
        after = some ⟨⟨euid, .regular, 0o600⟩, key.toList⟩ := by
  have refused : ∀ why : Bytes, some (Except.error why, before) = some (result, after) →
      ∃ why, result = .error why ∧ after = before := by
    intro why same
    simp only [Option.some.injEq, Prod.mk.injEq] at same
    exact ⟨why, same.1.symm, same.2.symm⟩
  rw [keyGenerate] at made
  split at made
  · exact Or.inl (refused _ made)
  split at made
  · exact Or.inl (refused _ made)
  split at made
  · exact Or.inl (refused _ made)
  split at made
  · exact Or.inl (refused _ made)
  split at made
  · exact Or.inl (refused _ made)
  split at made
  · exact Or.inl (refused _ made)
  rename_i new
  have fresh : before = none := by simpa using new
  split at made
  · exact absurd made (by simp)
  · simp only [Option.some.injEq, Prod.mk.injEq] at made
    exact Or.inl ⟨_, made.1.symm, by rw [← made.2, fresh]⟩
  · rename_i content written
    simp only [Option.some.injEq, Prod.mk.injEq] at made
    rw [writeKey_done (Nat.zero_le 32) written] at made
    exact Or.inr ⟨made.1.symm, fresh, made.2.symm⟩

end Qwe.Secrets
