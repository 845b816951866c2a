import Mathlib.Data.List.DropRight
import Mathlib.Data.List.TakeWhile

/-!
# Lua patterns

The patterns of Lua's string library, as trees, and the functions over them: `match`,
`gmatch` and `gsub`.  A text is its bytes, and the classes are those of the C locale.  A
pattern that the library would refuse (a capture that is not open, say) matches nothing
here.
-/

set_option autoImplicit false

namespace Qwe.Patterns

abbrev Text := List UInt8

/-! ## Classes -/

/-- `%a`, `%c`, `%d`, `%g`, `%l`, `%p`, `%s`, `%u`, `%w`, `%x` and `%z`. -/
inductive Kind where
  | alpha
  | cntrl
  | digit
  | graph
  | lower
  | punct
  | space
  | upper
  | alnum
  | xdigit
  | zero
deriving DecidableEq, Repr

def Kind.has : Kind → UInt8 → Bool
  | .alpha, b => (65 ≤ b && b ≤ 90) || (97 ≤ b && b ≤ 122)
  | .cntrl, b => b ≤ 31 || b == 127
  | .digit, b => 48 ≤ b && b ≤ 57
  | .graph, b => 33 ≤ b && b ≤ 126
  | .lower, b => 97 ≤ b && b ≤ 122
  | .punct, b => (33 ≤ b && b ≤ 47) || (58 ≤ b && b ≤ 64) || (91 ≤ b && b ≤ 96) ||
      (123 ≤ b && b ≤ 126)
  | .space, b => b == 32 || (9 ≤ b && b ≤ 13)
  | .upper, b => 65 ≤ b && b ≤ 90
  | .alnum, b => (48 ≤ b && b ≤ 57) || (65 ≤ b && b ≤ 90) || (97 ≤ b && b ≤ 122)
  | .xdigit, b => (48 ≤ b && b ≤ 57) || (65 ≤ b && b ≤ 70) || (97 ≤ b && b ≤ 102)
  | .zero, b => b == 0

/-- A part of a set; the complement of a class is its capital letter. -/
inductive Part where
  | byte (b : UInt8)
  | range (low high : UInt8)
  | kind (k : Kind) (complement : Bool)
deriving DecidableEq, Repr

def Part.has : Part → UInt8 → Bool
  | .byte b, c => b == c
  | .range low high, c => low ≤ c && c ≤ high
  | .kind k complement, c => k.has c != complement

/-- What stands for one byte: `.`, a byte, a class, or a set. -/
inductive Class where
  | any
  | byte (b : UInt8)
  | kind (k : Kind) (complement : Bool)
  | set (complement : Bool) (parts : List Part)
deriving DecidableEq, Repr

def setHas (complement : Bool) (parts : List Part) (c : UInt8) : Bool :=
  parts.any (·.has c) != complement

def Class.has : Class → UInt8 → Bool
  | .any, _ => true
  | .byte b, c => b == c
  | .kind k complement, c => k.has c != complement
  | .set complement parts, c => setHas complement parts c

/-! ## Matching -/

inductive Item where
  | one (c : Class)
  /-- `c?` -/
  | optional (c : Class)
  /-- `c*` -/
  | star (c : Class)
  /-- `c+` -/
  | plus (c : Class)
  /-- `c-` -/
  | lazy (c : Class)
  /-- `(` -/
  | start
  /-- `()` -/
  | position
  /-- `)` -/
  | stop
  /-- `%1` to `%9`, from 0 -/
  | back (i : Nat)
  /-- `%bxy` -/
  | balance (opening closing : UInt8)
  /-- `%f[set]` -/
  | frontier (complement : Bool) (parts : List Part)
  /-- `$` -/
  | finish
deriving DecidableEq, Repr

/-- An unfinished capture keeps the text from its start on. -/
inductive Capture where
  | unfinished (rest : Text)
  | position (offset : Nat)
  | finished (text : Text)
deriving DecidableEq, Repr

def Capture.isOpen : Capture → Bool
  | .unfinished _ => true
  | _ => false

/-- A place in the subject: the byte before it (NUL at the start), the rest, how far it
is, and the captures so far. -/
structure Place where
  before : UInt8
  rest : Text
  offset : Nat
  captures : List Capture
deriving DecidableEq, Repr

namespace Place

def first (s : Text) : Place := ⟨0, s, 0, []⟩

def next (p : Place) : Place :=
  match p.rest with
  | [] => p
  | b :: rest => { p with before := b, rest := rest, offset := p.offset + 1 }

def skip : Nat → Place → Place
  | 0, p => p
  | n + 1, p => skip n p.next

/-- The next byte is there, and of the class. -/
def sees (c : Class) (p : Place) : Bool :=
  match p.rest with
  | [] => false
  | b :: _ => c.has b

def capture (what : Capture) (p : Place) : Place := { p with captures := p.captures ++ [what] }

def fresh (p : Place) : Place := { p with captures := [] }

/-- The last capture that is not finished ends here. -/
def close (p : Place) : Option Place :=
  let later := (p.captures.reverse.takeWhile fun c => !c.isOpen).reverse
  match (p.captures.reverse.dropWhile fun c => !c.isOpen) with
  | .unfinished from_ :: earlier =>
      let text := from_.take (from_.length - p.rest.length)
      some { p with captures := earlier.reverse ++ .finished text :: later }
  | _ => none

end Place

/-- `max_expand`: as many as `n`, then fewer. -/
def greedy (k : Place → Option Place) (p : Place) : Nat → Option Place
  | 0 => k p
  | n + 1 => (k (p.skip (n + 1))).or (greedy k p n)

/-- `min_expand`, with the length of the rest as fuel. -/
def lazily (c : Class) (k : Place → Option Place) : Nat → Place → Option Place
  | 0, p => k p
  | n + 1, p => (k p).or (if p.sees c then lazily c k n p.next else none)

/-- `matchbalance` behind the opening byte: how many bytes it takes. -/
def balanced (opening closing : UInt8) : Nat → Text → Option Nat
  | _, [] => none
  | depth, b :: rest =>
      if b = closing then
        if depth = 0 then some 1 else (balanced opening closing (depth - 1) rest).map (· + 1)
      else if b = opening then (balanced opening closing (depth + 1) rest).map (· + 1)
      else (balanced opening closing depth rest).map (· + 1)

/-- `match`: where the items end that begin here. -/
def run : List Item → Place → Option Place
  | [], p => some p
  | .one c :: items, p => if p.sees c then run items p.next else none
  | .optional c :: items, p =>
      if p.sees c then (run items p.next).or (run items p) else run items p
  | .star c :: items, p => greedy (run items) p (p.rest.takeWhile c.has).length
  | .plus c :: items, p =>
      if p.sees c then greedy (run items) p.next (p.next.rest.takeWhile c.has).length else none
  | .lazy c :: items, p => lazily c (run items) p.rest.length p
  | .start :: items, p => run items (p.capture (.unfinished p.rest))
  | .position :: items, p => run items (p.capture (.position p.offset))
  | .stop :: items, p => p.close.bind (run items)
  | .back i :: items, p =>
      match p.captures[i]? with
      | some (.finished text) =>
          if text.isPrefixOf p.rest then run items (p.skip text.length) else none
      | _ => none
  | .balance opening closing :: items, p =>
      match p.rest with
      | [] => none
      | b :: rest =>
          if b = opening then
            (balanced opening closing 0 rest).bind fun n => run items (p.skip (n + 1))
          else none
  | .frontier complement parts :: items, p =>
      if !setHas complement parts p.before && setHas complement parts (p.rest.head?.getD 0) then
        run items p
      else none
  | .finish :: items, p => if p.rest = [] then run items p else none

@[simp]
theorem run_nil (p : Place) : run [] p = some p := by rw [run]

/-! ## The functions -/

structure Pattern where
  /-- `^` -/
  anchored : Bool
  items : List Item
deriving DecidableEq, Repr

/-- A match: all of it, and its captures. -/
structure Match where
  whole : Text
  captures : List Capture
deriving DecidableEq, Repr

def matched (p q : Place) : Match := ⟨p.rest.take (p.rest.length - q.rest.length), q.captures⟩

/-- The text of a capture; without captures the whole match is the first. -/
def Match.text (m : Match) (i : Nat) : Text :=
  match m.captures[i]? with
  | some (.finished text) => text
  | _ => if i = 0 ∧ m.captures = [] then m.whole else []

/-- The first match at one of the next `n` places, or here. -/
def search (items : List Item) : Nat → Place → Option (Place × Place)
  | 0, p => (run items p).map (p, ·)
  | n + 1, p =>
      match run items p with
      | some q => some (p, q)
      | none => search items n p.next

/-- `string.match` -/
def match_ (pattern : Pattern) (s : Text) : Option Match :=
  let found := search pattern.items (if pattern.anchored then 0 else s.length) (.first s)
  found.map fun (p, q) => matched p q

/-- `string.gmatch` from a place on; an empty match moves one byte on. -/
def gmatchFrom (items : List Item) : Nat → Place → List Match
  | 0, _ => []
  | n + 1, p =>
      match run items p.fresh with
      | some q =>
          matched p q ::
            if q.rest.length < p.rest.length then gmatchFrom items n q
            else if q.rest = [] then [] else gmatchFrom items n q.next
      | none => if p.rest = [] then [] else gmatchFrom items n p.next

/-- `string.gmatch`; it has no anchor. -/
def gmatch (items : List Item) (s : Text) : List Match := gmatchFrom items (s.length + 1) (.first s)

/-- `string.gsub` from a place on, where the replacement is a function of the match. -/
def gsubFrom (items : List Item) (value : Match → Text) : Nat → Place → Text
  | 0, p => p.rest
  | n + 1, p =>
      match run items p.fresh with
      | some q =>
          value (matched p q) ++
            if q.rest.length < p.rest.length then gsubFrom items value n q
            else
              match p.rest with
              | [] => []
              | b :: _ => b :: gsubFrom items value n p.next
      | none =>
          match p.rest with
          | [] => []
          | b :: _ => b :: gsubFrom items value n p.next

/-- `string.gsub`; an anchored pattern is tried once. -/
def gsub (pattern : Pattern) (value : Match → Text) (s : Text) : Text :=
  gsubFrom pattern.items value (if pattern.anchored then 1 else s.length + 1) (.first s)

/-! ## Places -/

section Places
variable {c : Class} {b : UInt8} {s a rest : Text} {p q : Place} {i n : Nat}

theorem next_rest (p : Place) : p.next.rest = p.rest.tail := by
  unfold Place.next
  cases rest : p.rest with
  | nil => rw [rest]; rfl
  | cons b rest => rfl

theorem next_captures (p : Place) : p.next.captures = p.captures := by
  unfold Place.next
  cases p.rest with
  | nil => rfl
  | cons b rest => rfl

@[simp]
theorem skip_zero (p : Place) : p.skip 0 = p := rfl

theorem skip_succ (p : Place) (n : Nat) : p.skip (n + 1) = p.next.skip n := rfl

theorem skip_rest (n : Nat) (p : Place) : (p.skip n).rest = p.rest.drop n := by
  induction n generalizing p with
  | zero => rfl
  | succ n inductionHypothesis => rw [skip_succ, inductionHypothesis, next_rest, List.drop_tail]

theorem skip_captures (n : Nat) (p : Place) : (p.skip n).captures = p.captures := by
  induction n generalizing p with
  | zero => rfl
  | succ n inductionHypothesis => rw [skip_succ, inductionHypothesis, next_captures]

theorem skip_next (n : Nat) (p : Place) : (p.skip n).next = p.skip (n + 1) := by
  induction n generalizing p with
  | zero => rfl
  | succ n inductionHypothesis => exact inductionHypothesis p.next

theorem skip_skip (m n : Nat) (p : Place) : (p.skip m).skip n = p.skip (m + n) := by
  induction m generalizing p with
  | zero => rw [skip_zero, Nat.zero_add]
  | succ m inductionHypothesis =>
      rw [skip_succ, inductionHypothesis, Nat.succ_add, skip_succ]

theorem sees_cons (front : p.rest = b :: rest) : p.sees c = c.has b := by
  rw [Place.sees, front]

theorem sees_nil (ends : p.rest = []) : p.sees c = false := by
  rw [Place.sees, ends]

/-- The captures do not move a place. -/
theorem skip_with (n : Nat) (p : Place) (captures : List Capture) :
    Place.skip n { p with captures := captures } = { p.skip n with captures := captures } := by
  induction n generalizing p with
  | zero => rfl
  | succ n inductionHypothesis =>
      have same : Place.next { p with captures := captures }
          = { p.next with captures := captures } := by
        obtain ⟨before, rest, offset, old⟩ := p
        cases rest with
        | nil => rfl
        | cons b rest => rfl
      rw [skip_succ, skip_succ, same, inductionHypothesis]

theorem skip_capture (n : Nat) (p : Place) (what : Capture) :
    (p.capture what).skip n = (p.skip n).capture what := by
  rw [Place.capture, skip_with, Place.capture, skip_captures]

theorem skip_fresh (n : Nat) (p : Place) : p.fresh.skip n = (p.skip n).fresh :=
  skip_with n p []

/-! ## Repetitions -/

/-- The longest repetition is taken where what follows matches. -/
theorem greedy_of_some {k : Place → Option Place} (hit : k (p.skip n) = some q) :
    greedy k p n = some q := by
  cases n with
  | zero => exact hit
  | succ n =>
      rw [greedy, hit]
      rfl

theorem greedy_none {k : Place → Option Place} (fails : ∀ j ≤ n, k (p.skip j) = none) :
    greedy k p n = none := by
  induction n with
  | zero => exact fails 0 (le_refl 0)
  | succ n inductionHypothesis =>
      rw [greedy, fails (n + 1) (le_refl _), Option.none_or]
      exact inductionHypothesis fun j below => fails j (Nat.le_succ_of_le below)

/-- Nothing shorter than the longest matches. -/
theorem greedy_eq {k : Place → Option Place} (fails : ∀ j < n, k (p.skip j) = none) :
    greedy k p n = k (p.skip n) := by
  cases hit : k (p.skip n) with
  | some q => exact greedy_of_some hit
  | none =>
      apply greedy_none
      intro j below
      rcases Nat.lt_or_eq_of_le below with less | rfl
      · exact fails j less
      · exact hit

/-- The shortest repetition behind which the rest matches. -/
theorem lazily_of_some {k : Place → Option Place} (enough : i ≤ n)
    (sees : ∀ j < i, (p.skip j).sees c = true) (fails : ∀ j < i, k (p.skip j) = none)
    (hit : k (p.skip i) = some q) : lazily c k n p = some q := by
  induction i generalizing n p with
  | zero =>
      cases n with
      | zero => exact hit
      | succ n => rw [lazily, show k p = some q from hit]; rfl
  | succ i inductionHypothesis =>
      obtain ⟨n, rfl⟩ : ∃ m, n = m + 1 := ⟨n - 1, by omega⟩
      rw [lazily, show k p = none from fails 0 (Nat.succ_pos i), Option.none_or,
        if_pos (show p.sees c = true from sees 0 (Nat.succ_pos i))]
      exact inductionHypothesis (Nat.le_of_succ_le_succ enough)
        (fun j below => sees (j + 1) (Nat.succ_lt_succ below))
        (fun j below => fails (j + 1) (Nat.succ_lt_succ below)) hit

theorem lazily_none {k : Place → Option Place}
    (fails : ∀ j ≤ n, k (p.skip j) = none) : lazily c k n p = none := by
  induction n generalizing p with
  | zero => exact fails 0 (le_refl 0)
  | succ n inductionHypothesis =>
      rw [lazily, show k p = none from fails 0 (Nat.zero_le _), Option.none_or]
      split_ifs
      · exact inductionHypothesis fun j below => fails (j + 1) (Nat.succ_le_succ below)
      · rfl

theorem skip_front (front : p.rest = a ++ rest) : (p.skip a.length).rest = rest := by
  rw [skip_rest, front, List.drop_left]

theorem sees_skip (front : p.rest = a ++ rest) (inside : i < a.length) :
    (p.skip i).sees c = c.has a[i] := by
  rw [Place.sees, skip_rest, front, List.drop_append_of_le_length (Nat.le_of_lt inside),
    List.drop_eq_getElem_cons inside]
  rfl

theorem sees_absent (absent : b ∉ p.rest) (n : Nat) : (p.skip n).sees (.byte b) = false := by
  cases front : (p.skip n).rest with
  | nil => exact sees_nil front
  | cons other rest =>
      rw [sees_cons front, Class.has, beq_eq_false_iff_ne]
      rintro rfl
      have present : b ∈ p.rest.drop n := by
        rw [← skip_rest, front]
        exact List.mem_cons_self
      exact absent (List.mem_of_mem_drop present)

/-- Every byte is of the class `.`. -/
theorem sees_any (inside : i < p.rest.length) : (p.skip i).sees .any = true := by
  rw [Place.sees, skip_rest, List.drop_eq_getElem_cons inside]
  rfl

theorem run_one_none {items : List Item} (unseen : p.sees c = false) :
    run (.one c :: items) p = none := by
  rw [run, unseen]
  rfl

/-- A repetition stops before a byte of another class. -/
theorem takeWhile_length_lt {has : UInt8 → Bool} (inside : b ∈ s) (other : has b = false) :
    (s.takeWhile has).length < s.length := by
  by_contra all
  have whole : s.takeWhile has = s :=
    (List.takeWhile_prefix _).eq_of_length_le (Nat.le_of_not_lt all)
  exact Bool.false_ne_true (other.symm.trans (List.takeWhile_eq_self_iff.mp whole b inside))

/-! ## Captures -/

/-- A capture that was opened `n` bytes before. -/
theorem close_skip (p : Place) (n : Nat) :
    ((p.skip n).capture (.unfinished p.rest)).close
      = some ((p.skip n).capture (.finished (p.rest.take n))) := by
  have last : (p.captures ++ [Capture.unfinished p.rest]).reverse
      = .unfinished p.rest :: p.captures.reverse := by simp
  unfold Place.close Place.capture
  dsimp only
  rw [skip_captures, skip_rest, last, List.dropWhile_cons, List.takeWhile_cons]
  simp [Capture.isOpen]
  omega

/-- `(.-)` takes as little as what follows allows. -/
theorem run_lazy_capture {items : List Item} {a : Text} (front : p.rest = a ++ rest)
    (fails : ∀ j < a.length, ∀ what, run items ((p.skip j).capture what) = none)
    (hit : run items ((p.skip a.length).capture (.finished a)) = some q) :
    run (.start :: .lazy .any :: .stop :: items) p = some q := by
  have stop (j : Nat) : run (.stop :: items) ((p.capture (.unfinished p.rest)).skip j)
      = run items ((p.skip j).capture (.finished (p.rest.take j))) := by
    rw [run, skip_capture, close_skip]
    rfl
  have inside : a.length ≤ p.rest.length := by
    rw [front, List.length_append]
    omega
  rw [run, run]
  apply lazily_of_some (i := a.length) inside
  · intro j below
    exact sees_any (p := p.capture (.unfinished p.rest)) (Nat.lt_of_lt_of_le below inside)
  · intro j below
    rw [stop]
    exact fails j below _
  · rw [stop, front, List.take_left']
    · exact hit
    · rfl

/-- `(.-)` where nothing behind it ever matches. -/
theorem run_lazy_capture_none {items : List Item}
    (fails : ∀ j ≤ p.rest.length, ∀ what, run items ((p.skip j).capture what) = none) :
    run (.start :: .lazy .any :: .stop :: items) p = none := by
  rw [run, run]
  apply lazily_none
  intro j below
  rw [run, skip_capture, close_skip]
  exact fails j below _

/-- `(c*)` takes all of the class, where what follows matches behind it. -/
theorem run_star_capture {items : List Item} {a : Text} (front : p.rest = a ++ rest)
    (all : ∀ b ∈ a, c.has b = true) (stops : ∀ b ∈ rest.head?, c.has b = false)
    (hit : run items ((p.skip a.length).capture (.finished a)) = some q) :
    run (.start :: .star c :: .stop :: items) p = some q := by
  have taken : p.rest.takeWhile c.has = a := by
    rw [front, List.takeWhile_append_of_pos all]
    cases rest with
    | nil => simp
    | cons b rest =>
        rw [List.takeWhile_cons_of_neg (by rw [stops b rfl]; decide), List.append_nil]
  rw [run, run, show (p.capture (.unfinished p.rest)).rest = p.rest from rfl, taken]
  apply greedy_of_some
  rw [run, skip_capture, close_skip, Option.bind_some, front, List.take_left' rfl]
  exact hit

/-- `(.*)$` and, behind one byte, `(.+)$` take everything. -/
theorem run_rest_capture (p : Place) :
    run [.start, .star .any, .stop, .finish] p
      = some ((p.skip p.rest.length).capture (.finished p.rest)) := by
  rw [run, run]
  have all : (p.capture (.unfinished p.rest)).rest.takeWhile Class.any.has = p.rest := by
    change p.rest.takeWhile Class.any.has = p.rest
    rw [List.takeWhile_eq_self_iff]
    exact fun _ _ => rfl
  rw [all]
  apply greedy_of_some
  rw [run, skip_capture, close_skip, List.take_length, Option.bind_some, run, if_pos]
  · rfl
  · change (p.skip p.rest.length).rest = []
    rw [skip_rest, List.drop_length]

theorem run_rest_capture_plus (p : Place) (nonempty : p.rest ≠ []) :
    run [.start, .plus .any, .stop, .finish] p
      = some ((p.skip p.rest.length).capture (.finished p.rest)) := by
  obtain ⟨b, rest, front⟩ := List.exists_cons_of_ne_nil nonempty
  have behind : (p.capture (.unfinished p.rest)).next.rest = rest := by
    rw [next_rest]
    change p.rest.tail = rest
    rw [front, List.tail_cons]
  have all : (p.capture (.unfinished p.rest)).next.rest.takeWhile Class.any.has = rest := by
    rw [behind, List.takeWhile_eq_self_iff]
    exact fun _ _ => rfl
  rw [run, run, if_pos, all]
  · apply greedy_of_some
    rw [← skip_succ, run, skip_capture, close_skip, Option.bind_some, run, if_pos]
    · rw [run, front, List.length_cons]
      exact congrArg (fun text => some (Place.capture (.finished text) _))
        (List.take_of_length_le (Nat.le_refl _))
    · change (p.skip (rest.length + 1)).rest = []
      rw [skip_rest, front]
      exact List.drop_length
  · exact sees_cons (p := p.capture (.unfinished p.rest)) front

/-- `(AB*)`, where nothing that follows begins with a `B`. -/
theorem run_word {A B : Class} {items : List Item}
    (stops : ∀ p : Place, p.sees B = true → run items p = none)
    (front : p.rest = b :: rest) (begins : A.has b = true) :
    run (.start :: .one A :: .star B :: .stop :: items) p
      = run items ((p.skip ((rest.takeWhile B.has).length + 1)).capture
          (.finished (b :: rest.takeWhile B.has))) := by
  have behind : (p.capture (.unfinished p.rest)).next.rest = rest := by
    rw [next_rest]
    change p.rest.tail = rest
    rw [front, List.tail_cons]
  have stop (j : Nat) : run (.stop :: items) ((p.capture (.unfinished p.rest)).next.skip j)
      = run items ((p.skip (j + 1)).capture (.finished (p.rest.take (j + 1)))) := by
    rw [← skip_succ, run, skip_capture, close_skip]
    rfl
  have first : (p.capture (.unfinished p.rest)).sees A = true := by
    rw [sees_cons (p := p.capture (.unfinished p.rest)) front]
    exact begins
  rw [run, run, if_pos first, run, behind, greedy_eq]
  · rw [stop, front, List.take_succ_cons,
      ← List.prefix_iff_eq_take.mp (List.takeWhile_prefix B.has)]
  · intro j below
    rw [stop]
    apply stops
    have split : p.next.rest = rest.takeWhile B.has ++ rest.dropWhile B.has := by
      rw [next_rest, front, List.tail_cons, List.takeWhile_append_dropWhile]
    change (p.next.skip j).sees B = true
    rw [sees_skip split below]
    exact List.mem_takeWhile_imp (List.getElem_mem below)

theorem run_word_none {A B : Class} {items : List Item} (other : p.sees A = false) :
    run (.start :: .one A :: .star B :: .stop :: items) p = none := by
  rw [run]
  exact run_one_none other

/-! ## Pieces -/

/-- `items` match behind `a` what stands there up to the rest, and nowhere before. -/
def Ends (items : List Item) (a ending : Text) : Prop :=
  ∀ (p : Place) (rest : Text), p.rest = a ++ (ending ++ rest) →
    (∀ j < a.length, run items (p.skip j) = none) ∧
    ∃ q, run items (p.skip a.length) = some q ∧ q.rest = rest ∧ q.captures = p.captures

def Never (items : List Item) (tail : Text) : Prop :=
  ∀ p : Place, p.rest = tail → ∀ j ≤ tail.length, run items (p.skip j) = none

variable {items : List Item} {ending tail : Text}

theorem Ends.run_lazy (ends : Ends items a ending) (front : p.rest = a ++ (ending ++ rest)) :
    ∃ q, run (.start :: .lazy .any :: .stop :: items) p = some q ∧ q.rest = rest ∧
      q.captures = p.captures ++ [.finished a] := by
  obtain ⟨-, q, hit, left, same⟩ := ends (p.capture (.finished a)) rest front
  refine ⟨q, run_lazy_capture front ?_ ?_, left, same⟩
  · intro j below what
    rw [← skip_capture]
    exact (ends (p.capture what) rest front).1 j below
  · rw [← skip_capture]
    exact hit

theorem gmatchFrom_of_some (hit : run items p.fresh = some q)
    (shorter : q.rest.length < p.rest.length) :
    gmatchFrom items (n + 1) p = matched p q :: gmatchFrom items n q := by
  rw [gmatchFrom, hit]
  simp only [shorter, if_true]

theorem gmatchFrom_of_none (fails : ∀ j ≤ p.rest.length, run items (p.fresh.skip j) = none) :
    gmatchFrom items n p = [] := by
  induction n generalizing p with
  | zero => rfl
  | succ n inductionHypothesis =>
      rw [gmatchFrom, show run items p.fresh = none from fails 0 (Nat.zero_le _)]
      by_cases done : p.rest = []
      · exact if_pos done
      · have positive := List.length_pos_of_ne_nil done
        refine (if_neg done).trans (inductionHypothesis fun j below => ?_)
        rw [next_rest, List.length_tail] at below
        rw [skip_fresh]
        have behind := fails (j + 1) (by omega)
        rwa [skip_fresh] at behind

/-- `gmatch` of `(.-)` and an ending cuts a text into its pieces. -/
theorem gmatchFrom_pieces (never : Never items tail) (pieces : List (Text × Text))
    (ends : ∀ piece ∈ pieces, Ends items piece.1 piece.2 ∧ piece.2 ≠ [])
    (front : p.rest = pieces.flatMap (fun piece => piece.1 ++ piece.2) ++ tail)
    (fuel : p.rest.length < n) :
    (gmatchFrom (.start :: .lazy .any :: .stop :: items) n p).map (·.text 0)
      = pieces.map (·.1) := by
  induction pieces generalizing p n with
  | nil =>
      rw [gmatchFrom_of_none, List.map_nil, List.map_nil]
      intro j below
      apply run_lazy_capture_none
      intro i within what
      rw [skip_rest, List.length_drop] at within
      rw [skip_skip, ← skip_capture]
      have inside : j + i ≤ tail.length := by
        change p.rest = tail at front
        rw [← front]
        change i ≤ p.rest.length - j at within
        omega
      exact never (p.fresh.capture what) front (j + i) inside
  | cons piece pieces inductionHypothesis =>
      obtain ⟨n, rfl⟩ : ∃ m, n = m + 1 := ⟨n - 1, by omega⟩
      rw [List.forall_mem_cons] at ends
      obtain ⟨⟨ends, nonempty⟩, others⟩ := ends
      rw [List.flatMap_cons, List.append_assoc, List.append_assoc] at front
      obtain ⟨q, hit, left, same⟩ := ends.run_lazy (p := p.fresh) front
      have positive := List.length_pos_of_ne_nil nonempty
      have shorter : q.rest.length < p.rest.length := by
        rw [left, front]
        simp only [List.length_append]
        omega
      rw [gmatchFrom_of_some hit shorter, List.map_cons, List.map_cons,
        inductionHypothesis others left (by omega)]
      congr 1
      rw [Match.text, matched, same]
      rfl

theorem gmatch_pieces (never : Never items tail) (pieces : List (Text × Text))
    (ends : ∀ piece ∈ pieces, Ends items piece.1 piece.2 ∧ piece.2 ≠ []) :
    (gmatch (.start :: .lazy .any :: .stop :: items)
      (pieces.flatMap (fun piece => piece.1 ++ piece.2) ++ tail)).map (·.text 0)
        = pieces.map (·.1) :=
  gmatchFrom_pieces never pieces ends rfl (Nat.lt_succ_self _)

/-! ## Lines -/

theorem run_byte (front : p.rest = b :: rest) :
    run (.one (.byte b) :: items) p = run items p.next := by
  rw [run, if_pos]
  rw [sees_cons front, Class.has, beq_self_eq_true]

theorem Ends.byte (inside : b ∉ a) : Ends [.one (.byte b)] a [b] := by
  intro p rest front
  constructor
  · intro j below
    apply run_one_none
    rw [sees_skip front below, Class.has, beq_eq_false_iff_ne]
    rintro rfl
    exact inside (List.getElem_mem below)
  · refine ⟨(p.skip a.length).next, ?_, ?_, ?_⟩
    · rw [run_byte (skip_front front), run]
    · rw [next_rest, skip_front front]
      rfl
    · rw [next_captures, skip_captures]

theorem Never.byte (absent : b ∉ tail) : Never [.one (.byte b)] tail := by
  rintro p rfl j -
  exact run_one_none (sees_absent absent j)

/-- An ending in two spellings: `mark` may stand before `b`. -/
theorem Ends.marked {mark : UInt8} (inside : b ∉ a) (other : mark ≠ b)
    (spelled : (ending = [b] ∧ a.getLast? ≠ some mark) ∨ ending = [mark, b]) :
    Ends [.optional (.byte mark), .one (.byte b)] a ending := by
  intro p rest front
  have fails : ∀ j < a.length, (p.skip j).sees (.byte b) = false := by
    intro j below
    rw [sees_skip front below, Class.has, beq_eq_false_iff_ne]
    rintro rfl
    exact inside (List.getElem_mem below)
  constructor
  · intro j below
    rw [run, run_one_none (fails j below)]
    by_cases marked : (p.skip j).sees (.byte mark) = true
    · rw [if_pos marked, skip_next]
      -- behind a mark at the end of `a` comes the ending, which then begins with a mark
      have unseen : (p.skip (j + 1)).sees (.byte b) = false := by
        by_cases further : j + 1 < a.length
        · exact fails (j + 1) further
        rw [show j + 1 = a.length by omega]
        rcases spelled with ⟨rfl, unmarked⟩ | rfl
        · rw [sees_skip front below, Class.has, beq_iff_eq] at marked
          refine absurd ?_ unmarked
          rw [List.getLast?_eq_getElem?, show a.length - 1 = j by omega,
            List.getElem?_eq_getElem below, marked]
        · rw [sees_cons (skip_front front), Class.has, beq_eq_false_iff_ne]
          exact other.symm
      rw [run_one_none unseen]
      rfl
    · exact if_neg marked
  · rcases spelled with ⟨rfl, -⟩ | rfl
    · refine ⟨(p.skip a.length).next, ?_, ?_, ?_⟩
      · have unseen : (p.skip a.length).sees (.byte mark) = false := by
          rw [sees_cons (skip_front front), Class.has, beq_eq_false_iff_ne]
          exact other
        rw [run, unseen, if_neg Bool.false_ne_true, run_byte (skip_front front), run]
      · rw [next_rest, skip_front front]
        rfl
      · rw [next_captures, skip_captures]
    · have behind : (p.skip a.length).next.rest = b :: rest := by
        rw [next_rest, skip_front front]
        rfl
      refine ⟨(p.skip a.length).next.next, ?_, ?_, ?_⟩
      · have seen : (p.skip a.length).sees (.byte mark) = true := by
          rw [sees_cons (skip_front front), Class.has, beq_self_eq_true]
        rw [run, if_pos seen, run_byte behind, run, Option.some_or]
      · rw [next_rest, behind]
        rfl
      · rw [next_captures, next_captures, skip_captures]

theorem Never.marked {mark : UInt8} (absent : b ∉ tail) :
    Never [.optional (.byte mark), .one (.byte b)] tail := by
  rintro p rfl j -
  rw [run, skip_next, run_one_none (sees_absent absent _), run_one_none (sees_absent absent _)]
  exact ite_self none

/-! ## Replacements -/

theorem run_ending_all (all : ∀ b ∈ p.rest, c.has b = true) (nonempty : p.rest ≠ []) :
    run [.plus c, .finish] p = some (p.skip p.rest.length) := by
  obtain ⟨b, rest, front⟩ := List.exists_cons_of_ne_nil nonempty
  have behind : p.next.rest = rest := by rw [next_rest, front, List.tail_cons]
  rw [front, List.forall_mem_cons] at all
  have taken : p.next.rest.takeWhile c.has = p.next.rest := by
    rw [behind, List.takeWhile_eq_self_iff]
    exact all.2
  rw [run, if_pos (by rw [sees_cons front]; exact all.1), taken]
  apply greedy_of_some
  rw [run, if_pos, run, front, List.length_cons, skip_succ, behind]
  rw [skip_rest, List.drop_length]

theorem run_ending_none (other : ∃ b ∈ p.rest, c.has b = false) :
    run [.plus c, .finish] p = none := by
  obtain ⟨b, inside, fails⟩ := other
  obtain ⟨first, rest, front⟩ := List.exists_cons_of_ne_nil (List.ne_nil_of_mem inside)
  have behind : p.next.rest = rest := by rw [next_rest, front, List.tail_cons]
  by_cases seen : p.sees c = true
  · rw [run, if_pos seen]
    apply greedy_none
    intro j below
    rw [run, if_neg]
    rw [skip_rest, behind, List.drop_eq_nil_iff]
    rw [behind] at below
    rw [sees_cons front] at seen
    rw [front, List.mem_cons] at inside
    rcases inside with rfl | inside
    · exact absurd (fails.symm.trans seen) Bool.false_ne_true
    · have short := takeWhile_length_lt inside fails
      omega
  · rw [run, if_neg seen]

theorem rdropWhile_cons (has : UInt8 → Bool) (b : UInt8) (s : Text)
    (other : ∃ a ∈ b :: s, has a = false) :
    (b :: s).rdropWhile has = b :: s.rdropWhile has := by
  induction s using List.reverseRecOn with
  | nil =>
      obtain ⟨a, inside, fails⟩ := other
      rw [List.mem_singleton.mp inside] at fails
      rw [List.rdropWhile_singleton, fails]
      rfl
  | append_singleton s last inductionHypothesis =>
      rw [← List.cons_append]
      by_cases dropped : has last = true
      · rw [List.rdropWhile_concat_pos _ _ _ dropped, List.rdropWhile_concat_pos _ _ _ dropped]
        obtain ⟨a, inside, fails⟩ := other
        rw [← List.cons_append, List.mem_append, List.mem_singleton] at inside
        rcases inside with inside | rfl
        · exact inductionHypothesis ⟨a, inside, fails⟩
        · exact absurd (fails.symm.trans dropped) Bool.false_ne_true
      · rw [List.rdropWhile_concat_neg _ _ _ dropped, List.rdropWhile_concat_neg _ _ _ dropped,
          List.cons_append]

theorem gsubFrom_trailing (p : Place) (fuel : p.rest.length < n) :
    gsubFrom [.plus c, .finish] (fun _ => []) n p = p.rest.rdropWhile c.has := by
  induction n generalizing p with
  | zero => omega
  | succ n inductionHypothesis =>
      rw [gsubFrom]
      by_cases other : ∃ b ∈ p.rest, c.has b = false
      · rw [run_ending_none (p := p.fresh) other]
        cases front : p.rest with
        | nil => rfl
        | cons b rest =>
            have behind : p.next.rest = rest := by rw [next_rest, front, List.tail_cons]
            rw [front] at other
            rw [rdropWhile_cons _ _ _ other, ← behind]
            dsimp only
            rw [inductionHypothesis]
            rw [front, List.length_cons] at fuel
            rw [behind]
            omega
      · push Not at other
        have all : ∀ b ∈ p.rest, c.has b = true := fun b inside =>
          Bool.of_not_eq_false (other b inside)
        rw [List.rdropWhile_eq_nil_iff.mpr all]
        by_cases empty : p.rest = []
        · rw [run, if_neg (by rw [sees_nil (p := p.fresh) empty]; exact Bool.false_ne_true), empty]
        · obtain ⟨q, hit, done⟩ : ∃ q, run [.plus c, .finish] p.fresh = some q ∧ q.rest = [] :=
            ⟨_, run_ending_all (p := p.fresh) all empty, by rw [skip_rest, List.drop_length]⟩
          have positive := List.length_pos_of_ne_nil empty
          have moved : q.rest.length < p.rest.length := by
            rw [done]
            exact positive
          rw [hit]
          dsimp only
          rw [if_pos moved, inductionHypothesis q (by omega), done]
          rfl

/-- Without the bytes of a class at the end. -/
theorem gsub_trailing (c : Class) (s : Text) :
    gsub ⟨false, [.plus c, .finish]⟩ (fun _ => []) s = s.rdropWhile c.has :=
  gsubFrom_trailing (.first s) (Nat.lt_succ_self _)

/-- Without the bytes of a class at the start. -/
theorem gsub_leading (c : Class) (s : Text) :
    gsub ⟨true, [.plus c]⟩ (fun _ => []) s = s.dropWhile c.has := by
  change gsubFrom [.plus c] (fun _ => []) 1 (.first s) = _
  rw [gsubFrom]
  cases s with
  | nil => rfl
  | cons b s =>
      have front : (Place.first (b :: s)).fresh.rest = b :: s := rfl
      have behind : (Place.first (b :: s)).fresh.next.rest = s := rfl
      by_cases seen : c.has b = true
      · have first : (Place.first (b :: s)).fresh.sees c = true := by
          rw [sees_cons front]
          exact seen
        have left : ((Place.first (b :: s)).fresh.next.skip (s.takeWhile c.has).length).rest
            = s.dropWhile c.has :=
          skip_front (behind.trans List.takeWhile_append_dropWhile.symm)
        have taken : greedy (run []) (Place.first (b :: s)).fresh.next (s.takeWhile c.has).length
            = some ((Place.first (b :: s)).fresh.next.skip (s.takeWhile c.has).length) :=
          greedy_of_some rfl
        have shorter : (s.dropWhile c.has).length < (Place.first (b :: s)).rest.length :=
          Nat.lt_succ_of_le (List.dropWhile_suffix _).length_le
        rw [run, if_pos first, behind, taken]
        dsimp only
        rw [left, if_pos shorter, gsubFrom, left, List.dropWhile_cons_of_pos seen]
        rfl
      · rw [run, if_neg (by rw [sees_cons front]; exact seen), List.dropWhile_cons_of_neg seen]
        rfl

end Places

end Qwe.Patterns
