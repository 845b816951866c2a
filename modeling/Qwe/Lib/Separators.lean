import Mathlib.Data.List.DropRight
import Qwe.Lib.Pattern

/-!
# Patterns with literal bytes

`gsub` of one or two literal bytes, and the two patterns that cut a text at a separator: the
piece behind the last one, and the pieces behind each.
-/

set_option autoImplicit false

namespace Qwe.Patterns

/-- A pair of bytes replaced, from left to right. -/
def replacePair (a b : UInt8) (value : Text) : Text → Text
  | [] => []
  | [c] => [c]
  | c :: d :: rest =>
      if c = a ∧ d = b then value ++ replacePair a b value rest
      else c :: replacePair a b value (d :: rest)

section Literals
variable {a b c : UInt8} {value s : Text} {p : Place} {n : Nat}

theorem replacePair_pair (s : Text) :
    replacePair a b value (a :: b :: s) = value ++ replacePair a b value s := by
  rw [replacePair, if_pos ⟨rfl, rfl⟩]

theorem replacePair_of_second (other : ∀ d ∈ s.head?, d ≠ b) :
    replacePair a b value (c :: s) = c :: replacePair a b value s := by
  cases s with
  | nil => rfl
  | cons d s => rw [replacePair, if_neg fun pair => other d rfl pair.2]

theorem replacePair_of_first (other : c ≠ a) :
    replacePair a b value (c :: s) = c :: replacePair a b value s := by
  cases s with
  | nil => rfl
  | cons d s => rw [replacePair, if_neg fun pair => other pair.1]

theorem sees_byte (front : p.rest = c :: s) : p.sees (.byte a) = true ↔ c = a := by
  rw [sees_cons front, Class.has, beq_iff_eq, eq_comm]

theorem next_front (front : p.rest = c :: s) : p.next.rest = s := by
  rw [next_rest, front, List.tail_cons]

/-- A match that is not empty is replaced, and the search goes on behind it. -/
theorem gsubFrom_of_some {items : List Item} {value : Match → Text} {q : Place}
    (hit : run items p.fresh = some q) (shorter : q.rest.length < p.rest.length) :
    gsubFrom items value (n + 1) p = value (matched p q) ++ gsubFrom items value n q := by
  rw [gsubFrom, hit]
  simp only [shorter, if_true]

theorem gsubFrom_of_none {items : List Item} {value : Match → Text}
    (miss : run items p.fresh = none) (front : p.rest = c :: s) :
    gsubFrom items value (n + 1) p = c :: gsubFrom items value n p.next := by
  rw [gsubFrom, miss, front]

theorem gsubFrom_nil {items : List Item} {value : Match → Text} (miss : run items p.fresh = none)
    (ends : p.rest = []) : gsubFrom items value (n + 1) p = [] := by
  rw [gsubFrom, miss, ends]

theorem gsubFrom_byte (fuel : p.rest.length < n) :
    gsubFrom [.one (.byte b)] (fun _ => value) n p
      = p.rest.flatMap fun d => if d = b then value else [d] := by
  induction n generalizing p with
  | zero => omega
  | succ n inductionHypothesis =>
      cases front : p.rest with
      | nil => exact gsubFrom_nil (run_one_none (sees_nil (p := p.fresh) front)) front
      | cons d rest =>
          rw [front, List.length_cons] at fuel
          have behind := next_front front
          have further := inductionHypothesis (p := p.next) (by rw [behind]; omega)
          rw [behind] at further
          rw [List.flatMap_cons, ← further]
          split_ifs with same
          · have hit : run [.one (.byte b)] p.fresh = some p.fresh.next := by
              rw [run, if_pos ((sees_byte (p := p.fresh) front).mpr same), run]
            have moved := next_front (p := p.fresh) front
            have rest_eq := inductionHypothesis (p := p.fresh.next) (by rw [moved]; omega)
            rw [moved] at rest_eq
            rw [gsubFrom_of_some hit (by rw [moved, front]; exact Nat.lt_succ_self _), rest_eq,
              further]
          · have unseen : p.fresh.sees (.byte b) = false := Bool.eq_false_iff.mpr fun seen =>
              same ((sees_byte (p := p.fresh) front).mp seen)
            exact gsubFrom_of_none (run_one_none unseen) front

theorem gsub_byte (b : UInt8) (value s : Text) :
    gsub ⟨false, [.one (.byte b)]⟩ (fun _ => value) s
      = s.flatMap fun d => if d = b then value else [d] :=
  gsubFrom_byte (p := .first s) (Nat.lt_succ_self _)

theorem gsubFrom_pair (fuel : p.rest.length < n) :
    gsubFrom [.one (.byte a), .one (.byte b)] (fun _ => value) n p
      = replacePair a b value p.rest := by
  induction n generalizing p with
  | zero => omega
  | succ n inductionHypothesis =>
      cases front : p.rest with
      | nil => exact gsubFrom_nil (run_one_none (sees_nil (p := p.fresh) front)) front
      | cons c rest =>
          rw [front, List.length_cons] at fuel
          have behind := next_front front
          have moved := next_front (p := p.fresh) front
          have further := inductionHypothesis (p := p.next) (by rw [behind]; omega)
          rw [behind] at further
          by_cases first : c = a
          · subst first
            have seen : p.fresh.sees (.byte c) = true := (sees_byte (p := p.fresh) front).mpr rfl
            by_cases pair : ∃ tail, rest = b :: tail
            · obtain ⟨tail, rfl⟩ := pair
              have second := next_front moved
              have hit : run [.one (.byte c), .one (.byte b)] p.fresh
                  = some p.fresh.next.next := by
                rw [run, if_pos seen, run, if_pos ((sees_byte moved).mpr rfl), run]
              rw [List.length_cons] at fuel
              rw [gsubFrom_of_some hit (by rw [second, front]; simp only [List.length_cons]; omega),
                inductionHypothesis (by rw [second]; omega), second, replacePair_pair]
            · have miss : run [.one (.byte c), .one (.byte b)] p.fresh = none := by
                rw [run, if_pos seen]
                apply run_one_none
                rw [Bool.eq_false_iff]
                intro sees_second
                cases rest with
                | nil => rw [sees_nil moved] at sees_second; cases sees_second
                | cons d tail => exact pair ⟨tail, by rw [(sees_byte moved).mp sees_second]⟩
              rw [gsubFrom_of_none miss front, further, replacePair_of_second]
              rintro d head rfl
              exact pair ⟨rest.tail, List.eq_cons_of_mem_head? head⟩
          · have unseen : p.fresh.sees (.byte a) = false := Bool.eq_false_iff.mpr fun seen =>
              first ((sees_byte (p := p.fresh) front).mp seen)
            rw [gsubFrom_of_none (run_one_none unseen) front, further, replacePair_of_first first]

theorem gsub_pair (a b : UInt8) (value s : Text) :
    gsub ⟨false, [.one (.byte a), .one (.byte b)]⟩ (fun _ => value) s
      = replacePair a b value s :=
  gsubFrom_pair (p := .first s) (Nat.lt_succ_self _)

end Literals

/-! ## Pieces between separators -/

section Pieces
variable {sep : UInt8} {s : Text} {p : Place} {n : Nat}

/-- `[^x]` -/
def except (sep : UInt8) : Class := .set true [.byte sep]

theorem except_has (b : UInt8) : (except sep).has b = (b != sep) := by
  rw [except, Class.has, setHas, List.any_cons, List.any_nil, Part.has, Bool.or_false, Bool.bne_true]
  exact congrArg Bool.not BEq.comm

theorem except_all (free : sep ∉ s) : ∀ b ∈ s, (except sep).has b = true := by
  intro b inside
  rw [except_has, bne_iff_ne]
  rintro rfl
  exact free inside

/-- The first place where the items match. -/
theorem search_of_some {items : List Item} {q : Place} {k : Nat}
    (fails : ∀ j < k, run items (p.skip j) = none) (hit : run items (p.skip k) = some q)
    (within : k ≤ n) : search items n p = some (p.skip k, q) := by
  induction k generalizing n p with
  | zero =>
      rw [skip_zero] at hit
      cases n with
      | zero => rw [search, hit]; rfl
      | succ n => rw [search, hit]; rfl
  | succ k inductionHypothesis =>
      obtain ⟨n, rfl⟩ : ∃ m, n = m + 1 := ⟨n - 1, by omega⟩
      rw [search, show run items p = none from fails 0 (Nat.succ_pos k)]
      exact inductionHypothesis (fun j below => fails (j + 1) (Nat.succ_lt_succ below)) hit
        (Nat.le_of_succ_le_succ within)

theorem rtakeWhile_behind (free : sep ∉ s) (front : Text) :
    (front ++ sep :: s).rtakeWhile (· != sep) = s := by
  have all : ∀ b ∈ s.reverse, (b != sep) = true := by
    intro b inside
    rw [← except_has]
    exact except_all free b (List.mem_reverse.mp inside)
  rw [List.rtakeWhile, List.reverse_append, List.reverse_cons, List.append_assoc,
    List.singleton_append, List.takeWhile_append_of_pos all,
    List.takeWhile_cons_of_neg (by rw [bne_self_eq_false]; decide), List.append_nil,
    List.reverse_reverse]

/-- `([^x]*)$` -/
def lastPiece (sep : UInt8) : List Item := [.start, .star (except sep), .stop, .finish]

theorem run_lastPiece (free : sep ∉ p.rest) :
    run (lastPiece sep) p = some ((p.skip p.rest.length).capture (.finished p.rest)) := by
  apply run_star_capture (List.append_nil p.rest).symm (except_all free) (by simp)
  rw [run, if_pos, run]
  change (p.skip p.rest.length).rest = []
  rw [skip_rest, List.drop_length]

theorem run_lastPiece_none (inside : sep ∈ p.rest) : run (lastPiece sep) p = none := by
  rw [lastPiece, run, run]
  apply greedy_none
  intro j below
  rw [run, skip_capture, close_skip, Option.bind_some, run, if_neg]
  change (p.skip j).rest ≠ []
  have short := takeWhile_length_lt inside
    (show (except sep).has sep = false by rw [except_has, bne_self_eq_false])
  change j ≤ (p.rest.takeWhile (except sep).has).length at below
  rw [skip_rest, ne_eq, List.drop_eq_nil_iff]
  omega

/-- The text behind the last separator, or all of it. -/
theorem match_lastPiece (s : Text) :
    (match_ ⟨false, lastPiece sep⟩ s).map (·.text 0) = some (s.rtakeWhile (· != sep)) := by
  have parts : s.rdropWhile (· != sep) ++ s.rtakeWhile (· != sep) = s :=
    List.rdropWhile_append_rtakeWhile
  have free : sep ∉ s.rtakeWhile (· != sep) := by
    intro inside
    have other : (sep != sep) = true := List.mem_rtakeWhile_imp (p := (· != sep)) inside
    exact bne_iff_ne.mp other rfl
  have behind : ((Place.first s).skip (s.rdropWhile (· != sep)).length).rest
      = s.rtakeWhile (· != sep) := skip_front parts.symm
  have fails : ∀ j < (s.rdropWhile (· != sep)).length,
      run (lastPiece sep) ((Place.first s).skip j) = none := by
    intro j below
    have nonempty : s.rdropWhile (· != sep) ≠ [] :=
      List.ne_nil_of_length_pos (Nat.lt_of_le_of_lt (Nat.zero_le j) below)
    have last := List.rdropWhile_last_not (· != sep) s nonempty
    rw [bne_iff_ne, not_not] at last
    apply run_lastPiece_none
    rw [skip_rest]
    change sep ∈ s.drop j
    rw [← parts, List.drop_append_of_le_length (Nat.le_of_lt below), List.mem_append]
    left
    have rest : (s.rdropWhile (· != sep)).drop j ≠ [] := by
      rw [ne_eq, List.drop_eq_nil_iff]
      omega
    have last_eq := List.getLast_drop rest
    rw [last] at last_eq
    exact List.mem_of_getLast? (List.getLast?_eq_some_getLast rest ▸ congrArg some last_eq)
  have hit := run_lastPiece (p := (Place.first s).skip (s.rdropWhile (· != sep)).length)
    (by rw [behind]; exact free)
  have within : (s.rdropWhile (· != sep)).length ≤ s.length :=
    (List.rdropWhile_prefix _ s).length_le
  rw [match_]
  dsimp only
  rw [if_neg Bool.false_ne_true, search_of_some fails hit within, Option.map_some, Option.map_some,
    matched, Place.capture, skip_captures, skip_captures, behind]
  rfl

/-- `x([^x]*)` -/
def pieceBehind (sep : UInt8) : List Item :=
  [.one (.byte sep), .start, .star (except sep), .stop]

theorem gmatchFrom_pieceBehind (tokens : List Text) (free : ∀ token ∈ tokens, sep ∉ token)
    (front : p.rest = tokens.flatMap (sep :: ·)) (fuel : p.rest.length < n) :
    (gmatchFrom (pieceBehind sep) n p).map (·.text 0) = tokens := by
  induction tokens generalizing p n with
  | nil =>
      obtain ⟨n, rfl⟩ : ∃ m, n = m + 1 := ⟨n - 1, by omega⟩
      have miss : run (pieceBehind sep) p.fresh = none :=
        run_one_none (sees_nil (p := p.fresh) front)
      rw [gmatchFrom, miss]
      simp only [show p.rest = [] from front, if_true, List.map_nil]
  | cons token tokens inductionHypothesis =>
      obtain ⟨n, rfl⟩ : ∃ m, n = m + 1 := ⟨n - 1, by omega⟩
      rw [List.forall_mem_cons] at free
      rw [List.flatMap_cons, List.cons_append] at front
      have behind := next_front (p := p.fresh) front
      have stops : ∀ b ∈ (tokens.flatMap (sep :: ·)).head?, (except sep).has b = false := by
        intro b head
        cases tokens with
        | nil => cases head
        | cons next tokens =>
            rw [List.flatMap_cons, List.cons_append, List.head?_cons, Option.mem_some_iff] at head
            rw [except_has, ← head, bne_self_eq_false]
      have hit : run (pieceBehind sep) p.fresh
          = some ((p.fresh.next.skip token.length).capture (.finished token)) := by
        rw [pieceBehind, run, if_pos ((sees_byte (p := p.fresh) front).mpr rfl)]
        exact run_star_capture behind (except_all free.1) stops (run_nil _)
      have left : ((p.fresh.next.skip token.length).capture (.finished token)).rest
          = tokens.flatMap (sep :: ·) := skip_front behind
      have shorter : ((p.fresh.next.skip token.length).capture (.finished token)).rest.length
          < p.rest.length := by
        rw [left, front, List.length_cons, List.length_append]
        omega
      rw [gmatchFrom_of_some hit shorter, List.map_cons,
        inductionHypothesis free.2 left (by omega)]
      congr 1
      rw [matched, Place.capture, skip_captures, next_captures]
      rfl

theorem gmatch_pieceBehind (tokens : List Text) (free : ∀ token ∈ tokens, sep ∉ token) :
    (gmatch (pieceBehind sep) (tokens.flatMap (sep :: ·))).map (·.text 0) = tokens :=
  gmatchFrom_pieceBehind tokens free rfl (Nat.lt_succ_self _)

end Pieces

end Qwe.Patterns
