import Qwe.Lib.Pattern
import Qwe.Lib.Tables
import Qwe.Template.Expr

/-!
# Output files

`parse_output` of `src/kernel/lua/template.lua`: what a `run:` step writes to
`$QWE_OUTPUT`.  The last section writes entries down and reads them back.
-/

set_option autoImplicit false

namespace Qwe.Template

open Qwe.Redact (Bytes)
open Qwe.Patterns (Pattern Item match_ gmatch)

/-! ## Reading -/

/-- `[A-Za-z_]` -/
def nameStart : Patterns.Class := .set false [.range 65 90, .range 97 122, .byte 95]

/-- `[A-Za-z0-9_%-]` -/
def nameRest : Patterns.Class := .set false [.range 65 90, .range 97 122, .range 48 57, .byte 95, .byte 45]

/-- `(NAME)` and what follows. -/
def named (items : List Item) : List Item :=
  .start :: .one nameStart :: .star nameRest :: .stop :: items

/-- `^(NAME)<<(.+)$` -/
def headerPattern : Pattern :=
  ⟨true, named [.one (.byte 60), .one (.byte 60), .start, .plus .any, .stop, .finish]⟩

/-- `^(NAME)=(.*)$` -/
def entryPattern : Pattern := ⟨true, named [.one (.byte 61), .start, .star .any, .stop, .finish]⟩

/-- `(.-)\r?\n` -/
def lineItems : List Item := [.start, .lazy .any, .stop, .optional (.byte 13), .one (.byte 10)]

def outputLines (text : Bytes) : List Bytes :=
  let lines := (gmatch lineItems (text ++ [10])).map (·.text 0)
  if lines.getLast? = some [] then lines.dropLast else lines

/-- A `NAME<<DELIM` whose `DELIM` has not come, and the lines so far. -/
structure Block where
  key : Bytes
  delim : Bytes
  parts : List Bytes

/-- The two loops of `parse_output`: a line is looked at in a block or outside of one.  A block
without its `DELIM` sets nothing. -/
def parseLines : Option Block → Table Bytes Bytes → List Bytes → Table Bytes Bytes
  | _, out, [] => out
  | some block, out, line :: rest =>
      if line = block.delim then
        parseLines none (out.insert block.key ([10].intercalate block.parts)) rest
      else parseLines (some { block with parts := block.parts ++ [line] }) out rest
  | none, out, line :: rest =>
      match match_ headerPattern line with
      | some found => parseLines (some ⟨found.text 0, found.text 1, []⟩) out rest
      | none =>
          match match_ entryPattern line with
          | some found => parseLines none (out.insert (found.text 0) (found.text 1)) rest
          | none => parseLines none out rest

def parse_output (text : Bytes) : Table Bytes Bytes := parseLines none ∅ (outputLines text)

/-! ## The two forms of a line -/

section Forms
variable {line name rest value delim : Bytes} {b : UInt8}

theorem nameStart_has (b : UInt8) : nameStart.has b = (isLetter b || b == 95) := by
  rw [nameStart, Patterns.Class.has, Patterns.setHas, Bool.eq_iff_iff]
  simp [Patterns.Part.has, isLetter, or_assoc, @eq_comm _ 95 b]

theorem nameRest_has (b : UInt8) : nameRest.has b = isNameByte [45] b := by
  rw [nameRest, Patterns.Class.has, Patterns.setHas, Bool.eq_iff_iff]
  simp [Patterns.Part.has, isNameByte, isLetter, isDigit, or_assoc, @eq_comm _ 95 b,
    @eq_comm _ 45 b]

/-- `NAME=value`, or `NAME<<DELIM`. -/
def IsForm (line : Bytes) : Prop :=
  (∃ name value, isName name = true ∧ line = name ++ 61 :: value) ∨
    ∃ name delim, isName name = true ∧ delim ≠ [] ∧ line = name ++ 60 :: 60 :: delim

/-- Nothing that follows a name begins with a byte of one. -/
def Stops (items : List Item) : Prop :=
  ∀ p : Patterns.Place, p.sees nameRest = true → Patterns.run items p = none

variable {items : List Item}

theorem match_named (stops : Stops items) (is_name : isName name = true)
    (ends : ∀ b ∈ rest.head?, isNameByte [45] b = false) :
    ∃ p : Patterns.Place, p.rest = rest ∧ p.captures = [.finished name] ∧
      match_ ⟨true, named items⟩ (name ++ rest)
        = (Patterns.run items p).map fun q => Patterns.matched (.first (name ++ rest)) q := by
  obtain _ | ⟨first, more⟩ := name
  · cases is_name
  rw [isName, isNameWith, Bool.and_eq_true, List.all_eq_true] at is_name
  have taken : (more ++ rest).takeWhile nameRest.has = more := by
    rw [List.takeWhile_append_of_pos fun b inside => by rw [nameRest_has]; exact is_name.2 b inside]
    cases rest with
    | nil => simp
    | cons b rest =>
        have other := ends b rfl
        rw [← nameRest_has] at other
        rw [List.takeWhile_cons_of_neg (by rw [other]; decide), List.append_nil]
  have front : (Patterns.Place.first (first :: more ++ rest)).rest = first :: (more ++ rest) := rfl
  refine ⟨((Patterns.Place.first (first :: more ++ rest)).skip (more.length + 1)).capture
    (.finished (first :: more)), ?_, ?_, ?_⟩
  · exact Patterns.skip_front (a := first :: more) rfl
  · rw [Patterns.Place.capture, Patterns.skip_captures]
    rfl
  · have word := Patterns.run_word stops front (by rw [nameStart_has]; exact is_name.1)
    rw [taken] at word
    rw [match_]
    dsimp only
    rw [if_pos rfl, Patterns.search, named, word, Option.map_map]
    rfl

theorem match_named_some {found : Patterns.Match} (stops : Stops items)
    (hit : match_ ⟨true, named items⟩ line = some found) :
    ∃ (name : Bytes) (p q : Patterns.Place), isName name = true ∧ line = name ++ p.rest ∧
      Patterns.run items p = some q := by
  rw [match_] at hit
  dsimp only at hit
  rw [if_pos rfl, Patterns.search, Option.map_map, Option.map_eq_some_iff] at hit
  obtain ⟨q, hit, -⟩ := hit
  obtain _ | ⟨first, more⟩ := line
  · rw [named, Patterns.run_word_none rfl] at hit
    cases hit
  have front : (Patterns.Place.first (first :: more)).rest = first :: more := rfl
  by_cases begins : nameStart.has first = true
  · rw [named, Patterns.run_word stops front begins] at hit
    refine ⟨first :: more.takeWhile nameRest.has, _, q, ?_, ?_, hit⟩
    · rw [isName, isNameWith, ← nameStart_has, begins, Bool.true_and, List.all_eq_true]
      intro b inside
      rw [← nameRest_has]
      exact List.mem_takeWhile_imp inside
    · change first :: more = first :: more.takeWhile nameRest.has ++
        ((Patterns.Place.first (first :: more)).skip _).rest
      rw [Patterns.skip_rest, front, List.drop_succ_cons, List.cons_append]
      congr 1
      have prefix_eq := List.prefix_iff_eq_take.mp (List.takeWhile_prefix nameRest.has (l := more))
      conv_lhs => rw [← List.take_append_drop (more.takeWhile nameRest.has).length more]
      rw [← prefix_eq]
  · rw [named, Patterns.run_word_none] at hit
    · cases hit
    · rw [Patterns.sees_cons front]
      exact Bool.eq_false_iff.mpr begins

theorem stops_byte (b : UInt8) (items : List Item) (other : nameRest.has b = false) :
    Stops (.one (.byte b) :: items) := by
  intro p seen
  apply Patterns.run_one_none
  obtain ⟨before, rest, offset, captures⟩ := p
  cases rest with
  | nil => rfl
  | cons a rest =>
      change (b == a) = false
      rw [beq_eq_false_iff_ne]
      rintro rfl
      exact Bool.false_ne_true (other.symm.trans seen)

theorem match_named_text (stops : Stops items) (is_name : isName name = true)
    (ends : ∀ b ∈ rest.head?, isNameByte [45] b = false)
    (takes : ∀ p : Patterns.Place, p.rest = rest →
      ∃ q, Patterns.run items p = some q ∧ q.captures = p.captures ++ [.finished value]) :
    ∃ found, match_ ⟨true, named items⟩ (name ++ rest) = some found ∧ found.text 0 = name ∧
      found.text 1 = value := by
  obtain ⟨p, front, captured, match_eq⟩ := match_named stops is_name ends
  obtain ⟨q, hit, taken⟩ := takes p front
  rw [captured] at taken
  refine ⟨_, by rw [match_eq, hit, Option.map_some], ?_, ?_⟩
  · rw [Patterns.matched, Patterns.Match.text, taken]
    rfl
  · rw [Patterns.matched, Patterns.Match.text, taken]
    rfl

theorem match_header (is_name : isName name = true) (nonempty : delim ≠ []) :
    ∃ found, match_ headerPattern (name ++ 60 :: 60 :: delim) = some found ∧
      found.text 0 = name ∧ found.text 1 = delim := by
  apply match_named_text (stops_byte 60 _ rfl) is_name (by rintro b ⟨⟩; rfl)
  intro p front
  have behind : p.next.rest = 60 :: delim := by rw [Patterns.next_rest, front, List.tail_cons]
  have last : p.next.next.rest = delim := by rw [Patterns.next_rest, behind, List.tail_cons]
  rw [Patterns.run_byte front, Patterns.run_byte behind,
    Patterns.run_rest_capture_plus _ (by rw [last]; exact nonempty)]
  refine ⟨_, rfl, ?_⟩
  rw [Patterns.Place.capture, Patterns.skip_captures, Patterns.next_captures, Patterns.next_captures, last]

theorem match_entry (is_name : isName name = true) (value : Bytes) :
    ∃ found, match_ entryPattern (name ++ 61 :: value) = some found ∧
      found.text 0 = name ∧ found.text 1 = value := by
  apply match_named_text (stops_byte 61 _ rfl) is_name (by rintro b ⟨⟩; rfl)
  intro p front
  have last : p.next.rest = value := by rw [Patterns.next_rest, front, List.tail_cons]
  rw [Patterns.run_byte front, Patterns.run_rest_capture]
  refine ⟨_, rfl, ?_⟩
  rw [Patterns.Place.capture, Patterns.skip_captures, Patterns.next_captures, last]

/-- A byte and more of a pattern match only behind that byte. -/
theorem of_run_byte {p q : Patterns.Place} {items : List Item}
    (hit : Patterns.run (.one (.byte b) :: items) p = some q) :
    p.rest = b :: p.next.rest ∧ Patterns.run items p.next = some q := by
  by_cases seen : p.sees (.byte b) = true
  · cases front : p.rest with
    | nil => rw [Patterns.sees_nil front] at seen; cases seen
    | cons a rest =>
        rw [Patterns.sees_cons front, Patterns.Class.has, beq_iff_eq] at seen
        subst seen
        rw [Patterns.run_byte front] at hit
        rw [Patterns.next_rest, front]
        exact ⟨rfl, hit⟩
  · rw [Patterns.run_one_none (Bool.eq_false_iff.mpr seen)] at hit
    cases hit

theorem form_of_header {found : Patterns.Match} (hit : match_ headerPattern line = some found) :
    ∃ name delim, isName name = true ∧ delim ≠ [] ∧ line = name ++ 60 :: 60 :: delim := by
  obtain ⟨name, p, q, is_name, line_eq, hit⟩ := match_named_some (stops_byte 60 _ rfl) hit
  obtain ⟨front, hit⟩ := of_run_byte hit
  obtain ⟨behind, hit⟩ := of_run_byte hit
  refine ⟨name, p.next.next.rest, is_name, ?_, by rw [line_eq, front, behind]⟩
  intro empty
  rw [Patterns.run, Patterns.run, if_neg] at hit
  · cases hit
  · rw [Patterns.sees_nil (p := p.next.next.capture _) empty]
    exact Bool.false_ne_true

theorem header_delim {found : Patterns.Match} (hit : match_ headerPattern line = some found) :
    found.text 1 ≠ [] := by
  obtain ⟨name, delim, is_name, nonempty, rfl⟩ := form_of_header hit
  obtain ⟨other, same, -, text⟩ := match_header is_name nonempty
  rw [hit] at same
  cases same
  rw [text]
  exact nonempty

theorem form_of_entry {found : Patterns.Match} (hit : match_ entryPattern line = some found) :
    ∃ name value, isName name = true ∧ line = name ++ 61 :: value := by
  obtain ⟨name, p, q, is_name, line_eq, hit⟩ := match_named_some (stops_byte 61 _ rfl) hit
  obtain ⟨front, -⟩ := of_run_byte hit
  exact ⟨name, p.next.rest, is_name, by rw [line_eq, front]⟩

/-- An entry is not taken for a header. -/
theorem match_header_entry (is_name : isName name = true) (value : Bytes) :
    match_ headerPattern (name ++ 61 :: value) = none := by
  have ends : ∀ b ∈ (61 :: value).head?, isNameByte [45] b = false := by
    rintro b ⟨⟩
    rfl
  obtain ⟨p, front, -, match_eq⟩ := match_named
    (stops_byte 60 [.one (.byte 60), .start, .plus .any, .stop, .finish] rfl) is_name ends
  rw [headerPattern, match_eq, Patterns.run_one_none, Option.map_none]
  rw [Patterns.sees_cons front]
  rfl

theorem match_other (other : ¬ IsForm line) :
    match_ headerPattern line = none ∧ match_ entryPattern line = none := by
  constructor
  · by_contra hit
    obtain ⟨found, hit⟩ := Option.ne_none_iff_exists'.mp hit
    obtain ⟨name, delim, is_name, nonempty, same⟩ := form_of_header hit
    exact other (.inr ⟨name, delim, is_name, nonempty, same⟩)
  · by_contra hit
    obtain ⟨found, hit⟩ := Option.ne_none_iff_exists'.mp hit
    obtain ⟨name, value, is_name, same⟩ := form_of_entry hit
    exact other (.inl ⟨name, value, is_name, same⟩)

theorem IsForm.concat (form : IsForm line) (b : UInt8) : IsForm (line ++ [b]) := by
  rcases form with ⟨name, value, is_name, rfl⟩ | ⟨name, delim, is_name, nonempty, rfl⟩
  · exact .inl ⟨name, value ++ [b], is_name, by simp⟩
  · exact .inr ⟨name, delim ++ [b], is_name, by simp, by simp⟩

end Forms

/-! ## The lines of a text -/

section Lines

/-- The end of a line: LF, or CRLF. -/
def endOf (crlf : Bool) : Bytes := if crlf then [13, 10] else [10]

/-- Lines with their ends; the last may go without. -/
def render (final : Bool) : List (Bytes × Bool) → Bytes
  | [] => []
  | [(line, crlf)] => if final then line ++ endOf crlf else line
  | (line, crlf) :: next :: rest => line ++ endOf crlf ++ render final (next :: rest)

/-- How a line and its end are read: a carriage return before LF is part of the end. -/
def cut (marked : Bytes × Bool) : Bytes × Bytes :=
  if marked.2 = false ∧ marked.1.getLast? = some 13 then (marked.1.dropLast, [13, 10])
  else (marked.1, endOf marked.2)

theorem cut_join (marked : Bytes × Bool) : (cut marked).1 ++ (cut marked).2
    = marked.1 ++ endOf marked.2 := by
  obtain ⟨line, crlf⟩ := marked
  unfold cut
  split_ifs with ends
  · obtain ⟨rfl, last⟩ := ends
    obtain ⟨init, rfl⟩ := List.getLast?_eq_some_iff.mp last
    rw [List.dropLast_concat, List.append_assoc]
    rfl
  · rfl

theorem cut_ends {marked : Bytes × Bool} (plain : 10 ∉ marked.1) :
    Patterns.Ends [.optional (.byte 13), .one (.byte 10)] (cut marked).1 (cut marked).2 ∧
      (cut marked).2 ≠ [] := by
  obtain ⟨line, crlf⟩ := marked
  unfold cut
  split_ifs with ends
  · refine ⟨Patterns.Ends.marked ?_ (by decide) (.inr rfl), List.cons_ne_nil _ _⟩
    exact fun inside => plain (List.dropLast_subset _ inside)
  · cases crlf with
    | true => exact ⟨Patterns.Ends.marked plain (by decide) (.inr rfl), List.cons_ne_nil _ _⟩
    | false =>
        refine ⟨Patterns.Ends.marked plain (by decide) (.inl ⟨rfl, ?_⟩), List.cons_ne_nil _ _⟩
        exact fun last => ends ⟨rfl, last⟩

/-- A text read line by line, with the LF that `parse_output` adds. -/
theorem gmatch_lines (marked : List (Bytes × Bool)) (plain : ∀ line ∈ marked, 10 ∉ line.1) :
    (gmatch lineItems (marked.flatMap fun line => line.1 ++ endOf line.2)).map (·.text 0)
      = marked.map fun line => (cut line).1 := by
  have pieces : (marked.flatMap fun line => line.1 ++ endOf line.2)
      = (marked.map cut).flatMap (fun piece => piece.1 ++ piece.2) ++ ([] : Bytes) := by
    rw [List.append_nil, List.flatMap_map]
    exact List.flatMap_congr fun line _ => (cut_join line).symm
  rw [pieces, lineItems, Patterns.gmatch_pieces (Patterns.Never.marked List.not_mem_nil),
    List.map_map]
  · rfl
  · intro piece present
    obtain ⟨line, inside, rfl⟩ := List.mem_map.mp present
    exact cut_ends (plain line inside)

end Lines

/-! ## The round trip -/

/-- What a step writes: an entry in one of the two forms, or a line that is neither. -/
inductive Written where
  | value (name value : Bytes)
  | block (name delim : Bytes) (lines : List Bytes)
  | other (line : Bytes)

namespace Written

def lines : Written → List Bytes
  | .value name text => [name ++ 61 :: text]
  | .block name delim lines => (name ++ 60 :: 60 :: delim) :: (lines ++ [delim])
  | .other line => [line]

/-- A line that comes back as it is. -/
def Plain (line : Bytes) : Prop := 10 ∉ line ∧ line.getLast? ≠ some 13

def Valid : Written → Prop
  | .value name text => isName name = true ∧ Plain text
  | .block name delim lines => isName name = true ∧ delim ≠ [] ∧ delim ∉ lines ∧ Plain delim ∧
      ∀ line ∈ lines, Plain line
  | .other line => 10 ∉ line ∧ ¬ IsForm line

/-- The name that an entry sets, and its value. -/
def assigned : Written → Option (Bytes × Bytes)
  | .value name text => some (name, text)
  | .block name _ lines => some (name, [10].intercalate lines)
  | .other _ => none

end Written

/-- The value of the last entry for a name. -/
def lastValue (entries : List Written) (name : Bytes) : Option Bytes :=
  (entries.filterMap Written.assigned).reverse.lookup name

section RoundTrip
variable {name delim : Bytes} {out : Table Bytes Bytes}

/-- How a line may be read: without a carriage return at its end. -/
def Reads (read line : Bytes) : Prop := read = line ∨ line = read ++ [13]

theorem cut_reads (marked : Bytes × Bool) : Reads (cut marked).1 marked.1 := by
  unfold cut Reads
  split_ifs with ends
  · right
    obtain ⟨init, same⟩ := List.getLast?_eq_some_iff.mp ends.2
    rw [same, List.dropLast_concat]
  · exact .inl rfl

theorem Written.Plain.read {line read : Bytes} (plain : Written.Plain line)
    (reads : Reads read line) : read = line := by
  rcases reads with same | rfl
  · exact same
  · exact absurd List.getLast?_concat plain.2

/-- A byte and more in front of a line. -/
theorem Written.Plain.behind {front line : Bytes} {b : UInt8} (plain : Written.Plain line)
    (free : 10 ∉ front) (unmarked : b ≠ 13) (other : b ≠ 10) :
    Written.Plain (front ++ b :: line) := by
  constructor
  · rw [List.mem_append, List.mem_cons, not_or, not_or]
    exact ⟨free, other.symm, plain.1⟩
  · cases line with
    | nil =>
        rw [List.getLast?_concat]
        exact fun same => unmarked (Option.some.inj same)
    | cons a line =>
        rw [List.getLast?_append_of_ne_nil _ (List.cons_ne_nil _ _), List.getLast?_cons_cons]
        exact plain.2

theorem isName_free (is_name : isName name = true) : 10 ∉ name := by
  intro inside
  obtain _ | ⟨first, more⟩ := name
  · cases inside
  · rw [isName, isNameWith, Bool.and_eq_true, List.all_eq_true] at is_name
    rcases List.mem_cons.mp inside with rfl | rest
    · exact absurd is_name.1 (by decide)
    · exact absurd (is_name.2 10 rest) (by decide)

theorem Written.Valid.free {entry : Written} (valid : entry.Valid) :
    ∀ line ∈ entry.lines, 10 ∉ line := by
  intro line inside
  cases entry with
  | value name value =>
      obtain ⟨is_name, plain⟩ := valid
      rw [List.mem_singleton.mp inside]
      simp [isName_free is_name, plain.1]
  | block name delim lines =>
      obtain ⟨is_name, -, -, plain, each⟩ := valid
      rw [Written.lines, List.mem_cons, List.mem_append, List.mem_singleton] at inside
      rcases inside with rfl | inside | rfl
      · simp [isName_free is_name, plain.1]
      · exact (each line inside).1
      · exact plain.1
  | other text =>
      rw [List.mem_singleton.mp inside]
      exact valid.1

theorem render_lf (final : Bool) (marked : List (Bytes × Bool)) :
    ∃ whole : List (Bytes × Bool),
      render final marked ++ [10] = (whole.flatMap fun line => line.1 ++ endOf line.2) ∧
      (whole.map (·.1) = marked.map (·.1) ∨ whole.map (·.1) = marked.map (·.1) ++ [[]]) := by
  induction marked with
  | nil => exact ⟨[([], false)], rfl, .inr rfl⟩
  | cons line rest inductionHypothesis =>
      obtain ⟨line, crlf⟩ := line
      cases rest with
      | nil =>
          cases final with
          | true => exact ⟨[(line, crlf), ([], false)], by simp [render, endOf], .inr rfl⟩
          | false => exact ⟨[(line, false)], by simp [render, endOf], .inl rfl⟩
      | cons next rest =>
          obtain ⟨whole, text, lines⟩ := inductionHypothesis
          refine ⟨(line, crlf) :: whole, ?_, ?_⟩
          · rw [render, List.append_assoc, text, List.flatMap_cons]
          · rcases lines with same | same
            · exact .inl (by rw [List.map_cons, same]; rfl)
            · exact .inr (by rw [List.map_cons, same]; rfl)

/-- An empty line at the end sets nothing. -/
theorem parseLines_blank (open_ : Option Block) (named : ∀ block ∈ open_, block.delim ≠ [])
    (out : Table Bytes Bytes) (lines : List Bytes) :
    parseLines open_ out (lines ++ [[]]) = parseLines open_ out lines := by
  induction lines generalizing open_ out with
  | nil =>
      cases open_ with
      | none => rfl
      | some block =>
          change (if [] = block.delim then _ else out) = out
          rw [if_neg (named block rfl).symm]
  | cons line rest inductionHypothesis =>
      rw [List.cons_append]
      cases open_ with
      | some block =>
          rw [parseLines, parseLines]
          by_cases ends : line = block.delim
          · rw [if_pos ends, if_pos ends]
            exact inductionHypothesis none (fun _ opened => by cases opened) _
          · rw [if_neg ends, if_neg ends]
            apply inductionHypothesis
            rintro _ ⟨⟩
            exact named block rfl
      | none =>
          rw [parseLines, parseLines]
          cases header : match_ headerPattern line with
          | some found =>
              apply inductionHypothesis
              rintro _ ⟨⟩
              exact header_delim header
          | none =>
              cases entry : match_ entryPattern line with
              | some found => exact inductionHypothesis none (fun _ opened => by cases opened) _
              | none => exact inductionHypothesis none (fun _ opened => by cases opened) _

theorem parseLines_block (key : Bytes) (parts lines rest : List Bytes) (other : delim ∉ lines) :
    parseLines (some ⟨key, delim, parts⟩) out (lines ++ delim :: rest)
      = parseLines none (out.insert key ([10].intercalate (parts ++ lines))) rest := by
  induction lines generalizing parts with
  | nil => rw [List.nil_append, parseLines, if_pos rfl, List.append_nil]
  | cons line lines inductionHypothesis =>
      rw [List.mem_cons, not_or] at other
      rw [List.cons_append, parseLines, if_neg (Ne.symm other.1), inductionHypothesis _ other.2,
        List.append_assoc, List.singleton_append]

theorem Written.plain_read {lines read : List Bytes} (plain : ∀ line ∈ lines, Written.Plain line)
    (reads : List.Forall₂ Reads read lines) : read = lines := by
  induction reads with
  | nil => rfl
  | cons head tail inductionHypothesis =>
      rw [List.forall_mem_cons] at plain
      rw [plain.1.read head, inductionHypothesis plain.2]

theorem parseLines_entries (entries : List Written) (valid : ∀ entry ∈ entries, entry.Valid)
    {read : List Bytes} (reads : List.Forall₂ Reads read (entries.flatMap Written.lines))
    (out : Table Bytes Bytes) :
    parseLines none out read
      = (entries.filterMap Written.assigned).foldl (fun out entry => out.insert entry.1 entry.2)
          out := by
  induction entries generalizing read out with
  | nil =>
      cases reads
      rfl
  | cons entry entries inductionHypothesis =>
      rw [List.forall_mem_cons] at valid
      obtain ⟨valid, others⟩ := valid
      rw [List.flatMap_cons] at reads
      have here := List.forall₂_take_append _ _ _ reads
      have rest := inductionHypothesis others (List.forall₂_drop_append _ _ _ reads)
      rw [← List.take_append_drop entry.lines.length read]
      generalize read.take entry.lines.length = front at here
      generalize read.drop entry.lines.length = back at rest
      cases entry with
      | value name text =>
          obtain ⟨is_name, plain⟩ := valid
          have line : Written.Plain (name ++ 61 :: text) :=
            plain.behind (isName_free is_name) (by decide) (by decide)
          rw [Written.plain_read (by simpa [Written.lines] using line) here]
          obtain ⟨found, hit, key, value⟩ := match_entry is_name text
          rw [Written.lines, List.singleton_append, parseLines, match_header_entry is_name, hit]
          dsimp only
          rw [rest, key, value]
          rfl
      | block name delim lines =>
          obtain ⟨is_name, nonempty, other, plain, each⟩ := valid
          have header : Written.Plain (name ++ 60 :: 60 :: delim) := by
            have marked : Written.Plain ([] ++ 60 :: delim) :=
              plain.behind List.not_mem_nil (by decide) (by decide)
            exact marked.behind (b := 60) (isName_free is_name) (by decide) (by decide)
          have all : ∀ line ∈ (Written.block name delim lines).lines, Written.Plain line := by
            intro line inside
            rw [Written.lines, List.mem_cons, List.mem_append, List.mem_singleton] at inside
            rcases inside with rfl | inside | rfl
            · exact header
            · exact each line inside
            · exact plain
          rw [Written.plain_read all here]
          obtain ⟨found, hit, key, value⟩ := match_header is_name nonempty
          rw [Written.lines, List.cons_append, parseLines, hit]
          dsimp only
          rw [key, value, List.append_assoc, List.singleton_append, parseLines_block _ _ _ _ other,
            rest]
          rfl
      | other line =>
          obtain ⟨read, last, reads, ends, rfl⟩ := List.forall₂_cons_right_iff.mp here
          cases ends
          have unread : ¬ IsForm read := by
            intro form
            rcases reads with rfl | rfl
            · exact valid.2 form
            · exact valid.2 (form.concat 13)
          obtain ⟨header, text⟩ := match_other unread
          rw [List.singleton_append, parseLines, header, text]
          exact rest out

theorem lookup_foldl_insert (entries : List (Bytes × Bytes)) (out : Table Bytes Bytes)
    (name : Bytes) :
    (entries.foldl (fun out entry => out.insert entry.1 entry.2) out).lookup name
      = (entries.reverse.lookup name).or (out.lookup name) := by
  induction entries generalizing out with
  | nil => rfl
  | cons entry entries inductionHypothesis =>
      obtain ⟨key, value⟩ := entry
      rw [List.foldl_cons, inductionHypothesis, List.reverse_cons, List.lookup_append,
        Option.or_assoc, List.lookup_singleton]
      congr 1
      by_cases own : name = key
      · rw [own, AList.lookup_insert, if_pos (beq_self_eq_true key)]
        rfl
      · rw [AList.lookup_insert_ne own, if_neg fun same => own (beq_iff_eq.mp same),
          Option.none_or]

end RoundTrip

/-- Entries come back as they were written, the last one for a name. -/
theorem parse_output_written (entries : List Written) (valid : ∀ entry ∈ entries, entry.Valid)
    (marked : List (Bytes × Bool)) (same : marked.map (·.1) = entries.flatMap Written.lines)
    (final : Bool) (name : Bytes) :
    (parse_output (render final marked)).lookup name = lastValue entries name := by
  obtain ⟨whole, text, lines⟩ := render_lf final marked
  have free : ∀ line ∈ whole, 10 ∉ line.1 := by
    intro line inside
    have present : line.1 ∈ whole.map (·.1) := List.mem_map_of_mem inside
    have entry (there : line.1 ∈ entries.flatMap Written.lines) : 10 ∉ line.1 := by
      obtain ⟨entry, stands, own⟩ := List.mem_flatMap.mp there
      exact (valid entry stands).free line.1 own
    rcases lines with lines | lines
    · rw [lines, same] at present
      exact entry present
    · rw [lines, same, List.mem_append, List.mem_singleton] at present
      rcases present with there | blank
      · exact entry there
      · rw [blank]
        exact List.not_mem_nil
  have none_open : ∀ block ∈ (none : Option Block), block.delim ≠ [] :=
    fun _ opened => by cases opened
  have parsed : parse_output (render final marked)
      = parseLines none ∅ (whole.map fun line => (cut line).1) := by
    unfold parse_output outputLines
    rw [text, gmatch_lines whole free]
    dsimp only
    split_ifs with blank
    · obtain ⟨init, lines_eq⟩ := List.getLast?_eq_some_iff.mp blank
      rw [lines_eq, List.dropLast_concat, parseLines_blank none none_open]
    · rfl
  have reads : List.Forall₂ Reads (whole.map fun line => (cut line).1) (whole.map (·.1)) := by
    rw [List.forall₂_map_left_iff, List.forall₂_map_right_iff]
    exact List.forall₂_same.mpr fun line _ => cut_reads line
  rw [parsed]
  generalize whole.map (fun line => (cut line).1) = read at reads
  have of_entries {read : List Bytes}
      (reads : List.Forall₂ Reads read (entries.flatMap Written.lines)) :
      (parseLines none ∅ read).lookup name = lastValue entries name := by
    rw [parseLines_entries entries valid reads, lookup_foldl_insert, AList.lookup_empty,
      Option.or_none, lastValue]
  rcases lines with lines | lines
  · rw [lines, same] at reads
    exact of_entries reads
  · rw [lines, same] at reads
    have last := List.forall₂_drop_append _ _ _ reads
    rw [← List.take_append_drop (entries.flatMap Written.lines).length read]
    obtain ⟨blank, rest, blank_eq, ends, tail⟩ := List.forall₂_cons_right_iff.mp last
    cases ends
    have empty : blank = [] := by
      rcases blank_eq with same | marked
      · exact same
      · cases blank <;> cases marked
    rw [tail, empty, parseLines_blank none none_open]
    exact of_entries (List.forall₂_take_append _ _ _ reads)

/-- A value that looks like an entry and one that is set twice. -/
def digestEntries : List Written :=
  [.value (bytes "A") (bytes "1"), .other [],
    .block (bytes "B") (bytes "E") [bytes "x", bytes "A=2"], .value (bytes "A") []]

def digestLines : List (Bytes × Bool) :=
  [(bytes "A=1", false), ([], false), (bytes "B<<E", true), (bytes "x", true),
    (bytes "A=2", true), (bytes "E", false), (bytes "A=", false)]

theorem parse_output_written_digest :
    (parse_output (render false digestLines)).lookup (bytes "A") = some [] ∧
      (parse_output (render false digestLines)).lookup (bytes "B") = some (bytes "x\nA=2") := by
  have valid : ∀ entry ∈ digestEntries, entry.Valid := by
    have blank : ¬ IsForm [] := by
      rintro (⟨name, value, -, same⟩ | ⟨name, delim, -, -, same⟩)
      · cases name <;> cases same
      · cases name <;> cases same
    intro entry inside
    simp only [digestEntries, List.mem_cons, List.not_mem_nil, or_false] at inside
    rcases inside with rfl | rfl | rfl | rfl
    · exact ⟨by decide, by decide, by decide⟩
    · exact ⟨by decide, blank⟩
    · exact ⟨by decide, by decide, by decide, ⟨by decide, by decide⟩,
        fun line present => ⟨by revert line; decide, by revert line; decide⟩⟩
    · exact ⟨by decide, by decide, by decide⟩
  have read := parse_output_written digestEntries valid digestLines (by decide) false
  exact ⟨(read (bytes "A")).trans (by decide), (read (bytes "B")).trans (by decide)⟩

end Qwe.Template
