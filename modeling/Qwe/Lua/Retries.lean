import Qwe.Lua.Encodes

/-!
# Bigger and bigger buffers

`qwe_lua_to_cbor` tries again with a buffer of twice the size while the encoder runs out
of room.  It stops, and what it stops with does not depend on the sizes.
-/

set_option autoImplicit false

namespace Qwe.Lua.OnStack

open Qwe.Cbor
open Qwe.Redact (Bytes)
open Qwe.Tinycbor

variable {put : Nat → Number → Bytes} {numeral : Number → Bytes} {alloc : Nat → Bool}
variable {met : Value → Nat} {v : Value} {L : Stack} {idx : Nat}

variable (put numeral alloc v L) in
/-- What the conversion of a value can end with, on a stack. -/
inductive Finished : Except String Bytes × Stack → Prop where
  | starved (asked : ∃ k, alloc k = false) : Finished (.error "out of memory", L)
  | failed {msg : String} {L' : Stack} (expected : valueBytes put numeral 0 v = .error msg)
      (left : if msg = badSecret then ∃ slot, L' = L.push slot else L' = L) :
      Finished (.error msg, L')
  | written {text : Bytes} (expected : valueBytes put numeral 0 v = .ok text) :
      Finished (.ok text, L)

/-- One round of the loop: it ends, or the text is too long for the buffer. -/
theorem retries_succ (there : L.slot idx = some (.value v)) (fuel cap asked : Nat) :
    (∃ r, retries put numeral alloc met idx (fuel + 1) cap L asked = some r ∧
      Finished put numeral alloc v L r) ∨
    ∃ text asked', valueBytes put numeral 0 v = .ok text ∧ cap < text.length ∧
      retries put numeral alloc met idx (fuel + 1) cap L asked =
        retries put numeral alloc met idx fuel (cap * 2) L asked' := by
  rw [retries]
  by_cases granted : alloc asked = true
  swap
  · rw [if_neg granted]
    exact Or.inl ⟨_, rfl, .starved ⟨asked, Bool.eq_false_iff.mpr granted⟩⟩
  rw [if_pos granted]
  have meets := encode_value_meets cap put numeral alloc met luaMaxDepth (Nat.zero_add _) idx
    ⟨L.push .block, cbor_encoder_init, asked + 1⟩ v [] (Stack.slot_push there) Writer.wrote_empty
  dsimp only
  generalize encode_value cap put numeral alloc met luaMaxDepth idx
    ⟨L.push .block, cbor_encoder_init, asked + 1⟩ = result at meets ⊢
  generalize expects : valueBytes put numeral 0 v = expected at meets ⊢
  obtain ⟨r, st⟩ := result
  -- the block that owns the buffer goes in every case
  have removed : Meets cap alloc (Exact cap) ⟨L, cbor_encoder_init, asked + 1⟩ [] 1 expected
      (r, { st with L := st.L.remove (L.push .block).length }) :=
    Meets.remove ⟨L, cbor_encoder_init, asked + 1⟩ .block meets
  cases removed with
  | starved starves =>
      obtain ⟨failed, same, asked⟩ := starves
      obtain rfl : r = .fail "out of memory" := failed
      refine Or.inl ⟨_, rfl, ?_⟩
      rw [show st.L.remove (L.push .block).length = L from same]
      exact .starved asked
  | failed fails =>
      rename_i msg
      obtain ⟨failed, left⟩ := fails
      obtain rfl : r = .fail msg := failed
      exact Or.inl ⟨_, rfl, .failed expects left⟩
  | wrote writes =>
      rename_i text
      obtain ⟨exact_, same, wrote, -⟩ := writes
      rw [Exact, status, List.nil_append] at exact_
      by_cases tooLong : cap < text.length
      · rw [if_pos tooLong] at exact_
        obtain rfl : r = .outOfMemory := exact_
        refine Or.inr ⟨text, st.asked, rfl, tooLong, ?_⟩
        change retries put numeral alloc met idx fuel (cap * 2) (st.L.remove (L.push .block).length)
          st.asked = _
        rw [show st.L.remove (L.push .block).length = L from same]
      · rw [if_neg tooLong] at exact_
        obtain rfl : r = .ok := exact_
        refine Or.inl ⟨_, rfl, ?_⟩
        change Finished put numeral alloc v L (.ok st.enc.out.data, st.L.remove (L.push .block).length)
        rw [show st.L.remove (L.push .block).length = L from same,
          show st.enc.out.data = text from (wrote.fits (Nat.le_of_not_lt tooLong)).2]
        exact .written expects

/-- Whatever a run of the loop ends with. -/
theorem finished_of_retries (there : L.slot idx = some (.value v)) (fuel : Nat) :
    ∀ cap asked r, retries put numeral alloc met idx fuel cap L asked = some r →
      Finished put numeral alloc v L r := by
  induction fuel with
  | zero =>
      intro cap asked r run
      contradiction
  | succ fuel inductionHypothesis =>
      intro cap asked r run
      rcases retries_succ there fuel cap asked with ⟨r', same, finished⟩ | ⟨_, asked', _, _, same⟩
      · rw [same] at run
        cases run
        exact finished
      · rw [same] at run
        exact inductionHypothesis (cap * 2) asked' r run

/-- The loop ends when the buffer has been doubled often enough. -/
theorem retries_end (there : L.slot idx = some (.value v)) {rounds : Nat} :
    ∀ cap asked, (∀ text, valueBytes put numeral 0 v = .ok text → text.length ≤ cap * 2 ^ rounds) →
      ∀ fuel > rounds, ∃ r, retries put numeral alloc met idx fuel cap L asked = some r := by
  induction rounds with
  | zero =>
      intro cap asked enough fuel more
      obtain ⟨fuel, rfl⟩ : ∃ n, fuel = n + 1 := ⟨fuel - 1, by omega⟩
      rcases retries_succ there fuel cap asked with ⟨r, same, -⟩ | ⟨text, _, expects, tooLong, -⟩
      · exact ⟨r, same⟩
      · have fits := enough text expects
        omega
  | succ rounds inductionHypothesis =>
      intro cap asked enough fuel more
      obtain ⟨fuel, rfl⟩ : ∃ n, fuel = n + 1 := ⟨fuel - 1, by omega⟩
      rcases retries_succ there fuel cap asked with ⟨r, same, -⟩ | ⟨_, asked', _, _, same⟩
      · exact ⟨r, same⟩
      · rw [same]
        apply inductionHypothesis (cap * 2) asked' _ fuel (by omega)
        intro text expects
        have fits := enough text expects
        rw [Nat.pow_succ, Nat.mul_comm (2 ^ rounds), ← Nat.mul_assoc] at fits
        exact fits

/-- More fuel changes nothing. -/
theorem retries_mono {r : Except String Bytes × Stack} (fuel : Nat) :
    ∀ cap L asked more, fuel ≤ more → retries put numeral alloc met idx fuel cap L asked = some r →
      retries put numeral alloc met idx more cap L asked = some r := by
  induction fuel with
  | zero =>
      intro cap L asked more _ run
      contradiction
  | succ fuel inductionHypothesis =>
      intro cap L asked more enough run
      obtain ⟨more, rfl⟩ : ∃ n, more = n + 1 := ⟨more - 1, by omega⟩
      rw [retries] at run ⊢
      by_cases granted : alloc asked = true
      · rw [if_pos granted] at run ⊢
        dsimp only at run ⊢
        generalize encode_value cap put numeral alloc met luaMaxDepth idx
          ⟨L.push .block, cbor_encoder_init, asked + 1⟩ = result at run ⊢
        obtain ⟨rc, st⟩ := result
        cases rc with
        | ok => exact run
        | fail msg => exact run
        | outOfMemory => exact inductionHypothesis _ _ _ _ (by omega) run
      · rw [if_neg granted] at run ⊢
        exact run

/-! ## The call -/

/-- The absolute index -/
def absIndex (L : Stack) (idx : Int) : Nat := (if idx < 0 then L.length + idx + 1 else idx).toNat

/-- A value at an index of the stack. -/
structure ValueAt (L : Stack) (idx : Int) (v : Value) : Prop where
  positive : 0 < absIndex L idx
  there : L.slot (absIndex L idx) = some (.value v)

variable (put numeral alloc met) in
/-- With enough fuel the call ends with `r`. -/
def Ends (cap : Nat) (L : Stack) (idx : Int) (r : Except String Bytes × Stack) : Prop :=
  ∃ enough, ∀ fuel ≥ enough, qwe_lua_to_cbor put numeral alloc met fuel cap L idx = some r

/-- Without failing allocations the result is that of `luaToCbor`, as bytes. -/
theorem Finished.result {r : Except String Bytes × Stack}
    (finished : Finished put numeral (fun _ => true) v L r) :
    r.1 = (luaToCbor numeral v).map (tokensBytes put) := by
  rw [← valueBytes_eq]
  cases finished with
  | starved asked =>
      obtain ⟨k, refused⟩ := asked
      contradiction
  | failed expected left => exact expected.symm
  | written expected => exact expected.symm

theorem Ends.unique {cap : Nat} {L : Stack} {idx : Int} {r r' : Except String Bytes × Stack}
    (ends : Ends put numeral alloc met cap L idx r) (ends' : Ends put numeral alloc met cap L idx r') :
    r = r' := by
  obtain ⟨enough, run⟩ := ends
  obtain ⟨enough', run'⟩ := ends'
  have same := run (max enough enough') (Nat.le_max_left _ _)
  rw [run' (max enough enough') (Nat.le_max_right _ _)] at same
  exact (Option.some.inj same).symm

variable (put numeral alloc met) in
/-- The call ends, whatever the first buffer. -/
theorem qwe_lua_to_cbor_ends {idx : Int} (at_ : ValueAt L idx v) {cap : Nat} (some_ : 0 < cap) :
    ∃ r, Ends put numeral alloc met cap L idx r ∧ Finished put numeral alloc v L r := by
  obtain ⟨rounds, enough⟩ : ∃ rounds, ∀ text, valueBytes put numeral 0 v = .ok text →
      text.length ≤ cap * 2 ^ rounds := by
    cases valueBytes put numeral 0 v with
    | error msg => exact ⟨0, nofun⟩
    | ok text =>
        refine ⟨text.length, ?_⟩
        intro _ same
        cases same
        have grows : text.length < 2 ^ text.length := Nat.lt_two_pow_self
        have scaled : 2 ^ text.length ≤ cap * 2 ^ text.length := Nat.le_mul_of_pos_left _ some_
        omega
  obtain ⟨r, run⟩ := retries_end at_.there cap 0 enough (rounds + 1) (Nat.lt_succ_self rounds)
  refine ⟨r, ⟨rounds + 1, ?_⟩, finished_of_retries at_.there _ _ _ _ run⟩
  intro fuel more
  rw [qwe_lua_to_cbor, ensure_metatables_eq]
  exact retries_mono _ _ _ _ _ more run

end Qwe.Lua.OnStack
