import Qwe.Kernel.Classify
import Qwe.Kernel.Delivered

/-!
# The message of a killed child

What `read_step_msg` makes of the buffer, byte by byte, in every state that the child and the
parent can reach together, and what `leader_exit_event` then says of the step.
-/

set_option autoImplicit false

namespace Qwe.Kernel

open Qwe.Cbor Qwe.Lifecycle Qwe.Lua
open Qwe.Redact (Bytes)
open Qwe.Template (bytes)
open Qwe.Tinycbor

/-- `read_step_msg` on the bytes in the buffer. -/
def readStepMsgOn (alloc : Nat → Bool) (get : Nat → Bytes → Number) (L : Stack) (r : ResFields) : StepMsg :=
  if r.len = 0 ∨ r.overflow = true then .missing
  else
    match Decode.qwe_cbor_to_lua alloc get r.contents L with
    | some (.ok (), L') =>
        match L'.fromTop 1 with
        | some (.value v) => messageOf v
        | _ => .missing
    | _ => .missing

/-- Each result is one of `qwe_lua_to_cbor`, on some stack and with whatever memory there is. -/
def FromEncoder (put : Nat → Number → Bytes) (numeral : Number → Bytes)
    (encode : Nat → Value → Except String Bytes) : Prop :=
  ∀ call v, ∃ alloc met cap L idx L', 0 < cap ∧ OnStack.ValueAt L idx v ∧
    OnStack.Ends put numeral alloc met cap L idx (encode call v, L')

section Reading
variable {put : Nat → Number → Bytes} {get : Nat → Bytes → Number} {numeral : Number → Bytes}
  {encode : Nat → Value → Except String Bytes} {alloc : Nat → Bool} {L : Stack} {r : ResFields}
  {taken text : Bytes} {item : Item Number} {v w : Value}

theorem item_of_encoder (from_ : FromEncoder put numeral encode) {call : Nat} (encoded : encode call v = .ok text) :
    ∃ item, encodeValue numeral 0 v = .ok item ∧ text = tokensBytes put item.tokens := by
  obtain ⟨alloc, met, cap, L, idx, L', some_, at_, ends⟩ := from_ call v
  obtain ⟨r, ends', finished⟩ := OnStack.qwe_lua_to_cbor_ends put numeral alloc met at_ some_
  obtain rfl := ends'.unique ends
  rw [encoded] at finished
  cases finished with
  | written expected =>
      rw [OnStack.valueBytes_eq] at expected
      obtain ⟨tokens, written, rfl⟩ := Except.map_eq_ok expected
      obtain ⟨item, encodes, rfl⟩ := Except.map_eq_ok written
      exact ⟨item, encodes, rfl⟩

/-- Of a part of a message nothing is read, or the part is the whole. -/
theorem read_part (fits : ItemFits put get item) (converts : convert 0 item = .ok w) (tells : r.Tells taken)
    (part : taken <+: tokensBytes put item.tokens) :
    readStepMsgOn alloc get L r = .missing ∨
      taken = tokensBytes put item.tokens ∧ taken.length ≤ resultMax ∧
        readStepMsgOn alloc get L r = messageOf w := by
  by_cases missing : r.len = 0 ∨ r.overflow = true
  · rw [readStepMsgOn, if_pos missing]
    exact Or.inl rfl
  obtain ⟨-, clear⟩ := not_or.mp missing
  have contents := tells.told (Bool.eq_false_iff.mpr clear)
  have few : taken.length ≤ resultMax := by
    rw [← contents, ResFields.length_contents tells.toOk]
    exact tells.few
  obtain ⟨rest, cut⟩ := part
  rw [readStepMsgOn, if_neg missing, contents]
  by_cases some_ : rest = []
  · rw [some_, List.append_nil] at cut
    have ends := Decode.qwe_cbor_to_lua_ends alloc fits [] L
    rw [converts, List.append_nil, ← cut] at ends
    generalize Decode.qwe_cbor_to_lua alloc get taken L = result at ends ⊢
    cases ends with
    | starved _ asked => exact Or.inl rfl
    | done v =>
        right
        dsimp only
        rw [Stack.fromTop_push]
        exact ⟨cut, few, rfl⟩
  · obtain ⟨msg, refused⟩ := Decode.qwe_cbor_to_lua_cut fits cut.symm some_ L
    rw [refused]
    exact Or.inl rfl

/-- A message that is there as a whole is read, if there is memory. -/
theorem read_whole (fits : ItemFits put get item) (converts : convert 0 item = .ok w)
    (tells : r.Tells (tokensBytes put item.tokens)) (clear : r.overflow = false) :
    readStepMsgOn (fun _ => true) get L r = messageOf w := by
  have contents := tells.told clear
  have some_ : r.len ≠ 0 := by
    rw [← ResFields.length_contents tells.toOk, contents]
    exact mt List.length_eq_zero_iff.mp (itemBytes_ne_nil fits)
  have decoded := Decode.qwe_cbor_to_lua_decoded fits converts [] L
  rw [List.append_nil] at decoded
  rw [readStepMsgOn, if_neg (not_or.mpr ⟨some_, Bool.eq_false_iff.mp clear⟩), contents, decoded]
  dsimp only
  rw [Stack.fromTop_push]

/-! ## The messages -/

theorem valueFits_status (status : String) (small : (bytes status).length < 2 ^ 64) (reason : Option String)
    (few : ∀ why, reason = some why → (bytes why).length < 2 ^ 64) : ValueFits put get (statusTable status reason) := by
  have name : (bytes "status").length < 2 ^ 64 := by decide
  have name' : (bytes "reason").length < 2 ^ 64 := by decide
  have one : 1 ≤ uint32Max / 2 := by decide
  have two : 2 ≤ uint32Max / 2 := by decide
  cases reason with
  | none => exact ⟨by decide, one, trivial, name, small, trivial⟩
  | some why => exact ⟨by decide, two, trivial, name, small, name', few why rfl, trivial⟩

theorem valueFits_announced {granted : Nat → Bool} {ret : StepReturn} {next : Next}
    (fits : ∀ argv result, ret = .returned argv result → ValueFits put get result)
    (announced : Announces numeral granted ret v next) : ValueFits put get v := by
  cases announced with
  | result is table => exact fits _ _ is
  | exec is other some_ built => exact valueFits_status "exec" (by decide) none nofun
  | failure reason code named fails =>
      refine valueFits_status "failed" (by decide) (some reason) ?_
      rintro why ⟨⟩
      rcases named with rfl | rfl <;> decide

theorem item_of_announced {granted : Nat → Bool} {ret : StepReturn} {next : Next} {call : Nat}
    (from_ : FromEncoder put numeral encode) (short : ShortNumerals numeral)
    (fits : ∀ argv result, ret = .returned argv result → ValueFits put get result)
    (announced : Announces numeral granted ret v next) (encoded : encode call v = .ok text) :
    ∃ item w, text = tokensBytes put item.tokens ∧ ItemFits put get item ∧ convert 0 item = .ok w ∧
      messageOf w = sentMessage v := by
  obtain ⟨item, encodes, written⟩ := item_of_encoder from_ encoded
  have itemFits := fits_of_encoded short v (valueFits_announced fits announced) encodes
  obtain ⟨w, converts⟩ := converts_of_encoded numeral v encodes
  exact ⟨item, w, written, itemFits, converts, messageOf_sent encodes converts⟩

end Reading

/-! ## Runs -/

section Runs
variable {put : Nat → Number → Bytes} {get : Nat → Bytes → Number} {numeral : Number → Bytes}
  {granted : Nat → Bool} {encode : Nat → Value → Except String Bytes} {memory : Nat → UInt8}
  {isPlugin : Bool} {ret : StepReturn} {capacity : Nat} {roomy : 0 < capacity}
  {events : List ResFields.Event} {s : ResultRun}

variable (numeral granted encode memory isPlugin ret capacity roomy events) in
/-- The child of a step, and the parent with the buffer that the job's earlier steps left. -/
def stepMachine : Machine ResultRun ResultEvent :=
  ResultRun.machine (childArgv numeral granted encode isPlugin ret) memory encode capacity roomy
    (ResFields.run memory events).reset

theorem worded (from_ : FromEncoder put numeral encode) (short : ShortNumerals numeral)
    (fits : ∀ argv result, ret = .returned argv result → ValueFits put get result) :
    Worded numeral granted encode ret := by
  intro call v next text announced encoded
  obtain ⟨item, w, rfl, itemFits, -⟩ := item_of_announced from_ short fits announced encoded
  exact itemBytes_ne_nil itemFits

theorem tells_reset (memory : Nat → UInt8) (events : List ResFields.Event) :
    (ResFields.run memory events).reset.Tells [] := by
  have spawned := ResFields.tells_run memory (events ++ [.spawn])
  rw [ResFields.run, ResFields.sentOf, List.foldl_concat, List.foldl_concat] at spawned
  exact spawned

theorem safe_of_run (worded : Worded numeral granted encode ret) {allowed : ResultRun → ResultEvent → Prop}
    (reachable : (stepMachine numeral granted encode memory isPlugin ret capacity roomy events).Reachable
      allowed s) : Safe (childArgv numeral granted encode isPlugin ret) s :=
  ResultRun.safe_of_reachable ((childArgv_starts worded isPlugin).begins worded)
    (tells_reset memory events) reachable

/-! ### A command -/

/-- `qwe_lua_to_cbor` when no allocation fails. -/
def plainEncode (put : Nat → Number → Bytes) (numeral : Number → Bytes) (_ : Nat) (v : Value) :
    Except String Bytes :=
  (luaToCbor numeral v).map (tokensBytes put)

theorem fromEncoder_plain (put : Nat → Number → Bytes) (numeral : Number → Bytes) :
    FromEncoder put numeral (plainEncode put numeral) := by
  intro call v
  have at_ : OnStack.ValueAt [.value v] 1 v := ⟨Nat.zero_lt_one, rfl⟩
  obtain ⟨⟨result, L'⟩, ends, finished⟩ := OnStack.qwe_lua_to_cbor_ends put numeral (fun _ => true)
    (fun _ => 0) at_ Nat.zero_lt_one
  obtain rfl : result = plainEncode put numeral call v := finished.result
  exact ⟨_, _, 1, _, 1, L', Nat.zero_lt_one, at_, ends⟩

theorem encodes_exec (numeral : Number → Bytes) : encodeValue numeral 0 (statusTable "exec" none) =
    .ok (.map true [(.text (bytes "status"), .text (bytes "exec"))]) := by
  rw [statusTable, luaTable, encodeValue, if_neg (by decide)]
  simp only [Option.map_none, Option.toList_none, classify, List.length_nil, Nat.not_lt_zero, gt_iff_lt,
    Bool.false_eq_true, or_self, if_false, List.map_cons, List.map_nil, List.mergeSort_singleton]
  rfl

/-- `{ "true" }` -/
def trueArgv : Value := .table .none [.string (bytes "true")] [] false

/-- `{ status = "exec" }` -/
def execText : Bytes := [0xa1, 0x66, 115, 116, 97, 116, 117, 115, 0x64, 101, 120, 101, 99]

theorem exec_encoded (call : Nat) :
    plainEncode (fun _ _ => []) (fun _ => []) call (statusTable "exec" none) = .ok execText := by
  rw [plainEncode, luaToCbor, encodes_exec]
  rfl

theorem trueArgv_start : childArgv (fun _ => []) (fun _ => true) (plainEncode (fun _ _ => []) fun _ => []) true
    (.returned trueArgv .nil) = .sending execText 0 (.exec [bytes "true"]) := by
  have start : childArgv (fun _ => []) (fun _ => true) (plainEncode (fun _ _ => []) fun _ => []) true
      (.returned trueArgv .nil) =
      startSend (plainEncode (fun _ _ => []) fun _ => []) (statusTable "exec" none) (.exec [bytes "true"]) := rfl
  rw [start, startSend, exec_encoded]
  rfl

/-- The child writes in two pieces, and the command ends. -/
def trueEvents : List ResultEvent :=
  [.returns, .writes 5, .interrupted, .reads 5 true, .writes 8, .reads 64 true, .execs none,
    .exits (.exited 0)]

def remembers : ResultRun → ResultEvent → Bool
  | _, .reads _ granted => granted
  | _, _ => true

theorem remembers_sound (s : ResultRun) (event : ResultEvent) (passed : remembers s event = true) :
    ResultRun.Remembers s event := by
  rintro n rfl
  contradiction

/-- The child of `true`, whose pipe holds 8 bytes. -/
def trueMachine : Machine ResultRun ResultEvent :=
  ResultRun.machine (.sending execText 0 (.exec [bytes "true"])) (fun _ => 0)
    (plainEncode (fun _ _ => []) fun _ => []) 8 (by decide) (ResFields.run (fun _ => 0) []).reset

theorem trueMachine_eq : stepMachine (fun _ => []) (fun _ => true) (plainEncode (fun _ _ => []) fun _ => [])
    (fun _ => 0) true (.returned trueArgv .nil) 8 (by decide) [] = trueMachine := by
  rw [stepMachine, trueArgv_start, trueMachine]

theorem trueMachine_runs : ∃ s, trueMachine.Reachable ResultRun.Remembers s ∧
    s.child = .ended (.exited 0) ∧ s.pipe.held = [] := by
  obtain ⟨s, run, test⟩ := Machine.exists_run_of_replay remembers remembers_sound trueEvents
    (fun s => decide (s.child = .ended (.exited 0)) && decide (s.pipe.held = []))
    (show (trueMachine.replay remembers trueEvents trueMachine.init).any _ = true by decide)
  rw [Bool.and_eq_true, decide_eq_true_eq, decide_eq_true_eq] at test
  exact ⟨s, run, test⟩

/-- The child is killed when the parent has the first bytes. -/
def killedEvents : List ResultEvent := [.returns, .writes 5, .reads 5 true, .writes 3, .killed 9]

theorem trueMachine_killed : ∃ s, trueMachine.Reachable Machine.Any s ∧
    s.child = .ended (.signaled 9) ∧ s.pipe.taken = execText.take 5 := by
  obtain ⟨s, run, test⟩ := Machine.exists_run_of_replay (fun _ _ => true) (fun _ _ _ => trivial) killedEvents
    (fun s : ResultRun => decide (s.child = .ended (.signaled 9)) && decide (s.pipe.taken = execText.take 5))
    (show (trueMachine.replay _ killedEvents trueMachine.init).any _ = true by decide)
  rw [Bool.and_eq_true, decide_eq_true_eq, decide_eq_true_eq] at test
  exact ⟨s, run, test⟩

theorem shortNumerals_none : ShortNumerals fun _ => [] := fun _ => Nat.two_pow_pos 64

theorem trueArgv_fits : ∀ argv result, StepReturn.returned trueArgv .nil = .returned argv result →
    ValueFits (fun _ _ => []) (fun _ _ => .nan) result := by
  rintro argv result ⟨⟩
  trivial

/-! ### What the parent reads -/

theorem missing_or_sent (from_ : FromEncoder put numeral encode) (short : ShortNumerals numeral)
    (fits : ∀ argv result, ret = .returned argv result → ValueFits put get result)
    (safe : Safe (childArgv numeral granted encode isPlugin ret) s) (alloc : Nat → Bool) (L : Stack) :
    readStepMsgOn alloc get L s.res = .missing ∨
      ∃ v next text, childArgv numeral granted encode isPlugin ret = .sending text 0 next ∧
        Announces numeral granted ret v next ∧ s.pipe.taken = text ∧
        readStepMsgOn alloc get L s.res = sentMessage v := by
  have worded : Worded numeral granted encode ret := worded from_ short fits
  have part : s.pipe.taken <+: (childArgv numeral granted encode isPlugin ret).message :=
    s.pipe.taken_leads.trans safe.place.part
  have starts := childArgv_starts worded isPlugin
  generalize childArgv numeral granted encode isPlugin ret = start at starts part ⊢
  cases starts with
  | silent code fails =>
      have none_ : s.pipe.taken = [] := List.prefix_nil.mp part
      have told := safe.told
      rw [none_] at told
      left
      rw [readStepMsgOn]
      by_cases flag : s.res.overflow = true
      · rw [if_pos (Or.inr flag)]
      · have empty := ResFields.length_contents told.toOk
        rw [told.told (Bool.eq_false_iff.mpr flag), List.length_nil] at empty
        rw [if_pos (Or.inl empty.symm)]
  | sending call announced first encoded =>
      rename_i v next text
      obtain ⟨item, w, rfl, itemFits, converts, said⟩ := item_of_announced from_ short fits announced encoded
      rcases read_part itemFits converts safe.told part with missing | ⟨whole, -, read⟩
      · exact Or.inl missing
      · exact Or.inr ⟨v, next, _, rfl, announced, whole, read.trans said⟩

/-- In every state that the child and the parent reach, whatever signals came, the parent has no
message, or the message that the child set out to send, read as a whole. -/
theorem message_whole_or_missing (from_ : FromEncoder put numeral encode) (short : ShortNumerals numeral)
    (fits : ∀ argv result, ret = .returned argv result → ValueFits put get result)
    (reachable : (stepMachine numeral granted encode memory isPlugin ret capacity roomy events).Reachable
      Machine.Any s) (alloc : Nat → Bool) (L : Stack) :
    readStepMsgOn alloc get L s.res = .missing ∨
      ∃ v next text, childArgv numeral granted encode isPlugin ret = .sending text 0 next ∧
        Announces numeral granted ret v next ∧ s.pipe.taken = text ∧
        readStepMsgOn alloc get L s.res = sentMessage v := by
  have safe := safe_of_run (worded from_ short fits) reachable
  exact missing_or_sent from_ short fits safe alloc L

theorem message_whole_or_missing_killed : ∃ s : ResultRun, s.child = .ended (.signaled 9) ∧
    s.pipe.taken = execText.take 5 ∧
    readStepMsgOn (fun _ => true) (fun _ _ => .nan) [] s.res = .missing := by
  obtain ⟨s, run, ended, taken⟩ := trueMachine_killed
  rw [← trueMachine_eq] at run
  rcases message_whole_or_missing (fromEncoder_plain _ _) shortNumerals_none trueArgv_fits run (fun _ => true) []
    with missing | ⟨v, next, text, start, -, whole, -⟩
  · exact ⟨s, ended, taken, missing⟩
  · rw [trueArgv_start] at start
    cases start
    rw [taken] at whole
    exact absurd whole (by decide)

/-! ## The verdict -/

/-- The result says ok, it can be encoded, and it is not too long. -/
def ReportsOk (encode : Nat → Value → Except String Bytes) (ret : StepReturn) : Prop :=
  ∃ argv result text, ret = .returned argv result ∧ isTable result = true ∧ encode 0 result = .ok text ∧
    text.length ≤ resultMax ∧ (sentMessage result).status = .ok

/-- There is an argv to run, and the parent can be told so. -/
def RunsCommand (numeral : Number → Bytes) (granted : Nat → Bool)
    (encode : Nat → Value → Except String Bytes) (ret : StepReturn) : Prop :=
  ∃ mt sequence fields others result argv text, ret = .returned (.table mt sequence fields others) result ∧
    isTable result = false ∧ sequence ≠ [] ∧ buildArgv numeral granted sequence = .ok argv ∧
    encode 0 (statusTable "exec" none) = .ok text

theorem not_exec_of_saysOk {v : Value} (claimed : saysOk v = true) : (sentMessage v).status ≠ .exec := by
  intro said
  cases v with
  | table mt sequence fields others =>
      rw [sentMessage] at said
      split at said
      · have reads := messageOf_reads (.table mt sequence fields others)
        rw [said] at reads
        cases reads with
        | exec is =>
            have apart : bytes "exec" ≠ bytes "ok" := by decide
            exact apart (is.symm.trans (of_decide_eq_true claimed))
      · contradiction
  | _ => contradiction

/-- What is read once all of the message is. -/
theorem message_of_sent (from_ : FromEncoder put numeral encode) (short : ShortNumerals numeral)
    (fits : ∀ argv result, ret = .returned argv result → ValueFits put get result) {v : Value} {next : Next}
    {text : Bytes} {call : Nat} (announced : Announces numeral granted ret v next)
    (encoded : encode call v = .ok text) {r : ResFields} (tells : r.Tells text) (L : Stack) :
    (r.overflow = false → readStepMsgOn (fun _ => true) get L r = sentMessage v ∧ text.length ≤ resultMax) ∧
      (r.overflow = true → readStepMsgOn (fun _ => true) get L r = .missing) := by
  obtain ⟨item, w, rfl, itemFits, converts, said⟩ := item_of_announced from_ short fits announced encoded
  constructor
  · intro clear
    refine ⟨(read_whole itemFits converts tells clear).trans said, ?_⟩
    rw [← tells.told clear, ResFields.length_contents tells.toOk]
    exact tells.few
  · intro flag
    rw [readStepMsgOn, if_pos (Or.inr flag)]

theorem exec_short (from_ : FromEncoder put numeral encode) {call : Nat} {text : Bytes}
    (encoded : encode call (statusTable "exec" none) = .ok text) : text.length ≤ resultMax := by
  obtain ⟨item, encodes, rfl⟩ := item_of_encoder from_ encoded
  rw [encodes_exec] at encodes
  cases encodes
  have few : (tokensBytes put (Item.map true [(.text (bytes "status"), .text (bytes "exec"))] :
      Item Number).tokens).length = 13 := rfl
  rw [few]
  decide

variable (isPlugin) in
/-- What the child that reports ok or runs a command begins with. -/
theorem start_of_said (worded : Worded numeral granted encode ret)
    (said : ReportsOk encode ret ∨ RunsCommand numeral granted encode ret) :
    ∃ v next text, childArgv numeral granted encode isPlugin ret = .sending text 0 next ∧
      Announces numeral granted ret v next ∧ encode 0 v = .ok text ∧
      ((sentMessage v).status = .ok ∧ text.length ≤ resultMax ∨ v = statusTable "exec" none) := by
  rcases said with ⟨argv, result, text, is, table, encoded, few, ok⟩ |
    ⟨kind, sequence, fields, others, result, argv, text, is, other, some_, built, encoded⟩
  · have announced : Announces numeral granted ret _ _ := .result is table
    refine ⟨result, _, text, ?_, announced, encoded, Or.inl ⟨ok, few⟩⟩
    subst is
    have filled : text.length ≠ 0 := mt List.length_eq_zero_iff.mp (worded _ _ _ _ announced encoded)
    unfold childArgv startSend
    dsimp only
    rw [if_pos table, encoded]
    exact if_neg filled
  · have announced : Announces numeral granted ret _ _ := .exec is other some_ built
    refine ⟨_, _, text, ?_, announced, encoded, Or.inr rfl⟩
    subst is
    have filled : text.length ≠ 0 := mt List.length_eq_zero_iff.mp (worded _ _ _ _ announced encoded)
    unfold childArgv startSend
    dsimp only
    rw [if_neg (Bool.eq_false_iff.mp other), if_neg (mt List.length_eq_zero_iff.mp some_), built]
    dsimp only
    rw [encoded]
    exact if_neg filled

/-- After status 0 the message was a result that says ok, or there was a command. -/
theorem next_of_success {next : Next} (reached : Reaches next (.exited 0)) :
    next = .result true ∨ (∃ argv, next = .exec argv) ∨ next = .exit 0 := by
  generalize child_ : Child.exited 0 = child at reached
  cases reached with
  | flushed ok worked =>
      left
      cases ok with
      | true => rfl
      | false => exact absurd (show Child.exited 0 = .exited 1 from child_) (by decide)
  | finished argv status => exact Or.inr (Or.inl ⟨argv, rfl⟩)
  | unexeced argv fails => exact Or.inr (Or.inl ⟨argv, rfl⟩)
  | exited code =>
      cases child_
      exact Or.inr (Or.inr rfl)
  | _ => contradiction

theorem result_of_announced {v : Value} {ok : Bool} (announced : Announces numeral granted ret v (.result ok)) :
    ∃ argv, ret = .returned argv v ∧ isTable v = true ∧ ok = saysOk v := by
  generalize next_ : Next.result ok = next at announced
  cases announced with
  | result is table =>
      cases next_
      exact ⟨_, is, table, rfl⟩
  | _ => contradiction

/-- A child that set out to send and ended by itself has written all of it. -/
theorem sent_of_ended {text sent : Bytes} {next : Next} {code : Nat}
    (place : Place (.sending text 0 next) (.ended (.exited code)) sent) : sent = text := by
  cases place with
  | silent from_ => contradiction
  | sent sending reached =>
      cases sending
      rfl

/-- The child ended well, and its message is read as that of a success. -/
theorem said_of_success (from_ : FromEncoder put numeral encode) (short : ShortNumerals numeral)
    (fits : ∀ argv result, ret = .returned argv result → ValueFits put get result) {r : ResFields}
    {sent : Bytes} (tells : r.Tells sent)
    (place : Place (childArgv numeral granted encode isPlugin ret) (.ended (.exited 0)) sent) (L : Stack)
    (success : (readStepMsgOn (fun _ => true) get L r).status = .ok ∨
      (readStepMsgOn (fun _ => true) get L r).status = .exec) :
    ReportsOk encode ret ∨ RunsCommand numeral granted encode ret := by
  have worded : Worded numeral granted encode ret := worded from_ short fits
  have starts := childArgv_starts worded isPlugin
  generalize childArgv numeral granted encode isPlugin ret = start at place starts
  cases place with
  | silent from_ =>
      rw [from_] at starts
      cases starts with
      | silent code fails => exact absurd rfl fails
  | sent sending reached =>
      rw [sending] at starts
      cases starts with
      | sending call announced first encoded =>
          obtain ⟨arrives, missing⟩ := message_of_sent from_ short fits announced encoded tells L
          have clear : r.overflow = false := by
            by_contra flag
            rw [missing (Bool.eq_true_of_not_eq_false flag)] at success
            rcases success with said | said <;> contradiction
          obtain ⟨read, few⟩ := arrives clear
          rw [read] at success
          rcases next_of_success reached with rfl | ⟨argv, rfl⟩ | rfl
          · obtain rfl := first nofun
            obtain ⟨argv, is, table, claims⟩ := result_of_announced announced
            have ok := success.resolve_right (not_exec_of_saysOk claims.symm)
            exact Or.inl ⟨argv, _, _, is, table, encoded, few, ok⟩
          · obtain rfl := first nofun
            cases announced with
            | exec is other some_ built =>
                exact Or.inr ⟨_, _, _, _, _, argv, _, is, other, some_, built, encoded⟩
          · cases announced with
            | failure reason code named fails => exact absurd rfl fails

/-- The child reported ok or ran a command, and ended well: its message is read as that of a
success, in a buffer that overflows only with more than fits. -/
theorem success_of_said (from_ : FromEncoder put numeral encode) (short : ShortNumerals numeral)
    (fits : ∀ argv result, ret = .returned argv result → ValueFits put get result) {r : ResFields}
    {sent : Bytes} (tells : r.Tells sent) (long : r.overflow = true → resultMax < sent.length)
    (place : Place (childArgv numeral granted encode isPlugin ret) (.ended (.exited 0)) sent) (L : Stack)
    (said : ReportsOk encode ret ∨ RunsCommand numeral granted encode ret) :
    (readStepMsgOn (fun _ => true) get L r).status = .ok ∨
      (readStepMsgOn (fun _ => true) get L r).status = .exec := by
  obtain ⟨v, next, text, start, announced, encoded, ok⟩ :=
    start_of_said isPlugin (worded from_ short fits) said
  rw [start] at place
  obtain rfl := sent_of_ended place
  obtain ⟨arrives, -⟩ := message_of_sent from_ short fits announced encoded tells L
  have few : sent.length ≤ resultMax := by
    rcases ok with ⟨-, few⟩ | rfl
    · exact few
    · exact exec_short from_ encoded
  have clear : r.overflow = false := by
    by_contra flag
    have much := long (Bool.eq_true_of_not_eq_false flag)
    omega
  rw [(arrives clear).1]
  rcases ok with ⟨ok, -⟩ | rfl
  · exact Or.inl ok
  · exact Or.inr rfl

/-- Once the child has ended and the pipe is read to its end, a step that uses a plugin has
succeeded just when the child ended with status 0 and either returned a result that says ok and
arrives whole, or ran a command. -/
theorem uses_step_ok_iff (from_ : FromEncoder put numeral encode) (short : ShortNumerals numeral)
    (fits : ∀ argv result, ret = .returned argv result → ValueFits put get result)
    (reachable : (stepMachine numeral granted encode memory isPlugin ret capacity roomy events).Reachable
      ResultRun.Remembers s) {status : WaitStatus} (ended : s.child = .ended status)
    (empty : s.pipe.held = []) {job : Job} (plugin : liveStepIsPlugin job = true) (pid : Nat)
    (masterGone : Bool) (L : Stack) :
    (leaderExitEvent job ⟨pid, status, readStepMsgOn (fun _ => true) get L s.res, masterGone⟩).1 =
        .leaderExitOk ↔
      status = .exited 0 ∧ (ReportsOk encode ret ∨ RunsCommand numeral granted encode ret) := by
  have worded : Worded numeral granted encode ret := worded from_ short fits
  have safe := safe_of_run worded reachable
  have told := safe.told
  have long := ResultRun.overflow_of_reachable ((childArgv_starts worded isPlugin).begins worded)
    (tells_reset memory events) rfl reachable
  rw [Pipe.taken_of_drained empty] at told long
  have place := safe.place
  rw [ended] at place
  rw [plugin_exits_ok plugin]
  refine and_congr_right ?_
  rintro rfl
  constructor
  · exact said_of_success from_ short fits told place L
  · exact success_of_said from_ short fits told long place L

theorem uses_step_ok_iff_true : ∃ s : ResultRun, s.child = .ended (.exited 0) ∧
    (leaderExitEvent (Job.initial ⟨"a", "local", [], [⟨none, none, some "x", false, false, 0⟩], 0⟩ none)
      ⟨7, .exited 0, readStepMsgOn (fun _ => true) (fun _ _ => .nan) [] s.res, false⟩).1 = .leaderExitOk := by
  obtain ⟨s, run, ended, empty⟩ := trueMachine_runs
  rw [← trueMachine_eq] at run
  have ran : RunsCommand (fun _ => []) (fun _ => true) (plainEncode (fun _ _ => []) fun _ => [])
      (.returned trueArgv .nil) :=
    ⟨.none, _, [], false, .nil, [bytes "true"], execText, rfl, rfl, nofun, rfl, exec_encoded 0⟩
  refine ⟨s, ended, ?_⟩
  exact (uses_step_ok_iff (fromEncoder_plain _ _) shortNumerals_none trueArgv_fits run ended empty rfl 7 false
    []).mpr ⟨rfl, Or.inr ran⟩

/-! ## With memory, the child says what the model of a plugin says -/

theorem isString_iff (numeral : Number → Bytes) (v : Value) :
    isString v = true ↔ ∃ text, secretText numeral v = some text := by
  cases v <;> simp [isString, secretText]

/-- Without failing allocations the argv is built just when every argument is a string. -/
theorem argvFrom_granted (numeral : Number → Bytes) (args : List Value) (n : Nat) :
    (∃ argv, argvFrom numeral (fun _ => true) n args = .ok argv ∧ args.all isString = true) ∨
      argvFrom numeral (fun _ => true) n args = .error .notString ∧ args.all isString = false := by
  induction args generalizing n with
  | nil => exact Or.inl ⟨[], rfl, rfl⟩
  | cons arg rest inductionHypothesis =>
      rw [argvFrom, List.all_cons]
      cases string : isString arg with
      | false =>
          have none_ : secretText numeral arg = none := by
            rw [← Option.not_isSome_iff_eq_none, Option.isSome_iff_exists, ← isString_iff, string]
            exact Bool.false_ne_true
          rw [none_]
          exact Or.inr ⟨rfl, rfl⟩
      | true =>
          obtain ⟨text, found⟩ := (isString_iff numeral arg).mp string
          rw [found]
          rcases inductionHypothesis (n + 1) with ⟨argv, built, all⟩ | ⟨failed, all⟩
          · refine Or.inl ⟨cString text :: argv, ?_, all⟩
            rw [built]
            rfl
          · refine Or.inr ⟨?_, all⟩
            rw [failed]
            rfl

/-- A text that the child writes, and the heads that stand for it in `childMessage`. -/
structure Wrote (put : Nat → Number → Bytes) (numeral : Number → Bytes) (v : Value) (text : Bytes)
    (heads : Option (List (Token Number))) (item : Item Number) : Prop where
  encodes : encodeValue numeral 0 v = .ok item
  text : text = tokensBytes put item.tokens
  heads : heads = some item.tokens

theorem wrote_of_plain {call : Nat} {v : Value} {text : Bytes} (encoded : plainEncode put numeral call v = .ok text) :
    ∃ item, Wrote put numeral v text (sendResult numeral v) item := by
  obtain ⟨tokens, written, rfl⟩ := Except.map_eq_ok encoded
  have sent : sendResult numeral v = some tokens := by
    rw [sendResult, written]
    rfl
  obtain ⟨item, encodes, rfl⟩ := Except.map_eq_ok written
  exact ⟨item, encodes, rfl, sent⟩

theorem sendResult_of_error {call : Nat} {v : Value} {err : String}
    (failed : plainEncode put numeral call v = .error err) : sendResult numeral v = none := by
  rw [plainEncode] at failed
  rw [sendResult]
  cases written : luaToCbor numeral v with
  | error _ => rfl
  | ok tokens =>
      rw [written] at failed
      contradiction

theorem wrote_of_failure {call code : Nat} {reason : String} {next : Next} {text : Bytes}
    (start : sendFailure (plainEncode put numeral) call reason code = .sending text 0 next) :
    ∃ item, Wrote put numeral (statusTable "failed" (some reason)) text
      (sendStatus numeral "failed" (some reason)) item := by
  unfold sendFailure at start
  split at start
  · rename_i text' encoded
    split at start
    · contradiction
    · cases start
      exact wrote_of_plain encoded
  · contradiction

/-- `send_result`, and the failure that is sent in its place. -/
theorem wrote_of_send {v : Value} {next next' : Next} {text : Bytes}
    (start : startSend (plainEncode put numeral) v next' = .sending text 0 next)
    (other : ∀ code, next' ≠ .exit code) :
    ∃ w item, Wrote put numeral w text
      ((sendResult numeral v).or (sendStatus numeral "failed" (some "engine-error"))) item ∧
      (w = v ∨ w = statusTable "failed" (some "engine-error")) := by
  unfold startSend at start
  split at start
  · rename_i text' encoded
    split at start
    · cases next' with
      | exit code => exact absurd rfl (other code)
      | _ => contradiction
    · cases start
      obtain ⟨item, wrote⟩ := wrote_of_plain encoded
      refine ⟨v, item, ⟨wrote.encodes, wrote.text, ?_⟩, Or.inl rfl⟩
      rw [wrote.heads, Option.some_or]
  · rename_i err encoded
    rw [sendResult_of_error encoded, Option.none_or]
    cases next' with
    | result ok =>
        obtain ⟨item, wrote⟩ := wrote_of_failure start
        exact ⟨_, item, wrote, Or.inr rfl⟩
    | exec argv =>
        obtain ⟨item, wrote⟩ := wrote_of_failure start
        exact ⟨_, item, wrote, Or.inr rfl⟩
    | exit code => exact absurd rfl (other code)

/-- What the child writes for a plugin are the heads of `childMessage`. -/
theorem childMessage_of_start {p : Plugin} {next : Next} {text : Bytes}
    (start : childArgv numeral (fun _ => true) (plainEncode put numeral) isPlugin
      (.returned (runStep p).1 (runStep p).2) = .sending text 0 next) :
    ∃ v item, Wrote put numeral v text (childMessage numeral p) item ∧
      (v = (runStep p).2 ∨ ∃ status reason, (v = statusTable status reason ∧
        (bytes status).length < 2 ^ 64 ∧ ∀ why, reason = some why → (bytes why).length < 2 ^ 64)) := by
  have small : ∀ why, some "engine-error" = some why → (bytes why).length < 2 ^ 64 := by
    rintro why ⟨⟩
    decide
  unfold childArgv at start
  unfold childMessage
  dsimp only at start ⊢
  by_cases table : isTable (runStep p).2 = true
  · rw [if_pos table] at start ⊢
    obtain ⟨w, item, wrote, which⟩ := wrote_of_send start (by simp)
    refine ⟨w, item, wrote, which.imp id fun failed => ⟨_, _, failed, by decide, small⟩⟩
  rw [if_neg table] at start ⊢
  cases argv : (runStep p).1 with
  | table kind sequence fields others =>
      rw [argv] at start
      dsimp only at start
      split at start
      · contradiction
      rename_i some_
      rw [buildArgv, if_pos rfl] at start
      rcases argvFrom_granted numeral sequence 0 with ⟨built, is, all⟩ | ⟨failed, all⟩
      · have ready : isArgv (.table kind sequence fields others) = true := by
          rw [isArgv, all, Bool.and_true, Bool.not_eq_true', List.isEmpty_eq_false_iff]
          exact mt List.length_eq_zero_iff.mpr some_
        rw [if_pos ready]
        rw [is] at start
        obtain ⟨w, item, wrote, which⟩ := wrote_of_send start (by simp)
        refine ⟨w, item, wrote, Or.inr ?_⟩
        rcases which with rfl | rfl
        · exact ⟨_, _, rfl, by decide, by simp⟩
        · exact ⟨_, _, rfl, by decide, small⟩
      · rw [failed] at start
        contradiction
  | _ =>
      rw [argv] at start
      contradiction

/-- Where no memory runs out in the child, the parent hears of a plugin what the model of a
plugin lets it hear, in every state of every run. -/
theorem run_hears {p : Plugin} (short : ShortNumerals numeral)
    (fits : ValueFits put get (runStep p).2)
    (reachable : (stepMachine numeral (fun _ => true) (plainEncode put numeral) memory isPlugin
      (.returned (runStep p).1 (runStep p).2) capacity roomy events).Reachable Machine.Any s)
    (alloc : Nat → Bool) (L : Stack) :
    Hears put numeral p (readStepMsgOn alloc get L s.res) := by
  have resultFits : ∀ argv result, StepReturn.returned (runStep p).1 (runStep p).2 =
      .returned argv result → ValueFits put get result := by
    intro argv result same
    cases same
    exact fits
  have safe := safe_of_run (worded (fromEncoder_plain put numeral) short resultFits) reachable
  rcases missing_or_sent (fromEncoder_plain put numeral) short resultFits safe alloc L with
    missing | ⟨_, next, text, start, -, whole, -⟩
  · exact Or.inl missing
  obtain ⟨v, item, wrote, which⟩ := childMessage_of_start start
  have vFits : ValueFits put get v := by
    rcases which with rfl | ⟨status, reason, rfl, small, few⟩
    · exact fits
    · exact valueFits_status status small reason few
  have itemFits := fits_of_encoded short v vFits wrote.encodes
  obtain ⟨w, converts⟩ := converts_of_encoded numeral v wrote.encodes
  have part : s.pipe.taken <+: tokensBytes put item.tokens := by
    rw [whole, wrote.text]
  rcases read_part itemFits converts safe.told part with missing | ⟨all, few, read⟩
  · exact Or.inl missing
  · refine Or.inr ⟨item.tokens, wrote.heads, all ▸ few, ?_⟩
    rw [read, readMessage, cborToLua_tokens, converts]

theorem run_hears_killed : ∃ s : ResultRun, s.child = .ended (.signaled 9) ∧
    Hears (fun _ _ => []) (fun _ => []) ⟨some (.returned [trueArgv]), .raised, .raised, .raised⟩
      (readStepMsgOn (fun _ => true) (fun _ _ => .nan) [] s.res) := by
  obtain ⟨s, run, ended, -⟩ := trueMachine_killed
  rw [← trueMachine_eq] at run
  have fits : ValueFits (fun _ _ => []) (fun _ _ => .nan)
      (runStep ⟨some (.returned [trueArgv]), .raised, .raised, .raised⟩).2 := trivial
  exact ⟨s, ended, run_hears shortNumerals_none fits run (fun _ => true) []⟩

end Runs

end Qwe.Kernel
