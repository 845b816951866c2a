import Qwe.Secrets.Base64
import Qwe.Template.Document

/-!
# The secret envelope

`src/secrets/envelope.c` over the authenticated encryption of the vendored libsodium
(`crypto_aead/xchacha20poly1305/aead_xchacha20poly1305.c`).  The three primitives under that
construction are parameters, and nothing is assumed of them.  Allocations and `sodium_init`
succeed.  A text is a C string: the bytes up to its terminator.
-/

set_option autoImplicit false

namespace Qwe.Secrets

open Qwe.Redact (Bytes)
open Qwe.Template (bytes)

/-! ## The authenticated encryption -/

/-- `crypto_core_hchacha20` of an input and a key, the bytes of the key stream of
`crypto_stream_chacha20_ietf_ext` for a nonce and a key, and `crypto_onetimeauth_poly1305` of
a one-time key and a message. -/
structure Primitives where
  hchacha20 : Bytes → Bytes → Bytes
  chacha20 : Bytes → Bytes → Nat → UInt8
  poly1305 : Bytes → Bytes → Vector UInt8 16

/-- Each byte against its byte of the key stream. -/
def streamXor (stream : Nat → UInt8) (m : Bytes) : Bytes := m.mapIdx fun i b => b ^^^ stream i

/-- `STORE64_LE` -/
def store64LE (n : Nat) : Bytes := (List.range 8).map fun i => UInt8.ofNat (n / 256 ^ i)

/-- `_pad0`, up to the next multiple of 16. -/
def pad0 (len : Nat) : Bytes := List.replicate ((16 - len % 16) % 16) 0

abbrev Key := Vector UInt8 32
abbrev Nonce := Vector UInt8 24

section Aead
variable (crypto : Primitives)

/-- The tag that `_encrypt_detached` writes and `_decrypt_detached` compares with. -/
def computedMac (npub k ad c : Bytes) : Vector UInt8 16 :=
  crypto.poly1305 ((List.range 32).map (crypto.chacha20 npub k))
    (ad ++ pad0 ad.length ++ c ++ pad0 c.length ++ store64LE ad.length ++ store64LE c.length)

/-- `crypto_stream_chacha20_ietf_ext_xor_ic` from block 1 on. -/
def chachaXor (npub k m : Bytes) : Bytes :=
  streamXor (fun i => crypto.chacha20 npub k (64 + i)) m

/-- `_encrypt_detached` -/
def encryptDetached (npub k ad m : Bytes) : Bytes × Vector UInt8 16 :=
  let c := chachaXor crypto npub k m
  (c, computedMac crypto npub k ad c)

/-- `_decrypt_detached` -/
def decryptDetached (npub k ad c mac : Bytes) : Option Bytes :=
  if (computedMac crypto npub k ad c).toList = mac then some (chachaXor crypto npub k c) else none

/-- The inner key and nonce of the extended construction. -/
def innerKey (npub k : Bytes) : Bytes := crypto.hchacha20 (npub.take 16) k

def innerNonce (npub : Bytes) : Bytes := List.replicate 4 0 ++ (npub.drop 16).take 8

/-- `crypto_aead_xchacha20poly1305_ietf_encrypt` -/
def aeadEncrypt (m ad npub k : Bytes) : Bytes :=
  let sealed := encryptDetached crypto (innerNonce npub) (innerKey crypto npub k) ad m
  sealed.1 ++ sealed.2.toList

/-- `crypto_aead_xchacha20poly1305_ietf_decrypt` -/
def aeadDecrypt (c ad npub k : Bytes) : Option Bytes :=
  if 16 ≤ c.length then
    decryptDetached crypto (innerNonce npub) (innerKey crypto npub k) ad
      (c.take (c.length - 16)) (c.drop (c.length - 16))
  else none

end Aead

@[simp] theorem streamXor_length (stream : Nat → UInt8) (m : Bytes) :
    (streamXor stream m).length = m.length := List.length_mapIdx

/-- The key stream goes away when it is applied again. -/
theorem streamXor_twice (stream : Nat → UInt8) (m : Bytes) :
    streamXor stream (streamXor stream m) = m := by
  apply List.ext_getElem
  · rw [streamXor_length, streamXor_length]
  · intro i _ inside
    simp only [streamXor, List.getElem_mapIdx]
    rw [UInt8.xor_assoc, UInt8.xor_self, UInt8.xor_zero]

/-- What decrypts is the encryption of what it decrypts to, and nothing else is. -/
theorem aeadDecrypt_iff (crypto : Primitives) (c ad npub k m : Bytes) :
    aeadDecrypt crypto c ad npub k = some m ↔ c = aeadEncrypt crypto m ad npub k := by
  constructor
  · intro decrypted
    rw [aeadDecrypt] at decrypted
    split_ifs at decrypted with long
    rw [decryptDetached] at decrypted
    split_ifs at decrypted with genuine
    have plain := Option.some.inj decrypted
    have stream : chachaXor crypto (innerNonce npub) (innerKey crypto npub k) m =
        c.take (c.length - 16) := by
      rw [← plain]
      exact streamXor_twice _ _
    rw [aeadEncrypt, encryptDetached]
    dsimp only
    rw [stream, genuine, List.take_append_drop]
  · intro same
    have tagLong : ∀ tag : Vector UInt8 16, tag.toList.length = 16 := fun tag => by simp
    rw [same, aeadEncrypt, encryptDetached, aeadDecrypt]
    dsimp only
    rw [if_pos (by rw [List.length_append, tagLong]; omega), List.length_append, tagLong,
      Nat.add_sub_cancel, List.take_left, List.drop_left, decryptDetached, if_pos rfl]
    exact congrArg some (streamXor_twice _ _)

theorem aeadEncrypt_length (crypto : Primitives) (m ad npub k : Bytes) :
    (aeadEncrypt crypto m ad npub k).length = m.length + 16 := by
  simp [aeadEncrypt, encryptDetached, chachaXor]

/-! ## The envelope -/

/-- `PREFIX` -/
def envelopePrefix : Bytes := bytes "qwe:1:xchacha20poly1305:"

/-- The additional data: the prefix without its last colon. -/
def envelopeAd : Bytes := envelopePrefix.take (envelopePrefix.length - 1)

/-- What `qwe_envelope_seal` puts behind the prefix, for the nonce it draws. -/
def sealedBlob (crypto : Primitives) (key : Key) (nonce : Nonce) (plain : Bytes) : Bytes :=
  nonce.toList ++ aeadEncrypt crypto plain envelopeAd nonce.toList key.toList

/-- `qwe_envelope_seal`; none is `sodium_misuse`. -/
def envelopeSeal (crypto : Primitives) (key : Key) (nonce : Nonce) (plain : Bytes) :
    Option Bytes :=
  let blob := sealedBlob crypto key nonce plain
  (sodiumBin2base64 (sodiumBase64EncodedLen blob.length) blob).map (envelopePrefix ++ ·)

section Opening
variable (signed : Bool)

/-- `decode` -/
def decodeEnvelope (text : Bytes) : Except Bytes Bytes :=
  if text.take envelopePrefix.length ≠ envelopePrefix then
    .error (bytes "not a qwe envelope (expected qwe:1:xchacha20poly1305:...)")
  else
    let b64 := text.drop envelopePrefix.length
    let cap := b64.length / 4 * 3 + 3
    match sodiumBase642bin signed cap b64 with
    | none => .error (bytes "the envelope is not valid base64")
    | some blob =>
        if blob.length < 24 + 16 then .error (bytes "the envelope is too short") else .ok blob

/-- `qwe_envelope_check`: the reason against the text, if there is one. -/
def envelopeCheck (text : Bytes) : Option Bytes :=
  match decodeEnvelope signed text with
  | .error why => some why
  | .ok _ => none

/-- `qwe_envelope_open` -/
def envelopeOpen (crypto : Primitives) (key : Key) (text : Bytes) : Except Bytes Bytes :=
  match decodeEnvelope signed text with
  | .error why => .error why
  | .ok blob =>
      match aeadDecrypt crypto (blob.drop 24) envelopeAd (blob.take 24) key.toList with
      | none => .error (bytes "authentication failed (wrong key, or the envelope was modified)")
      | some plain => .ok plain

end Opening

theorem envelopeSeal_eq (crypto : Primitives) (key : Key) (nonce : Nonce) (plain : Bytes) :
    envelopeSeal crypto key nonce plain =
      some (envelopePrefix ++ base64 (sealedBlob crypto key nonce plain)) := by
  rw [envelopeSeal, sodiumBin2base64_encodedLen, Option.map_some]

/-- The prefix holds nothing that another character is read as. -/
theorem envelopePrefix_readAs : ∀ signed, ∀ c : Fin 256, ∀ d ∈ envelopePrefix,
    readAs signed (UInt8.ofFin c) = d → UInt8.ofFin c = d := by decide +kernel

theorem eq_of_map_readAs_prefix {signed : Bool} {text : Bytes}
    (same : text.map (readAs signed) = envelopePrefix) : text = envelopePrefix := by
  have all : ∀ wanted : Bytes, (∀ d ∈ wanted, d ∈ envelopePrefix) → ∀ text : Bytes,
      text.map (readAs signed) = wanted → text = wanted := by
    intro wanted
    induction wanted with
    | nil => exact fun _ text same => List.map_eq_nil_iff.mp same
    | cons d wanted inductionHypothesis =>
        intro within text same
        obtain ⟨c, rest, rfl, first, later⟩ := List.map_eq_cons_iff.mp same
        have character : c = d :=
          envelopePrefix_readAs signed c.toFin d (within d List.mem_cons_self) first
        rw [character, inductionHypothesis
          (fun e present => within e (List.mem_cons_of_mem _ present)) rest later]
  exact all envelopePrefix (fun _ present => present) text same

theorem map_readAs_prefix (signed : Bool) :
    envelopePrefix.map (readAs signed) = envelopePrefix :=
  map_readAs_ascii signed (by decide +kernel)

/-- Room for what the text holds. -/
theorem length_le_cap (blob : Bytes) : blob.length ≤ (base64 blob).length / 4 * 3 + 3 := by
  rw [base64_length]
  dsimp only [base64Len]
  split_ifs <;> omega

/-- Which texts hold a blob. -/
theorem decodeEnvelope_iff {signed : Bool} {text blob : Bytes} :
    decodeEnvelope signed text = .ok blob ↔
      40 ≤ blob.length ∧ text.map (readAs signed) = envelopePrefix ++ base64 blob := by
  constructor
  · intro decoded
    rw [decodeEnvelope] at decoded
    by_cases foreign : text.take envelopePrefix.length ≠ envelopePrefix
    · rw [if_pos foreign] at decoded
      exact absurd decoded (by simp)
    rw [if_neg foreign] at decoded
    dsimp only at decoded
    rcases run : sodiumBase642bin signed _ (text.drop envelopePrefix.length) with - | found
    · rw [run] at decoded
      exact absurd decoded (by simp)
    rw [run] at decoded
    dsimp only at decoded
    split_ifs at decoded with short
    obtain rfl := Except.ok.inj decoded
    have holds := (sodiumBase642bin_iff.mp run).2
    have whole := List.take_append_drop envelopePrefix.length text
    refine ⟨by omega, ?_⟩
    rw [← whole, List.map_append, not_not.mp foreign, map_readAs_prefix, holds]
  · intro ⟨long, same⟩
    obtain ⟨front, b64, rfl, isPrefix, holds⟩ := List.map_eq_append_iff.mp same
    obtain rfl := eq_of_map_readAs_prefix isPrefix
    have enough : blob.length ≤ b64.length / 4 * 3 + 3 := by
      have cap := length_le_cap blob
      rwa [← holds, List.length_map] at cap
    rw [decodeEnvelope, List.take_left, if_neg (not_not.mpr rfl), List.drop_left]
    dsimp only
    rw [sodiumBase642bin_iff.mpr ⟨enough, holds⟩]
    exact if_neg (by omega)

/-- The blobs that hold a value are the sealed ones. -/
theorem sealedBlob_iff (crypto : Primitives) (key : Key) (blob plain : Bytes)
    (long : 40 ≤ blob.length) :
    aeadDecrypt crypto (blob.drop 24) envelopeAd (blob.take 24) key.toList = some plain ↔
      ∃ nonce, blob = sealedBlob crypto key nonce plain := by
  rw [aeadDecrypt_iff]
  constructor
  · intro same
    have nonceLong : (blob.take 24).length = 24 := by
      rw [List.length_take]
      omega
    refine ⟨⟨(blob.take 24).toArray, by simpa using nonceLong⟩, ?_⟩
    simp only [sealedBlob, Vector.toList_mk]
    rw [← same, List.take_append_drop]
  · rintro ⟨nonce, rfl⟩
    have nonceLong : nonce.toList.length = 24 := by simp
    rw [sealedBlob, List.drop_left' nonceLong, List.take_left' nonceLong]

theorem sealedBlob_length (crypto : Primitives) (key : Key) (nonce : Nonce) (plain : Bytes) :
    (sealedBlob crypto key nonce plain).length = 24 + (plain.length + 16) := by
  rw [sealedBlob, List.length_append, aeadEncrypt_length, Vector.length_toList]

/-- A text that holds a blob was sealed just when the blob was. -/
theorem sealed_iff {signed : Bool} {text blob : Bytes} (crypto : Primitives) (key : Key)
    (same : text.map (readAs signed) = envelopePrefix ++ base64 blob) (plain : Bytes) :
    (∃ nonce, envelopeSeal crypto key nonce plain = some (text.map (readAs signed))) ↔
      ∃ nonce, blob = sealedBlob crypto key nonce plain := by
  refine exists_congr fun nonce => ?_
  rw [envelopeSeal_eq, same, Option.some.injEq]
  exact ⟨fun equal => (base64_injective (List.append_cancel_left equal)).symm,
    fun equal => by rw [equal]⟩

section Outcomes
variable (signed : Bool) (crypto : Primitives) (key : Key) (text : Bytes)

theorem envelopeCheck_iff : envelopeCheck signed text = none ↔
    ∃ blob, decodeEnvelope signed text = .ok blob := by
  rw [envelopeCheck]
  rcases decodeEnvelope signed text with why | blob <;> simp

theorem envelopeOpen_of_check {why : Bytes} (refused : envelopeCheck signed text = some why) :
    envelopeOpen signed crypto key text = .error why := by
  rw [envelopeCheck] at refused
  rw [envelopeOpen]
  rcases decoded : decodeEnvelope signed text with reason | blob
  · rw [decoded] at refused
    rw [Option.some.inj refused]
  · rw [decoded] at refused
    exact absurd refused (by simp)

theorem envelopeOpen_ok_iff (plain : Bytes) : envelopeOpen signed crypto key text = .ok plain ↔
    ∃ nonce, envelopeSeal crypto key nonce plain = some (text.map (readAs signed)) := by
  rcases decoded : decodeEnvelope signed text with why | blob
  · have opened : envelopeOpen signed crypto key text = .error why := by
      rw [envelopeOpen, decoded]
    rw [opened]
    refine ⟨fun ok => absurd ok (by simp), fun ⟨nonce, same⟩ => ?_⟩
    rw [envelopeSeal_eq] at same
    have long : 40 ≤ (sealedBlob crypto key nonce plain).length := by
      rw [sealedBlob_length]
      omega
    rw [decodeEnvelope_iff.mpr ⟨long, (Option.some.inj same).symm⟩] at decoded
    exact absurd decoded (by simp)
  · obtain ⟨long, same⟩ := decodeEnvelope_iff.mp decoded
    rw [sealed_iff crypto key same, ← sealedBlob_iff crypto key blob plain long, envelopeOpen,
      decoded]
    dsimp only
    rcases aeadDecrypt crypto (blob.drop 24) envelopeAd (blob.take 24) key.toList with - | found
    · simp
    · simp

theorem envelopeOpen_of_closed (accepted : envelopeCheck signed text = none)
    (closed : ∀ plain, envelopeOpen signed crypto key text ≠ .ok plain) :
    envelopeOpen signed crypto key text =
      .error (bytes "authentication failed (wrong key, or the envelope was modified)") := by
  obtain ⟨blob, decoded⟩ := (envelopeCheck_iff signed text).mp accepted
  rw [envelopeOpen, decoded] at closed ⊢
  dsimp only at closed ⊢
  rcases opened : aeadDecrypt crypto (blob.drop 24) envelopeAd (blob.take 24) key.toList with
    - | found
  · rfl
  · exact absurd (by rw [opened]) (closed found)

end Outcomes

/-- `qwe_envelope_open` is the inverse of `qwe_envelope_seal`: the texts that open to a value
are those that are read as the value sealed with some nonce.  `qwe_envelope_check` accepts,
without a key, the texts of blobs that are long enough; what it refuses is refused with the
same reason by `qwe_envelope_open`, which has one reason more. -/
theorem envelopeOpen_exact (signed : Bool) (crypto : Primitives) (key : Key) (text : Bytes) :
    (∀ plain, envelopeOpen signed crypto key text = .ok plain ↔
        ∃ nonce, envelopeSeal crypto key nonce plain = some (text.map (readAs signed))) ∧
      (envelopeCheck signed text = none ↔
        ∃ blob, 40 ≤ blob.length ∧ text.map (readAs signed) = envelopePrefix ++ base64 blob) ∧
      (∀ why, envelopeCheck signed text = some why →
        envelopeOpen signed crypto key text = .error why) ∧
      (envelopeCheck signed text = none →
        (∀ plain, envelopeOpen signed crypto key text ≠ .ok plain) →
        envelopeOpen signed crypto key text =
          .error (bytes "authentication failed (wrong key, or the envelope was modified)")) := by
  refine ⟨envelopeOpen_ok_iff signed crypto key text, ?_,
    fun why => envelopeOpen_of_check signed crypto key text,
    envelopeOpen_of_closed signed crypto key text⟩
  rw [envelopeCheck_iff]
  exact exists_congr fun blob => decodeEnvelope_iff

end Qwe.Secrets
