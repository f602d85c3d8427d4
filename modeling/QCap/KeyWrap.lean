import QCap.Identity

/-!
# Content keys

The content key of a sealed package is encrypted to a recipient under a key derived from an
X25519 exchange with an ephemeral secret. The random bytes are arguments.
-/
namespace QCap.KeyWrap

open QCap.Text QCap.Crypto QCap.Formats QCap.Identity

variable (C : Primitives) (J : JsonCodec)

def blake3Prefixed (bytes : Bytes) : String := "blake3:" ++ hexEncode (C.blake3 bytes).val

theorem blake3Prefixed_inj {a b : Bytes} :
    blake3Prefixed C a = blake3Prefixed C b ↔ C.blake3 a = C.blake3 b := by
  unfold blake3Prefixed
  constructor
  · intro h
    exact Subtype.ext (hexEncode_injective ((String.append_right_inj _).mp h))
  · intro h
    rw [h]

def deriveWrapKey (shared : Key) (packageId : String) : Key :=
  C.blake3 (asBytes "qcap-wrap-key-v1" ++ shared.val ++ asBytes packageId)

def wrapContentKey (key : Key) (packageId : String) (recipient : Identity)
    (ephemeralSecret : Key) (nonce : Nonce) : Result RecipientStanza := do
  let recipientPublic ← encryptionPublic recipient
  let shared := C.diffieHellman ephemeralSecret recipientPublic
  let wrapped ← encrypt C (deriveWrapKey C shared packageId) nonce (asBytes packageId) key.val
  return {
    recipient := recipient.encryptionPublicKey
    ephemeralPublicKey := hexEncode (C.x25519Public ephemeralSecret).val
    nonce := hexEncode nonce.val
    wrappedKey := hexEncode wrapped
    algorithm := "x25519-blake3-xchacha20poly1305" }

/-- `try_into` of the decrypted bytes. -/
def contentKeyOf (bytes : Bytes) : Result Key :=
  if h : bytes.length = 32 then .ok ⟨bytes, h⟩
  else .error (.message "unwrapped content key has wrong length")

def unwrapContentKey (stanza : RecipientStanza) (packageId : String) (identity : Identity)
    (passphrase : Option String) : Result Key := do
  let ephemeral ← decodeFixed 32 stanza.ephemeralPublicKey "ephemeral_public_key"
  let secret ← encryptionSecret C J identity passphrase
  let wrapKey := deriveWrapKey C (C.diffieHellman secret ephemeral) packageId
  let nonce ← decodeFixed 24 stanza.nonce "recipient nonce"
  let wrapped ← okOr (hexDecode stanza.wrappedKey) .hex
  let key ← decrypt C wrapKey nonce (asBytes packageId) wrapped
  contentKeyOf key

theorem contentKeyOf_val (key : Key) : contentKeyOf key.val = .ok key := by
  simp [contentKeyOf, key.property]

theorem wrapContentKey_ok {key : Key} {packageId : String} {recipient : Identity}
    {ephemeralSecret : Key} {nonce : Nonce} {stanza : RecipientStanza}
    (h : wrapContentKey C key packageId recipient ephemeralSecret nonce = .ok stanza) :
    ∃ recipientPublic wrapped, encryptionPublic recipient = .ok recipientPublic ∧
      encrypt C (deriveWrapKey C (C.diffieHellman ephemeralSecret recipientPublic) packageId)
        nonce (asBytes packageId) key.val = .ok wrapped ∧
      stanza = {
        recipient := recipient.encryptionPublicKey
        ephemeralPublicKey := hexEncode (C.x25519Public ephemeralSecret).val
        nonce := hexEncode nonce.val
        wrappedKey := hexEncode wrapped
        algorithm := "x25519-blake3-xchacha20poly1305" } := by
  simp only [wrapContentKey, bind_ok] at h
  obtain ⟨pk, hpk, wrapped, hw, hs⟩ := h
  cases hs
  exact ⟨pk, wrapped, hpk, hw, rfl⟩

/-- Any identity that holds the secret of the stanza's recipient key recovers the key. -/
theorem unwrap_wrap (hA : AeadCorrect C) (hD : Agreement C) {key : Key} {packageId : String}
    {recipient : Identity} {ephemeralSecret : Key} {nonce : Nonce} {stanza : RecipientStanza}
    (hw : wrapContentKey C key packageId recipient ephemeralSecret nonce = .ok stanza)
    {identity : Identity} {passphrase : Option String} {secret : Key}
    (hid : identity.encryptionPublicKey = recipient.encryptionPublicKey)
    (hs : encryptionSecret C J identity passphrase = .ok secret) :
    unwrapContentKey C J stanza packageId identity passphrase = .ok key := by
  obtain ⟨pk, wrapped, hpk, he, rfl⟩ := wrapContentKey_ok C hw
  have hx : C.x25519Public secret = pk := by
    have hh := decodeFixed_ok hpk
    rw [← hid, ← encryptionSecret_ok C J hs, hexDecode_hexEncode] at hh
    exact Subtype.ext (Option.some.inj hh)
  have hshared : C.diffieHellman secret (C.x25519Public ephemeralSecret) =
      C.diffieHellman ephemeralSecret pk := by rw [← hx, hD]
  simp only [unwrapContentKey, bind_ok, okOr_ok]
  exact ⟨_, decodeFixed_hexEncode _ _, secret, hs, nonce, decodeFixed_hexEncode _ _, wrapped,
    hexDecode_hexEncode _, key.val, by rw [hshared]; exact decrypt_encrypt C hA he,
    contentKeyOf_val key⟩

theorem unwrapContentKey_secret {stanza : RecipientStanza} {packageId : String}
    {identity : Identity} {passphrase : Option String} {key : Key}
    (h : unwrapContentKey C J stanza packageId identity passphrase = .ok key) :
    ∃ secret, encryptionSecret C J identity passphrase = .ok secret := by
  simp only [unwrapContentKey, bind_ok] at h
  obtain ⟨_, _, secret, hs, -⟩ := h
  exact ⟨secret, hs⟩

end QCap.KeyWrap
