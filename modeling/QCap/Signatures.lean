import QCap.Crypto
import QCap.Formats

/-!
# Detached signatures

Manifest bundles, capability tokens and revocation lists carry a hex public key and a hex
signature and are checked by the same steps, with their own messages.
-/
namespace QCap.Signatures

open QCap.Text QCap.Crypto QCap.Formats

variable (C : Primitives)

structure VerifyErrors where
  badKey : String
  badSignature : String
  failed : String

def verifyDetached (errors : VerifyErrors) (publicKey signature : String) (message : Bytes) :
    Result Unit :=
  match hexDecode publicKey, hexDecode signature with
  | some pk, some sig =>
    if hp : pk.length = 32 then
      if C.isVerifyingKey ⟨pk, hp⟩ then
        if hs : sig.length = 64 then
          if C.verify ⟨pk, hp⟩ message ⟨sig, hs⟩ then .ok ()
          else .error (.message errors.failed)
        else .error (.message errors.badSignature)
      else .error .verifyingKey
    else .error (.message errors.badKey)
  | _, _ => .error .hex

theorem verifyDetached_ok {errors : VerifyErrors} {publicKey signature : String}
    {message : Bytes} :
    verifyDetached C errors publicKey signature message = .ok () ↔
      ∃ (pk : PublicKey) (sig : Signature), hexDecode publicKey = some pk.val ∧
        hexDecode signature = some sig.val ∧ C.isVerifyingKey pk = true ∧
        C.verify pk message sig = true := by
  constructor
  · intro h
    unfold verifyDetached at h
    split at h
    · rename_i pk sig hpk hsig
      split at h
      · rename_i hp
        split at h
        · rename_i hk
          split at h
          · rename_i hs
            split at h
            · rename_i hv
              exact ⟨⟨pk, hp⟩, ⟨sig, hs⟩, hpk, hsig, hk, hv⟩
            · cases h
          · cases h
        · cases h
      · cases h
    · cases h
  · rintro ⟨pk, sig, hpk, hsig, hk, hv⟩
    simp only [verifyDetached, hpk, hsig, pk.property, sig.property, ↓reduceDIte]
    simp [hk, hv]

/-- Only the decoded signature and the message matter, not the error texts. -/
theorem verifyDetached_congr {errors errors' : VerifyErrors} {publicKey s s' : String}
    {message : Bytes} (hs : hexDecode s = hexDecode s') :
    verifyDetached C errors publicKey s message = .ok () ↔
      verifyDetached C errors' publicKey s' message = .ok () := by
  rw [verifyDetached_ok, verifyDetached_ok, hs]

theorem verifyDetached_sign {seed : Seed} {message : Bytes} (h : SignsCorrectly C seed message)
    (errors : VerifyErrors) :
    verifyDetached C errors (hexEncode (C.verifyingKey seed).val)
      (hexEncode (C.sign seed message).val) message = .ok () :=
  (verifyDetached_ok C).mpr ⟨C.verifyingKey seed, C.sign seed message,
    hexDecode_hexEncode _, hexDecode_hexEncode _, h.1, h.2⟩

theorem verifyDetached_signed {errors : VerifyErrors} {publicKey signature : String}
    {message : Bytes} {pk : PublicKey} {signed : Bytes → Prop} (hC : Unforgeable C pk signed)
    (hpk : hexDecode publicKey = some pk.val)
    (h : verifyDetached C errors publicKey signature message = .ok ()) : signed message := by
  obtain ⟨pk', sig, hpk', -, -, hv⟩ := (verifyDetached_ok C).mp h
  have : pk' = pk := Subtype.ext (Option.some.inj (hpk'.symm.trans hpk))
  exact hC message sig (this ▸ hv)

/-- `sign_manifest`: the exact stored bytes are the message. -/
def signManifest (manifestBytes : Bytes) (merkleRoot : String) (keypair : Seed) :
    QcapSignatureBundle where
  merkleRoot := merkleRoot
  signature := hexEncode (C.sign keypair manifestBytes).val
  publicKey := hexEncode (C.verifyingKey keypair).val
  algorithm := "ed25519:manifest"

/-- `sign_merkle_root`: the legacy mode, no command of the current CLI uses it. -/
def signMerkleRoot (root : String) (keypair : Seed) : QcapSignatureBundle where
  merkleRoot := root
  signature := hexEncode (C.sign keypair (asBytes root)).val
  publicKey := hexEncode (C.verifyingKey keypair).val
  algorithm := "ed25519"

def manifestErrors : VerifyErrors := ⟨"bad pk", "bad sig", "manifest signature verify failed"⟩

def verifyManifestSignature (bundle : QcapSignatureBundle) (manifestBytes : Bytes) :
    Result Unit :=
  if bundle.algorithm ≠ "ed25519:manifest" then
    .error (.message "unsupported manifest signature algorithm")
  else verifyDetached C manifestErrors bundle.publicKey bundle.signature manifestBytes

theorem verifyManifestSignature_ok {bundle : QcapSignatureBundle} {manifestBytes : Bytes} :
    verifyManifestSignature C bundle manifestBytes = .ok () ↔
      bundle.algorithm = "ed25519:manifest" ∧
      verifyDetached C manifestErrors bundle.publicKey bundle.signature manifestBytes = .ok () := by
  unfold verifyManifestSignature
  by_cases h : bundle.algorithm = "ed25519:manifest" <;> simp [h]

theorem verify_signManifest {manifestBytes : Bytes} {keypair : Seed}
    (h : SignsCorrectly C keypair manifestBytes) (merkleRoot : String) :
    verifyManifestSignature C (signManifest C manifestBytes merkleRoot keypair) manifestBytes =
      .ok () :=
  (verifyManifestSignature_ok C).mpr ⟨rfl, verifyDetached_sign C h _⟩

end QCap.Signatures
