import QCap.GoDocuments
import QCap.IssuerHistory

/-!
# Signatures at the registry

The registry accepts a bundle that signs the manifest and, for old archives, one that signs
the Merkle root. Manifests, tokens and lists are signed by one key without a domain tag, and
the registry does not look at the shape of the root.
-/
namespace QCap.RegistryRoles

open QCap.Text QCap.PathTree QCap.Crypto QCap.Formats QCap.Signatures QCap.PayloadMerkle
open QCap.Capability QCap.Revocation QCap.IssuerCommands QCap.IssuerHistory
open QCap.SealRoundTrip QCap.RegistryArchive QCap.GoDocuments

variable (C : Primitives) (J : JsonCodec) (G : GoLib)

/-- Signed by `sign_merkle_root`, as the root of one of the payloads. -/
def SignedRoot (legacy : List Tree) (message : Bytes) : Prop :=
  ∃ t ∈ legacy, message = asBytes (computePayloadMerkleRoot C.blake3 t)

def Signed (pk : PublicKey) (history : List IssuerOp) (legacy : List Tree) (message : Bytes) :
    Prop :=
  SignedBy C J pk history message ∨ SignedRoot C legacy message

def RootForm (root : String) : Prop := ∃ d : Digest, root = "blake3:" ++ hexEncode d.val

theorem RootForm.free {root : String} (h : RootForm root) : Free '|' root := by
  obtain ⟨d, rfl⟩ := h
  exact free_append.mpr ⟨by decide, hexEncode_free (by decide) d.val⟩

theorem RootForm.firstByte {root : String} (h : RootForm root) :
    firstByte (asBytes root) = some 98 := by
  obtain ⟨d, rfl⟩ := h
  exact firstByte_text (by decide) (by decide) _

theorem SignedRoot.firstByte {legacy : List Tree} {message : Bytes}
    (h : SignedRoot C legacy message) : firstByte message = some 98 := by
  obtain ⟨t, -, rfl⟩ := h
  exact RootForm.firstByte (root_form C.blake3 t)

theorem SignedToken.not_root {pk : PublicKey} {history : List IssuerOp} {root : String}
    (hr : RootForm root) : ¬ SignedToken C J pk history (asBytes root) := by
  rintro ⟨g, r, key, -, -, -, h⟩
  apply hr.free
  rw [asBytes_injective h, grantPayload]
  simp

variable {pk : PublicKey} {history : List IssuerOp} {legacy : List Tree}

theorem signed_object (hf : firstByte message = some 123)
    (h : Signed C J pk history legacy message) :
    SignedManifest C J pk history message ∧ ¬ SignedToken C J pk history message ∧
      ¬ SignedList C J pk history message := by
  refine ⟨?_, ?_, ?_⟩
  · rcases h with h | h
    · exact signed_document_is_manifest C J h (Or.inl hf)
    · exact absurd (h.firstByte.symm.trans hf) (by decide)
  · exact fun h => absurd ((h.firstByte C J).symm.trans hf) (by decide)
  · exact fun h => absurd ((h.firstByte C J).symm.trans hf) (by decide)

theorem signed_root (hJ : J.WritesObjects) {root : String} (hr : RootForm root)
    (h : Signed C J pk history legacy (asBytes root)) :
    SignedRoot C legacy (asBytes root) ∧ ¬ SignedManifest C J pk history (asBytes root) ∧
      ¬ SignedToken C J pk history (asBytes root) ∧ ¬ SignedList C J pk history (asBytes root) := by
  have hm : ¬ SignedManifest C J pk history (asBytes root) := fun h =>
    absurd ((h.firstByte C J hJ).symm.trans hr.firstByte) (by decide)
  have hl : ¬ SignedList C J pk history (asBytes root) := fun h =>
    absurd ((h.firstByte C J).symm.trans hr.firstByte) (by decide)
  have ht : ¬ SignedToken C J pk history (asBytes root) := SignedToken.not_root C J hr
  refine ⟨?_, hm, ht, hl⟩
  rcases h with h | h
  · rcases signedBy_roles C J h with h | h | h
    · exact absurd h hm
    · exact absurd h ht
    · exact absurd h hl
  · exact h

/-- What stands behind the signature of an accepted archive: in the manifest mode a manifest
and nothing else, in the legacy mode whatever was signed with the text of the root, which is
a root and nothing else if it has the form of one. -/
def SignatureRole (pk : PublicKey) (history : List IssuerOp) (legacy : List Tree)
    (manifestBytes : Bytes) (bundle : QcapSignatureBundle) : Prop :=
  (bundle.algorithm = "ed25519:manifest" ∧ SignedManifest C J pk history manifestBytes ∧
      ¬ SignedToken C J pk history manifestBytes ∧ ¬ SignedList C J pk history manifestBytes) ∨
    (bundle.algorithm = "ed25519" ∧ Signed C J pk history legacy (asBytes bundle.merkleRoot) ∧
      (RootForm bundle.merkleRoot → SignedRoot C legacy (asBytes bundle.merkleRoot) ∧
        ¬ SignedManifest C J pk history (asBytes bundle.merkleRoot) ∧
        ¬ SignedToken C J pk history (asBytes bundle.merkleRoot) ∧
        ¬ SignedList C J pk history (asBytes bundle.merkleRoot)))

theorem accepted_signature_role (hJ : J.WritesObjects) (hG : G.ReadsObjects)
    (hU : Unforgeable C pk (Signed C J pk history legacy)) {archive : GoResult (List ZipFile)}
    (h : validateQcapArchive C G archive = .ok ()) :
    ∃ entries manifestBytes bundle, archive = .ok entries ∧
      CarriesManifest entries manifestBytes ∧ CarriesBundle G entries bundle ∧
      checkManifest G manifestBytes = .ok bundle.merkleRoot ∧
      (hexDecode bundle.publicKey = some pk.val →
        SignatureRole C J pk history legacy manifestBytes bundle) := by
  simp only [validateQcapArchive, bind_ok, wrap_ok] at h
  obtain ⟨entries, ho, hv⟩ := h
  obtain ⟨manifestBytes, bundle, publicKey, signature, message, ha⟩ := validateEntries_ok C G hv
  refine ⟨entries, manifestBytes, bundle, ho, ha.manifest, ha.bundle_read, ha.root, ?_⟩
  intro hpk
  have hkey : publicKey = pk := Subtype.ext (Option.some.inj (ha.key_decoded.symm.trans hpk))
  have hsigned := hU message signature (hkey ▸ ha.verified)
  rcases signedBytes_ok G ha.signed with ⟨halg, rfl⟩ | ⟨halg, rfl⟩
  · exact Or.inl ⟨halg, signed_object C J (checkManifest_object G hG ha.root) hsigned⟩
  · exact Or.inr ⟨halg, hsigned, fun hr => signed_root C J hJ hr hsigned⟩

def capturedBundle : QcapSignatureBundle :=
  ⟨sampleText, sampleToken.signature, sampleToken.publicKey, "ed25519"⟩

theorem sampleText_eq : sampleText =
    "blake3:4008ac13d5896100013a0a360161000000000000000000000000000000000000" ++
      "|read;path=d/*;aud=0d00000000000000|unix-seconds:1800000000" := by
  decide +kernel

theorem captured_key : hexDecode capturedBundle.publicKey = some signerKey.val :=
  hexDecode_hexEncode _

theorem captured_signature : hexDecode capturedBundle.signature =
    some (toy.sign signerKey (asBytes sampleText)).val :=
  hexDecode_hexEncode _

theorem captured_verify : (toyLog sampleMessages).verify signerKey
    (asBytes capturedBundle.merkleRoot) (toy.sign signerKey (asBytes sampleText)) = true :=
  (toyLog_signsCorrectly (List.mem_cons_of_mem _ List.mem_cons_self) signerKey).2

theorem captured_fits : trim sampleText ≠ "" ∧
    (legacyManifest sampleText).length ≤ maxManifestBytes ∧
    (Json.bundleBytes capturedBundle).length ≤ maxManifestBytes := by
  have htrim : trim sampleText ≠ "" := by
    rw [sampleText_eq]
    decide +kernel
  have hlen : (asBytes sampleText).length ≤ 1000 := by
    rw [sampleText_eq]
    decide +kernel
  exact ⟨htrim, signed_documents_fit signerKey _ hlen⟩

theorem captured_accepted :
    validateQcapArchive (toyLog sampleMessages) (legacyGo capturedBundle)
      (.ok (legacyArchive capturedBundle)) = .ok () := by
  obtain ⟨hroot, hm, hb⟩ := captured_fits
  exact legacyArchive_accepted _ rfl captured_key captured_signature captured_verify hroot hm hb

theorem sample_unforgeable : Unforgeable (toyLog sampleMessages) signerKey
    (Signed (toyLog sampleMessages) sampleCodec signerKey sampleHistory []) := fun m sig h =>
  Or.inl (sampleHistory_unforgeable m sig h)

theorem captured_signature_role :
    ∃ entries manifestBytes bundle,
      (.ok (legacyArchive capturedBundle) : GoResult (List ZipFile)) = .ok entries ∧
      CarriesManifest entries manifestBytes ∧
      CarriesBundle (legacyGo capturedBundle) entries bundle ∧
      checkManifest (legacyGo capturedBundle) manifestBytes = .ok bundle.merkleRoot ∧
      (hexDecode bundle.publicKey = some signerKey.val →
        SignatureRole (toyLog sampleMessages) sampleCodec signerKey sampleHistory [] manifestBytes
          bundle) :=
  accepted_signature_role (toyLog sampleMessages) sampleCodec (legacyGo capturedBundle)
    (Json.documentCodec_writesObjects _ _ _) (goDocuments_readsObjects _ _ _ _) sample_unforgeable
    captured_accepted

theorem legacyManifest_unsigned (root : String) :
    ¬ SignedManifest (toyLog sampleMessages) sampleCodec signerKey sampleHistory
      (legacyManifest root) := by
  have hpretty : ∀ m, (Json.manifestBytes m)[1]? = some 10 := by
    intro m
    have hb : asBytes "\x7b\n  " = [123, 10, 32, 32] := by decide
    simp [Json.manifestBytes, Json.render, Json.newline, hb]
  have hcompact : (legacyManifest root)[1]? = some 34 := by
    have hb : asBytes "\x7b" = [123] := by decide
    have hq : asBytes "\"" = [34] := by decide
    simp [legacyManifest, legacyMembers, Json.render, Json.newline, Json.quote, hb, hq]
  rintro (⟨r, key, hr, -⟩ | ⟨r, package, -, -, -, hm⟩)
  · simp [sampleHistory] at hr
  · rw [hm] at hcompact
    exact absurd ((hpretty _).symm.trans hcompact) (by decide)

theorem sampleText_token : SignedToken (toyLog sampleMessages) sampleCodec signerKey sampleHistory
    (asBytes sampleText) :=
  ⟨_, _, _, List.mem_cons_of_mem _ List.mem_cons_self, sampleGrant_root, rfl, rfl⟩

/-- The signature of a capability makes the registry accept an archive that carries no signed
manifest and whose root was never signed as one. -/
theorem capability_signature_accepted :
    Unforgeable (toyLog sampleMessages) signerKey
        (Signed (toyLog sampleMessages) sampleCodec signerKey sampleHistory []) ∧
      validateQcapArchive (toyLog sampleMessages) (legacyGo capturedBundle)
        (.ok (legacyArchive capturedBundle)) = .ok () ∧
      CarriesManifest (legacyArchive capturedBundle) (legacyManifest sampleText) ∧
      CarriesBundle (legacyGo capturedBundle) (legacyArchive capturedBundle) capturedBundle ∧
      hexDecode capturedBundle.publicKey = some signerKey.val ∧
      capturedBundle.algorithm = "ed25519" ∧
      ¬ SignedManifest (toyLog sampleMessages) sampleCodec signerKey sampleHistory
        (legacyManifest sampleText) ∧
      ¬ SignedRoot (toyLog sampleMessages) [] (asBytes capturedBundle.merkleRoot) ∧
      SignedToken (toyLog sampleMessages) sampleCodec signerKey sampleHistory
        (asBytes capturedBundle.merkleRoot) := by
  obtain ⟨-, hm, hb⟩ := captured_fits
  refine ⟨sample_unforgeable, captured_accepted,
    ⟨_, List.mem_cons_self, rfl, readEntry_stored hm⟩,
    ⟨_, List.mem_cons_of_mem _ List.mem_cons_self, rfl, _, readEntry_stored hb, ?_⟩,
    captured_key, rfl, legacyManifest_unsigned _, ?_, sampleText_token⟩
  · exact legacyGo_bundle capturedBundle
  · rintro ⟨t, ht, -⟩
    exact List.not_mem_nil ht

end QCap.RegistryRoles
