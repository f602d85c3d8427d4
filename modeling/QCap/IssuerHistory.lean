import QCap.SealRoundTrip

/-!
# What an issuer signed

One key signs manifests, capability strings and revocation lists, with no domain tag. The
three languages are told apart by their first byte. Under a key whose signatures verify only
for what its history signed, an archive that opens leads back to a `grant` of the history.
-/
namespace QCap.IssuerHistory

open QCap.Text QCap.PathTree QCap.Crypto QCap.Formats QCap.Signatures QCap.PayloadMerkle
open QCap.Capability QCap.Revocation QCap.Identity QCap.KeyWrap QCap.Archive QCap.OpenArchive
open QCap.IssuerCommands QCap.Sealing QCap.SealRoundTrip

variable (C : Primitives) (J : JsonCodec)

inductive IssuerOp where
  | pack (r : PackRequest)
  | sealArchive (r : SealRequest)
  | grant (r : GrantRequest)
  | revoke (r : RevokeRequest)

/-- A run of the command signs the message with the key. `revoke` signs an empty list before
it extends it. -/
inductive Signs : IssuerOp → Seed → Bytes → Prop where
  | pack {r : PackRequest} {key : Seed} : signingKeyFromFile C J r.key r.passphrase = .ok key →
      Signs (.pack r) key (J.manifestBytes (packManifest C r))
  | sealArchive {r : SealRequest} {package : SealedPackage} :
      sealPackage C J r = .ok package →
      Signs (.sealArchive r) package.key (J.manifestBytes package.manifest)
  | grant {r : GrantRequest} {root : String} {key : Seed} : grantRoot C J r = .ok (root, key) →
      Signs (.grant r) key
        (asBytes (grantPayload root (allowSpec r.allow r.path r.audience) r.expires))
  | emptyList {r : RevokeRequest} {list : RevocationList} {key : Seed} :
      revocationUpdate C J r = .ok (list, key) → r.existing = none →
      Signs (.revoke r) key (asBytes (RevocationList.signingPayload (RevocationList.empty C key)))
  | list {r : RevokeRequest} {list : RevocationList} {key : Seed} :
      revocationUpdate C J r = .ok (list, key) →
      Signs (.revoke r) key (asBytes (RevocationList.signingPayload list))

/-- The messages that `pk` signed in a history of commands. -/
def SignedBy (pk : PublicKey) (history : List IssuerOp) (message : Bytes) : Prop :=
  ∃ op ∈ history, ∃ key, C.verifyingKey key = pk ∧ Signs C J op key message

def SignedManifest (pk : PublicKey) (history : List IssuerOp) (message : Bytes) : Prop :=
  (∃ r key, IssuerOp.pack r ∈ history ∧ signingKeyFromFile C J r.key r.passphrase = .ok key ∧
      C.verifyingKey key = pk ∧ message = J.manifestBytes (packManifest C r)) ∨
    ∃ r package, IssuerOp.sealArchive r ∈ history ∧ sealPackage C J r = .ok package ∧
      C.verifyingKey package.key = pk ∧ message = J.manifestBytes package.manifest

def SignedToken (pk : PublicKey) (history : List IssuerOp) (message : Bytes) : Prop :=
  ∃ g root key, IssuerOp.grant g ∈ history ∧ grantRoot C J g = .ok (root, key) ∧
    C.verifyingKey key = pk ∧
    message = asBytes (grantPayload root (allowSpec g.allow g.path g.audience) g.expires)

def SignedList (pk : PublicKey) (history : List IssuerOp) (message : Bytes) : Prop :=
  ∃ r key list, IssuerOp.revoke r ∈ history ∧ C.verifyingKey key = pk ∧
    Signs C J (.revoke r) key message ∧ message = asBytes (RevocationList.signingPayload list)

theorem signedBy_roles {pk : PublicKey} {history : List IssuerOp} {message : Bytes}
    (h : SignedBy C J pk history message) :
    SignedManifest C J pk history message ∨ SignedToken C J pk history message ∨
      SignedList C J pk history message := by
  obtain ⟨op, hop, key, hk, hs⟩ := h
  cases hs with
  | pack hkey => exact Or.inl (Or.inl ⟨_, key, hop, hkey, hk, rfl⟩)
  | sealArchive hp => exact Or.inl (Or.inr ⟨_, _, hop, hp, hk, rfl⟩)
  | grant hg => exact Or.inr (Or.inl ⟨_, _, key, hop, hg, hk, rfl⟩)
  | emptyList hu he => exact Or.inr (Or.inr ⟨_, key, _, hop, hk, .emptyList hu he, rfl⟩)
  | list hu => exact Or.inr (Or.inr ⟨_, key, _, hop, hk, .list hu, rfl⟩)

/-- Producer values of `grant` hold no delimiter. -/
def CleanGrant (r : GrantRequest) : Prop :=
  ∀ s ∈ [r.allow, r.path, r.audience, r.expires], Free '|' s ∧ Free ';' s

theorem firstByte_list (list : RevocationList) :
    firstByte (asBytes (RevocationList.signingPayload list)) = some 115 := by
  have hp : RevocationList.signingPayload list = "schema_version=" ++
      String.ofList (list.schemaVersion.toList ++ entryLines list.revoked) := by
    rw [← String.toList_inj, toList_signingPayload]
    simp [String.toList_append]
  rw [hp]
  exact firstByte_text (by decide) (by decide) _

theorem firstByte_token (t : Tree) (allow expires : String) :
    firstByte (asBytes (grantPayload (computePayloadMerkleRoot C.blake3 t) allow expires)) =
      some 98 := by
  obtain ⟨d, hd⟩ := root_form C.blake3 t
  have hp : grantPayload (computePayloadMerkleRoot C.blake3 t) allow expires =
      "blake3:" ++ (hexEncode d.val ++ "|" ++ allow ++ "|" ++ expires) := by
    simp only [grantPayload, hd, String.append_assoc]
  rw [hp]
  exact firstByte_text (by decide) (by decide) _

theorem grantRoot_ok {g : GrantRequest} {root : String} {key : Seed}
    (h : grantRoot C J g = .ok (root, key)) :
    ∃ report, verifyArchive C J g.file = .ok report ∧ report.manifest.merkleRoot = root := by
  simp only [grantRoot, bind_ok] at h
  obtain ⟨report, hv, _, _, _, _, he⟩ := h
  cases he
  exact ⟨report, hv, rfl⟩

theorem verified_root {zip : Zip} {report : VerifyReport}
    (h : verifyArchive C J zip = .ok report) :
    ∃ t, computePayloadMerkleRoot C.blake3 t = report.manifest.merkleRoot := by
  obtain ⟨_, t, hv⟩ := (verifyArchive_ok C J).mp h
  exact ⟨t, hv.manifest_root⟩

variable {pk : PublicKey} {history : List IssuerOp} {message : Bytes}

theorem SignedManifest.firstByte (hJ : J.WritesObjects)
    (h : SignedManifest C J pk history message) : firstByte message = some 123 := by
  rcases h with ⟨_, _, -, -, -, rfl⟩ | ⟨_, _, -, -, -, rfl⟩ <;> exact hJ _

theorem SignedToken.firstByte (h : SignedToken C J pk history message) :
    firstByte message = some 98 := by
  obtain ⟨g, root, key, -, hg, -, rfl⟩ := h
  obtain ⟨report, hv, rfl⟩ := grantRoot_ok C J hg
  obtain ⟨t, ht⟩ := verified_root C J hv
  exact ht ▸ firstByte_token C t _ _

theorem SignedList.firstByte (h : SignedList C J pk history message) :
    firstByte message = some 115 := by
  obtain ⟨_, _, list, -, -, -, rfl⟩ := h
  exact firstByte_list list

theorem signed_token_is_grant (hJ : J.WritesObjects) {t : Tree} {allow expires : String}
    (h : SignedBy C J pk history
      (asBytes (grantPayload (computePayloadMerkleRoot C.blake3 t) allow expires))) :
    SignedToken C J pk history
      (asBytes (grantPayload (computePayloadMerkleRoot C.blake3 t) allow expires)) := by
  have hf := firstByte_token C t allow expires
  rcases signedBy_roles C J h with h | h | h
  · exact absurd ((h.firstByte C J hJ).symm.trans hf) (by decide)
  · exact h
  · exact absurd ((h.firstByte C J).symm.trans hf) (by decide)

theorem signed_document_is_manifest (h : SignedBy C J pk history message)
    (hf : Formats.firstByte message = some 123 ∨ Formats.firstByte message = some 91) :
    SignedManifest C J pk history message := by
  rcases signedBy_roles C J h with h | h | h
  · exact h
  · rcases hf with hf | hf <;> exact absurd ((h.firstByte C J).symm.trans hf) (by decide)
  · rcases hf with hf | hf <;> exact absurd ((h.firstByte C J).symm.trans hf) (by decide)

/-- A `grant` run of `pk` for the root of `report` that covers the request: its token is the
one that was opened with, up to the text of the signature. -/
structure Covers (pk : PublicKey) (g : GrantRequest) (r : OpenRequest) (report : VerifyReport)
    (identity : Identity) (token : CapabilityToken) : Prop where
  granted : grant C J g = .ok token
  issuer : hexDecode token.publicKey = some pk.val
  archive : ∃ granted, verifyArchive C J g.file = .ok granted ∧
    granted.manifest.merkleRoot = report.manifest.merkleRoot
  root : token.capRoot = report.manifest.merkleRoot
  same_token : ∃ cap, r.cap = .ok cap ∧ cap.capRoot = token.capRoot ∧ cap.allow = token.allow ∧
    cap.expires = token.expires
  operation : g.allow = "read"
  audience : g.audience = identityId identity
  unexpired : ∃ expiry, ExpiresAt g.expires expiry ∧ r.now ≤ expiry

theorem authorized_grant (hJ : J.WritesObjects)
    (hclean : ∀ g, IssuerOp.grant g ∈ history → CleanGrant g)
    (hU : Unforgeable C pk (SignedBy C J pk history)) {r : OpenRequest} {cap : CapabilityToken}
    {report : VerifyReport} {identity : Identity} {access : Access} (hc : r.cap = .ok cap)
    (ha : Authorizes C J r cap report identity access)
    (hpk : hexDecode report.signature.publicKey = some pk.val) :
    ∃ g token, IssuerOp.grant g ∈ history ∧ Covers C J pk g r report identity token ∧
      access.path = g.path := by
  obtain ⟨hparse, hroot, hop, haud, hexp⟩ := ha.accessible
  obtain ⟨expiry, hat, hle⟩ := enforceExpiry_ok.mp hexp
  obtain ⟨t, ht⟩ := verified_root C J ha.verified
  have hmsg := verifyDetached_signed C hU (ha.signer ▸ hpk)
    ((CapabilityToken.verify_ok C).mp ha.cap_verified).2
  rw [hroot, ← ht] at hmsg
  obtain ⟨g, root, key, hg, hgr, hk, hpay⟩ := signed_token_is_grant C J hJ hmsg
  obtain ⟨granted, hgv, rfl⟩ := grantRoot_ok C J hgr
  obtain ⟨t', ht'⟩ := verified_root C J hgv
  have hbar : ∀ u, Free '|' (computePayloadMerkleRoot C.blake3 u) := fun u =>
    root_free C.blake3 u (by decide) (by decide)
  have hcg : ∀ s, s = g.allow ∨ s = g.path ∨ s = g.audience ∨ s = g.expires →
      Free '|' s ∧ Free ';' s := by
    intro s hs
    exact hclean g hg s (by simpa using hs)
  obtain ⟨hr, hallow, hexpires⟩ := grantPayload_injective (hbar t) (ht' ▸ hbar t') hat.free
    (hcg g.expires (by simp)).1 (asBytes_injective hpay)
  rw [hallow, parse_allowSpec_ok (hcg _ (by simp)).2 (hcg _ (by simp)).2 (hcg _ (by simp)).2]
    at hparse
  obtain ⟨-, rfl⟩ := hparse
  have hgrant : grant C J g = .ok (CapabilityToken.grant C granted.manifest.merkleRoot
      (allowSpec g.allow g.path g.audience) g.expires key) := by
    simp only [grant, bind_ok]
    exact ⟨_, hgr, rfl⟩
  refine ⟨g, _, hg, ⟨hgrant, ?_, ⟨granted, hgv, hr.symm.trans ht⟩, hr.symm.trans ht,
    ⟨cap, hc, hroot.trans (ht.symm.trans hr), hallow, hexpires⟩, hop, haud,
    ⟨expiry, hexpires ▸ hat, hle⟩⟩, rfl⟩
  rw [← hk]
  exact hexDecode_hexEncode _

/-- Whenever an archive signed by `pk` opens, `pk` granted it: a run of `grant` for the same
root, the reader and the time of opening, with a pattern that matches every exported file. -/
theorem open_requires_grant (hJ : J.WritesObjects)
    (hclean : ∀ g, IssuerOp.grant g ∈ history → CleanGrant g)
    (hU : Unforgeable C pk (SignedBy C J pk history)) {r : OpenRequest} {report : VerifyReport}
    (hv : verifyArchive C J r.file = .ok report)
    (hpk : hexDecode report.signature.publicKey = some pk.val) {out out' : Tree}
    (ho : openArchive C J r out = (.ok (), out')) :
    ∃ g token identity writes, IssuerOp.grant g ∈ history ∧ r.identity = .ok identity ∧
      Covers C J pk g r report identity token ∧ Wrote writes out out' ∧
      ∀ w ∈ writes, NamesPayload r.file report.manifest w.1 ∧ globMatch g.path w.1 = true := by
  obtain ⟨cap, report', identity, access, hc, ha, hx⟩ := openArchive_ok C J ho
  cases ha.verified.symm.trans hv
  obtain ⟨g, token, hg, hcov, hpath⟩ := authorized_grant C J hJ hclean hU hc ha hpk
  obtain ⟨writes, hw, hall⟩ := exportPayload_ok C J hx
  refine ⟨g, token, identity, writes, hg, ha.identity_read, hcov, hw, fun w hm => ?_⟩
  obtain ⟨hn, hm⟩ := hall w hm
  exact ⟨hn, hpath ▸ hm⟩

def sampleText : String :=
  grantPayload samplePackage.manifest.merkleRoot
    (allowSpec "read" "d/*" (identityId readerFile)) "unix-seconds:1800000000"

def sampleMessages : List Bytes :=
  [Json.manifestBytes samplePackage.manifest, asBytes sampleText]

def sampleHistory : List IssuerOp := [.sealArchive sampleSeal, .grant sampleGrant]

theorem sampleManifest_signs :
    SignsCorrectly (toyLog sampleMessages) samplePackage.key
      (Json.manifestBytes samplePackage.manifest) :=
  toyLog_signsCorrectly List.mem_cons_self _

theorem sampleHistory_seal :
    sealPackage (toyLog sampleMessages) sampleCodec sampleSeal = .ok samplePackage :=
  sampleSeal_ok _ sampleCodec

theorem sampleHistory_packages {q : SealRequest} {package : SealedPackage}
    (hq : IssuerOp.sealArchive q ∈ sampleHistory)
    (hp : sealPackage (toyLog sampleMessages) sampleCodec q = .ok package) :
    q = sampleSeal ∧ package = samplePackage := by
  have he : q = sampleSeal := by simpa [sampleHistory] using hq
  subst he
  exact ⟨rfl, Except.ok.inj (hp.symm.trans sampleHistory_seal)⟩

theorem samplePackage_key : samplePackage.key = signerKey := by
  obtain ⟨_, issuer, _, _, _, hs⟩ := sealPackage_ok _ sampleCodec sampleHistory_seal
  cases hs.issuer_read
  have hk := issuerKey_legacy (toyLog sampleMessages) sampleCodec "issuer" signerKey (pad 32 [9])
    noPassphrase
  exact Except.ok.inj (hs.key.symm.trans hk)

theorem sampleGrant_root : grantRoot (toyLog sampleMessages) sampleCodec sampleGrant =
    .ok (samplePackage.manifest.merkleRoot, signerKey) := by
  obtain ⟨report, hv, hm, -⟩ := sampleZip_verified _ sampleManifest_signs
  have hk := issuerKey_legacy (toyLog sampleMessages) sampleCodec "issuer" signerKey (pad 32 [9])
    noPassphrase
  simp only [grantRoot, bind_ok]
  exact ⟨report, hv, _, rfl, _, hk, by rw [hm]; rfl⟩

theorem sampleHistory_signed : ∀ m ∈ sampleMessages,
    SignedBy (toyLog sampleMessages) sampleCodec signerKey sampleHistory m := by
  simp only [sampleMessages, List.forall_mem_cons, List.not_mem_nil, false_imp_iff, implies_true,
    and_true]
  constructor
  · exact ⟨_, List.mem_cons_self, _, samplePackage_key, Signs.sealArchive sampleHistory_seal⟩
  · exact ⟨_, List.mem_cons_of_mem _ List.mem_cons_self, _, rfl, Signs.grant sampleGrant_root⟩

theorem sampleHistory_unforgeable : Unforgeable (toyLog sampleMessages) signerKey
    (SignedBy (toyLog sampleMessages) sampleCodec signerKey sampleHistory) := fun m sig h =>
  sampleHistory_signed m (toyLog_unforgeable sampleMessages signerKey m sig h)

def sampleOpen : OpenRequest :=
  openAs sampleZip sampleToken readerFile passphraseFile 1760000000

theorem sampleOpen_ok : ∃ out,
    openArchive (toyLog sampleMessages) sampleCodec sampleOpen Tree.empty = (.ok (), out) := by
  obtain ⟨report, hv, hm, hb⟩ := sampleZip_verified _ sampleManifest_signs
  obtain ⟨_, issuer, recipient, _, _, hs⟩ := sealPackage_ok _ sampleCodec sampleHistory_seal
  cases hs.input_dir
  cases hs.recipient_read
  have hcap : CapabilityToken.verify (toyLog sampleMessages) sampleToken = .ok () :=
    verify_grant _ (toyLog_signsCorrectly (List.mem_cons_of_mem _ List.mem_cons_self) _)
  obtain ⟨out, ho, -⟩ := openAs_package (toyLog sampleMessages) sampleCodec toy_aeadCorrect
    toy_agreement hs (by decide) hv hm hb readerFile_generated
    (by simp [sampleCodec, packageCodec, Json.documentCodec]) (by decide)
    (by decide : enforceExpiry "unix-seconds:1800000000" 1760000000 = .ok ())
    (sampleToken_granted _ sampleManifest_signs) hcap
    (by decide : readPassphrase passphraseFile false = .ok "pw")
  have hlen : ensure ((matchingFiles (globMatch "d/*") sampleDir).length ≠ 0)
      "capability did not allow any files" = .ok () := by decide
  rw [hlen] at ho
  exact ⟨out, ho⟩

theorem open_requires_sample_grant :
    ∃ report out, verifyArchive (toyLog sampleMessages) sampleCodec sampleZip = .ok report ∧
      ∃ g token identity writes, IssuerOp.grant g ∈ sampleHistory ∧
        sampleOpen.identity = .ok identity ∧
        Covers (toyLog sampleMessages) sampleCodec signerKey g sampleOpen report identity token ∧
        Wrote writes Tree.empty out ∧
        ∀ w ∈ writes, NamesPayload sampleZip report.manifest w.1 ∧ globMatch g.path w.1 = true := by
  obtain ⟨report, hv, hm, hb⟩ := sampleZip_verified _ sampleManifest_signs
  obtain ⟨out, ho⟩ := sampleOpen_ok
  refine ⟨report, out, hv, ?_⟩
  refine open_requires_grant (toyLog sampleMessages) sampleCodec (r := sampleOpen)
    (Json.documentCodec_writesObjects _ _ _) ?_ sampleHistory_unforgeable hv ?_ ho
  · intro g hg
    have he : g = sampleGrant := by simpa [sampleHistory] using hg
    subst he
    unfold CleanGrant
    decide +kernel
  · rw [hb, ← samplePackage_key]
    exact hexDecode_hexEncode _

end QCap.IssuerHistory
