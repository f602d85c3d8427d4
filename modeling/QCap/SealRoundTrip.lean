import QCap.Sealing
import QCap.Json

/-!
# Seal, grant, open

The three commands are written separately and meet in the archive, the token and the key
file. For a recipient made by `generate` they restore exactly the files that the pattern
matches.
-/
namespace QCap.SealRoundTrip

open QCap.Text QCap.PathTree QCap.Crypto QCap.Formats QCap.Signatures QCap.PayloadMerkle
open QCap.Capability QCap.Identity QCap.KeyWrap QCap.Archive QCap.OpenArchive
open QCap.IssuerCommands QCap.Sealing

variable (C : Primitives) (J : JsonCodec)

def grantTo (zip : Zip) (issuer : Result Identity) (source : PassphraseSource)
    (recipient : Identity) (pattern expires : String) : GrantRequest where
  file := zip
  allow := "read"
  path := pattern
  audience := identityId recipient
  expires := expires
  issuer := issuer
  passphrase := source

def openAs (zip : Zip) (token : CapabilityToken) (recipient : Identity)
    (source : PassphraseSource) (now : ℕ) : OpenRequest where
  file := zip
  cap := .ok token
  identity := .ok recipient
  revocations := none
  revocationsUrl := none
  passphrase := source
  now := now
  createOut := .ok ()

def PackageReadsBack (package : SealedPackage) : Prop :=
  J.parseManifest (J.manifestBytes package.manifest) = some package.manifest ∧
    J.parseBundle (J.bundleBytes (package.bundle C J)) = some (package.bundle C J)

variable {q : SealRequest} {package : SealedPackage} {inputDir : Tree}
  {issuer recipient : Identity} {stanza : RecipientStanza} {turns : List SealedFile}

theorem Sealed.plainNames (hs : Sealed C J q package inputDir issuer recipient stanza turns)
    (ht : PlainNames inputDir) : PlainNames package.encryptedRoot := by
  intro p hp
  obtain ⟨b, hb⟩ := Tree.mem_files.mp (AList.mem_keys.mpr hp)
  obtain ⟨f, hf, rfl, -⟩ := hs.encrypted_source C J ht hb
  exact (plain_of_mem ht (hs.source_mem C J hf)).2.2.2

def packageZip (package : SealedPackage) : Zip :=
  createQcapArchiveWithSignature J package.encryptedRoot package.manifest (package.bundle C J)

theorem sealed_verified (hS : SignsCorrectly C package.key (J.manifestBytes package.manifest))
    (hs : Sealed C J q package inputDir issuer recipient stanza turns)
    (ht : PlainNames inputDir) (hJ : PackageReadsBack C J package) :
    ∃ n tree, Verified C J (packageZip C J package) ⟨package.manifest, package.bundle C J, n⟩
      (J.manifestBytes package.manifest) tree := by
  have hpt := Sealed.plainNames C J hs ht
  obtain ⟨n, tree, hx, hread⟩ : ∃ n tree, extractPayload (packageZip C J package) = (.ok n, tree) ∧
      ∀ p, tree.read p = package.encryptedRoot.read p := created_extract J hpt
  refine ⟨n, tree, verified_signed C J hS rfl ?_ ?_ hJ.1 hJ.2 hx ?_⟩
  · rw [packageZip, created_byName J hpt (by decide)]
    rfl
  · rw [packageZip, created_byName J hpt (by decide)]
    rfl
  · rw [root_congr C.blake3 hread, hs.manifest]
    rfl

theorem generate_id {name passphrase : String} {random : IdentityRandom}
    (h : generate C J name passphrase random = .ok recipient) :
    isEncrypted recipient = true ∧ identityId recipient ≠ "" ∧ Free ';' (identityId recipient) := by
  obtain ⟨-, _, _, _, -, -, -, rfl⟩ := generate_ok C J h
  have hfree := hexEncode_free (d := ';') (by decide) (C.verifyingKey random.signingSeed).val
  have hlen := hexEncode_length (C.verifyingKey random.signingSeed).val
  rw [(C.verifyingKey random.signingSeed).property] at hlen
  refine ⟨rfl, ?_, ?_⟩
  · intro he
    have hz := congrArg (fun s => s.toList.length) he
    simp [identityId, blank, hlen] at hz
  · intro hm
    rw [identityId, String.toList_ofList] at hm
    exact hfree (List.mem_of_mem_take hm)

theorem contentKeyFor_generated (hA : AeadCorrect C) (hD : Agreement C)
    (hs : Sealed C J q package inputDir issuer recipient stanza turns)
    {name passphrase : String} {random : IdentityRandom}
    (hg : generate C J name passphrase random = .ok recipient)
    (hJ : J.parseMaterial (J.materialBytes random.material) = some random.material) :
    contentKeyFor C J package.manifest recipient (some passphrase) = .ok q.contentKey := by
  obtain ⟨pk, wrapped, -, -, hst⟩ := wrapContentKey_ok C hs.wrapped
  have hrec : stanza.recipient = recipient.encryptionPublicKey := by rw [hst]
  have hu := unwrap_wrap C J hA hD hs.wrapped rfl (encryptionSecret_generate C J hA hJ hg)
  simp only [contentKeyFor, hs.manifest, QcapManifest.newSealed, bind_ok, okOr_ok]
  exact ⟨_, rfl, stanza, by simp [hrec], hu⟩

theorem decryptFile_created (hA : AeadCorrect C)
    (hs : Sealed C J q package inputDir issuer recipient stanza turns)
    (ht : PlainNames inputDir) {f : SealedFile} (hf : f ∈ turns) :
    decryptFile C (packageZip C J package) q.contentKey (f.spec C) = .ok f.plaintext := by
  have hentry : byName (packageZip C J package) ("payload/" ++ pathString f.source) =
      .ok ⟨"payload/" ++ pathString f.source, f.ciphertext⟩ :=
    created_payload J (Sealed.plainNames C J hs ht) (hs.encrypted_read C J ht hf)
  rw [← (hs.rel_eq C J ht hf).1] at hentry
  simp only [decryptFile, bind_ok, ensure_ok]
  exact ⟨_, hentry, (), rfl, f.nonce, decodeFixed_hexEncode _ _,
    decrypt_encrypt C hA (hs.valid f hf).encrypted⟩

theorem decrypted_turns (hA : AeadCorrect C)
    (hs : Sealed C J q package inputDir issuer recipient stanza turns)
    (ht : PlainNames inputDir) (access : Access) :
    Decrypted C (packageZip C J package) q.contentKey
      (package.manifest.files.filter fun s => access.allowsPath s.path)
      (plaintexts access.allowsPath turns) := by
  have hfiles : package.manifest.files = turns.map (SealedFile.spec C) := by
    rw [hs.manifest]
    rfl
  rw [hfiles, List.filter_map, Decrypted, plaintexts, List.forall₂_map_left_iff,
    List.forall₂_map_right_iff]
  refine List.forall₂_same.mpr fun f hf => ⟨rfl, ?_⟩
  exact decryptFile_created C J hA hs ht (List.mem_filter.mp hf).1

/-- The export of a package: all matching input files, and an error when there is none. -/
theorem openEncrypted_package (hA : AeadCorrect C) (hD : Agreement C)
    (hs : Sealed C J q package inputDir issuer recipient stanza turns)
    (ht : PlainNames inputDir) {name passphrase : String} {random : IdentityRandom}
    (hg : generate C J name passphrase random = .ok recipient)
    (hJ : J.parseMaterial (J.materialBytes random.material) = some random.material)
    (access : Access) :
    ∃ out, openEncrypted C J (packageZip C J package) package.manifest recipient
        (some passphrase) access Tree.empty =
        (ensure ((matchingFiles access.allowsPath inputDir).length ≠ 0)
          "capability did not allow any files", out) ∧
      ∀ p, out.read p =
        if access.allowsPath (pathString p) then inputDir.read p else none := by
  obtain ⟨out, hw, hv⟩ := matchingFiles_wrote access.allowsPath inputDir
  rw [← hs.plaintexts_eq C J ht] at hw hv
  refine ⟨out, ?_, fun p => ?_⟩
  · rw [openEncrypted, contentKeyFor_generated C J hA hD hs hg hJ]
    simp only
    rw [decryptFiles_wrote C (decrypted_turns C J hA hs ht access) hv hw, requireExport,
      hs.plaintexts_eq C J ht, Nat.zero_add]
  · rw [wrote_read hw, Tree.read_empty, Option.or_none, hs.plaintexts_eq C J ht,
      lastWrite_matchingFiles]

theorem matchingFiles_length {allowed : String → Bool} {t : Tree} :
    (matchingFiles allowed t).length ≠ 0 ↔ ∃ p ∈ t.files, allowed (pathString p) = true := by
  rw [← Nat.pos_iff_ne_zero, List.length_pos_iff_exists_mem]
  constructor
  · rintro ⟨w, hw⟩
    obtain ⟨f, hf, -⟩ := List.mem_map.mp hw
    obtain ⟨hf, ha⟩ := List.mem_filter.mp hf
    exact ⟨f.1, Tree.mem_files.mpr ⟨f.2, mem_payloadFiles.mp hf⟩, ha⟩
  · rintro ⟨p, hp, ha⟩
    obtain ⟨b, hb⟩ := Tree.mem_files.mp hp
    exact ⟨_, List.mem_map_of_mem (List.mem_filter.mpr ⟨mem_payloadFiles.mpr hb, ha⟩)⟩

theorem issuerKey_public {source : PassphraseSource} {key : Seed}
    (h : issuerKey C J issuer source = .ok key) :
    hexEncode (C.verifyingKey key).val = issuer.signingPublicKey := by
  simp only [issuerKey, bind_ok] at h
  obtain ⟨_, _, hk⟩ := h
  exact signingKey_ok C J hk

theorem grant_verifies (hS : SignatureCorrect C) {g : GrantRequest} {token : CapabilityToken}
    (h : grant C J g = .ok token) : CapabilityToken.verify C token = .ok () := by
  simp only [grant, bind_ok] at h
  obtain ⟨⟨root, key⟩, -, ht⟩ := h
  cases ht
  exact verify_grant C (hS _ _)

theorem openAs_authorized (hs : Sealed C J q package inputDir issuer recipient stanza turns)
    {report : VerifyReport} (hv : verifyArchive C J (packageZip C J package) = .ok report)
    (hrep : report.signature = package.bundle C J) {name passphrase : String}
    {random : IdentityRandom} (hg : generate C J name passphrase random = .ok recipient)
    {pattern expires : String} (hpat : Free ';' pattern) {granting : PassphraseSource}
    {token : CapabilityToken} {now : ℕ} (hexp : enforceExpiry expires now = .ok ())
    (htok : grant C J (grantTo (packageZip C J package) q.issuer granting recipient pattern
      expires) = .ok token) (hcap : CapabilityToken.verify C token = .ok ())
    (reading : PassphraseSource) :
    authorize C J (openAs (packageZip C J package) token recipient reading now) =
      .ok (report, recipient, ⟨"read", pattern, identityId recipient⟩) := by
  simp only [grant, grantRoot, bind_ok] at htok
  obtain ⟨⟨root, key⟩, ⟨report', hv', issuer', hi, key', hk, he⟩, ht⟩ := htok
  cases hv'.symm.trans hv
  cases (hs.issuer_read.symm.trans hi)
  cases he
  cases ht
  obtain ⟨-, hne, hfree⟩ := generate_id C J hg
  refine (authorize_ok C J).mpr ⟨_, none, rfl, ⟨hv, rfl, hcap, ?_, ?_⟩, rfl, rfl⟩
  · rw [hrep]
    exact (issuerKey_public C J hk).trans (issuerKey_public C J hs.key).symm
  · exact ⟨(parse_allowSpec_ok (show Free ';' "read" by decide) hpat hfree).mpr ⟨hne, rfl⟩, rfl,
      rfl, rfl, hexp⟩

theorem openAs_package (hA : AeadCorrect C) (hD : Agreement C)
    (hs : Sealed C J q package inputDir issuer recipient stanza turns)
    (ht : PlainNames inputDir) {report : VerifyReport}
    (hv : verifyArchive C J (packageZip C J package) = .ok report)
    (hman : report.manifest = package.manifest) (hrep : report.signature = package.bundle C J)
    {name passphrase : String} {random : IdentityRandom}
    (hg : generate C J name passphrase random = .ok recipient)
    (hmat : J.parseMaterial (J.materialBytes random.material) = some random.material)
    {pattern expires : String} (hpat : Free ';' pattern) {granting reading : PassphraseSource}
    {token : CapabilityToken} {now : ℕ} (hexp : enforceExpiry expires now = .ok ())
    (htok : grant C J (grantTo (packageZip C J package) q.issuer granting recipient pattern
      expires) = .ok token) (hcap : CapabilityToken.verify C token = .ok ())
    (hpass : readPassphrase reading false = .ok passphrase) :
    ∃ out, openArchive C J (openAs (packageZip C J package) token recipient reading now)
        Tree.empty = (ensure ((matchingFiles (globMatch pattern) inputDir).length ≠ 0)
          "capability did not allow any files", out) ∧
      ∀ p, out.read p = if globMatch pattern (pathString p) then inputDir.read p else none := by
  have hauth := openAs_authorized C J hs hv hrep hg hpat hexp htok hcap reading
  obtain ⟨out, hopen, hread⟩ := openEncrypted_package C J hA hD hs ht hg hmat
    ⟨"read", pattern, identityId recipient⟩
  have henc : package.manifest.encrypted = true := by
    rw [hs.manifest]
    rfl
  have hpassphrase : identityPassphrase recipient reading = .ok (some passphrase) := by
    rw [identityPassphrase, if_pos (generate_id C J hg).1, hpass]
    rfl
  refine ⟨out, ?_, hread⟩
  rw [openArchive, hauth]
  simp only [exportPayload, hman, henc, openAs, hpassphrase]
  exact hopen

/-- Seal for a generated recipient, grant reading on a pattern, open into an empty
directory: the archive verifies, opening succeeds exactly when a file matches, and the
directory then holds the matching files with their contents and nothing else. -/
theorem seal_grant_open (hS : SignatureCorrect C) (hA : AeadCorrect C) (hD : Agreement C)
    {zip : Zip} (hseal : sealArchive C J q = .ok zip) (hdir : q.inputDir = some inputDir)
    (ht : PlainNames inputDir) (hrec : q.recipient = .ok recipient)
    {name passphrase : String} {random : IdentityRandom}
    (hg : generate C J name passphrase random = .ok recipient)
    (hmat : J.parseMaterial (J.materialBytes random.material) = some random.material)
    (hdocs : ∀ package, sealPackage C J q = .ok package → PackageReadsBack C J package)
    {pattern expires : String} (hpat : Free ';' pattern) {granting reading : PassphraseSource}
    {token : CapabilityToken} {now : ℕ} (hexp : enforceExpiry expires now = .ok ())
    (htok : grant C J (grantTo zip q.issuer granting recipient pattern expires) = .ok token)
    (hpass : readPassphrase reading false = .ok passphrase) :
    (∃ report, verifyArchive C J zip = .ok report) ∧
      ((openArchive C J (openAs zip token recipient reading now) Tree.empty).1 = .ok () ↔
        ∃ p ∈ inputDir.files, globMatch pattern (pathString p) = true) ∧
      ∀ p, (openArchive C J (openAs zip token recipient reading now) Tree.empty).2.read p =
        if globMatch pattern (pathString p) then inputDir.read p else none := by
  simp only [sealArchive, bind_ok] at hseal
  obtain ⟨package, hp, hz⟩ := hseal
  obtain ⟨inputDir', issuer, recipient', stanza, turns, hs⟩ := sealPackage_ok C J hp
  cases hs.input_dir.symm.trans hdir
  cases hs.recipient_read.symm.trans hrec
  have hzip : zip = packageZip C J package := (Except.ok.inj hz).symm
  subst hzip
  obtain ⟨n, tree, hver⟩ := sealed_verified C J (hS _ _) hs ht (hdocs package hp)
  have hv := (verifyArchive_ok C J).mpr ⟨_, _, hver⟩
  obtain ⟨out, hresult, hread⟩ := openAs_package C J hA hD hs ht hv rfl rfl hg hmat hpat hexp htok
    (grant_verifies C J hS htok) hpass
  refine ⟨⟨_, hv⟩, ?_, fun p => ?_⟩
  · rw [hresult, ensure_ok, matchingFiles_length]
  · rw [hresult]
    exact hread p

def readerRandom : IdentityRandom := ⟨pad 32 [13], pad 32 [17], pad 16 [19], pad 24 [23]⟩

def reader : Result Identity :=
  generate toy (Json.documentCodec [] [] [readerRandom.material]) "reader" "pw" readerRandom

def readerFile : Identity := reader.toOption.getD issuerFile

def sampleDir : Tree := (writeUnder (writeUnder Tree.empty "a" [1]).2 "d/b" [2]).2

def sampleSeal : SealRequest where
  inputPath := "in"
  inputDir := some sampleDir
  issuer := .ok issuerFile
  recipient := .ok readerFile
  passphrase := noPassphrase
  now := 1700000000
  contentKey := pad 32 [29]
  packageRandom := pad 16 [31]
  fileNonce i := pad 24 [UInt8.ofNat i]
  ephemeralSecret := pad 32 [37]
  wrapNonce := pad 24 [41]

theorem sealPackage_congr (verify : PublicKey → Bytes → Signature → Bool) (J J' : JsonCodec) :
    sealPackage { toy with verify := verify } J sampleSeal = sealPackage toy J' sampleSeal := by
  have hk : ∀ (J : JsonCodec) p, signingKey toy J issuerFile p = .ok signerKey := fun J p =>
    signingKey_legacy toy J _ _ _ p
  have hl : ∀ p, signingKey { toy with verify := verify } J issuerFile p = .ok signerKey :=
    fun p => signingKey_legacy { toy with verify := verify } J _ _ _ p
  simp only [sealPackage, sampleSeal, okOr_some, ok_bind, hk, hl]
  rfl

def samplePackage : SealedPackage :=
  (sealPackage toy (Json.documentCodec [] [] []) sampleSeal).toOption.getD
    ⟨Tree.empty, packManifest toy ⟨sampleDir, .error .fileSystem, noPassphrase, 0⟩, signerKey⟩

def packageCodec (package : SealedPackage) (materials : List PrivateKeyMaterial) : JsonCodec :=
  Json.documentCodec [package.manifest]
    [signManifest C (Json.manifestBytes package.manifest) package.manifest.merkleRoot package.key]
    materials

theorem packageCodec_readsBack (package : SealedPackage) (materials : List PrivateKeyMaterial) :
    PackageReadsBack C (packageCodec C package materials) package :=
  Json.documentCodec_single _ _ _

def sampleCodec : JsonCodec := packageCodec toy samplePackage [readerRandom.material]

theorem ok_of_isOk {α : Type} {x : Result α} {d : α} (h : x.isOk = true) :
    x = .ok (x.toOption.getD d) := by
  cases x with
  | error e => cases h
  | ok a => rfl

theorem sampleSeal_ok (verify : PublicKey → Bytes → Signature → Bool) (J : JsonCodec) :
    sealPackage { toy with verify := verify } J sampleSeal = .ok samplePackage := by
  rw [sealPackage_congr verify J (Json.documentCodec [] [] [])]
  exact ok_of_isOk (by decide +kernel)

theorem readerFile_generated :
    generate toy sampleCodec "reader" "pw" readerRandom = .ok readerFile :=
  ok_of_isOk (x := reader) (by decide +kernel)

def sampleZip : Zip := packageZip toy sampleCodec samplePackage

def sampleToken : CapabilityToken :=
  CapabilityToken.grant toy samplePackage.manifest.merkleRoot
    (allowSpec "read" "d/*" (identityId readerFile)) "unix-seconds:1800000000" signerKey

def passphraseFile : PassphraseSource := ⟨some (.ok "pw\n"), none, none⟩

theorem sampleZip_sealed : sealArchive toy sampleCodec sampleSeal = .ok sampleZip := by
  simp only [sealArchive, bind_ok]
  exact ⟨_, sampleSeal_ok toy.verify sampleCodec, rfl⟩

def sampleGrant : GrantRequest :=
  grantTo sampleZip (.ok issuerFile) noPassphrase readerFile "d/*" "unix-seconds:1800000000"

section
variable (verify : PublicKey → Bytes → Signature → Bool)

theorem sampleZip_verified (h : SignsCorrectly { toy with verify := verify } samplePackage.key
    (Json.manifestBytes samplePackage.manifest)) :
    ∃ report, verifyArchive { toy with verify := verify } sampleCodec sampleZip = .ok report ∧
      report.manifest = samplePackage.manifest ∧
      report.signature = samplePackage.bundle { toy with verify := verify } sampleCodec := by
  obtain ⟨inputDir, _, _, _, _, hs⟩ :=
    sealPackage_ok _ sampleCodec (sampleSeal_ok verify sampleCodec)
  have hdir : inputDir = sampleDir := (Option.some.inj hs.input_dir).symm
  obtain ⟨n, tree, hver⟩ := sealed_verified { toy with verify := verify } sampleCodec h hs
    (hdir ▸ by decide) (packageCodec_readsBack _ samplePackage _)
  exact ⟨_, (verifyArchive_ok _ _).mpr ⟨_, _, hver⟩, rfl, rfl⟩

theorem sampleToken_granted (h : SignsCorrectly { toy with verify := verify } samplePackage.key
    (Json.manifestBytes samplePackage.manifest)) :
    grant { toy with verify := verify } sampleCodec sampleGrant = .ok sampleToken := by
  obtain ⟨report, hv, hm, -⟩ := sampleZip_verified verify h
  have hk := issuerKey_legacy { toy with verify := verify } sampleCodec "issuer" signerKey
    (pad 32 [9]) noPassphrase
  rw [grant_ok (g := sampleGrant) _ _ hv rfl hk, hm]
  rfl

end

theorem seal_grant_open_sample :
    (∃ report, verifyArchive toy sampleCodec sampleZip = .ok report) ∧
      ((openArchive toy sampleCodec (openAs sampleZip sampleToken readerFile passphraseFile
          1760000000) Tree.empty).1 = .ok () ↔
        ∃ p ∈ sampleDir.files, globMatch "d/*" (pathString p) = true) ∧
      ∀ p, (openArchive toy sampleCodec (openAs sampleZip sampleToken readerFile passphraseFile
          1760000000) Tree.empty).2.read p =
        if globMatch "d/*" (pathString p) then sampleDir.read p else none := by
  refine seal_grant_open toy sampleCodec toy_signatureCorrect toy_aeadCorrect toy_agreement
    sampleZip_sealed rfl (by decide) rfl readerFile_generated ?_ ?_ (by decide)
    (by decide : enforceExpiry "unix-seconds:1800000000" 1760000000 = .ok ())
    (sampleToken_granted toy.verify (toy_signatureCorrect _ _)) (by decide)
  · simp [sampleCodec, packageCodec, Json.documentCodec]
  · intro package hp
    cases (sampleSeal_ok toy.verify sampleCodec).symm.trans hp
    exact (packageCodec_readsBack toy samplePackage _)

end QCap.SealRoundTrip
