import QCap.RevokedOpen
import QCap.SerdePackage

/-!
# Packages from file to file

Key files, tokens, revocation lists and the documents of a package as the bytes that one
command writes and the next one reads.
-/
namespace QCap.SealedDocuments

open QCap.Text QCap.PathTree QCap.Crypto QCap.Formats QCap.Signatures QCap.PayloadMerkle
open QCap.Capability QCap.Revocation QCap.Identity QCap.Archive QCap.OpenArchive
open QCap.IssuerCommands QCap.Sealing QCap.SealRoundTrip QCap.RevokedOpen QCap.SerdeDocuments
open QCap.SerdePackage

variable (C : Primitives) (floats : String → Option String)

def readJson {α : Type} (read : Bytes → Option α) (file : Result Bytes) : Result α := do
  okOr (read (← file)) .json

@[simp] theorem readJson_ok {α : Type} {read : Bytes → Option α} {document : Bytes} {a : α} :
    readJson read (.ok document) = .ok a ↔ read document = some a :=
  okOr_ok

structure OpenFiles where
  file : Zip
  cap : Bytes
  identity : Bytes
  revocations : Option Bytes
  passphrase : PassphraseSource
  now : ℕ

def OpenFiles.request (o : OpenFiles) : OpenRequest where
  file := o.file
  cap := readJson readToken (.ok o.cap)
  identity := readJson readIdentity (.ok o.identity)
  revocations := o.revocations.map fun document => readJson readList (.ok document)
  revocationsUrl := none
  passphrase := o.passphrase
  now := o.now
  createOut := .ok ()

def barred (revocations : Option Bytes) (token : CapabilityToken) : Bool :=
  revocations.any fun document =>
    (readList document).any fun list => RevocationList.revokes list token

variable {C floats}

theorem generate_kdf {J : JsonCodec} {name passphrase : String} {random : IdentityRandom}
    {identity : Identity} (h : generate C J name passphrase random = .ok identity) :
    ∀ kdf ∈ identity.kdf, SmallKdf kdf := by
  obtain ⟨-, kdf₀, _, _, hk, -, -, rfl⟩ := generate_ok C J h
  have hversion : argon2Version < 2 ^ 32 := by decide
  have hmemory : argon2MemoryKib < 2 ^ 32 := by decide
  have hiterations : argon2Iterations < 2 ^ 32 := by decide
  have hparallelism : argon2Parallelism < 2 ^ 32 := by decide
  intro kdf hkdf
  cases hkdf
  exact ⟨hversion, hmemory, hiterations, hparallelism⟩

theorem readIdentity_generated {J : JsonCodec} {name passphrase : String}
    {random : IdentityRandom} {identity : Identity}
    (h : generate C J name passphrase random = .ok identity) :
    readIdentity (identityBytes identity) = some identity :=
  readIdentity_identityBytes (generate_kdf h)

def Fits (zip : Zip) : Prop :=
  ∀ e ∈ zip, startsWith e.name "payload/" = true → e.bytes.length < 2 ^ 64

section

variable {J : JsonCodec} {q : SealRequest} {package : SealedPackage} {inputDir : Tree}
  {issuer recipient : Identity} {stanza : RecipientStanza} {turns : List SealedFile}

theorem sealed_storable (hs : Sealed C J q package inputDir issuer recipient stanza turns)
    (ht : PlainNames inputDir) (hfit : Fits (packageZip C J package)) :
    Storable package.manifest := by
  have hmetadata : package.manifest.metadata =
      .object [("title", .string "Q-Cap MVP sealed package")] := by
    rw [hs.manifest]
    rfl
  have hfiles : package.manifest.files = turns.map (SealedFile.spec C) := by
    rw [hs.manifest]
    rfl
  refine ⟨?_, ?_, ?_⟩
  · rw [hmetadata]
    simp [Mapped, MappedMembers, metadataDepth, SortedIndex.Sorted]
  · rw [hmetadata]
    simp [Whole, WholeMembers]
  · intro file hf
    rw [hfiles] at hf
    obtain ⟨f, hturn, rfl⟩ := List.mem_map.mp hf
    have hentry : byName (packageZip C J package) ("payload/" ++ pathString f.source) =
        .ok ⟨"payload/" ++ pathString f.source, f.ciphertext⟩ :=
      created_payload J (Sealed.plainNames C J hs ht) (hs.encrypted_read C J ht hturn)
    exact hfit _ (byName_ok hentry).1 (startsWith_append _ _)

theorem sealed_readsBack
    (hs : Sealed C (serdeCodec floats) q package inputDir issuer recipient stanza turns)
    (ht : PlainNames inputDir) (hfit : Fits (packageZip C (serdeCodec floats) package)) :
    PackageReadsBack C (serdeCodec floats) package :=
  ⟨readManifest_manifestBytes floats (sealed_storable hs ht hfit), readBundle_bundleBytes _⟩

end

theorem revoke_issuer {J : JsonCodec} (hS : SignatureCorrect C) {rr : RevokeRequest}
    {list : RevocationList} {issuer : Identity} (h : revoke C J rr = .ok list)
    (hi : rr.issuer = .ok issuer) :
    RevocationList.verify C list = .ok () ∧ list.publicKey = issuer.signingPublicKey := by
  simp only [revoke, revocationUpdate, hi, bind_ok, ensure_ok] at h
  obtain ⟨⟨base, key⟩, ⟨cap, hc, _, hv, issuer', hi', k, hk, _, hs, l, hb, he⟩, hl⟩ := h
  cases hi'
  cases he
  cases hl
  exact ⟨verify_sign C (hS _ _), issuerKey_public C J hk⟩

theorem openArchive_congr {J : JsonCodec} {r r' : OpenRequest}
    (ha : authorize C J r = authorize C J r') (hf : r.file = r'.file)
    (hp : r.passphrase = r'.passphrase) (ho : r.createOut = r'.createOut) (out : Tree) :
    openArchive C J r out = openArchive C J r' out := by
  unfold openArchive exportPayload
  rw [ha, hf, hp, ho]

section

variable {q : SealRequest} {zip : Zip} {inputDir : Tree} {recipient : Identity}
  {name passphrase : String} {random : IdentityRandom} {pattern expires : String}
  {granting reading : PassphraseSource} {token : CapabilityToken} {now : ℕ}

def openedFiles (zip : Zip) (token : CapabilityToken) (recipient : Identity)
    (revocations : Option Bytes) (reading : PassphraseSource) (now : ℕ) : OpenFiles where
  file := zip
  cap := tokenBytes token
  identity := identityBytes recipient
  revocations := revocations
  passphrase := reading
  now := now

theorem openedFiles_request (hg : generate C (serdeCodec floats) name passphrase random =
    .ok recipient) (revocations : Option Bytes) :
    (openedFiles zip token recipient revocations reading now).request =
      { openAs zip token recipient reading now with
        revocations := revocations.map fun document => readJson readList (.ok document) } := by
  have hcap : readJson readToken (.ok (tokenBytes token)) = .ok token :=
    readJson_ok.mpr (readToken_tokenBytes token)
  have hidentity : readJson readIdentity (.ok (identityBytes recipient)) = .ok recipient :=
    readJson_ok.mpr (readIdentity_generated hg)
  rw [OpenFiles.request, openedFiles, hcap, hidentity]
  rfl

/-- A list file that `revoke` wrote for the issuer. -/
def RevokedBy (C : Primitives) (J : JsonCodec) (issuer : Result Identity) (document : Bytes) :
    Prop :=
  ∃ rr list, revoke C J rr = .ok list ∧ rr.issuer = issuer ∧ document = listBytes list

theorem openArchive_listed {J : JsonCodec} {r : OpenRequest} {list : RevocationList}
    {report : VerifyReport} {identity : Identity} {access : Access} (hcap : r.cap = .ok token)
    (hurl : r.revocationsUrl = none) (hlist : RevocationList.verify C list = .ok ())
    (hkey : list.publicKey = report.signature.publicKey)
    (ha : authorize C J r = .ok (report, identity, access)) (out : Tree) :
    let listed := { r with revocations := some (.ok list) }
    if RevocationList.revokes list token then ∃ e, openArchive C J listed out = (.error e, out)
    else openArchive C J listed out = openArchive C J r out := by
  intro listed
  obtain ⟨token', _, hcap', hauth, -, -⟩ := (authorize_ok C J).mp ha
  cases hcap.symm.trans hcap'
  have hsupplies : Supplies listed list := Or.inl ⟨rfl, hurl⟩
  have hsupplied := authorize_supplied C J hlist (hkey.trans hauth.signer.symm) hsupplies hcap
  by_cases hrev : RevocationList.revokes list token = true
  · rw [if_pos hrev]
    cases hl : authorize C J listed with
    | error e =>
      refine ⟨e, ?_⟩
      rw [openArchive, hl]
    | ok granted =>
      obtain ⟨report', identity', access'⟩ := granted
      have hno := ((hsupplied report' identity' access').mp hl).2
      rw [hrev] at hno
      cases hno
  · rw [if_neg hrev]
    have hsame : Authorizes C J listed token report identity access :=
      ⟨hauth.verified, hauth.identity_read, hauth.cap_verified, hauth.signer, hauth.accessible⟩
    have hl : authorize C J listed = .ok (report, identity, access) :=
      (hsupplied report identity access).mpr ⟨hsame, Bool.eq_false_of_not_eq_true hrev⟩
    exact openArchive_congr (hl.trans ha.symm) rfl rfl rfl out

structure Opens (J : JsonCodec) (C : Primitives) (r : OpenRequest) (issuer : Result Identity)
    (inputDir : Tree) (pattern : String) (report : VerifyReport) (identity : Identity)
    (access : Access) : Prop where
  verified : verifyArchive C J r.file = .ok report
  authorized : authorize C J r = .ok (report, identity, access)
  trusted : ∀ document, RevokedBy C J issuer document → ∃ list, readList document = some list ∧
    RevocationList.verify C list = .ok () ∧ list.publicKey = report.signature.publicKey
  succeeds : (openArchive C J r Tree.empty).1 = .ok () ↔
    ∃ p ∈ inputDir.files, globMatch pattern (pathString p) = true
  exported : ∀ p, (openArchive C J r Tree.empty).2.read p =
    if globMatch pattern (pathString p) = true then inputDir.read p else none

theorem sealed_opens (hS : SignatureCorrect C) (hA : AeadCorrect C) (hD : Agreement C)
    (hg : generate C (serdeCodec floats) name passphrase random = .ok recipient)
    (hrec : q.recipient = .ok recipient) (hseal : sealArchive C (serdeCodec floats) q = .ok zip)
    (hdir : q.inputDir = some inputDir) (ht : PlainNames inputDir) (hfit : Fits zip)
    (hpat : Free ';' pattern) (hexp : enforceExpiry expires now = .ok ())
    (htok : grant C (serdeCodec floats) (grantTo zip q.issuer granting recipient pattern expires) =
      .ok token) (hpass : readPassphrase reading false = .ok passphrase) :
    ∃ report identity access, Opens (serdeCodec floats) C (openAs zip token recipient reading now)
      q.issuer inputDir pattern report identity access := by
  simp only [sealArchive, bind_ok] at hseal
  obtain ⟨package, hp, hz⟩ := hseal
  obtain ⟨inputDir', issuer, recipient', stanza, turns, hs⟩ := sealPackage_ok C _ hp
  cases hs.input_dir.symm.trans hdir
  cases hs.recipient_read.symm.trans hrec
  have hzip : zip = packageZip C (serdeCodec floats) package := (Except.ok.inj hz).symm
  subst hzip
  obtain ⟨n, tree, hver⟩ := sealed_verified C _ (hS _ _) hs ht (sealed_readsBack hs ht hfit)
  have hv := (verifyArchive_ok C _).mpr ⟨_, _, hver⟩
  have hcap := grant_verifies C _ hS htok
  have hmat : (serdeCodec floats).parseMaterial
      ((serdeCodec floats).materialBytes random.material) = some random.material :=
    Keyfiles.readMaterial_materialBytes random.material
  have hauth := openAs_authorized C _ hs hv rfl hg hpat hexp htok hcap reading
  obtain ⟨out, hresult, hread⟩ := openAs_package C _ hA hD hs ht hv rfl rfl hg hmat hpat hexp htok
    hcap hpass
  refine ⟨_, _, _, hv, hauth, ?_, ?_, ?_⟩
  · rintro document ⟨rr, list, hrevoke, hissuer, rfl⟩
    obtain ⟨hverify, hkey⟩ := revoke_issuer hS hrevoke (hissuer.trans hs.issuer_read)
    exact ⟨list, readList_listBytes list, hverify,
      hkey.trans (issuerKey_public C _ hs.key).symm⟩
  · rw [hresult, ensure_ok, matchingFiles_length]
  · intro p
    rw [hresult]
    exact hread p

/-- Seal for the key file of `init`, grant, revoke and open, each from the files that the others
wrote: a token that is not on the list exports exactly the files it matches, and one that is
exports nothing. -/
theorem sealed_files_open (hS : SignatureCorrect C) (hA : AeadCorrect C) (hD : Agreement C)
    (hg : generate C (serdeCodec floats) name passphrase random = .ok recipient)
    (hrec : q.recipient = readJson readIdentity (.ok (identityBytes recipient)))
    (hseal : sealArchive C (serdeCodec floats) q = .ok zip) (hdir : q.inputDir = some inputDir)
    (ht : PlainNames inputDir) (hfit : Fits zip) (hpat : Free ';' pattern)
    (hexp : enforceExpiry expires now = .ok ())
    (htok : grant C (serdeCodec floats) (grantTo zip q.issuer granting recipient pattern expires) =
      .ok token)
    {revocations : Option Bytes}
    (hlist : ∀ document ∈ revocations, RevokedBy C (serdeCodec floats) q.issuer document)
    (hpass : readPassphrase reading false = .ok passphrase) :
    let opened := openArchive C (serdeCodec floats)
      (openedFiles zip token recipient revocations reading now).request Tree.empty
    (∃ report, verifyArchive C (serdeCodec floats) zip = .ok report) ∧
      (opened.1 = .ok () ↔ barred revocations token = false ∧
        ∃ p ∈ inputDir.files, globMatch pattern (pathString p) = true) ∧
      ∀ p, opened.2.read p =
        if barred revocations token = false ∧ globMatch pattern (pathString p) = true then
          inputDir.read p
        else none := by
  intro opened
  have hread : q.recipient = .ok recipient :=
    hrec.trans (readJson_ok.mpr (readIdentity_generated hg))
  obtain ⟨report, identity, access, ho⟩ := sealed_opens hS hA hD hg hread hseal hdir ht hfit hpat
    hexp htok hpass
  refine ⟨⟨report, ho.verified⟩, ?_⟩
  have hopened : opened = openArchive C (serdeCodec floats)
      { openAs zip token recipient reading now with
        revocations := revocations.map fun document => readJson readList (.ok document) }
      Tree.empty := by
    rw [← openedFiles_request hg]
  cases revocations with
  | none =>
    have hbarred : barred none token = false := rfl
    rw [hopened]
    simp only [hbarred, true_and]
    exact ⟨ho.succeeds, ho.exported⟩
  | some document =>
    obtain ⟨list, hdocument, hverify, hkey⟩ := ho.trusted document (hlist document rfl)
    have hbarred : barred (some document) token = RevocationList.revokes list token := by
      simp [barred, hdocument]
    have hload : readJson readList (.ok document) = .ok list := readJson_ok.mpr hdocument
    have hcap : (openAs zip token recipient reading now).cap = .ok token := rfl
    have hlisted := openArchive_listed hcap rfl hverify hkey ho.authorized Tree.empty
    rw [Option.map_some, hload] at hopened
    rw [hbarred]
    by_cases hrev : RevocationList.revokes list token = true
    · rw [if_pos hrev] at hlisted
      obtain ⟨e, he⟩ := hlisted
      rw [hopened, he]
      simp [hrev]
    · rw [if_neg hrev] at hlisted
      have hno := Bool.eq_false_of_not_eq_true hrev
      rw [hopened, hlisted]
      simp only [hno, true_and]
      exact ⟨ho.succeeds, ho.exported⟩

end

def serde : JsonCodec := serdeCodec fun _ => none

def serdeZip : Zip := packageZip toy serde samplePackage

theorem serdeZip_fits : Fits serdeZip := by
  unfold Fits
  decide +kernel

theorem serdeZip_sealed : sealArchive toy serde sampleSeal = .ok serdeZip := by
  simp only [sealArchive, bind_ok]
  exact ⟨_, sampleSeal_ok toy.verify serde, rfl⟩

theorem readerFile_init : generate toy serde "reader" "pw" readerRandom = .ok readerFile :=
  ok_of_isOk (x := reader) (by decide +kernel)

theorem sampleToken_serde : grant toy serde (grantTo serdeZip (.ok issuerFile) noPassphrase
    readerFile "d/*" "unix-seconds:1800000000") = .ok sampleToken := by
  obtain ⟨inputDir, _, _, _, _, hs⟩ := sealPackage_ok _ serde (sampleSeal_ok toy.verify serde)
  have hdir : inputDir = sampleDir := (Option.some.inj hs.input_dir).symm
  subst hdir
  have ht : PlainNames sampleDir := by decide
  obtain ⟨n, tree, hver⟩ := sealed_verified toy serde (toy_signatureCorrect _ _) hs ht
    (sealed_readsBack hs ht serdeZip_fits)
  have hv := (verifyArchive_ok toy serde).mpr ⟨_, _, hver⟩
  have hk := issuerKey_legacy toy serde "issuer" signerKey (pad 32 [9]) noPassphrase
  exact grant_ok toy serde (g := grantTo serdeZip (.ok issuerFile) noPassphrase readerFile "d/*"
    "unix-seconds:1800000000") hv rfl hk

def sampleRevoke : RevokeRequest where
  cap := .ok sampleToken
  issuer := .ok issuerFile
  passphrase := noPassphrase
  existing := none
  now := 1750000000
  reason := "lost"

theorem sampleRevoke_ok : ∃ list, revoke toy serde sampleRevoke = .ok list := by
  have hk := issuerKey_legacy toy serde "issuer" signerKey (pad 32 [9]) noPassphrase
  have hv : CapabilityToken.verify toy sampleToken = .ok () :=
    verify_grant toy (toy_signatureCorrect _ _)
  exact ⟨_, revoke_new toy serde rfl hv rfl hk rfl rfl⟩

theorem sample_files_open : ∃ list, revoke toy serde sampleRevoke = .ok list ∧
    let opened := openArchive toy serde (openedFiles serdeZip sampleToken readerFile
      (some (listBytes list)) passphraseFile 1760000000).request Tree.empty
    (∃ report, verifyArchive toy serde serdeZip = .ok report) ∧
      (opened.1 = .ok () ↔ barred (some (listBytes list)) sampleToken = false ∧
        ∃ p ∈ sampleDir.files, globMatch "d/*" (pathString p) = true) ∧
      ∀ p, opened.2.read p =
        if barred (some (listBytes list)) sampleToken = false ∧
          globMatch "d/*" (pathString p) = true then sampleDir.read p
        else none := by
  obtain ⟨list, hrevoke⟩ := sampleRevoke_ok
  have hrec : sampleSeal.recipient = readJson readIdentity (.ok (identityBytes readerFile)) :=
    (readJson_ok.mpr (readIdentity_generated readerFile_init)).symm
  have hlist : ∀ document ∈ some (listBytes list),
      RevokedBy toy serde sampleSeal.issuer document := by
    intro document hd
    cases hd
    exact ⟨sampleRevoke, list, hrevoke, rfl, rfl⟩
  exact ⟨list, hrevoke, sealed_files_open toy_signatureCorrect toy_aeadCorrect toy_agreement
    readerFile_init hrec serdeZip_sealed rfl (by decide) serdeZip_fits (by decide)
    (by decide : enforceExpiry "unix-seconds:1800000000" 1760000000 = .ok ())
    sampleToken_serde hlist (by decide)⟩

end QCap.SealedDocuments
