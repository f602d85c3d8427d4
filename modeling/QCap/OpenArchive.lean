import QCap.Archive
import QCap.KeyWrap
import QCap.Revocation

/-!
# Opening an archive

`open_archive` runs all its checks before it exports anything. The files it reads, the clock
and the outcome of creating the output directory are the request; the output directory is
the state, and what an error leaves there is part of the result.
-/
namespace QCap.OpenArchive

open QCap.Text QCap.PathTree QCap.Crypto QCap.Formats QCap.Signatures QCap.Capability
open QCap.Revocation QCap.Identity QCap.KeyWrap QCap.Archive

variable (C : Primitives) (J : JsonCodec)

structure OpenRequest where
  file : Zip
  cap : Result CapabilityToken
  identity : Result Identity
  revocations : Option (Result RevocationList)
  revocationsUrl : Option (Result RevocationList)
  passphrase : PassphraseSource
  now : ℕ
  createOut : Result Unit

/-- One file of `open_encrypted`, up to its plaintext. -/
def decryptFile (zip : Zip) (contentKey : Key) (spec : PayloadFile) : Result Bytes := do
  let entry ← byName zip ("payload/" ++ spec.path)
  ensure (blake3Prefixed C entry.bytes = spec.ciphertextHash)
    ("ciphertext hash mismatch: " ++ spec.path)
  let nonce ← decodeFixed 24 spec.nonce "file nonce"
  decrypt C contentKey nonce (asBytes spec.path) entry.bytes

def decryptFiles (zip : Zip) (contentKey : Key) (access : Access) (out : Tree)
    (exported : ℕ) : List PayloadFile → Result ℕ × Tree
  | [] => (.ok exported, out)
  | spec :: rest =>
    if access.allowsPath spec.path then
      match decryptFile C zip contentKey spec with
      | .error e => (.error e, out)
      | .ok plaintext =>
        match writeSafe out spec.path plaintext with
        | (.error e, out') => (.error e, out')
        | (.ok (), out') => decryptFiles zip contentKey access out' (exported + 1) rest
    else decryptFiles zip contentKey access out exported rest

def requireExport : Result ℕ × Tree → Result Unit × Tree
  | (.error e, out) => (.error e, out)
  | (.ok exported, out) => (ensure (exported ≠ 0) "capability did not allow any files", out)

/-- `open_encrypted` up to the content key. -/
def contentKeyFor (manifest : QcapManifest) (identity : Identity) (passphrase : Option String) :
    Result Key := do
  let packageId ← okOr manifest.packageId (.message "sealed archive missing package_id")
  let stanza ← okOr
    (manifest.recipients.find? fun r => r.recipient = identity.encryptionPublicKey)
    (.message "identity is not a recipient for this archive")
  unwrapContentKey C J stanza packageId identity passphrase

def openEncrypted (zip : Zip) (manifest : QcapManifest) (identity : Identity)
    (passphrase : Option String) (access : Access) (out : Tree) : Result Unit × Tree :=
  match contentKeyFor C J manifest identity passphrase with
  | .error e => (.error e, out)
  | .ok key => requireExport (decryptFiles C zip key access out 0 manifest.files)

def openPlain (zip : Zip) (access : Access) (out : Tree) : Result Unit × Tree :=
  requireExport (writeEntries access.allowsPath out 0 zip)

/-- `fetch_revocations_from_url` on what the server sent. -/
def fetchRevocations (response : Result RevocationList) : Result RevocationList := do
  let list ← response
  RevocationList.verify C list
  return list

def loadRevocations (path url : Option (Result RevocationList)) :
    Result (Option RevocationList) :=
  match path, url with
  | some file, none => some <$> file
  | none, some response => some <$> fetchRevocations C response
  | none, none => .ok none
  | some _, some _ =>
    .error (.message "use either --revocations or --revocations-url, not both")

/-- The revocation block of `open_archive`. -/
def checkRevocations (revocations : Option RevocationList) (signer : String)
    (cap : CapabilityToken) : Result Unit :=
  match revocations with
  | none => .ok ()
  | some list => do
    RevocationList.verify C list
    ensure (list.publicKey = signer) "revocation list signer is not trusted for this archive"
    ensure (RevocationList.revokes list cap = false) "capability has been revoked"

/-- The checks of `open_archive` that follow the revocation block. -/
def checkAccess (cap : CapabilityToken) (merkleRoot : String) (identity : Identity) (now : ℕ) :
    Result Access := do
  let access ← Access.parse cap.allow
  ensure (cap.capRoot = merkleRoot) "capability root does not match archive"
  ensure (access.operation = "read") "capability does not allow read"
  ensure (access.audience = identityId identity) "capability audience does not match identity"
  enforceExpiry cap.expires now
  return access

/-- `open_archive` before it touches the output directory. -/
def authorize (r : OpenRequest) : Result (VerifyReport × Identity × Access) := do
  let report ← verifyArchive C J r.file
  let identity ← r.identity
  let cap ← r.cap
  CapabilityToken.verify C cap
  ensure (cap.publicKey = report.signature.publicKey)
    "capability signer is not trusted for this archive"
  let revocations ← loadRevocations C r.revocations r.revocationsUrl
  checkRevocations C revocations report.signature.publicKey cap
  let access ← checkAccess cap report.manifest.merkleRoot identity r.now
  return (report, identity, access)

def exportPayload (r : OpenRequest) (report : VerifyReport) (identity : Identity)
    (access : Access) (out : Tree) : Result Unit × Tree :=
  if report.manifest.encrypted then
    match identityPassphrase identity r.passphrase with
    | .error e => (.error e, out)
    | .ok passphrase =>
      match r.createOut with
      | .error e => (.error e, out)
      | .ok () => openEncrypted C J r.file report.manifest identity passphrase access out
  else
    match r.createOut with
    | .error e => (.error e, out)
    | .ok () => openPlain r.file access out

def openArchive (r : OpenRequest) (out : Tree) : Result Unit × Tree :=
  match authorize C J r with
  | .error e => (.error e, out)
  | .ok (report, identity, access) => exportPayload C J r report identity access out

structure Accessible (cap : CapabilityToken) (merkleRoot : String) (identity : Identity)
    (now : ℕ) (access : Access) : Prop where
  parsed : Access.parse cap.allow = .ok access
  root : cap.capRoot = merkleRoot
  operation : access.operation = "read"
  audience : access.audience = identityId identity
  unexpired : enforceExpiry cap.expires now = .ok ()

theorem checkAccess_ok {cap : CapabilityToken} {merkleRoot : String} {identity : Identity}
    {now : ℕ} {access : Access} :
    checkAccess cap merkleRoot identity now = .ok access ↔
      Accessible cap merkleRoot identity now access := by
  simp only [checkAccess, bind_ok, ensure_ok]
  constructor
  · rintro ⟨a, hp, _, hr, _, ho, _, hu, _, he, ha⟩
    cases ha
    exact ⟨hp, hr, ho, hu, he⟩
  · rintro ⟨hp, hr, ho, hu, he⟩
    exact ⟨access, hp, (), hr, (), ho, (), hu, (), he, rfl⟩

/-- All that `open_archive` demands of a token apart from revocation. -/
structure Authorizes (r : OpenRequest) (cap : CapabilityToken) (report : VerifyReport)
    (identity : Identity) (access : Access) : Prop where
  verified : verifyArchive C J r.file = .ok report
  identity_read : r.identity = .ok identity
  cap_verified : CapabilityToken.verify C cap = .ok ()
  signer : cap.publicKey = report.signature.publicKey
  accessible : Accessible cap report.manifest.merkleRoot identity r.now access

theorem authorize_ok {r : OpenRequest} {report : VerifyReport} {identity : Identity}
    {access : Access} :
    authorize C J r = .ok (report, identity, access) ↔
      ∃ cap revocations, r.cap = .ok cap ∧ Authorizes C J r cap report identity access ∧
        loadRevocations C r.revocations r.revocationsUrl = .ok revocations ∧
        checkRevocations C revocations report.signature.publicKey cap = .ok () := by
  simp only [authorize, bind_ok, ensure_ok, checkAccess_ok]
  constructor
  · rintro ⟨rep, hv, id, hi, cap, hc, _, hcv, _, hs, revs, hl, _, hr, acc, ha, he⟩
    cases he
    exact ⟨cap, revs, hc, ⟨hv, hi, hcv, hs, ha⟩, hl, hr⟩
  · rintro ⟨cap, revs, hc, ⟨hv, hi, hcv, hs, ha⟩, hl, hr⟩
    exact ⟨report, hv, identity, hi, cap, hc, (), hcv, (), hs, revs, hl, (), hr, access, ha, rfl⟩

theorem openArchive_ok {r : OpenRequest} {out out' : Tree}
    (h : openArchive C J r out = (.ok (), out')) :
    ∃ cap report identity access, r.cap = .ok cap ∧ Authorizes C J r cap report identity access ∧
      exportPayload C J r report identity access out = (.ok (), out') := by
  unfold openArchive at h
  split at h
  · cases h
  · rename_i report identity access ha
    obtain ⟨cap, _, hc, hadm, -⟩ := (authorize_ok C J).mp ha
    exact ⟨cap, report, identity, access, hc, hadm, h⟩

theorem requireExport_ok {x : Result ℕ × Tree} {out : Tree} :
    requireExport x = (.ok (), out) ↔ ∃ n, x = (.ok n, out) ∧ n ≠ 0 := by
  rcases x with ⟨_ | n, t⟩
  · simp [requireExport]
  · simp only [requireExport, Prod.mk.injEq, ensure_ok, Except.ok.injEq]
    constructor
    · rintro ⟨hn, rfl⟩
      exact ⟨n, ⟨rfl, rfl⟩, hn⟩
    · rintro ⟨_, ⟨rfl, rfl⟩, hn⟩
      exact ⟨hn, rfl⟩

theorem openPlain_ok {zip : Zip} {access : Access} {out out' : Tree}
    (h : openPlain zip access out = (.ok (), out')) :
    Wrote (allowedWrites access.allowsPath zip) out out' := by
  obtain ⟨n, hw, -⟩ := requireExport_ok.mp h
  exact (writeEntries_ok hw).1

/-- What the loop of `open_encrypted` writes for a manifest: the specs that match, each with
the plaintext that was decrypted for it. -/
def Decrypted (zip : Zip) (key : Key) : List PayloadFile → List FileWrite → Prop :=
  List.Forall₂ fun spec w => w.1 = spec.path ∧ decryptFile C zip key spec = .ok w.2

theorem decryptFiles_ok {zip : Zip} {key : Key} {access : Access} {specs : List PayloadFile}
    {out out' : Tree} {exported n : ℕ}
    (h : decryptFiles C zip key access out exported specs = (.ok n, out')) :
    ∃ writes, Decrypted C zip key (specs.filter fun s => access.allowsPath s.path) writes ∧
      Wrote writes out out' ∧ n = exported + writes.length := by
  induction specs generalizing out exported with
  | nil =>
    cases h
    exact ⟨[], List.Forall₂.nil, rfl, rfl⟩
  | cons spec rest ih =>
    unfold decryptFiles at h
    by_cases ha : access.allowsPath spec.path = true
    · rw [if_pos ha] at h
      split at h
      · cases h
      · rename_i plaintext hd
        split at h
        · cases h
        · rename_i m hw
          obtain ⟨writes, h1, h2, h3⟩ := ih h
          refine ⟨(spec.path, plaintext) :: writes, ?_, ⟨m, (writeSafe_ok hw).2, h2⟩, ?_⟩
          · rw [List.filter_cons_of_pos (by exact ha)]
            exact List.Forall₂.cons ⟨rfl, hd⟩ h1
          · rw [List.length_cons]; omega
    · rw [if_neg ha] at h
      obtain ⟨writes, h1, h2, h3⟩ := ih h
      refine ⟨writes, ?_, h2, h3⟩
      rwa [List.filter_cons_of_neg (by exact ha)]

theorem decryptFiles_wrote {zip : Zip} {key : Key} {access : Access}
    {specs : List PayloadFile} {writes : List FileWrite} {out out' : Tree} {exported : ℕ}
    (hd : Decrypted C zip key (specs.filter fun s => access.allowsPath s.path) writes)
    (hv : ∀ w ∈ writes, validateRelativePath w.1 = .ok ()) (hw : Wrote writes out out') :
    decryptFiles C zip key access out exported specs =
      (.ok (exported + writes.length), out') := by
  induction specs generalizing out exported writes with
  | nil =>
    cases hd
    rw [show out' = out from hw]
    rfl
  | cons spec rest ih =>
    unfold decryptFiles
    by_cases ha : access.allowsPath spec.path = true
    · rw [List.filter_cons_of_pos (by exact ha)] at hd
      obtain ⟨w, ws, ⟨hp, hdec⟩, hrest, rfl⟩ := List.forall₂_cons_left_iff.mp hd
      obtain ⟨m, hm, hr⟩ := hw
      rw [List.forall_mem_cons] at hv
      have hs : writeSafe out spec.path w.2 = (.ok (), m) := by
        rw [writeSafe, ← hp, hv.1]; exact hm
      rw [if_pos ha, hdec]
      simp only [hs]
      rw [ih hrest hv.2 hr, List.length_cons]
      congr 2
      omega
    · rw [List.filter_cons_of_neg (by exact ha)] at hd
      rw [if_neg ha]
      exact ih hd hv hw

theorem openEncrypted_ok {zip : Zip} {manifest : QcapManifest} {identity : Identity}
    {passphrase : Option String} {access : Access} {out out' : Tree}
    (h : openEncrypted C J zip manifest identity passphrase access out = (.ok (), out')) :
    ∃ key writes, contentKeyFor C J manifest identity passphrase = .ok key ∧
      Decrypted C zip key (manifest.files.filter fun s => access.allowsPath s.path) writes ∧
      Wrote writes out out' ∧ writes ≠ [] := by
  unfold openEncrypted at h
  split at h
  · cases h
  · rename_i key hk
    obtain ⟨n, hd, hn⟩ := requireExport_ok.mp h
    obtain ⟨writes, h1, h2, h3⟩ := decryptFiles_ok C hd
    refine ⟨key, writes, hk, h1, h2, ?_⟩
    rintro rfl
    simp at h3
    exact hn h3

/-- A payload file under the name that the archive, or for sealed archives the manifest, has
for it. -/
def NamesPayload (zip : Zip) (manifest : QcapManifest) (name : String) : Prop :=
  if manifest.encrypted then ∃ spec ∈ manifest.files, spec.path = name
  else ∃ entry ∈ zip, payloadRel entry = some name

theorem mem_allowedWrites {allowed : String → Bool} {zip : Zip} {w : FileWrite}
    (h : w ∈ allowedWrites allowed zip) :
    allowed w.1 = true ∧ ∃ entry ∈ zip, payloadRel entry = some w.1 := by
  obtain ⟨hm, ha⟩ := List.mem_filter.mp h
  obtain ⟨entry, he, hr⟩ := List.mem_filterMap.mp hm
  obtain ⟨rel, hrel, rfl⟩ := Option.map_eq_some_iff.mp hr
  exact ⟨ha, entry, he, hrel⟩

theorem mem_decrypted {zip : Zip} {key : Key} {specs : List PayloadFile}
    {writes : List FileWrite} (h : Decrypted C zip key specs writes) {w : FileWrite}
    (hw : w ∈ writes) : ∃ spec ∈ specs, spec.path = w.1 := by
  induction h with
  | nil => cases hw
  | cons hs _ ih =>
    rcases List.mem_cons.mp hw with rfl | hw
    · exact ⟨_, List.mem_cons_self, hs.1.symm⟩
    · obtain ⟨spec, hm, hp⟩ := ih hw
      exact ⟨spec, List.mem_cons_of_mem _ hm, hp⟩

/-- Every file that an export changes is a payload file that the pattern matches. -/
theorem exportPayload_ok {r : OpenRequest} {report : VerifyReport} {identity : Identity}
    {access : Access} {out out' : Tree}
    (h : exportPayload C J r report identity access out = (.ok (), out')) :
    ∃ writes, Wrote writes out out' ∧ ∀ w ∈ writes,
      NamesPayload r.file report.manifest w.1 ∧ access.allowsPath w.1 = true := by
  unfold exportPayload at h
  split at h
  · rename_i henc
    split at h
    · cases h
    · split at h
      · cases h
      · obtain ⟨key, writes, -, hd, hw, -⟩ := openEncrypted_ok C J h
        refine ⟨writes, hw, fun w hm => ?_⟩
        obtain ⟨spec, hs, hp⟩ := mem_decrypted C hd hm
        obtain ⟨hs, ha⟩ := List.mem_filter.mp hs
        rw [NamesPayload, if_pos henc, ← hp]
        exact ⟨⟨spec, hs, rfl⟩, ha⟩
  · rename_i henc
    split at h
    · cases h
    · refine ⟨_, openPlain_ok h, fun w hm => ?_⟩
      obtain ⟨ha, he⟩ := mem_allowedWrites hm
      rw [NamesPayload, if_neg henc]
      exact ⟨he, ha⟩

end QCap.OpenArchive
