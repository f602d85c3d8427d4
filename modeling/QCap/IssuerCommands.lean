import QCap.OpenArchive

/-!
# Commands of an issuer

`pack`, `seal`, `grant` and `revoke`: all four end in an Ed25519 signature by the key of the
issuer. What a command signs is computed by a definition of its own, which the command then
turns into the file it writes.
-/
namespace QCap.IssuerCommands

open QCap.Text QCap.PathTree QCap.Crypto QCap.Formats QCap.Signatures QCap.PayloadMerkle
open QCap.Capability QCap.Revocation QCap.Identity QCap.KeyWrap QCap.Archive

variable (C : Primitives) (J : JsonCodec)

def isAsciiWhitespace (b : UInt8) : Bool := b = 32 || b = 9 || b = 10 || b = 12 || b = 13

def fromUtf8 (bytes : Bytes) : Option String := String.fromUTF8? ⟨bytes.toArray⟩

/-- `signing_key_from_file`: an identity, or the hex text of a seed. -/
def signingKeyFromFile (keyFile : Result Bytes) (source : PassphraseSource) : Result Seed := do
  let bytes ← keyFile
  if (bytes.find? fun b => !isAsciiWhitespace b) = some 123 then
    let identity ← okOr (J.parseIdentity bytes) .json
    let passphrase ← identityPassphrase identity source
    signingKey C J identity passphrase
  else
    let keyHex ← okOr (fromUtf8 bytes) (.message "invalid utf-8")
    decodeFixed 32 (trim keyHex) "seed"

def issuerKey (issuer : Identity) (source : PassphraseSource) : Result Seed := do
  let passphrase ← identityPassphrase issuer source
  signingKey C J issuer passphrase

/-- A file with the hexadecimal seed is no identity file and yields the seed. -/
theorem signingKeyFromFile_hex (seed : Seed) (source : PassphraseSource) :
    signingKeyFromFile C J (.ok (asBytes (hexEncode seed.val))) source = .ok seed := by
  have hbrace : ((asBytes (hexEncode seed.val)).find? fun b => !isAsciiWhitespace b) ≠
      some 123 := by
    intro h
    obtain ⟨c, hc, hn⟩ := ascii_mem_asBytes (by decide) (List.mem_of_find?_eq_some h)
    have hhex := hexEncode_isLowerHex _ c hc
    rw [Char.toNat_inj.mp (show c.toNat = '\x7b'.toNat from hn)] at hhex
    cases hhex
  have htext : fromUtf8 (asBytes (hexEncode seed.val)) = some (hexEncode seed.val) :=
    fromUTF8?_asBytes _
  simp only [signingKeyFromFile, ok_bind, if_neg hbrace, htext, okOr_some, trim_hexEncode]
  exact decodeFixed_hexEncode _ _

structure PackRequest where
  inputDir : Tree
  key : Result Bytes
  passphrase : PassphraseSource
  now : ℕ

def packManifest (r : PackRequest) : QcapManifest :=
  QcapManifest.newWithNow "0.1.0" (computePayloadMerkleRoot C.blake3 r.inputDir) none
    (.object []) r.now

def packPlain (r : PackRequest) : Result Zip := do
  let manifest := packManifest C r
  let key ← signingKeyFromFile C J r.key r.passphrase
  let bundle := signManifest C (J.manifestBytes manifest) manifest.merkleRoot key
  return createQcapArchiveWithSignature J r.inputDir manifest bundle

/-- The arguments of `seal` and the random bytes that it draws; `fileNonce` is indexed by the
position of the file in the walk. -/
structure SealRequest where
  inputPath : String
  inputDir : Option Tree
  issuer : Result Identity
  recipient : Result Identity
  passphrase : PassphraseSource
  now : ℕ
  contentKey : Key
  packageRandom : FixedBytes 16
  fileNonce : ℕ → Nonce
  ephemeralSecret : Key
  wrapNonce : Nonce

def randomId (random : FixedBytes 16) : String := "qcap_" ++ hexEncode random.val

def relPath (p : RelPath) : Result String := do
  let s := replaceChar (pathString p) '\\' '/'
  validateRelativePath s
  return s

/-- The loop of `seal`: ciphertexts go to a temporary tree, their descriptions to the
manifest. -/
def sealFiles (r : SealRequest) : ℕ → List (RelPath × Bytes) → Tree →
    Result (Tree × List PayloadFile)
  | _, [], encryptedRoot => .ok (encryptedRoot, [])
  | i, (p, plaintext) :: rest, encryptedRoot => do
    let rel ← relPath p
    let ciphertext ← encrypt C r.contentKey (r.fileNonce i) (asBytes rel) plaintext
    match writeUnder encryptedRoot rel ciphertext with
    | (.error e, _) => .error e
    | (.ok (), encryptedRoot') =>
      let (final, files) ← sealFiles r (i + 1) rest encryptedRoot'
      return (final,
        { path := rel
          size := ciphertext.length
          nonce := hexEncode (r.fileNonce i).val
          ciphertextHash := blake3Prefixed C ciphertext } :: files)

structure SealedPackage where
  encryptedRoot : Tree
  manifest : QcapManifest
  key : Seed

def sealPackage (r : SealRequest) : Result SealedPackage := do
  let inputDir ← okOr r.inputDir (.message ("input_dir is not a directory: " ++ r.inputPath))
  let issuer ← r.issuer
  let recipient ← r.recipient
  let passphrase ← identityPassphrase issuer r.passphrase
  let packageId := randomId r.packageRandom
  let (encryptedRoot, files) ← sealFiles C r 0 (payloadFiles inputDir) Tree.empty
  let merkleRoot := computePayloadMerkleRoot C.blake3 encryptedRoot
  let stanza ← wrapContentKey C r.contentKey packageId recipient r.ephemeralSecret r.wrapNonce
  let manifest := QcapManifest.newSealed "0.2.0" packageId merkleRoot (some (identityId issuer))
    (.object [("title", .string "Q-Cap MVP sealed package")]) files [stanza] r.now
  let key ← signingKey C J issuer passphrase
  return { encryptedRoot, manifest, key }

def SealedPackage.bundle (package : SealedPackage) : QcapSignatureBundle :=
  signManifest C (J.manifestBytes package.manifest) package.manifest.merkleRoot package.key

/-- `seal`. -/
def sealArchive (r : SealRequest) : Result Zip := do
  let package ← sealPackage C J r
  return createQcapArchiveWithSignature J package.encryptedRoot package.manifest
    (package.bundle C J)

structure GrantRequest where
  file : Zip
  allow : String
  path : String
  audience : String
  expires : String
  issuer : Result Identity
  passphrase : PassphraseSource

/-- The Merkle root that `grant` signs and the key it signs with. -/
def grantRoot (r : GrantRequest) : Result (String × Seed) := do
  let report ← verifyArchive C J r.file
  let issuer ← r.issuer
  let key ← issuerKey C J issuer r.passphrase
  return (report.manifest.merkleRoot, key)

def grant (r : GrantRequest) : Result CapabilityToken := do
  let (root, key) ← grantRoot C J r
  return CapabilityToken.grant C root (allowSpec r.allow r.path r.audience) r.expires key

/-- `existing` is the list in the output file, if there is such a file. -/
structure RevokeRequest where
  cap : Result CapabilityToken
  issuer : Result Identity
  passphrase : PassphraseSource
  existing : Option (Result RevocationList)
  now : ℕ
  reason : String

/-- The list that `revoke` extends: the one in the output file, or a new one. -/
def revocationBase (r : RevokeRequest) (key : Seed) : Result RevocationList :=
  match r.existing with
  | none => .ok (RevocationList.empty C key)
  | some file => do
    let list ← file
    RevocationList.verify C list
    ensure (list.publicKey = hexEncode (C.verifyingKey key).val)
      "existing revocation list signer does not match issuer"
    return list

def addRevocation (list : RevocationList) (entry : RevocationEntry) : RevocationList :=
  if list.revoked.any fun existing => existing.capabilitySignature = entry.capabilitySignature
  then list
  else { list with revoked := list.revoked ++ [entry] }

def revocationEntry (cap : CapabilityToken) (now : ℕ) (reason : String) : RevocationEntry where
  capRoot := cap.capRoot
  capabilitySignature := cap.signature
  revokedAt := unixSeconds now
  reason := reason

/-- The list that `revoke` signs and the key it signs with. -/
def revocationUpdate (r : RevokeRequest) : Result (RevocationList × Seed) := do
  let cap ← r.cap
  CapabilityToken.verify C cap
  let issuer ← r.issuer
  let key ← issuerKey C J issuer r.passphrase
  ensure (cap.publicKey = hexEncode (C.verifyingKey key).val)
    "revocation issuer does not match capability signer"
  let list ← revocationBase C r key
  return (addRevocation list (revocationEntry cap r.now r.reason), key)

def revoke (r : RevokeRequest) : Result RevocationList := do
  let (list, key) ← revocationUpdate C J r
  return RevocationList.sign C list key

theorem addRevocation_revoked {list : RevocationList} {entry e : RevocationEntry} :
    e ∈ (addRevocation list entry).revoked ↔ e ∈ list.revoked ∨
      (e = entry ∧ ∀ x ∈ list.revoked, x.capabilitySignature ≠ entry.capabilitySignature) := by
  unfold addRevocation
  split
  · rename_i h
    obtain ⟨x, hx, hs⟩ := List.any_eq_true.mp h
    have hn : ¬ ∀ y ∈ list.revoked, y.capabilitySignature ≠ entry.capabilitySignature :=
      fun hall => hall x hx (by simpa using hs)
    simp [hn]
  · rename_i h
    have hall : ∀ y ∈ list.revoked, y.capabilitySignature ≠ entry.capabilitySignature := by
      intro y hy he
      exact h (List.any_eq_true.mpr ⟨y, hy, by simpa using he⟩)
    rw [List.mem_append, List.mem_singleton]
    exact ⟨fun h => h.imp_right fun he => ⟨he, hall⟩, fun h => h.imp_right And.left⟩

theorem revoke_ok {r : RevokeRequest} {list : RevocationList} (h : revoke C J r = .ok list) :
    ∃ cap key base, r.cap = .ok cap ∧ CapabilityToken.verify C cap = .ok () ∧
      cap.publicKey = hexEncode (C.verifyingKey key).val ∧
      revocationBase C r key = .ok base ∧
      list = RevocationList.sign C (addRevocation base (revocationEntry cap r.now r.reason))
        key := by
  simp only [revoke, revocationUpdate, bind_ok, ensure_ok] at h
  obtain ⟨⟨l, key⟩, ⟨cap, hc, _, hv, issuer, _, k, _, _, hs, base, hb, he⟩, hl⟩ := h
  cases he
  cases hl
  exact ⟨cap, key, base, hc, hv, hs, hb, rfl⟩

theorem issuerKey_legacy (name : String) (seed : Seed) (secret : Key)
    (source : PassphraseSource) :
    issuerKey C J (legacyIdentity C name seed secret) source = .ok seed := by
  simp only [issuerKey, bind_ok]
  exact ⟨none, rfl, signingKey_legacy C J name seed secret none⟩

theorem grant_ok {g : GrantRequest} {report : VerifyReport} {issuer : Identity} {key : Seed}
    (hv : verifyArchive C J g.file = .ok report) (hi : g.issuer = .ok issuer)
    (hk : issuerKey C J issuer g.passphrase = .ok key) :
    grant C J g = .ok (CapabilityToken.grant C report.manifest.merkleRoot
      (allowSpec g.allow g.path g.audience) g.expires key) := by
  simp only [grant, grantRoot, bind_ok]
  exact ⟨_, ⟨report, hv, issuer, hi, key, hk, rfl⟩, rfl⟩

theorem revoke_new {r : RevokeRequest} {cap : CapabilityToken} {issuer : Identity} {key : Seed}
    (hc : r.cap = .ok cap) (hv : CapabilityToken.verify C cap = .ok ())
    (hi : r.issuer = .ok issuer) (hk : issuerKey C J issuer r.passphrase = .ok key)
    (hs : cap.publicKey = hexEncode (C.verifyingKey key).val) (he : r.existing = none) :
    revoke C J r = .ok (RevocationList.sign C
      (addRevocation (RevocationList.empty C key) (revocationEntry cap r.now r.reason)) key) := by
  simp only [revoke, revocationUpdate, bind_ok, ensure_ok]
  exact ⟨_, ⟨cap, hc, (), hv, issuer, hi, key, hk, (), hs, RevocationList.empty C key,
    by rw [revocationBase, he], rfl⟩, rfl⟩

end QCap.IssuerCommands
