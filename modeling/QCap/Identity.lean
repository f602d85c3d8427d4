import QCap.Signatures

/-!
# Identities

A key file holds the public keys and, in the current format, the private keys encrypted
under a passphrase. Legacy files hold them in plain text. The random bytes of a generated
identity are arguments.
-/
namespace QCap.Identity

open QCap.Text QCap.Crypto QCap.Formats

def identityFormat : String := "qcap-encrypted-identity-v1"
def identityCipher : String := "xchacha20poly1305"
def identityKdf : String := "argon2id"
def argon2Version : ℕ := 19
def argon2MemoryKib : ℕ := 64 * 1024
def argon2Iterations : ℕ := 3
def argon2Parallelism : ℕ := 4

variable (C : Primitives) (J : JsonCodec)

def encrypt (key : Key) (nonce : Nonce) (aad plaintext : Bytes) : Result Bytes :=
  okOr (C.encrypt key nonce aad plaintext) (.message "encryption failed")

def decrypt (key : Key) (nonce : Nonce) (aad ciphertext : Bytes) : Result Bytes :=
  okOr (C.decrypt key nonce aad ciphertext) (.message "decryption failed")

theorem decrypt_encrypt (hC : AeadCorrect C) {key : Key} {nonce : Nonce} {aad plaintext : Bytes}
    {ciphertext : Bytes} (h : encrypt C key nonce aad plaintext = .ok ciphertext) :
    decrypt C key nonce aad ciphertext = .ok plaintext :=
  okOr_ok.mpr (hC _ _ _ _ _ (okOr_ok.mp h))

/-- `derive_identity_key`. The limits leave `Params::new` nothing to refuse. -/
def deriveIdentityKey (passphrase : String) (kdf : IdentityKdf) : Result Key := do
  ensure (kdf.algorithm = identityKdf ∧ kdf.version = argon2Version) "unsupported identity KDF"
  ensure ((8 * 1024 ≤ kdf.memoryKib ∧ kdf.memoryKib ≤ 1024 * 1024) ∧
      (1 ≤ kdf.iterations ∧ kdf.iterations ≤ 10) ∧
      (1 ≤ kdf.parallelism ∧ kdf.parallelism ≤ 16))
    "identity KDF parameters are outside supported limits"
  let salt ← okOr (hexDecode kdf.salt) .hex
  ensure (salt.length = 16) "identity KDF salt must be 16 bytes"
  okOr (C.argon2id kdf.memoryKib kdf.iterations kdf.parallelism (asBytes passphrase) salt) .argon2

/-- `Identity::id`. -/
def identityId (identity : Identity) : String :=
  String.ofList (identity.signingPublicKey.toList.take 16)

def isEncrypted (identity : Identity) : Bool := identity.format = some identityFormat

def associatedData (identity : Identity) : Bytes :=
  asBytes (identityFormat ++ "\x00" ++ identity.name ++ "\x00" ++ identity.signingPublicKey ++
    "\x00" ++ identity.encryptionPublicKey)

def validatePrivateKeys (identity : Identity) (material : PrivateKeyMaterial) :
    Result Unit := do
  let signingSeed ← decodeFixed 32 material.signingSeed "signing_seed"
  ensure (hexEncode (C.verifyingKey signingSeed).val = identity.signingPublicKey)
    "identity signing key does not match its public key"
  let encryptionSecret ← decodeFixed 32 material.encryptionSecret "encryption_secret"
  ensure (hexEncode (C.x25519Public encryptionSecret).val = identity.encryptionPublicKey)
    "identity encryption key does not match its public key"

def legacyMaterial (identity : Identity) : Result PrivateKeyMaterial := do
  ensure (identity.format = none ∧ identity.kdf = none ∧ identity.encryptedPrivateKeys = none)
    "unsupported or malformed identity format"
  let signingSeed ← okOr identity.signingSeed (.message "legacy identity missing signing_seed")
  let encryptionSecret ←
    okOr identity.encryptionSecret (.message "legacy identity missing encryption_secret")
  return { signingSeed, encryptionSecret }

def unlockMaterial (identity : Identity) (passphrase : Option String) :
    Result PrivateKeyMaterial := do
  ensure (identity.signingSeed = none ∧ identity.encryptionSecret = none)
    "encrypted identity must not contain plaintext private keys"
  let passphrase ← okOr passphrase (.message "encrypted identity requires a passphrase")
  let kdf ← okOr identity.kdf (.message "encrypted identity missing KDF parameters")
  let encrypted ← okOr identity.encryptedPrivateKeys
    (.message "encrypted identity missing private-key ciphertext")
  ensure (encrypted.algorithm = identityCipher) "unsupported identity cipher"
  let nonce ← decodeFixed 24 encrypted.nonce "identity nonce"
  let ciphertext ← okOr (hexDecode encrypted.ciphertext) .hex
  let key ← deriveIdentityKey C passphrase kdf
  let plaintext ← okOr (C.decrypt key nonce (associatedData identity) ciphertext)
    (.message "unable to unlock identity (wrong passphrase or corrupted keyfile)")
  okOr (J.parseMaterial plaintext)
    (.message "encrypted identity contains invalid private-key material")

def storedMaterial (identity : Identity) (passphrase : Option String) :
    Result PrivateKeyMaterial :=
  if isEncrypted identity then unlockMaterial C J identity passphrase
  else legacyMaterial identity

def privateKeyMaterial (identity : Identity) (passphrase : Option String) :
    Result PrivateKeyMaterial := do
  let material ← storedMaterial C J identity passphrase
  validatePrivateKeys C identity material
  return material

def signingKey (identity : Identity) (passphrase : Option String) : Result Seed := do
  let material ← privateKeyMaterial C J identity passphrase
  decodeFixed 32 material.signingSeed "signing_seed"

def encryptionSecret (identity : Identity) (passphrase : Option String) : Result Key := do
  let material ← privateKeyMaterial C J identity passphrase
  decodeFixed 32 material.encryptionSecret "encryption_secret"

def encryptionPublic (identity : Identity) : Result PublicKey :=
  decodeFixed 32 identity.encryptionPublicKey "encryption_public_key"

/-- The random bytes that `Identity::generate` draws, in order. -/
structure IdentityRandom where
  signingSeed : Seed
  encryptionSecret : Key
  salt : FixedBytes 16
  nonce : Nonce

def blank (name : String) (random : IdentityRandom) : Identity where
  format := some identityFormat
  name := name
  signingSeed := none
  signingPublicKey := hexEncode (C.verifyingKey random.signingSeed).val
  encryptionSecret := none
  encryptionPublicKey := hexEncode (C.x25519Public random.encryptionSecret).val
  kdf := some
    { algorithm := identityKdf
      version := argon2Version
      memoryKib := argon2MemoryKib
      iterations := argon2Iterations
      parallelism := argon2Parallelism
      salt := hexEncode random.salt.val }
  encryptedPrivateKeys := none

def IdentityRandom.material (random : IdentityRandom) : PrivateKeyMaterial where
  signingSeed := hexEncode random.signingSeed.val
  encryptionSecret := hexEncode random.encryptionSecret.val

def generate (name passphrase : String) (random : IdentityRandom) : Result Identity := do
  ensure (passphrase ≠ "") "identity passphrase must not be empty"
  let identity := blank C name random
  let kdf ← okOr identity.kdf (.message "unreachable")
  let key ← deriveIdentityKey C passphrase kdf
  let ciphertext ← encrypt C key random.nonce (associatedData identity)
    (J.materialBytes random.material)
  return { identity with
    encryptedPrivateKeys := some
      { algorithm := identityCipher
        nonce := hexEncode random.nonce.val
        ciphertext := hexEncode ciphertext } }

/-- Where a passphrase can come from: the file of `--passphrase-file`, the variable
`QCAP_KEY_PASSPHRASE`, and two prompts when the standard input is a terminal. -/
structure PassphraseSource where
  file : Option (Result String)
  environment : Option String
  prompts : Option (Result String × Result String)

def trimLineEnd (s : String) : String :=
  String.ofList (s.toList.reverse.dropWhile fun c => c = '\r' || c = '\n').reverse

def askPassphrase (source : PassphraseSource) (confirm : Bool) : Result String :=
  match source.prompts with
  | none => .error (.message
      "identity passphrase required; use --passphrase-file or QCAP_KEY_PASSPHRASE")
  | some (first, second) => do
    let value ← first
    if confirm then
      let confirmation ← second
      ensure (value = confirmation) "identity passphrases do not match"
    return value

def readPassphrase (source : PassphraseSource) (confirm : Bool) : Result String := do
  let passphrase ← match source.file, source.environment with
    | some file, _ => trimLineEnd <$> file
    | none, some value => .ok value
    | none, none => askPassphrase source confirm
  ensure (passphrase ≠ "") "identity passphrase must not be empty"
  return passphrase

def identityPassphrase (identity : Identity) (source : PassphraseSource) :
    Result (Option String) :=
  if isEncrypted identity then some <$> readPassphrase source false else .ok none

theorem validatePrivateKeys_ok {identity : Identity} {material : PrivateKeyMaterial} :
    validatePrivateKeys C identity material = .ok () ↔ ∃ (seed : Seed) (secret : Key),
      decodeFixed 32 material.signingSeed "signing_seed" = .ok seed ∧
      hexEncode (C.verifyingKey seed).val = identity.signingPublicKey ∧
      decodeFixed 32 material.encryptionSecret "encryption_secret" = .ok secret ∧
      hexEncode (C.x25519Public secret).val = identity.encryptionPublicKey := by
  simp only [validatePrivateKeys, bind_ok, ensure_ok]
  constructor
  · rintro ⟨seed, hs, -, hv, secret, he, hp⟩
    exact ⟨seed, secret, hs, hv, he, hp⟩
  · rintro ⟨seed, secret, hs, hv, he, hp⟩
    exact ⟨seed, hs, (), hv, secret, he, hp⟩

theorem privateKeyMaterial_validated {identity : Identity} {passphrase : Option String}
    {material : PrivateKeyMaterial}
    (h : privateKeyMaterial C J identity passphrase = .ok material) :
    validatePrivateKeys C identity material = .ok () := by
  simp only [privateKeyMaterial, bind_ok] at h
  obtain ⟨m, _, _, hv, hm⟩ := h
  cases hm
  exact hv

theorem encryptionSecret_ok {identity : Identity} {passphrase : Option String} {secret : Key}
    (h : encryptionSecret C J identity passphrase = .ok secret) :
    hexEncode (C.x25519Public secret).val = identity.encryptionPublicKey := by
  simp only [Identity.encryptionSecret, bind_ok] at h
  obtain ⟨material, hm, hd⟩ := h
  obtain ⟨-, secret', -, -, he, hp⟩ :=
    (validatePrivateKeys_ok C).mp (privateKeyMaterial_validated C J hm)
  rw [he] at hd
  cases hd
  exact hp

theorem signingKey_ok {identity : Identity} {passphrase : Option String} {seed : Seed}
    (h : signingKey C J identity passphrase = .ok seed) :
    hexEncode (C.verifyingKey seed).val = identity.signingPublicKey := by
  simp only [Identity.signingKey, bind_ok] at h
  obtain ⟨material, hm, hd⟩ := h
  obtain ⟨seed', -, hs, hv, -⟩ :=
    (validatePrivateKeys_ok C).mp (privateKeyMaterial_validated C J hm)
  rw [hs] at hd
  cases hd
  exact hv

theorem generate_ok {name passphrase : String} {random : IdentityRandom} {identity : Identity}
    (h : generate C J name passphrase random = .ok identity) :
    passphrase ≠ "" ∧ ∃ kdf key ciphertext, (blank C name random).kdf = some kdf ∧
      deriveIdentityKey C passphrase kdf = .ok key ∧
      encrypt C key random.nonce (associatedData (blank C name random))
        (J.materialBytes random.material) = .ok ciphertext ∧
      identity = { blank C name random with
        encryptedPrivateKeys := some
          { algorithm := identityCipher
            nonce := hexEncode random.nonce.val
            ciphertext := hexEncode ciphertext } } := by
  simp only [generate, bind_ok, ensure_ok, okOr_ok] at h
  obtain ⟨-, hne, kdf, hk, key, hkey, ciphertext, hc, hi⟩ := h
  cases hi
  exact ⟨hne, kdf, key, ciphertext, hk, hkey, hc, rfl⟩

/-- The cipher decrypts what `generate` encrypts. -/
def GeneratedOpens (name passphrase : String) (random : IdentityRandom) : Prop :=
  ∀ kdf key ciphertext, (blank C name random).kdf = some kdf →
    deriveIdentityKey C passphrase kdf = .ok key →
      C.encrypt key random.nonce (associatedData (blank C name random))
        (J.materialBytes random.material) = some ciphertext →
      C.decrypt key random.nonce (associatedData (blank C name random)) ciphertext =
        some (J.materialBytes random.material)

theorem generatedOpens (hC : AeadCorrect C) (name passphrase : String) (random : IdentityRandom) :
    GeneratedOpens C J name passphrase random :=
  fun _ key ciphertext _ _ hc => hC key random.nonce _ _ ciphertext hc

def respellNonce (identity : Identity) (text : String) : Identity :=
  { identity with
    encryptedPrivateKeys := identity.encryptedPrivateKeys.map fun e => { e with nonce := text } }

theorem privateKeyMaterial_respelled {name passphrase text : String} {random : IdentityRandom}
    {identity : Identity} (hC : GeneratedOpens C J name passphrase random)
    (hJ : J.parseMaterial (J.materialBytes random.material) = some random.material)
    (h : generate C J name passphrase random = .ok identity)
    (ht : decodeFixed 24 text "identity nonce" = .ok random.nonce) :
    privateKeyMaterial C J (respellNonce identity text) (some passphrase) =
      .ok random.material := by
  obtain ⟨-, kdf, key, ciphertext, hk, hkey, hc, rfl⟩ := generate_ok C J h
  have hd := hC kdf key ciphertext hk hkey (okOr_ok.mp hc)
  set altered := respellNonce { blank C name random with
    encryptedPrivateKeys := some
      { algorithm := identityCipher
        nonce := hexEncode random.nonce.val
        ciphertext := hexEncode ciphertext } } text
  have hunlock : unlockMaterial C J altered (some passphrase) = .ok random.material := by
    simp only [unlockMaterial, bind_ok, ensure_ok, okOr_ok]
    exact ⟨(), ⟨rfl, rfl⟩, passphrase, rfl, kdf, hk, _, rfl, (), rfl, random.nonce, ht,
      ciphertext, hexDecode_hexEncode _, key, hkey, _, hd, hJ⟩
  have hvalid : validatePrivateKeys C altered random.material = .ok () :=
    (validatePrivateKeys_ok C).mpr ⟨random.signingSeed, random.encryptionSecret,
      decodeFixed_hexEncode _ _, rfl, decodeFixed_hexEncode _ _, rfl⟩
  simp only [privateKeyMaterial, bind_ok]
  refine ⟨random.material, ?_, (), hvalid, rfl⟩
  exact hunlock

/-- A generated identity opens with the passphrase it was made with. -/
theorem privateKeyMaterial_generate {name passphrase : String} {random : IdentityRandom}
    {identity : Identity} (hC : GeneratedOpens C J name passphrase random)
    (hJ : J.parseMaterial (J.materialBytes random.material) = some random.material)
    (h : generate C J name passphrase random = .ok identity) :
    privateKeyMaterial C J identity (some passphrase) = .ok random.material := by
  have hsame : respellNonce identity (hexEncode random.nonce.val) = identity := by
    obtain ⟨-, _, _, _, -, -, -, rfl⟩ := generate_ok C J h
    rfl
  rw [← hsame]
  exact privateKeyMaterial_respelled C J hC hJ h (decodeFixed_hexEncode _ _)

theorem encryptionSecret_generate (hC : AeadCorrect C) {name passphrase : String}
    {random : IdentityRandom} {identity : Identity}
    (hJ : J.parseMaterial (J.materialBytes random.material) = some random.material)
    (h : generate C J name passphrase random = .ok identity) :
    encryptionSecret C J identity (some passphrase) = .ok random.encryptionSecret := by
  simp only [Identity.encryptionSecret, bind_ok]
  exact ⟨_, privateKeyMaterial_generate C J (generatedOpens C J hC _ _ _) hJ h,
    decodeFixed_hexEncode _ _⟩

def legacyIdentity (name : String) (seed : Seed) (secret : Key) : Identity where
  format := none
  name := name
  signingSeed := some (hexEncode seed.val)
  signingPublicKey := hexEncode (C.verifyingKey seed).val
  encryptionSecret := some (hexEncode secret.val)
  encryptionPublicKey := hexEncode (C.x25519Public secret).val
  kdf := none
  encryptedPrivateKeys := none

theorem privateKeyMaterial_legacy (name : String) (seed : Seed) (secret : Key)
    (passphrase : Option String) :
    privateKeyMaterial C J (legacyIdentity C name seed secret) passphrase =
      .ok ⟨hexEncode seed.val, hexEncode secret.val⟩ := by
  simp only [privateKeyMaterial, bind_ok]
  refine ⟨⟨hexEncode seed.val, hexEncode secret.val⟩, rfl, (), ?_, rfl⟩
  exact (validatePrivateKeys_ok C).mpr ⟨seed, secret, decodeFixed_hexEncode _ _, rfl,
    decodeFixed_hexEncode _ _, rfl⟩

/-- Legacy plaintext identities remain readable, with any passphrase. -/
theorem signingKey_legacy (name : String) (seed : Seed) (secret : Key)
    (passphrase : Option String) :
    signingKey C J (legacyIdentity C name seed secret) passphrase = .ok seed := by
  simp only [signingKey, bind_ok]
  exact ⟨_, privateKeyMaterial_legacy C J name seed secret passphrase, decodeFixed_hexEncode _ _⟩

def issuerFile : Identity := legacyIdentity toy "issuer" signerKey (pad 32 [9])

def noPassphrase : PassphraseSource := ⟨none, none, none⟩

end QCap.Identity
