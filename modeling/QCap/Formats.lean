import QCap.Text

/-!
# Document formats

The serde structures of the archive, token, revocation and identity documents, with the
field order and the defaults of the writers. Turning documents into bytes and back is the
work of `serde_json`, which is a record of functions with its documented behaviour as laws.
-/
namespace QCap.Formats

open QCap.Text

inductive Value where
  | null
  | bool (b : Bool)
  | number (literal : String)
  | string (s : String)
  | array (items : List Value)
  | object (members : List (String × Value))

structure PayloadFile where
  path : String
  size : ℕ
  nonce : String
  ciphertextHash : String
  deriving DecidableEq, Repr

structure RecipientStanza where
  recipient : String
  ephemeralPublicKey : String
  nonce : String
  wrappedKey : String
  algorithm : String
  deriving DecidableEq, Repr

structure QcapManifest where
  schemaVersion : String
  merkleRoot : String
  issuer : Option String
  createdAt : String
  metadata : Value
  packageId : Option String
  encrypted : Bool
  files : List PayloadFile
  recipients : List RecipientStanza
  algorithms : List String

structure QcapSignatureBundle where
  merkleRoot : String
  signature : String
  publicKey : String
  algorithm : String
  deriving DecidableEq, Repr

structure CapabilityToken where
  capRoot : String
  allow : String
  expires : String
  signature : String
  publicKey : String
  algorithm : String
  deriving DecidableEq, Repr

structure RevocationEntry where
  capRoot : String
  capabilitySignature : String
  revokedAt : String
  reason : String
  deriving DecidableEq, Repr

structure RevocationList where
  schemaVersion : String
  revoked : List RevocationEntry
  signature : String
  publicKey : String
  algorithm : String
  deriving DecidableEq, Repr

structure IdentityKdf where
  algorithm : String
  version : ℕ
  memoryKib : ℕ
  iterations : ℕ
  parallelism : ℕ
  salt : String
  deriving DecidableEq, Repr

structure EncryptedPrivateKeys where
  algorithm : String
  nonce : String
  ciphertext : String
  deriving DecidableEq, Repr

structure PrivateKeyMaterial where
  signingSeed : String
  encryptionSecret : String
  deriving DecidableEq, Repr

structure Identity where
  format : Option String
  name : String
  signingSeed : Option String
  signingPublicKey : String
  encryptionSecret : Option String
  encryptionPublicKey : String
  kdf : Option IdentityKdf
  encryptedPrivateKeys : Option EncryptedPrivateKeys
  deriving DecidableEq, Repr

/-- `unix_timestamp` and `rfc3339_now`: seconds since the epoch. -/
def unixSeconds (now : ℕ) : String := "unix-seconds:" ++ toString now

def QcapManifest.new (schemaVersion merkleRoot : String) (issuer : Option String)
    (createdAt : String) (metadata : Value) : QcapManifest where
  schemaVersion := schemaVersion
  merkleRoot := merkleRoot
  issuer := issuer
  createdAt := createdAt
  metadata := metadata
  packageId := none
  encrypted := false
  files := []
  recipients := []
  algorithms := []

def QcapManifest.newWithNow (schemaVersion merkleRoot : String) (issuer : Option String)
    (metadata : Value) (now : ℕ) : QcapManifest :=
  QcapManifest.new schemaVersion merkleRoot issuer (unixSeconds now) metadata

def QcapManifest.newSealed (schemaVersion packageId merkleRoot : String) (issuer : Option String)
    (metadata : Value) (files : List PayloadFile) (recipients : List RecipientStanza)
    (now : ℕ) : QcapManifest where
  schemaVersion := schemaVersion
  merkleRoot := merkleRoot
  issuer := issuer
  createdAt := unixSeconds now
  metadata := metadata
  packageId := some packageId
  encrypted := true
  files := files
  recipients := recipients
  algorithms :=
    ["xchacha20poly1305:file", "x25519-blake3-xchacha20poly1305:keywrap", "ed25519:signature"]

/-- `serde_json` at the types that are written and read. -/
structure JsonCodec where
  manifestBytes : QcapManifest → Bytes
  parseManifest : Bytes → Option QcapManifest
  bundleBytes : QcapSignatureBundle → Bytes
  parseBundle : Bytes → Option QcapSignatureBundle
  materialBytes : PrivateKeyMaterial → Bytes
  parseMaterial : Bytes → Option PrivateKeyMaterial
  parseIdentity : Bytes → Option Identity

def isJsonSpace (b : UInt8) : Bool := b = 32 || b = 9 || b = 10 || b = 13

def firstByte (document : Bytes) : Option UInt8 := (document.dropWhile isJsonSpace).head?

/-- Serialised structures are JSON objects. -/
def JsonCodec.WritesObjects (J : JsonCodec) : Prop :=
  ∀ m, firstByte (J.manifestBytes m) = some 123

/-- A structure is read from a JSON object, or from an array of its fields in order. -/
def JsonCodec.ReadsObjects (J : JsonCodec) : Prop :=
  ∀ document m, J.parseManifest document = some m →
    firstByte document = some 123 ∨ firstByte document = some 91

theorem firstByte_text {p : String} {b : UInt8} (hp : (asBytes p).head? = some b)
    (hb : isJsonSpace b = false) (rest : String) :
    firstByte (asBytes (p ++ rest)) = some b := by
  obtain ⟨bs, hbs⟩ := List.head?_eq_some_iff.mp hp
  simp [firstByte, hbs, hb]

end QCap.Formats
