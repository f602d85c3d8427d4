import QCap.Identity
import QCap.SerdeDocuments

/-!
# Encrypted key files

The private keys of a key file are encrypted under its passphrase, with its name and its
public keys as associated data. Whoever changes a file without the passphrase can not change
what it stands for: it unlocks as it was generated, or not at all. The private keys are a
document of `serde_json`.
-/
namespace QCap.Keyfiles

open QCap.Text QCap.Crypto QCap.Formats QCap.Json QCap.JsonReader QCap.SerdeDocuments
  QCap.Identity

variable (C : Primitives) (J : JsonCodec)

def materialNames : List String := ["signing_seed", "encryption_secret"]

def decodeMaterial (node : Node) : Option PrivateKeyMaterial := do
  match ← textFields materialNames node with
  | [signingSeed, encryptionSecret] => some ⟨signingSeed, encryptionSecret⟩
  | _ => none

def readMaterial (document : Bytes) : Option PrivateKeyMaterial :=
  readDocument document >>= decodeMaterial

theorem readMaterial_materialBytes (material : PrivateKeyMaterial) :
    readMaterial (materialBytes material) = some material := by
  have hv : Valid (.object [("signing_seed", .string material.signingSeed),
      ("encryption_secret", .string material.encryptionSecret)]) := by
    simp [Valid, ValidMembers]
  have hfields : structFields materialNames (rawValue (.object
      [("signing_seed", .string material.signingSeed),
        ("encryption_secret", .string material.encryptionSecret)])) =
      some [rawValue (.string material.signingSeed),
        rawValue (.string material.encryptionSecret)] := by
    rw [structFields_object]
    rfl
  rw [readMaterial, materialBytes, readDocument_render false hv]
  simp [decodeMaterial, textFields, hfields]

/-- Private keys are written and read by `serde_json`. -/
def serdeMaterial : JsonCodec :=
  { J with materialBytes := materialBytes, parseMaterial := readMaterial }

/-- The text between two NUL bytes may itself contain them. -/
example : associatedData { issuerFile with name := "a\x00b", signingPublicKey := "c" } =
    associatedData { issuerFile with name := "a", signingPublicKey := "b\x00c" } := by
  decide

/-- The cipher is authentic for the keys of one passphrase: nothing decrypts under them but
what `identity` carries, with the key, nonce and associated data that belong to it. -/
def Authentic (passphrase : String) (identity : Identity) : Prop :=
  ∀ kdf key nonce aad ciphertext plaintext, deriveIdentityKey C passphrase kdf = .ok key →
    C.decrypt key nonce aad ciphertext = some plaintext →
      ∃ kdf₀ encrypted₀, identity.kdf = some kdf₀ ∧
        identity.encryptedPrivateKeys = some encrypted₀ ∧
        deriveIdentityKey C passphrase kdf₀ = .ok key ∧
        encrypted₀.nonce = hexEncode nonce.val ∧ aad = associatedData identity ∧
        encrypted₀.ciphertext = hexEncode ciphertext

theorem associatedData_name {identity altered : Identity}
    (h : associatedData altered = associatedData identity)
    (hs : altered.signingPublicKey = identity.signingPublicKey)
    (he : altered.encryptionPublicKey = identity.encryptionPublicKey) :
    altered.name = identity.name := by
  have ht := asBytes_injective h
  rw [hs, he] at ht
  have ht := (String.append_left_inj _).mp ht
  have ht := (String.append_left_inj _).mp ht
  have ht := (String.append_left_inj _).mp ht
  have ht := (String.append_left_inj _).mp ht
  exact (String.append_right_inj _).mp ht

theorem unlockMaterial_ok {identity : Identity} {passphrase : String}
    {material : PrivateKeyMaterial}
    (h : unlockMaterial C J identity (some passphrase) = .ok material) :
    ∃ kdf key nonce ciphertext plaintext, deriveIdentityKey C passphrase kdf = .ok key ∧
      C.decrypt key nonce (associatedData identity) ciphertext = some plaintext ∧
      J.parseMaterial plaintext = some material := by
  simp only [unlockMaterial, bind_ok, okOr_ok] at h
  obtain ⟨-, -, p, hp, kdf, -, encrypted, -, -, -, nonce, -, ciphertext, -, key, hkey,
    plaintext, hd, hm⟩ := h
  cases hp
  exact ⟨kdf, key, nonce, ciphertext, plaintext, hkey, hd, hm⟩

theorem deriveIdentityKey_blank {name passphrase : String} {random : IdentityRandom} {key : Key}
    {kdf : IdentityKdf} (hk : (blank C name random).kdf = some kdf) :
    deriveIdentityKey C passphrase kdf = .ok key ↔
      C.argon2id argon2MemoryKib argon2Iterations argon2Parallelism (asBytes passphrase)
        random.salt.val = some key := by
  cases hk
  have hlimits : (8 * 1024 ≤ argon2MemoryKib ∧ argon2MemoryKib ≤ 1024 * 1024) ∧
      (1 ≤ argon2Iterations ∧ argon2Iterations ≤ 10) ∧
      (1 ≤ argon2Parallelism ∧ argon2Parallelism ≤ 16) := by decide
  have hsalt := random.salt.property
  simp only [deriveIdentityKey, bind_ok, ensure_ok, okOr_ok, hexDecode_hexEncode]
  constructor
  · rintro ⟨-, -, -, -, salt, hs, -, -, h⟩
    cases hs
    exact h
  · intro h
    exact ⟨(), ⟨trivial, trivial⟩, (), hlimits, _, rfl, (), hsalt, h⟩

theorem generate_succeeds {name passphrase : String} {random : IdentityRandom} {key : Key}
    (hp : passphrase ≠ "")
    (hk : C.argon2id argon2MemoryKib argon2Iterations argon2Parallelism (asBytes passphrase)
      random.salt.val = some key)
    (hc : (C.encrypt key random.nonce (associatedData (blank C name random))
      (J.materialBytes random.material)).isSome) :
    ∃ identity, generate C J name passphrase random = .ok identity := by
  obtain ⟨ciphertext, hc⟩ := Option.isSome_iff_exists.mp hc
  obtain ⟨kdf, hkdf⟩ : ∃ kdf, (blank C name random).kdf = some kdf := ⟨_, rfl⟩
  refine ⟨{ blank C name random with
    encryptedPrivateKeys := some
      { algorithm := identityCipher
        nonce := hexEncode random.nonce.val
        ciphertext := hexEncode ciphertext } }, ?_⟩
  simp only [generate, bind_ok, ensure_ok, okOr_ok]
  exact ⟨(), hp, kdf, hkdf, key, (deriveIdentityKey_blank C hkdf).mpr hk, ciphertext,
    okOr_ok.mpr hc, rfl⟩

structure Unlocks (identity : Identity) (passphrase : String) (random : IdentityRandom) :
    Prop where
  material : privateKeyMaterial C J identity (some passphrase) = .ok random.material
  signing : signingKey C J identity (some passphrase) = .ok random.signingSeed
  encryption : encryptionSecret C J identity (some passphrase) = .ok random.encryptionSecret

theorem unlocks_of_material {identity : Identity} {passphrase : String} {random : IdentityRandom}
    (h : privateKeyMaterial C J identity (some passphrase) = .ok random.material) :
    Unlocks C J identity passphrase random where
  material := h
  signing := by
    simp only [Identity.signingKey, bind_ok]
    exact ⟨_, h, decodeFixed_hexEncode _ _⟩
  encryption := by
    simp only [Identity.encryptionSecret, bind_ok]
    exact ⟨_, h, decodeFixed_hexEncode _ _⟩

/-- The private keys pin the public ones, whatever the file says of them. -/
theorem publicKeys_of_material {identity : Identity} {random : IdentityRandom}
    (h : validatePrivateKeys C identity random.material = .ok ()) :
    identity.signingPublicKey = hexEncode (C.verifyingKey random.signingSeed).val ∧
      identity.encryptionPublicKey =
        hexEncode (C.x25519Public random.encryptionSecret).val := by
  obtain ⟨seed, secret, hseed, hsigning, hsecret, hencryption⟩ := (validatePrivateKeys_ok C).mp h
  rw [show random.material.signingSeed = hexEncode random.signingSeed.val from rfl,
    decodeFixed_hexEncode] at hseed
  rw [show random.material.encryptionSecret = hexEncode random.encryptionSecret.val from rfl,
    decodeFixed_hexEncode] at hsecret
  cases hseed
  cases hsecret
  exact ⟨hsigning.symm, hencryption.symm⟩

structure Unaltered (altered identity : Identity) : Prop where
  name : altered.name = identity.name
  signing_public_key : altered.signingPublicKey = identity.signingPublicKey
  encryption_public_key : altered.encryptionPublicKey = identity.encryptionPublicKey

theorem unlocked_unaltered {name passphrase : String} {random : IdentityRandom}
    {identity altered : Identity} {material : PrivateKeyMaterial}
    (hC : GeneratedOpens C J name passphrase random)
    (hJ : J.parseMaterial (J.materialBytes random.material) = some random.material)
    (h : generate C J name passphrase random = .ok identity)
    (ha : Authentic C passphrase identity) (he : isEncrypted altered = true)
    (hm : privateKeyMaterial C J altered (some passphrase) = .ok material) :
    Unaltered altered identity ∧ material = random.material := by
  have hvalid := privateKeyMaterial_validated C J hm
  simp only [privateKeyMaterial, storedMaterial, he, if_true, bind_ok] at hm
  obtain ⟨m, hunlock, -, -, hm⟩ := hm
  cases hm
  obtain ⟨kdf, key, nonce, ciphertext, plaintext, hkey, hd, hparse⟩ := unlockMaterial_ok C J hunlock
  obtain ⟨-, kdf₁, key₁, ciphertext₁, hk₁, hkey₁, hc₁, rfl⟩ := generate_ok C J h
  obtain ⟨kdf₀, encrypted₀, hk₀, he₀, hkey₀, hnonce, haad, hcipher⟩ :=
    ha _ _ _ _ _ _ hkey hd
  -- what decrypts is the ciphertext of the generated file
  cases he₀
  cases hk₀.symm.trans hk₁
  cases hkey₀.symm.trans hkey₁
  have hn : nonce = random.nonce := Subtype.ext (hexEncode_injective hnonce.symm)
  have hc : ciphertext = ciphertext₁ := hexEncode_injective hcipher.symm
  rw [hn, hc, haad] at hd
  have hplain : plaintext = J.materialBytes random.material :=
    Option.some.inj (hd.symm.trans (hC _ _ _ hk₁ hkey₁ (okOr_ok.mp hc₁)))
  rw [hplain, hJ] at hparse
  cases hparse
  obtain ⟨hs, hx⟩ := publicKeys_of_material C hvalid
  exact ⟨⟨associatedData_name haad hs hx, hs, hx⟩, rfl⟩

/-- A generated key file unlocks to what was generated, and so does every altered one that
still unlocks, under its own name and keys. -/
theorem keyfile_unlocks_unaltered {name passphrase : String} {random : IdentityRandom}
    {identity : Identity} (hC : GeneratedOpens C (serdeMaterial J) name passphrase random)
    (h : generate C (serdeMaterial J) name passphrase random = .ok identity) :
    Unlocks C (serdeMaterial J) identity passphrase random ∧
      (Authentic C passphrase identity → ∀ altered material, isEncrypted altered = true →
        privateKeyMaterial C (serdeMaterial J) altered (some passphrase) = .ok material →
          Unaltered altered identity ∧ material = random.material ∧
            Unlocks C (serdeMaterial J) altered passphrase random) := by
  have hJ : (serdeMaterial J).parseMaterial ((serdeMaterial J).materialBytes random.material) =
      some random.material := readMaterial_materialBytes random.material
  constructor
  · exact unlocks_of_material C _ (privateKeyMaterial_generate C _ hC hJ h)
  · intro ha altered material he hm
    obtain ⟨hsame, rfl⟩ := unlocked_unaltered C _ hC hJ h ha he hm
    exact ⟨hsame, rfl, unlocks_of_material C _ hm⟩

theorem generate_encrypted {name passphrase : String} {random : IdentityRandom}
    {identity : Identity} (h : generate C J name passphrase random = .ok identity) :
    isEncrypted identity = true := by
  obtain ⟨-, _, _, _, -, -, -, rfl⟩ := generate_ok C J h
  rfl

/-- The toy cipher, but it encrypts one plaintext only, and decrypts that. -/
def toyOnce (key : Key) (nonce : Nonce) (aad plaintext : Bytes) : Primitives :=
  { toy with
    encrypt := fun k n a p =>
      if k = key ∧ n = nonce ∧ a = aad ∧ p = plaintext then toy.encrypt k n a p else none
    decrypt := fun k n a c =>
      if k = key ∧ n = nonce ∧ a = aad then
        if toy.encrypt key nonce aad plaintext = some c then some plaintext else none
      else none }

def sampleRandom : IdentityRandom := ⟨signerKey, pad 32 [9], pad 16 [1], pad 24 [171]⟩

def sampleKey (passphrase : String) : Key :=
  toyHash (asBytes passphrase ++ sampleRandom.salt.val)

def sampleScheme (name passphrase : String) : Primitives :=
  toyOnce (sampleKey passphrase) sampleRandom.nonce (associatedData (blank toy name sampleRandom))
    (materialBytes sampleRandom.material)

theorem sampleScheme_authentic {name passphrase : String} {identity : Identity}
    (h : generate (sampleScheme name passphrase) (serdeMaterial J) name passphrase sampleRandom =
      .ok identity) : Authentic (sampleScheme name passphrase) passphrase identity := by
  obtain ⟨-, kdf₀, key₀, ciphertext₀, hk, hkey, hc, rfl⟩ := generate_ok _ _ h
  intro kdf key nonce aad ciphertext plaintext _ hd
  have hkey₀ : key₀ = sampleKey passphrase :=
    (Option.some.inj ((deriveIdentityKey_blank _ hk).mp hkey)).symm
  simp only [sampleScheme, toyOnce] at hd
  split at hd
  · rename_i hsame
    obtain ⟨rfl, rfl, rfl⟩ := hsame
    split at hd
    · rename_i hcipher
      have hc := okOr_ok.mp hc
      rw [hkey₀] at hkey hc
      have hsame : ciphertext = ciphertext₀ := by
        refine Option.some.inj (hcipher.symm.trans ?_)
        rw [← hc]
        exact (if_pos ⟨rfl, rfl, rfl, rfl⟩).symm
      exact ⟨kdf₀, _, hk, rfl, hkey, rfl, rfl, by rw [hsame]⟩
    · cases hd
  · cases hd

def sampleCodec : JsonCodec := serdeMaterial (documentCodec [] [] [])

theorem sampleScheme_generate (name : String) {passphrase : String} (hp : passphrase ≠ "") :
    ∃ identity, generate (sampleScheme name passphrase) sampleCodec name passphrase sampleRandom =
      .ok identity := by
  refine generate_succeeds (sampleScheme name passphrase) sampleCodec hp
    (rfl : _ = some (sampleKey passphrase)) ?_
  have hhonest : (sampleScheme name passphrase).encrypt (sampleKey passphrase) sampleRandom.nonce
      (associatedData (blank toy name sampleRandom)) (materialBytes sampleRandom.material) =
        toy.encrypt (sampleKey passphrase) sampleRandom.nonce
          (associatedData (blank toy name sampleRandom)) (materialBytes sampleRandom.material) :=
    if_pos ⟨rfl, rfl, rfl, rfl⟩
  exact Option.isSome_iff_exists.mpr ⟨_, hhonest⟩

theorem sampleScheme_opens (name passphrase : String) :
    GeneratedOpens (sampleScheme name passphrase) sampleCodec name passphrase sampleRandom := by
  intro kdf key ciphertext hk hkey hc
  have hkey₀ : key = sampleKey passphrase :=
    (Option.some.inj ((deriveIdentityKey_blank _ hk).mp hkey)).symm
  subst hkey₀
  have hhonest : toy.encrypt (sampleKey passphrase) sampleRandom.nonce
      (associatedData (blank toy name sampleRandom)) (materialBytes sampleRandom.material) =
        some ciphertext := (if_pos ⟨rfl, rfl, rfl, rfl⟩).symm.trans hc
  exact (if_pos ⟨rfl, rfl, rfl⟩).trans (if_pos hhonest)

def sampleNonce : String := "AB0000000000000000000000000000000000000000000000"

/-- A file that was altered and still unlocks. -/
theorem keyfile_unlocks_unaltered_sample :
    ∃ identity, generate (sampleScheme "alice" "horse") sampleCodec "alice" "horse" sampleRandom =
        .ok identity ∧
      Unlocks (sampleScheme "alice" "horse") sampleCodec identity "horse" sampleRandom ∧
      respellNonce identity sampleNonce ≠ identity ∧
      Unaltered (respellNonce identity sampleNonce) identity ∧
      Unlocks (sampleScheme "alice" "horse") sampleCodec (respellNonce identity sampleNonce)
        "horse" sampleRandom := by
  have hp : "horse" ≠ "" := by decide
  obtain ⟨identity, h⟩ := sampleScheme_generate "alice" hp
  have hnonce : decodeFixed 24 sampleNonce "identity nonce" = .ok sampleRandom.nonce := by
    decide +kernel
  have hJ : sampleCodec.parseMaterial (sampleCodec.materialBytes sampleRandom.material) =
      some sampleRandom.material := readMaterial_materialBytes sampleRandom.material
  have hencrypted : isEncrypted identity = true := generate_encrypted _ _ h
  obtain ⟨hunlocks, haltered⟩ :=
    keyfile_unlocks_unaltered _ (documentCodec [] [] []) (sampleScheme_opens "alice" "horse") h
  obtain ⟨hsame, -, hrespelled⟩ := haltered (sampleScheme_authentic _ h)
    (respellNonce identity sampleNonce) _ hencrypted
    (privateKeyMaterial_respelled _ _ (sampleScheme_opens "alice" "horse") hJ h hnonce)
  refine ⟨identity, h, hunlocks, ?_, hsame, hrespelled⟩
  intro he
  obtain ⟨-, _, _, _, -, -, -, rfl⟩ := generate_ok _ _ h
  have hkeys := congrArg (fun i => i.encryptedPrivateKeys.map EncryptedPrivateKeys.nonce) he
  have hother : sampleNonce ≠ hexEncode sampleRandom.nonce.val := by decide +kernel
  exact hother (Option.some.inj hkeys)

end QCap.Keyfiles
