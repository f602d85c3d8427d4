import QCap.Text

/-!
# Cryptographic libraries

The dalek, chacha20poly1305, blake3 and argon2 crates and Go's `crypto` packages are a
record of functions. Nothing is assumed of them here: what a result relies on is one of the
named laws below, or a statement about the strings that its own run hashes or signs.
-/
namespace QCap.Crypto

open QCap.Text

abbrev Digest := FixedBytes 32
abbrev Key := FixedBytes 32
abbrev Nonce := FixedBytes 24
abbrev Seed := FixedBytes 32
abbrev PublicKey := FixedBytes 32
abbrev Signature := FixedBytes 64

/-- Encryption and key derivation are fallible in the library interfaces. -/
structure Primitives where
  blake3 : Bytes → Digest
  sha256 : Bytes → Digest
  verifyingKey : Seed → PublicKey
  isVerifyingKey : PublicKey → Bool
  sign : Seed → Bytes → Signature
  verify : PublicKey → Bytes → Signature → Bool
  encrypt : Key → Nonce → Bytes → Bytes → Option Bytes
  decrypt : Key → Nonce → Bytes → Bytes → Option Bytes
  x25519Public : Key → PublicKey
  diffieHellman : Key → PublicKey → Key
  argon2id : ℕ → ℕ → ℕ → Bytes → Bytes → Option Key

variable (C : Primitives)

def SignsCorrectly (seed : Seed) (message : Bytes) : Prop :=
  C.isVerifyingKey (C.verifyingKey seed) = true ∧
    C.verify (C.verifyingKey seed) message (C.sign seed message) = true

def SignatureCorrect : Prop := ∀ seed message, SignsCorrectly C seed message

/-- XChaCha20-Poly1305 decryption inverts encryption under the same nonce and data. -/
def AeadCorrect : Prop :=
  ∀ key nonce aad plaintext ciphertext, C.encrypt key nonce aad plaintext = some ciphertext →
    C.decrypt key nonce aad ciphertext = some plaintext

/-- X25519: both parties compute the same shared secret. -/
def Agreement : Prop :=
  ∀ a b, C.diffieHellman a (C.x25519Public b) = C.diffieHellman b (C.x25519Public a)

/-- No signature verifies under `pk` but for a message that was signed. -/
def Unforgeable (pk : PublicKey) (signed : Bytes → Prop) : Prop :=
  ∀ message sig, C.verify pk message sig = true → signed message

/-- One signature verifies for at most one of the messages under `pk`. -/
def SignatureBinding (pk : PublicKey) (messages : List Bytes) : Prop :=
  ∀ m ∈ messages, ∀ m' ∈ messages, ∀ sig, C.verify pk m sig = true →
    C.verify pk m' sig = true → m = m'

theorem SignatureBinding.of_eq {pk : PublicKey} {m m' : Bytes} (h : m = m') :
    SignatureBinding C pk [m, m'] := by
  intro a ha b hb _ _ _
  simp only [h, List.mem_cons, List.not_mem_nil, or_false, or_self] at ha hb
  rw [ha, hb]

/-- No string of one kind shares its digest with a different string of the other. -/
def NoCollision (left right : Bytes → Prop) : Prop :=
  ∀ x y, left x → right y → C.blake3 x = C.blake3 y → x = y

def pad (n : ℕ) (b : Bytes) : FixedBytes n := ⟨(b ++ List.replicate n 0).take n, by simp⟩

def toyHash (b : Bytes) : Digest :=
  pad 32 (UInt8.ofNat b.length :: b.foldl (fun h x => 31 * h + x) 7 ::
    b.foldl (fun h x => 167 * h + x) 3 :: b)

def toyTag (key : Key) (nonce : Nonce) (aad plaintext : Bytes) : FixedBytes 16 :=
  pad 16 (toyHash (plaintext ++ aad ++ nonce.val ++ key.val)).val

def toy : Primitives where
  blake3 := toyHash
  sha256 := toyHash
  verifyingKey seed := seed
  isVerifyingKey _ := true
  sign seed message := pad 64 (seed.val ++ (toyHash message).val)
  verify pk message sig := sig = pad 64 (pk.val ++ (toyHash message).val)
  encrypt key nonce aad plaintext := some (plaintext ++ (toyTag key nonce aad plaintext).val)
  decrypt key nonce aad ciphertext :=
    let plaintext := ciphertext.take (ciphertext.length - 16)
    if ciphertext = plaintext ++ (toyTag key nonce aad plaintext).val then some plaintext else none
  x25519Public secret := secret
  diffieHellman a b := pad 32 (List.zipWith (· + ·) a.val b.val)
  argon2id _ _ _ passphrase salt := some (toyHash (passphrase ++ salt))

theorem toy_signatureCorrect : SignatureCorrect toy := by
  intro seed message
  simp [SignsCorrectly, toy]

def signerKey : Seed := pad 32 [171]

/-- The toy scheme of a signer whose only messages are the listed ones. -/
def toyLog (messages : List Bytes) : Primitives :=
  { toy with
    verify := fun pk message sig => toy.verify pk message sig && messages.contains message }

theorem toyLog_unforgeable (messages : List Bytes) (pk : PublicKey) :
    Unforgeable (toyLog messages) pk (· ∈ messages) := by
  intro message sig h
  exact List.contains_iff_mem.mp (Bool.and_eq_true_iff.mp h).2

theorem toyLog_signsCorrectly {messages : List Bytes} {message : Bytes} (h : message ∈ messages)
    (seed : Seed) : SignsCorrectly (toyLog messages) seed message := by
  obtain ⟨hk, hv⟩ := toy_signatureCorrect seed message
  exact ⟨hk, Bool.and_eq_true_iff.mpr ⟨hv, List.contains_iff_mem.mpr h⟩⟩

theorem toy_aeadCorrect : AeadCorrect toy := by
  intro key nonce aad plaintext ciphertext h
  simp only [toy, Option.some.injEq] at h ⊢
  subst h
  have hl := (toyTag key nonce aad plaintext).property
  simp [hl]

theorem toy_agreement : Agreement toy := by
  intro a b
  simp only [toy]
  rw [List.zipWith_comm_of_comm (fun x y => UInt8.add_comm x y)]

end QCap.Crypto
