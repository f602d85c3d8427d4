import QCap.Keyfiles
import QCap.ListAgreement
import QCap.SortedIndex
import QCap.WriterAccepted

/-!
# Packages and key files of `serde_json`

The derived decoders of manifests, signature bundles and key files, with the fields that may
be absent and the free-form metadata. Whatever was written is read back, and whatever was
read can be written and read again.
-/
namespace QCap.SerdePackage

open QCap.Text QCap.Formats QCap.Json QCap.JsonReader QCap.SerdeDocuments QCap.Keyfiles
open QCap.ListAgreement (mapM_eq_some)
open QCap.IssuerCommands (fromUtf8)

/-- An object may lack an `Option` and what has a default, an array may only end before what
has a default. -/
inductive Presence where
  | required
  | option
  | default
  deriving DecidableEq

structure Field where
  name : String
  presence : Presence

def fieldMember (members : List (String × Node)) (field : Field) : Option (Option Node) :=
  match members.filter fun m => m.1 = field.name with
  | [] => if field.presence = .required then none else some none
  | [(_, value)] => some (some value)
  | _ => none

def fieldItems (fields : List Field) (items : List Node) : Option (List (Option Node)) :=
  if items.length ≤ fields.length ∧ ∀ f ∈ fields.drop items.length, f.presence = .default then
    some (items.map some ++ List.replicate (fields.length - items.length) none)
  else none

def fieldValues (fields : List Field) : Node → Option (List (Option Node))
  | .object members => do
    let members ← keyed members
    fields.mapM (fieldMember members)
  | .array items => fieldItems fields items
  | _ => none

section

variable {α : Type} (decode : Node → Option α)

def needed (value : Option Node) : Option α := value >>= decode

def nullable : Option Node → Option (Option α)
  | none => some none
  | some .null => some none
  | some node => (decode node).map some

def orDefault (zero : α) : Option Node → Option α
  | none => some zero
  | some node => decode node

end

def truth : Node → Option Bool
  | .bool b => some b
  | _ => none

/-- A number with a fraction or an exponent is no integer, and neither is `-0`. -/
def unsigned (bound : ℕ) : Node → Option ℕ
  | .number literal => (digitsValue 0 literal.toList).filter (· < bound)
  | _ => none

variable (floats : String → Option String)

/-- Integers of 64 bits are kept as such. For any other literal `floats` has the text of the
number it is rounded to, or nothing when there is none. -/
def numberText (literal : String) : Option String :=
  match literal.toList with
  | '-' :: digits =>
    match digitsValue 0 digits with
    | some n => if 0 < n ∧ n ≤ 2 ^ 63 then some ("-" ++ toString n) else floats literal
    | none => floats literal
  | digits =>
    match digitsValue 0 digits with
    | some n => if n < 2 ^ 64 then some (toString n) else floats literal
    | none => floats literal

/-- `serde_json::Map` is ordered by the names, and a later member of a name replaces an earlier
one. -/
def mapOf (members : List (String × Value)) : List (String × Value) :=
  members.foldl (fun map m => SortedIndex.upsert Prod.fst (fun _ new => new) m map) []

mutual

/-- `serde_json::Value`; `depth` is the number of containers that may still be opened. -/
def freeForm (depth : ℕ) : Node → Option Value
  | .null => some .null
  | .bool b => some (.bool b)
  | .number literal => (numberText floats literal).map .number
  | .string raw => (joinText false raw).map .string
  | .array items => if depth = 0 then none else (freeItems (depth - 1) items).map .array
  | .object members =>
    if depth = 0 then none
    else (freeMembers (depth - 1) members).map fun members => .object (mapOf members)

def freeItems (depth : ℕ) : List Node → Option (List Value)
  | [] => some []
  | item :: items => do
    let value ← freeForm depth item
    let values ← freeItems depth items
    return value :: values

def freeMembers (depth : ℕ) : List (List Piece × Node) → Option (List (String × Value))
  | [] => some []
  | (name, node) :: members => do
    let name ← joinText false name
    let value ← freeForm depth node
    let values ← freeMembers depth members
    return (name, value) :: values

end

def metadataDepth : ℕ := 126

def payloadFileNames : List String := ["path", "size", "nonce", "ciphertext_hash"]

def decodePayloadFile (node : Node) : Option PayloadFile := do
  match ← structFields payloadFileNames node with
  | [path, size, nonce, ciphertextHash] =>
    return ⟨← text path, ← unsigned (2 ^ 64) size, ← text nonce, ← text ciphertextHash⟩
  | _ => none

def recipientNames : List String :=
  ["recipient", "ephemeral_public_key", "nonce", "wrapped_key", "algorithm"]

def decodeRecipient (node : Node) : Option RecipientStanza := do
  match ← textFields recipientNames node with
  | [recipient, ephemeralPublicKey, nonce, wrappedKey, algorithm] =>
    some ⟨recipient, ephemeralPublicKey, nonce, wrappedKey, algorithm⟩
  | _ => none

def manifestFields : List Field :=
  [⟨"schema_version", .required⟩, ⟨"merkle_root", .required⟩, ⟨"issuer", .option⟩,
    ⟨"created_at", .required⟩, ⟨"metadata", .required⟩, ⟨"package_id", .default⟩,
    ⟨"encrypted", .default⟩, ⟨"files", .default⟩, ⟨"recipients", .default⟩,
    ⟨"algorithms", .default⟩]

def decodeManifest (node : Node) : Option QcapManifest := do
  match ← fieldValues manifestFields node with
  | [schemaVersion, merkleRoot, issuer, createdAt, metadata, packageId, encrypted, files,
      recipients, algorithms] =>
    return {
      schemaVersion := ← needed text schemaVersion
      merkleRoot := ← needed text merkleRoot
      issuer := ← nullable text issuer
      createdAt := ← needed text createdAt
      metadata := ← needed (freeForm floats metadataDepth) metadata
      packageId := ← nullable text packageId
      encrypted := ← orDefault truth false encrypted
      files := ← orDefault (sequence decodePayloadFile) [] files
      recipients := ← orDefault (sequence decodeRecipient) [] recipients
      algorithms := ← orDefault (sequence text) [] algorithms }
  | _ => none

def bundleNames : List String := ["merkle_root", "signature", "public_key", "algorithm"]

def decodeBundle (node : Node) : Option QcapSignatureBundle := do
  match ← textFields bundleNames node with
  | [merkleRoot, signature, publicKey, algorithm] =>
    some ⟨merkleRoot, signature, publicKey, algorithm⟩
  | _ => none

def kdfNames : List String :=
  ["algorithm", "version", "memory_kib", "iterations", "parallelism", "salt"]

def decodeKdf (node : Node) : Option IdentityKdf := do
  match ← structFields kdfNames node with
  | [algorithm, version, memoryKib, iterations, parallelism, salt] =>
    return ⟨← text algorithm, ← unsigned (2 ^ 32) version, ← unsigned (2 ^ 32) memoryKib,
      ← unsigned (2 ^ 32) iterations, ← unsigned (2 ^ 32) parallelism, ← text salt⟩
  | _ => none

def encryptedKeysNames : List String := ["algorithm", "nonce", "ciphertext"]

def decodeEncryptedKeys (node : Node) : Option EncryptedPrivateKeys := do
  match ← textFields encryptedKeysNames node with
  | [algorithm, nonce, ciphertext] => some ⟨algorithm, nonce, ciphertext⟩
  | _ => none

def identityFields : List Field :=
  [⟨"format", .default⟩, ⟨"name", .required⟩, ⟨"signing_seed", .default⟩,
    ⟨"signing_public_key", .required⟩, ⟨"encryption_secret", .default⟩,
    ⟨"encryption_public_key", .required⟩, ⟨"kdf", .default⟩,
    ⟨"encrypted_private_keys", .default⟩]

def decodeIdentity (node : Node) : Option Identity := do
  match ← fieldValues identityFields node with
  | [format, name, signingSeed, signingPublicKey, encryptionSecret, encryptionPublicKey, kdf,
      encryptedPrivateKeys] =>
    return {
      format := ← nullable text format
      name := ← needed text name
      signingSeed := ← nullable text signingSeed
      signingPublicKey := ← needed text signingPublicKey
      encryptionSecret := ← nullable text encryptionSecret
      encryptionPublicKey := ← needed text encryptionPublicKey
      kdf := ← nullable decodeKdf kdf
      encryptedPrivateKeys := ← nullable decodeEncryptedKeys encryptedPrivateKeys }
  | _ => none

/-- `QcapManifest::from_json_bytes`. -/
def readManifest (document : Bytes) : Option QcapManifest :=
  readDocument document >>= decodeManifest floats

/-- `read_signature` reads a string first, so that skipped values are Unicode as well. -/
def readBundle (document : Bytes) : Option QcapSignatureBundle := do
  let _ ← fromUtf8 document
  readDocument document >>= decodeBundle

def readIdentity (document : Bytes) : Option Identity := readDocument document >>= decodeIdentity

def kdfValue (kdf : IdentityKdf) : Value :=
  .object [("algorithm", .string kdf.algorithm), ("version", .number (toString kdf.version)),
    ("memory_kib", .number (toString kdf.memoryKib)),
    ("iterations", .number (toString kdf.iterations)),
    ("parallelism", .number (toString kdf.parallelism)), ("salt", .string kdf.salt)]

def encryptedKeysValue (keys : EncryptedPrivateKeys) : Value :=
  .object [("algorithm", .string keys.algorithm), ("nonce", .string keys.nonce),
    ("ciphertext", .string keys.ciphertext)]

/-- `skip_serializing_if = "Option::is_none"`. -/
def kept (members : List (String × Option Value)) : List (String × Value) :=
  members.filterMap fun m => m.2.map fun value => (m.1, value)

def identityMembers (identity : Identity) : List (String × Option Value) :=
  [("format", identity.format.map .string), ("name", some (.string identity.name)),
    ("signing_seed", identity.signingSeed.map .string),
    ("signing_public_key", some (.string identity.signingPublicKey)),
    ("encryption_secret", identity.encryptionSecret.map .string),
    ("encryption_public_key", some (.string identity.encryptionPublicKey)),
    ("kdf", identity.kdf.map kdfValue),
    ("encrypted_private_keys", identity.encryptedPrivateKeys.map encryptedKeysValue)]

/-- `write_identity`. -/
def identityBytes (identity : Identity) : Bytes :=
  asBytes (render true 0 (.object (kept (identityMembers identity))))

/-- `serde_json` at the document types. -/
def serdeCodec : JsonCodec where
  manifestBytes := manifestBytes
  parseManifest := readManifest floats
  bundleBytes := bundleBytes
  parseBundle := readBundle
  materialBytes := materialBytes
  parseMaterial := readMaterial
  parseIdentity := readIdentity

theorem digitsValue_digit {acc : ℕ} {cs : List Char} (h : ∀ c ∈ cs, isDigit c = true) :
    digitsValue acc cs = some (Nat.ofDigitChars 10 cs acc) := by
  induction cs generalizing acc with
  | nil => simp [digitsValue]
  | cons c cs ih =>
    obtain ⟨hc, hcs⟩ := List.forall_mem_cons.mp h
    have hrange : '0' ≤ c ∧ c ≤ '9' := by simpa [isDigit] using hc
    rw [digitsValue, if_pos hrange, ih hcs, Nat.ofDigitChars_cons]
    rfl

theorem toList_toString (n : ℕ) : (toString n).toList = Nat.toDigits 10 n := by
  rw [Nat.toString_eq_repr, Nat.toList_repr]

theorem digitsValue_toString (n : ℕ) : digitsValue 0 (toString n).toList = some n := by
  rw [toList_toString, digitsValue_digit GoJson.isDigit_of_toDigits,
    Nat.ofDigitChars_ten_toDigits]

theorem unsigned_toString {bound n : ℕ} (h : n < bound) :
    unsigned bound (.number (toString n)) = some n := by
  rw [unsigned, digitsValue_toString]
  simp [Option.filter, h]

theorem unsigned_lt {bound n : ℕ} {node : Node} (h : unsigned bound node = some n) : n < bound := by
  cases node with
  | number literal =>
    have hn := (Option.filter_eq_some_iff.mp h).2
    exact of_decide_eq_true hn
  | _ => cases h

inductive Integer : String → Prop where
  | unsigned {n : ℕ} : n < 2 ^ 64 → Integer (toString n)
  | negative {n : ℕ} : 0 < n → n ≤ 2 ^ 63 → Integer ("-" ++ toString n)

theorem numberText_unsigned {literal : String} (h : literal.toList.head? ≠ some '-') :
    numberText floats literal =
      match digitsValue 0 literal.toList with
      | some n => if n < 2 ^ 64 then some (toString n) else floats literal
      | none => floats literal := by
  unfold numberText
  split
  · rename_i digits hd
    rw [hd] at h
    exact absurd rfl h
  · rfl

theorem numberText_integer {literal : String} (h : Integer literal) :
    numberText floats literal = some literal := by
  cases h with
  | @unsigned n hn =>
    rw [numberText_unsigned floats (GoJson.head_toString n), digitsValue_toString]
    exact if_pos hn
  | @negative n hpos hn =>
    unfold numberText
    rw [GoJson.toList_negative]
    simp only [digitsValue_toString]
    exact if_pos ⟨hpos, hn⟩

theorem isNumber_integer {literal : String} (h : Integer literal) :
    isNumber literal.toList = true := by
  cases h with
  | @unsigned n _ => exact GoJson.isNumber_toString n
  | @negative n _ _ =>
    rw [GoJson.toList_negative]
    exact GoJson.isNumber_negative (GoJson.isNumber_toString n) (GoJson.head_toString n)

theorem mapOf_concat (members : List (String × Value)) (m : String × Value) :
    mapOf (members ++ [m]) = SortedIndex.upsert Prod.fst (fun _ new => new) m (mapOf members) := by
  simp [mapOf]

theorem sorted_mapOf (members : List (String × Value)) :
    SortedIndex.Sorted Prod.fst (mapOf members) := by
  induction members using List.reverseRecOn with
  | nil => exact List.Pairwise.nil
  | append_singleton members m ih =>
    rw [mapOf_concat]
    exact SortedIndex.sorted_upsert _ _ (fun _ _ => rfl) ih m

theorem mem_mapOf {members : List (String × Value)} : ∀ m ∈ mapOf members, m ∈ members := by
  induction members using List.reverseRecOn with
  | nil =>
    intro m hm
    cases hm
  | append_singleton members m ih =>
    intro other hm
    rw [mapOf_concat] at hm
    rcases (SortedIndex.mem_upsert _ _ (sorted_mapOf members)).mp hm with
      ⟨hmem, -⟩ | ⟨_, -, -, rfl⟩ | ⟨-, rfl⟩
    · exact List.mem_append_left _ (ih other hmem)
    · exact List.mem_append_right _ (List.mem_singleton_self _)
    · exact List.mem_append_right _ (List.mem_singleton_self _)

theorem mapOf_sorted {members : List (String × Value)}
    (h : SortedIndex.Sorted Prod.fst members) : mapOf members = members := by
  induction members using List.reverseRecOn with
  | nil => rfl
  | append_singleton members m ih =>
    rw [mapOf_concat, ih (List.pairwise_append.mp h).1]
    exact SortedIndex.upsert_of_sorted _ _ h

mutual

/-- A `serde_json::Value` that is nested no deeper than `depth`. -/
def Mapped (depth : ℕ) : Value → Prop
  | .array items => 0 < depth ∧ MappedItems (depth - 1) items
  | .object members =>
    0 < depth ∧ SortedIndex.Sorted Prod.fst members ∧ MappedMembers (depth - 1) members
  | _ => True

def MappedItems (depth : ℕ) : List Value → Prop
  | [] => True
  | item :: items => Mapped depth item ∧ MappedItems depth items

def MappedMembers (depth : ℕ) : List (String × Value) → Prop
  | [] => True
  | (_, value) :: members => Mapped depth value ∧ MappedMembers depth members

end

mutual

def Whole : Value → Prop
  | .number literal => Integer literal
  | .array items => WholeItems items
  | .object members => WholeMembers members
  | _ => True

def WholeItems : List Value → Prop
  | [] => True
  | item :: items => Whole item ∧ WholeItems items

def WholeMembers : List (String × Value) → Prop
  | [] => True
  | (_, value) :: members => Whole value ∧ WholeMembers members

end

theorem mappedMembers_iff {depth : ℕ} {members : List (String × Value)} :
    MappedMembers depth members ↔ ∀ m ∈ members, Mapped depth m.2 := by
  induction members with
  | nil => simp [MappedMembers]
  | cons m members ih =>
    obtain ⟨name, value⟩ := m
    simp [MappedMembers, ih]

mutual

theorem valid_of_whole : ∀ v : Value, Whole v → Valid v
  | .null, _ => by simp [Valid]
  | .bool _, _ => by simp [Valid]
  | .string _, _ => by simp [Valid]
  | .number _, h => by
    rw [Whole] at h
    rw [Valid]
    exact isNumber_integer h
  | .array items, h => by
    rw [Whole] at h
    rw [Valid]
    exact validItems_of_whole items h
  | .object members, h => by
    rw [Whole] at h
    rw [Valid]
    exact validMembers_of_whole members h

theorem validItems_of_whole : ∀ items : List Value, WholeItems items → ValidItems items
  | [], _ => by simp [ValidItems]
  | item :: items, h => by
    rw [WholeItems] at h
    rw [ValidItems]
    exact ⟨valid_of_whole item h.1, validItems_of_whole items h.2⟩

theorem validMembers_of_whole : ∀ members : List (String × Value),
    WholeMembers members → ValidMembers members
  | [], _ => by simp [ValidMembers]
  | (name, value) :: members, h => by
    rw [WholeMembers] at h
    rw [ValidMembers]
    exact ⟨valid_of_whole value h.1, validMembers_of_whole members h.2⟩

end

mutual

theorem freeForm_rawValue : ∀ (v : Value) (depth : ℕ), Mapped depth v → Whole v →
    freeForm floats depth (rawValue v) = some v
  | .null, _, _, _ => by simp [rawValue, freeForm]
  | .bool _, _, _, _ => by simp [rawValue, freeForm]
  | .string _, _, _, _ => by simp [rawValue, freeForm]
  | .number _, _, _, hw => by
    rw [Whole] at hw
    simp [rawValue, freeForm, numberText_integer floats hw]
  | .array items, depth, hm, hw => by
    rw [Mapped] at hm
    rw [Whole] at hw
    rw [rawValue, freeForm, if_neg (Nat.ne_of_gt hm.1), freeItems_rawItems items _ hm.2 hw]
    rfl
  | .object members, depth, hm, hw => by
    rw [Mapped] at hm
    rw [Whole] at hw
    rw [rawValue, freeForm, if_neg (Nat.ne_of_gt hm.1),
      freeMembers_rawMembers members _ hm.2.2 hw, Option.map_some, mapOf_sorted hm.2.1]

theorem freeItems_rawItems : ∀ (items : List Value) (depth : ℕ), MappedItems depth items →
    WholeItems items → freeItems floats depth (rawItems items) = some items
  | [], _, _, _ => by simp [rawItems, freeItems]
  | item :: items, depth, hm, hw => by
    rw [MappedItems] at hm
    rw [WholeItems] at hw
    rw [rawItems, freeItems, freeForm_rawValue item depth hm.1 hw.1,
      freeItems_rawItems items depth hm.2 hw.2]
    rfl

theorem freeMembers_rawMembers : ∀ (members : List (String × Value)) (depth : ℕ),
    MappedMembers depth members → WholeMembers members →
      freeMembers floats depth (rawMembers members) = some members
  | [], _, _, _ => by simp [rawMembers, freeMembers]
  | (name, value) :: members, depth, hm, hw => by
    rw [MappedMembers] at hm
    rw [WholeMembers] at hw
    rw [rawMembers, freeMembers, joinText_rawString, freeForm_rawValue value depth hm.1 hw.1,
      freeMembers_rawMembers members depth hm.2 hw.2]
    rfl

end

mutual

theorem freeForm_mapped : ∀ (node : Node) (depth : ℕ) {v : Value},
    freeForm floats depth node = some v → Mapped depth v
  | .null, depth, v, h => by
    rw [freeForm] at h
    cases h
    simp [Mapped]
  | .bool _, depth, v, h => by
    rw [freeForm] at h
    cases h
    simp [Mapped]
  | .number _, depth, v, h => by
    rw [freeForm] at h
    obtain ⟨_, -, rfl⟩ := Option.map_eq_some_iff.mp h
    simp [Mapped]
  | .string _, depth, v, h => by
    rw [freeForm] at h
    obtain ⟨_, -, rfl⟩ := Option.map_eq_some_iff.mp h
    simp [Mapped]
  | .array items, depth, v, h => by
    rw [freeForm] at h
    by_cases hd : depth = 0
    · rw [if_pos hd] at h
      cases h
    · rw [if_neg hd] at h
      obtain ⟨values, hvalues, rfl⟩ := Option.map_eq_some_iff.mp h
      rw [Mapped]
      exact ⟨Nat.pos_of_ne_zero hd, freeItems_mapped items _ hvalues⟩
  | .object members, depth, v, h => by
    rw [freeForm] at h
    by_cases hd : depth = 0
    · rw [if_pos hd] at h
      cases h
    · rw [if_neg hd] at h
      obtain ⟨values, hvalues, rfl⟩ := Option.map_eq_some_iff.mp h
      rw [Mapped]
      refine ⟨Nat.pos_of_ne_zero hd, sorted_mapOf values, mappedMembers_iff.mpr ?_⟩
      intro m hm
      exact mappedMembers_iff.mp (freeMembers_mapped members _ hvalues) m (mem_mapOf m hm)

theorem freeItems_mapped : ∀ (items : List Node) (depth : ℕ) {values : List Value},
    freeItems floats depth items = some values → MappedItems depth values
  | [], depth, values, h => by
    rw [freeItems] at h
    cases h
    simp [MappedItems]
  | item :: items, depth, values, h => by
    simp only [freeItems, bind, pure, Option.bind_eq_some_iff] at h
    obtain ⟨value, hvalue, rest, hrest, he⟩ := h
    cases he
    rw [MappedItems]
    exact ⟨freeForm_mapped item depth hvalue, freeItems_mapped items depth hrest⟩

theorem freeMembers_mapped : ∀ (members : List (List Piece × Node)) (depth : ℕ)
    {values : List (String × Value)}, freeMembers floats depth members = some values →
      MappedMembers depth values
  | [], depth, values, h => by
    rw [freeMembers] at h
    cases h
    simp [MappedMembers]
  | (name, node) :: members, depth, values, h => by
    simp only [freeMembers, bind, pure, Option.bind_eq_some_iff] at h
    obtain ⟨_, -, value, hvalue, rest, hrest, he⟩ := h
    cases he
    rw [MappedMembers]
    exact ⟨freeForm_mapped node depth hvalue, freeMembers_mapped members depth hrest⟩

end

def Fits (f : Field) (m : String × Option Value) : Prop :=
  f.name = m.1 ∧ (m.2 = none → f.presence ≠ .required)

theorem kept_all (members : List (String × Value)) :
    kept (members.map fun m => (m.1, some m.2)) = members := by
  induction members with
  | nil => rfl
  | cons m members ih =>
    rw [kept] at ih
    simp [kept, ih]

theorem mem_kept_name {written : List (String × Option Value)} {k : String × Value}
    (h : k ∈ kept written) : k.1 ∈ written.map Prod.fst := by
  obtain ⟨m, hm, he⟩ := List.mem_filterMap.mp h
  obtain ⟨value, -, rfl⟩ := Option.map_eq_some_iff.mp he
  exact List.mem_map_of_mem hm

section

variable {written : List (String × Option Value)} {m : String × Option Value}

theorem kept_filter (hn : (written.map Prod.fst).Nodup) (hm : m ∈ written) :
    (kept written).filter (fun k => k.1 = m.1) = (m.2.map fun v => (m.1, v)).toList := by
  induction written with
  | nil => cases hm
  | cons first rest ih =>
    obtain ⟨hfirst, hrest⟩ := List.nodup_cons.mp hn
    have hcons : kept (first :: rest) =
        (first.2.map fun v => (first.1, v)).toList ++ kept rest := by
      cases hv : first.2 <;> simp [kept, hv]
    rw [hcons, List.filter_append]
    rcases List.mem_cons.mp hm with rfl | hm
    · have hnone : (kept rest).filter (fun k => k.1 = m.1) = [] := by
        rw [List.filter_eq_nil_iff]
        intro k hk he
        exact hfirst (of_decide_eq_true he ▸ mem_kept_name hk)
      rw [hnone, List.append_nil]
      cases m.2 <;> simp
    · have hne : first.1 ≠ m.1 := by
        intro he
        exact hfirst (he ▸ List.mem_map_of_mem hm)
      rw [ih hrest hm]
      cases first.2 <;> simp [hne]

theorem fieldMember_kept (hn : (written.map Prod.fst).Nodup) (hm : m ∈ written) {f : Field}
    (h : Fits f m) :
    fieldMember ((kept written).map fun k => (k.1, rawValue k.2)) f = some (m.2.map rawValue) := by
  have hfilter : ((kept written).map fun k => (k.1, rawValue k.2)).filter
      (fun k => k.1 = f.name) = (m.2.map fun v => (m.1, rawValue v)).toList := by
    rw [h.1, List.filter_map]
    have hk := kept_filter hn hm
    simp only [Function.comp_def, hk]
    cases m.2 <;> rfl
  rw [fieldMember, hfilter]
  cases hv : m.2 with
  | some v => rfl
  | none => exact if_neg (h.2 hv)

theorem fieldValues_kept (hn : (written.map Prod.fst).Nodup) {fields : List Field}
    (h : List.Forall₂ Fits fields written) :
    fieldValues fields (rawValue (.object (kept written))) =
      some (written.map fun m => m.2.map rawValue) := by
  have hpart : ∀ {fs : List Field} {part : List (String × Option Value)},
      List.Forall₂ Fits fs part → part ⊆ written →
        fs.mapM (fieldMember ((kept written).map fun k => (k.1, rawValue k.2))) =
          some (part.map fun m => m.2.map rawValue) := by
    intro fs part hf
    induction hf with
    | nil =>
      intro _
      rfl
    | cons hfit _ ih =>
      intro hsub
      obtain ⟨hm, hrest⟩ := List.cons_subset.mp hsub
      rw [List.mapM_cons, fieldMember_kept hn hm hfit, ih hrest]
      rfl
  rw [rawValue, fieldValues, keyed_rawMembers]
  exact hpart h (List.Subset.refl written)

end

theorem nullable_written {α : Type} {decode : Node → Option α} {f : α → Value}
    {value : Option α} (hf : ∀ a ∈ value, decode (rawValue (f a)) = some a)
    (hn : ∀ a, rawValue (f a) ≠ .null) :
    nullable decode ((value.map f).map rawValue) = some value := by
  cases value with
  | none => rfl
  | some a =>
    have hd := hf a rfl
    rw [Option.map_some, Option.map_some]
    cases hr : rawValue (f a) with
    | null => exact absurd hr (hn a)
    | _ => rw [hr] at hd; rw [nullable, hd] <;> simp

theorem nullable_optionalString (value : Option String) :
    nullable text (some (rawValue (optionalString value))) = some value := by
  cases value with
  | none => rfl
  | some s =>
    have ht := text_string s
    rw [optionalString, rawValue] at *
    rw [nullable, ht]
    · rfl
    · simp

theorem sequence_written {α : Type} {decode : Node → Option α} {f : α → Value} {as : List α}
    (hf : ∀ a ∈ as, decode (rawValue (f a)) = some a) :
    sequence decode (rawValue (.array (as.map f))) = some as := by
  have hitems : rawItems (as.map f) = as.map fun a => rawValue (f a) := by
    induction as with
    | nil => rfl
    | cons a as ih =>
      rw [List.map_cons, rawItems, ih fun b hb => hf b (List.mem_cons_of_mem _ hb)]
      rfl
  rw [rawValue, SerdeDocuments.sequence, hitems, mapM_eq_some, List.forall₂_map_left_iff,
    List.forall₂_same]
  exact hf

theorem decodePayloadFile_written {file : PayloadFile} (h : file.size < 2 ^ 64) :
    decodePayloadFile (rawValue (payloadFileValue file)) = some file := by
  have hfields : structFields payloadFileNames (rawValue (payloadFileValue file)) =
      some [rawValue (.string file.path), .number (toString file.size),
        rawValue (.string file.nonce), rawValue (.string file.ciphertextHash)] := by
    rw [payloadFileValue, structFields_object]
    rfl
  simp only [decodePayloadFile, hfields, text_string, unsigned_toString h, Option.bind_eq_bind,
    Option.bind_some]
  rfl

theorem decodeRecipient_written (stanza : RecipientStanza) :
    decodeRecipient (rawValue (recipientValue stanza)) = some stanza := by
  have hfields : structFields recipientNames (rawValue (recipientValue stanza)) =
      some [rawValue (.string stanza.recipient), rawValue (.string stanza.ephemeralPublicKey),
        rawValue (.string stanza.nonce), rawValue (.string stanza.wrappedKey),
        rawValue (.string stanza.algorithm)] := by
    rw [recipientValue, structFields_object]
    rfl
  simp [decodeRecipient, textFields, hfields]

/-- What the types of the program promise of a manifest, and that no number is a float. -/
structure Storable (manifest : QcapManifest) : Prop where
  mapped : Mapped metadataDepth manifest.metadata
  whole : Whole manifest.metadata
  sizes : ∀ file ∈ manifest.files, file.size < 2 ^ 64

theorem manifest_fields (manifest : QcapManifest) :
    fieldValues manifestFields (rawValue (.object
      (("schema_version", .string manifest.schemaVersion) :: manifestMembers manifest))) =
      some [some (rawValue (.string manifest.schemaVersion)),
        some (rawValue (.string manifest.merkleRoot)),
        some (rawValue (optionalString manifest.issuer)),
        some (rawValue (.string manifest.createdAt)), some (rawValue manifest.metadata),
        some (rawValue (optionalString manifest.packageId)),
        some (rawValue (.bool manifest.encrypted)),
        some (rawValue (.array (manifest.files.map payloadFileValue))),
        some (rawValue (.array (manifest.recipients.map recipientValue))),
        some (rawValue (.array (manifest.algorithms.map .string)))] := by
  rw [← kept_all (_ :: _), fieldValues_kept]
  · rfl
  · simp [manifestMembers]
  · simp [manifestFields, manifestMembers, Fits]

theorem decodeManifest_written {manifest : QcapManifest} (h : Storable manifest) :
    decodeManifest floats (rawValue (.object
      (("schema_version", .string manifest.schemaVersion) :: manifestMembers manifest))) =
      some manifest := by
  have hmetadata := freeForm_rawValue floats _ _ h.mapped h.whole
  have hfiles := sequence_written fun f hf => decodePayloadFile_written (h.sizes f hf)
  have hrecipients : sequence decodeRecipient
      (rawValue (.array (manifest.recipients.map recipientValue))) = some manifest.recipients :=
    sequence_written fun stanza _ => decodeRecipient_written stanza
  have halgorithms : sequence text
      (rawValue (.array (manifest.algorithms.map .string))) = some manifest.algorithms :=
    sequence_written fun s _ => text_string s
  simp only [decodeManifest, manifest_fields, needed, orDefault, nullable_optionalString,
    hmetadata, hfiles, hrecipients, halgorithms, text_string, Option.bind_eq_bind,
    Option.bind_some]
  rfl

theorem valid_storable {manifest : QcapManifest} (h : Storable manifest) :
    Valid (.object (("schema_version", .string manifest.schemaVersion) ::
      manifestMembers manifest)) :=
  WriterAccepted.valid_manifest (valid_of_whole _ h.whole)

theorem readManifest_manifestBytes {manifest : QcapManifest} (h : Storable manifest) :
    readManifest floats (manifestBytes manifest) = some manifest := by
  rw [readManifest, manifestBytes, readDocument_render true (valid_storable h)]
  exact decodeManifest_written floats h

theorem readBundle_bundleBytes (bundle : QcapSignatureBundle) :
    readBundle (bundleBytes bundle) = some bundle := by
  have hv : Valid (.object [("merkle_root", .string bundle.merkleRoot),
      ("signature", .string bundle.signature), ("public_key", .string bundle.publicKey),
      ("algorithm", .string bundle.algorithm)]) := by
    simp [Valid, ValidMembers]
  have hfields : structFields bundleNames (rawValue (.object
      [("merkle_root", .string bundle.merkleRoot), ("signature", .string bundle.signature),
        ("public_key", .string bundle.publicKey), ("algorithm", .string bundle.algorithm)])) =
      some [rawValue (.string bundle.merkleRoot), rawValue (.string bundle.signature),
        rawValue (.string bundle.publicKey), rawValue (.string bundle.algorithm)] := by
    rw [structFields_object]
    rfl
  have hutf8 (s : String) : fromUtf8 (asBytes s) = some s := fromUTF8?_asBytes s
  rw [readBundle, bundleBytes, hutf8, readDocument_render true hv]
  simp [decodeBundle, textFields, hfields]

structure SmallKdf (kdf : IdentityKdf) : Prop where
  version : kdf.version < 2 ^ 32
  memory : kdf.memoryKib < 2 ^ 32
  iterations : kdf.iterations < 2 ^ 32
  parallelism : kdf.parallelism < 2 ^ 32

theorem decodeKdf_written {kdf : IdentityKdf} (h : SmallKdf kdf) :
    decodeKdf (rawValue (kdfValue kdf)) = some kdf := by
  have hfields : structFields kdfNames (rawValue (kdfValue kdf)) =
      some [rawValue (.string kdf.algorithm), .number (toString kdf.version),
        .number (toString kdf.memoryKib), .number (toString kdf.iterations),
        .number (toString kdf.parallelism), rawValue (.string kdf.salt)] := by
    rw [kdfValue, structFields_object]
    rfl
  simp only [decodeKdf, hfields, text_string, unsigned_toString h.version,
    unsigned_toString h.memory, unsigned_toString h.iterations, unsigned_toString h.parallelism,
    Option.bind_eq_bind, Option.bind_some]
  rfl

theorem decodeEncryptedKeys_written (keys : EncryptedPrivateKeys) :
    decodeEncryptedKeys (rawValue (encryptedKeysValue keys)) = some keys := by
  have hfields : structFields encryptedKeysNames (rawValue (encryptedKeysValue keys)) =
      some [rawValue (.string keys.algorithm), rawValue (.string keys.nonce),
        rawValue (.string keys.ciphertext)] := by
    rw [encryptedKeysValue, structFields_object]
    rfl
  simp [decodeEncryptedKeys, textFields, hfields]

theorem identity_fields (identity : Identity) :
    fieldValues identityFields (rawValue (.object (kept (identityMembers identity)))) =
      some ((identityMembers identity).map fun m => m.2.map rawValue) := by
  refine fieldValues_kept ?_ ?_
  · simp [identityMembers]
  · simp [identityFields, identityMembers, Fits]

theorem decodeIdentity_written {identity : Identity}
    (h : ∀ kdf ∈ identity.kdf, SmallKdf kdf) :
    decodeIdentity (rawValue (.object (kept (identityMembers identity)))) = some identity := by
  have htext (value : Option String) :
      nullable text ((value.map Value.string).map rawValue) = some value :=
    nullable_written (fun s _ => text_string s) fun _ => by simp [rawValue]
  have hkdf : nullable decodeKdf ((identity.kdf.map kdfValue).map rawValue) =
      some identity.kdf :=
    nullable_written (fun kdf hk => decodeKdf_written (h kdf hk))
      fun _ => by simp [kdfValue, rawValue]
  have hkeys : nullable decodeEncryptedKeys
      ((identity.encryptedPrivateKeys.map encryptedKeysValue).map rawValue) =
        some identity.encryptedPrivateKeys :=
    nullable_written (fun keys _ => decodeEncryptedKeys_written keys)
      fun _ => by simp [encryptedKeysValue, rawValue]
  rw [decodeIdentity, identity_fields]
  simp only [identityMembers, List.map_cons, List.map_nil, Option.map_some, needed, htext, hkdf,
    hkeys, text_string, Option.bind_eq_bind, Option.bind_some]
  rfl

theorem valid_kept {written : List (String × Option Value)}
    (h : ∀ m ∈ written, ∀ v ∈ m.2, Valid v) : Valid (.object (kept written)) := by
  rw [Valid]
  induction written with
  | nil => simp [kept, ValidMembers]
  | cons m written ih =>
    have hrest := ih fun k hk => h k (List.mem_cons_of_mem _ hk)
    have hm := h m List.mem_cons_self
    cases hv : m.2 with
    | none => simpa [kept, hv] using hrest
    | some v =>
      have hvalid := hm v hv
      simpa [kept, hv, ValidMembers, hvalid] using hrest

theorem valid_texts (value : Option String) : ∀ v ∈ value.map Value.string, Valid v := by
  intro v hv
  obtain ⟨s, -, rfl⟩ := Option.map_eq_some_iff.mp hv
  simp [Valid]

theorem valid_kdfValue (kdf : IdentityKdf) : Valid (kdfValue kdf) := by
  simp only [kdfValue, Valid, ValidMembers]
  exact ⟨trivial, GoJson.isNumber_toString _, GoJson.isNumber_toString _,
    GoJson.isNumber_toString _, GoJson.isNumber_toString _, trivial, trivial⟩

theorem valid_identity (identity : Identity) :
    Valid (.object (kept (identityMembers identity))) := by
  have hstring (s : String) : ∀ v ∈ some (Value.string s), Valid v := valid_texts (some s)
  have hkdf : ∀ v ∈ identity.kdf.map kdfValue, Valid v := by
    intro v hv
    obtain ⟨kdf, -, rfl⟩ := Option.map_eq_some_iff.mp hv
    exact valid_kdfValue kdf
  have hkeys : ∀ v ∈ identity.encryptedPrivateKeys.map encryptedKeysValue, Valid v := by
    intro v hv
    obtain ⟨keys, -, rfl⟩ := Option.map_eq_some_iff.mp hv
    simp [encryptedKeysValue, Valid, ValidMembers]
  apply valid_kept
  simp only [identityMembers, List.forall_mem_cons]
  exact ⟨valid_texts _, hstring _, valid_texts _, hstring _, valid_texts _, hstring _, hkdf,
    hkeys, List.forall_mem_nil _⟩

theorem readIdentity_identityBytes {identity : Identity}
    (h : ∀ kdf ∈ identity.kdf, SmallKdf kdf) :
    readIdentity (identityBytes identity) = some identity := by
  rw [readIdentity, identityBytes, readDocument_render true (valid_identity identity)]
  exact decodeIdentity_written h

theorem sequence_mem {α : Type} {decode : Node → Option α} {node : Node} {as : List α}
    (h : sequence decode node = some as) : ∀ a ∈ as, ∃ item, decode item = some a := by
  cases node with
  | array items =>
    intro a ha
    have hall := mapM_eq_some.mp h
    obtain ⟨i, hi, rfl⟩ := List.mem_iff_getElem.mp ha
    have hlen := hall.length_eq
    exact ⟨items[i], hall.get (by omega) hi⟩
  | _ => cases h

theorem decodePayloadFile_size {node : Node} {file : PayloadFile}
    (h : decodePayloadFile node = some file) : file.size < 2 ^ 64 := by
  simp only [decodePayloadFile, bind, Option.bind_eq_some_iff] at h
  obtain ⟨values, -, h⟩ := h
  split at h
  · simp only [pure, Option.bind_eq_some_iff] at h
    obtain ⟨_, -, size, hsize, _, -, _, -, he⟩ := h
    cases he
    exact unsigned_lt hsize
  · cases h

theorem decodeManifest_storable {node : Node} {manifest : QcapManifest}
    (h : decodeManifest floats node = some manifest) (hw : Whole manifest.metadata) :
    Storable manifest := by
  simp only [decodeManifest, bind, Option.bind_eq_some_iff] at h
  obtain ⟨values, -, h⟩ := h
  split at h
  · simp only [pure, Option.bind_eq_some_iff] at h
    obtain ⟨_, -, _, -, _, -, _, -, metadata, hmetadata, _, -, _, -, files, hfiles, _, -, _, -,
      he⟩ := h
    cases he
    obtain ⟨_, -, hmetadata⟩ := Option.bind_eq_some_iff.mp hmetadata
    refine ⟨freeForm_mapped floats _ _ hmetadata, hw, ?_⟩
    intro file hf
    unfold orDefault at hfiles
    split at hfiles
    · cases hfiles
      cases hf
    · obtain ⟨item, hitem⟩ := sequence_mem hfiles file hf
      exact decodePayloadFile_size hitem
  · cases h

theorem decodeKdf_small {node : Node} {kdf : IdentityKdf} (h : decodeKdf node = some kdf) :
    SmallKdf kdf := by
  simp only [decodeKdf, bind, Option.bind_eq_some_iff] at h
  obtain ⟨values, -, h⟩ := h
  split at h
  · simp only [pure, Option.bind_eq_some_iff] at h
    obtain ⟨_, -, _, hversion, _, hmemory, _, hiterations, _, hparallelism, _, -, he⟩ := h
    cases he
    exact ⟨unsigned_lt hversion, unsigned_lt hmemory, unsigned_lt hiterations,
      unsigned_lt hparallelism⟩
  · cases h

theorem nullable_some {α : Type} {decode : Node → Option α} {value : Option Node} {a : α}
    (h : nullable decode value = some (some a)) : ∃ node, decode node = some a := by
  unfold nullable at h
  split at h
  · cases h
  · cases h
  · obtain ⟨b, hb, he⟩ := Option.map_eq_some_iff.mp h
    cases he
    exact ⟨_, hb⟩

theorem decodeIdentity_small {node : Node} {identity : Identity}
    (h : decodeIdentity node = some identity) : ∀ kdf ∈ identity.kdf, SmallKdf kdf := by
  simp only [decodeIdentity, bind, Option.bind_eq_some_iff] at h
  obtain ⟨values, -, h⟩ := h
  split at h
  · simp only [pure, Option.bind_eq_some_iff] at h
    obtain ⟨_, -, _, -, _, -, _, -, _, -, _, -, kdf, hkdf, _, -, he⟩ := h
    cases he
    intro k hk
    cases hk
    obtain ⟨kdfNode, hk⟩ := nullable_some hkdf
    exact decodeKdf_small hk
  · cases h

/-- Whatever the form of a document, with fields left out, out of order or repeated in the
metadata: what is read from it is written as a document that is read as the same. -/
theorem written_again (document : Bytes) :
    (∀ manifest, readManifest floats document = some manifest → Whole manifest.metadata →
      readManifest floats (manifestBytes manifest) = some manifest) ∧
    (∀ bundle, readBundle document = some bundle →
      readBundle (bundleBytes bundle) = some bundle) ∧
    (∀ material, readMaterial document = some material →
      readMaterial (materialBytes material) = some material) ∧
    ∀ identity, readIdentity document = some identity →
      readIdentity (identityBytes identity) = some identity := by
  refine ⟨?_, ?_, ?_, ?_⟩
  · intro manifest h hw
    obtain ⟨node, -, hnode⟩ := Option.bind_eq_some_iff.mp h
    exact readManifest_manifestBytes floats (decodeManifest_storable floats hnode hw)
  · intro bundle _
    exact readBundle_bundleBytes bundle
  · intro material _
    exact readMaterial_materialBytes material
  · intro identity h
    obtain ⟨node, -, hnode⟩ := Option.bind_eq_some_iff.mp h
    exact readIdentity_identityBytes (decodeIdentity_small hnode)

/-- Without `issuer` and the fields after `metadata`, which has a name twice. -/
def shortDocument : Bytes :=
  asBytes ("\x7b\"merkle_root\":\"blake3:00\",\"schema_version\":\"0.1.0\"," ++
    "\"metadata\":\x7b\"b\":1,\"a\":[true],\"b\":-2\x7d,\"created_at\":\"\"\x7d")

def shortMetadata : List (String × Value) :=
  [("a", .array [.bool true]), ("b", .number "-2")]

def shortManifest : QcapManifest := .new "0.1.0" "blake3:00" none "" (.object shortMetadata)

theorem shortMetadata_map :
    mapOf [("b", .number "1"), ("a", .array [.bool true]), ("b", .number "-2")] =
      shortMetadata := by
  simp [mapOf, SortedIndex.upsert, SortedIndex.replaceFirst, SortedIndex.sortByKey,
    List.mergeSort, shortMetadata]

theorem shortDocument_read : readManifest (fun _ => none) shortDocument = some shortManifest := by
  have h : readManifest (fun _ => none) shortDocument =
      some (.new "0.1.0" "blake3:00" none "" (.object (mapOf
        [("b", .number "1"), ("a", .array [.bool true]), ("b", .number "-2")]))) := by
    rfl
  rw [h, shortMetadata_map]
  rfl

theorem shortMetadata_whole : Whole shortManifest.metadata := by
  have h : Integer "-2" := .negative (n := 2) (by decide) (by decide)
  simp [shortManifest, QcapManifest.new, shortMetadata, Whole, WholeMembers, WholeItems, h]

theorem shortDocument_again :
    readManifest (fun _ => none) (manifestBytes shortManifest) = some shortManifest :=
  (written_again _ shortDocument).1 _ shortDocument_read shortMetadata_whole

theorem fieldValues_opening {fields : List Field} {node : Node} {values : List (Option Node)}
    (h : fieldValues fields node = some values) :
    opening node = some '[' ∨ opening node = some '\x7b' := by
  cases node with
  | array items => exact Or.inl rfl
  | object members => exact Or.inr rfl
  | _ => cases h

theorem serdeCodec_writesObjects : (serdeCodec floats).WritesObjects := fun _ =>
  firstByte_object _ _ _ _

theorem serdeCodec_readsObjects : (serdeCodec floats).ReadsObjects := by
  intro document manifest h
  obtain ⟨node, hdocument, hnode⟩ := Option.bind_eq_some_iff.mp h
  obtain ⟨values, hvalues, -⟩ := Option.bind_eq_some_iff.mp hnode
  rcases fieldValues_opening hvalues with hc | hc
  · obtain ⟨tail, htail⟩ := readDocument_opening hdocument hc
    exact Or.inr (firstByte_rune (by decide) (by decide) htail)
  · obtain ⟨tail, htail⟩ := readDocument_opening hdocument hc
    exact Or.inl (firstByte_rune (by decide) (by decide) htail)

end QCap.SerdePackage
