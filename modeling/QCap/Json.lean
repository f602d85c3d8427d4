import QCap.Formats

/-!
# Writing JSON

`serde_json::to_vec_pretty` and `to_vec` at the document types, with the field names of the
structures. A codec that writes these bytes and reads back a given set of documents runs the
model on concrete inputs.
-/
namespace QCap.Json

open QCap.Text QCap.Formats

/-- `\u00XX`, and the short forms of the common control characters. -/
def escapeChar (c : Char) : String :=
  if c = '"' then "\\\""
  else if c = '\\' then "\\\\"
  else if c = '\x08' then "\\b"
  else if c = '\x0c' then "\\f"
  else if c = '\n' then "\\n"
  else if c = '\r' then "\\r"
  else if c = '\t' then "\\t"
  else if c.toNat < 32 then "\\u00" ++ hexEncode [UInt8.ofNat c.toNat]
  else String.singleton c

def quote (s : String) : String := "\"" ++ String.join (s.toList.map escapeChar) ++ "\""

def newline (pretty : Bool) (depth : ℕ) : String :=
  if pretty then "\n" ++ String.join (List.replicate depth "  ") else ""

mutual

/-- One value; `depth` counts the containers around it. -/
def render (pretty : Bool) (depth : ℕ) : Value → String
  | .null => "null"
  | .bool b => if b then "true" else "false"
  | .number literal => literal
  | .string s => quote s
  | .array [] => "[]"
  | .array (item :: items) =>
    "[" ++ newline pretty (depth + 1) ++ render pretty (depth + 1) item ++
      renderItems pretty depth items ++ newline pretty depth ++ "]"
  | .object [] => "\x7b\x7d"
  | .object ((name, value) :: members) =>
    "\x7b" ++ newline pretty (depth + 1) ++ quote name ++ (if pretty then ": " else ":") ++
      render pretty (depth + 1) value ++ renderMembers pretty depth members ++
      newline pretty depth ++ "\x7d"

def renderItems (pretty : Bool) (depth : ℕ) : List Value → String
  | [] => ""
  | item :: items =>
    "," ++ newline pretty (depth + 1) ++ render pretty (depth + 1) item ++
      renderItems pretty depth items

def renderMembers (pretty : Bool) (depth : ℕ) : List (String × Value) → String
  | [] => ""
  | (name, value) :: members =>
    "," ++ newline pretty (depth + 1) ++ quote name ++ (if pretty then ": " else ":") ++
      render pretty (depth + 1) value ++ renderMembers pretty depth members

end

def optionalString : Option String → Value
  | some s => .string s
  | none => .null

def payloadFileValue (file : PayloadFile) : Value :=
  .object [("path", .string file.path), ("size", .number (toString file.size)),
    ("nonce", .string file.nonce), ("ciphertext_hash", .string file.ciphertextHash)]

def recipientValue (stanza : RecipientStanza) : Value :=
  .object [("recipient", .string stanza.recipient),
    ("ephemeral_public_key", .string stanza.ephemeralPublicKey),
    ("nonce", .string stanza.nonce), ("wrapped_key", .string stanza.wrappedKey),
    ("algorithm", .string stanza.algorithm)]

def manifestMembers (manifest : QcapManifest) : List (String × Value) :=
  [("merkle_root", .string manifest.merkleRoot), ("issuer", optionalString manifest.issuer),
    ("created_at", .string manifest.createdAt), ("metadata", manifest.metadata),
    ("package_id", optionalString manifest.packageId), ("encrypted", .bool manifest.encrypted),
    ("files", .array (manifest.files.map payloadFileValue)),
    ("recipients", .array (manifest.recipients.map recipientValue)),
    ("algorithms", .array (manifest.algorithms.map .string))]

/-- `QcapManifest::to_json_bytes`. -/
def manifestBytes (manifest : QcapManifest) : Bytes :=
  asBytes (render true 0
    (.object (("schema_version", .string manifest.schemaVersion) :: manifestMembers manifest)))

def bundleBytes (bundle : QcapSignatureBundle) : Bytes :=
  asBytes (render true 0 (.object
    [("merkle_root", .string bundle.merkleRoot), ("signature", .string bundle.signature),
      ("public_key", .string bundle.publicKey), ("algorithm", .string bundle.algorithm)]))

def materialBytes (material : PrivateKeyMaterial) : Bytes :=
  asBytes (render false 0 (.object
    [("signing_seed", .string material.signingSeed),
      ("encryption_secret", .string material.encryptionSecret)]))

theorem length_escapeChar (c : Char) : (asBytes (escapeChar c)).length ≤ 6 * c.utf8Size := by
  have hpos := c.utf8Size_pos
  have hshort : ∀ t : String, (asBytes t).length = 2 →
      (asBytes t).length ≤ 6 * c.utf8Size := fun t ht => by omega
  unfold escapeChar
  split_ifs
  · exact hshort _ (by decide)
  · exact hshort _ (by decide)
  · exact hshort _ (by decide)
  · exact hshort _ (by decide)
  · exact hshort _ (by decide)
  · exact hshort _ (by decide)
  · exact hshort _ (by decide)
  · have hu : (asBytes "\\u00").length = 4 := by decide
    rw [asBytes_append, List.length_append, hu, length_asBytes_hexEncode, List.length_singleton]
    omega
  · simp only [length_asBytes, String.toList_singleton, List.map_cons, List.map_nil,
      List.sum_cons, List.sum_nil]
    omega

theorem length_quote (s : String) : (asBytes (quote s)).length ≤ 6 * (asBytes s).length + 2 := by
  have hbody : ∀ cs : List Char, (asBytes (String.join (cs.map escapeChar))).length ≤
      6 * (cs.map Char.utf8Size).sum := by
    intro cs
    induction cs with
    | nil => decide
    | cons c cs ih =>
      have hc := length_escapeChar c
      rw [List.map_cons, String.join_cons, asBytes_append, List.length_append, List.map_cons,
        List.sum_cons]
      omega
  have hquote : (asBytes "\"").length = 1 := by decide
  rw [quote, asBytes_append, asBytes_append, List.length_append, List.length_append, hquote,
    length_asBytes s]
  have h := hbody s.toList
  omega

theorem length_bundleBytes (bundle : QcapSignatureBundle) : (bundleBytes bundle).length ≤
    6 * ((asBytes bundle.merkleRoot).length + (asBytes bundle.signature).length +
      (asBytes bundle.publicKey).length + (asBytes bundle.algorithm).length) + 100 := by
  have hroot := length_quote bundle.merkleRoot
  have hsignature := length_quote bundle.signature
  have hkey := length_quote bundle.publicKey
  have halgorithm := length_quote bundle.algorithm
  have hempty : (asBytes (quote "")).length = 2 := by decide
  -- All that is not one of the four texts is also there when they are empty.
  have hrest : (bundleBytes ⟨"", "", "", ""⟩).length ≤ 100 := by decide
  simp only [bundleBytes, render, renderMembers, asBytes_append, List.length_append] at hrest ⊢
  omega

theorem firstByte_object (pretty : Bool) (name : String) (value : Value)
    (members : List (String × Value)) :
    firstByte (asBytes (render pretty 0 (.object ((name, value) :: members)))) = some 123 := by
  have h : asBytes "\x7b" = [123] := by decide
  simp only [render, asBytes_append, h, List.append_assoc]
  rfl

/-- Documents that are read back: the ones listed, from the bytes they are written as. Key
files of identities are not among them. -/
def documentCodec (manifests : List QcapManifest) (bundles : List QcapSignatureBundle)
    (materials : List PrivateKeyMaterial) : JsonCodec where
  manifestBytes := manifestBytes
  parseManifest document := manifests.find? fun m => manifestBytes m = document
  bundleBytes := bundleBytes
  parseBundle document := bundles.find? fun b => bundleBytes b = document
  materialBytes := materialBytes
  parseMaterial document := materials.find? fun k => materialBytes k = document
  parseIdentity _ := none

theorem documentCodec_single (manifest : QcapManifest) (bundle : QcapSignatureBundle)
    (materials : List PrivateKeyMaterial) :
    (documentCodec [manifest] [bundle] materials).parseManifest (manifestBytes manifest) =
        some manifest ∧
      (documentCodec [manifest] [bundle] materials).parseBundle (bundleBytes bundle) =
        some bundle := by
  simp [documentCodec]

variable (manifests : List QcapManifest) (bundles : List QcapSignatureBundle)
  (materials : List PrivateKeyMaterial)

theorem documentCodec_writesObjects :
    (documentCodec manifests bundles materials).WritesObjects := fun _ =>
  firstByte_object _ _ _ _

theorem documentCodec_readsObjects :
    (documentCodec manifests bundles materials).ReadsObjects := by
  intro document m h
  have hb : manifestBytes m = document := by simpa using List.find?_some h
  exact Or.inl (hb ▸ firstByte_object _ _ _ _)

example : materialBytes ⟨"a\"b", "\x01"⟩ =
    asBytes "\x7b\"signing_seed\":\"a\\\"b\",\"encryption_secret\":\"\\u0001\"\x7d" := by decide

end QCap.Json
