import QCap.JsonReader

/-!
# Structures of `serde_json`

What the derived decoders make of a JSON document: an object that has each field once, under
its exact name, besides names that are skipped, or an array of the fields in order. A string
that is read must be Unicode text. Documents that were written are read back.
-/
namespace QCap.SerdeDocuments

open QCap.Text QCap.Formats QCap.Json QCap.JsonReader

/-- Every name is decoded, also one that is then skipped with its value. -/
def keyed (members : List (List Piece × Node)) : Option (List (String × Node)) :=
  members.mapM fun m => (joinText false m.1).map fun name => (name, m.2)

/-- A missing field and a repeated one are both errors. -/
def member (members : List (String × Node)) (name : String) : Option Node :=
  match members.filter fun m => m.1 = name with
  | [(_, value)] => some value
  | _ => none

def structFields (names : List String) : Node → Option (List Node)
  | .object members => do
    let members ← keyed members
    names.mapM (member members)
  | .array items => if items.length = names.length then some items else none
  | _ => none

def text : Node → Option String
  | .string raw => joinText false raw
  | _ => none

def textFields (names : List String) (node : Node) : Option (List String) := do
  let values ← structFields names node
  values.mapM text

def sequence {α : Type} (decode : Node → Option α) : Node → Option (List α)
  | .array items => items.mapM decode
  | _ => none

def entryNames : List String := ["cap_root", "capability_signature", "revoked_at", "reason"]

def decodeEntry (node : Node) : Option RevocationEntry := do
  match ← textFields entryNames node with
  | [capRoot, capabilitySignature, revokedAt, reason] =>
    some ⟨capRoot, capabilitySignature, revokedAt, reason⟩
  | _ => none

def listNames : List String :=
  ["schema_version", "revoked", "signature", "public_key", "algorithm"]

def decodeList (node : Node) : Option RevocationList := do
  match ← structFields listNames node with
  | [schemaVersion, revoked, signature, publicKey, algorithm] =>
    return ⟨← text schemaVersion, ← sequence decodeEntry revoked, ← text signature,
      ← text publicKey, ← text algorithm⟩
  | _ => none

def tokenNames : List String :=
  ["cap_root", "allow", "expires", "signature", "public_key", "algorithm"]

def decodeToken (node : Node) : Option CapabilityToken := do
  match ← textFields tokenNames node with
  | [capRoot, allow, expires, signature, publicKey, algorithm] =>
    some ⟨capRoot, allow, expires, signature, publicKey, algorithm⟩
  | _ => none

def entryValue (entry : RevocationEntry) : Value :=
  .object [("cap_root", .string entry.capRoot),
    ("capability_signature", .string entry.capabilitySignature),
    ("revoked_at", .string entry.revokedAt), ("reason", .string entry.reason)]

def listValue (list : RevocationList) : Value :=
  .object [("schema_version", .string list.schemaVersion),
    ("revoked", .array (list.revoked.map entryValue)), ("signature", .string list.signature),
    ("public_key", .string list.publicKey), ("algorithm", .string list.algorithm)]

def tokenValue (token : CapabilityToken) : Value :=
  .object [("cap_root", .string token.capRoot), ("allow", .string token.allow),
    ("expires", .string token.expires), ("signature", .string token.signature),
    ("public_key", .string token.publicKey), ("algorithm", .string token.algorithm)]

/-- `write_json` of a list. -/
def listBytes (list : RevocationList) : Bytes := asBytes (render true 0 (listValue list))

/-- `read_json` of a list. -/
def readList (document : Bytes) : Option RevocationList := readDocument document >>= decodeList

def tokenBytes (token : CapabilityToken) : Bytes := asBytes (render true 0 (tokenValue token))

def readToken (document : Bytes) : Option CapabilityToken :=
  readDocument document >>= decodeToken

theorem keyed_rawMembers (members : List (String × Value)) :
    keyed (rawMembers members) = some (members.map fun m => (m.1, rawValue m.2)) := by
  rw [keyed]
  induction members with
  | nil => rfl
  | cons m members ih =>
    obtain ⟨name, value⟩ := m
    rw [rawMembers, List.mapM_cons, ih]
    simp

theorem structFields_object (names : List String) (members : List (String × Value)) :
    structFields names (rawValue (.object members)) =
      names.mapM (member (members.map fun m => (m.1, rawValue m.2))) := by
  rw [rawValue, structFields, keyed_rawMembers]
  rfl

@[simp] theorem text_string (s : String) : text (rawValue (.string s)) = some s := by
  simp [rawValue, text]

@[simp] theorem decodeEntry_entryValue (entry : RevocationEntry) :
    decodeEntry (rawValue (entryValue entry)) = some entry := by
  have hfields : structFields entryNames (rawValue (entryValue entry)) =
      some [rawValue (.string entry.capRoot), rawValue (.string entry.capabilitySignature),
        rawValue (.string entry.revokedAt), rawValue (.string entry.reason)] := by
    rw [entryValue, structFields_object]
    rfl
  simp [decodeEntry, textFields, hfields]

theorem decodeToken_tokenValue (token : CapabilityToken) :
    decodeToken (rawValue (tokenValue token)) = some token := by
  have hfields : structFields tokenNames (rawValue (tokenValue token)) =
      some [rawValue (.string token.capRoot), rawValue (.string token.allow),
        rawValue (.string token.expires), rawValue (.string token.signature),
        rawValue (.string token.publicKey), rawValue (.string token.algorithm)] := by
    rw [tokenValue, structFields_object]
    rfl
  simp [decodeToken, textFields, hfields]

theorem decodeList_listValue (list : RevocationList) :
    decodeList (rawValue (listValue list)) = some list := by
  have hentries : sequence decodeEntry (rawValue (.array (list.revoked.map entryValue))) =
      some list.revoked := by
    rw [rawValue, sequence]
    induction list.revoked with
    | nil => rfl
    | cons entry entries ih => simp [rawItems, ih]
  have hfields : structFields listNames (rawValue (listValue list)) =
      some [rawValue (.string list.schemaVersion),
        rawValue (.array (list.revoked.map entryValue)), rawValue (.string list.signature),
        rawValue (.string list.publicKey), rawValue (.string list.algorithm)] := by
    rw [listValue, structFields_object]
    rfl
  simp [decodeList, hfields, hentries]

theorem valid_entries (entries : List RevocationEntry) :
    ValidItems (entries.map entryValue) :=
  validItems_map (fun _ => by simp [entryValue, Valid, ValidMembers]) entries

theorem valid_listValue (list : RevocationList) : Valid (listValue list) := by
  simpa [listValue, Valid, ValidMembers] using valid_entries list.revoked

theorem readList_listBytes (list : RevocationList) : readList (listBytes list) = some list := by
  rw [readList, listBytes, readDocument_render true (valid_listValue list)]
  exact decodeList_listValue list

theorem readToken_tokenBytes (token : CapabilityToken) :
    readToken (tokenBytes token) = some token := by
  have hv : Valid (tokenValue token) := by simp [tokenValue, Valid, ValidMembers]
  rw [readToken, tokenBytes, readDocument_render true hv]
  exact decodeToken_tokenValue token

end QCap.SerdeDocuments
