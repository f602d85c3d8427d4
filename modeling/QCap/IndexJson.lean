import QCap.GoJson
import QCap.HtmlEscape
import QCap.RegistryIndex
import Std.Data.String.ToInt

/-!
# The index file

`encoding/json` escapes HTML in the index file, and `json.Unmarshal` has the index back.
-/
namespace QCap.IndexJson

open QCap.Text QCap.Formats QCap.Json QCap.JsonReader QCap.HtmlEscape QCap.GoJson
open QCap.RegistryArchive QCap.RegistryIndex

def capsuleMembers (c : Capsule) : List (String × Value) :=
  [("name", .string c.name), ("path", .string c.path), ("size", .number (toString c.size)),
    ("content_type", .string c.contentType), ("digest", .string c.digest),
    ("created_at", .string c.createdAt)]

def capsuleValue (c : Capsule) : Value := .object (capsuleMembers c)

/-- A nil slice is `null`. A slice that had entries is not nil when it is `emptied`. -/
def indexValue (emptied : Bool) (index : List Capsule) : Value :=
  if index = [] ∧ emptied = false then .null else .array (index.map capsuleValue)

def marshalIndent (v : Value) : Bytes := asBytes (htmlEscape (render true 0 v))

def textNames : List String := ["name", "path", "content_type", "digest", "created_at"]

structure GoCapsule where
  texts : List String
  size : ℤ

def GoCapsule.zero : GoCapsule := ⟨["", "", "", "", ""], 0⟩

def GoCapsule.capsule (g : GoCapsule) : Capsule :=
  match g.texts with
  | [name, path, contentType, digest, createdAt] =>
    ⟨name, path, g.size, contentType, digest, createdAt⟩
  | _ => ⟨"", "", g.size, "", "", ""⟩

def decodeSize (old : ℤ) : Node → Option ℤ
  | .null => some old
  | .number literal => literal.toInt?.filter fun n => decide (IsInt64 n)
  | _ => none

def capsuleField (g : GoCapsule) (m : List Piece × Node) : Option GoCapsule :=
  if foldName (goText m.1) = "size" then (decodeSize g.size m.2).map fun size => { g with size }
  else (setField textNames g.texts m).map fun texts => { g with texts }

def decodeCapsule : Node → Option Capsule
  | .object members => (members.foldlM capsuleField GoCapsule.zero).map GoCapsule.capsule
  | .null => some GoCapsule.zero.capsule
  | _ => none

/-- `json.Unmarshal` to a nil slice. -/
def decodeIndex : Node → Option (List Capsule)
  | .null => some []
  | .array items => items.mapM decodeCapsule
  | _ => none

def goIndexCodec (emptied : Bool) : IndexCodec where
  marshalIndent index := marshalIndent (indexValue emptied index)
  unmarshal := unmarshal decodeIndex

theorem htmlEscape_append (s u : String) : htmlEscape (s ++ u) = htmlEscape s ++ htmlEscape u := by
  rw [← String.toList_inj]
  simp [htmlEscape, String.toList_append]

theorem readDocument_line {v : Value} (pretty : Bool) (hv : Valid v) :
    readDocument (asBytes (htmlEscape (render pretty 0 v)) ++ [10]) =
      some (escapeNode (rawValue v)) := by
  have hend : asBytes (htmlEscape (render pretty 0 v)) ++ [10] =
      asBytes (htmlEscape (render pretty 0 v ++ "\n")) := by
    rw [htmlEscape_append, asBytes_append]
    rfl
  have hfollows : Follows [some '\n'] := by
    intro r hr
    cases hr
    decide
  have hrunes : decodeRunes (asBytes (render pretty 0 v ++ "\n")) =
      runes (render pretty 0 v).toList ++ [some '\n'] := by
    rw [decodeRunes_asBytes, String.toList_append, runes_append]
    rfl
  have hlength : (render pretty 0 v).toList.length ≤
      (runes (render pretty 0 v).toList ++ [some '\n']).length + 1 := by
    rw [List.length_append, runes, List.length_map]
    omega
  rw [hend]
  apply readDocument_htmlEscape
  rw [readDocument, hrunes]
  dsimp only
  rw [readValue_render pretty v 0 _ _ hv hfollows hlength]
  rfl

theorem escapeMembers_eq_map (ms : List (List Piece × Node)) :
    escapeMembers ms = ms.map fun m => (m.1.map escapePiece, escapeNode m.2) := by
  induction ms with
  | nil => rfl
  | cons m ms ih => rw [escapeMembers, ih]; rfl

theorem escapeNodes_eq_map (vs : List Node) : escapeNodes vs = vs.map escapeNode := by
  induction vs with
  | nil => rfl
  | cons v vs ih => rw [escapeNodes, ih]; rfl

variable {names fields : List String}

theorem goText_escape (ps : List Piece) : goText (ps.map escapePiece) = goText ps := by
  rw [goText, joinText_escape, goText]

theorem setField_escape (m : List Piece × Node) :
    setField names fields (m.1.map escapePiece, escapeNode m.2) = setField names fields m := by
  obtain ⟨name, v⟩ := m
  dsimp only
  rw [setField, setField, goText_escape]
  cases names.findIdx? fun n => foldName (goText name) = n with
  | none => cases v <;> rfl
  | some i =>
    cases v with
    | string ps =>
      dsimp only [escapeNode]
      rw [goText_escape]
    | null | bool _ | number _ | array _ | object _ => rfl

theorem capsuleField_escape (g : GoCapsule) (m : List Piece × Node) :
    capsuleField g (m.1.map escapePiece, escapeNode m.2) = capsuleField g m := by
  rw [capsuleField, capsuleField, setField_escape, goText_escape]
  by_cases hsize : foldName (goText m.1) = "size"
  · rw [if_pos hsize, if_pos hsize]
    cases m.2 <;> rfl
  · rw [if_neg hsize, if_neg hsize]

theorem decodeCapsule_escape (node : Node) :
    decodeCapsule (escapeNode node) = decodeCapsule node := by
  cases node with
  | object ms =>
    rw [escapeNode, decodeCapsule, decodeCapsule, escapeMembers_eq_map, List.foldlM_map]
    congr 2
    funext g m
    exact capsuleField_escape g m
  | null | bool _ | number _ | string _ | array _ => rfl

theorem decodeIndex_escape (node : Node) : decodeIndex (escapeNode node) = decodeIndex node := by
  cases node with
  | array vs =>
    rw [escapeNode, decodeIndex, decodeIndex, escapeNodes_eq_map, List.mapM_map]
    congr 1
    exact funext decodeCapsule_escape
  | null | bool _ | number _ | string _ | object _ => rfl

variable {c : Capsule}

theorem capsuleField_text {g : GoCapsule} {name s : String} {i : ℕ}
    (hi : (textNames.findIdx? fun n => foldName name = n) = some i)
    (hname : foldName name ≠ "size") :
    capsuleField g (rawString name, rawValue (.string s)) =
      some { g with texts := g.texts.set i s } := by
  rw [capsuleField, goText_rawString, if_neg hname, setField_text hi]
  rfl

theorem capsuleField_size {g : GoCapsule} {size : ℤ} (h : IsInt64 size) :
    capsuleField g (rawString "size", rawValue (.number (toString size))) =
      some { g with size } := by
  have hsize : foldName "size" = "size" := by decide
  have hdecode : decodeSize g.size (rawValue (.number (toString size))) = some size := by
    rw [rawValue, decodeSize, Int.toString_eq_repr, Int.toInt?_repr]
    simpa using h
  rw [capsuleField, goText_rawString, if_pos hsize, hdecode]
  rfl

theorem decodeCapsule_capsuleValue (h : IsInt64 c.size) :
    decodeCapsule (rawValue (capsuleValue c)) = some c := by
  rw [capsuleValue, capsuleMembers, rawValue, decodeCapsule]
  simp only [rawMembers, List.foldlM_cons, List.foldlM_nil, capsuleField_size h,
    capsuleField_text (show textNames.findIdx? (fun n => foldName "name" = n) = some 0
      by decide) (by decide),
    capsuleField_text (show textNames.findIdx? (fun n => foldName "path" = n) = some 1
      by decide) (by decide),
    capsuleField_text (show textNames.findIdx? (fun n => foldName "content_type" = n) = some 2
      by decide) (by decide),
    capsuleField_text (show textNames.findIdx? (fun n => foldName "digest" = n) = some 3
      by decide) (by decide),
    capsuleField_text (show textNames.findIdx? (fun n => foldName "created_at" = n) = some 4
      by decide) (by decide)]
  rfl

theorem decodeIndex_indexValue (emptied : Bool) {index : List Capsule}
    (h : ∀ c ∈ index, IsInt64 c.size) :
    decodeIndex (rawValue (indexValue emptied index)) = some index := by
  unfold indexValue
  by_cases hnil : index = [] ∧ emptied = false
  · rw [if_pos hnil, hnil.1]
    rfl
  rw [if_neg hnil, rawValue, decodeIndex]
  clear hnil
  induction index with
  | nil => rfl
  | cons c index ih =>
    rw [List.forall_mem_cons] at h
    rw [List.map_cons, rawItems, List.mapM_cons, decodeCapsule_capsuleValue h.1, ih h.2]
    rfl

theorem valid_capsuleValue (c : Capsule) : Valid (capsuleValue c) := by
  have hsize := isNumber_int c.size
  simp only [capsuleValue, capsuleMembers, Valid, ValidMembers, hsize, and_self]

theorem valid_indexValue (emptied : Bool) (index : List Capsule) :
    Valid (indexValue emptied index) := by
  unfold indexValue
  by_cases hnil : index = [] ∧ emptied = false
  · rw [if_pos hnil]
    trivial
  · rw [if_neg hnil, Valid]
    exact validItems_map valid_capsuleValue index

/-- `json.Unmarshal` reads every index that `json.MarshalIndent` wrote. -/
theorem goIndexCodec_readsBack (emptied : Bool) : (goIndexCodec emptied).ReadsBack := by
  intro index h
  have hdocument := readDocument_line true (valid_indexValue emptied index)
  simp only [goIndexCodec, unmarshal, marshalIndent, hdocument]
  rw [decodeIndex_escape, decodeIndex_indexValue emptied h]

end QCap.IndexJson
