import QCap.IndexJson
import QCap.RegistryPublish
import QCap.SerdeDocuments

/-!
# What the registry writes as JSON

After a save the index file has the index, and the client reads the name and the path of its
upload in the answer to it.
-/
namespace QCap.GoEncoder

open QCap.Text QCap.Formats QCap.Json QCap.JsonReader QCap.HtmlEscape QCap.GoJson
open QCap.RegistryArchive QCap.RegistryFiles QCap.RegistryIndex QCap.RegistryPublish
open QCap.IndexJson
open QCap.SerdeDocuments (keyed member structFields text textFields structFields_object
  text_string)

def documentValue (d : RevocationDocument) : Value :=
  .object [("issuer", .string d.issuer), ("path", .string d.path),
    ("size", .number (toString d.size)), ("content_type", .string d.contentType),
    ("digest", .string d.digest), ("created_at", .string d.createdAt)]

/-- `Encode` of a `json.Encoder`. -/
def encode (v : Value) : Bytes := asBytes (htmlEscape (render false 0 v)) ++ [10]

structure PublishResponse where
  name : String
  path : String

structure RevocationResponse where
  issuer : String
  path : String

def readPublishResponse (document : Bytes) : Option PublishResponse := do
  match ← readDocument document >>= textFields ["name", "path"] with
  | [name, path] => some ⟨name, path⟩
  | _ => none

def readRevocationResponse (document : Bytes) : Option RevocationResponse := do
  match ← readDocument document >>= textFields ["issuer", "path"] with
  | [issuer, path] => some ⟨issuer, path⟩
  | _ => none

/-- After a save the index file has the index, whatever characters stand in the names. -/
theorem saved_index_read (emptied : Bool) (cfg : Config) (faults : SaveFaults) (numbers : Numbers)
    {index : List Capsule} (files : Files) (hsize : ∀ c ∈ index, IsInt64 c.size)
    (hs : (saveIndexLocked (goIndexCodec emptied) cfg faults numbers index files).1 = .ok ()) :
    readIndex (goIndexCodec emptied) cfg
        (saveIndexLocked (goIndexCodec emptied) cfg faults numbers index files).2 =
      .ok index := by
  have hspec := saveIndexLocked_spec (goIndexCodec emptied) cfg faults numbers index files
  have hread := goIndexCodec_readsBack emptied index hsize
  have hbytes : indexBytes (goIndexCodec emptied) index ≠ [] :=
    List.append_ne_nil_of_right_ne_nil _ (List.cons_ne_nil 10 [])
  obtain ⟨b, bs, hcons⟩ := List.exists_cons_of_ne_nil hbytes
  rw [readIndex, hspec.installed hs, hcons]
  rw [indexBytes] at hcons
  rw [hcons] at hread
  exact hread

/-- HTML in a name, and an `int64` below zero that a hand wrote. -/
theorem saved_markup_read :
    let index : List Capsule := [⟨"a<b>.qcap", "/artifacts/a<b>.qcap", -3, "", "", "now"⟩]
    readIndex (goIndexCodec false) (Config.default ["data"] "")
      (saveIndexLocked (goIndexCodec false) (Config.default ["data"] "") SaveFaults.none ⟨0, 0⟩
        index ∅).2 = .ok index := by
  intro index
  obtain ⟨files', hsaved, -⟩ := saveIndexLocked_none (goIndexCodec false)
    (Config.default ["data"] "") ⟨0, 0⟩ index ∅
  have hsize : ∀ c ∈ index, IsInt64 c.size := by
    intro c hc
    rw [List.mem_singleton.mp hc]
    decide
  exact saved_index_read _ _ _ _ _ hsize (congrArg Prod.fst hsaved)

variable {names fields : List String}

theorem text_escape (v : Node) : text (escapeNode v) = text v := by
  cases v with
  | string ps => exact joinText_escape false ps
  | null | bool _ | number _ | array _ | object _ => rfl

theorem keyed_escape (ms : List (List Piece × Node)) :
    keyed (escapeMembers ms) = (keyed ms).map (List.map fun m => (m.1, escapeNode m.2)) := by
  rw [keyed, keyed, escapeMembers_eq_map]
  induction ms with
  | nil => rfl
  | cons m ms ih =>
    rw [List.map_cons, List.mapM_cons, List.mapM_cons, ih, joinText_escape]
    cases joinText false m.1 with
    | none => rfl
    | some name =>
      cases ms.mapM fun m => (joinText false m.1).map fun name => (name, m.2) with
      | none => rfl
      | some named => rfl

theorem member_escape (named : List (String × Node)) (name : String) :
    member (named.map fun m => (m.1, escapeNode m.2)) name =
      (member named name).map escapeNode := by
  have hfilter : (named.map fun m => (m.1, escapeNode m.2)).filter (fun m => m.1 = name) =
      (named.filter fun m => m.1 = name).map fun m => (m.1, escapeNode m.2) := by
    rw [List.filter_map]
    rfl
  rw [member, member, hfilter]
  generalize (named.filter fun m => m.1 = name) = found
  rcases found with _ | ⟨m, _ | ⟨m', ms⟩⟩
  · rfl
  · rfl
  · rfl

theorem mapM_map_some {α β γ : Type} (f : α → Option β) (g : β → γ) (xs : List α) :
    xs.mapM (fun x => (f x).map g) = (xs.mapM f).map (List.map g) := by
  induction xs with
  | nil => rfl
  | cons x xs ih =>
    rw [List.mapM_cons, List.mapM_cons, ih]
    cases f x with
    | none => rfl
    | some y => cases xs.mapM f <;> rfl

theorem structFields_escape (node : Node) :
    structFields names (escapeNode node) =
      (structFields names node).map (List.map escapeNode) := by
  cases node with
  | object ms =>
    rw [escapeNode, structFields, structFields, keyed_escape]
    cases keyed ms with
    | none => rfl
    | some named =>
      have hmember : member (named.map fun m => (m.1, escapeNode m.2)) =
          fun name => (member named name).map escapeNode := funext (member_escape named)
      simp only [Option.map_some, Option.bind_eq_bind, Option.bind_some, hmember, mapM_map_some]
  | array vs =>
    rw [escapeNode, structFields, structFields, escapeNodes_eq_map, List.length_map]
    by_cases hl : vs.length = names.length
    · rw [if_pos hl, if_pos hl]
      rfl
    · rw [if_neg hl, if_neg hl]
      rfl
  | null | bool _ | number _ | string _ => rfl

theorem textFields_escape (node : Node) :
    textFields names (escapeNode node) = textFields names node := by
  rw [textFields, textFields, structFields_escape]
  cases structFields names node with
  | none => rfl
  | some values =>
    simp only [Option.map_some, Option.bind_eq_bind, Option.bind_some]
    rw [List.mapM_map]
    congr 1
    exact funext text_escape

theorem valid_documentValue (d : RevocationDocument) : Valid (documentValue d) := by
  have hsize := isNumber_toString d.size
  simp only [documentValue, Valid, ValidMembers, hsize, and_self]

theorem readPublishResponse_created (c : Capsule) :
    readPublishResponse (encode (capsuleValue c)) = some ⟨c.name, c.path⟩ := by
  have hfields : structFields ["name", "path"] (rawValue (capsuleValue c)) =
      some [rawValue (.string c.name), rawValue (.string c.path)] := by
    rw [capsuleValue, structFields_object]
    rfl
  have htexts : textFields ["name", "path"] (rawValue (capsuleValue c)) =
      some [c.name, c.path] := by
    simp [textFields, hfields]
  rw [readPublishResponse, encode, readDocument_line false (valid_capsuleValue c)]
  simp only [Option.bind_eq_bind, Option.bind_some, textFields_escape, htexts]

theorem readRevocationResponse_created (d : RevocationDocument) :
    readRevocationResponse (encode (documentValue d)) = some ⟨d.issuer, d.path⟩ := by
  have hfields : structFields ["issuer", "path"] (rawValue (documentValue d)) =
      some [rawValue (.string d.issuer), rawValue (.string d.path)] := by
    rw [documentValue, structFields_object]
    rfl
  have htexts : textFields ["issuer", "path"] (rawValue (documentValue d)) =
      some [d.issuer, d.path] := by
    simp [textFields, hfields]
  rw [readRevocationResponse, encode, readDocument_line false (valid_documentValue d)]
  simp only [Option.bind_eq_bind, Option.bind_some, textFields_escape, htexts]

end QCap.GoEncoder
