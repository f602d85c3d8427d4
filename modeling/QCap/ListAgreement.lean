import QCap.LastWord
import QCap.SerdeDocuments
import QCap.Revocation
import Mathlib.Data.List.Forall2

/-!
# Revocation lists at both ends

The registry decodes a list with `encoding/json`, the client with `serde_json`. A document
that the registry accepted means the same to the client exactly if each field is spelled out
once and has the last word under its name.
-/
namespace QCap.ListAgreement

open QCap.Text QCap.Crypto QCap.Formats QCap.Json QCap.JsonReader QCap.RegistryArchive
open QCap.GoJson QCap.LastWord QCap.Revocation QCap.Signatures
open QCap.SerdeDocuments (keyed member structFields text textFields readList listBytes
  valid_listValue)

def Unicode (members : List Member) : Prop := ∀ m ∈ members, (joinText false m.1).isSome

def spelled (name : String) (m : Member) : Option Node :=
  if joinText false m.1 = some name then some m.2 else none

def single {α : Type} : List α → Option α
  | [a] => some a
  | _ => none

def only (name : String) (members : List Member) : Option Node :=
  single (members.filterMap (spelled name))

def onlyText (name : String) (members : List Member) : Option String :=
  only name members >>= text

theorem keyed_eq_some {members : List Member} {named : List (String × Node)}
    (h : keyed members = some named) : Unicode members ∧
      ∀ name, (named.filter fun m => m.1 = name).map Prod.snd =
        members.filterMap (spelled name) := by
  rw [keyed] at h
  induction members generalizing named with
  | nil =>
    cases h
    exact ⟨by simp [Unicode], fun _ => rfl⟩
  | cons m members ih =>
    simp only [List.mapM_cons, bind, pure, Option.bind_eq_some_iff, Option.map_eq_some_iff] at h
    obtain ⟨_, ⟨name, hname, rfl⟩, rest, hrest, he⟩ := h
    cases he
    obtain ⟨hu, hfilter⟩ := ih hrest
    refine ⟨by simpa [Unicode, hname] using hu, fun other => ?_⟩
    rw [List.filterMap_cons, spelled, hname]
    by_cases he : name = other
    · simp [he, ← hfilter]
    · simp [he, ← hfilter]

theorem keyed_of_unicode {members : List Member} (h : Unicode members) :
    ∃ named, keyed members = some named := by
  induction members with
  | nil => exact ⟨[], rfl⟩
  | cons m members ih =>
    obtain ⟨hm, hrest⟩ := List.forall_mem_cons.mp h
    obtain ⟨name, hname⟩ := Option.isSome_iff_exists.mp hm
    obtain ⟨named, hnamed⟩ := ih hrest
    rw [keyed] at hnamed
    exact ⟨(name, m.2) :: named, by simp [keyed, List.mapM_cons, hname, hnamed]⟩

theorem member_eq_only {members : List Member} {named : List (String × Node)}
    (h : keyed members = some named) (name : String) : member named name = only name members := by
  rw [only, ← (keyed_eq_some h).2 name, member]
  split
  · rename_i he
    rw [he]
    rfl
  · rename_i hne
    match hl : named.filter fun m => m.1 = name with
    | [] | _ :: _ :: _ => rw [hl]; rfl
    | [m] => exact absurd hl (hne m.1 m.2)

theorem structFields_object_iff {names : List String} {members : List Member}
    {values : List Node} : structFields names (.object members) = some values ↔
      Unicode members ∧ (names.mapM fun name => only name members) = some values := by
  rw [structFields]
  constructor
  · intro h
    obtain ⟨named, hnamed, h⟩ := Option.bind_eq_some_iff.mp h
    rw [funext (member_eq_only hnamed)] at h
    exact ⟨(keyed_eq_some hnamed).1, h⟩
  · rintro ⟨hu, h⟩
    obtain ⟨named, hnamed⟩ := keyed_of_unicode hu
    rw [hnamed]
    rw [← funext (member_eq_only hnamed)] at h
    exact h

theorem mapM_eq_some {α β : Type} {f : α → Option β} {xs : List α} {ys : List β} :
    xs.mapM f = some ys ↔ List.Forall₂ (fun x y => f x = some y) xs ys := by
  induction xs generalizing ys with
  | nil => cases ys <;> simp
  | cons x xs ih =>
    simp only [List.mapM_cons, bind, pure, Option.bind_eq_some_iff, List.forall₂_cons_left_iff,
      ← ih, Option.some.injEq]
    constructor
    · rintro ⟨y, hy, zs, hzs, rfl⟩
      exact ⟨y, zs, hy, hzs, rfl⟩
    · rintro ⟨y, zs, hy, hzs, rfl⟩
      exact ⟨y, hy, zs, hzs, rfl⟩

theorem mapM_mapM {α β γ : Type} (f : α → Option β) (g : β → Option γ) (xs : List α) :
    (xs.mapM f >>= fun ys => ys.mapM g) = xs.mapM fun x => f x >>= g := by
  induction xs with
  | nil => rfl
  | cons x xs ih =>
    rw [List.mapM_cons, List.mapM_cons, ← ih]
    cases f x with
    | none => rfl
    | some y =>
      cases hxs : xs.mapM f with
      | none => cases hy : g y <;> simp [hy]
      | some ys => simp [List.mapM_cons]

theorem textFields_iff {names : List String} {members : List Member} {g : String → String} :
    textFields names (.object members) = some (names.map g) ↔
      Unicode members ∧ ∀ name ∈ names, onlyText name members = some (g name) := by
  have hcomp := mapM_mapM (fun name => only name members) text names
  have hfields : textFields names (.object members) = some (names.map g) ↔
      Unicode members ∧ (names.mapM fun name => onlyText name members) = some (names.map g) := by
    constructor
    · intro h
      obtain ⟨values, hvalues, htexts⟩ := Option.bind_eq_some_iff.mp h
      obtain ⟨hu, hvalues⟩ := structFields_object_iff.mp hvalues
      rw [hvalues] at hcomp
      exact ⟨hu, hcomp.symm.trans htexts⟩
    · rintro ⟨hu, h⟩
      obtain ⟨values, hvalues, htexts⟩ := Option.bind_eq_some_iff.mp (hcomp.trans h)
      exact Option.bind_eq_some_iff.mpr
        ⟨values, structFields_object_iff.mpr ⟨hu, hvalues⟩, htexts⟩
  rw [hfields, mapM_eq_some, List.forall₂_map_right_iff, List.forall₂_same]

/-- Each field is spelled out once in `own`, with the text that has the last word in `all`. -/
structure Settled (names : List String) (own all : List Member) : Prop where
  unicode : Unicode own
  once : ∀ name ∈ names, onlyText name own = some (lastText name all)

/-- The array that is spelled out has the length of the last one, and each of its entries has
the last word at its position. -/
def SettledEntries (members : List Member) : Prop :=
  ∃ items, only "revoked" members = some (.array items) ∧
    items.length = lastLength (revokedValues members) ∧
    ∀ i (h : i < items.length), ∃ own, items[i] = .object own ∧
      Settled entryNames own (column (revokedValues members) i)

def SettledDocument (document : Bytes) : Prop :=
  ∃ members, readDocument document = some (.object members) ∧
    Settled listNames members members ∧ SettledEntries members

theorem decodeEntry_iff {item : Node} {fields : List String} (hl : fields.length = 4) :
    SerdeDocuments.decodeEntry item = some (entryOf fields) ↔
      textFields entryNames item = some fields := by
  obtain ⟨a, b, c, d, rfl⟩ : ∃ a b c d, fields = [a, b, c, d] := by
    match fields, hl with
    | [a, b, c, d], _ => exact ⟨a, b, c, d, rfl⟩
  rw [SerdeDocuments.decodeEntry]
  constructor
  · intro h
    obtain ⟨texts, htexts, h⟩ := Option.bind_eq_some_iff.mp h
    split at h
    · cases h
      exact htexts
    · cases h
  · intro h
    exact Option.bind_eq_some_iff.mpr ⟨_, h, rfl⟩

theorem decodeEntry_lastEntry {item : Node} {values : List Node} {i : ℕ} (hi : Decodable item) :
    SerdeDocuments.decodeEntry item = some (lastEntry values i) ↔
      ∃ own, item = .object own ∧ Settled entryNames own (column values i) := by
  rw [lastEntry, decodeEntry_iff (by rfl)]
  constructor
  · intro h
    obtain rfl | ⟨own, rfl⟩ := hi
    · cases h
    · obtain ⟨hu, honce⟩ := textFields_iff.mp h
      exact ⟨own, rfl, hu, honce⟩
  · rintro ⟨own, rfl, hs⟩
    exact textFields_iff.mpr ⟨hs.unicode, hs.once⟩

theorem decodeEntries_iff {items values : List Node} (hd : ∀ item ∈ items, Decodable item) :
    SerdeDocuments.sequence SerdeDocuments.decodeEntry (.array items) =
      some (lastEntries values) ↔
      items.length = lastLength values ∧ ∀ i (h : i < items.length), ∃ own,
        items[i] = .object own ∧ Settled entryNames own (column values i) := by
  rw [SerdeDocuments.sequence, mapM_eq_some, List.forall₂_iff_get]
  simp only [lastEntries, List.length_map, List.length_range, List.get_eq_getElem,
    List.getElem_map, List.getElem_range]
  refine and_congr_right fun hlen => forall_congr' fun i => ?_
  constructor
  · intro h hi
    exact (decodeEntry_lastEntry (hd _ (List.getElem_mem hi))).mp (h hi (hlen ▸ hi))
  · intro h hi _
    exact (decodeEntry_lastEntry (hd _ (List.getElem_mem hi))).mpr (h hi)

theorem only_revoked_mem {members : List Member} {value : Node}
    (h : only "revoked" members = some value) : value ∈ revokedValues members := by
  have hmem : value ∈ members.filterMap (spelled "revoked") := by
    unfold only single at h
    split at h
    · rename_i hl
      rw [hl, Option.some.inj h]
      exact List.mem_singleton_self value
    · cases h
  obtain ⟨m, hm, hv⟩ := List.mem_filterMap.mp hmem
  rw [spelled, Option.ite_none_right_eq_some] at hv
  obtain ⟨hname, hv⟩ := hv
  have hfold : foldName (goText m.1) = "revoked" := by
    rw [goText, joinText_lenient hname]
    decide
  exact List.mem_filterMap.mpr ⟨m, hm, by rw [revokedValue, if_pos hfold, hv]⟩

theorem decodeList_iff {members : List Member} {list : RevocationList} :
    SerdeDocuments.decodeList (.object members) = some list ↔ Unicode members ∧
      onlyText "schema_version" members = some list.schemaVersion ∧
      (only "revoked" members >>= SerdeDocuments.sequence SerdeDocuments.decodeEntry) =
        some list.revoked ∧
      onlyText "signature" members = some list.signature ∧
      onlyText "public_key" members = some list.publicKey ∧
      onlyText "algorithm" members = some list.algorithm := by
  rw [SerdeDocuments.decodeList]
  constructor
  · intro h
    obtain ⟨values, hvalues, h⟩ := Option.bind_eq_some_iff.mp h
    obtain ⟨hu, hvalues⟩ := structFields_object_iff.mp hvalues
    split at h
    · simp only [SerdeDocuments.listNames, mapM_eq_some, List.forall₂_cons] at hvalues
      simp only [bind, pure, Option.bind_eq_some_iff, Option.some.injEq] at h
      obtain ⟨a, ha, b, hb, c, hc, d, hd, e, he, rfl⟩ := h
      obtain ⟨hva, hvb, hvc, hvd, hve, -⟩ := hvalues
      simp only [onlyText, hva, hvb, hvc, hvd, hve]
      exact ⟨hu, ha, hb, hc, hd, he⟩
    · cases h
  · rintro ⟨hu, ha, hb, hc, hd, he⟩
    obtain ⟨va, hva, ha⟩ := Option.bind_eq_some_iff.mp ha
    obtain ⟨vb, hvb, hb⟩ := Option.bind_eq_some_iff.mp hb
    obtain ⟨vc, hvc, hc⟩ := Option.bind_eq_some_iff.mp hc
    obtain ⟨vd, hvd, hd⟩ := Option.bind_eq_some_iff.mp hd
    obtain ⟨ve, hve, he⟩ := Option.bind_eq_some_iff.mp he
    have hvalues : structFields SerdeDocuments.listNames (.object members) =
        some [va, vb, vc, vd, ve] := by
      refine structFields_object_iff.mpr ⟨hu, mapM_eq_some.mpr ?_⟩
      simp only [SerdeDocuments.listNames, List.forall₂_cons]
      exact ⟨hva, hvb, hvc, hvd, hve, .nil⟩
    rw [hvalues]
    simp [ha, hb, hc, hd, he]

theorem settledEntries_iff {members : List Member}
    (hd : ∀ value ∈ revokedValues members, ∀ item ∈ itemsOf value, Decodable item) :
    (only "revoked" members >>= SerdeDocuments.sequence SerdeDocuments.decodeEntry) =
      some (lastEntries (revokedValues members)) ↔ SettledEntries members := by
  constructor
  · intro h
    obtain ⟨value, hvalue, h⟩ := Option.bind_eq_some_iff.mp h
    match value, h with
    | .array items, h =>
      exact ⟨items, hvalue, (decodeEntries_iff (hd _ (only_revoked_mem hvalue))).mp h⟩
  · rintro ⟨items, hvalue, h⟩
    exact Option.bind_eq_some_iff.mpr
      ⟨_, hvalue, (decodeEntries_iff (hd _ (only_revoked_mem hvalue))).mpr h⟩

/-- The client reads what the registry read. -/
theorem decodeList_settled {members : List Member} {list : RevocationList}
    (h : GoJson.decodeList (.object members) = some list) :
    SerdeDocuments.decodeList (.object members) = some list ↔
      Settled listNames members members ∧ SettledEntries members := by
  obtain ⟨rfl, hd⟩ := decodeList_object h
  rw [decodeList_iff, ← settledEntries_iff hd]
  constructor
  · rintro ⟨hu, ha, hb, hc, hd, he⟩
    exact ⟨⟨hu, by simpa [listNames, lastList] using ⟨ha, hc, hd, he⟩⟩, hb⟩
  · rintro ⟨⟨hu, honce⟩, hb⟩
    simp only [listNames, List.forall_mem_cons] at honce
    obtain ⟨ha, hc, hd, he, -⟩ := honce
    exact ⟨hu, ha, hb, hc, hd, he⟩

variable (C : Primitives)

/-- Both libraries verify nothing under bytes that are no point of the curve. -/
def VerifiesUnderPoints : Prop :=
  ∀ pk message sig, C.verify pk message sig = true → C.isVerifyingKey pk = true

def ClientAgrees (document : Bytes) (issuer : String) : Prop :=
  ∃ served list, unmarshal decodeList document = .ok served ∧ readList document = some list ∧
    list.schemaVersion = served.schemaVersion ∧ list.revoked = served.revoked ∧
    list.publicKey = issuer ∧ list.signature = served.signature ∧
    RevocationList.verify C list = .ok ()

structure Accepted (document : Bytes) (issuer : String) (members : List Member)
    (list : RevocationList) : Prop where
  document : readDocument document = some (.object members)
  decoded : GoJson.decodeList (.object members) = some list
  algorithm : list.algorithm = "ed25519"
  issued : list.publicKey = issuer
  verified : ∃ (pk : PublicKey) (sig : Signature), hexDecode list.publicKey = some pk.val ∧
    hexDecode list.signature = some sig.val ∧
    C.verify pk (asBytes (RevocationList.signingPayload list)) sig = true

variable {C}

theorem unmarshal_ok {α : Type} {decode : Node → Option α} {document : Bytes} {a : α} :
    unmarshal decode document = .ok a ↔
      ∃ node, readDocument document = some node ∧ decode node = some a := by
  unfold unmarshal
  cases readDocument document with
  | none => simp
  | some node => cases h : decode node <;> simp [h]

theorem accepted_of_ok {openReader : Bytes → GoResult (List ZipFile)} {document : Bytes}
    {issuer : String}
    (h : validateRevocationList C (goLibrary openReader) document issuer = .ok ()) :
    ∃ members list, Accepted C document issuer members list := by
  simp only [validateRevocationList, bind_ok, wrap_ok, failIf_ok] at h
  obtain ⟨list, hlist, _, hversion, _, halg, _, hissuer, pk, hpk, sig, hsig, hv⟩ := h
  obtain ⟨node, hdoc, hnode⟩ := unmarshal_ok.mp hlist
  cases node with
  | null =>
    cases hnode
    exact absurd rfl hversion
  | object members =>
    exact ⟨members, list, hdoc, hnode, by simpa using halg, by simpa using hissuer, pk, sig,
      decodeBytes_ok.mp hpk, decodeBytes_ok.mp hsig, by simpa using hv⟩
  | bool _ | number _ | string _ | array _ => cases hnode

theorem Accepted.verify {document : Bytes} {issuer : String} {members : List Member}
    {list : RevocationList} (hC : VerifiesUnderPoints C)
    (h : Accepted C document issuer members list) : RevocationList.verify C list = .ok () := by
  obtain ⟨pk, sig, hpk, hsig, hv⟩ := h.verified
  exact (RevocationList.verify_ok C).mpr
    ⟨h.algorithm, (verifyDetached_ok C).mpr ⟨pk, sig, hpk, hsig, hC _ _ _ hv, hv⟩⟩

theorem Accepted.agrees_iff {document : Bytes} {issuer : String} {members : List Member}
    {list : RevocationList} (hC : VerifiesUnderPoints C)
    (h : Accepted C document issuer members list) :
    ClientAgrees C document issuer ↔ readList document = some list := by
  have hserved : unmarshal decodeList document = .ok list :=
    unmarshal_ok.mpr ⟨_, h.document, h.decoded⟩
  constructor
  · rintro ⟨served, read, hread, hr, hversion, hrevoked, hissuer, hsignature, hv⟩
    cases hserved.symm.trans hread
    obtain ⟨halg, -⟩ := (RevocationList.verify_ok C).mp hv
    have hkey := hissuer.trans h.issued.symm
    have halgorithm := halg.trans h.algorithm.symm
    rw [hr]
    cases read
    cases list
    simp only at hversion hrevoked hkey hsignature halgorithm
    rw [hversion, hrevoked, hkey, hsignature, halgorithm]
  · intro hr
    exact ⟨list, list, hserved, hr, rfl, rfl, h.issued, rfl, h.verify hC⟩

/-- The client reads an accepted list as the registry did exactly if the document spells out
each field once, and no member in another letter case has the last word on it. -/
theorem accepted_agrees_iff (hC : VerifiesUnderPoints C)
    (openReader : Bytes → GoResult (List ZipFile)) (document : Bytes) (issuer : String)
    (h : validateRevocationList C (goLibrary openReader) document issuer = .ok ()) :
    ClientAgrees C document issuer ↔ SettledDocument document := by
  obtain ⟨members, list, ha⟩ := accepted_of_ok h
  have hread : readList document = SerdeDocuments.decodeList (.object members) := by
    rw [readList, ha.document]
    rfl
  rw [ha.agrees_iff hC, hread, decodeList_settled ha.decoded]
  constructor
  · intro hs
    exact ⟨members, ha.document, hs⟩
  · rintro ⟨_, hdoc, hs⟩
    cases ha.document.symm.trans hdoc
    exact hs

theorem listField_text {g : GoList} {name s : String} {i : ℕ}
    (hi : (listNames.findIdx? fun n => foldName name = n) = some i)
    (hname : foldName name ≠ "revoked") :
    listField g (rawString name, rawValue (.string s)) =
      some { g with texts := g.texts.set i s } := by
  rw [listField, goText_rawString, if_neg hname, setField_text hi]
  rfl

def entryTexts (entry : RevocationEntry) : List String :=
  [entry.capRoot, entry.capabilitySignature, entry.revokedAt, entry.reason]

theorem decodeTexts_entryValue (entry : RevocationEntry) :
    decodeTexts entryNames zeroEntry (rawValue (SerdeDocuments.entryValue entry)) =
      some (entryTexts entry) := by
  rw [SerdeDocuments.entryValue, rawValue, decodeTexts]
  simp only [rawMembers, List.foldlM_cons, List.foldlM_nil,
    setField_text (show entryNames.findIdx? (fun n => foldName "cap_root" = n) = some 0
      by decide),
    setField_text (show entryNames.findIdx? (fun n => foldName "capability_signature" = n) = some 1
      by decide),
    setField_text (show entryNames.findIdx? (fun n => foldName "revoked_at" = n) = some 2
      by decide),
    setField_text (show entryNames.findIdx? (fun n => foldName "reason" = n) = some 3
      by decide)]
  rfl

theorem fillCells_entries (entries : List RevocationEntry) :
    fillCells [] (rawItems (entries.map SerdeDocuments.entryValue)) =
      some (entries.map entryTexts) := by
  induction entries with
  | nil => rfl
  | cons entry entries ih =>
    rw [List.map_cons, rawItems, fillCells, decodeTexts_entryValue, ih]
    rfl

theorem decodeSlice_entries (entries : List RevocationEntry) :
    decodeSlice ⟨[], 0⟩ (rawValue (.array (entries.map SerdeDocuments.entryValue))) =
      some ⟨entries.map entryTexts, entries.length⟩ := by
  have hlen : (rawItems (entries.map SerdeDocuments.entryValue)).length = entries.length := by
    induction entries with
    | nil => rfl
    | cons entry entries ih => rw [List.map_cons, rawItems, List.length_cons, ih]; rfl
  have hfill := fillCells_entries entries
  rw [rawValue]
  cases entries with
  | nil => rfl
  | cons entry entries =>
    rw [decodeSlice, hfill, hlen]
    · rfl
    · simp [rawItems]

theorem decodeList_listValue (list : RevocationList) :
    GoJson.decodeList (rawValue (SerdeDocuments.listValue list)) = some list := by
  have hrevoked : listField ⟨[list.schemaVersion, "", "", ""], ⟨[], 0⟩⟩
      (rawString "revoked", rawValue (.array (list.revoked.map SerdeDocuments.entryValue))) =
      some ⟨[list.schemaVersion, "", "", ""],
        ⟨list.revoked.map entryTexts, list.revoked.length⟩⟩ := by
    rw [listField, goText_rawString, if_pos (by decide), decodeSlice_entries]
    rfl
  rw [SerdeDocuments.listValue, rawValue, GoJson.decodeList]
  simp only [rawMembers, List.foldlM_cons, List.foldlM_nil,
    listField_text (show listNames.findIdx? (fun n => foldName "schema_version" = n) = some 0
      by decide) (by decide),
    listField_text (show listNames.findIdx? (fun n => foldName "signature" = n) = some 1
      by decide) (by decide),
    listField_text (show listNames.findIdx? (fun n => foldName "public_key" = n) = some 2
      by decide) (by decide),
    listField_text (show listNames.findIdx? (fun n => foldName "algorithm" = n) = some 3
      by decide) (by decide)]
  change Option.map GoList.list (listField ⟨[list.schemaVersion, "", "", ""], ⟨[], 0⟩⟩ _ >>= _) = _
  rw [hrevoked]
  simp [GoList.list, GoList.entries, entryTexts, entryOf, Function.comp_def]

theorem accepted_of_signed {document : Bytes} {key : Seed} {list : RevocationList}
    (hread : unmarshal decodeList document = .ok (RevocationList.sign C list key))
    (hs : SignsCorrectly C key (asBytes (RevocationList.signingPayload list)))
    (hv : list.schemaVersion ≠ "") (openReader : Bytes → GoResult (List ZipFile)) :
    validateRevocationList C (goLibrary openReader) document
      (hexEncode (C.verifyingKey key).val) = .ok () := by
  simp only [validateRevocationList, bind_ok, wrap_ok, failIf_ok]
  exact ⟨_, hread, (), hv, (), by simp [RevocationList.sign], (), by simp [RevocationList.sign],
    C.verifyingKey key, decodeBytes_ok.mpr (hexDecode_hexEncode _), C.sign key _,
    decodeBytes_ok.mpr (hexDecode_hexEncode _), by simpa using hs.2⟩

/-- What `qcap revoke` signs, the registry accepts. -/
theorem signed_list_accepted {key : Seed} {list : RevocationList}
    (hs : SignsCorrectly C key (asBytes (RevocationList.signingPayload list)))
    (hv : list.schemaVersion ≠ "") (openReader : Bytes → GoResult (List ZipFile)) :
    validateRevocationList C (goLibrary openReader) (listBytes (RevocationList.sign C list key))
      (hexEncode (C.verifyingKey key).val) = .ok () :=
  accepted_of_signed (unmarshal_render (valid_listValue _) (decodeList_listValue _)) hs hv
    openReader

theorem signed_list_agrees {key : Seed} {list : RevocationList}
    (hs : SignsCorrectly C key (asBytes (RevocationList.signingPayload list))) :
    ClientAgrees C (listBytes (RevocationList.sign C list key))
      (hexEncode (C.verifyingKey key).val) :=
  ⟨_, _, unmarshal_render (valid_listValue _) (decodeList_listValue _),
    SerdeDocuments.readList_listBytes _, rfl, rfl, rfl, rfl, verify_sign C hs⟩

theorem toy_verifiesUnderPoints : VerifiesUnderPoints toy := fun _ _ _ _ => rfl

def noArchives : Bytes → GoResult (List ZipFile) := fun _ => .error "zip: not a valid zip file"

def exampleIssuer : String := hexEncode (toy.verifyingKey exampleKey).val

theorem example_list_settled : SettledDocument
    (listBytes (exampleList "0.1.0" [exampleEntry "unix-seconds:9" "lost"])) :=
  (accepted_agrees_iff toy_verifiesUnderPoints noArchives _ exampleIssuer
    (signed_list_accepted (toy_signatureCorrect _ _) (by decide) noArchives)).mp
    (signed_list_agrees (toy_signatureCorrect _ _))

def withoutRevoked (list : RevocationList) : Value :=
  .object [("schema_version", .string list.schemaVersion), ("signature", .string list.signature),
    ("public_key", .string list.publicKey), ("algorithm", .string list.algorithm)]

theorem valid_withoutRevoked (list : RevocationList) : Valid (withoutRevoked list) := by
  simp [withoutRevoked, Valid, ValidMembers]

theorem decodeList_withoutRevoked (list : RevocationList) :
    GoJson.decodeList (rawValue (withoutRevoked list)) = some { list with revoked := [] } := by
  rw [withoutRevoked, rawValue, GoJson.decodeList]
  simp only [rawMembers, List.foldlM_cons, List.foldlM_nil,
    listField_text (show listNames.findIdx? (fun n => foldName "schema_version" = n) = some 0
      by decide) (by decide),
    listField_text (show listNames.findIdx? (fun n => foldName "signature" = n) = some 1
      by decide) (by decide),
    listField_text (show listNames.findIdx? (fun n => foldName "public_key" = n) = some 2
      by decide) (by decide),
    listField_text (show listNames.findIdx? (fun n => foldName "algorithm" = n) = some 3
      by decide) (by decide)]
  rfl

theorem readList_withoutRevoked (list : RevocationList) :
    readList (asBytes (render true 0 (withoutRevoked list))) = none := by
  rw [readList, readDocument_render true (valid_withoutRevoked list)]
  change SerdeDocuments.decodeList (rawValue (withoutRevoked list)) = none
  rw [SerdeDocuments.decodeList, withoutRevoked, SerdeDocuments.structFields_object]
  rfl

def missingRevoked : Bytes := asBytes (render true 0 (withoutRevoked (exampleList "0.1.0" [])))

theorem missing_revoked_unreadable :
    validateRevocationList toy (goLibrary noArchives) missingRevoked exampleIssuer = .ok () ∧
      ¬ ClientAgrees toy missingRevoked exampleIssuer := by
  have hserved : unmarshal decodeList missingRevoked = .ok (exampleList "0.1.0" []) :=
    unmarshal_render (valid_withoutRevoked _) (decodeList_withoutRevoked _)
  constructor
  · exact accepted_of_signed hserved (toy_signatureCorrect _ _) (by decide) noArchives
  · rintro ⟨_, read, _, hread, -⟩
    cases (readList_withoutRevoked _).symm.trans hread

end QCap.ListAgreement
