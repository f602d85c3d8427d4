import QCap.SerdePackage

/-!
# Artifacts at both ends

The registry validates an upload with `archive/zip` and `encoding/json`, the client verifies it
with `zip` and `serde_json`. For an artifact that passes both, the two see the same manifest and
the same Merkle root, and the same signature exactly if each field of the bundle has the last
word under its name.
-/
namespace QCap.ArtifactAgreement

open QCap.Text QCap.Crypto QCap.Formats QCap.JsonReader QCap.Archive QCap.RegistryArchive
open QCap.GoJson QCap.LastWord QCap.ListAgreement QCap.SerdePackage
open QCap.SerdeDocuments (keyed member structFields text textFields)

variable (C : Primitives) (floats : String → Option String)

/-- An entry at the client and at the registry. A Go reader returns no more bytes than the
directory announces. -/
structure SameFile (entry : ZipEntry) (file : ZipFile) : Prop where
  name : entry.name = file.name
  data : file.data = entry.bytes
  announced : file.data.length ≤ file.uncompressedSize64.toNat

def SameArchive (zip : Zip) (entries : List ZipFile) : Prop := List.Forall₂ SameFile zip entries

section

variable {members : List Member} {name : String}

theorem goText_name {m : Member} (h : (joinText false m.1).isSome) :
    goText m.1 = name ↔ joinText false m.1 = some name := by
  obtain ⟨s, hs⟩ := Option.isSome_iff_exists.mp h
  rw [goText, joinText_lenient hs, hs]
  simp

theorem find_reverse (p : Member → Bool) (members : List Member) :
    (members.reverse.find? p).map Prod.snd =
      (members.filterMap fun m => if p m then some m.2 else none).getLast? := by
  induction members using List.reverseRecOn with
  | nil => rfl
  | append_singleton members m ih =>
    rw [List.reverse_append, List.filterMap_append]
    by_cases hp : p m = true
    · simp [hp]
    · simp [hp, ih]

theorem find_only (hu : Unicode members) {value : Node} (h : only name members = some value) :
    (members.reverse.find? fun m => goText m.1 = name).map Prod.snd = some value := by
  have hspelled : (members.filterMap fun m =>
      if decide (goText m.1 = name) then some m.2 else none) =
        members.filterMap (spelled name) := by
    apply List.filterMap_congr
    intro m hm
    have hname : goText m.1 = name ↔ joinText false m.1 = some name := goText_name (hu m hm)
    by_cases hg : goText m.1 = name
    · simp [hg, spelled, hname.mp hg]
    · have hn : joinText false m.1 ≠ some name := fun he => hg (hname.mpr he)
      simp [hg, spelled, hn]
  have hlist : members.filterMap (spelled name) = [value] := by
    unfold only single at h
    split at h
    · rename_i hl
      rw [hl, Option.some.inj h]
    · cases h
  rw [find_reverse, hspelled, hlist]
  rfl

theorem fieldMember_required {named : List (String × Node)} :
    fieldMember named ⟨name, .required⟩ = (member named name).map some := by
  unfold fieldMember member
  split
  · rename_i hl
    simp [hl]
  · rename_i hl
    simp [hl]
  · rename_i hne₀ hne₁
    split
    · rename_i hl
      exact absurd hl (hne₁ _ _)
    · rfl

end

section

variable {floats} {members : List Member} {openReader : Bytes → GoResult (List ZipFile)}

theorem decodeManifest_root {manifest : QcapManifest}
    (h : decodeManifest floats (.object members) = some manifest) :
    Unicode members ∧ onlyText "merkle_root" members = some manifest.merkleRoot := by
  simp only [decodeManifest, bind, Option.bind_eq_some_iff] at h
  obtain ⟨values, hvalues, h⟩ := h
  simp only [fieldValues, bind, Option.bind_eq_some_iff] at hvalues
  obtain ⟨named, hnamed, hvalues⟩ := hvalues
  split at h
  · simp only [pure, Option.bind_eq_some_iff] at h
    obtain ⟨_, -, root, hroot, _, -, _, -, _, -, _, -, _, -, _, -, _, -, _, -, he⟩ := h
    cases he
    obtain ⟨node, hnode, htext⟩ := Option.bind_eq_some_iff.mp hroot
    rw [manifestFields, mapM_eq_some] at hvalues
    cases hvalues with
    | cons _ hrest =>
      cases hrest with
      | cons hmember _ =>
        rw [fieldMember_required, member_eq_only hnamed, hnode] at hmember
        obtain ⟨value, hvalue, he⟩ := Option.map_eq_some_iff.mp hmember
        cases he
        refine ⟨(keyed_eq_some hnamed).1, ?_⟩
        rw [onlyText, hvalue]
        exact htext
  · cases h

theorem unmarshalString_only {name value : String} (hu : Unicode members)
    (h : onlyText name members = some value) {fields : String → Option Bytes}
    (hf : decodeFields (.object members) = some fields) :
    ∃ raw, fields name = some raw ∧ unmarshal decodeString raw = .ok value := by
  obtain ⟨node, hnode, htext⟩ := Option.bind_eq_some_iff.mp h
  have hfind := find_only hu hnode
  obtain ⟨m, hm, rfl⟩ := Option.map_eq_some_iff.mp hfind
  cases hf
  refine ⟨rawMessage m.2, ?_, ?_⟩
  · dsimp only
    rw [hm]
    rfl
  · cases hv : m.2 with
    | string raw =>
      rw [hv, text] at htext
      have hraw : rawMessage (.string raw) =
          asBytes (Json.render false 0 (.string value)) := by
        rw [rawMessage, Node.decode, joinText_lenient htext]
        rfl
      rw [hraw]
      exact decodeString_written value
    | _ =>
      rw [hv] at htext
      cases htext

/-- A manifest that both accept has one Merkle root. -/
theorem manifests_agree {document : Bytes} {root : String} {manifest : QcapManifest}
    (hgo : checkManifest (goLibrary openReader) document = .ok root)
    (hserde : SerdePackage.readManifest floats document = some manifest) :
    root = manifest.merkleRoot := by
  simp only [checkManifest, bind_ok, wrap_ok] at hgo
  obtain ⟨fields, hfields, _, _, _, _, value, hvalue, _, _, he⟩ := hgo
  cases he
  obtain ⟨node, hnode, hdecode⟩ := unmarshal_ok.mp hfields
  obtain ⟨node', hnode', hmanifest⟩ := Option.bind_eq_some_iff.mp hserde
  cases hnode.symm.trans hnode'
  cases node with
  | object members =>
    obtain ⟨hu, htext⟩ := decodeManifest_root hmanifest
    obtain ⟨raw, hraw, hstring⟩ := unmarshalString_only hu htext hdecode
    unfold stringField at hvalue
    rw [hraw] at hvalue
    dsimp only [Option.getD_some, goLibrary] at hvalue
    rw [hstring] at hvalue
    dsimp only at hvalue
    split at hvalue
    · cases hvalue
    · exact (Except.ok.inj hvalue).symm
  | null => cases hmanifest
  | _ => cases hdecode

/-- A bundle that both read is the same exactly if its fields are settled. -/
theorem bundles_agree {document : Bytes} {bundle signature : QcapSignatureBundle}
    (hgo : unmarshal GoJson.decodeBundle document = .ok bundle)
    (hserde : readBundle document = some signature) :
    ∃ members, readDocument document = some (.object members) ∧
      (bundle = signature ↔ Settled GoJson.bundleNames members members) := by
  obtain ⟨node, hnode, hbundle⟩ := unmarshal_ok.mp hgo
  obtain ⟨_, -, hserde⟩ := Option.bind_eq_some_iff.mp hserde
  obtain ⟨node', hnode', hsignature⟩ := Option.bind_eq_some_iff.mp hserde
  cases hnode.symm.trans hnode'
  obtain ⟨texts, htexts, hs⟩ := Option.bind_eq_some_iff.mp hsignature
  cases node with
  | object members =>
    refine ⟨members, hnode, ?_⟩
    obtain ⟨last, hlast, rfl⟩ := Option.map_eq_some_iff.mp hbundle
    have hfold : members.foldlM (setField GoJson.bundleNames)
        (List.replicate GoJson.bundleNames.length "") = some last := hlast
    have hwords := texts_eq_lastText (by decide) hfold
    have hsettled : Settled GoJson.bundleNames members members ↔
        textFields GoJson.bundleNames (.object members) =
          some (GoJson.bundleNames.map fun name => lastText name members) := by
      rw [textFields_iff]
      exact ⟨fun h => ⟨h.unicode, h.once⟩, fun h => ⟨h.1, h.2⟩⟩
    rw [hsettled, ← hwords]
    have hsame : textFields GoJson.bundleNames (.object members) = some texts := htexts
    rw [hsame, Option.some.injEq]
    split at hs
    · cases hs
      rw [hwords]
      constructor
      · intro he
        cases he
        rfl
      · intro he
        rw [← he]
        rfl
    · cases hs
  | null => cases htexts
  | _ => cases hbundle

def respelledDocument : Bytes :=
  asBytes ("\x7b\"merkle_root\":\"r\",\"signature\":\"s\",\"public_key\":\"k\"," ++
    "\"algorithm\":\"a\",\"Public_Key\":\"other\"\x7d")

example : (unmarshal GoJson.decodeBundle respelledDocument).toOption =
      some ⟨"r", "s", "other", "a"⟩ ∧
    readBundle respelledDocument = some ⟨"r", "s", "k", "a"⟩ := by
  decide +kernel

end

section

variable {zip : Zip} {entries : List ZipFile}

theorem SameArchive.names (h : SameArchive zip entries) :
    zip.map ZipEntry.name = entries.map ZipFile.name := by
  induction h with
  | nil => rfl
  | cons hf _ ih => rw [List.map_cons, List.map_cons, hf.name, ih]

theorem SameArchive.mem (h : SameArchive zip entries) {file : ZipFile} (hf : file ∈ entries) :
    ∃ entry ∈ zip, SameFile entry file := by
  induction h with
  | nil => cases hf
  | @cons entry other _ _ hsame _ ih =>
    rcases List.mem_cons.mp hf with rfl | hf
    · exact ⟨entry, List.mem_cons_self, hsame⟩
    · obtain ⟨e, he, hs⟩ := ih hf
      exact ⟨e, List.mem_cons_of_mem _ he, hs⟩

theorem byName_same (h : SameArchive zip entries) (hn : (zip.map ZipEntry.name).Nodup)
    {file : ZipFile} (hf : file ∈ entries) {entry : ZipEntry}
    (he : byName zip file.name = .ok entry) : SameFile entry file := by
  obtain ⟨other, hother, hsame⟩ := h.mem hf
  obtain ⟨hmem, hname⟩ := byName_ok he
  have hsame_entry : entry = other :=
    List.inj_on_of_nodup_map hn hmem hother (hname.trans hsame.name.symm)
  exact hsame_entry ▸ hsame

theorem readEntry_whole {entry : ZipEntry} {file : ZipFile} {what : String} {bytes : Bytes}
    (hs : SameFile entry file) (hsize : file.uncompressedSize64.toNat ≤ maxManifestBytes)
    (h : readEntry file what = .ok bytes) : bytes = entry.bytes := by
  have hlen := hs.announced
  have hshort : ¬ maxManifestBytes + 1 ≤ file.data.length := by omega
  simp only [readEntry, bind_ok, wrap_ok, readLimited, if_neg hshort] at h
  obtain ⟨_, -, h⟩ := h
  split at h
  · cases h
  · rw [← hs.data]
    exact (Except.ok.inj h).symm

structure Documents (C : Primitives) (G : GoLib) (entries : List ZipFile)
    (manifest signature : ZipFile) (manifestBytes signatureBytes : Bytes)
    (bundle : QcapSignatureBundle) : Prop where
  manifest_mem : manifest ∈ entries
  manifest_name : manifest.name = "manifest.json"
  manifest_size : manifest.uncompressedSize64.toNat ≤ maxManifestBytes
  manifest_read : readEntry manifest "manifest.json" = .ok manifestBytes
  signature_mem : signature ∈ entries
  signature_name : signature.name = "signatures/manifest.sig.json"
  signature_size : signature.uncompressedSize64.toNat ≤ maxManifestBytes
  signature_read : readEntry signature "manifest signature" = .ok signatureBytes
  decoded : G.unmarshalBundle signatureBytes = .ok bundle
  checked : ∃ root, checkManifest G manifestBytes = .ok root ∧
    checkBundle C G bundle root manifestBytes = .ok ()

theorem accepted_documents {G : GoLib} (h : validateEntries C G entries = .ok ()) :
    ∃ manifest signature manifestBytes signatureBytes bundle,
      Documents C G entries manifest signature manifestBytes signatureBytes bundle := by
  simp only [validateEntries, bind_ok, failIf_ok, not_or, not_lt] at h
  obtain ⟨_, -, scan, hscan, h⟩ := h
  have ho := scanEntries_of G hscan
  split at h
  · cases h
  · cases h
  · rename_i manifest signature hm hs
    simp only [bind_ok, failIf_ok, wrap_ok, not_lt] at h
    obtain ⟨_, hmsize, manifestBytes, hmread, root, hroot, _, hssize, signatureBytes, hsread,
      bundle, hb, hcheck⟩ := h
    obtain ⟨hmm, hmn⟩ := ho.manifest _ hm
    obtain ⟨hsm, hsn⟩ := ho.signature_bundle _ hs
    exact ⟨manifest, signature, manifestBytes, signatureBytes, bundle, hmm, hmn, hmsize, hmread,
      hsm, hsn, hssize, hsread, hb, root, hroot, hcheck⟩

theorem accepted_names {G : GoLib} (h : validateEntries C G entries = .ok ()) :
    (entries.map ZipFile.name).Nodup := by
  obtain ⟨_, _, _, _, _, ha⟩ := validateEntries_ok C G h
  apply List.Nodup.of_map fun name => cleanPath (trimSuffix name "/")
  rw [List.map_map]
  exact ha.distinct

structure SeenAlike (C : Primitives) (G : GoLib) (zip : Zip) (report : VerifyReport)
    (manifestBytes signatureBytes : Bytes) (bundle : QcapSignatureBundle)
    (members : List Member) : Prop where
  manifest_entry : byName zip "manifest.json" = .ok ⟨"manifest.json", manifestBytes⟩
  manifest_checked : checkManifest G manifestBytes = .ok report.manifest.merkleRoot
  bundle_checked : checkBundle C G bundle report.manifest.merkleRoot manifestBytes = .ok ()
  bundle_root : bundle.merkleRoot = report.signature.merkleRoot
  signature_entry : byName zip "signatures/manifest.sig.json" =
    .ok ⟨"signatures/manifest.sig.json", signatureBytes⟩
  bundle_decoded : G.unmarshalBundle signatureBytes = .ok bundle
  bundle_document : readDocument signatureBytes = some (.object members)
  same_bundle : bundle = report.signature ↔ Settled GoJson.bundleNames members members

/-- An artifact that the registry accepts and the client verifies has one manifest and one
Merkle root for both, and one signature unless a field of the bundle is overruled by another
spelling of its name. -/
theorem accepted_verified_agree {openReader : Bytes → GoResult (List ZipFile)}
    (h : SameArchive zip entries)
    (hregistry : validateQcapArchive C (goLibrary openReader) (.ok entries) = .ok ())
    {report : VerifyReport} (hclient : verifyArchive C (serdeCodec floats) zip = .ok report) :
    ∃ manifestBytes signatureBytes bundle members,
      CarriesManifest entries manifestBytes ∧ CarriesBundle (goLibrary openReader) entries bundle ∧
        SeenAlike C (goLibrary openReader) zip report manifestBytes signatureBytes bundle
          members := by
  simp only [validateQcapArchive, bind_ok, wrap_ok] at hregistry
  obtain ⟨_, he, hvalid⟩ := hregistry
  cases he
  obtain ⟨manifest, signature, manifestBytes, signatureBytes, bundle, hd⟩ :=
    accepted_documents C hvalid
  obtain ⟨clientBytes, tree, hv⟩ := (verifyArchive_ok C _).mp hclient
  have hn : (zip.map ZipEntry.name).Nodup := h.names ▸ accepted_names C hvalid
  -- the manifest
  have hentry := hv.manifest_entry
  have hmanifest : manifestBytes = clientBytes := by
    rw [← hd.manifest_name] at hentry
    exact readEntry_whole (byName_same h hn hd.manifest_mem hentry) hd.manifest_size
      hd.manifest_read
  subst hmanifest
  obtain ⟨root, hroot, hcheck⟩ := hd.checked
  have hsame : root = report.manifest.merkleRoot := manifests_agree hroot hv.manifest_parsed
  subst hsame
  -- the signature bundle
  obtain ⟨entry, hsigned, hparsed⟩ := bind_ok.mp hv.signature_read
  have hsignature : signatureBytes = entry.bytes := by
    have hfound := hsigned
    rw [← hd.signature_name] at hfound
    exact readEntry_whole (byName_same h hn hd.signature_mem hfound) hd.signature_size
      hd.signature_read
  subst hsignature
  obtain ⟨members, hdocument, hbundle⟩ := bundles_agree hd.decoded (okOr_ok.mp hparsed)
  have hname := (byName_ok hsigned).2
  refine ⟨manifestBytes, entry.bytes, bundle, members,
    ⟨manifest, hd.manifest_mem, hd.manifest_name, hd.manifest_read⟩,
    ⟨signature, hd.signature_mem, hd.signature_name, _, hd.signature_read, hd.decoded⟩,
    hv.manifest_entry, hroot, hcheck, ?_, ?_, hd.decoded, hdocument, hbundle⟩
  · rw [(checkBundle_ok C _ hcheck).1, ← hv.manifest_root, hv.signature_root]
  · rw [hsigned, ← hname]

end

open QCap.WriterAccepted QCap.IssuerCommands QCap.Signatures QCap.PayloadMerkle
open QCap.SealRoundTrip (sampleDir)

theorem goEntries_same {zip : Zip} (h : ∀ e ∈ zip, e.bytes.length < 2 ^ 64) :
    SameArchive zip (goEntries zip) := by
  rw [SameArchive, goEntries, List.forall₂_map_right_iff, List.forall₂_same]
  intro e he
  refine ⟨rfl, rfl, ?_⟩
  have hlen := h e he
  simp only [GoDocuments.storedFile, UInt64.toNat_ofNat']
  omega

theorem withinLimits_length {zip : Zip} (h : WithinLimits zip) :
    ∀ e ∈ zip, e.bytes.length < 2 ^ 64 := by
  intro e he
  have hle := List.single_le_sum (by simp) _ (List.mem_map_of_mem (f := fun e => e.bytes.length) he)
  have htotal := h.total
  have hmax : maxArchiveUncompressedSize < 2 ^ 64 := by decide
  omega

theorem serde_agrees (openReader : Bytes → GoResult (List ZipFile)) :
    Agrees (serdeCodec floats) (goLibrary openReader) :=
  ⟨(libraries_agree [] [] [] openReader).manifest, (libraries_agree [] [] [] openReader).bundle⟩

def serde : JsonCodec := serdeCodec fun _ => none

def packed : QcapManifest := packManifest toy packRequest

def packedBundle : QcapSignatureBundle :=
  signManifest toy (Json.manifestBytes packed) packed.merkleRoot signerKey

theorem packedZip_created :
    packedZip = createQcapArchiveWithSignature serde sampleDir packed packedBundle := by
  have h := packRequest_pack
  rw [packedZip_pack] at h
  exact Except.ok.inj h

theorem packed_storable : Storable packed := by
  refine ⟨?_, ?_, ?_⟩
  · simp [packed, packManifest, QcapManifest.newWithNow, QcapManifest.new, Mapped, MappedMembers,
      metadataDepth, SortedIndex.Sorted]
  · simp [packed, packManifest, QcapManifest.newWithNow, QcapManifest.new, Whole, WholeMembers]
  · intro f hf
    cases hf

theorem packedZip_registry (openReader : Bytes → GoResult (List ZipFile)) :
    validateQcapArchive toy (goLibrary openReader) (.ok (goEntries packedZip)) = .ok () := by
  rw [packedZip_created]
  exact signed_accepted toy serde (goLibrary openReader) (serde_agrees _ openReader) []
    sampleDir_grammar rfl (valid_of_whole _ packed_storable.whole) (by decide) (trim_root _ _)
    (trim_unixSeconds _) (toy_signatureCorrect _ _) rfl (packedZip_created ▸ packedZip_limits)

theorem packedZip_client : ∃ report, verifyArchive toy serde packedZip = .ok report := by
  have ht : PlainNames sampleDir := by decide
  obtain ⟨n, tree, hx, hread⟩ : ∃ n tree,
      extractPayload (createQcapArchiveWithSignature serde sampleDir packed packedBundle) =
        (.ok n, tree) ∧ ∀ p, tree.read p = sampleDir.read p :=
    created_extract serde ht
  have hver : Verified toy serde
      (createQcapArchiveWithSignature serde sampleDir packed packedBundle)
      ⟨packed, packedBundle, n⟩ (serde.manifestBytes packed) tree := by
    refine verified_signed toy serde (toy_signatureCorrect signerKey _) rfl ?_ ?_
      (readManifest_manifestBytes _ packed_storable) (readBundle_bundleBytes _) hx ?_
    · rw [created_byName serde ht (by decide)]
      rfl
    · rw [created_byName serde ht (by decide)]
      rfl
    · rw [root_congr toy.blake3 hread]
      rfl
  rw [packedZip_created]
  exact ⟨_, (verifyArchive_ok toy serde).mpr ⟨_, tree, hver⟩⟩

theorem packedZip_alike : ∃ report manifestBytes signatureBytes bundle members,
    CarriesManifest (goEntries packedZip) manifestBytes ∧
      CarriesBundle (goLibrary fun _ => .ok (goEntries packedZip)) (goEntries packedZip) bundle ∧
        SeenAlike toy (goLibrary fun _ => .ok (goEntries packedZip)) packedZip report manifestBytes
          signatureBytes bundle members := by
  obtain ⟨report, hclient⟩ := packedZip_client
  exact ⟨report, accepted_verified_agree toy (fun _ => none)
    (goEntries_same (withinLimits_length packedZip_limits)) (packedZip_registry _) hclient⟩

end QCap.ArtifactAgreement
