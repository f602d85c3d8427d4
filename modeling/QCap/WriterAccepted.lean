import Mathlib.Algebra.Order.BigOperators.Group.List
import QCap.CleanNames
import QCap.GoJson
import QCap.SealRoundTrip

/-!
# Archives of the client at the registry

For payload names of the interoperable grammar, whatever `pack` and `seal` write within the
limits of the registry is accepted there.
-/
namespace QCap.WriterAccepted

open QCap.Text QCap.PathTree QCap.Crypto QCap.Formats QCap.Signatures QCap.PayloadMerkle
open QCap.Archive QCap.IssuerCommands QCap.Sealing QCap.RegistryArchive QCap.CleanNames
open QCap.GoDocuments

variable (C : Primitives) (J : JsonCodec) (G : GoLib)

/-- `segment-char`: no control character, space, slash, colon, backslash or DEL. -/
def segmentChar (c : Char) : Bool :=
  (0x21 ≤ c.toNat && c.toNat ≤ 0x2E) || (0x30 ≤ c.toNat && c.toNat ≤ 0x39) ||
    (0x3B ≤ c.toNat && c.toNat ≤ 0x5B) || (0x5D ≤ c.toNat && c.toNat ≤ 0x7E) ||
    0x80 ≤ c.toNat

/-- Every name on the way to a file is a segment; a tree has no empty names and no dots. -/
def GrammarNames (t : Tree) : Prop :=
  ∀ p ∈ t.files.keys, ∀ n ∈ p, ∀ c ∈ n.toList, segmentChar c = true

theorem grammar_free {t : Tree} (h : GrammarNames t) {d : Char} (hd : segmentChar d = false)
    {p : RelPath} (hp : p ∈ t.files) : ∀ n ∈ p, Free d n := by
  intro n hn hm
  rw [h p (AList.mem_keys.mp hp) n hn d hm] at hd
  cases hd

theorem grammar_plain {t : Tree} (h : GrammarNames t) : PlainNames t := fun p hp n hn =>
  grammar_free h (by decide) (AList.mem_keys.mpr hp) n hn

/-- The entries that `archive/zip` finds in a file that was written. -/
def goEntries (zip : Zip) : List ZipFile := zip.map fun e => storedFile e.name e.bytes

/-- The documents that `serde_json` writes are read back by `encoding/json`. -/
structure Agrees : Prop where
  manifest : ∀ m : QcapManifest, JsonReader.Valid m.metadata → ∃ fields,
    G.unmarshalFields (J.manifestBytes m) = .ok fields ∧
      (∀ key s, (key, s) ∈ [("schema_version", m.schemaVersion), ("merkle_root", m.merkleRoot),
        ("created_at", m.createdAt)] → ∃ raw, fields key = some raw ∧
          firstByte raw = some 34 ∧ G.unmarshalString raw = .ok s) ∧
      ∃ raw, fields "metadata" = some raw ∧
        ∀ members, m.metadata = .object members → firstByte raw = some 123
  bundle : ∀ b : QcapSignatureBundle, G.unmarshalBundle (J.bundleBytes b) = .ok b

structure WithinLimits (zip : Zip) : Prop where
  count : zip.length ≤ maxArchiveEntries
  total : (zip.map fun e => e.bytes.length).sum ≤ maxArchiveUncompressedSize
  documents : ∀ e ∈ zip, e.name = "manifest.json" ∨ e.name = "signatures/manifest.sig.json" →
    e.bytes.length ≤ maxManifestBytes

theorem trim_ne_empty {s : String} {c : Char} (hc : c ∈ s.toList)
    (hw : isWhitespace c = false) : trim s ≠ "" := by
  intro h
  have hl := congrArg String.toList h
  simp only [trim, String.toList_ofList, String.toList_empty, List.reverse_eq_nil_iff] at hl
  have hall := List.dropWhile_eq_nil_iff.mp hl
  cases hd : s.toList.dropWhile isWhitespace with
  | nil =>
    have hcw := List.dropWhile_eq_nil_iff.mp hd c hc
    rw [hw] at hcw
    cases hcw
  | cons d rest =>
    have hhead := List.head?_dropWhile_not isWhitespace s.toList
    rw [hd] at hhead hall
    have hdw := hall d (by simp)
    simp [hdw] at hhead

theorem requireField_ok {fields : String → Option Bytes} {key : String} {raw : Bytes}
    (h : fields key = some raw) (hf : firstByte raw = some 34 ∨ firstByte raw = some 123) :
    requireField fields key = .ok () := by
  simp only [requireField, h, failIf_ok]
  rintro (rfl | rfl) <;> revert hf <;> decide

theorem stringField_ok {fields : String → Option Bytes} {key s : String} {raw : Bytes}
    (h : fields key = some raw) (hs : G.unmarshalString raw = .ok s) (ht : trim s ≠ "") :
    stringField G fields key = .ok s := by
  simp [stringField, h, hs, ht]

theorem checkManifest_written (hA : Agrees J G) {m : QcapManifest}
    {members : List (String × Value)} (hm : m.metadata = .object members)
    (hv : JsonReader.Valid m.metadata) (hsv : trim m.schemaVersion ≠ "")
    (hroot : trim m.merkleRoot ≠ "") (hca : trim m.createdAt ≠ "") :
    checkManifest G (J.manifestBytes m) = .ok m.merkleRoot := by
  obtain ⟨fields, hfields, hstrings, raw, hraw, hobject⟩ := hA.manifest m hv
  obtain ⟨rs, hrs, hqs, hus⟩ := hstrings "schema_version" m.schemaVersion (by simp)
  obtain ⟨rr, hrr, hqr, hur⟩ := hstrings "merkle_root" m.merkleRoot (by simp)
  obtain ⟨rc, hrc, hqc, huc⟩ := hstrings "created_at" m.createdAt (by simp)
  simp only [checkManifest, bind_ok, wrap_ok]
  exact ⟨fields, hfields, (), bind_ok.mpr ⟨(), requireField_ok hrs (Or.inl hqs), bind_ok.mpr ⟨(),
    requireField_ok hrr (Or.inl hqr), bind_ok.mpr ⟨(), requireField_ok hrc (Or.inl hqc),
      bind_ok.mpr ⟨(), requireField_ok hraw (Or.inr (hobject members hm)), rfl⟩⟩⟩⟩,
    _, stringField_ok G hrs hus hsv, _, stringField_ok G hrr hur hroot, _,
    stringField_ok G hrc huc hca, rfl⟩

theorem checkBundle_signed {manifestBytes : Bytes} {root : String} {key : Seed}
    (h : SignsCorrectly C key manifestBytes) :
    checkBundle C G (signManifest C manifestBytes root key) root manifestBytes = .ok () := by
  simp only [checkBundle, bind_ok, failIf_ok, decodeBytes_ok]
  exact ⟨(), by simp [signManifest], _, hexDecode_hexEncode _, _, hexDecode_hexEncode _,
    manifestBytes, by simp [signedBytes, signManifest],
    fun he => Bool.noConfusion (h.2.symm.trans he)⟩

theorem fileName_cons {p : RelPath} (h : ∀ n ∈ p, FileName n) :
    ∀ n ∈ "payload" :: p, FileName n := by
  rw [List.forall_mem_cons]
  exact ⟨by decide, h⟩

theorem pathString_payload {p : RelPath} (hne : p ≠ []) :
    pathString ("payload" :: p) = "payload/" ++ pathString p := by
  obtain ⟨first, rest, rfl⟩ := List.exists_cons_of_ne_nil hne
  have hp : "payload/" = "payload" ++ String.singleton '/' := by decide
  rw [pathString, joinWith_cons_cons, hp, pathString]

theorem trimSuffix_pathString {p : RelPath} (hne : p ≠ []) (h : ∀ n ∈ p, FileName n) :
    trimSuffix (pathString p) "/" = pathString p := by
  obtain ⟨n, hn, c, hc, hl⟩ := getLast?_pathString hne h
  have hend : endsWith (pathString p) "/" = false := by
    by_contra he
    rw [Bool.not_eq_false] at he
    rw [endsWith_singleton (c := '/') he] at hl
    exact (h n hn).2.2.2.1 (Option.some.inj hl ▸ hc)
  simp [trimSuffix, stripSuffix, hend]

section PayloadName

variable {p : RelPath}

theorem payloadName_path (hne : p ≠ []) (hb : ∀ n ∈ p, Free '\\' n) :
    payloadName p = pathString ("payload" :: p) := by
  rw [payloadName_plain hb, pathString_payload hne]

theorem payloadName_clean (hne : p ≠ []) (h : ∀ n ∈ p, FileName n)
    (hb : ∀ n ∈ p, Free '\\' n) : trimSuffix (payloadName p) "/" = payloadName p ∧
      cleanPath (payloadName p) = payloadName p := by
  have hfiles := fileName_cons h
  rw [payloadName_path hne hb]
  exact ⟨trimSuffix_pathString (by simp) hfiles, clean_pathString (by simp) hfiles⟩

theorem payloadName_free (hne : p ≠ []) (hb : ∀ n ∈ p, Free '\\' n) {d : Char} (hd : d ≠ '/')
    (h0 : Free d "payload") (hp : ∀ n ∈ p, Free d n) : Free d (payloadName p) := by
  rw [payloadName_path hne hb]
  apply pathString_free hd
  rw [List.forall_mem_cons]
  exact ⟨h0, hp⟩

theorem startsWith_false {s q rest : String} (hs : s = q ++ rest) {r : String}
    (hr : r.toList.isPrefixOf (q.toList ++ rest.toList) = false) : startsWith s r = false := by
  rw [startsWith, hs, String.toList_append, hr]

end PayloadName

theorem payload_wellNamed {p : RelPath} (hne : p ≠ []) (h : ∀ n ∈ p, FileName n)
    (hb : ∀ n ∈ p, Free '\\' n) (hc : ∀ n ∈ p, Free ':' n) {entry : ZipFile}
    (he : entry.name = payloadName p) : WellNamed entry := by
  obtain ⟨htrim, hclean⟩ := payloadName_clean hne h hb
  have hname := payloadName_plain hb
  have hstart : startsWith (payloadName p) "payload/" = true := by
    rw [hname]
    exact startsWith_append _ _
  have hother : ∀ s : String, startsWith s "payload/" = false → payloadName p ≠ s := by
    rintro s hs rfl
    rw [hstart] at hs
    cases hs
  have hslash : startsWith (payloadName p) "/" = false := startsWith_false hname rfl
  have hups : startsWith (payloadName p) "../" = false := startsWith_false hname rfl
  refine ⟨?_, ?_, ?_⟩
  · rw [he]
    simp only [unsafeName, Bool.or_eq_false_iff, decide_eq_false_iff_not]
    exact ⟨⟨⟨⟨hother _ (by decide), payloadName_free hne hb (by decide) (by decide) hb⟩,
      payloadName_free hne hb (by decide) (by decide) hc⟩,
      payloadName_free hne hb (by decide) (by decide) fun n hn => (h n hn).2.2.2.2⟩, hslash⟩
  · rw [he, htrim, hclean]
    simp only [unsafeClean, htrim, Bool.or_eq_false_iff, decide_eq_false_iff_not, not_not]
    exact ⟨⟨⟨hother _ (by decide), hother _ (by decide)⟩, hups⟩, trivial⟩
  · rw [he, htrim, hclean]
    simp [inLayout, hstart]

theorem payloadName_injective {p q : RelPath} (hp : p ≠ []) (hq : q ≠ [])
    (hpn : ∀ n ∈ p, FileName n) (hqn : ∀ n ∈ q, FileName n) (hpb : ∀ n ∈ p, Free '\\' n)
    (hqb : ∀ n ∈ q, Free '\\' n) (h : payloadName p = payloadName q) : p = q := by
  rw [payloadName_path hp hpb, payloadName_path hq hqb] at h
  have hpath := pathString_injective (by simp) (by simp) (fileName_cons hpn) (fileName_cons hqn) h
  exact (List.cons.inj hpath).2

theorem goEntries_sizes {zip : Zip}
    (h : (zip.map fun e => e.bytes.length).sum ≤ maxArchiveUncompressedSize) :
    (goEntries zip).map (fun e => e.uncompressedSize64.toNat) =
      zip.map fun e => e.bytes.length := by
  rw [goEntries, List.map_map]
  refine List.map_congr_left fun e he => ?_
  have hle := List.single_le_sum (fun x _ => Nat.zero_le x) _
    (List.mem_map_of_mem (f := fun e : ZipEntry => e.bytes.length) he)
  have hmax : maxArchiveUncompressedSize < 2 ^ 64 := by decide
  rw [Function.comp_apply, storedFile, UInt64.toNat_ofNat']
  exact Nat.mod_eq_of_lt (by omega)

section Created

variable {t : Tree} {m : QcapManifest} {bundle : QcapSignatureBundle}

theorem grammar_mem (hn : GrammarNames t) {f : RelPath × Bytes} (hf : f ∈ payloadFiles t) :
    f.1 ≠ [] ∧ (∀ n ∈ f.1, FileName n) ∧ (∀ n ∈ f.1, Free '\\' n) ∧ ∀ n ∈ f.1, Free ':' n := by
  have hm := Tree.mem_files.mpr ⟨f.2, mem_payloadFiles.mp hf⟩
  exact ⟨Tree.file_ne_nil hm, Tree.file_names hm, grammar_free hn (by decide) hm,
    grammar_free hn (by decide) hm⟩

theorem cleanName_stored (name : String) (data : Bytes) :
    cleanName (storedFile name data) = cleanPath (trimSuffix name "/") :=
  rfl

def headerEntries (m : QcapManifest) (bundle : QcapSignatureBundle) : Zip :=
  [⟨"manifest.json", J.manifestBytes m⟩, ⟨"meta/", []⟩, ⟨"signatures/", []⟩,
    ⟨"signatures/manifest.sig.json", J.bundleBytes bundle⟩]

theorem created_eq : createQcapArchiveWithSignature J t m bundle =
    headerEntries J m bundle ++ (payloadFiles t).map fun f => ⟨payloadName f.1, f.2⟩ :=
  rfl

def headerNames : List String :=
  ["manifest.json", "meta/", "signatures/", "signatures/manifest.sig.json"]

def headerCleanNames : List String :=
  ["manifest.json", "meta", "signatures", "signatures/manifest.sig.json"]

theorem header_clean :
    headerNames.map (fun name => cleanPath (trimSuffix name "/")) = headerCleanNames := by
  decide

theorem header_wellNamed : ∀ name ∈ headerNames, unsafeName name = false ∧
    unsafeClean name (cleanPath (trimSuffix name "/")) = false ∧
      inLayout (cleanPath (trimSuffix name "/")) = true := by
  decide

theorem header_not_payload : ∀ s ∈ headerCleanNames, startsWith s "payload/" = false := by
  decide

theorem header_names : (headerEntries J m bundle).map ZipEntry.name = headerNames :=
  rfl

theorem created_cleanNames (hn : GrammarNames t) :
    (goEntries (createQcapArchiveWithSignature J t m bundle)).map cleanName =
      headerCleanNames ++ (payloadFiles t).map fun f => payloadName f.1 := by
  have hentries : ∀ zip : Zip, (goEntries zip).map cleanName =
      (zip.map ZipEntry.name).map fun name => cleanPath (trimSuffix name "/") := by
    intro zip
    rw [goEntries, List.map_map, List.map_map]
    exact List.map_congr_left fun e _ => cleanName_stored e.name e.bytes
  rw [hentries, created_eq, List.map_append, List.map_append, header_names, header_clean,
    List.map_map, List.map_map, List.append_cancel_left_eq]
  refine List.map_congr_left fun f hf => ?_
  obtain ⟨hne, hfn, hb, -⟩ := grammar_mem hn hf
  obtain ⟨htrim, hclean⟩ := payloadName_clean hne hfn hb
  rw [Function.comp_apply, Function.comp_apply, htrim, hclean]

theorem created_distinct (hn : GrammarNames t) :
    ((goEntries (createQcapArchiveWithSignature J t m bundle)).map cleanName).Nodup := by
  rw [created_cleanNames J hn, List.nodup_append']
  refine ⟨by decide, ?_, ?_⟩
  · have hnodup := (payloadFiles_nodup t).of_map
    refine (List.nodup_map_iff_inj_on hnodup).mpr fun f hf g hg he => ?_
    obtain ⟨hfe, hfn, hfb, -⟩ := grammar_mem hn hf
    obtain ⟨hge, hgn, hgb, -⟩ := grammar_mem hn hg
    have hpath := payloadName_injective hfe hge hfn hgn hfb hgb he
    exact List.inj_on_of_nodup_map (payloadFiles_nodup t) hf hg hpath
  · intro name hm hp
    obtain ⟨f, hf, rfl⟩ := List.mem_map.mp hp
    have hstart : startsWith (payloadName f.1) "payload/" = true := by
      rw [payloadName_plain (grammar_mem hn hf).2.2.1]
      exact startsWith_append _ _
    rw [header_not_payload _ hm] at hstart
    cases hstart

theorem created_acceptable (hn : GrammarNames t)
    (hl : WithinLimits (createQcapArchiveWithSignature J t m bundle)) :
    Acceptable (goEntries (createQcapArchiveWithSignature J t m bundle))
      (storedFile "manifest.json" (J.manifestBytes m))
      (storedFile "signatures/manifest.sig.json" (J.bundleBytes bundle)) := by
  have hmem : ⟨"manifest.json", J.manifestBytes m⟩ ∈
      createQcapArchiveWithSignature J t m bundle := by
    simp [createQcapArchiveWithSignature]
  have hmems : ⟨"signatures/manifest.sig.json", J.bundleBytes bundle⟩ ∈
      createQcapArchiveWithSignature J t m bundle := by
    simp [createQcapArchiveWithSignature]
  have hman := hl.documents _ hmem (Or.inl rfl)
  have hsig := hl.documents _ hmems (Or.inr rfl)
  refine ⟨by simpa [goEntries] using hl.count, ?_, created_distinct J hn, ?_,
    ⟨List.mem_map.mpr ⟨_, hmem, rfl⟩, rfl, ?_⟩, ⟨List.mem_map.mpr ⟨_, hmems, rfl⟩, rfl, ?_⟩⟩
  · intro entry hentry
    obtain ⟨e, he, rfl⟩ := List.mem_map.mp hentry
    rw [created_eq] at he
    rcases List.mem_append.mp he with he | he
    · have hname : e.name ∈ headerNames := header_names J ▸ List.mem_map_of_mem he
      obtain ⟨h1, h2, h3⟩ := header_wellNamed e.name hname
      exact ⟨h1, h2, h3⟩
    · obtain ⟨f, hf, rfl⟩ := List.mem_map.mp he
      obtain ⟨hne, hfn, hb, hc⟩ := grammar_mem hn hf
      exact payload_wellNamed hne hfn hb hc rfl
  · rw [goEntries_sizes hl.total]
    exact hl.total
  · rw [storedFile_size hman]
    exact hman
  · rw [storedFile_size hsig]
    exact hsig

theorem created_withinLimits (hn : GrammarNames t)
    (hm : (J.manifestBytes m).length ≤ maxManifestBytes)
    (hb : (J.bundleBytes bundle).length ≤ maxManifestBytes)
    (hcount : (payloadFiles t).length + 4 ≤ maxArchiveEntries)
    (htotal : ((payloadFiles t).map fun f => f.2.length).sum + 2 * maxManifestBytes ≤
      maxArchiveUncompressedSize) :
    WithinLimits (createQcapArchiveWithSignature J t m bundle) where
  count := by
    rw [createQcapArchiveWithSignature, List.length_append, List.length_map]
    exact (Nat.add_comm _ _).trans_le hcount
  total := by
    have hpayload : ((payloadFiles t).map fun f =>
        (⟨payloadName f.1, f.2⟩ : ZipEntry)).map (fun e => e.bytes.length) =
        (payloadFiles t).map fun f => f.2.length := by
      rw [List.map_map]
      rfl
    rw [createQcapArchiveWithSignature, List.map_append, List.sum_append, hpayload]
    simp only [List.map_cons, List.map_nil, List.sum_cons, List.sum_nil, List.length_nil]
    omega
  documents e he hname := by
    rcases List.mem_append.mp he with he | he
    · simp only [List.mem_cons, List.not_mem_nil, or_false] at he
      rcases he with rfl | rfl | rfl | rfl
      · exact hm
      · exact Nat.zero_le _
      · exact Nat.zero_le _
      · exact hb
    · obtain ⟨f, hf, rfl⟩ := List.mem_map.mp he
      obtain ⟨-, -, hplain, -⟩ := grammar_mem hn hf
      have hpayload : (payloadName f.1).toList.head? = some 'p' := by
        rw [payloadName_plain hplain, String.toList_append]
        rfl
      rcases hname with hname | hname
      · rw [show payloadName f.1 = "manifest.json" from hname] at hpayload
        exact absurd hpayload (by decide)
      · rw [show payloadName f.1 = "signatures/manifest.sig.json" from hname] at hpayload
        exact absurd hpayload (by decide)

theorem signed_accepted (hA : Agrees J G) (members : List (String × Value))
    (hn : GrammarNames t) {key : Seed} (hm : m.metadata = .object members)
    (hv : JsonReader.Valid m.metadata) (hsv : trim m.schemaVersion ≠ "")
    (hroot : trim m.merkleRoot ≠ "") (hca : trim m.createdAt ≠ "")
    (hkey : SignsCorrectly C key (J.manifestBytes m))
    (hb : bundle = signManifest C (J.manifestBytes m) m.merkleRoot key)
    (hl : WithinLimits (createQcapArchiveWithSignature J t m bundle)) :
    validateQcapArchive C G (.ok (goEntries (createQcapArchiveWithSignature J t m bundle))) =
      .ok () := by
  have hman := hl.documents ⟨"manifest.json", J.manifestBytes m⟩
    (by simp [createQcapArchiveWithSignature]) (Or.inl rfl)
  have hsig := hl.documents ⟨"signatures/manifest.sig.json", J.bundleBytes bundle⟩
    (by simp [createQcapArchiveWithSignature]) (Or.inr rfl)
  have hcheck : checkBundle C G (signManifest C (J.manifestBytes m) m.merkleRoot key)
      m.merkleRoot (J.manifestBytes m) = .ok () := checkBundle_signed C G hkey
  rw [← hb] at hcheck
  rw [validateQcapArchive_opened]
  exact validateEntries_accepts C G (created_acceptable J hn hl) (readEntry_stored hman)
    (readEntry_stored hsig) (checkManifest_written J G hA hm hv hsv hroot hca)
    (hA.bundle bundle) hcheck

end Created

theorem trim_root (blake3 : Bytes → Digest) (t : Tree) :
    trim (computePayloadMerkleRoot blake3 t) ≠ "" := by
  obtain ⟨d, hd⟩ := root_form blake3 t
  rw [hd]
  exact trim_ne_empty (c := 'b') (by simp) (by decide)

theorem trim_unixSeconds (now : ℕ) : trim (unixSeconds now) ≠ "" :=
  trim_ne_empty (c := 'u') (by simp [unixSeconds]) (by decide)

theorem sealed_grammar {r : SealRequest} {package : SealedPackage} {inputDir : Tree}
    {issuer recipient : Identity} {stanza : RecipientStanza} {turns : List SealedFile}
    (h : Sealed C J r package inputDir issuer recipient stanza turns)
    (hn : GrammarNames inputDir) : GrammarNames package.encryptedRoot := by
  intro p hp
  obtain ⟨b, hb⟩ := Tree.mem_files.mp (AList.mem_keys.mpr hp)
  obtain ⟨f, hf, rfl, -⟩ := h.encrypted_source C J (grammar_plain hn) hb
  have hm := (plain_of_mem (grammar_plain hn) (h.source_mem C J hf)).1
  exact hn f.source (AList.mem_keys.mp hm)

/-- An archive that `pack` or `seal` wrote, with its input directory. -/
inductive Written : Tree → Zip → Prop
  | pack {r : PackRequest} {zip : Zip} : packPlain C J r = .ok zip → Written r.inputDir zip
  | sealArchive {r : SealRequest} {inputDir : Tree} {zip : Zip} : r.inputDir = some inputDir →
      sealArchive C J r = .ok zip → Written inputDir zip

/-- What the writers emit, the registry accepts. -/
theorem written_accepted (hC : SignatureCorrect C) (hA : Agrees J G) {inputDir : Tree} {zip : Zip}
    (h : Written C J inputDir zip) (hn : GrammarNames inputDir) (hl : WithinLimits zip)
    {document : Bytes} (hread : G.openReader document = .ok (goEntries zip)) :
    validateQcapArchive C G (G.openReader document) = .ok () := by
  rw [hread]
  cases h with
  | @pack r _ h =>
    simp only [packPlain, bind_ok] at h
    obtain ⟨key, -, he⟩ := h
    cases he
    exact signed_accepted C J G hA [] hn rfl (by simp [packManifest, QcapManifest.newWithNow,
      QcapManifest.new, JsonReader.Valid, JsonReader.ValidMembers])
      (show trim "0.1.0" ≠ "" by decide) (trim_root _ _) (trim_unixSeconds _) (hC _ _) rfl hl
  | @sealArchive r _ _ hd h =>
    simp only [IssuerCommands.sealArchive, bind_ok] at h
    obtain ⟨package, hp, he⟩ := h
    cases he
    obtain ⟨dir, issuer, recipient, stanza, turns, hs⟩ := sealPackage_ok C J hp
    have hdir : dir = inputDir := Option.some.inj (hs.input_dir.symm.trans hd)
    subst hdir
    refine signed_accepted C J G hA [("title", .string "Q-Cap MVP sealed package")]
      (sealed_grammar C J hs hn) ?_ ?_ ?_ ?_ ?_ (hC _ _) rfl hl
    · rw [hs.manifest]
      rfl
    · rw [hs.manifest]
      simp [QcapManifest.newSealed, JsonReader.Valid, JsonReader.ValidMembers]
    · rw [hs.manifest]
      exact show trim "0.2.0" ≠ "" by decide
    · rw [hs.manifest]
      exact trim_root _ _
    · rw [hs.manifest]
      exact trim_unixSeconds _

theorem valid_optionalString (s : Option String) :
    JsonReader.Valid (Json.optionalString s) := by
  cases s <;> simp [Json.optionalString, JsonReader.Valid]

theorem valid_manifest {m : QcapManifest} (hv : JsonReader.Valid m.metadata) :
    JsonReader.Valid (.object (("schema_version", .string m.schemaVersion) ::
      Json.manifestMembers m)) := by
  have hfiles := JsonReader.validItems_map (f := Json.payloadFileValue) (fun file => by
    simp only [Json.payloadFileValue, JsonReader.Valid, JsonReader.ValidMembers]
    exact ⟨trivial, GoJson.isNumber_toString _, trivial, trivial, trivial⟩) m.files
  have hrecipients := JsonReader.validItems_map (f := Json.recipientValue) (fun stanza => by
    simp [Json.recipientValue, JsonReader.Valid, JsonReader.ValidMembers]) m.recipients
  have halgorithms := JsonReader.validItems_map (f := Value.string) (fun s => by
    simp [JsonReader.Valid]) m.algorithms
  simp [Json.manifestMembers, JsonReader.Valid, JsonReader.ValidMembers, valid_optionalString,
    hv, hfiles, hrecipients, halgorithms]

theorem firstByte_string (s : String) :
    firstByte (asBytes (Json.render false 0 (.string s))) = some 34 := by
  have h : asBytes "\"" = [34] := by decide
  simp only [Json.render, Json.quote, asBytes_append, h, List.append_assoc]
  rfl

theorem firstByte_members (members : List (String × Value)) :
    firstByte (asBytes (Json.render false 0 (.object members))) = some 123 := by
  cases members with
  | nil => decide
  | cons m members => exact Json.firstByte_object _ _ _ _

theorem libraries_agree (manifests : List QcapManifest) (bundles : List QcapSignatureBundle)
    (materials : List PrivateKeyMaterial) (openReader : Bytes → GoResult (List ZipFile)) :
    Agrees (Json.documentCodec manifests bundles materials) (GoJson.goLibrary openReader) where
  manifest m hv := by
    refine ⟨_, GoJson.unmarshal_render (valid_manifest hv) (GoJson.decodeFields_object _), ?_, ?_⟩
    · intro key s hm
      refine ⟨asBytes (Json.render false 0 (.string s)), ?_, firstByte_string s,
        GoJson.decodeString_written s⟩
      simp only [List.mem_cons, List.not_mem_nil, or_false, Prod.mk.injEq] at hm
      rcases hm with ⟨rfl, rfl⟩ | ⟨rfl, rfl⟩ | ⟨rfl, rfl⟩ <;> simp [Json.manifestMembers]
    · refine ⟨asBytes (Json.render false 0 m.metadata), ?_, ?_⟩
      · simp [Json.manifestMembers]
      · rintro members hm
        rw [hm]
        exact firstByte_members members
  bundle := GoJson.decodeBundle_written

def packRequest : PackRequest where
  inputDir := SealRoundTrip.sampleDir
  key := .ok (asBytes (hexEncode signerKey.val))
  passphrase := Identity.noPassphrase
  now := 1700000000

def packedZip : Zip := (packPlain toy (Json.documentCodec [] [] []) packRequest).toOption.getD []

theorem packRequest_pack :
    packPlain toy (Json.documentCodec [] [] []) packRequest =
      .ok (createQcapArchiveWithSignature (Json.documentCodec [] [] []) SealRoundTrip.sampleDir
        (packManifest toy packRequest) (signManifest toy
          (Json.manifestBytes (packManifest toy packRequest))
          (packManifest toy packRequest).merkleRoot signerKey)) := by
  have hkey :=
    signingKeyFromFile_hex toy (Json.documentCodec [] [] []) signerKey Identity.noPassphrase
  rw [packPlain, show packRequest.key = .ok (asBytes (hexEncode signerKey.val)) from rfl,
    show packRequest.passphrase = Identity.noPassphrase from rfl, hkey]
  rfl

theorem packedZip_pack :
    packPlain toy (Json.documentCodec [] [] []) packRequest = .ok packedZip := by
  rw [packedZip, packRequest_pack]
  rfl

theorem length_packManifest (r : PackRequest) : (Json.manifestBytes (packManifest C r)).length ≤
    6 * ((asBytes (packManifest C r).merkleRoot).length + (asBytes (unixSeconds r.now)).length) +
      400 := by
  have hroot := Json.length_quote (computePayloadMerkleRoot C.blake3 r.inputDir)
  have hnow := Json.length_quote (unixSeconds r.now)
  have hempty : (asBytes (Json.quote "")).length = 2 := by decide
  have hrest : (Json.manifestBytes (QcapManifest.new "0.1.0" "" none "" (.object []))).length ≤
      400 := by
    decide +kernel
  simp only [packManifest, Json.manifestBytes, Json.manifestMembers, QcapManifest.newWithNow,
    QcapManifest.new, Json.render, Json.renderMembers, asBytes_append,
    List.length_append] at hrest ⊢
  omega

theorem sampleDir_grammar : GrammarNames SealRoundTrip.sampleDir := by
  have h : (SealRoundTrip.sampleDir.files.keys.all fun p => p.all fun n =>
      n.toList.all segmentChar) = true := by
    decide +kernel
  simpa only [GrammarNames, List.all_eq_true] using h

theorem packedZip_limits : WithinLimits packedZip := by
  have hzip := packRequest_pack
  rw [packedZip_pack] at hzip
  rw [Except.ok.inj hzip]
  obtain ⟨d, hroot⟩ := root_form toy.blake3 SealRoundTrip.sampleDir
  have hlen : (asBytes (packManifest toy packRequest).merkleRoot).length = 71 := by
    have hscheme : (asBytes "blake3:").length = 7 := by decide
    rw [show (packManifest toy packRequest).merkleRoot = _ from hroot, asBytes_append,
      List.length_append, hscheme, length_asBytes_hexEncode, d.property]
  have hnow : (asBytes (unixSeconds packRequest.now)).length = 23 := by decide
  have hmanifest := length_packManifest toy packRequest
  rw [hlen, hnow] at hmanifest
  have hmax : 20000 ≤ maxManifestBytes := by decide
  have hbundle := signed_bundle_fits (toy.verifyingKey signerKey)
    (toy.sign signerKey (Json.manifestBytes (packManifest toy packRequest)))
    (hlen.trans_le (Nat.le_of_ble_eq_true rfl))
    (show (asBytes "ed25519:manifest").length ≤ 1000 by decide)
  refine created_withinLimits (Json.documentCodec [] [] []) sampleDir_grammar
    (hmanifest.trans (by omega)) ?_ (by decide +kernel) (by decide +kernel)
  rw [signManifest]
  exact hbundle

theorem packed_accepted :
    validateQcapArchive toy (GoJson.goLibrary fun _ => .ok (goEntries packedZip))
      (.ok (goEntries packedZip)) = .ok () :=
  written_accepted toy (Json.documentCodec [] [] [])
    (GoJson.goLibrary fun _ => .ok (goEntries packedZip)) toy_signatureCorrect
    (libraries_agree _ _ _ _) (Written.pack packedZip_pack) sampleDir_grammar
    packedZip_limits (show (GoJson.goLibrary fun _ => .ok (goEntries packedZip)).openReader [] =
      .ok (goEntries packedZip) from rfl)

end QCap.WriterAccepted
