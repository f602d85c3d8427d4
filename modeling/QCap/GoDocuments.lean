import QCap.RegistryArchive
import QCap.Json

/-!
# Archives and documents for the registry

ZIP files without compression, Go libraries that read back given archives and documents, and
a legacy archive that the registry accepts around any text that the key signed.
-/
namespace QCap.GoDocuments

open QCap.Text QCap.Crypto QCap.Formats QCap.RegistryArchive

def storedFile (name : String) (data : Bytes) : ZipFile :=
  ⟨name, UInt64.ofNat data.length, .ok (), data, none⟩

def littleEndian (width n : ℕ) : Bytes :=
  (List.range width).map fun i => UInt8.ofNat (n >>> (8 * i))

def crc32 (data : Bytes) : ℕ :=
  (data.foldl (fun crc b => (fun c => if c % 2 = 1 then (c >>> 1) ^^^ 0xEDB88320 else c >>> 1)^[8]
    (crc ^^^ b.toNat)) 0xFFFFFFFF) ^^^ 0xFFFFFFFF

def zipFields (file : ZipFile) : Bytes :=
  littleEndian 2 20 ++ littleEndian 2 0 ++ littleEndian 2 0 ++ littleEndian 2 0 ++
    littleEndian 2 33 ++ littleEndian 4 (crc32 file.data) ++ littleEndian 4 file.data.length ++
    littleEndian 4 file.data.length ++ littleEndian 2 (asBytes file.name).length ++
    littleEndian 2 0

def localEntry (file : ZipFile) : Bytes :=
  littleEndian 4 0x04034b50 ++ zipFields file ++ asBytes file.name ++ file.data

def centralEntry (file : ZipFile) (offset : ℕ) : Bytes :=
  littleEndian 4 0x02014b50 ++ littleEndian 2 20 ++ zipFields file ++ littleEndian 2 0 ++
    littleEndian 2 0 ++ littleEndian 2 0 ++ littleEndian 4 0 ++ littleEndian 4 offset ++
    asBytes file.name

/-- A ZIP file without compression: the entries, the directory and the end record. -/
def storedZip (files : List ZipFile) : Bytes :=
  let entries := files.foldl (fun out file => out ++ localEntry file) []
  let offsets := files.scanl (fun offset file => offset + (localEntry file).length) 0
  let directory := (List.zipWith centralEntry files offsets).flatten
  entries ++ directory ++ littleEndian 4 0x06054b50 ++ littleEndian 2 0 ++ littleEndian 2 0 ++
    littleEndian 2 files.length ++ littleEndian 2 files.length ++
    littleEndian 4 directory.length ++ littleEndian 4 entries.length ++ littleEndian 2 0

@[simp] theorem length_littleEndian (width n : ℕ) : (littleEndian width n).length = width := by
  simp [littleEndian]

theorem length_localEntry (file : ZipFile) :
    (localEntry file).length = 30 + (asBytes file.name).length + file.data.length := by
  simp only [localEntry, zipFields, List.length_append, length_littleEndian]

theorem length_centralEntry (file : ZipFile) (offset : ℕ) :
    (centralEntry file offset).length = 46 + (asBytes file.name).length := by
  simp only [centralEntry, zipFields, List.length_append, length_littleEndian]

variable (C : Primitives) (G : GoLib)

/-- Go libraries that read back the listed documents, which are written without white space. -/
def goDocuments (archives : List (List ZipFile)) (manifests : List (List (String × Value)))
    (strings : List String)
    (bundles : List QcapSignatureBundle) : GoLib where
  openReader document :=
    match archives.find? fun files => storedZip files = document with
    | none => .error "zip: not a valid zip file"
    | some files => .ok files
  unmarshalFields document :=
    match manifests.find? fun ms => asBytes (Json.render false 0 (.object ms)) = document with
    | none => .error "invalid character"
    | some ms => .ok fun key =>
        (ms.reverse.find? fun m => m.1 = key).map fun m => asBytes (Json.render false 0 m.2)
  unmarshalString raw :=
    match strings.find? fun s => asBytes (Json.quote s) = raw with
    | none => .error "invalid character"
    | some s => .ok s
  unmarshalBundle document :=
    match bundles.find? fun b => Json.bundleBytes b = document with
    | none => .error "invalid character"
    | some b => .ok b
  unmarshalRevocations _ := .error "unexpected end of JSON input"
  quoted := Json.quote

theorem goDocuments_readsObjects (archives : List (List ZipFile))
    (manifests : List (List (String × Value)))
    (strings : List String) (bundles : List QcapSignatureBundle) :
    (goDocuments archives manifests strings bundles).ReadsObjects := by
  intro document fields key value h hk
  simp only [goDocuments] at h
  split at h
  · cases h
  · rename_i ms hms
    cases h
    have hd : asBytes (Json.render false 0 (.object ms)) = document := by
      simpa using List.find?_some hms
    cases ms with
    | nil => simp at hk
    | cons m ms => exact hd ▸ Json.firstByte_object _ _ _ _

theorem storedFile_size {name : String} {data : Bytes} (h : data.length ≤ maxManifestBytes) :
    (storedFile name data).uncompressedSize64.toNat = data.length := by
  have hm : maxManifestBytes < 2 ^ 64 := by decide
  rw [storedFile, UInt64.toNat_ofNat']
  exact Nat.mod_eq_of_lt (Nat.lt_of_le_of_lt h hm)

theorem readEntry_stored {name what : String} {data : Bytes}
    (h : data.length ≤ maxManifestBytes) : readEntry (storedFile name data) what = .ok data := by
  have hn : ¬ maxManifestBytes + 1 ≤ data.length := by omega
  simp [readEntry, storedFile, readLimited, wrap, hn]

def legacyMembers (root : String) : List (String × Value) :=
  [("schema_version", .string "0.1.0"), ("merkle_root", .string root),
    ("created_at", .string "unix-seconds:1700000000"), ("metadata", .object [])]

def legacyManifest (root : String) : Bytes :=
  asBytes (Json.render false 0 (.object (legacyMembers root)))

def legacyArchive (bundle : QcapSignatureBundle) : List ZipFile :=
  [storedFile "manifest.json" (legacyManifest bundle.merkleRoot),
    storedFile "signatures/manifest.sig.json" (Json.bundleBytes bundle)]

def legacyGo (bundle : QcapSignatureBundle) : GoLib :=
  goDocuments [legacyArchive bundle] [legacyMembers bundle.merkleRoot]
    [bundle.merkleRoot, "0.1.0", "unix-seconds:1700000000"] [bundle]

theorem wellNamed_document {entry : ZipFile}
    (h : entry.name = "manifest.json" ∨ entry.name = "signatures/manifest.sig.json") :
    WellNamed entry := by
  rcases h with h | h
  · constructor <;> rw [h] <;> decide
  · constructor <;> rw [h] <;> decide

theorem head_quote (s : String) : (asBytes (Json.quote s)).head? = some 34 := by
  have h : asBytes "\"" = [34] := by decide
  simp [Json.quote, h]

theorem length_legacyManifest (root : String) :
    (legacyManifest root).length ≤ 6 * (asBytes root).length + 200 := by
  have hroot := Json.length_quote root
  have hempty : (asBytes (Json.quote "")).length = 2 := by decide
  have hrest : (legacyManifest "").length ≤ 200 := by decide
  simp only [legacyManifest, legacyMembers, Json.render, Json.renderMembers, asBytes_append,
    List.length_append] at hrest ⊢
  omega

theorem signed_bundle_fits {root algorithm : String} (publicKey : PublicKey)
    (signature : Signature) (hroot : (asBytes root).length ≤ 1000)
    (halgorithm : (asBytes algorithm).length ≤ 1000) :
    (Json.bundleBytes ⟨root, hexEncode signature.val, hexEncode publicKey.val,
      algorithm⟩).length ≤ maxManifestBytes := by
  have hb := Json.length_bundleBytes
    ⟨root, hexEncode signature.val, hexEncode publicKey.val, algorithm⟩
  have hmax : 20000 ≤ maxManifestBytes := by decide
  simp only [length_asBytes_hexEncode, publicKey.property, signature.property] at hb
  omega

theorem signed_documents_fit {root : String} (publicKey : PublicKey) (signature : Signature)
    (hroot : (asBytes root).length ≤ 1000) : (legacyManifest root).length ≤ maxManifestBytes ∧
      (Json.bundleBytes ⟨root, hexEncode signature.val, hexEncode publicKey.val,
        "ed25519"⟩).length ≤ maxManifestBytes := by
  have hm := length_legacyManifest root
  have hmax : 20000 ≤ maxManifestBytes := by decide
  exact ⟨by omega, signed_bundle_fits publicKey signature hroot (by decide)⟩

theorem stringField_legacy {bundle : QcapSignatureBundle} (h : trim bundle.merkleRoot ≠ "")
    {fields : String → Option Bytes} {key s : String}
    (hk : fields key = some (asBytes (Json.quote s)))
    (hs : s ∈ [bundle.merkleRoot, "0.1.0", "unix-seconds:1700000000"]) :
    requireField fields key = .ok () ∧ ∃ v, stringField (legacyGo bundle) fields key = .ok v := by
  constructor
  · have hq := head_quote s
    simp only [requireField, hk, failIf_ok]
    rintro (he | he) <;> rw [he] at hq <;> revert hq <;> decide
  · cases hf : [bundle.merkleRoot, "0.1.0", "unix-seconds:1700000000"].find?
        fun t => asBytes (Json.quote t) = asBytes (Json.quote s) with
    | none =>
      rw [List.find?_eq_none] at hf
      exact absurd (decide_eq_true rfl) (hf s hs)
    | some v =>
      have hv : trim v ≠ "" := by
        have hm := List.mem_of_find?_eq_some hf
        simp only [List.mem_cons, List.not_mem_nil, or_false] at hm
        rcases hm with rfl | rfl | rfl
        · exact h
        · decide
        · decide
      exact ⟨v, by simp [stringField, legacyGo, goDocuments, hk, hf, hv]⟩

theorem legacyManifest_root {bundle : QcapSignatureBundle} (h : trim bundle.merkleRoot ≠ "") :
    checkManifest (legacyGo bundle) (legacyManifest bundle.merkleRoot) =
      .ok bundle.merkleRoot := by
  let fields : String → Option Bytes := fun key =>
    ((legacyMembers bundle.merkleRoot).reverse.find? fun m => m.1 = key).map fun m =>
      asBytes (Json.render false 0 m.2)
  have hfields : (legacyGo bundle).unmarshalFields (legacyManifest bundle.merkleRoot) =
      .ok fields := by
    simp [legacyGo, goDocuments, legacyManifest, fields]
  have hstring : ∀ key s, fields key = some (asBytes (Json.quote s)) →
      s ∈ [bundle.merkleRoot, "0.1.0", "unix-seconds:1700000000"] →
      requireField fields key = .ok () ∧ ∃ v, stringField (legacyGo bundle) fields key = .ok v :=
    fun _ _ hk hs => stringField_legacy h hk hs
  obtain ⟨hv, v, hv'⟩ := hstring "schema_version" "0.1.0" rfl (by simp)
  obtain ⟨hr, -⟩ := hstring "merkle_root" bundle.merkleRoot rfl (by simp)
  obtain ⟨hc, c, hc'⟩ := hstring "created_at" "unix-seconds:1700000000" rfl (by simp)
  have hm : requireField fields "metadata" = .ok () := by
    have hf : fields "metadata" = some (asBytes "\x7b\x7d") := rfl
    rw [requireField, hf]
    decide
  have hr' : stringField (legacyGo bundle) fields "merkle_root" = .ok bundle.merkleRoot := by
    simp [stringField, legacyGo, goDocuments, fields, legacyMembers, Json.render, h]
  simp only [checkManifest, bind_ok, wrap_ok]
  exact ⟨fields, hfields, (), bind_ok.mpr ⟨(), hv, bind_ok.mpr ⟨(), hr, bind_ok.mpr ⟨(), hc,
    bind_ok.mpr ⟨(), hm, rfl⟩⟩⟩⟩, v, hv', _, hr', c, hc', rfl⟩

theorem legacyGo_bundle (bundle : QcapSignatureBundle) :
    (legacyGo bundle).unmarshalBundle (Json.bundleBytes bundle) = .ok bundle := by
  simp [legacyGo, goDocuments]

theorem length_legacyZip (bundle : QcapSignatureBundle) :
    (storedZip (legacyArchive bundle)).length = 256 +
      (legacyManifest bundle.merkleRoot).length + (Json.bundleBytes bundle).length := by
  have hm : (asBytes "manifest.json").length = 13 := by decide
  have hs : (asBytes "signatures/manifest.sig.json").length = 28 := by decide
  simp only [storedZip, legacyArchive, storedFile, List.foldl_cons, List.foldl_nil,
    List.scanl_cons, List.zipWith_cons_cons, List.zipWith_nil_left, List.flatten_cons,
    List.flatten_nil, List.length_append, List.length_nil, length_localEntry,
    length_centralEntry, length_littleEndian, hm, hs]
  omega

theorem legacyGo_openReader (bundle : QcapSignatureBundle) :
    (legacyGo bundle).openReader (storedZip (legacyArchive bundle)) =
      .ok (legacyArchive bundle) := by
  simp [legacyGo, goDocuments]

theorem legacyFiles_accepted {bundle : QcapSignatureBundle} (rest : List ZipFile)
    {publicKey : PublicKey} {signature : Signature} (halg : bundle.algorithm = "ed25519")
    (hpk : hexDecode bundle.publicKey = some publicKey.val)
    (hsig : hexDecode bundle.signature = some signature.val)
    (hv : C.verify publicKey (asBytes bundle.merkleRoot) signature = true)
    (hroot : trim bundle.merkleRoot ≠ "")
    (hm : (legacyManifest bundle.merkleRoot).length ≤ maxManifestBytes)
    (hb : (Json.bundleBytes bundle).length ≤ maxManifestBytes)
    (hcount : rest.length + 2 ≤ maxArchiveEntries)
    (hnamed : ∀ entry ∈ rest, WellNamed entry)
    (hdistinct : ("manifest.json" :: "signatures/manifest.sig.json" :: rest.map cleanName).Nodup)
    (hsize : 2 * maxManifestBytes + (rest.map fun e => e.uncompressedSize64.toNat).sum ≤
      maxArchiveUncompressedSize) :
    validateQcapArchive C (legacyGo bundle) (.ok (legacyArchive bundle ++ rest)) = .ok () := by
  have hacc : Acceptable (legacyArchive bundle ++ rest)
      (storedFile "manifest.json" (legacyManifest bundle.merkleRoot))
      (storedFile "signatures/manifest.sig.json" (Json.bundleBytes bundle)) := by
    refine ⟨?_, ?_, ?_, ?_, ⟨by simp [legacyArchive], rfl, ?_⟩, ⟨by simp [legacyArchive], rfl, ?_⟩⟩
    · rw [List.length_append, Nat.add_comm]
      exact hcount
    · intro entry he
      rcases List.mem_append.mp he with he | he
      · simp only [legacyArchive, List.mem_cons, List.not_mem_nil, or_false] at he
        rcases he with rfl | rfl
        · exact wellNamed_document (.inl rfl)
        · exact wellNamed_document (.inr rfl)
      · exact hnamed entry he
    · have hclean : (legacyArchive bundle).map cleanName =
          ["manifest.json", "signatures/manifest.sig.json"] := by
        simp only [legacyArchive, List.map_cons, List.map_nil, cleanName, storedFile]
        decide
      rw [List.map_append, hclean]
      exact hdistinct
    · simp only [legacyArchive, List.map_append, List.sum_append, List.map_cons, List.map_nil,
        List.sum_cons, List.sum_nil, storedFile_size hm, storedFile_size hb]
      omega
    · rw [storedFile_size hm]
      exact hm
    · rw [storedFile_size hb]
      exact hb
  have hsign : signedBytes (legacyGo bundle) bundle (legacyManifest bundle.merkleRoot) =
      .ok (asBytes bundle.merkleRoot) := by
    rw [signedBytes, if_neg (by rw [halg]; decide), if_pos halg]
  have hcheck : checkBundle C (legacyGo bundle) bundle bundle.merkleRoot
      (legacyManifest bundle.merkleRoot) = .ok () := by
    simp only [checkBundle, bind_ok, failIf_ok, decodeBytes_ok]
    exact ⟨(), by simp, publicKey, hpk, signature, hsig, _, hsign, by simp [hv]⟩
  rw [validateQcapArchive_opened]
  exact validateEntries_accepts C (legacyGo bundle) hacc (readEntry_stored hm)
    (readEntry_stored hb) (legacyManifest_root hroot) (legacyGo_bundle bundle) hcheck

theorem legacyArchive_accepted {bundle : QcapSignatureBundle} {publicKey : PublicKey}
    {signature : Signature} (halg : bundle.algorithm = "ed25519")
    (hpk : hexDecode bundle.publicKey = some publicKey.val)
    (hsig : hexDecode bundle.signature = some signature.val)
    (hv : C.verify publicKey (asBytes bundle.merkleRoot) signature = true)
    (hroot : trim bundle.merkleRoot ≠ "")
    (hm : (legacyManifest bundle.merkleRoot).length ≤ maxManifestBytes)
    (hb : (Json.bundleBytes bundle).length ≤ maxManifestBytes) :
    validateQcapArchive C (legacyGo bundle) (.ok (legacyArchive bundle)) = .ok () := by
  have h := legacyFiles_accepted C [] halg hpk hsig hv hroot hm hb (by decide) (by simp)
    (by decide) (by decide)
  rwa [List.append_nil] at h

end QCap.GoDocuments
