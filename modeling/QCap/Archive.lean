import QCap.PayloadMerkle
import QCap.Signatures

/-!
# Archives

A ZIP file is the list of its entries, in any order and with repeated names. Reading by
name yields the last entry of that name; `verify_archive` and `open_plain` read by index,
with the same loop over the payload entries and different filters.
-/
namespace QCap.Archive

open QCap.Text QCap.PathTree QCap.Crypto QCap.Formats QCap.Signatures QCap.PayloadMerkle

structure ZipEntry where
  name : String
  bytes : Bytes
  deriving DecidableEq, Repr

abbrev Zip := List ZipEntry

/-- `ZipArchive::by_name`: the name index keeps the last entry of a name. -/
def byName (zip : Zip) (name : String) : Result ZipEntry :=
  okOr (zip.reverse.find? fun entry => entry.name = name) .zip

def isDir (name : String) : Bool := endsWith name "/" || endsWith name "\\"

/-- `&name[8..]` of an entry that the payload loops do not skip. -/
def payloadRel (entry : ZipEntry) : Option String :=
  if isDir entry.name then none else stripPrefix entry.name "payload/"

theorem payloadRel_none {name : String} {bytes : Bytes} (h : startsWith name "payload/" = false) :
    payloadRel ⟨name, bytes⟩ = none := by
  simp [payloadRel, stripPrefix, h]

/-- The loop of `verify_archive`, `allowed` being constantly true, and of `open_plain`. The
first component counts the files; an error ends the loop and leaves the tree as it is. -/
def writeEntries (allowed : String → Bool) (root : Tree) (count : ℕ) : Zip → Result ℕ × Tree
  | [] => (.ok count, root)
  | entry :: rest =>
    match payloadRel entry with
    | none => writeEntries allowed root count rest
    | some rel =>
      if allowed rel then
        match writeSafe root rel entry.bytes with
        | (.error e, root') => (.error e, root')
        | (.ok (), root') => writeEntries allowed root' (count + 1) rest
      else writeEntries allowed root count rest

def payloadWrites (zip : Zip) : List FileWrite :=
  zip.filterMap fun entry => (payloadRel entry).map fun rel => (rel, entry.bytes)

def allowedWrites (allowed : String → Bool) (zip : Zip) : List FileWrite :=
  (payloadWrites zip).filter fun w => allowed w.1

theorem allowedWrites_true (zip : Zip) : allowedWrites (fun _ => true) zip = payloadWrites zip :=
  List.filter_true _

theorem allowedWrites_cons (allowed : String → Bool) (entry : ZipEntry) (rest : Zip) :
    allowedWrites allowed (entry :: rest) =
      match payloadRel entry with
      | none => allowedWrites allowed rest
      | some rel =>
        if allowed rel then (rel, entry.bytes) :: allowedWrites allowed rest
        else allowedWrites allowed rest := by
  cases hp : payloadRel entry <;> simp [allowedWrites, payloadWrites, hp, List.filter_cons]

theorem writeEntries_ok {allowed : String → Bool} {zip : Zip} {root root' : Tree}
    {count n : ℕ} (h : writeEntries allowed root count zip = (.ok n, root')) :
    Wrote (allowedWrites allowed zip) root root' ∧
      n = count + (allowedWrites allowed zip).length ∧
      ∀ w ∈ allowedWrites allowed zip, validateRelativePath w.1 = .ok () := by
  induction zip generalizing root count with
  | nil =>
    cases h
    exact ⟨rfl, rfl, by simp [allowedWrites, payloadWrites]⟩
  | cons entry rest ih =>
    rw [allowedWrites_cons]
    unfold writeEntries at h
    cases hp : payloadRel entry with
    | none =>
      rw [hp] at h
      exact ih h
    | some rel =>
      rw [hp] at h
      simp only at h ⊢
      by_cases ha : allowed rel = true
      · rw [if_pos ha] at h ⊢
        split at h
        · cases h
        · rename_i m hw
          obtain ⟨hv, hu⟩ := writeSafe_ok hw
          obtain ⟨h1, h2, h3⟩ := ih h
          rw [List.forall_mem_cons, List.length_cons]
          exact ⟨⟨m, hu, h1⟩, by omega, hv, h3⟩
      · rw [if_neg ha] at h ⊢
        exact ih h

theorem writeEntries_wrote {allowed : String → Bool} {zip : Zip} {root root' : Tree}
    {count : ℕ} (hv : ∀ w ∈ allowedWrites allowed zip, validateRelativePath w.1 = .ok ())
    (hw : Wrote (allowedWrites allowed zip) root root') :
    writeEntries allowed root count zip =
      (.ok (count + (allowedWrites allowed zip).length), root') := by
  induction zip generalizing root count with
  | nil => rw [show root' = root from hw]; rfl
  | cons entry rest ih =>
    rw [allowedWrites_cons] at hv hw ⊢
    unfold writeEntries
    cases hp : payloadRel entry with
    | none =>
      rw [hp] at hv hw
      exact ih hv hw
    | some rel =>
      rw [hp] at hv hw
      simp only at hv hw ⊢
      by_cases ha : allowed rel = true
      · rw [if_pos ha] at hv hw ⊢
        rw [List.forall_mem_cons] at hv
        obtain ⟨m, hm, hr⟩ := hw
        have hs : writeSafe root rel entry.bytes = (.ok (), m) := by
          rw [writeSafe, hv.1]; exact hm
        rw [if_pos ha, hs, List.length_cons, ← Nat.add_assoc, Nat.add_right_comm]
        exact ih hv.2 hr
      · rw [if_neg ha] at hv hw ⊢
        rw [if_neg ha]
        exact ih hv hw

variable (C : Primitives) (J : JsonCodec)

/-- `read_manifest`: the parsed manifest and the exact bytes it was parsed from. -/
def readManifest (zip : Zip) : Result (QcapManifest × Bytes) := do
  let entry ← byName zip "manifest.json"
  let manifest ← okOr (J.parseManifest entry.bytes) .json
  return (manifest, entry.bytes)

/-- `read_signature`. Bytes that are not UTF-8 count as a document that does not parse. -/
def readSignature (zip : Zip) : Result QcapSignatureBundle := do
  let entry ← byName zip "signatures/manifest.sig.json"
  okOr (J.parseBundle entry.bytes) .json

structure VerifyReport where
  manifest : QcapManifest
  signature : QcapSignatureBundle
  payloadFiles : ℕ

/-- The temporary directory of `verify_archive` and the number of files in it. -/
def extractPayload (zip : Zip) : Result ℕ × Tree := writeEntries (fun _ => true) Tree.empty 0 zip

def verifyArchive (zip : Zip) : Result VerifyReport := do
  let (manifest, manifestBytes) ← readManifest J zip
  let signature ← readSignature J zip
  verifyManifestSignature C signature manifestBytes
  let payloadFiles ← (extractPayload zip).1
  let recomputed := computePayloadMerkleRoot C.blake3 (extractPayload zip).2
  ensure (recomputed = manifest.merkleRoot ∧ recomputed = signature.merkleRoot)
    ("Merkle root mismatch: recomputed=" ++ recomputed ++ ", manifest=" ++ manifest.merkleRoot ++
      ", signature=" ++ signature.merkleRoot)
  return { manifest, signature, payloadFiles }

/-- Everything that an accepted archive satisfies. -/
structure Verified (zip : Zip) (report : VerifyReport) (manifestBytes : Bytes) (tree : Tree) :
    Prop where
  manifest_entry : byName zip "manifest.json" = .ok ⟨"manifest.json", manifestBytes⟩
  manifest_parsed : J.parseManifest manifestBytes = some report.manifest
  signature_read : readSignature J zip = .ok report.signature
  signed : verifyManifestSignature C report.signature manifestBytes = .ok ()
  extracted : extractPayload zip = (.ok report.payloadFiles, tree)
  manifest_root : computePayloadMerkleRoot C.blake3 tree = report.manifest.merkleRoot
  signature_root : computePayloadMerkleRoot C.blake3 tree = report.signature.merkleRoot

theorem byName_ok {zip : Zip} {name : String} {entry : ZipEntry}
    (h : byName zip name = .ok entry) : entry ∈ zip ∧ entry.name = name := by
  have hf := okOr_ok.mp h
  exact ⟨List.mem_reverse.mp (List.mem_of_find?_eq_some hf),
    by simpa using List.find?_some hf⟩

theorem verifyArchive_ok {zip : Zip} {report : VerifyReport} :
    verifyArchive C J zip = .ok report ↔
      ∃ manifestBytes tree, Verified C J zip report manifestBytes tree := by
  constructor
  · intro h
    simp only [verifyArchive, readManifest, bind_ok, okOr_ok, ensure_ok] at h
    obtain ⟨⟨manifest, manifestBytes⟩, ⟨entry, he, m, hm, hp⟩, signature, hs, _, hv, n, hx, _,
      ⟨hr, hr'⟩, hrep⟩ := h
    cases hp
    cases hrep
    have hname := (byName_ok he).2
    refine ⟨entry.bytes, (extractPayload zip).2, ?_, hm, hs, hv, Prod.ext hx rfl, hr, hr'⟩
    rw [he, ← hname]
  · rintro ⟨manifestBytes, tree, hm, hp, hs, hv, hx, hr, hr'⟩
    simp only [verifyArchive, readManifest, bind_ok, okOr_ok, ensure_ok]
    exact ⟨(report.manifest, manifestBytes), ⟨_, hm, _, hp, rfl⟩, _, hs, (), hv,
      report.payloadFiles, by rw [hx], (), by rw [hx]; exact ⟨hr, hr'⟩, rfl⟩

/-- The extracted tree holds the last payload file for each location, and no other. -/
theorem Verified.read {zip : Zip} {report : VerifyReport} {manifestBytes : Bytes} {tree : Tree}
    (h : Verified C J zip report manifestBytes tree) (p : RelPath) :
    tree.read p = lastWrite (payloadWrites zip) p := by
  have hw := (writeEntries_ok h.extracted).1
  rw [allowedWrites_true] at hw
  rw [wrote_read hw, Tree.read_empty, Option.or_none]

theorem Verified.key {zip : Zip} {report : VerifyReport} {manifestBytes : Bytes} {tree : Tree}
    (h : Verified C J zip report manifestBytes tree) :
    ∃ pk : PublicKey, hexDecode report.signature.publicKey = some pk.val := by
  obtain ⟨-, hv⟩ := (verifyManifestSignature_ok C).mp h.signed
  obtain ⟨pk, -, hpk, -⟩ := (verifyDetached_ok C).mp hv
  exact ⟨pk, hpk⟩

theorem byName_header {header payload : Zip} {name : String}
    (h : ∀ entry ∈ payload, entry.name ≠ name) :
    byName (header ++ payload) name = byName header name := by
  have hn : payload.reverse.find? (fun entry => decide (entry.name = name)) = none := by
    rw [List.find?_eq_none]
    intro entry hm
    simpa using h entry (List.mem_reverse.mp hm)
  simp [byName, List.reverse_append, List.find?_append, hn]

theorem writeEntries_header {allowed : String → Bool} {root : Tree} {count : ℕ}
    {header payload : Zip} (h : ∀ entry ∈ header, payloadRel entry = none) :
    writeEntries allowed root count (header ++ payload) =
      writeEntries allowed root count payload := by
  induction header with
  | nil => rfl
  | cons entry header ih =>
    rw [List.cons_append, writeEntries, h entry (by simp)]
    exact ih fun e he => h e (List.mem_cons_of_mem _ he)

theorem verified_signed {zip : Zip} {manifest : QcapManifest} {keypair : Seed}
    {bundle : QcapSignatureBundle} {tree : Tree} {n : ℕ}
    (h : SignsCorrectly C keypair (J.manifestBytes manifest))
    (hb : bundle = signManifest C (J.manifestBytes manifest) manifest.merkleRoot keypair)
    (hm : byName zip "manifest.json" = .ok ⟨"manifest.json", J.manifestBytes manifest⟩)
    (hs : byName zip "signatures/manifest.sig.json" =
      .ok ⟨"signatures/manifest.sig.json", J.bundleBytes bundle⟩)
    (hpm : J.parseManifest (J.manifestBytes manifest) = some manifest)
    (hpb : J.parseBundle (J.bundleBytes bundle) = some bundle)
    (hx : extractPayload zip = (.ok n, tree))
    (hr : computePayloadMerkleRoot C.blake3 tree = manifest.merkleRoot) :
    Verified C J zip ⟨manifest, bundle, n⟩ (J.manifestBytes manifest) tree where
  manifest_entry := hm
  manifest_parsed := hpm
  signature_read := by
    simp only [readSignature, bind_ok, okOr_ok]
    exact ⟨_, hs, hpb⟩
  signed := by
    simp only [hb]
    exact verify_signManifest C h _
  extracted := hx
  manifest_root := hr
  signature_root := by rw [hr, hb]; rfl

def payloadName (p : RelPath) : String := replaceChar ("payload/" ++ pathString p) '\\' '/'

def createQcapArchiveWithSignature (inputDir : Tree) (manifest : QcapManifest)
    (signature : QcapSignatureBundle) : Zip :=
  [⟨"manifest.json", J.manifestBytes manifest⟩, ⟨"meta/", []⟩, ⟨"signatures/", []⟩,
    ⟨"signatures/manifest.sig.json", J.bundleBytes signature⟩] ++
    (payloadFiles inputDir).map fun f => ⟨payloadName f.1, f.2⟩

theorem payloadName_plain {p : RelPath} (hp : ∀ n ∈ p, Free '\\' n) :
    payloadName p = "payload/" ++ pathString p :=
  replaceChar_free (free_append.mpr ⟨by decide, pathString_free (by decide) hp⟩)

theorem payloadRel_plain {p : RelPath} (hne : p ≠ []) (hn : ∀ n ∈ p, FileName n)
    (hp : ∀ n ∈ p, Free '\\' n) (bytes : Bytes) :
    payloadRel ⟨payloadName p, bytes⟩ = some (pathString p) := by
  obtain ⟨n, hm, c, hc, hl⟩ := getLast?_pathString hne hn
  have hlast : ("payload/" ++ pathString p).toList.getLast? = some c := by
    rw [String.toList_append, List.getLast?_append, hl, Option.some_or]
  have hdir : ∀ d, Free d n →
      endsWith ("payload/" ++ pathString p) (String.singleton d) = false := by
    intro d hd
    by_contra he
    rw [Bool.not_eq_false] at he
    rw [endsWith_singleton he] at hlast
    exact hd (Option.some.inj hlast ▸ hc)
  have hisdir : isDir ("payload/" ++ pathString p) = false := by
    rw [isDir, Bool.or_eq_false_iff]
    exact ⟨hdir '/' (hn n hm).2.2.2.1, hdir '\\' (hp n hm)⟩
  simp [payloadRel, payloadName_plain hp, hisdir, stripPrefix_append]

theorem byName_unique {zip : Zip} {entry : ZipEntry} (hm : entry ∈ zip)
    (h : ∀ e ∈ zip, e.name = entry.name → e = entry) : byName zip entry.name = .ok entry := by
  rw [byName, okOr_ok]
  cases hf : zip.reverse.find? fun e => decide (e.name = entry.name) with
  | none =>
    rw [List.find?_eq_none] at hf
    exact absurd (decide_eq_true rfl) (hf entry (List.mem_reverse.mpr hm))
  | some e =>
    have hn : e.name = entry.name := by simpa using List.find?_some hf
    rw [h e (List.mem_reverse.mp (List.mem_of_find?_eq_some hf)) hn]

section Created

variable {inputDir : Tree} {manifest : QcapManifest} {signature : QcapSignatureBundle}

theorem payloadName_ne {p : RelPath} (hp : ∀ n ∈ p, Free '\\' n) {name : String}
    (h : startsWith name "payload/" = false) : payloadName p ≠ name := by
  rintro rfl
  rw [payloadName_plain hp, startsWith_append] at h
  cases h

theorem created_byName (ht : PlainNames inputDir) {name : String}
    (h : startsWith name "payload/" = false) :
    byName (createQcapArchiveWithSignature J inputDir manifest signature) name =
      byName [⟨"manifest.json", J.manifestBytes manifest⟩, ⟨"meta/", []⟩, ⟨"signatures/", []⟩,
        ⟨"signatures/manifest.sig.json", J.bundleBytes signature⟩] name := by
  refine byName_header fun entry hm => ?_
  obtain ⟨f, hf, rfl⟩ := List.mem_map.mp hm
  have hk := Tree.mem_files.mpr ⟨f.2, mem_payloadFiles.mp hf⟩
  exact payloadName_ne (ht f.1 (AList.mem_keys.mp hk)) h

theorem created_payload (ht : PlainNames inputDir) {p : RelPath} {b : Bytes}
    (h : inputDir.read p = some b) :
    byName (createQcapArchiveWithSignature J inputDir manifest signature)
      ("payload/" ++ pathString p) = .ok ⟨"payload/" ++ pathString p, b⟩ := by
  have hplain : ∀ {q : RelPath} {c : Bytes}, inputDir.read q = some c →
      (q ∈ inputDir.files ∧ ∀ n ∈ q, Free '\\' n) := fun hq =>
    have hm := Tree.mem_files.mpr ⟨_, hq⟩
    ⟨hm, ht _ (AList.mem_keys.mp hm)⟩
  obtain ⟨hp, hpn⟩ := hplain h
  have hmem : (⟨"payload/" ++ pathString p, b⟩ : ZipEntry) ∈
      createQcapArchiveWithSignature J inputDir manifest signature := by
    refine List.mem_append_right _ (List.mem_map.mpr ⟨(p, b), mem_payloadFiles.mpr h, ?_⟩)
    rw [payloadName_plain hpn]
  refine byName_unique hmem fun e he hname => ?_
  rcases List.mem_append.mp he with he | he
  · exfalso
    have hpre : startsWith e.name "payload/" = true := by
      rw [hname]
      exact startsWith_append _ _
    simp only [List.mem_cons, List.not_mem_nil, or_false] at he
    rcases he with rfl | rfl | rfl | rfl <;> simp only at hpre <;> exact absurd hpre (by decide)
  · obtain ⟨⟨q, c⟩, hf, rfl⟩ := List.mem_map.mp he
    have hq := mem_payloadFiles.mp hf
    obtain ⟨hqm, hqn⟩ := hplain hq
    simp only [payloadName_plain hqn] at hname ⊢
    have hs := (String.append_right_inj _).mp hname
    have := pathString_injective (Tree.file_ne_nil hqm) (Tree.file_ne_nil hp)
      (Tree.file_names hqm) (Tree.file_names hp) hs
    subst this
    rw [h] at hq
    cases hq
    rfl

theorem created_writes (ht : PlainNames inputDir) :
    payloadWrites (createQcapArchiveWithSignature J inputDir manifest signature) =
      matchingFiles (fun _ => true) inputDir := by
  have hheader : payloadWrites [⟨"manifest.json", J.manifestBytes manifest⟩, ⟨"meta/", []⟩,
      ⟨"signatures/", []⟩, ⟨"signatures/manifest.sig.json", J.bundleBytes signature⟩] = [] := by
    have hn : ∀ name bytes, startsWith name "payload/" = false →
        payloadRel ⟨name, bytes⟩ = none := fun _ _ h => payloadRel_none h
    simp only [payloadWrites, List.filterMap_cons, List.filterMap_nil]
    rw [hn _ _ (by decide), hn _ _ (by decide), hn _ _ (by decide), hn _ _ (by decide)]
    rfl
  rw [createQcapArchiveWithSignature, payloadWrites, List.filterMap_append, ← payloadWrites,
    hheader, List.nil_append, List.filterMap_map, matchingFiles, List.filter_true,
    ← List.filterMap_eq_map]
  refine List.filterMap_congr fun f hf => ?_
  have hk := Tree.mem_files.mpr ⟨f.2, mem_payloadFiles.mp hf⟩
  simp only [Function.comp_apply]
  rw [payloadRel_plain (Tree.file_ne_nil hk) (Tree.file_names hk)
    (ht f.1 (AList.mem_keys.mp hk))]
  rfl

theorem created_extract (ht : PlainNames inputDir) :
    ∃ n tree, extractPayload (createQcapArchiveWithSignature J inputDir manifest signature) =
      (.ok n, tree) ∧ ∀ p, tree.read p = inputDir.read p := by
  have hlog : allowedWrites (fun _ => true)
      (createQcapArchiveWithSignature J inputDir manifest signature) =
      matchingFiles (fun _ => true) inputDir := by
    rw [allowedWrites_true, created_writes J ht]
  obtain ⟨tree, hw, hv⟩ := matchingFiles_wrote (fun _ => true) inputDir
  rw [← hlog] at hw hv
  refine ⟨_, tree, writeEntries_wrote hv hw, fun p => ?_⟩
  rw [wrote_read hw, Tree.read_empty, Option.or_none, hlog, lastWrite_matchingFiles]
  rfl

end Created

end QCap.Archive
