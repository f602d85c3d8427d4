import QCap.Revocation
import Mathlib.Data.List.Nodup

/-!
# Upload checks of the registry

`validateQcapArchive` looks at the directory of a ZIP file and then at two of its entries.
The Go packages `archive/zip` and `encoding/json` are a record of functions: a ZIP file is
what the reader makes of it, each entry with the size that its header announces and the
bytes that it inflates to.
-/
namespace QCap.RegistryArchive

open QCap.Text QCap.Crypto QCap.Formats QCap.Revocation

abbrev GoResult (α : Type) := Except String α

def failIf (condition : Prop) [Decidable condition] (text : String) : GoResult Unit :=
  if condition then .error text else .ok ()

@[simp] theorem failIf_ok {condition : Prop} [Decidable condition] {text : String} {u : Unit} :
    failIf condition text = .ok u ↔ ¬ condition := by
  unfold failIf
  by_cases h : condition <;> simp [h]

def wrap {α : Type} (text : String) : GoResult α → GoResult α
  | .ok a => .ok a
  | .error e => .error (text ++ ": " ++ e)

@[simp] theorem wrap_ok {α : Type} {text : String} {x : GoResult α} {a : α} :
    wrap text x = .ok a ↔ x = .ok a := by
  cases x <;> simp [wrap]

/-- `zip.File`, with what `Open` and the reader that it returns yield. -/
structure ZipFile where
  name : String
  uncompressedSize64 : UInt64
  opened : GoResult Unit
  data : Bytes
  readError : Option String

/-- The Go libraries at the types that the registry uses. A decoded map is its lookup. -/
structure GoLib where
  openReader : Bytes → GoResult (List ZipFile)
  unmarshalFields : Bytes → GoResult (String → Option Bytes)
  unmarshalString : Bytes → GoResult String
  unmarshalBundle : Bytes → GoResult QcapSignatureBundle
  unmarshalRevocations : Bytes → GoResult RevocationList
  quoted : String → String

def GoLib.ReadsObjects (G : GoLib) : Prop :=
  ∀ document fields key value, G.unmarshalFields document = .ok fields →
    fields key = some value → firstByte document = some 123

variable (C : Primitives) (G : GoLib)

def maxManifestBytes : ℕ := 1 <<< 20
def maxArchiveEntries : ℕ := 10000
def maxArchiveUncompressedSize : ℕ := 2 <<< 30

/-- One segment of `path.Clean`; the names so far are in reverse. -/
def cleanStep (rooted : Bool) (names : List String) (segment : String) : List String :=
  if segment = "" ∨ segment = "." then names
  else if segment = ".." then
    match names with
    | [] => if rooted then [] else [".."]
    | ".." :: _ => ".." :: names
    | _ :: rest => rest
  else segment :: names

def cleanPath (p : String) : String :=
  let rooted := startsWith p "/"
  let out := joinWith '/' ((splitOn p '/').foldl (cleanStep rooted) []).reverse
  if rooted then "/" ++ out else if out = "" then "." else out

example : cleanPath "payload/a/../b//." = "payload/b" := by decide
example : cleanPath "../a" = "../a" ∧ cleanPath "" = "." ∧ cleanPath "/.." = "/" := by decide

def trimSuffix (s p : String) : String := (stripSuffix s p).getD s

def unsafeName (name : String) : Bool :=
  name = "" || '\\' ∈ name.toList || ':' ∈ name.toList || '\x00' ∈ name.toList ||
    startsWith name "/"

def unsafeClean (name cleanName : String) : Bool :=
  cleanName = "." || cleanName = ".." || startsWith cleanName "../" ||
    cleanName ≠ trimSuffix name "/"

def inLayout (cleanName : String) : Bool :=
  cleanName = "manifest.json" || startsWith cleanName "payload/" ||
    startsWith cleanName "meta/" || startsWith cleanName "signatures/" ||
    cleanName = "payload" || cleanName = "meta" || cleanName = "signatures"

structure Scan where
  seen : List String
  manifest : Option ZipFile
  signatureBundle : Option ZipFile
  totalSize : ℕ

def Scan.start : Scan := ⟨[], none, none, 0⟩

/-- A size that passes the first comparison fits `int64`, and so does the sum. -/
def scanEntry (scan : Scan) (entry : ZipFile) : GoResult Scan := do
  let name := entry.name
  failIf (unsafeName name = true) ("unsafe archive path " ++ G.quoted name)
  let cleanName := cleanPath (trimSuffix name "/")
  failIf (unsafeClean name cleanName = true) ("unsafe archive path " ++ G.quoted name)
  failIf (cleanName ∈ scan.seen) ("duplicate archive entry " ++ G.quoted name)
  failIf (inLayout cleanName = false)
    ("archive entry " ++ G.quoted name ++ " is outside the qcap layout")
  let size := entry.uncompressedSize64.toNat
  failIf (maxArchiveUncompressedSize < size ∨ maxArchiveUncompressedSize - size < scan.totalSize)
    ("uncompressed archive exceeds " ++ toString maxArchiveUncompressedSize ++ " bytes")
  return {
    seen := cleanName :: scan.seen
    manifest := if name = "manifest.json" then some entry else scan.manifest
    signatureBundle :=
      if name = "signatures/manifest.sig.json" then some entry else scan.signatureBundle
    totalSize := scan.totalSize + size }

def scanEntries (entries : List ZipFile) : GoResult Scan :=
  entries.foldlM (scanEntry G) Scan.start

/-- `io.ReadAll(io.LimitReader(r, limit))`. -/
def readLimited (file : ZipFile) (limit : ℕ) : GoResult Bytes :=
  if limit ≤ file.data.length then .ok (file.data.take limit)
  else
    match file.readError with
    | some e => .error e
    | none => .ok file.data

def readEntry (file : ZipFile) (what : String) : GoResult Bytes := do
  wrap ("open " ++ what) file.opened
  wrap ("read " ++ what) (readLimited file (maxManifestBytes + 1))

def requireField (fields : String → Option Bytes) (key : String) : GoResult Unit :=
  match fields key with
  | none => .error ("manifest.json is missing " ++ key)
  | some value =>
    failIf (value = [] ∨ value = asBytes "null") ("manifest.json is missing " ++ key)

def stringField (fields : String → Option Bytes) (key : String) : GoResult String :=
  let text := "manifest.json field " ++ key ++ " must be a non-empty string"
  match G.unmarshalString ((fields key).getD []) with
  | .error _ => .error text
  | .ok value => if trim value = "" then .error text else .ok value

def checkManifest (manifestBytes : Bytes) : GoResult String := do
  let fields ← wrap "manifest.json is invalid JSON" (G.unmarshalFields manifestBytes)
  ["schema_version", "merkle_root", "created_at", "metadata"].forM (requireField fields)
  let _ ← stringField G fields "schema_version"
  let merkleRoot ← stringField G fields "merkle_root"
  let _ ← stringField G fields "created_at"
  return merkleRoot

def decodeBytes (n : ℕ) (value text : String) : GoResult (FixedBytes n) :=
  match hexDecode value with
  | none => .error text
  | some b => if h : b.length = n then .ok ⟨b, h⟩ else .error text

theorem decodeBytes_ok {n : ℕ} {value text : String} {b : FixedBytes n} :
    decodeBytes n value text = .ok b ↔ hexDecode value = some b.val := by
  unfold decodeBytes
  cases hexDecode value with
  | none => simp
  | some bytes =>
    simp only [Option.some.injEq]
    split
    · rw [Except.ok.injEq, Subtype.ext_iff]
    · rename_i h
      exact iff_of_false (by simp) fun he => h (he ▸ b.property)

def signedBytes (bundle : QcapSignatureBundle) (manifestBytes : Bytes) : GoResult Bytes :=
  if bundle.algorithm = "ed25519:manifest" then .ok manifestBytes
  else if bundle.algorithm = "ed25519" then .ok (asBytes bundle.merkleRoot)
  else .error ("unsupported manifest signature algorithm " ++ G.quoted bundle.algorithm)

def checkBundle (bundle : QcapSignatureBundle) (merkleRoot : String) (manifestBytes : Bytes) :
    GoResult Unit := do
  failIf (bundle.merkleRoot ≠ merkleRoot) "manifest and signature Merkle roots do not match"
  let publicKey ← decodeBytes 32 bundle.publicKey
    "manifest public_key must be a 32-byte hex-encoded Ed25519 key"
  let signature ← decodeBytes 64 bundle.signature
    "manifest signature must be a 64-byte hex-encoded Ed25519 signature"
  let message ← signedBytes G bundle manifestBytes
  failIf (C.verify publicKey message signature = false) "manifest signature verification failed"

/-- `validateQcapArchive` after `zip.OpenReader`. -/
def validateEntries (entries : List ZipFile) : GoResult Unit := do
  failIf (entries.length = 0 ∨ maxArchiveEntries < entries.length)
    ("archive must contain between 1 and " ++ toString maxArchiveEntries ++ " entries")
  let scan ← scanEntries G entries
  match scan.manifest, scan.signatureBundle with
  | none, _ => .error "manifest.json is required"
  | some _, none => .error "signatures/manifest.sig.json is required"
  | some manifest, some signatureBundle => do
    failIf (maxManifestBytes < manifest.uncompressedSize64.toNat)
      ("manifest.json exceeds " ++ toString maxManifestBytes ++ " bytes")
    let manifestBytes ← readEntry manifest "manifest.json"
    let merkleRoot ← checkManifest G manifestBytes
    failIf (maxManifestBytes < signatureBundle.uncompressedSize64.toNat)
      ("manifest signature exceeds " ++ toString maxManifestBytes ++ " bytes")
    let signatureBytes ← readEntry signatureBundle "manifest signature"
    let bundle ← wrap "manifest signature is invalid JSON" (G.unmarshalBundle signatureBytes)
    checkBundle C G bundle merkleRoot manifestBytes

/-- `validateQcapArchive`, from what `zip.OpenReader` returns for the file. -/
def validateQcapArchive (opened : GoResult (List ZipFile)) : GoResult Unit := do
  let entries ← wrap "not a readable ZIP" opened
  validateEntries C G entries

def validateRevocationList (document : Bytes) (issuer : String) : GoResult Unit := do
  let list ← wrap "invalid JSON" (G.unmarshalRevocations document)
  failIf (list.schemaVersion = "") "schema_version is required"
  failIf (list.algorithm ≠ "ed25519") ("unsupported algorithm " ++ G.quoted list.algorithm)
  failIf (list.publicKey ≠ issuer) "issuer path does not match public_key"
  let publicKey ← decodeBytes 32 list.publicKey
    "public_key must be a 32-byte hex-encoded Ed25519 key"
  let signature ← decodeBytes 64 list.signature
    "signature must be a 64-byte hex-encoded Ed25519 signature"
  failIf (C.verify publicKey (asBytes (RevocationList.signingPayload list)) signature = false)
    "signature verification failed"

structure WellNamed (entry : ZipFile) : Prop where
  safe : unsafeName entry.name = false
  clean : unsafeClean entry.name (cleanPath (trimSuffix entry.name "/")) = false
  in_layout : inLayout (cleanPath (trimSuffix entry.name "/")) = true

structure Scan.Of (entries : List ZipFile) (scan : Scan) : Prop where
  well_named : ∀ entry ∈ entries, WellNamed entry
  seen : scan.seen = (entries.map fun e => cleanPath (trimSuffix e.name "/")).reverse
  distinct : scan.seen.Nodup
  total : scan.totalSize = (entries.map fun e => e.uncompressedSize64.toNat).sum
  bounded : scan.totalSize ≤ maxArchiveUncompressedSize
  manifest : ∀ f, scan.manifest = some f → f ∈ entries ∧ f.name = "manifest.json"
  signature_bundle : ∀ f, scan.signatureBundle = some f →
    f ∈ entries ∧ f.name = "signatures/manifest.sig.json"

theorem Scan.start_of : Scan.start.Of [] where
  well_named := by simp
  seen := rfl
  distinct := List.nodup_nil
  total := rfl
  bounded := Nat.zero_le _
  manifest _ h := nomatch h
  signature_bundle _ h := nomatch h

theorem slot_step {entries : List ZipFile} {entry f : ZipFile} {slot : Option ZipFile}
    {name : String} (ho : ∀ f, slot = some f → f ∈ entries ∧ f.name = name)
    (h : (if entry.name = name then some entry else slot) = some f) :
    f ∈ entries ++ [entry] ∧ f.name = name := by
  split at h
  · rename_i hn
    cases h
    exact ⟨by simp, hn⟩
  · obtain ⟨hm, hn⟩ := ho f h
    exact ⟨List.mem_append_left _ hm, hn⟩

theorem scanEntry_ok {scan scan' : Scan} {entry : ZipFile} :
    scanEntry G scan entry = .ok scan' ↔ WellNamed entry ∧
      cleanPath (trimSuffix entry.name "/") ∉ scan.seen ∧
      scan.totalSize + entry.uncompressedSize64.toNat ≤ maxArchiveUncompressedSize ∧
      scan' = {
        seen := cleanPath (trimSuffix entry.name "/") :: scan.seen
        manifest := if entry.name = "manifest.json" then some entry else scan.manifest
        signatureBundle :=
          if entry.name = "signatures/manifest.sig.json" then some entry
          else scan.signatureBundle
        totalSize := scan.totalSize + entry.uncompressedSize64.toNat } := by
  simp only [scanEntry, bind_ok, failIf_ok, not_or, not_lt, Bool.not_eq_true,
    Bool.not_eq_false]
  constructor
  · rintro ⟨_, hsafe, _, hclean, _, hseen, _, hlayout, _, ⟨hsize, hsum⟩, he⟩
    exact ⟨⟨hsafe, hclean, hlayout⟩, hseen, by omega, (Except.ok.inj he).symm⟩
  · rintro ⟨⟨hsafe, hclean, hlayout⟩, hseen, hsum, rfl⟩
    exact ⟨(), hsafe, (), hclean, (), hseen, (), hlayout, (), by omega, rfl⟩

theorem scanEntry_of {entries : List ZipFile} {scan scan' : Scan} {entry : ZipFile}
    (ho : scan.Of entries) (h : scanEntry G scan entry = .ok scan') :
    scan'.Of (entries ++ [entry]) := by
  obtain ⟨hnamed, hseen, hsum, rfl⟩ := (scanEntry_ok G).mp h
  refine ⟨?_, ?_, List.nodup_cons.mpr ⟨hseen, ho.distinct⟩, ?_, hsum, ?_, ?_⟩
  · intro e hm
    rcases List.mem_append.mp hm with hm | hm
    · exact ho.well_named e hm
    · exact List.mem_singleton.mp hm ▸ hnamed
  · simp [ho.seen]
  · simp [ho.total]
  · exact fun f hf => slot_step ho.manifest hf
  · exact fun f hf => slot_step ho.signature_bundle hf

theorem scanEntries_of {entries : List ZipFile} {scan : Scan}
    (h : scanEntries G entries = .ok scan) : scan.Of entries := by
  have hrun : ∀ (rest before : List ZipFile) (s : Scan), s.Of before →
      rest.foldlM (scanEntry G) s = .ok scan → scan.Of (before ++ rest) := by
    intro rest
    induction rest with
    | nil =>
      intro before s hs h
      cases h
      simpa using hs
    | cons entry rest ih =>
      intro before s hs h
      rw [List.foldlM_cons, bind_ok] at h
      obtain ⟨s', hstep, h⟩ := h
      simpa using ih (before ++ [entry]) s' (scanEntry_of G hs hstep) h
  exact hrun entries [] Scan.start Scan.start_of h

/-- The manifest of an archive as the registry reads it. -/
def CarriesManifest (entries : List ZipFile) (manifestBytes : Bytes) : Prop :=
  ∃ f ∈ entries, f.name = "manifest.json" ∧ readEntry f "manifest.json" = .ok manifestBytes

def CarriesBundle (entries : List ZipFile) (bundle : QcapSignatureBundle) : Prop :=
  ∃ f ∈ entries, f.name = "signatures/manifest.sig.json" ∧
    ∃ bytes, readEntry f "manifest signature" = .ok bytes ∧ G.unmarshalBundle bytes = .ok bundle

/-- An accepted archive: its entries are well named and distinct and stay within the limits,
and the bundle signs the manifest or its root. -/
structure Accepted (entries : List ZipFile) (manifestBytes : Bytes)
    (bundle : QcapSignatureBundle) (publicKey : PublicKey) (signature : Signature)
    (message : Bytes) : Prop where
  count : 1 ≤ entries.length ∧ entries.length ≤ maxArchiveEntries
  well_named : ∀ entry ∈ entries, WellNamed entry
  distinct : (entries.map fun e => cleanPath (trimSuffix e.name "/")).Nodup
  bounded : (entries.map fun e => e.uncompressedSize64.toNat).sum ≤ maxArchiveUncompressedSize
  manifest : CarriesManifest entries manifestBytes
  bundle_read : CarriesBundle G entries bundle
  root : checkManifest G manifestBytes = .ok bundle.merkleRoot
  key_decoded : hexDecode bundle.publicKey = some publicKey.val
  signature_decoded : hexDecode bundle.signature = some signature.val
  signed : signedBytes G bundle manifestBytes = .ok message
  verified : C.verify publicKey message signature = true

theorem checkBundle_ok {bundle : QcapSignatureBundle} {merkleRoot : String}
    {manifestBytes : Bytes} (h : checkBundle C G bundle merkleRoot manifestBytes = .ok ()) :
    bundle.merkleRoot = merkleRoot ∧ ∃ publicKey signature message,
      hexDecode bundle.publicKey = some (Subtype.val publicKey) ∧
      hexDecode bundle.signature = some (Subtype.val signature) ∧
      signedBytes G bundle manifestBytes = .ok message ∧
      C.verify publicKey message signature = true := by
  simp only [checkBundle, bind_ok, failIf_ok, decodeBytes_ok, not_not, Bool.not_eq_false] at h
  obtain ⟨_, hroot, pk, hpk, sig, hsig, message, hm, hv⟩ := h
  exact ⟨hroot, pk, sig, message, hpk, hsig, hm, hv⟩

theorem validateEntries_ok {entries : List ZipFile} (h : validateEntries C G entries = .ok ()) :
    ∃ manifestBytes bundle publicKey signature message,
      Accepted C G entries manifestBytes bundle publicKey signature message := by
  simp only [validateEntries, bind_ok, failIf_ok, not_or, not_lt] at h
  obtain ⟨_, ⟨hpos, hmax⟩, scan, hscan, h⟩ := h
  have ho := scanEntries_of G hscan
  split at h
  · cases h
  · cases h
  · rename_i manifest signatureBundle hm hs
    simp only [bind_ok, failIf_ok, wrap_ok, not_lt] at h
    obtain ⟨_, _, manifestBytes, hread, root, hroot, _, _, signatureBytes, hsread, bundle, hb,
      hcheck⟩ := h
    obtain ⟨rfl, pk, sig, message, hpk, hsig, hmsg, hv⟩ := checkBundle_ok C G hcheck
    obtain ⟨hmm, hmn⟩ := ho.manifest _ hm
    obtain ⟨hsm, hsn⟩ := ho.signature_bundle _ hs
    refine ⟨manifestBytes, bundle, pk, sig, message, ⟨by omega, hmax⟩, ho.well_named, ?_, ?_,
      ⟨_, hmm, hmn, hread⟩, ⟨_, hsm, hsn, _, hsread, hb⟩, hroot, hpk, hsig, hmsg, hv⟩
    · exact List.nodup_reverse.mp (ho.seen ▸ ho.distinct)
    · exact ho.total ▸ ho.bounded

theorem signedBytes_ok {bundle : QcapSignatureBundle} {manifestBytes message : Bytes}
    (h : signedBytes G bundle manifestBytes = .ok message) :
    (bundle.algorithm = "ed25519:manifest" ∧ message = manifestBytes) ∨
      (bundle.algorithm = "ed25519" ∧ message = asBytes bundle.merkleRoot) := by
  unfold signedBytes at h
  split at h
  · rename_i ha
    exact Or.inl ⟨ha, (Except.ok.inj h).symm⟩
  · split at h
    · rename_i ha
      exact Or.inr ⟨ha, (Except.ok.inj h).symm⟩
    · cases h

theorem checkManifest_object (hG : G.ReadsObjects) {manifestBytes : Bytes} {root : String}
    (h : checkManifest G manifestBytes = .ok root) : firstByte manifestBytes = some 123 := by
  simp only [checkManifest, bind_ok, wrap_ok] at h
  obtain ⟨fields, hf, _, hloop, -⟩ := h
  obtain ⟨_, hreq, -⟩ := bind_ok.mp hloop
  unfold requireField at hreq
  split at hreq
  · cases hreq
  · rename_i value hv
    exact hG _ _ _ _ hf hv

def cleanName (entry : ZipFile) : String := cleanPath (trimSuffix entry.name "/")

theorem find_append (name : String) (entry : ZipFile) (rest : List ZipFile)
    (slot : Option ZipFile) :
    ((entry :: rest).reverse.find? fun e => e.name = name).or slot =
      (rest.reverse.find? fun e => e.name = name).or
        (if entry.name = name then some entry else slot) := by
  rw [List.reverse_cons, List.find?_append]
  by_cases h : entry.name = name <;> simp [h]

theorem scanEntries_accepts {entries : List ZipFile} {scan : Scan}
    (hn : ∀ entry ∈ entries, WellNamed entry) (hd : (entries.map cleanName).Nodup)
    (hs : ∀ entry ∈ entries, cleanName entry ∉ scan.seen)
    (ht : scan.totalSize + (entries.map fun e => e.uncompressedSize64.toNat).sum ≤
      maxArchiveUncompressedSize) :
    ∃ scan', entries.foldlM (scanEntry G) scan = .ok scan' ∧
      scan'.manifest =
        (entries.reverse.find? fun e => e.name = "manifest.json").or scan.manifest ∧
      scan'.signatureBundle =
        (entries.reverse.find? fun e => e.name = "signatures/manifest.sig.json").or
          scan.signatureBundle := by
  induction entries generalizing scan with
  | nil => exact ⟨scan, rfl, rfl, rfl⟩
  | cons entry rest ih =>
    rw [List.map_cons, List.sum_cons] at ht
    rw [List.map_cons, List.nodup_cons] at hd
    rw [List.forall_mem_cons] at hn hs
    obtain ⟨next, hstep⟩ : ∃ next, scanEntry G scan entry = .ok next :=
      ⟨_, (scanEntry_ok G).mpr ⟨hn.1, hs.1, by omega, rfl⟩⟩
    obtain ⟨-, -, -, hnext⟩ := (scanEntry_ok G).mp hstep
    have hseen : next.seen = cleanName entry :: scan.seen := by
      rw [hnext]
      rfl
    have htotal : next.totalSize = scan.totalSize + entry.uncompressedSize64.toNat := by
      rw [hnext]
    have hfresh : ∀ e ∈ rest, cleanName e ∉ next.seen := by
      intro e he hm
      rw [hseen] at hm
      rcases List.mem_cons.mp hm with heq | hm
      · exact hd.1 (heq ▸ List.mem_map_of_mem he)
      · exact hs.2 e he hm
    obtain ⟨scan', hrun, hm, hb⟩ := ih hn.2 hd.2 hfresh (by omega)
    refine ⟨scan', bind_ok.mpr ⟨next, hstep, hrun⟩, ?_, ?_⟩
    · rw [hm, find_append, hnext]
    · rw [hb, find_append, hnext]

theorem find_of_distinct {entries : List ZipFile} (hd : (entries.map cleanName).Nodup)
    {entry : ZipFile} (hm : entry ∈ entries) :
    entries.reverse.find? (fun e => e.name = entry.name) = some entry := by
  cases hf : entries.reverse.find? fun e => e.name = entry.name with
  | none =>
    rw [List.find?_eq_none] at hf
    exact absurd (decide_eq_true rfl) (hf entry (List.mem_reverse.mpr hm))
  | some e =>
    have hn : e.name = entry.name := by simpa using List.find?_some hf
    have he := List.mem_reverse.mp (List.mem_of_find?_eq_some hf)
    rw [List.inj_on_of_nodup_map hd he hm (by rw [cleanName, cleanName, hn])]

structure Acceptable (entries : List ZipFile) (manifest signatureBundle : ZipFile) :
    Prop where
  count : entries.length ≤ maxArchiveEntries
  well_named : ∀ entry ∈ entries, WellNamed entry
  distinct : (entries.map cleanName).Nodup
  bounded : (entries.map fun e => e.uncompressedSize64.toNat).sum ≤ maxArchiveUncompressedSize
  manifest : manifest ∈ entries ∧ manifest.name = "manifest.json" ∧
    manifest.uncompressedSize64.toNat ≤ maxManifestBytes
  signature_bundle : signatureBundle ∈ entries ∧
    signatureBundle.name = "signatures/manifest.sig.json" ∧
      signatureBundle.uncompressedSize64.toNat ≤ maxManifestBytes

theorem validateQcapArchive_opened (entries : List ZipFile) :
    validateQcapArchive C G (.ok entries) = validateEntries C G entries :=
  rfl

theorem validateEntries_accepts {entries : List ZipFile} {manifest signatureBundle : ZipFile}
    {manifestBytes signatureBytes : Bytes} {root : String} {bundle : QcapSignatureBundle}
    (h : Acceptable entries manifest signatureBundle)
    (hm : readEntry manifest "manifest.json" = .ok manifestBytes)
    (hs : readEntry signatureBundle "manifest signature" = .ok signatureBytes)
    (hroot : checkManifest G manifestBytes = .ok root)
    (hb : G.unmarshalBundle signatureBytes = .ok bundle)
    (hcheck : checkBundle C G bundle root manifestBytes = .ok ()) :
    validateEntries C G entries = .ok () := by
  have hpos := List.length_pos_of_mem h.manifest.1
  have hstart : Scan.start.totalSize + (entries.map fun e => e.uncompressedSize64.toNat).sum ≤
      maxArchiveUncompressedSize := by
    rw [show Scan.start.totalSize = 0 from rfl, Nat.zero_add]
    exact h.bounded
  have hunseen : ∀ entry ∈ entries, cleanName entry ∉ Scan.start.seen := by simp [Scan.start]
  obtain ⟨scan, hrun, hman, hsig⟩ :=
    scanEntries_accepts G h.well_named h.distinct hunseen hstart
  have hfm := find_of_distinct h.distinct h.manifest.1
  have hfs := find_of_distinct h.distinct h.signature_bundle.1
  rw [h.manifest.2.1] at hfm
  rw [h.signature_bundle.2.1] at hfs
  rw [hfm, Option.some_or] at hman
  rw [hfs, Option.some_or] at hsig
  have hscan : scanEntries G entries = .ok scan := hrun
  have hcount := h.count
  simp only [validateEntries, hscan, ok_bind, hman, hsig, bind_ok, failIf_ok, wrap_ok, not_or,
    not_lt]
  exact ⟨(), ⟨by omega, hcount⟩, (), h.manifest.2.2, manifestBytes, hm, root, hroot, (),
    h.signature_bundle.2.2, signatureBytes, hs, bundle, hb, hcheck⟩

end QCap.RegistryArchive
