import QCap.RegistryArchive
import Mathlib.Data.List.Induction

/-!
# Sizes of archive entries in machine integers

The directory scan keeps its total in an `int64`, while an entry announces a `uint64`. The
scan of `RegistryArchive` adds natural numbers; here the comparison and the sum are those of
the machine, and the two scans agree.
-/
namespace QCap.ArchiveSizes

open QCap.Text QCap.RegistryArchive

/-- `int64(2 << 30)`. -/
def maxArchiveUncompressedSize : Int64 := Int64.ofNat (2 <<< 30)

theorem max_toInt : maxArchiveUncompressedSize.toInt = 2 ^ 31 :=
  Int64.toInt_ofNat_of_lt (by decide)

theorem max_toUInt64 : maxArchiveUncompressedSize.toUInt64.toNat = 2 ^ 31 := by
  rw [maxArchiveUncompressedSize, Int64.toUInt64_ofNat', UInt64.toNat_ofNat_of_lt' (by decide)]
  rfl

/-- `size > uint64(max) || totalSize > max-int64(size)`. -/
def exceeds (totalSize : Int64) (size : UInt64) : Bool :=
  maxArchiveUncompressedSize.toUInt64 < size ||
    maxArchiveUncompressedSize - size.toInt64 < totalSize

/-- The arguments of `int64(..)` in one iteration: the first comparison guards the second, and
the sum is reached after both. -/
def conversions (totalSize : Int64) (size : UInt64) : List UInt64 :=
  if maxArchiveUncompressedSize.toUInt64 < size then []
  else if maxArchiveUncompressedSize - size.toInt64 < totalSize then [size]
  else [size, size]

def InRange (totalSize : Int64) : Prop := 0 ≤ totalSize.toInt ∧ totalSize.toInt ≤ 2 ^ 31

theorem toInt64_exact {size : UInt64} (h : size.toNat < 2 ^ 63) :
    size.toInt64.toInt = size.toNat := by
  calc size.toInt64.toInt
      = (UInt64.ofNat size.toNat).toInt64.toInt := by rw [UInt64.ofNat_toNat]
    _ = (Int64.ofNat size.toNat).toInt := by rw [UInt64.toInt64_ofNat']
    _ = size.toNat := Int64.toInt_ofNat_of_lt h

theorem max_lt_iff {size : UInt64} :
    maxArchiveUncompressedSize.toUInt64 < size ↔ 2 ^ 31 < size.toNat := by
  rw [UInt64.lt_iff_toNat_lt, max_toUInt64]

theorem bmod_exact {n : ℤ} (hl : -(2 ^ 63) ≤ n) (hu : n < 2 ^ 63) : n.bmod (2 ^ 64) = n :=
  Int.bmod_eq_of_le (by omega) (by omega)

theorem rest_toInt {size : UInt64} (h : size.toNat ≤ 2 ^ 31) :
    (maxArchiveUncompressedSize - size.toInt64).toInt = 2 ^ 31 - size.toNat := by
  rw [Int64.toInt_sub, max_toInt, toInt64_exact (by omega)]
  exact bmod_exact (by omega) (by omega)

theorem exceeds_iff {totalSize : Int64} {size : UInt64} (hr : InRange totalSize) :
    exceeds totalSize size = true ↔ 2 ^ 31 < totalSize.toInt + size.toNat := by
  obtain ⟨hlow, hhigh⟩ := hr
  rw [exceeds, Bool.or_eq_true, decide_eq_true_iff, decide_eq_true_iff, max_lt_iff]
  by_cases hs : 2 ^ 31 < size.toNat
  · exact iff_of_true (Or.inl hs) (by omega)
  · rw [Int64.lt_iff_toInt_lt, rest_toInt (by omega)]
    omega

theorem sum_toInt {totalSize : Int64} {size : UInt64} (hr : InRange totalSize)
    (h : exceeds totalSize size = false) :
    (totalSize + size.toInt64).toInt = totalSize.toInt + size.toNat := by
  have hsum : ¬ 2 ^ 31 < totalSize.toInt + size.toNat := by
    rw [← exceeds_iff hr, h]
    exact Bool.false_ne_true
  obtain ⟨hlow, hhigh⟩ := hr
  rw [Int64.toInt_add, toInt64_exact (by omega)]
  exact bmod_exact (by omega) (by omega)

theorem sum_inRange {totalSize : Int64} {size : UInt64} (hr : InRange totalSize)
    (h : exceeds totalSize size = false) : InRange (totalSize + size.toInt64) := by
  have hsum : ¬ 2 ^ 31 < totalSize.toInt + size.toNat := by
    rw [← exceeds_iff hr, h]
    exact Bool.false_ne_true
  rw [InRange, sum_toInt hr h]
  obtain ⟨hlow, hhigh⟩ := hr
  constructor <;> omega

theorem conversions_exact {totalSize : Int64} {size converted : UInt64}
    (h : converted ∈ conversions totalSize size) :
    converted.toInt64.toInt = converted.toNat := by
  rw [conversions] at h
  split at h
  · cases h
  · rename_i hs
    rw [max_lt_iff] at hs
    have heq : converted = size := by
      split at h <;> simpa using h
    rw [heq]
    exact toInt64_exact (by omega)

variable (G : GoLib)

def checkEntryName (seen : List String) (entry : ZipFile) : GoResult String := do
  let name := entry.name
  failIf (unsafeName name = true) ("unsafe archive path " ++ G.quoted name)
  let cleanName := cleanPath (trimSuffix name "/")
  failIf (unsafeClean name cleanName = true) ("unsafe archive path " ++ G.quoted name)
  failIf (cleanName ∈ seen) ("duplicate archive entry " ++ G.quoted name)
  failIf (inLayout cleanName = false)
    ("archive entry " ++ G.quoted name ++ " is outside the qcap layout")
  return cleanName

/-- The variables of the loop, the total in an `int64`. -/
structure MachineScan where
  seen : List String
  manifest : Option ZipFile
  signatureBundle : Option ZipFile
  totalSize : Int64

def MachineScan.start : MachineScan := ⟨[], none, none, 0⟩

def scanEntry (scan : MachineScan) (entry : ZipFile) : GoResult MachineScan := do
  let cleanName ← checkEntryName G scan.seen entry
  failIf (exceeds scan.totalSize entry.uncompressedSize64 = true)
    ("uncompressed archive exceeds " ++ toString maxArchiveUncompressedSize ++ " bytes")
  return {
    seen := cleanName :: scan.seen
    manifest := if entry.name = "manifest.json" then some entry else scan.manifest
    signatureBundle :=
      if entry.name = "signatures/manifest.sig.json" then some entry
      else scan.signatureBundle
    totalSize := scan.totalSize + entry.uncompressedSize64.toInt64 }

def scanEntries (entries : List ZipFile) : GoResult MachineScan :=
  entries.foldlM (scanEntry G) MachineScan.start

/-- The size checks of the loop alone: every entry passes, with the total at that point. -/
def passesSizeChecks (totalSize : Int64) : List ZipFile → Bool
  | [] => true
  | entry :: rest => !exceeds totalSize entry.uncompressedSize64 &&
      passesSizeChecks (totalSize + entry.uncompressedSize64.toInt64) rest

def declaredSize (entries : List ZipFile) : ℕ :=
  (entries.map fun e => e.uncompressedSize64.toNat).sum

def MachineScan.exact (scan : MachineScan) : Scan where
  seen := scan.seen
  manifest := scan.manifest
  signatureBundle := scan.signatureBundle
  totalSize := scan.totalSize.toInt.toNat

theorem max_toString :
    toString maxArchiveUncompressedSize = toString RegistryArchive.maxArchiveUncompressedSize := by
  show toString maxArchiveUncompressedSize.toInt = _
  rw [max_toInt]
  rfl

theorem failIf_congr {p q : Prop} [Decidable p] [Decidable q] (text : String) (h : p ↔ q) :
    failIf p text = failIf q text := by
  rw [failIf, failIf]
  exact if_congr h rfl rfl

theorem exceeds_exact {scan : MachineScan} {size : UInt64} (hr : InRange scan.totalSize) :
    exceeds scan.totalSize size = true ↔
      RegistryArchive.maxArchiveUncompressedSize < size.toNat ∨
        RegistryArchive.maxArchiveUncompressedSize - size.toNat < scan.exact.totalSize := by
  have hmax : RegistryArchive.maxArchiveUncompressedSize = 2 ^ 31 := rfl
  have htotal : scan.exact.totalSize = scan.totalSize.toInt.toNat := rfl
  rw [exceeds_iff hr, hmax, htotal]
  obtain ⟨hlow, hhigh⟩ := hr
  omega

theorem exact_sum {scan : MachineScan} {size : UInt64} (hr : InRange scan.totalSize)
    (h : exceeds scan.totalSize size = false) :
    (scan.totalSize + size.toInt64).toInt.toNat = scan.exact.totalSize + size.toNat := by
  have htotal : scan.exact.totalSize = scan.totalSize.toInt.toNat := rfl
  rw [sum_toInt hr h, htotal]
  have hlow := hr.1
  omega

theorem scanEntry_exact {scan : MachineScan} {entry : ZipFile} (hr : InRange scan.totalSize) :
    (scanEntry G scan entry).map MachineScan.exact =
      RegistryArchive.scanEntry G scan.exact entry := by
  have hfull : RegistryArchive.scanEntry G scan.exact entry =
      checkEntryName G scan.seen entry >>= fun cleanName =>
        failIf (RegistryArchive.maxArchiveUncompressedSize < entry.uncompressedSize64.toNat ∨
            RegistryArchive.maxArchiveUncompressedSize - entry.uncompressedSize64.toNat <
              scan.exact.totalSize)
          ("uncompressed archive exceeds " ++
            toString RegistryArchive.maxArchiveUncompressedSize ++ " bytes") >>= fun _ =>
          pure {
            seen := cleanName :: scan.seen
            manifest := if entry.name = "manifest.json" then some entry else scan.manifest
            signatureBundle :=
              if entry.name = "signatures/manifest.sig.json" then some entry
              else scan.signatureBundle
            totalSize := scan.exact.totalSize + entry.uncompressedSize64.toNat } := by
    simp [RegistryArchive.scanEntry, checkEntryName, MachineScan.exact]
  rw [hfull, scanEntry]
  cases checkEntryName G scan.seen entry with
  | error e => rfl
  | ok cleanName =>
    rw [ok_bind, ok_bind, ← failIf_congr _ (exceeds_exact hr), ← max_toString]
    cases h : exceeds scan.totalSize entry.uncompressedSize64 with
    | true => rfl
    | false =>
      rw [← exact_sum hr h]
      rfl

theorem scanEntry_ok {scan scan' : MachineScan} {entry : ZipFile}
    (h : scanEntry G scan entry = .ok scan') :
    exceeds scan.totalSize entry.uncompressedSize64 = false ∧
      scan'.totalSize = scan.totalSize + entry.uncompressedSize64.toInt64 := by
  simp only [scanEntry, bind_ok, failIf_ok, Bool.not_eq_true] at h
  obtain ⟨_, _, _, hfits, h⟩ := h
  cases h
  exact ⟨hfits, rfl⟩

/-- What every state of the loop keeps: the total of the entries so far, in range. -/
structure MachineScan.Of (entries : List ZipFile) (scan : MachineScan) : Prop where
  in_range : InRange scan.totalSize
  total : scan.totalSize.toInt = declaredSize entries

theorem MachineScan.start_of : MachineScan.start.Of [] := by
  constructor
  · constructor <;> decide
  · decide

theorem zero_inRange : InRange 0 := MachineScan.start_of.in_range

theorem declaredSize_append (before after : List ZipFile) :
    declaredSize (before ++ after) = declaredSize before + declaredSize after := by
  rw [declaredSize, List.map_append, List.sum_append]
  rfl

theorem declaredSize_cons (entry : ZipFile) (rest : List ZipFile) :
    declaredSize (entry :: rest) = entry.uncompressedSize64.toNat + declaredSize rest := by
  rw [declaredSize, List.map_cons, List.sum_cons]
  rfl

theorem scanEntry_of {entries : List ZipFile} {scan scan' : MachineScan} {entry : ZipFile}
    (ho : scan.Of entries) (h : scanEntry G scan entry = .ok scan') :
    scan'.Of (entries ++ [entry]) := by
  obtain ⟨hfits, htotal⟩ := scanEntry_ok G h
  constructor
  · rw [htotal]
    exact sum_inRange ho.in_range hfits
  · rw [htotal, sum_toInt ho.in_range hfits, ho.total, declaredSize_append, declaredSize_cons]
    simp [declaredSize]

theorem scanEntries_of {entries : List ZipFile} {scan : MachineScan}
    (h : scanEntries G entries = .ok scan) : scan.Of entries := by
  induction entries using List.reverseRecOn generalizing scan with
  | nil =>
    cases h
    exact MachineScan.start_of
  | append_singleton before entry ih =>
    rw [scanEntries, List.foldlM_append, bind_ok] at h
    obtain ⟨mid, hrun, h⟩ := h
    rw [List.foldlM_cons, bind_ok] at h
    obtain ⟨last, hstep, h⟩ := h
    cases h
    exact scanEntry_of G (ih hrun) hstep

/-- The scan over machine integers is the scan over natural numbers, error texts included. -/
theorem scanEntries_exact (entries : List ZipFile) :
    (scanEntries G entries).map MachineScan.exact = RegistryArchive.scanEntries G entries := by
  have hrun : ∀ (rest before : List ZipFile) (scan : MachineScan), scan.Of before →
      (rest.foldlM (scanEntry G) scan).map MachineScan.exact =
        rest.foldlM (RegistryArchive.scanEntry G) scan.exact := by
    intro rest
    induction rest with
    | nil =>
      intro before scan ho
      rfl
    | cons entry rest ih =>
      intro before scan ho
      rw [List.foldlM_cons, List.foldlM_cons, ← scanEntry_exact G ho.in_range]
      cases hstep : scanEntry G scan entry with
      | error e => rfl
      | ok next => exact ih (before ++ [entry]) next (scanEntry_of G ho hstep)
  exact hrun entries [] MachineScan.start MachineScan.start_of

theorem passesSizeChecks_iff {entries : List ZipFile} {totalSize : Int64}
    (hr : InRange totalSize) :
    passesSizeChecks totalSize entries = true ↔
      totalSize.toInt + declaredSize entries ≤ 2 ^ 31 := by
  induction entries generalizing totalSize with
  | nil => exact iff_of_true rfl (by simpa [declaredSize] using hr.2)
  | cons entry rest ih =>
    rw [passesSizeChecks, declaredSize_cons, Bool.and_eq_true, Bool.not_eq_true']
    cases hfits : exceeds totalSize entry.uncompressedSize64 with
    | true =>
      rw [exceeds_iff hr] at hfits
      exact iff_of_false (by simp) (by omega)
    | false =>
      rw [ih (sum_inRange hr hfits), sum_toInt hr hfits, Nat.cast_add, ← add_assoc]
      exact and_iff_right rfl

structure NamesAccepted (entries : List ZipFile) : Prop where
  well_named : ∀ entry ∈ entries, WellNamed entry
  distinct : (entries.map cleanName).Nodup

theorem scanEntries_accepts_iff (entries : List ZipFile) :
    (∃ scan, scanEntries G entries = .ok scan) ↔
      NamesAccepted entries ∧ declaredSize entries ≤ 2 ^ 31 := by
  have hlift : (∃ scan, scanEntries G entries = .ok scan) ↔
      ∃ scan, RegistryArchive.scanEntries G entries = .ok scan := by
    rw [← scanEntries_exact]
    cases scanEntries G entries with
    | error e => exact iff_of_false (by simp) (by simp [Except.map])
    | ok scan => exact iff_of_true ⟨_, rfl⟩ ⟨_, rfl⟩
  rw [hlift]
  constructor
  · rintro ⟨scan, h⟩
    have ho := RegistryArchive.scanEntries_of G h
    have hbound : declaredSize entries ≤ RegistryArchive.maxArchiveUncompressedSize := by
      rw [declaredSize, ← ho.total]
      exact ho.bounded
    exact ⟨⟨ho.well_named, List.nodup_reverse.mp (ho.seen ▸ ho.distinct)⟩, hbound⟩
  · rintro ⟨hnames, hsize⟩
    have hfit : Scan.start.totalSize + declaredSize entries ≤
        RegistryArchive.maxArchiveUncompressedSize := by
      rw [show Scan.start.totalSize = 0 from rfl, Nat.zero_add]
      exact hsize
    obtain ⟨scan, h, -, -⟩ :=
      scanEntries_accepts G hnames.well_named hnames.distinct (by simp [Scan.start]) hfit
    exact ⟨scan, h⟩

structure SizeLimitExact (entries : List ZipFile) : Prop where
  total_in_range : ∀ before scan, before <+: entries → scanEntries G before = .ok scan →
    InRange scan.totalSize ∧ scan.totalSize.toInt = declaredSize before
  conversions_keep : ∀ before entry scan, before ++ [entry] <+: entries →
    scanEntries G before = .ok scan →
      ∀ size ∈ conversions scan.totalSize entry.uncompressedSize64,
        size.toInt64.toInt = size.toNat
  all_pass : passesSizeChecks 0 entries = true ↔ declaredSize entries ≤ 2 ^ 31
  accepted : (∃ scan, scanEntries G entries = .ok scan) ↔
    NamesAccepted entries ∧ passesSizeChecks 0 entries = true

/-- The limit on the uncompressed size is exact, and no value wraps on the way. -/
theorem size_limit_exact (entries : List ZipFile) : SizeLimitExact G entries where
  total_in_range before scan _ h :=
    ⟨(scanEntries_of G h).in_range, (scanEntries_of G h).total⟩
  conversions_keep _ _ _ _ _ _ h := conversions_exact h
  all_pass := by
    rw [passesSizeChecks_iff zero_inRange, Int64.toInt_zero]
    omega
  accepted := by
    rw [scanEntries_accepts_iff, passesSizeChecks_iff zero_inRange, Int64.toInt_zero, zero_add]
    exact and_congr_right fun _ => Nat.cast_le.symm

end QCap.ArchiveSizes
