import QCap.RegistryIndex

/-!
# Replacing a file, all or nothing

What `replaceFile` and `atomicWriteFile` promise their callers, and which failures of their
system calls break the promise.
-/
namespace QCap.Replacement

open QCap.Text QCap.RegistryArchive QCap.RegistryFiles QCap.RegistryIndex

/-- The new bytes are in place exactly if the call says so, the old ones are there otherwise,
and no old file stays set aside. -/
structure AllOrNothing (dest : Path) (files : Files) (new : Bytes)
    (result : GoResult Unit × Files) : Prop where
  nil_iff : result.1 = .ok () ↔ result.2.lookup dest = some new
  kept : result.1 ≠ .ok () → result.2.lookup dest = files.lookup dest
  no_backup : ∀ nanos, backupPath dest nanos ∈ result.2 → backupPath dest nanos ∈ files

structure Staged (tempPath dest : Path) (files : Files) (new : Bytes) : Prop where
  holds : files.lookup tempPath = some new
  apart : tempPath ≠ dest
  not_backup : ∀ nanos, backupPath dest nanos ≠ tempPath

/-- An upload to a file that holds state of the registry. -/
theorem Staged.upload {cfg : Config} {dir dest : Path} {n : ℕ} {files : Files} {new : Bytes}
    (hd : Tracked cfg dest) (h : files.lookup (tempPath dir ".qcap-upload-" n) = some new) :
    Staged (tempPath dir ".qcap-upload-" n) dest files new where
  holds := h
  apart := by
    refine (hd.ne cfg ?_).symm
    rw [tempPath, base_append]
    exact temporary_upload n
  not_backup _ := backup_ne_upload

theorem Staged.index {cfg : Config} {dir dest : Path} {n : ℕ} {files : Files} {new : Bytes}
    (hd : Tracked cfg dest) (h : files.lookup (tempPath dir ".qcap-index-" n) = some new) :
    Staged (tempPath dir ".qcap-index-" n) dest files new where
  holds := h
  apart := by
    refine (hd.ne cfg ?_).symm
    rw [tempPath, base_append]
    exact temporary_index n
  not_backup _ := backup_ne_index

theorem backup_ne_dest (dest : Path) (nanos : ℕ) : backupPath dest nanos ≠ dest := by
  intro h
  have hb := congrArg (fun p => (base p).toList.length) h
  simp [backupPath, base_append] at hb

def Tears (faults : ReplaceFaults) (old : Option Bytes) : Prop :=
  faults.Detours old ∧
    ((faults.install = .none ∧ faults.removeBackup ≠ .none) ∨
      (faults.install ≠ .none ∧ faults.rollback ≠ .none))

theorem spoils_iff {faults : ReplaceFaults} {old : Option Bytes} {new : Bytes}
    (h : old ≠ some new) : faults.Spoils old new ↔ Tears faults old := by
  rw [ReplaceFaults.Spoils, Tears]
  simp [h]

theorem mem_of_lookup {files files' : Files} {p : Path} (h : files'.lookup p = files.lookup p)
    (hm : p ∈ files') : p ∈ files := by
  rw [← AList.lookup_isSome] at hm ⊢
  rw [← h]
  exact hm

theorem not_mem_of_lookup {files : Files} {p : Path} (h : files.lookup p = none) : p ∉ files :=
  AList.lookup_eq_none.mp h

theorem backup_gone {faults : ReplaceFaults} {tempPath dest backup : Path} {files : Files}
    {new : Bytes} {result : GoResult Unit × Files}
    (h : ReplaceOutcome faults tempPath dest backup files new result) (hbd : backup ≠ dest)
    (hbt : backup ≠ tempPath) (hs : ¬ Tears faults (files.lookup dest)) (hm : backup ∈ result.2) :
    backup ∈ files := by
  cases h with
  | refused => exact hm
  | renamed =>
    refine mem_of_lookup ?_ hm
    rw [lookup_rename, if_neg hbd, if_neg hbt]
  | installed =>
    refine absurd hm (not_mem_of_lookup ?_)
    exact AList.lookup_erase _ _
  | unremoved ho hd hi hr =>
    rw [ho] at hs
    exact absurd ⟨hd, Or.inl ⟨hi, hr⟩⟩ hs
  | restored =>
    refine absurd hm (not_mem_of_lookup ?_)
    rw [lookup_rename, if_neg hbd, if_pos rfl]
  | lost ho hd hi hr =>
    rw [ho] at hs
    exact absurd ⟨hd, Or.inr ⟨hi, hr⟩⟩ hs

theorem no_new_backup {faults : ReplaceFaults} {nanos : ℕ} {tempPath dest : Path} {files : Files}
    {new : Bytes} (h : Staged tempPath dest files new) (hs : ¬ Tears faults (files.lookup dest))
    {number : ℕ} (hm : backupPath dest number ∈ (replaceFile faults nanos tempPath dest files).2) :
    backupPath dest number ∈ files := by
  have ho : ReplaceOutcome faults tempPath dest (backupPath dest nanos) files new
      (replaceFile faults nanos tempPath dest files) :=
    replaceFile_outcome h.holds h.apart (h.not_backup nanos)
  by_cases hn : backupPath dest number = backupPath dest nanos
  · rw [hn] at hm ⊢
    exact backup_gone ho (backup_ne_dest dest nanos) (h.not_backup nanos) hs hm
  · have hr := ho.replaced h.apart (backup_ne_dest dest nanos)
    refine mem_of_lookup (hr.other _ ?_ (backup_ne_dest dest number)) hm
    simp [h.not_backup number, hn]

/-- A replacement that says what it did keeps its promise exactly if it succeeds, or if there
is something to keep and it is not torn. -/
theorem allOrNothing_iff {succeeds spoils tears : Prop} {scratch : List Path} {dest : Path}
    {files : Files} {new : Bytes} {result : GoResult Unit × Files}
    (hr : Replaced succeeds spoils scratch dest files new result)
    (hst : files.lookup dest ≠ some new → (spoils ↔ tears)) (hsucc : succeeds → ¬ tears)
    (hb : ¬ tears → ∀ nanos, backupPath dest nanos ∈ result.2 → backupPath dest nanos ∈ files) :
    AllOrNothing dest files new result ↔
      succeeds ∨ (files.lookup dest ≠ some new ∧ ¬ tears) := by
  constructor
  · intro ha
    by_cases hok : succeeds
    · exact Or.inl hok
    · have herr := mt hr.succeeds.mp hok
      have hkept := ha.kept herr
      have hne : files.lookup dest ≠ some new := by
        rw [← hkept]
        exact mt ha.nil_iff.mpr herr
      rw [hr.kept herr, hst hne] at hkept
      exact Or.inr ⟨hne, hkept⟩
  · rintro (hok | ⟨hne, hs⟩)
    · have hnil := hr.succeeds.mpr hok
      exact ⟨iff_of_true hnil (hr.installed hnil), absurd hnil, hb (hsucc hok)⟩
    · have hkept : result.1 ≠ .ok () → result.2.lookup dest = files.lookup dest := by
        intro herr
        rw [hr.kept herr, hst hne]
        exact hs
      refine ⟨?_, hkept, hb hs⟩
      by_cases hnil : result.1 = .ok ()
      · exact iff_of_true hnil (hr.installed hnil)
      · apply iff_of_false hnil
        rw [hkept hnil]
        exact hne

theorem succeeds_not_tears {faults : ReplaceFaults} {old : Option Bytes}
    (h : faults.Succeeds old) : ¬ Tears faults old := by
  rintro ⟨hd, ht⟩
  rcases h with ⟨-, hr⟩ | ⟨-, hi, hb⟩
  · exact hd.2.1 hr
  · rcases ht with ⟨-, ht⟩ | ⟨ht, -⟩
    · exact ht hb
    · exact ht hi

/-- `replaceFile` keeps its promise unless it is torn, or fails to install what is there. -/
theorem replaceFile_allOrNothing {faults : ReplaceFaults} {nanos : ℕ} {tempPath dest : Path}
    {files : Files} {new : Bytes} (h : Staged tempPath dest files new) :
    AllOrNothing dest files new (replaceFile faults nanos tempPath dest files) ↔
      faults.Succeeds (files.lookup dest) ∨
        (files.lookup dest ≠ some new ∧ ¬ Tears faults (files.lookup dest)) := by
  have hr : Replaced (faults.Succeeds (files.lookup dest))
      (faults.Spoils (files.lookup dest) new) [tempPath, backupPath dest nanos] dest files new
      (replaceFile faults nanos tempPath dest files) :=
    replaceFile_spec h.holds h.apart (backup_ne_dest dest nanos) (h.not_backup nanos)
  exact allOrNothing_iff hr spoils_iff succeeds_not_tears fun hs _ hm => no_new_backup h hs hm

def sampleDest : Path := ["data", "artifact.qcap"]

def sampleUpload : Path := tempPath ["data"] ".qcap-upload-" 1

def sampleFiles (old new : Bytes) : Files :=
  ((∅ : Files).insert sampleDest old).insert sampleUpload new

theorem sampleFiles_staged (old new : Bytes) :
    Staged sampleUpload sampleDest (sampleFiles old new) new where
  holds := AList.lookup_insert _
  apart := by decide
  not_backup _ := backup_ne_upload

theorem sampleFiles_dest (old new : Bytes) :
    (sampleFiles old new).lookup sampleDest = some old := by
  rw [sampleFiles, AList.lookup_insert_ne (by decide), AList.lookup_insert]

def tornFaults : ReplaceFaults where
  mkdir := none
  rename := some "rename: file exists"
  stat := none
  backup := none
  install := some "rename: read-only file system"
  rollback := some "rename: read-only file system"
  removeBackup := none

theorem replaceFile_torn :
    ¬ AllOrNothing sampleDest (sampleFiles [1] [2]) [2]
      (replaceFile tornFaults 7 sampleUpload sampleDest (sampleFiles [1] [2])) := by
  intro h
  have hkept := h.kept (by decide)
  rw [sampleFiles_dest] at hkept
  exact absurd hkept (by decide)

/-- Once the rename fails, the detour still succeeds. -/
theorem replaceFile_allOrNothing_detour :
    AllOrNothing sampleDest (sampleFiles [1] [2]) [2]
      (replaceFile { ReplaceFaults.none with rename := some "rename: file exists" } 7
        sampleUpload sampleDest (sampleFiles [1] [2])) := by
  rw [replaceFile_allOrNothing (sampleFiles_staged [1] [2]), sampleFiles_dest]
  left
  right
  exact ⟨⟨rfl, by decide, rfl, by decide, rfl⟩, rfl, rfl⟩

theorem mem_of_insert {files : Files} {p q : Path} {bytes : Bytes} (h : p ≠ q)
    (hm : p ∈ files.insert q bytes) : p ∈ files :=
  mem_of_lookup (AList.lookup_insert_ne h) hm

theorem mem_of_removeQuietly {fault : Fault} {files : Files} {p q : Path} (h : p ≠ q)
    (hm : p ∈ removeQuietly fault q files) : p ∈ files :=
  mem_of_lookup (removeQuietly_other h) hm

theorem atomicWriteFile_no_backup {cfg : Config} {faults : WriteFaults} {numbers : Numbers}
    {dest : Path} {bytes : Bytes} {files : Files} (hd : Tracked cfg dest)
    (hs : ¬ (faults.Writes ∧ Tears faults.replace (files.lookup dest))) {nanos : ℕ}
    (hm : backupPath dest nanos ∈ (atomicWriteFile faults numbers dest bytes files).2) :
    backupPath dest nanos ∈ files := by
  have hbt : backupPath dest nanos ≠ tempPath dest.dropLast ".qcap-index-" numbers.temp :=
    backup_ne_index
  unfold atomicWriteFile at hm
  split at hm
  · exact hm
  · rename_i hopen
    dsimp only at hm
    split at hm
    · exact mem_of_insert hbt (mem_of_removeQuietly hbt hm)
    · rename_i hwrite
      have hstaged : Staged (tempPath dest.dropLast ".qcap-index-" numbers.temp) dest
          (files.insert (tempPath dest.dropLast ".qcap-index-" numbers.temp) bytes) bytes :=
        Staged.index hd (AList.lookup_insert files)
      have hm := mem_of_removeQuietly hbt hm
      refine mem_of_insert hbt (no_new_backup hstaged ?_ hm)
      rw [AList.lookup_insert_ne hstaged.apart.symm]
      simp only [Option.or_eq_none_iff] at hopen hwrite
      intro htorn
      exact hs ⟨⟨hopen.1, hopen.2, hwrite.1, hwrite.2.1, hwrite.2.2.1, hwrite.2.2.2⟩, htorn⟩

theorem atomicWriteFile_allOrNothing {cfg : Config} {faults : WriteFaults} {numbers : Numbers}
    {dest : Path} {bytes : Bytes} {files : Files} (hd : Tracked cfg dest) :
    AllOrNothing dest files bytes (atomicWriteFile faults numbers dest bytes files) ↔
      faults.Succeeds (files.lookup dest) ∨ (files.lookup dest ≠ some bytes ∧
        ¬ (faults.Writes ∧ Tears faults.replace (files.lookup dest))) := by
  have htemp : Temporary (base (tempPath dest.dropLast ".qcap-index-" numbers.temp)) := by
    rw [tempPath, base_append]
    exact temporary_index numbers.temp
  have hr : Replaced (faults.Succeeds (files.lookup dest))
      (faults.Spoils (files.lookup dest) bytes)
      [tempPath dest.dropLast ".qcap-index-" numbers.temp, backupPath dest numbers.nanos] dest
      files bytes (atomicWriteFile faults numbers dest bytes files) :=
    atomicWriteFile_spec (hd.ne cfg htemp).symm (backup_ne_dest dest numbers.nanos)
      backup_ne_index
  refine allOrNothing_iff hr ?_ ?_ fun hs _ hm => atomicWriteFile_no_backup hd hs hm
  · intro hne
    exact and_congr_right fun _ => spoils_iff hne
  · rintro ⟨-, hok⟩ ⟨-, htorn⟩
    exact succeeds_not_tears hok htorn

end QCap.Replacement
