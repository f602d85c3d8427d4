import QCap.RegistryArchive
import Mathlib.Data.List.AList

/-!
# Files of the registry

The helpers that write files: `replaceFile`, `atomicWriteFile` and `stageUpload`. Every file
system call may fail, and then it has no effect. Directories are not modelled: `MkdirAll`
makes those that are missing.
-/
namespace QCap.RegistryFiles

open QCap.Text QCap.RegistryArchive

/-- An absolute path, as the names that lead to it. -/
abbrev Path := List String

abbrev Files := AList fun _ : Path => Bytes

abbrev Fault := Option String

def pathText (p : Path) : String := "/" ++ joinWith '/' p

def base (p : Path) : String := p.getLast?.getD ""

/-- `filepath.Ext` of a file name: from the last dot on. -/
def ext (name : String) : String :=
  let tail := name.toList.reverse
  if '.' ∈ tail then String.ofList ('.' :: (tail.takeWhile (· ≠ '.')).reverse) else ""

example : ext "a.b.qcap" = ".qcap" ∧ ext ".qcap" = ".qcap" ∧ ext "a." = "." ∧ ext "a" = "" := by
  decide

def missing (call : String) : String := call ++ ": no such file or directory"

def rename (fault : Fault) (src dst : Path) (files : Files) : GoResult Files :=
  match fault with
  | some e => .error e
  | none =>
    match files.lookup src with
    | none => .error (missing ("rename " ++ pathText src ++ " " ++ pathText dst))
    | some bytes => .ok ((files.erase src).insert dst bytes)

def remove (fault : Fault) (p : Path) (files : Files) : GoResult Files :=
  match fault with
  | some e => .error e
  | none => if p ∈ files then .ok (files.erase p) else .error (missing ("remove " ++ pathText p))

def removeQuietly (fault : Fault) (p : Path) (files : Files) : Files :=
  match remove fault p files with
  | .ok files' => files'
  | .error _ => files

def readFile (fault : Fault) (p : Path) (files : Files) : GoResult Bytes :=
  match fault with
  | some e => .error e
  | none =>
    match files.lookup p with
    | none => .error (missing ("open " ++ pathText p))
    | some bytes => .ok bytes

structure ReplaceFaults where
  mkdir : Fault
  rename : Fault
  stat : Fault
  backup : Fault
  install : Fault
  rollback : Fault
  removeBackup : Fault

def ReplaceFaults.none : ReplaceFaults := ⟨.none, .none, .none, .none, .none, .none, .none⟩

def backupPath (dest : Path) (nanos : ℕ) : Path :=
  dest.dropLast ++ [base dest ++ ".qcap-backup-" ++ toString nanos]

def replaceFile (faults : ReplaceFaults) (nanos : ℕ) (tempPath dest : Path) (files : Files) :
    GoResult Unit × Files :=
  match faults.mkdir with
  | some e => (.error e, files)
  | .none =>
    match rename faults.rename tempPath dest files with
    | .ok files' => (.ok (), files')
    | .error renameErr =>
      match faults.stat with
      | some e => (.error ("inspect replacement target " ++ base dest ++ ": " ++ e), files)
      | .none =>
        if dest ∉ files then (.error ("replace " ++ base dest ++ ": " ++ renameErr), files)
        else
          let backup := backupPath dest nanos
          match rename faults.backup dest backup files with
          | .error e => (.error ("prepare replacement for " ++ base dest ++ ": " ++ e), files)
          | .ok aside =>
            match rename faults.install tempPath dest aside with
            | .error e =>
              (.error ("replace " ++ base dest ++ ": " ++ e),
                match rename faults.rollback backup dest aside with
                | .ok restored => restored
                | .error _ => aside)
            | .ok installed =>
              match remove faults.removeBackup backup installed with
              | .error e =>
                (.error ("remove replacement backup for " ++ base dest ++ ": " ++ e), installed)
              | .ok files' => (.ok (), files')

/-- The old file is set aside, after a first rename that failed. -/
def ReplaceFaults.Detours (faults : ReplaceFaults) (old : Option Bytes) : Prop :=
  faults.mkdir = .none ∧ faults.rename ≠ .none ∧ faults.stat = .none ∧ old ≠ .none ∧
    faults.backup = .none

/-- The new file is in place, and the call says so. -/
def ReplaceFaults.Succeeds (faults : ReplaceFaults) (old : Option Bytes) : Prop :=
  (faults.mkdir = .none ∧ faults.rename = .none) ∨
    (faults.Detours old ∧ faults.install = .none ∧ faults.removeBackup = .none)

/-- The call fails with the new file in place, or with neither file in place. -/
def ReplaceFaults.Spoils (faults : ReplaceFaults) (old : Option Bytes) (new : Bytes) : Prop :=
  faults.Detours old ∧
    ((faults.install = .none ∧ faults.removeBackup ≠ .none ∧ old ≠ some new) ∨
      (faults.install ≠ .none ∧ faults.rollback ≠ .none))

theorem rename_ok {src dst : Path} {files : Files} {bytes : Bytes}
    (h : files.lookup src = some bytes) :
    rename .none src dst files = .ok ((files.erase src).insert dst bytes) := by
  simp [rename, h]

theorem lookup_rename {src dst q : Path} {files : Files} {bytes : Bytes} :
    ((files.erase src).insert dst bytes).lookup q =
      if q = dst then some bytes else if q = src then none else files.lookup q := by
  by_cases hd : q = dst
  · subst hd
    simp
  · rw [AList.lookup_insert_ne hd, if_neg hd]
    by_cases hs : q = src
    · subst hs
      simp
    · rw [AList.lookup_erase_ne hs, if_neg hs]

theorem rename_fault {e : String} {src dst : Path} {files : Files} :
    rename (some e) src dst files = .error e := rfl

theorem replaceFile_none {nanos : ℕ} {tempPath dest : Path} {files : Files} {new : Bytes}
    (h : files.lookup tempPath = some new) :
    replaceFile .none nanos tempPath dest files =
      (.ok (), (files.erase tempPath).insert dest new) := by
  simp [replaceFile, ReplaceFaults.none, rename_ok h]

/-- What a call that replaces the file `dest` does, whatever fails. `scratch` are the other
names it uses. -/
structure Replaced (succeeds spoils : Prop) (scratch : List Path) (dest : Path) (files : Files)
    (new : Bytes) (result : GoResult Unit × Files) : Prop where
  succeeds : result.1 = .ok () ↔ succeeds
  installed : result.1 = .ok () → result.2.lookup dest = some new
  kept : result.1 ≠ .ok () → (result.2.lookup dest = files.lookup dest ↔ ¬ spoils)
  other : ∀ q ∉ scratch, q ≠ dest → result.2.lookup q = files.lookup q

theorem Replaced.of_error {succeeds spoils : Prop} {scratch : List Path} {dest : Path}
    {files files' : Files} {new : Bytes} {e : String} (hf : ¬ succeeds) (hs : ¬ spoils)
    (hd : dest ∉ scratch) (hk : ∀ q ∉ scratch, files'.lookup q = files.lookup q) :
    Replaced succeeds spoils scratch dest files new (.error e, files') where
  succeeds := iff_of_false (by simp) hf
  installed h := nomatch h
  kept _ := iff_of_true (hk dest hd) hs
  other q hq _ := hk q hq

theorem Replaced.frame {succeeds spoils : Prop} {scratch : List Path} {dest : Path}
    {files before after : Files} {new : Bytes} {result : GoResult Unit × Files}
    (h : Replaced succeeds spoils scratch dest before new result) (hd : dest ∉ scratch)
    (hb : ∀ q ∉ scratch, before.lookup q = files.lookup q)
    (ha : ∀ q ∉ scratch, after.lookup q = result.2.lookup q) :
    Replaced succeeds spoils scratch dest files new (result.1, after) where
  succeeds := h.succeeds
  installed hr := (ha dest hd).trans (h.installed hr)
  kept hr := by
    rw [ha dest hd, ← hb dest hd]
    exact h.kept hr
  other q hq hne := (ha q hq).trans ((h.other q hq hne).trans (hb q hq))

theorem ReplaceFaults.Succeeds.not_spoils {faults : ReplaceFaults} {old : Option Bytes}
    {new : Bytes} (h : faults.Succeeds old) : ¬ faults.Spoils old new := by
  rintro ⟨hd, hs⟩
  rcases h with ⟨-, hr⟩ | ⟨-, hi, hb⟩
  · exact hd.2.1 hr
  · rcases hs with ⟨-, hn, -⟩ | ⟨hn, -⟩
    · exact hn hb
    · exact hn hi

inductive ReplaceOutcome (faults : ReplaceFaults) (tempPath dest backup : Path) (files : Files)
    (new : Bytes) : GoResult Unit × Files → Prop where
  | refused {e : String} (hs : ¬ faults.Succeeds (files.lookup dest))
      (hd : ¬ faults.Detours (files.lookup dest)) :
      ReplaceOutcome faults tempPath dest backup files new (.error e, files)
  | renamed (hm : faults.mkdir = .none) (hr : faults.rename = .none) :
      ReplaceOutcome faults tempPath dest backup files new
        (.ok (), (files.erase tempPath).insert dest new)
  | installed {old : Bytes} (ho : files.lookup dest = some old) (hd : faults.Detours (some old))
      (hi : faults.install = .none) (hr : faults.removeBackup = .none) :
      ReplaceOutcome faults tempPath dest backup files new
        (.ok (), (((((files.erase dest).insert backup old).erase tempPath).insert dest new).erase
          backup))
  | unremoved {old : Bytes} {e : String} (ho : files.lookup dest = some old)
      (hd : faults.Detours (some old)) (hi : faults.install = .none)
      (hr : faults.removeBackup ≠ .none) :
      ReplaceOutcome faults tempPath dest backup files new
        (.error e, (((files.erase dest).insert backup old).erase tempPath).insert dest new)
  | restored {old : Bytes} {e : String} (ho : files.lookup dest = some old)
      (hd : faults.Detours (some old)) (hi : faults.install ≠ .none)
      (hr : faults.rollback = .none) :
      ReplaceOutcome faults tempPath dest backup files new
        (.error e, (((files.erase dest).insert backup old).erase backup).insert dest old)
  | lost {old : Bytes} {e : String} (ho : files.lookup dest = some old)
      (hd : faults.Detours (some old)) (hi : faults.install ≠ .none)
      (hr : faults.rollback ≠ .none) :
      ReplaceOutcome faults tempPath dest backup files new
        (.error e, (files.erase dest).insert backup old)

theorem replaceFile_outcome {faults : ReplaceFaults} {nanos : ℕ} {tempPath dest : Path}
    {files : Files} {new : Bytes} (ht : files.lookup tempPath = some new)
    (htd : tempPath ≠ dest) (hbt : backupPath dest nanos ≠ tempPath) :
    ReplaceOutcome faults tempPath dest (backupPath dest nanos) files new
      (replaceFile faults nanos tempPath dest files) := by
  obtain ⟨mkdir, ren, st, bk, ins, rb, rm⟩ := faults
  unfold replaceFile
  cases mkdir with
  | some e =>
    exact .refused (by simp [ReplaceFaults.Succeeds, ReplaceFaults.Detours])
      (by simp [ReplaceFaults.Detours])
  | none =>
  cases ren with
  | none =>
    rw [rename_ok ht]
    exact .renamed rfl rfl
  | some e =>
  simp only [rename_fault]
  cases st with
  | some e' =>
    exact .refused (by simp [ReplaceFaults.Succeeds, ReplaceFaults.Detours])
      (by simp [ReplaceFaults.Detours])
  | none =>
  cases hold : files.lookup dest with
  | none =>
    have hm : dest ∉ files := AList.lookup_eq_none.mp hold
    simp only [hm, not_false_eq_true, if_true]
    exact .refused (by simp [ReplaceFaults.Succeeds, ReplaceFaults.Detours, hold])
      (by simp [ReplaceFaults.Detours, hold])
  | some old =>
  have hm : dest ∈ files := by
    rw [← AList.lookup_isSome, hold]
    rfl
  simp only [hm, not_true_eq_false, if_false]
  cases bk with
  | some e' =>
    simp only [rename_fault]
    exact .refused (by simp [ReplaceFaults.Succeeds, ReplaceFaults.Detours])
      (by simp [ReplaceFaults.Detours])
  | none =>
  -- from here on the old file is aside
  have hd : ReplaceFaults.Detours ⟨none, some e, none, none, ins, rb, rm⟩ (some old) := by
    simp [ReplaceFaults.Detours]
  rw [rename_ok hold]
  simp only
  cases ins with
  | some e' =>
    simp only [rename_fault]
    cases rb with
    | none =>
      rw [rename_ok (AList.lookup_insert _)]
      exact .restored hold hd (by simp) rfl
    | some e'' => exact .lost hold hd (by simp) (by simp)
  | none =>
    have ht' : ((files.erase dest).insert (backupPath dest nanos) old).lookup tempPath =
        some new := by
      rw [lookup_rename, if_neg (Ne.symm hbt), if_neg htd, ht]
    rw [rename_ok ht']
    cases rm with
    | none =>
      have hb : backupPath dest nanos ∈
          (((files.erase dest).insert (backupPath dest nanos) old).erase tempPath).insert
            dest new := by
        simp [hbt]
      simp only [remove, hb, if_true]
      exact .installed hold hd rfl rfl
    | some e' => exact .unremoved hold hd rfl (by simp)

theorem ReplaceOutcome.replaced {faults : ReplaceFaults} {tempPath dest backup : Path}
    {files : Files} {new : Bytes} {result : GoResult Unit × Files}
    (h : ReplaceOutcome faults tempPath dest backup files new result) (htd : tempPath ≠ dest)
    (hbd : backup ≠ dest) :
    Replaced (faults.Succeeds (files.lookup dest)) (faults.Spoils (files.lookup dest) new)
      [tempPath, backup] dest files new result := by
  have hscratch : ∀ q ∉ [tempPath, backup], q ≠ tempPath ∧ q ≠ backup := by
    intro q hq
    simpa using hq
  cases h with
  | refused hs hd =>
    exact .of_error hs (fun h => hd h.1) (by simp [Ne.symm htd, Ne.symm hbd]) fun _ _ => rfl
  | renamed hm hr =>
    refine ⟨iff_of_true rfl (Or.inl ⟨hm, hr⟩), fun _ => AList.lookup_insert _,
      fun h => absurd rfl h, ?_⟩
    intro q hq hne
    rw [lookup_rename, if_neg hne, if_neg (hscratch q hq).1]
  | installed ho hd hi hr =>
    refine ⟨iff_of_true rfl (Or.inr ⟨ho ▸ hd, hi, hr⟩), fun _ => ?_, fun h => absurd rfl h, ?_⟩
    · rw [AList.lookup_erase_ne (Ne.symm hbd), AList.lookup_insert]
    · intro q hq hne
      obtain ⟨hqt, hqb⟩ := hscratch q hq
      rw [AList.lookup_erase_ne hqb, lookup_rename, if_neg hne, if_neg hqt, lookup_rename,
        if_neg hqb, if_neg hne]
  | unremoved ho hd hi hr =>
    rw [ho]
    refine ⟨iff_of_false (by simp) ?_, fun h => (nomatch h), fun _ => ?_, ?_⟩
    · rintro (h | h)
      · exact hd.2.1 h.2
      · exact hr h.2.2
    · rw [AList.lookup_insert, ho]
      simp [ReplaceFaults.Spoils, hd, hi, hr, eq_comm]
    · intro q hq hne
      obtain ⟨hqt, hqb⟩ := hscratch q hq
      rw [lookup_rename, if_neg hne, if_neg hqt, lookup_rename, if_neg hqb, if_neg hne]
  | restored ho hd hi hr =>
    rw [ho]
    refine ⟨iff_of_false (by simp) ?_, fun h => (nomatch h), fun _ => ?_, ?_⟩
    · rintro (h | h)
      · exact hd.2.1 h.2
      · exact hi h.2.1
    · rw [AList.lookup_insert, ho]
      simp [ReplaceFaults.Spoils, hi, hr]
    · intro q hq hne
      have hqb := (hscratch q hq).2
      rw [lookup_rename, if_neg hne, if_neg hqb, lookup_rename, if_neg hqb, if_neg hne]
  | lost ho hd hi hr =>
    rw [ho]
    refine ⟨iff_of_false (by simp) ?_, fun h => (nomatch h), fun _ => ?_, ?_⟩
    · rintro (h | h)
      · exact hd.2.1 h.2
      · exact hi h.2.1
    · rw [lookup_rename, if_neg (Ne.symm hbd), if_pos rfl, ho]
      simp [ReplaceFaults.Spoils, hd, hi, hr]
    · intro q hq hne
      rw [lookup_rename, if_neg (hscratch q hq).2, if_neg hne]

theorem replaceFile_spec {faults : ReplaceFaults} {nanos : ℕ} {tempPath dest : Path}
    {files : Files} {new : Bytes} (ht : files.lookup tempPath = some new)
    (htd : tempPath ≠ dest) (hbd : backupPath dest nanos ≠ dest)
    (hbt : backupPath dest nanos ≠ tempPath) :
    Replaced (faults.Succeeds (files.lookup dest)) (faults.Spoils (files.lookup dest) new)
      [tempPath, backupPath dest nanos] dest files new
      (replaceFile faults nanos tempPath dest files) :=
  (replaceFile_outcome ht htd hbt).replaced htd hbd

theorem removeQuietly_other {fault : Fault} {p q : Path} {files : Files} (h : q ≠ p) :
    (removeQuietly fault p files).lookup q = files.lookup q := by
  unfold removeQuietly remove
  cases fault with
  | some e => rfl
  | none =>
    by_cases hp : p ∈ files <;> simp [hp, h]

theorem lookup_removeQuietly {p q : Path} {files : Files} :
    (removeQuietly none p files).lookup q = if q = p then none else files.lookup q := by
  by_cases h : q = p
  · rw [if_pos h, h]
    unfold removeQuietly remove
    by_cases hp : p ∈ files
    · simp [hp]
    · simp [hp, AList.lookup_eq_none.mpr hp]
  · rw [if_neg h, removeQuietly_other h]

structure WriteFaults where
  mkdir : Fault
  createTemp : Fault
  chmod : Fault
  write : Fault
  sync : Fault
  close : Fault
  replace : ReplaceFaults
  removeTemp : Fault

def WriteFaults.none : WriteFaults :=
  ⟨.none, .none, .none, .none, .none, .none, ReplaceFaults.none, .none⟩

/-- `os.CreateTemp` puts a random number at the end of the name. -/
def tempPath (dir : Path) (stem : String) (number : ℕ) : Path := dir ++ [stem ++ toString number]

structure Numbers where
  temp : ℕ
  nanos : ℕ

/-- `atomicWriteFile`. The four calls on the open file fail alike, and what a failed write
leaves in the temporary file is not looked at. -/
def atomicWriteFile (faults : WriteFaults) (numbers : Numbers) (dest : Path) (bytes : Bytes)
    (files : Files) : GoResult Unit × Files :=
  match faults.mkdir.or faults.createTemp with
  | some e => (.error e, files)
  | .none =>
    let temp := tempPath dest.dropLast ".qcap-index-" numbers.temp
    match faults.chmod.or (faults.write.or (faults.sync.or faults.close)) with
    | some e => (.error e, removeQuietly faults.removeTemp temp (files.insert temp []))
    | .none =>
      let replaced := replaceFile faults.replace numbers.nanos temp dest (files.insert temp bytes)
      (replaced.1, removeQuietly faults.removeTemp temp replaced.2)

def WriteFaults.Writes (faults : WriteFaults) : Prop :=
  faults.mkdir = .none ∧ faults.createTemp = .none ∧ faults.chmod = .none ∧
    faults.write = .none ∧ faults.sync = .none ∧ faults.close = .none

def WriteFaults.Succeeds (faults : WriteFaults) (old : Option Bytes) : Prop :=
  faults.Writes ∧ faults.replace.Succeeds old

def WriteFaults.Spoils (faults : WriteFaults) (old : Option Bytes) (new : Bytes) : Prop :=
  faults.Writes ∧ faults.replace.Spoils old new

theorem atomicWriteFile_spec {faults : WriteFaults} {numbers : Numbers} {dest : Path}
    {bytes : Bytes} {files : Files}
    (htd : tempPath dest.dropLast ".qcap-index-" numbers.temp ≠ dest)
    (hbd : backupPath dest numbers.nanos ≠ dest)
    (hbt : backupPath dest numbers.nanos ≠ tempPath dest.dropLast ".qcap-index-" numbers.temp) :
    Replaced (faults.Succeeds (files.lookup dest)) (faults.Spoils (files.lookup dest) bytes)
      [tempPath dest.dropLast ".qcap-index-" numbers.temp, backupPath dest numbers.nanos] dest
      files bytes (atomicWriteFile faults numbers dest bytes files) := by
  set temp := tempPath dest.dropLast ".qcap-index-" numbers.temp with htemp
  have hd : dest ∉ [temp, backupPath dest numbers.nanos] := by simp [Ne.symm htd, Ne.symm hbd]
  have hins : ∀ b, ∀ q ∉ [temp, backupPath dest numbers.nanos],
      (files.insert temp b).lookup q = files.lookup q := by
    intro b q hq
    exact AList.lookup_insert_ne (List.ne_of_not_mem_cons hq)
  unfold atomicWriteFile
  split
  · rename_i e he
    have hw : ¬ faults.Writes := by
      rintro ⟨h1, h2, -⟩
      rw [h1, h2] at he
      cases he
    exact .of_error (fun h => hw h.1) (fun h => hw h.1) hd fun _ _ => rfl
  · rename_i he
    obtain ⟨hm, hc⟩ := Option.or_eq_none_iff.mp he
    simp only [← htemp]
    split
    · rename_i e he
      have hw : ¬ faults.Writes := by
        rintro ⟨-, -, h1, h2, h3, h4⟩
        rw [h1, h2, h3, h4] at he
        cases he
      exact .of_error (fun h => hw h.1) (fun h => hw h.1) hd fun q hq =>
        (removeQuietly_other (List.ne_of_not_mem_cons hq)).trans (hins [] q hq)
    · rename_i he
      simp only [Option.or_eq_none_iff] at he
      have hw : faults.Writes := ⟨hm, hc, he.1, he.2.1, he.2.2.1, he.2.2.2⟩
      have hr : Replaced (faults.replace.Succeeds ((files.insert temp bytes).lookup dest))
          (faults.replace.Spoils ((files.insert temp bytes).lookup dest) bytes)
          [temp, backupPath dest numbers.nanos] dest (files.insert temp bytes) bytes
          (replaceFile faults.replace numbers.nanos temp dest (files.insert temp bytes)) :=
        replaceFile_spec (AList.lookup_insert files) htd hbd hbt
      rw [hins bytes dest hd] at hr
      have hs : faults.Succeeds (files.lookup dest) ↔ faults.replace.Succeeds (files.lookup dest) :=
        and_iff_right hw
      have hp : faults.Spoils (files.lookup dest) bytes ↔
          faults.replace.Spoils (files.lookup dest) bytes := and_iff_right hw
      rw [hs, hp]
      exact hr.frame hd (hins bytes) fun q hq => removeQuietly_other (List.ne_of_not_mem_cons hq)

structure StageFaults where
  mkdir : Fault
  createTemp : Fault
  copy : Fault
  sync : Fault
  close : Fault
  removeTemp : Fault

def StageFaults.none : StageFaults := ⟨.none, .none, .none, .none, .none, .none⟩

/-- `errUploadTooLarge`, or the error of a call. -/
inductive StageError where
  | tooLarge
  | failed (text : String)
  deriving DecidableEq

/-- `stageUpload`, into a temporary file of the store. The copy reads one byte beyond the
limit. -/
def stageUpload (faults : StageFaults) (temp : Path) (body : Bytes) (maxBytes : ℕ)
    (files : Files) : Except StageError ℕ × Files :=
  match faults.mkdir.or faults.createTemp with
  | some e => (.error (.failed e), files)
  | .none =>
    let copied := body.take (maxBytes + 1)
    let staged := files.insert temp copied
    let discarded := removeQuietly faults.removeTemp temp staged
    match faults.copy with
    | some e => (.error (.failed e), discarded)
    | .none =>
      if maxBytes < copied.length then (.error .tooLarge, discarded)
      else
        match faults.sync.or faults.close with
        | some e => (.error (.failed e), discarded)
        | .none => (.ok copied.length, staged)

theorem stageUpload_other {faults : StageFaults} {temp q : Path} {body : Bytes} {maxBytes : ℕ}
    {files : Files} (h : q ≠ temp) :
    (stageUpload faults temp body maxBytes files).2.lookup q = files.lookup q := by
  unfold stageUpload
  split
  · rfl
  · dsimp only
    split
    · rw [removeQuietly_other h, AList.lookup_insert_ne h]
    · split
      · rw [removeQuietly_other h, AList.lookup_insert_ne h]
      · split
        · rw [removeQuietly_other h, AList.lookup_insert_ne h]
        · exact AList.lookup_insert_ne h

def StageFaults.Clear (faults : StageFaults) : Prop :=
  faults.mkdir = .none ∧ faults.createTemp = .none ∧ faults.copy = .none ∧
    faults.sync = .none ∧ faults.close = .none

theorem stageUpload_ok {faults : StageFaults} {temp : Path} {body : Bytes} {maxBytes n : ℕ}
    {files files' : Files} :
    stageUpload faults temp body maxBytes files = (.ok n, files') ↔
      faults.Clear ∧ body.length ≤ maxBytes ∧ n = body.length ∧
        files' = files.insert temp body := by
  obtain ⟨mkdir, createTemp, copy, sync, close, removeTemp⟩ := faults
  have htake : body.length ≤ maxBytes → body.take (maxBytes + 1) = body := fun h =>
    List.take_of_length_le (by omega)
  have hlong : maxBytes < (body.take (maxBytes + 1)).length ↔ maxBytes < body.length := by
    rw [List.length_take]
    omega
  cases mkdir with
  | some e => simp [stageUpload, StageFaults.Clear]
  | none =>
  cases createTemp with
  | some e => simp [stageUpload, StageFaults.Clear]
  | none =>
  cases copy with
  | some e => simp [stageUpload, StageFaults.Clear]
  | none =>
  by_cases hl : maxBytes < body.length
  · simp only [stageUpload, Option.or_none, hlong, hl, if_true, Prod.mk.injEq, reduceCtorEq,
      false_and, false_iff, not_and]
    omega
  · have ht := htake (by omega)
    cases sync with
    | some e => simp [stageUpload, StageFaults.Clear, hl, ht]
    | none =>
      cases close with
      | some e => simp [stageUpload, StageFaults.Clear, hl, ht]
      | none => simp [stageUpload, StageFaults.Clear, hl, ht, eq_comm, Nat.le_of_not_lt]

end QCap.RegistryFiles
