import QCap.RegistryFiles
import QCap.SortedIndex
import Mathlib.Data.String.Basic

/-!
# The index of the registry

`commitArtifact` changes one entry, `loadIndexLocked` builds the index again from the old
index file and the files of the store. Modification times are what the file system says they
are at the time of the walk.
-/
namespace QCap.RegistryIndex

open QCap.Text QCap.Crypto QCap.RegistryArchive QCap.RegistryFiles

/-- Names are text: one that is not UTF-8, which `encoding/json` would change, is left out. -/
structure Capsule where
  name : String
  path : String
  size : ℤ
  contentType : String
  digest : String
  createdAt : String
  deriving DecidableEq, Repr

structure IndexCodec where
  marshalIndent : List Capsule → Bytes
  unmarshal : Bytes → GoResult (List Capsule)

def IsInt64 (n : ℤ) : Prop := -2 ^ 63 ≤ n ∧ n < 2 ^ 63

instance (n : ℤ) : Decidable (IsInt64 n) := inferInstanceAs (Decidable (_ ∧ _))

/-- The index file reads back; a size is an `int64`. -/
def IndexCodec.ReadsBack (X : IndexCodec) : Prop :=
  ∀ index, (∀ c ∈ index, IsInt64 c.size) →
    X.unmarshal (X.marshalIndent index ++ [10]) = .ok index

/-- Names that the registry makes up: of uploads, of new index files and of backups. -/
def Temporary (name : String) : Prop :=
  ∃ n : ℕ, ext name = ".qcap-upload-" ++ toString n ∨ ext name = ".qcap-index-" ++ toString n ∨
    ext name = ".qcap-backup-" ++ toString n

/-- The configured paths; the index file is neither in the place of an artifact nor one of the
files that come and go. -/
structure Config where
  storeDir : Path
  indexPath : Path
  token : String
  index_not_artifact : ∀ name, ext name = ".qcap" → indexPath ≠ storeDir ++ [name]
  index_not_temporary : ¬ Temporary (base indexPath)

def Config.default (storeDir : Path) (token : String) : Config where
  storeDir := storeDir
  indexPath := storeDir ++ ["index.json"]
  token := token
  index_not_artifact name h he := by
    have hn : "index.json" = name := by simpa using he
    rw [← hn] at h
    exact absurd h (by decide)
  index_not_temporary h := by
    have hb : base (storeDir ++ ["index.json"]) = "index.json" := by simp [base]
    have he : ext "index.json" = ".json" := by decide
    obtain ⟨n, h⟩ := h
    rw [hb, he] at h
    rcases h with h | h | h <;>
      exact absurd (congrArg (fun s => s.toList.take 2) h) (by simp [String.toList_append])

def Config.DefaultIndex (cfg : Config) : Prop := cfg.indexPath = cfg.storeDir ++ ["index.json"]

structure Registry where
  files : Files
  index : List Capsule

variable (C : Primitives) (X : IndexCodec) (cfg : Config)

def Config.artifactPath (name : String) : Path := cfg.storeDir ++ [name]

def Config.revocationPath (issuer : String) : Path :=
  cfg.storeDir ++ ["revocations", issuer, "revocations.json"]

def Config.uploadPath (number : ℕ) : Path := tempPath cfg.storeDir ".qcap-upload-" number

@[simp] theorem base_append (dir : Path) (name : String) : base (dir ++ [name]) = name := by
  simp [base]

theorem digit_ne_dot {n : ℕ} : '.' ∉ (toString n).toList := by
  intro h
  rw [Nat.toString_eq_repr, Nat.toList_repr] at h
  exact absurd (Nat.isDigit_of_mem_toDigits (by decide) (by decide) h) (by decide)

theorem ext_last_dot {s t : String} (h : '.' ∉ t.toList) : ext (s ++ ("." ++ t)) = "." ++ t := by
  have hd : ".".toList = ['.'] := rfl
  have hr : (s ++ ("." ++ t)).toList.reverse = t.toList.reverse ++ '.' :: s.toList.reverse := by
    simp only [String.toList_append, hd, List.reverse_append, List.reverse_cons,
      List.nil_append, List.append_assoc, List.cons_append]
  have ht : (t.toList.reverse ++ '.' :: s.toList.reverse).takeWhile (· ≠ '.') =
      t.toList.reverse := by
    rw [List.takeWhile_append_of_pos]
    · simp
    · intro c hc
      have hne : c ≠ '.' := fun he => h (he ▸ List.mem_reverse.mp hc)
      simpa using hne
  simp only [ext, hr, ht, List.reverse_reverse]
  rw [if_pos (by simp), ← String.toList_inj, String.toList_append, hd, String.toList_ofList]
  rfl

theorem ext_numbered (s stem : String) (n : ℕ) (h : '.' ∉ stem.toList) :
    ext (s ++ ("." ++ stem ++ toString n)) = "." ++ stem ++ toString n := by
  have hf : '.' ∉ (stem ++ toString n).toList := by
    rw [String.toList_append, List.mem_append]
    exact not_or.mpr ⟨h, digit_ne_dot⟩
  rw [String.append_assoc]
  exact ext_last_dot hf

theorem ext_upload (n : ℕ) : ext (".qcap-upload-" ++ toString n) = ".qcap-upload-" ++ toString n :=
  ext_numbered "" "qcap-upload-" n (by decide)

theorem ext_index (n : ℕ) : ext (".qcap-index-" ++ toString n) = ".qcap-index-" ++ toString n :=
  ext_numbered "" "qcap-index-" n (by decide)

theorem ext_backup (name : String) (n : ℕ) :
    ext (name ++ ".qcap-backup-" ++ toString n) = ".qcap-backup-" ++ toString n := by
  rw [String.append_assoc]
  exact ext_numbered name "qcap-backup-" n (by decide)

theorem Temporary.ext_ne {name : String} (h : Temporary name) : ext name ≠ ".qcap" := by
  intro he
  have hlen := congrArg (fun s => s.toList.length) he
  obtain ⟨n, h | h | h⟩ := h <;> rw [h] at hlen <;> simp [String.toList_append] at hlen

theorem temporary_upload (n : ℕ) : Temporary (".qcap-upload-" ++ toString n) :=
  ⟨n, Or.inl (ext_upload n)⟩

theorem temporary_index (n : ℕ) : Temporary (".qcap-index-" ++ toString n) :=
  ⟨n, Or.inr (Or.inl (ext_index n))⟩

theorem temporary_backup (dest : Path) (n : ℕ) : Temporary (base (backupPath dest n)) := by
  rw [backupPath, base_append]
  exact ⟨n, Or.inr (Or.inr (ext_backup (base dest) n))⟩

theorem ext_stem_ne {stem stem' : String} {m n : ℕ}
    (h : stem.toList.take 7 ≠ stem'.toList.take 7) (hl : 7 ≤ stem.toList.length)
    (hl' : 7 ≤ stem'.toList.length) : stem ++ toString m ≠ stem' ++ toString n := by
  intro he
  have ht := congrArg (fun s => s.toList.take 7) he
  simp only [String.toList_append, List.take_append_of_le_length hl,
    List.take_append_of_le_length hl'] at ht
  exact h ht

theorem backup_ne_upload {dest dir : Path} {m n : ℕ} :
    backupPath dest m ≠ tempPath dir ".qcap-upload-" n := by
  intro h
  have hb := congrArg (fun p => ext (base p)) h
  simp only [backupPath, tempPath, base_append, ext_backup, ext_upload] at hb
  exact ext_stem_ne (by decide) (by decide) (by decide) hb

theorem backup_ne_index {dest dir : Path} {m n : ℕ} :
    backupPath dest m ≠ tempPath dir ".qcap-index-" n := by
  intro h
  have hb := congrArg (fun p => ext (base p)) h
  simp only [backupPath, tempPath, base_append, ext_backup, ext_index] at hb
  exact ext_stem_ne (by decide) (by decide) (by decide) hb

theorem upload_ne_index {dir dir' : Path} {m n : ℕ} :
    tempPath dir ".qcap-upload-" m ≠ tempPath dir' ".qcap-index-" n := by
  intro h
  have hb := congrArg base h
  simp only [tempPath, base_append] at hb
  exact ext_stem_ne (by decide) (by decide) (by decide) hb

/-- The files that hold the state of the registry. -/
inductive Tracked : Path → Prop where
  | artifact {p : Path} : ext (base p) = ".qcap" → Tracked p
  | revocations (issuer : String) : Tracked (cfg.revocationPath issuer)
  | index : Tracked cfg.indexPath

theorem Tracked.ne {p q : Path} (hp : Tracked cfg p) (hq : Temporary (base q)) : p ≠ q := by
  rintro rfl
  cases hp with
  | artifact h => exact hq.ext_ne h
  | revocations issuer =>
    have hb : base (cfg.revocationPath issuer) = "revocations.json" := by
      simp [base, Config.revocationPath]
    rw [hb] at hq
    obtain ⟨n, h⟩ := hq
    have he : ext "revocations.json" = ".json" := by decide
    rw [he] at h
    rcases h with h | h | h <;>
      exact absurd (congrArg (fun s => s.toList.take 2) h) (by simp [String.toList_append])
  | index => exact cfg.index_not_temporary hq

def fileDigest (bytes : Bytes) : String := "sha256:" ++ hexEncode (C.sha256 bytes).val

def artifactCapsule (name : String) (size : ℕ) (digest createdAt : String) : Capsule where
  name := name
  path := "/artifacts/" ++ name
  size := size
  contentType := "application/qcap+zip"
  digest := digest
  createdAt := createdAt

def indexBytes (index : List Capsule) : Bytes := X.marshalIndent index ++ [10]

structure SaveFaults where
  mkdir : Fault
  write : WriteFaults

def SaveFaults.none : SaveFaults := ⟨.none, WriteFaults.none⟩

def saveIndexLocked (faults : SaveFaults) (numbers : Numbers) (index : List Capsule)
    (files : Files) : GoResult Unit × Files :=
  match faults.mkdir with
  | some e => (.error e, files)
  | .none => atomicWriteFile faults.write numbers cfg.indexPath (indexBytes X index) files

def SaveFaults.Succeeds (faults : SaveFaults) (old : Option Bytes) : Prop :=
  faults.mkdir = .none ∧ faults.write.Succeeds old

def SaveFaults.Spoils (faults : SaveFaults) (old : Option Bytes) (new : Bytes) : Prop :=
  faults.mkdir = .none ∧ faults.write.Spoils old new

def saveScratch (numbers : Numbers) : List Path :=
  [tempPath cfg.indexPath.dropLast ".qcap-index-" numbers.temp,
    backupPath cfg.indexPath numbers.nanos]

theorem saveScratch_temporary {numbers : Numbers} {p : Path} (h : p ∈ saveScratch cfg numbers) :
    Temporary (base p) := by
  simp only [saveScratch, List.mem_cons, List.not_mem_nil, or_false] at h
  rcases h with rfl | rfl
  · rw [tempPath, base_append]
    exact temporary_index _
  · exact temporary_backup _ _

theorem saveIndexLocked_spec (faults : SaveFaults) (numbers : Numbers) (index : List Capsule)
    (files : Files) :
    Replaced (faults.Succeeds (files.lookup cfg.indexPath))
      (faults.Spoils (files.lookup cfg.indexPath) (indexBytes X index))
      (saveScratch cfg numbers) cfg.indexPath files (indexBytes X index)
      (saveIndexLocked X cfg faults numbers index files) := by
  have hne : ∀ p ∈ saveScratch cfg numbers, p ≠ cfg.indexPath := fun p hp =>
    ((Tracked.index : Tracked cfg cfg.indexPath).ne cfg (saveScratch_temporary cfg hp)).symm
  have hd : cfg.indexPath ∉ saveScratch cfg numbers := fun h => hne _ h rfl
  unfold saveIndexLocked
  split
  · rename_i e he
    have hm : faults.mkdir ≠ .none := by simp [he]
    exact .of_error (fun h => hm h.1) (fun h => hm h.1) hd fun _ _ => rfl
  · rename_i he
    have hw : Replaced (faults.write.Succeeds (files.lookup cfg.indexPath))
        (faults.write.Spoils (files.lookup cfg.indexPath) (indexBytes X index))
        (saveScratch cfg numbers) cfg.indexPath files (indexBytes X index)
        (atomicWriteFile faults.write numbers cfg.indexPath (indexBytes X index) files) :=
      atomicWriteFile_spec (hne _ (by simp [saveScratch])) (hne _ (by simp [saveScratch]))
        backup_ne_index
    have hs : faults.Succeeds (files.lookup cfg.indexPath) ↔
        faults.write.Succeeds (files.lookup cfg.indexPath) := and_iff_right he
    have hp : faults.Spoils (files.lookup cfg.indexPath) (indexBytes X index) ↔
        faults.write.Spoils (files.lookup cfg.indexPath) (indexBytes X index) := and_iff_right he
    rw [hs, hp]
    exact hw

def Config.indexTemp (numbers : Numbers) : Path :=
  tempPath cfg.indexPath.dropLast ".qcap-index-" numbers.temp

theorem indexTemp_ne_index (numbers : Numbers) : cfg.indexTemp numbers ≠ cfg.indexPath := by
  refine ((Tracked.index : Tracked cfg cfg.indexPath).ne cfg ?_).symm
  rw [Config.indexTemp, tempPath, base_append]
  exact temporary_index _

theorem saveIndexLocked_none (numbers : Numbers) (index : List Capsule) (files : Files) :
    ∃ files', saveIndexLocked X cfg SaveFaults.none numbers index files = (.ok (), files') ∧
      ∀ q, files'.lookup q = if q = cfg.indexPath then some (indexBytes X index)
        else if q = cfg.indexTemp numbers then none else files.lookup q := by
  have hne := indexTemp_ne_index cfg numbers
  simp only [saveIndexLocked, atomicWriteFile, SaveFaults.none, WriteFaults.none,
    Option.or_none, ← Config.indexTemp.eq_def]
  generalize cfg.indexTemp numbers = temp at hne ⊢
  have hr : replaceFile ReplaceFaults.none numbers.nanos temp cfg.indexPath
      (files.insert temp (indexBytes X index)) = (.ok (), ((files.insert temp
        (indexBytes X index)).erase temp).insert cfg.indexPath (indexBytes X index)) :=
    replaceFile_none (AList.lookup_insert files)
  rw [hr]
  refine ⟨_, rfl, fun q => ?_⟩
  rw [lookup_removeQuietly, lookup_rename]
  by_cases hi : q = cfg.indexPath
  · rw [if_neg fun h => hne (h.symm.trans hi), if_pos hi, if_pos hi]
  · by_cases ht : q = temp
    · simp [ht, hne]
    · simp [ht, hi]

def readIndex (files : Files) : GoResult (List Capsule) :=
  match files.lookup cfg.indexPath with
  | some (b :: bs) => X.unmarshal (b :: bs)
  | _ => .ok []

/-- `filepath.Walk`: the files below the store directory, in lexical order. -/
def walk (files : Files) : List (Path × Bytes) :=
  ((files.entries.map fun e => (e.1, e.2)).filter fun f => cfg.storeDir.isPrefixOf f.1).mergeSort
    fun f g => decide (f.1 ≤ g.1)

def visit (modTime : Path → String) (byName : AList fun _ : String => Capsule)
    (file : Path × Bytes) : AList fun _ : String => Capsule :=
  if file.1 = cfg.indexPath ∨ ext (base file.1) ≠ ".qcap" then byName
  else
    let name := base file.1
    let createdAt := ((byName.lookup name).map Capsule.createdAt).getD ""
    byName.insert name (artifactCapsule name file.2.length (fileDigest C file.2)
      (if createdAt = "" then modTime file.1 else createdAt))

def oldEntries (idx : List Capsule) : AList fun _ : String => Capsule :=
  idx.foldl (fun byName capsule => byName.insert capsule.name capsule) ∅

def rebuild (modTime : Path → String) (idx : List Capsule) (files : Files) : List Capsule :=
  SortedIndex.ofMap Capsule.name ((walk cfg files).foldl (visit C cfg modTime) (oldEntries idx))

/-- `loadIndexLocked`, in a walk without errors. -/
def loadIndexLocked (numbers : Numbers) (modTime : Path → String) (reg : Registry) :
    GoResult Unit × Registry :=
  match readIndex X cfg reg.files with
  | .error e => (.error e, reg)
  | .ok idx =>
    let index := rebuild C cfg modTime idx reg.files
    let saved := saveIndexLocked X cfg .none numbers index reg.files
    (saved.1, ⟨saved.2, index⟩)

structure CommitFaults where
  replace : ReplaceFaults
  save : SaveFaults

def CommitFaults.none : CommitFaults := ⟨ReplaceFaults.none, SaveFaults.none⟩

structure CommitNumbers where
  nanos : ℕ
  save : Numbers

def keepCreatedAt (old new : Capsule) : Capsule :=
  if old.createdAt ≠ "" then { new with createdAt := old.createdAt } else new

@[simp] theorem keepCreatedAt_name (old new : Capsule) :
    (keepCreatedAt old new).name = new.name := by
  unfold keepCreatedAt
  split <;> rfl

/-- `commitArtifact`. Its two branches differ in the new index only, which takes effect when
the file is replaced. -/
def commitArtifact (faults : CommitFaults) (numbers : CommitNumbers) (temp dest : Path)
    (capsule : Capsule) (reg : Registry) : GoResult Unit × Registry :=
  match replaceFile faults.replace numbers.nanos temp dest reg.files with
  | (.error e, files) => (.error e, ⟨files, reg.index⟩)
  | (.ok (), files) =>
    let index := SortedIndex.upsert Capsule.name keepCreatedAt capsule reg.index
    let saved := saveIndexLocked X cfg faults.save numbers.save index files
    (saved.1, ⟨saved.2, index⟩)

theorem commitArtifact_none (numbers : CommitNumbers) {temp : Path} (dest : Path)
    (capsule : Capsule) {reg : Registry} {body : Bytes} (ht : reg.files.lookup temp = some body) :
    ∃ files', commitArtifact X cfg CommitFaults.none numbers temp dest capsule reg =
        (.ok (), ⟨files', SortedIndex.upsert Capsule.name keepCreatedAt capsule reg.index⟩) ∧
      ∀ q, files'.lookup q = if q = cfg.indexPath then
          some (indexBytes X (SortedIndex.upsert Capsule.name keepCreatedAt capsule reg.index))
        else if q = cfg.indexTemp numbers.save then none
        else if q = dest then some body else if q = temp then none else reg.files.lookup q := by
  obtain ⟨files', hs, hl⟩ := saveIndexLocked_none X cfg numbers.save
    (SortedIndex.upsert Capsule.name keepCreatedAt capsule reg.index)
    ((reg.files.erase temp).insert dest body)
  refine ⟨files', ?_, fun q => ?_⟩
  · rw [commitArtifact, CommitFaults.none, replaceFile_none ht]
    simp only [hs]
  · rw [hl, lookup_rename]

end QCap.RegistryIndex
