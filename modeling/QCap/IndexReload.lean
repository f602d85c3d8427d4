import QCap.RegistryRuns
import Mathlib.Data.List.DropRight
import Mathlib.Data.List.Induction

/-!
# Reloading the index

`loadIndexLocked` keeps the rows of the old index file and walks the store to the bottom,
while `artifact` serves the files of the store directory itself. When the two agree, for
any content of the store and any old index file.
-/
namespace QCap.IndexReload

open QCap.Text QCap.Crypto QCap.RegistryArchive QCap.RegistryFiles QCap.RegistryIndex
open QCap.RegistryPublish QCap.RegistryRuns QCap.IndexJson

variable (C : Primitives) (X : IndexCodec) (cfg : Config)

/-- The mux hands `artifact` the paths below `/artifacts/`; the name that it asks the store
for, if it takes it. -/
def requestedName (urlPath : String) : Option String := do
  let raw ← stripPrefix urlPath "/artifacts/"
  let name := safeArtifactName raw
  if name = "" ∨ ext name ≠ ".qcap" then none else some name

def artifact (urlPath : String) (files : Files) : Option Bytes := do
  let name ← requestedName urlPath
  files.lookup (cfg.artifactPath name)

structure ListsDownloads (reg : Registry) : Prop where
  served : ∀ c ∈ reg.index, ∃ bytes, artifact cfg c.path reg.files = some bytes ∧
    bytes.length = c.size ∧ fileDigest C bytes = c.digest
  listed : ∀ urlPath name, requestedName urlPath = some name →
    cfg.artifactPath name ∈ reg.files →
      ∃! c, c ∈ reg.index ∧ requestedName c.path = some name

def found (files : Files) : List (Path × Bytes) :=
  (walk cfg files).filter fun f => ¬ (f.1 = cfg.indexPath ∨ ext (base f.1) ≠ ".qcap")

def lastFound (files : Files) : String → Option (Path × Bytes) :=
  WriteLog.last (fun f : Path × Bytes => base f.1) id (found cfg files)

/-- No row of the old index is left without a file, each file has a name that can be asked
for, and the last file of a name has a copy of the same contents in the store directory. -/
structure Reloadable (idx : List Capsule) (files : Files) : Prop where
  current : ∀ row ∈ idx, ∃ f ∈ found cfg files, base f.1 = row.name
  requestable : ∀ f ∈ found cfg files, safeArtifactName (base f.1) = base f.1
  copied : ∀ name f, lastFound cfg files name = some f →
    ∃ bytes, files.lookup (cfg.artifactPath name) = some bytes ∧
      bytes.length = f.2.length ∧ fileDigest C bytes = fileDigest C f.2

variable {C X cfg}

theorem dropWhile_rdropWhile {α : Type} {p : α → Bool} {l : List α} (h : l.dropWhile p = l) :
    (l.rdropWhile p).dropWhile p = l.rdropWhile p := by
  obtain ⟨t, ht⟩ := List.rdropWhile_prefix p (l := l)
  cases hr : l.rdropWhile p with
  | nil => rfl
  | cons a r =>
    rw [hr, List.cons_append] at ht
    rw [← ht] at h
    exact List.dropWhile_cons_of_neg (by simpa using List.dropWhile_eq_self_iff.mp h)

theorem trim_trim (s : String) : trim (trim s) = trim s := by
  have h : ∀ s : String, trim s =
      String.ofList ((s.toList.dropWhile isWhitespace).rdropWhile isWhitespace) := fun _ => rfl
  rw [h (trim s), h s, String.toList_ofList, dropWhile_rdropWhile (List.dropWhile_idempotent _ _),
    List.rdropWhile_idempotent]

theorem safeArtifactName_self {raw : String} (h : safeArtifactName raw ≠ "") :
    safeArtifactName (safeArtifactName raw) = safeArtifactName raw := by
  have hp : isPlainName (trim raw) = true := by
    by_contra hn
    exact h (by simp [safeArtifactName, hn])
  have he : safeArtifactName raw = trim raw := by simp [safeArtifactName, hp]
  rw [he, safeArtifactName, trim_trim, if_pos hp]

theorem requestedName_eq {urlPath name : String} :
    requestedName urlPath = some name ↔ ∃ raw, urlPath = "/artifacts/" ++ raw ∧
      safeArtifactName raw = name ∧ name ≠ "" ∧ ext name = ".qcap" := by
  unfold requestedName
  constructor
  · intro h
    obtain ⟨raw, hraw, h⟩ := Option.bind_eq_some_iff.mp h
    dsimp only at h
    split at h
    · cases h
    · rename_i hn
      cases h
      exact ⟨raw, stripPrefix_eq_some.mp hraw, rfl, fun he => hn (.inl he),
        by_contra fun he => hn (.inr he)⟩
  · rintro ⟨raw, rfl, rfl, hne, hext⟩
    rw [stripPrefix_append]
    exact if_neg (by simp [hne, hext])

theorem requestedName_self {urlPath name : String} (h : requestedName urlPath = some name) :
    requestedName ("/artifacts/" ++ name) = some name := by
  obtain ⟨raw, -, rfl, hne, hext⟩ := requestedName_eq.mp h
  exact requestedName_eq.mpr ⟨_, rfl, safeArtifactName_self hne, hne, hext⟩

theorem requestedName_artifact {name : String} (hext : ext name = ".qcap") :
    requestedName ("/artifacts/" ++ name) = some name ↔ safeArtifactName name = name := by
  have hne : name ≠ "" := by
    rintro rfl
    exact absurd hext (by decide)
  rw [requestedName_eq]
  constructor
  · rintro ⟨raw, hraw, hname, -⟩
    rwa [← String.append_right_inj _ |>.mp hraw] at hname
  · intro h
    exact ⟨name, rfl, h, hne, hext⟩

theorem mem_found {files : Files} {f : Path × Bytes} : f ∈ found cfg files ↔
    f ∈ walk cfg files ∧ f.1 ≠ cfg.indexPath ∧ ext (base f.1) = ".qcap" := by
  simp [found]

theorem found_artifact {files : Files} {name : String} {bytes : Bytes} (hext : ext name = ".qcap")
    (h : files.lookup (cfg.artifactPath name) = some bytes) :
    (cfg.artifactPath name, bytes) ∈ found cfg files := by
  refine mem_found.mpr ⟨mem_walk.mpr ⟨h, List.prefix_append _ _⟩,
    (cfg.index_not_artifact name hext).symm, ?_⟩
  rw [Config.artifactPath, base_append, hext]

theorem lastFound_isSome {files : Files} {f : Path × Bytes} (h : f ∈ found cfg files) :
    ∃ g, lastFound cfg files (base f.1) = some g := by
  cases hl : lastFound cfg files (base f.1) with
  | some g => exact ⟨g, rfl⟩
  | none => exact absurd rfl ((WriteLog.last_eq_none _ _).mp hl f h)

theorem lastFound_mem {files : Files} {name : String} {f : Path × Bytes}
    (h : lastFound cfg files name = some f) : f ∈ found cfg files ∧ base f.1 = name := by
  obtain ⟨g, hg, hname, rfl⟩ := WriteLog.last_mem _ _ h
  exact ⟨hg, hname⟩

/-- The entry of a name: of the last file that the walk enters under it, else as before. -/
def EntryFor (C : Primitives) (name : String) (file : Option (Path × Bytes))
    (old entry : Option Capsule) : Prop :=
  match file with
  | some f => ∃ createdAt,
      entry = some (artifactCapsule name f.2.length (fileDigest C f.2) createdAt)
  | none => entry = old

theorem lookup_visits (modTime : Path → String) (files : List (Path × Bytes))
    (byName : AList fun _ : String => Capsule) (name : String) :
    EntryFor C name
      (WriteLog.last (fun f : Path × Bytes => base f.1) id
        (files.filter fun f => ¬ (f.1 = cfg.indexPath ∨ ext (base f.1) ≠ ".qcap")) name)
      (byName.lookup name) ((files.foldl (visit C cfg modTime) byName).lookup name) := by
  induction files using List.reverseRecOn with
  | nil => rfl
  | append_singleton files f ih =>
    rw [List.foldl_append, List.foldl_cons, List.foldl_nil, List.filter_append]
    unfold visit
    by_cases hf : f.1 = cfg.indexPath ∨ ext (base f.1) ≠ ".qcap"
    · rw [if_pos hf, List.filter_cons_of_neg (by simp only [hf]; simp), List.filter_nil,
        List.append_nil]
      exact ih
    · rw [if_neg hf, List.filter_cons_of_pos (by simp only [hf]; simp), List.filter_nil,
        WriteLog.last_snoc]
      by_cases hn : base f.1 = name
      · subst hn
        rw [if_pos rfl, AList.lookup_insert]
        exact ⟨_, rfl⟩
      · rw [if_neg hn, AList.lookup_insert_ne (Ne.symm hn)]
        exact ih

theorem entryFor_rebuilt (C : Primitives) (cfg : Config) (modTime : Path → String)
    (idx : List Capsule) (files : Files) (name : String) :
    EntryFor C name (lastFound cfg files name)
      (WriteLog.last Capsule.name id idx name)
      (((walk cfg files).foldl (visit C cfg modTime) (oldEntries idx)).lookup name) := by
  rw [← lookup_oldEntries]
  exact lookup_visits modTime _ _ name

theorem EntryFor.name {name : String} {file : Option (Path × Bytes)} {idx : List Capsule}
    {c : Capsule}
    (h : EntryFor C name file (WriteLog.last Capsule.name id idx name) (some c)) :
    c.name = name := by
  cases file with
  | some f =>
    obtain ⟨createdAt, he⟩ := h
    exact congrArg Capsule.name (Option.some.inj he)
  | none =>
    obtain ⟨row, -, hname, rfl⟩ := WriteLog.last_mem _ _ (Eq.symm h)
    exact hname

theorem mem_rebuild {modTime : Path → String} {idx : List Capsule} {files : Files} {c : Capsule} :
    c ∈ rebuild C cfg modTime idx files ↔
      ((walk cfg files).foldl (visit C cfg modTime) (oldEntries idx)).lookup c.name = some c :=
  SortedIndex.mem_ofMap Capsule.name fun name _ h =>
    (h ▸ entryFor_rebuilt C cfg modTime idx files name).name

theorem entry_of_lastFound (modTime : Path → String) (idx : List Capsule) {files : Files}
    {name : String} {f : Path × Bytes} (h : lastFound cfg files name = some f) :
    ∃ createdAt, artifactCapsule name f.2.length (fileDigest C f.2) createdAt ∈
      rebuild C cfg modTime idx files := by
  have he := entryFor_rebuilt C cfg modTime idx files name
  rw [h] at he
  obtain ⟨createdAt, he⟩ := he
  exact ⟨createdAt, mem_rebuild.mpr he⟩

theorem rebuild_cases {modTime : Path → String} {idx : List Capsule} {files : Files} {c : Capsule}
    (h : c ∈ rebuild C cfg modTime idx files) :
    (∃ f createdAt, lastFound cfg files c.name = some f ∧
      c = artifactCapsule c.name f.2.length (fileDigest C f.2) createdAt) ∨
    (lastFound cfg files c.name = none ∧ c ∈ idx) := by
  have he := entryFor_rebuilt C cfg modTime idx files c.name
  rw [mem_rebuild.mp h] at he
  cases hl : lastFound cfg files c.name with
  | some f =>
    rw [hl] at he
    obtain ⟨createdAt, he⟩ := he
    exact .inl ⟨f, createdAt, rfl, Option.some.inj he⟩
  | none =>
    rw [hl] at he
    obtain ⟨row, hrow, -, rfl⟩ := WriteLog.last_mem _ _ (Eq.symm he)
    exact .inr ⟨rfl, hrow⟩

theorem rebuild_unique {modTime : Path → String} {idx : List Capsule} {files : Files}
    {c d : Capsule} (hc : c ∈ rebuild C cfg modTime idx files)
    (hd : d ∈ rebuild C cfg modTime idx files) (h : c.name = d.name) : c = d := by
  have hc := mem_rebuild.mp hc
  rw [h, mem_rebuild.mp hd] at hc
  exact (Option.some.inj hc).symm

theorem stale_mem_rebuild (modTime : Path → String) {idx : List Capsule} {files : Files}
    {row : Capsule} (hrow : row ∈ idx) (h : lastFound cfg files row.name = none) :
    ∃ c ∈ rebuild C cfg modTime idx files, c.name = row.name := by
  have he := entryFor_rebuilt C cfg modTime idx files row.name
  rw [h] at he
  cases hl : WriteLog.last Capsule.name id idx row.name with
  | none => exact absurd rfl ((WriteLog.last_eq_none _ _).mp hl row hrow)
  | some c =>
    obtain ⟨_, -, hname, rfl⟩ := WriteLog.last_mem _ _ hl
    rw [hl, ← hname] at he
    exact ⟨_, mem_rebuild.mpr he, hname⟩

def SameArtifacts (cfg : Config) (files files' : Files) : Prop :=
  ∀ name, ext name = ".qcap" →
    files'.lookup (cfg.artifactPath name) = files.lookup (cfg.artifactPath name)

theorem artifact_eq_some {urlPath : String} {files : Files} {bytes : Bytes} :
    artifact cfg urlPath files = some bytes ↔ ∃ name, requestedName urlPath = some name ∧
      files.lookup (cfg.artifactPath name) = some bytes :=
  Option.bind_eq_some_iff

theorem requestedName_ext {urlPath name : String} (h : requestedName urlPath = some name) :
    ext name = ".qcap" := by
  obtain ⟨_, -, -, -, hext⟩ := requestedName_eq.mp h
  exact hext

section

variable {modTime : Path → String} {idx : List Capsule} {files files' : Files}

theorem Reloadable.entry (h : Reloadable C cfg idx files) {c : Capsule}
    (hc : c ∈ rebuild C cfg modTime idx files) : requestedName c.path = some c.name ∧
      ∃ f, lastFound cfg files c.name = some f ∧ c.size = f.2.length ∧
        c.digest = fileDigest C f.2 := by
  rcases rebuild_cases hc with ⟨f, createdAt, hl, he⟩ | ⟨hl, hrow⟩
  · obtain ⟨hf, hname⟩ := lastFound_mem hl
    obtain ⟨-, -, hext⟩ := mem_found.mp hf
    have hreq := h.requestable f hf
    rw [hname] at hext hreq
    refine ⟨?_, f, hl, ?_, ?_⟩
    · rw [he]
      exact (requestedName_artifact hext).mpr hreq
    · rw [he]
      rfl
    · rw [he]
      rfl
  · obtain ⟨f, hf, hname⟩ := h.current c hrow
    exact absurd hname ((WriteLog.last_eq_none _ _).mp hl f hf)

theorem Reloadable.lists (h : Reloadable C cfg idx files) (hs : SameArtifacts cfg files files') :
    ListsDownloads C cfg ⟨files', rebuild C cfg modTime idx files⟩ where
  served c hc := by
    obtain ⟨hreq, f, hl, hsize, hdigest⟩ := h.entry hc
    obtain ⟨bytes, hb, hlen, hd⟩ := h.copied _ f hl
    refine ⟨bytes, artifact_eq_some.mpr ⟨_, hreq, ?_⟩, (congrArg Nat.cast hlen).trans hsize.symm,
      hd.trans hdigest.symm⟩
    exact (hs _ (requestedName_ext hreq)).trans hb
  listed urlPath name hreq hmem := by
    obtain ⟨bytes, hb⟩ := AList.lookup_isSome.mpr hmem |> Option.isSome_iff_exists.mp
    have hext := requestedName_ext hreq
    rw [hs name hext] at hb
    obtain ⟨f, hl⟩ := lastFound_isSome (found_artifact hext hb)
    rw [Config.artifactPath, base_append] at hl
    obtain ⟨createdAt, hentry⟩ := entry_of_lastFound (C := C) modTime idx hl
    refine ⟨_, ⟨hentry, requestedName_self hreq⟩, ?_⟩
    rintro c ⟨hc, hcname⟩
    obtain ⟨hown, -⟩ := h.entry hc
    exact rebuild_unique hc hentry (Option.some.inj (hown.symm.trans hcname))

/-- A store without directories of artifacts, like the ones that `publish` makes. -/
theorem reloadable_of_flat (hrows : ∀ row ∈ idx, ∃ f ∈ found cfg files, base f.1 = row.name)
    (hflat : ∀ f ∈ found cfg files, f.1 = cfg.artifactPath (base f.1))
    (hnames : ∀ f ∈ found cfg files, safeArtifactName (base f.1) = base f.1) :
    Reloadable C cfg idx files where
  current := hrows
  requestable := hnames
  copied name f hl := by
    obtain ⟨hf, hname⟩ := lastFound_mem hl
    obtain ⟨hlookup, -⟩ := mem_walk.mp (mem_found.mp hf).1
    rw [hflat f hf, hname] at hlookup
    exact ⟨f.2, hlookup, rfl, rfl⟩

/-- If the downloads are listed exactly, each entry is under the name that it is asked for by,
and a file has that name. -/
theorem ListsDownloads.entry (hs : SameArtifacts cfg files files')
    (h : ListsDownloads C cfg ⟨files', rebuild C cfg modTime idx files⟩) {c : Capsule}
    (hc : c ∈ rebuild C cfg modTime idx files) : requestedName c.path = some c.name ∧
      ∃ f, lastFound cfg files c.name = some f := by
  obtain ⟨bytes, hserved, -, -⟩ := h.served c hc
  obtain ⟨name, hreq, hb⟩ := artifact_eq_some.mp hserved
  have hext := requestedName_ext hreq
  have hmem : cfg.artifactPath name ∈ files' := AList.lookup_isSome.mp (by rw [hb]; rfl)
  rw [hs name hext] at hb
  obtain ⟨f, hl⟩ := lastFound_isSome (found_artifact hext hb)
  rw [Config.artifactPath, base_append] at hl
  obtain ⟨createdAt, hentry⟩ := entry_of_lastFound (C := C) modTime idx hl
  have hown := (h.listed c.path name hreq hmem).unique ⟨hc, hreq⟩
    ⟨hentry, requestedName_self hreq⟩
  have hname : c.name = name := congrArg Capsule.name hown
  exact ⟨hname ▸ hreq, f, hname ▸ hl⟩

theorem ListsDownloads.reloadable (hs : SameArtifacts cfg files files')
    (h : ListsDownloads C cfg ⟨files', rebuild C cfg modTime idx files⟩) :
    Reloadable C cfg idx files where
  current row hrow := by
    cases hl : lastFound cfg files row.name with
    | some f => exact ⟨f, lastFound_mem hl⟩
    | none =>
      obtain ⟨c, hc, hname⟩ := stale_mem_rebuild (C := C) modTime hrow hl
      obtain ⟨-, f, hf⟩ := h.entry hs hc
      rw [hname, hl] at hf
      cases hf
  requestable f hf := by
    obtain ⟨g, hl⟩ := lastFound_isSome hf
    obtain ⟨createdAt, hentry⟩ := entry_of_lastFound (C := C) modTime idx hl
    obtain ⟨-, -, hext⟩ := mem_found.mp hf
    exact (requestedName_artifact hext).mp (h.entry hs hentry).1
  copied name f hl := by
    obtain ⟨createdAt, hentry⟩ := entry_of_lastFound (C := C) modTime idx hl
    obtain ⟨bytes, hserved, hlen, hd⟩ := h.served _ hentry
    obtain ⟨other, hreq, hb⟩ := artifact_eq_some.mp hserved
    cases (h.entry hs hentry).1.symm.trans hreq
    exact ⟨bytes, (hs _ (requestedName_ext hreq)).symm.trans hb, Nat.cast_inj.mp hlen, hd⟩

end

theorem loadIndexLocked_ok (numbers : Numbers) (modTime : Path → String) {reg : Registry}
    {idx : List Capsule} (hidx : readIndex X cfg reg.files = .ok idx) :
    ∃ files', loadIndexLocked C X cfg numbers modTime reg =
        (.ok (), ⟨files', rebuild C cfg modTime idx reg.files⟩) ∧
      SameArtifacts cfg reg.files files' := by
  obtain ⟨files', hsave, hl⟩ := saveIndexLocked_none X cfg numbers
    (rebuild C cfg modTime idx reg.files) reg.files
  refine ⟨files', by simp only [loadIndexLocked, hidx, hsave], fun name hext => ?_⟩
  have hne : cfg.artifactPath name ≠ cfg.indexPath := (cfg.index_not_artifact name hext).symm
  rw [hl, if_neg hne, if_neg (artifactPath_ne_indexTemp hext numbers)]

/-- Over a readable index file the reload succeeds, and then the index lists exactly the
downloads if no row is stale, each name can be asked for, and what is found last under a name
is in the store directory too. -/
theorem reload_lists_downloads_iff (numbers : Numbers) (modTime : Path → String)
    (reg : Registry) {idx : List Capsule} (hidx : readIndex X cfg reg.files = .ok idx) :
    ∃ reg', loadIndexLocked C X cfg numbers modTime reg = (.ok (), reg') ∧
      (ListsDownloads C cfg reg' ↔ Reloadable C cfg idx reg.files) := by
  obtain ⟨files', hload, hs⟩ := loadIndexLocked_ok numbers modTime hidx
  exact ⟨_, hload, fun h => h.reloadable hs, fun h => h.lists hs⟩

def oneFile (path : Path) : Registry := ⟨(∅ : Files).insert path [1], []⟩

theorem oneFile_found {path : Path} {f : Path × Bytes}
    (h : f ∈ found sampleConfig (oneFile path).files) : f.1 = path := by
  obtain ⟨hl, -⟩ := mem_walk.mp (mem_found.mp h).1
  by_contra hne
  rw [oneFile, AList.lookup_insert_ne hne, AList.lookup_empty] at hl
  cases hl

theorem oneFile_index {path : Path} (h : path ≠ sampleConfig.indexPath) :
    readIndex (goIndexCodec false) sampleConfig (oneFile path).files = .ok [] := by
  rw [readIndex, oneFile, AList.lookup_insert_ne h.symm, AList.lookup_empty]

theorem alpha_reload_lists : ∃ reg', loadIndexLocked toy (goIndexCodec false) sampleConfig ⟨0, 0⟩
      (fun _ => "2024-01-01T00:00:00Z") (oneFile ["data", "alpha.qcap"]) = (.ok (), reg') ∧
    ListsDownloads toy sampleConfig reg' := by
  obtain ⟨reg', hload, hiff⟩ := reload_lists_downloads_iff (C := toy) ⟨0, 0⟩
    (fun _ => "2024-01-01T00:00:00Z") (oneFile ["data", "alpha.qcap"]) (oneFile_index (by decide))
  refine ⟨reg', hload, hiff.mpr (reloadable_of_flat (by simp) ?_ ?_)⟩
  · intro f hf
    rw [oneFile_found hf]
    decide
  · intro f hf
    rw [oneFile_found hf]
    decide

/-- A file below a directory of the store is listed, at a path that is not served. -/
theorem nested_listed_unserved : ∃ reg',
    loadIndexLocked toy (goIndexCodec false) sampleConfig ⟨0, 0⟩
      (fun _ => "2024-01-01T00:00:00Z") (oneFile ["data", "old", "alpha.qcap"]) = (.ok (), reg') ∧
    (∃ c ∈ reg'.index, artifact sampleConfig c.path reg'.files = none) ∧
      ¬ ListsDownloads toy sampleConfig reg' := by
  let path := ["data", "old", "alpha.qcap"]
  let modTime := fun _ : Path => "2024-01-01T00:00:00Z"
  obtain ⟨files', hload, hs⟩ := loadIndexLocked_ok (C := toy) ⟨0, 0⟩ modTime
    (oneFile_index (show path ≠ sampleConfig.indexPath by decide))
  have hfound : (path, [1]) ∈ found sampleConfig (oneFile path).files :=
    mem_found.mpr ⟨mem_walk.mpr ⟨AList.lookup_insert _, by decide⟩, by decide, by decide⟩
  obtain ⟨f, hl⟩ := lastFound_isSome hfound
  obtain ⟨createdAt, hentry⟩ := entry_of_lastFound (C := toy) modTime [] hl
  have hreq : requestedName ("/artifacts/" ++ base path) = some "alpha.qcap" := by decide
  have hnone : artifact sampleConfig ("/artifacts/" ++ base path) files' = none := by
    have hroot : sampleConfig.artifactPath "alpha.qcap" ≠ path := by decide
    rw [artifact, hreq]
    apply (hs "alpha.qcap" (by decide)).trans
    rw [oneFile, AList.lookup_insert_ne hroot, AList.lookup_empty]
  refine ⟨_, hload, ⟨_, hentry, hnone⟩, fun h => ?_⟩
  obtain ⟨bytes, hserved, -⟩ := h.served _ hentry
  cases hnone.symm.trans hserved

end QCap.IndexReload
