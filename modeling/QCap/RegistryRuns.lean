import QCap.RegistryPublish
import QCap.WriteLog

/-!
# Runs of the registry

Publish requests run concurrently. Each is a sequence of steps, and only the last one, the
commit, holds the lock; reloads and restarts come in between. In every reachable state the
index in memory, the index file and the stored artifacts say the same as the log of all
commits.
-/
namespace QCap.RegistryRuns

open QCap.Text QCap.Crypto QCap.RegistryArchive QCap.RegistryFiles QCap.RegistryIndex
open QCap.RegistryPublish QCap.GoDocuments QCap.IndexJson

variable (C : Primitives) (G : GoLib) (X : IndexCodec) (cfg : Config)

inductive Dest where
  | artifact (name : String)
  | revocations (issuer : String)

def destination : Target → Option Dest
  | .artifact rawName => (artifactName rawName).map .artifact
  | .revocations urlPath =>
    if revocationIssuerFromPath urlPath = "" then none
    else some (.revocations (revocationIssuerFromPath urlPath))

def Dest.maxBytes : Dest → ℕ
  | .artifact _ => maxArtifactBytes
  | .revocations _ => maxRevocationBytes

/-- The local variables of a request at the points where others may run. -/
inductive Phase where
  | staged (written : ℕ)
  | validated (written : ℕ)
  | digested (written : ℕ) (digest now : String)
  | finished

structure Job where
  dest : Dest
  number : ℕ
  phase : Phase

structure Commit where
  name : String
  bytes : Bytes
  createdAt : String

/-- The registry, the requests in progress and the log of the commits. No step reads the log. -/
structure System where
  reg : Registry
  jobs : ℕ → Option Job
  log : List Commit

inductive Event where
  | stage (id number : ℕ) (authorization : String) (target : Target) (body : Bytes)
  | validate (id : ℕ)
  | digest (id : ℕ) (now : String)
  | commit (id : ℕ) (numbers : CommitNumbers)
  | finish (id : ℕ)
  | reload (numbers : Numbers) (modTime : Path → String)
  | abortedReload
  | restart (numbers : Numbers) (modTime : Path → String)

/-- `os.CreateTemp` finds a name that does not exist, and not one that a request in progress
has used. The clock never reads as the empty text. -/
def Enabled (s : System) : Event → Prop
  | .stage id number _ _ _ =>
    s.jobs id = none ∧ s.reg.files.lookup (cfg.uploadPath number) = none ∧
      ∀ id' job, s.jobs id' = some job → job.number ≠ number
  | .digest _ now => now ≠ ""
  | _ => True

def System.setJob (s : System) (id : ℕ) (job : Job) : System :=
  { s with jobs := Function.update s.jobs id (some job) }

def stageJob (s : System) (id number : ℕ) (dest : Dest) (body : Bytes) : System :=
  match stageUpload StageFaults.none (cfg.uploadPath number) body dest.maxBytes s.reg.files with
  | (.error _, files) => { s with reg := ⟨files, s.reg.index⟩ }
  | (.ok written, files) =>
    { s with reg := ⟨files, s.reg.index⟩ }.setJob id ⟨dest, number, .staged written⟩

def validateJob (dest : Dest) (temp : Path) (files : Files) : GoResult Unit :=
  match dest with
  | .artifact _ => validateUpload C G none temp files
  | .revocations issuer =>
    readFile none temp files >>= fun document => validateRevocationList C G document issuer

def commitJob (s : System) (id number written : ℕ) (digest now : String)
    (numbers : CommitNumbers) (dest : Dest) : System :=
  let temp := cfg.uploadPath number
  let s' := s.setJob id ⟨dest, number, .finished⟩
  match dest with
  | .artifact name =>
    match commitArtifact X cfg CommitFaults.none numbers temp (cfg.artifactPath name)
        (artifactCapsule name written digest now) s.reg with
    | (.error _, reg) => { s' with reg := reg }
    | (.ok (), reg) =>
      { s' with
        reg := reg
        log := s.log ++ [⟨name, (s.reg.files.lookup temp).getD [], now⟩] }
  | .revocations issuer =>
    { s' with reg := ⟨(replaceFile ReplaceFaults.none numbers.nanos temp
        (cfg.revocationPath issuer) s.reg.files).2, s.reg.index⟩ }

/-- One step of one request, or of the process. A walk that meets a file that just vanished
stops before anything changes. A restart forgets the requests and the index in memory, not the
files. -/
def next (s : System) : Event → System
  | .stage id number authorization target body =>
    if authorized cfg authorization = true then
      match destination target with
      | none => s
      | some dest => stageJob cfg s id number dest body
    else s
  | .validate id =>
    match s.jobs id with
    | some ⟨dest, number, .staged written⟩ =>
      match validateJob C G dest (cfg.uploadPath number) s.reg.files with
      | .error _ => s.setJob id ⟨dest, number, .finished⟩
      | .ok () => s.setJob id ⟨dest, number, .validated written⟩
    | _ => s
  | .digest id now =>
    match s.jobs id with
    | some ⟨dest, number, .validated written⟩ =>
      match digestUpload C none (cfg.uploadPath number) s.reg.files with
      | .error _ => s.setJob id ⟨dest, number, .finished⟩
      | .ok digest => s.setJob id ⟨dest, number, .digested written digest now⟩
    | _ => s
  | .commit id numbers =>
    match s.jobs id with
    | some ⟨dest, number, .digested written digest now⟩ =>
      commitJob X cfg s id number written digest now numbers dest
    | _ => s
  | .finish id =>
    match s.jobs id with
    | some ⟨_, number, .finished⟩ =>
      { s with
        reg := ⟨removeQuietly none (cfg.uploadPath number) s.reg.files, s.reg.index⟩
        jobs := Function.update s.jobs id none }
    | _ => s
  | .reload numbers modTime =>
    { s with reg := (loadIndexLocked C X cfg numbers modTime s.reg).2 }
  | .abortedReload => s
  | .restart numbers modTime =>
    { s with
      reg := (loadIndexLocked C X cfg numbers modTime ⟨s.reg.files, []⟩).2
      jobs := fun _ => none }

def start (files : Files) (numbers : Numbers) (modTime : Path → String) : System :=
  ⟨(loadIndexLocked C X cfg numbers modTime ⟨files, []⟩).2, fun _ => none, []⟩

inductive Reachable : System → Prop where
  | start (files : Files) (numbers : Numbers) (modTime : Path → String) :
    (∀ p, cfg.storeDir <+: p → files.lookup p = none) →
      Reachable (start C X cfg files numbers modTime)
  | step {s : System} (e : Event) :
    Reachable s → Enabled cfg s e → Reachable (next C G X cfg s e)

def lastBytes (log : List Commit) (name : String) : Option Bytes :=
  WriteLog.last Commit.name Commit.bytes log name

def firstCreatedAt (log : List Commit) (name : String) : Option String :=
  (log.find? fun c => c.name = name).map Commit.createdAt

def EntryOf (log : List Commit) (entry : Capsule) : Prop :=
  ∃ bytes createdAt, lastBytes log entry.name = some bytes ∧
    firstCreatedAt log entry.name = some createdAt ∧
    entry = artifactCapsule entry.name bytes.length (fileDigest C bytes) createdAt

structure Committed (c : Commit) : Prop where
  named : ext c.name = ".qcap"
  size : c.bytes.length ≤ maxArtifactBytes
  created : c.createdAt ≠ ""
  valid : validateQcapArchive C G (G.openReader c.bytes) = .ok ()

theorem lastBytes_snoc (log : List Commit) (c : Commit) (name : String) :
    lastBytes (log ++ [c]) name = if c.name = name then some c.bytes else lastBytes log name :=
  WriteLog.last_snoc Commit.name Commit.bytes log c name

theorem firstCreatedAt_snoc (log : List Commit) (c : Commit) (name : String) :
    firstCreatedAt (log ++ [c]) name =
      (firstCreatedAt log name).or (if c.name = name then some c.createdAt else none) := by
  unfold firstCreatedAt
  rw [List.find?_append]
  cases log.find? fun c => c.name = name with
  | some d => rfl
  | none => by_cases h : c.name = name <;> simp [h]

theorem lastBytes_mem {log : List Commit} {name : String} {bytes : Bytes}
    (h : lastBytes log name = some bytes) : ∃ c ∈ log, c.name = name ∧ c.bytes = bytes :=
  WriteLog.last_mem Commit.name Commit.bytes h

theorem firstCreatedAt_mem {log : List Commit} {name createdAt : String}
    (h : firstCreatedAt log name = some createdAt) :
    ∃ c ∈ log, c.name = name ∧ c.createdAt = createdAt := by
  obtain ⟨c, hc, rfl⟩ := Option.map_eq_some_iff.mp h
  exact ⟨c, List.mem_of_find?_eq_some hc, by simpa using List.find?_some hc, rfl⟩

theorem firstCreatedAt_of_lastBytes {log : List Commit} {name : String} {bytes : Bytes}
    (h : lastBytes log name = some bytes) :
    ∃ createdAt, firstCreatedAt log name = some createdAt := by
  obtain ⟨c, hc, hn, -⟩ := lastBytes_mem h
  have hs : (log.find? fun c => c.name = name).isSome = true :=
    List.find?_isSome.mpr ⟨c, hc, decide_eq_true hn⟩
  obtain ⟨d, hd⟩ := Option.isSome_iff_exists.mp hs
  exact ⟨d.createdAt, by rw [firstCreatedAt, hd]; rfl⟩

theorem firstCreatedAt_none {log : List Commit} {name : String} (h : lastBytes log name = none) :
    firstCreatedAt log name = none := by
  have hn := (WriteLog.last_eq_none Commit.name Commit.bytes).mp h
  rw [firstCreatedAt, List.find?_eq_none.mpr (by simpa using hn)]
  rfl

theorem EntryOf.listed {log : List Commit} {name : String} {bytes : Bytes}
    (h : lastBytes log name = some bytes) : ∃ entry, EntryOf C log entry ∧ entry.name = name := by
  obtain ⟨createdAt, hc⟩ := firstCreatedAt_of_lastBytes h
  exact ⟨artifactCapsule name bytes.length (fileDigest C bytes) createdAt,
    ⟨bytes, createdAt, h, hc, rfl⟩, rfl⟩

theorem entryOf_snoc_ne {log : List Commit} {c : Commit} {e : Capsule} (h : e.name ≠ c.name) :
    EntryOf C (log ++ [c]) e ↔ EntryOf C log e := by
  simp only [EntryOf, lastBytes_snoc, firstCreatedAt_snoc, if_neg (Ne.symm h), Option.or_none]

theorem entryOf_snoc_self {log : List Commit} {c : Commit} {e : Capsule} (h : e.name = c.name) :
    EntryOf C (log ++ [c]) e ↔ e = artifactCapsule c.name c.bytes.length (fileDigest C c.bytes)
      ((firstCreatedAt log c.name).getD c.createdAt) := by
  simp only [EntryOf, lastBytes_snoc, firstCreatedAt_snoc, h, if_true]
  constructor
  · rintro ⟨bytes, createdAt, hb, hc, he⟩
    cases hb
    cases hf : firstCreatedAt log c.name <;> rw [hf] at hc <;> cases hc <;> exact he
  · intro he
    refine ⟨c.bytes, _, rfl, ?_, he⟩
    cases firstCreatedAt log c.name <;> rfl

theorem mem_upsert_iff {log : List Commit} {index : List Capsule} {c : Commit}
    (hs : SortedIndex.Sorted Capsule.name index) (hi : ∀ e, e ∈ index ↔ EntryOf C log e)
    (hc : ∀ d ∈ log, d.createdAt ≠ "") (e : Capsule) :
    e ∈ SortedIndex.upsert Capsule.name keepCreatedAt
        (artifactCapsule c.name c.bytes.length (fileDigest C c.bytes) c.createdAt) index ↔
      EntryOf C (log ++ [c]) e := by
  rw [SortedIndex.mem_upsert Capsule.name keepCreatedAt hs]
  set capsule := artifactCapsule c.name c.bytes.length (fileDigest C c.bytes) c.createdAt
  by_cases hn : e.name = c.name
  · rw [entryOf_snoc_self C hn]
    cases hb : lastBytes log c.name with
    | none =>
      have hnone : ∀ b ∈ index, b.name ≠ capsule.name := by
        intro b hm h
        obtain ⟨bytes, -, hl, -⟩ := (hi b).mp hm
        rw [h] at hl
        cases hl.symm.trans hb
      rw [firstCreatedAt_none hb]
      constructor
      · rintro (⟨-, h⟩ | ⟨b, hm, h, -⟩ | ⟨-, h⟩)
        · exact absurd hn h
        · exact absurd h (hnone b hm)
        · exact h
      · exact fun h => Or.inr (Or.inr ⟨hnone, h⟩)
    | some bytes =>
      obtain ⟨b, hbe, hbn⟩ := EntryOf.listed C hb
      have hm := (hi b).mpr hbe
      obtain ⟨bytes', createdAt, -, hcr, hb'⟩ := hbe
      rw [hbn] at hcr
      have hcreated : b.createdAt = createdAt := by rw [hb']; rfl
      have hne : b.createdAt ≠ "" := by
        obtain ⟨d, hd, -, hdc⟩ := firstCreatedAt_mem hcr
        rw [hcreated, ← hdc]
        exact hc d hd
      have hkeep : keepCreatedAt b capsule = artifactCapsule c.name c.bytes.length
          (fileDigest C c.bytes) createdAt := by
        rw [keepCreatedAt, if_pos hne, hcreated]
        rfl
      rw [hcr]
      constructor
      · rintro (⟨-, h⟩ | ⟨b', hm', h, he⟩ | ⟨h, -⟩)
        · exact absurd hn h
        · rw [hs.key_injective Capsule.name hm' hm (h.trans hbn.symm)] at he
          exact he.trans hkeep
        · exact absurd hbn (h b hm)
      · exact fun h => Or.inr (Or.inl ⟨b, hm, hbn, h.trans hkeep.symm⟩)
  · rw [entryOf_snoc_ne C hn, ← hi]
    constructor
    · rintro (⟨h, -⟩ | ⟨b, -, -, rfl⟩ | ⟨-, rfl⟩)
      · exact h
      · exact absurd (keepCreatedAt_name b capsule) hn
      · exact absurd rfl hn
    · exact fun h => Or.inl ⟨h, hn⟩

/-- The registry says what the log says. -/
structure Coherent (log : List Commit) (reg : Registry) : Prop where
  committed : ∀ c ∈ log, Committed C G c
  sorted : SortedIndex.Sorted Capsule.name reg.index
  index : ∀ e, e ∈ reg.index ↔ EntryOf C log e
  stored : ∀ name, ext name = ".qcap" →
    reg.files.lookup (cfg.artifactPath name) = lastBytes log name
  below : ∀ p bytes, reg.files.lookup p = some bytes → cfg.storeDir <+: p →
    ext (base p) = ".qcap" → p = cfg.artifactPath (base p)
  persisted : reg.files.lookup cfg.indexPath = some (indexBytes X reg.index)

variable {C G X cfg} {log : List Commit} {reg reg' : Registry}

theorem Coherent.frame (h : Coherent C G X cfg log reg) (hi : reg'.index = reg.index)
    (hf : ∀ p, ext (base p) = ".qcap" ∨ p = cfg.indexPath →
      reg'.files.lookup p = reg.files.lookup p) : Coherent C G X cfg log reg' where
  committed := h.committed
  sorted := hi ▸ h.sorted
  index := hi ▸ h.index
  stored name hn := by
    rw [hf _ (Or.inl (by rw [Config.artifactPath, base_append, hn]))]
    exact h.stored name hn
  below p bytes hp hs he := h.below p bytes ((hf p (Or.inl he)).symm.trans hp) hs he
  persisted := by
    rw [hf _ (Or.inr rfl), hi]
    exact h.persisted

theorem Coherent.size (h : Coherent C G X cfg log reg) : ∀ c ∈ reg.index, IsInt64 c.size := by
  intro e he
  obtain ⟨bytes, createdAt, hb, -, heq⟩ := (h.index e).mp he
  obtain ⟨c, hc, -, rfl⟩ := lastBytes_mem hb
  have hmax : maxArtifactBytes < 2 ^ 63 := by decide
  rw [heq]
  have hlength : c.bytes.length < 2 ^ 63 := Nat.lt_of_le_of_lt (h.committed c hc).size hmax
  unfold IsInt64 artifactCapsule
  dsimp only
  omega

theorem Coherent.readIndex (hX : X.ReadsBack) (h : Coherent C G X cfg log reg) :
    readIndex X cfg reg.files = .ok reg.index := by
  have hread := hX reg.index h.size
  unfold RegistryIndex.readIndex
  rw [h.persisted, indexBytes]
  cases hb : X.marshalIndent reg.index with
  | nil =>
    rw [hb] at hread
    exact hread
  | cons b bs =>
    rw [hb] at hread
    exact hread

theorem lookup_oldEntries (idx : List Capsule) (name : String) :
    (oldEntries idx).lookup name = WriteLog.last Capsule.name id idx name := by
  have hfold : ∀ (idx : List Capsule) (m : AList fun _ : String => Capsule),
      (idx.foldl (fun byName capsule => byName.insert capsule.name capsule) m).lookup name =
        (WriteLog.last Capsule.name id idx name).or (m.lookup name) := by
    intro idx
    induction idx with
    | nil => intro m; rfl
    | cons c idx ih =>
      intro m
      rw [List.foldl_cons, ih, WriteLog.last]
      cases WriteLog.last Capsule.name id idx name with
      | some d => rfl
      | none =>
        by_cases hc : c.name = name
        · subst hc
          simp
        · simp [hc, AList.lookup_insert_ne (Ne.symm hc)]
  rw [oldEntries, hfold]
  simp

theorem lookup_oldEntries_iff {idx : List Capsule} (hs : SortedIndex.Sorted Capsule.name idx)
    {name : String} {c : Capsule} :
    (oldEntries idx).lookup name = some c ↔ c ∈ idx ∧ c.name = name := by
  rw [lookup_oldEntries]
  constructor
  · intro h
    obtain ⟨d, hd, hn, rfl⟩ := WriteLog.last_mem Capsule.name id h
    exact ⟨hd, hn⟩
  · rintro ⟨hc, rfl⟩
    exact WriteLog.last_of_nodup Capsule.name id (hs.nodup_keys Capsule.name) hc

def Recorded (C : Primitives) (byName : AList fun _ : String => Capsule) (file : Path × Bytes) :
    Prop :=
  ∃ createdAt, createdAt ≠ "" ∧ byName.lookup (base file.1) =
    some (artifactCapsule (base file.1) file.2.length (fileDigest C file.2) createdAt)

theorem lookup_visit {modTime : Path → String} {byName : AList fun _ : String => Capsule}
    {file : Path × Bytes} (h : ext (base file.1) = ".qcap" → Recorded C byName file)
    (name : String) : (visit C cfg modTime byName file).lookup name = byName.lookup name := by
  unfold visit
  split
  · rfl
  · rename_i hv
    obtain ⟨createdAt, hne, hl⟩ := h (by_contra fun he => hv (Or.inr he))
    dsimp only
    rw [hl]
    by_cases hn : name = base file.1
    · rw [hn, AList.lookup_insert, hl]
      simp [artifactCapsule, hne]
    · exact AList.lookup_insert_ne hn

theorem lookup_foldl_visit {modTime : Path → String} {files : List (Path × Bytes)}
    {byName : AList fun _ : String => Capsule}
    (h : ∀ f ∈ files, ext (base f.1) = ".qcap" → Recorded C byName f) (name : String) :
    (files.foldl (visit C cfg modTime) byName).lookup name = byName.lookup name := by
  induction files generalizing byName with
  | nil => rfl
  | cons f files ih =>
    have hv : ∀ name, (visit C cfg modTime byName f).lookup name = byName.lookup name :=
      lookup_visit (h f List.mem_cons_self)
    rw [List.foldl_cons, ih, hv]
    intro g hg he
    obtain ⟨createdAt, hne, hl⟩ := h g (List.mem_cons_of_mem _ hg) he
    exact ⟨createdAt, hne, (hv _).trans hl⟩

theorem mem_walk {files : Files} {f : Path × Bytes} :
    f ∈ walk cfg files ↔ files.lookup f.1 = some f.2 ∧ cfg.storeDir <+: f.1 := by
  simp only [walk, List.mem_mergeSort, List.mem_filter, List.mem_map,
    List.isPrefixOf_iff_prefix]
  constructor
  · rintro ⟨⟨e, he, rfl⟩, hp⟩
    exact ⟨AList.mem_lookup_iff.mpr he, hp⟩
  · rintro ⟨hl, hp⟩
    exact ⟨⟨⟨f.1, f.2⟩, AList.mem_lookup_iff.mp hl, rfl⟩, hp⟩

theorem Coherent.recorded (h : Coherent C G X cfg log reg) {f : Path × Bytes}
    (hf : f ∈ walk cfg reg.files) (he : ext (base f.1) = ".qcap") :
    Recorded C (oldEntries reg.index) f := by
  obtain ⟨hl, hp⟩ := mem_walk.mp hf
  rw [h.below f.1 f.2 hl hp he, h.stored _ he] at hl
  obtain ⟨entry, hentry, hn⟩ := EntryOf.listed C hl
  have hmem := (lookup_oldEntries_iff h.sorted).mpr ⟨(h.index entry).mpr hentry, hn⟩
  obtain ⟨bytes, createdAt, hb, hc, heq⟩ := hentry
  rw [hn] at hb hc heq
  cases hb.symm.trans hl
  obtain ⟨c, hcm, -, rfl⟩ := firstCreatedAt_mem hc
  exact ⟨c.createdAt, (h.committed c hcm).created, heq ▸ hmem⟩

theorem Coherent.rebuild (h : Coherent C G X cfg log reg) (modTime : Path → String) :
    rebuild C cfg modTime reg.index reg.files = reg.index := by
  have hl : ∀ name, ((walk cfg reg.files).foldl (visit C cfg modTime)
      (oldEntries reg.index)).lookup name = (oldEntries reg.index).lookup name :=
    lookup_foldl_visit fun f hf => h.recorded hf
  have hk : ∀ name c, ((walk cfg reg.files).foldl (visit C cfg modTime)
      (oldEntries reg.index)).lookup name = some c → c.name = name := fun name c hc =>
    ((lookup_oldEntries_iff h.sorted).mp ((hl name).symm.trans hc)).2
  refine SortedIndex.Sorted.ext Capsule.name (SortedIndex.sorted_ofMap Capsule.name hk) h.sorted
    fun c => ?_
  rw [RegistryIndex.rebuild, SortedIndex.mem_ofMap Capsule.name hk, hl,
    lookup_oldEntries_iff h.sorted]
  exact and_iff_left rfl

/-- A reload, of a registry that has forgotten its index or not. -/
theorem Coherent.load (hX : X.ReadsBack) (h : Coherent C G X cfg log reg) (numbers : Numbers)
    (modTime : Path → String) (index : List Capsule) :
    ∃ files, loadIndexLocked C X cfg numbers modTime ⟨reg.files, index⟩ =
        (.ok (), ⟨files, reg.index⟩) ∧
      ∀ q, files.lookup q = if q = cfg.indexTemp numbers then none else reg.files.lookup q := by
  obtain ⟨files, hs, hl⟩ := saveIndexLocked_none X cfg numbers reg.index reg.files
  refine ⟨files, ?_, fun q => ?_⟩
  · simp only [loadIndexLocked, h.readIndex hX, h.rebuild modTime, hs]
  · rw [hl]
    by_cases hq : q = cfg.indexPath
    · rw [hq, if_pos rfl, if_neg (indexTemp_ne_index cfg numbers).symm, h.persisted]
    · rw [if_neg hq]

theorem uploadPath_ne_indexTemp (n : ℕ) (numbers : Numbers) :
    cfg.uploadPath n ≠ cfg.indexTemp numbers := upload_ne_index

theorem uploadPath_injective {m n : ℕ} (h : cfg.uploadPath m = cfg.uploadPath n) : m = n := by
  have hb := congrArg base h
  simp only [Config.uploadPath, tempPath, base_append] at hb
  have hs : toString m = toString n := by
    have hl := congrArg String.toList hb
    rw [String.toList_append, String.toList_append] at hl
    exact String.toList_inj.mp (List.append_cancel_left hl)
  rw [Nat.toString_eq_repr, Nat.toString_eq_repr] at hs
  exact Nat.repr_injective hs

theorem artifactPath_ne_indexTemp {name : String} (hn : ext name = ".qcap") (numbers : Numbers) :
    cfg.artifactPath name ≠ cfg.indexTemp numbers := by
  apply (artifact_tracked hn).ne cfg
  rw [Config.indexTemp, tempPath, base_append]
  exact temporary_index _

theorem artifact_ne_index (hcfg : cfg.DefaultIndex) {p : Path} (h : ext (base p) = ".qcap") :
    p ≠ cfg.indexPath := by
  rintro rfl
  rw [hcfg, base_append] at h
  exact absurd h (by decide)

theorem Coherent.start (hcfg : cfg.DefaultIndex) {files : Files}
    (hf : ∀ p, cfg.storeDir <+: p → files.lookup p = none) (numbers : Numbers)
    (modTime : Path → String) :
    Coherent C G X cfg [] (loadIndexLocked C X cfg numbers modTime ⟨files, []⟩).2 := by
  have hread : RegistryIndex.readIndex X cfg files = .ok [] := by
    have hi : files.lookup cfg.indexPath = none := hf _ (hcfg ▸ List.prefix_append _ _)
    simp [RegistryIndex.readIndex, hi]
  have hwalk : walk cfg files = [] := by
    rw [List.eq_nil_iff_forall_not_mem]
    intro f h
    obtain ⟨hl, hp⟩ := mem_walk.mp h
    cases hl.symm.trans (hf f.1 hp)
  have hrebuild : RegistryIndex.rebuild C cfg modTime [] files = [] := by
    rw [RegistryIndex.rebuild, hwalk]
    simp [SortedIndex.ofMap, SortedIndex.sortByKey, oldEntries]
  obtain ⟨files', hs, hl⟩ := saveIndexLocked_none X cfg numbers [] files
  have hload : (loadIndexLocked C X cfg numbers modTime ⟨files, []⟩).2 = ⟨files', []⟩ := by
    simp only [loadIndexLocked, hread, hrebuild, hs]
  have hnone : ∀ p, cfg.storeDir <+: p → ext (base p) = ".qcap" → files'.lookup p = none := by
    intro p hp he
    rw [hl, if_neg (artifact_ne_index hcfg he)]
    split
    · rfl
    · exact hf p hp
  rw [hload]
  refine ⟨?_, List.Pairwise.nil, fun e => ?_, fun name hn => ?_, fun p bytes h hp he => ?_, ?_⟩
  · intro c hc
    cases hc
  · apply iff_of_false List.not_mem_nil
    rintro ⟨_, _, h, -⟩
    cases h
  · exact hnone _ (List.prefix_append _ _) (by rw [Config.artifactPath, base_append, hn])
  · cases h.symm.trans (hnone p hp he)
  · rw [hl, if_pos rfl]

theorem Coherent.empty (h : Coherent C G X cfg [] reg) : reg.index = [] := by
  rw [List.eq_nil_iff_forall_not_mem]
  intro e he
  obtain ⟨_, _, hb, -⟩ := (h.index e).mp he
  cases hb

theorem Coherent.commit (hcfg : cfg.DefaultIndex) (h : Coherent C G X cfg log reg) {number : ℕ}
    {c : Commit}
    (ht : reg.files.lookup (cfg.uploadPath number) = some c.bytes) (hc : Committed C G c)
    (numbers : CommitNumbers) :
    ∃ reg', commitArtifact X cfg CommitFaults.none numbers (cfg.uploadPath number)
        (cfg.artifactPath c.name)
        (artifactCapsule c.name c.bytes.length (fileDigest C c.bytes) c.createdAt) reg =
          (.ok (), reg') ∧
      Coherent C G X cfg (log ++ [c]) reg' ∧
      ∀ n, n ≠ number → reg'.files.lookup (cfg.uploadPath n) =
        reg.files.lookup (cfg.uploadPath n) := by
  obtain ⟨files', hcm, hl⟩ := commitArtifact_none X cfg numbers (cfg.artifactPath c.name)
    (artifactCapsule c.name c.bytes.length (fileDigest C c.bytes) c.createdAt) ht
  have hdest : Tracked cfg (cfg.artifactPath c.name) := artifact_tracked hc.named
  -- another artifact keeps its bytes
  have hother : ∀ p, ext (base p) = ".qcap" → p ≠ cfg.artifactPath c.name →
      files'.lookup p = reg.files.lookup p := by
    intro p he hp
    have htracked : Tracked cfg p := .artifact he
    have htemp : p ≠ cfg.indexTemp numbers.save := htracked.ne cfg (by
      rw [Config.indexTemp, tempPath, base_append]
      exact temporary_index _)
    rw [hl, if_neg (artifact_ne_index hcfg he), if_neg htemp, if_neg hp,
      if_neg (tracked_ne_upload htracked number)]
  have hself : files'.lookup (cfg.artifactPath c.name) = some c.bytes := by
    have hne : cfg.artifactPath c.name ≠ cfg.indexPath :=
      (cfg.index_not_artifact c.name hc.named).symm
    rw [hl, if_neg hne, if_neg (artifactPath_ne_indexTemp hc.named _), if_pos rfl]
  refine ⟨_, hcm, ⟨?_, ?_, ?_, ?_, ?_, ?_⟩, fun n hn => ?_⟩
  · intro d hd
    rcases List.mem_append.mp hd with hd | hd
    · exact h.committed d hd
    · exact List.mem_singleton.mp hd ▸ hc
  · exact SortedIndex.sorted_upsert Capsule.name keepCreatedAt keepCreatedAt_name h.sorted _
  · exact mem_upsert_iff C h.sorted h.index fun d hd => (h.committed d hd).created
  · intro name hn
    rw [lastBytes_snoc]
    by_cases heq : c.name = name
    · rw [if_pos heq, ← heq]
      exact hself
    · rw [if_neg heq, ← h.stored name hn]
      refine hother _ (by rw [Config.artifactPath, base_append, hn]) fun hp => heq ?_
      simpa [Config.artifactPath] using hp.symm
  · intro p bytes hp hs he
    by_cases hpc : p = cfg.artifactPath c.name
    · simp [hpc, Config.artifactPath]
    · exact h.below p bytes ((hother p he hpc).symm.trans hp) hs he
  · rw [hl, if_pos rfl]
  · have hi : cfg.uploadPath n ≠ cfg.indexPath := (tracked_ne_upload .index n).symm
    have hu : cfg.uploadPath n ≠ cfg.uploadPath number := fun h => hn (uploadPath_injective h)
    rw [hl, if_neg hi, if_neg (uploadPath_ne_indexTemp n _),
      if_neg (tracked_ne_upload hdest n).symm, if_neg hu]

variable (C G cfg)

def Dest.Accepts : Dest → Bytes → Prop
  | .artifact name, body =>
    ext name = ".qcap" ∧ validateQcapArchive C G (G.openReader body) = .ok ()
  | .revocations issuer, body => validateRevocationList C G body issuer = .ok ()

structure Uploaded (files : Files) (dest : Dest) (number written : ℕ) (body : Bytes) : Prop where
  temp : files.lookup (cfg.uploadPath number) = some body
  written : written = body.length
  size : body.length ≤ dest.maxBytes

/-- What a request has found out is true of its temporary file. -/
def Phase.Sound (files : Files) (dest : Dest) (number : ℕ) : Phase → Prop
  | .staged written => ∃ body, Uploaded cfg files dest number written body
  | .validated written =>
    ∃ body, Uploaded cfg files dest number written body ∧ dest.Accepts C G body
  | .digested written digest now =>
    ∃ body, Uploaded cfg files dest number written body ∧ dest.Accepts C G body ∧
      digest = fileDigest C body ∧ now ≠ ""
  | .finished => True

/-- What holds between two steps: the store follows the log, and the requests in progress have
temporary files of their own. -/
structure Invariant (X : IndexCodec) (s : System) : Prop where
  coherent : Coherent C G X cfg s.log s.reg
  named : ∀ id job name, s.jobs id = some job → job.dest = .artifact name → ext name = ".qcap"
  sound : ∀ id job, s.jobs id = some job →
    job.phase.Sound C G cfg s.reg.files job.dest job.number
  distinct : ∀ id id' job job', s.jobs id = some job → s.jobs id' = some job' →
    job.number = job'.number → id = id'

variable {C G cfg} {s s' : System}

theorem Phase.Sound.frame {files files' : Files} {dest : Dest} {number : ℕ} {phase : Phase}
    (h : phase.Sound C G cfg files dest number)
    (hf : files'.lookup (cfg.uploadPath number) = files.lookup (cfg.uploadPath number)) :
    phase.Sound C G cfg files' dest number := by
  have hu : ∀ {written body}, Uploaded cfg files dest number written body →
      Uploaded cfg files' dest number written body := fun h =>
    ⟨hf.trans h.temp, h.written, h.size⟩
  cases phase with
  | staged written =>
    obtain ⟨body, hb⟩ := h
    exact ⟨body, hu hb⟩
  | validated written =>
    obtain ⟨body, hb, ha⟩ := h
    exact ⟨body, hu hb, ha⟩
  | digested written digest now =>
    obtain ⟨body, hb, ha⟩ := h
    exact ⟨body, hu hb, ha⟩
  | finished => trivial

/-- One request moves on; the store may change with it, the other temporary files do not. -/
theorem Invariant.update (h : Invariant C G cfg X s) {id : ℕ} {job : Job}
    (hjobs : s'.jobs = Function.update s.jobs id (some job))
    (hnew : ∀ id' job', id' ≠ id → s.jobs id' = some job' → job'.number ≠ job.number)
    (hname : ∀ name, job.dest = .artifact name → ext name = ".qcap")
    (hcoherent : Coherent C G X cfg s'.log s'.reg)
    (hframe : ∀ n, n ≠ job.number →
      s'.reg.files.lookup (cfg.uploadPath n) = s.reg.files.lookup (cfg.uploadPath n))
    (hsound : job.phase.Sound C G cfg s'.reg.files job.dest job.number) :
    Invariant C G cfg X s' := by
  have hcases : ∀ id' job', s'.jobs id' = some job' →
      (id' = id ∧ job' = job) ∨ (id' ≠ id ∧ s.jobs id' = some job') := by
    intro id' job' hj
    rw [hjobs] at hj
    by_cases hid : id' = id
    · rw [hid, Function.update_self] at hj
      exact Or.inl ⟨hid, (Option.some.inj hj).symm⟩
    · rw [Function.update_of_ne hid] at hj
      exact Or.inr ⟨hid, hj⟩
  refine ⟨hcoherent, fun id' job' name hj => ?_, fun id' job' hj => ?_,
    fun id' id'' job' job'' hj hj' hn => ?_⟩
  · rcases hcases id' job' hj with ⟨-, rfl⟩ | ⟨-, hj⟩
    · exact hname name
    · exact h.named id' job' name hj
  · rcases hcases id' job' hj with ⟨-, rfl⟩ | ⟨hid, hj⟩
    · exact hsound
    · exact (h.sound id' job' hj).frame (hframe _ (hnew id' job' hid hj))
  · rcases hcases id' job' hj with ⟨rfl, rfl⟩ | ⟨hid, hj⟩ <;>
      rcases hcases id'' job'' hj' with ⟨rfl, rfl⟩ | ⟨hid', hj'⟩
    · rfl
    · exact absurd hn.symm (hnew id'' job'' hid' hj')
    · exact absurd hn (hnew id' job' hid hj)
    · exact h.distinct id' id'' job' job'' hj hj' hn

theorem Invariant.others (h : Invariant C G cfg X s) {id : ℕ} {job : Job}
    (hj : s.jobs id = some job) :
    ∀ id' job', id' ≠ id → s.jobs id' = some job' → job'.number ≠ job.number :=
  fun id' job' hid hj' hn => hid (h.distinct id' id job' job hj' hj hn)

theorem Invariant.setJob (h : Invariant C G cfg X s) {id : ℕ} {dest : Dest} {number : ℕ}
    {phase phase' : Phase} (hj : s.jobs id = some ⟨dest, number, phase⟩)
    (hs : phase'.Sound C G cfg s.reg.files dest number) :
    Invariant C G cfg X (s.setJob id ⟨dest, number, phase'⟩) := by
  have hothers := h.others hj
  have hnamed := fun name => h.named id _ name hj
  exact h.update rfl hothers hnamed h.coherent (fun _ _ => rfl) hs

theorem destination_named {target : Target} {dest : Dest} (h : destination target = some dest)
    (name : String) (hd : dest = .artifact name) : ext name = ".qcap" := by
  subst hd
  cases target with
  | artifact rawName =>
    obtain ⟨name', hn, he⟩ := Option.map_eq_some_iff.mp h
    cases he
    exact artifactName_ext hn
  | revocations urlPath =>
    simp only [destination] at h
    split at h <;> cases h

theorem Coherent.frame_upload (h : Coherent C G X cfg log reg) {files : Files} {number : ℕ}
    (hf : ∀ q, q ≠ cfg.uploadPath number → files.lookup q = reg.files.lookup q) :
    Coherent C G X cfg log ⟨files, reg.index⟩ := by
  refine h.frame rfl fun p hp => hf p ?_
  rcases hp with he | rfl
  · exact tracked_ne_upload (.artifact he) number
  · exact tracked_ne_upload .index number

theorem Invariant.stage (h : Invariant C G cfg X s) {id number : ℕ} {dest : Dest} {body : Bytes}
    (hfresh : ∀ id' job, s.jobs id' = some job → job.number ≠ number)
    (hname : ∀ name, dest = .artifact name → ext name = ".qcap") :
    Invariant C G cfg X (stageJob cfg s id number dest body) := by
  have hother : ∀ q, q ≠ cfg.uploadPath number → (stageUpload StageFaults.none
      (cfg.uploadPath number) body dest.maxBytes s.reg.files).2.lookup q =
        s.reg.files.lookup q := fun q hq => stageUpload_other hq
  have hframe : ∀ n, n ≠ number → cfg.uploadPath n ≠ cfg.uploadPath number := fun n hn h =>
    hn (uploadPath_injective h)
  unfold stageJob
  split
  · rename_i e files he
    rw [he] at hother
    refine ⟨h.coherent.frame_upload hother, h.named, fun id' job hj => ?_, h.distinct⟩
    exact (h.sound id' job hj).frame (hother _ (hframe _ (hfresh id' job hj)))
  · rename_i written files he
    obtain ⟨-, hsize, rfl, rfl⟩ := stageUpload_ok.mp he
    rw [he] at hother
    refine h.update rfl (fun id' job _ hj => hfresh id' job hj) hname
      (h.coherent.frame_upload hother) (fun n hn => hother _ (hframe n hn)) ?_
    exact ⟨body, AList.lookup_insert _, rfl, hsize⟩

theorem Uploaded.read {files : Files} {dest : Dest} {number written : ℕ} {body : Bytes}
    (h : Uploaded cfg files dest number written body) :
    readFile none (cfg.uploadPath number) files = .ok body := by
  simp [readFile, h.temp]

theorem Invariant.validate (h : Invariant C G cfg X s) (id : ℕ) :
    Invariant C G cfg X (next C G X cfg s (.validate id)) := by
  unfold next
  dsimp only
  split
  · rename_i dest number written hj
    obtain ⟨body, hu⟩ := h.sound id _ hj
    split
    · exact h.setJob hj trivial
    · rename_i hv
      refine h.setJob hj ⟨body, hu, ?_⟩
      cases dest with
      | artifact name =>
        rw [validateJob, validateUpload, hu.read] at hv
        exact ⟨h.named id _ name hj rfl, hv⟩
      | revocations issuer =>
        rw [validateJob, hu.read] at hv
        exact hv
  · exact h

theorem Invariant.digest (h : Invariant C G cfg X s) (id : ℕ) {now : String} (hnow : now ≠ "") :
    Invariant C G cfg X (next C G X cfg s (.digest id now)) := by
  unfold next
  dsimp only
  split
  · rename_i dest number written hj
    obtain ⟨body, hu, ha⟩ := h.sound id _ hj
    split
    · exact h.setJob hj trivial
    · rename_i digest hd
      rw [digestUpload, hu.read] at hd
      cases hd
      exact h.setJob hj ⟨body, hu, ha, rfl, hnow⟩
  · exact h

theorem artifact_ne_list (hcfg : cfg.DefaultIndex) {p : Path} (issuer : String)
    (h : ext (base p) = ".qcap" ∨ p = cfg.indexPath) : p ≠ cfg.revocationPath issuer := by
  rintro rfl
  rcases h with h | h
  · have hb : base (cfg.revocationPath issuer) = "revocations.json" := by
      simp [base, Config.revocationPath]
    rw [hb] at h
    exact absurd h (by decide)
  · rw [hcfg, Config.revocationPath] at h
    simp at h

theorem Tracked.of_store {p : Path} (h : ext (base p) = ".qcap" ∨ p = cfg.indexPath) :
    Tracked cfg p := by
  rcases h with h | rfl
  · exact .artifact h
  · exact .index

theorem Invariant.commit (hcfg : cfg.DefaultIndex) (h : Invariant C G cfg X s) (id : ℕ)
    (numbers : CommitNumbers) : Invariant C G cfg X (next C G X cfg s (.commit id numbers)) := by
  unfold next
  dsimp only
  split
  · rename_i dest number written digest now hj
    obtain ⟨body, hu, ha, rfl, hnow⟩ := h.sound id _ hj
    obtain rfl := hu.written
    have hothers := h.others hj
    have hnamed := fun name => h.named id _ name hj
    cases dest with
    | artifact name =>
      obtain ⟨reg', hcm, hcoherent, hframe⟩ := h.coherent.commit hcfg
        (c := ⟨name, body, now⟩) hu.temp ⟨ha.1, hu.size, hnow, ha.2⟩ numbers
      simp only [commitJob, hcm, hu.temp, Option.getD_some]
      exact h.update rfl hothers hnamed hcoherent hframe trivial
    | revocations issuer =>
      have hlist : Tracked cfg (cfg.revocationPath issuer) := .revocations issuer
      have hl : ∀ q, ((s.reg.files.erase (cfg.uploadPath number)).insert
          (cfg.revocationPath issuer) body).lookup q = _ := fun q => lookup_rename
      simp only [commitJob, replaceFile_none hu.temp]
      refine h.update rfl hothers hnamed (h.coherent.frame rfl fun p hp => ?_)
        (fun n hn => ?_) trivial
      · rw [hl, if_neg (artifact_ne_list hcfg issuer hp),
          if_neg (tracked_ne_upload (Tracked.of_store hp) number)]
      · rw [hl, if_neg (tracked_ne_upload hlist n).symm,
          if_neg fun h => hn (uploadPath_injective h)]
  · exact h

theorem Invariant.finish (h : Invariant C G cfg X s) (id : ℕ) :
    Invariant C G cfg X (next C G X cfg s (.finish id)) := by
  unfold next
  dsimp only
  split
  · rename_i dest number hj
    have hothers := h.others hj
    have hframe : ∀ q, q ≠ cfg.uploadPath number →
        (removeQuietly none (cfg.uploadPath number) s.reg.files).lookup q =
          s.reg.files.lookup q := fun q hq => removeQuietly_other hq
    have hjobs : ∀ id' job', Function.update s.jobs id none id' = some job' →
        id' ≠ id ∧ s.jobs id' = some job' := by
      intro id' job' hj'
      by_cases hid : id' = id
      · rw [hid, Function.update_self] at hj'
        cases hj'
      · rw [Function.update_of_ne hid] at hj'
        exact ⟨hid, hj'⟩
    refine ⟨h.coherent.frame_upload hframe, fun id' job' name hj' => ?_, fun id' job' hj' => ?_,
      fun id' id'' job' job'' hj' hj'' => ?_⟩
    · exact h.named id' job' name (hjobs id' job' hj').2
    · obtain ⟨hid, hj'⟩ := hjobs id' job' hj'
      exact (h.sound id' job' hj').frame
        (hframe _ fun he => hothers id' job' hid hj' (uploadPath_injective he))
    · exact h.distinct id' id'' job' job'' (hjobs id' job' hj').2 (hjobs id'' job'' hj'').2
  · exact h

theorem Invariant.load (hX : X.ReadsBack) (h : Invariant C G cfg X s) (numbers : Numbers)
    (modTime : Path → String) (index : List Capsule) (jobs : ℕ → Option Job)
    (hjobs : ∀ id job, jobs id = some job → s.jobs id = some job) :
    Invariant C G cfg X
      ⟨(loadIndexLocked C X cfg numbers modTime ⟨s.reg.files, index⟩).2, jobs, s.log⟩ := by
  obtain ⟨files, hl, hlookup⟩ := h.coherent.load hX numbers modTime index
  rw [hl]
  refine ⟨h.coherent.frame rfl fun p hp => ?_, fun id job name hj => ?_, fun id job hj => ?_,
    fun id id' job job' hj hj' => ?_⟩
  · have hne : p ≠ cfg.indexTemp numbers := (Tracked.of_store hp).ne cfg (by
      rw [Config.indexTemp, tempPath, base_append]
      exact temporary_index _)
    rw [hlookup, if_neg hne]
  · exact h.named id job name (hjobs id job hj)
  · apply (h.sound id job (hjobs id job hj)).frame
    rw [hlookup, if_neg (uploadPath_ne_indexTemp _ _)]
  · exact h.distinct id id' job job' (hjobs id job hj) (hjobs id' job' hj')

theorem Invariant.next (hcfg : cfg.DefaultIndex) (hX : X.ReadsBack) (h : Invariant C G cfg X s)
    {e : Event} (he : Enabled cfg s e) : Invariant C G cfg X (next C G X cfg s e) := by
  cases e with
  | stage id number authorization target body =>
    obtain ⟨-, -, hfresh⟩ := he
    simp only [RegistryRuns.next]
    split
    · split
      · exact h
      · rename_i dest hdest
        exact h.stage hfresh (destination_named hdest)
    · exact h
  | validate id => exact h.validate id
  | digest id now => exact h.digest id he
  | commit id numbers => exact h.commit hcfg id numbers
  | finish id => exact h.finish id
  | reload numbers modTime => exact h.load hX numbers modTime s.reg.index s.jobs fun _ _ hj => hj
  | abortedReload => exact h
  | restart numbers modTime => exact h.load hX numbers modTime [] _ nofun

theorem Reachable.invariant (hcfg : cfg.DefaultIndex) (hX : X.ReadsBack)
    (h : Reachable C G X cfg s) : Invariant C G cfg X s := by
  induction h with
  | start files numbers modTime hf =>
    exact ⟨Coherent.start hcfg hf numbers modTime, nofun, nofun, nofun⟩
  | step e _ he ih => exact ih.next hcfg hX he

variable (C G X cfg)

def requestEvents (id number : ℕ) (numbers : CommitNumbers) (now : String) (r : Request) :
    List Event :=
  [.stage id number r.authorization r.target r.body, .validate id, .digest id now,
    .commit id numbers, .finish id]

theorem publish_eq_steps (s : System) {id number : ℕ} (numbers : CommitNumbers)
    (now authorization rawName : String) (body : Bytes) (hid : s.jobs id = none) :
    ((requestEvents id number numbers now ⟨.artifact rawName, authorization, body⟩).foldl
        (next C G X cfg) s).reg =
      (publish C G X cfg (Env.clear number numbers now) authorization rawName body s.reg).2 := by
  by_cases ha : authorized cfg authorization = true
  swap
  · simp [requestEvents, next, publish, ha, hid]
  cases hn : artifactName rawName with
  | none => simp [requestEvents, next, publish, destination, ha, hid, hn]
  | some name =>
  rcases hs : stageUpload StageFaults.none (cfg.uploadPath number) body maxArtifactBytes
    s.reg.files with ⟨e | written, files⟩
  · simp [requestEvents, next, publish, destination, stageJob, withUpload, Env.clear,
      Dest.maxBytes, ha, hid, hn, hs]
  rcases hv : validateUpload C G none (cfg.uploadPath number) files with e | _
  · simp [requestEvents, next, publish, destination, stageJob, withUpload, Env.clear,
      Dest.maxBytes, validateJob, System.setJob, ha, hn, hs, hv]
  rcases hd : digestUpload C none (cfg.uploadPath number) files with e | digest
  · simp [requestEvents, next, publish, destination, stageJob, withUpload, Env.clear,
      Dest.maxBytes, validateJob, System.setJob, ha, hn, hs, hv, hd]
  rcases hc : commitArtifact X cfg CommitFaults.none numbers (cfg.uploadPath number)
    (cfg.artifactPath name) (artifactCapsule name written digest now) ⟨files, s.reg.index⟩ with
      ⟨e | _, reg⟩ <;>
    simp [requestEvents, next, publish, destination, stageJob, withUpload, Env.clear,
      Dest.maxBytes, validateJob, System.setJob, commitJob, ha, hn, hs, hv, hd, hc]

theorem publishRevocations_eq_steps (s : System) {id number : ℕ} (numbers : CommitNumbers)
    (now authorization urlPath : String) (body : Bytes) (hid : s.jobs id = none)
    (hi : revocationIssuerFromPath urlPath ≠ "") :
    ((requestEvents id number numbers now ⟨.revocations urlPath, authorization, body⟩).foldl
        (next C G X cfg) s).reg =
      (publishRevocations C G cfg (Env.clear number numbers now) authorization
        (revocationIssuerFromPath urlPath) body s.reg).2 := by
  generalize hissuer : revocationIssuerFromPath urlPath = issuer at hi ⊢
  by_cases ha : authorized cfg authorization = true
  swap
  · simp [requestEvents, next, publishRevocations, ha, hid]
  rcases hs : stageUpload StageFaults.none (cfg.uploadPath number) body maxRevocationBytes
    s.reg.files with ⟨e | written, files⟩
  · simp [requestEvents, next, publishRevocations, destination, stageJob, withUpload, Env.clear,
      Dest.maxBytes, ha, hid, hissuer, hi, hs]
  rcases hv : (readFile none (cfg.uploadPath number) files >>= fun document =>
    validateRevocationList C G document issuer) with e | _
  · simp [requestEvents, next, publishRevocations, destination, stageJob, withUpload, Env.clear,
      Dest.maxBytes, validateJob, System.setJob, ha, hissuer, hi, hs, hv]
  rcases hd : digestUpload C none (cfg.uploadPath number) files with e | digest
  · simp [requestEvents, next, publishRevocations, destination, stageJob, withUpload, Env.clear,
      Dest.maxBytes, validateJob, System.setJob, ha, hissuer, hi, hs, hv, hd]
  rcases hc : replaceFile ReplaceFaults.none numbers.nanos (cfg.uploadPath number)
    (cfg.revocationPath issuer) files with ⟨e | _, files'⟩ <;>
    simp [requestEvents, next, publishRevocations, destination, stageJob, withUpload, Env.clear,
      Dest.maxBytes, validateJob, System.setJob, commitJob, CommitFaults.none, ha, hissuer, hi,
      hs, hv, hd, hc]

/-- Without others in between, the steps do what the handler does. -/
theorem post_eq_steps (s : System) {id number : ℕ} (numbers : CommitNumbers) (now : String)
    (r : Request) (hid : s.jobs id = none) :
    ((requestEvents id number numbers now r).foldl (next C G X cfg) s).reg =
      (post C G X cfg (Env.clear number numbers now) r s.reg).2 := by
  obtain ⟨target, authorization, body⟩ := r
  cases target with
  | artifact rawName =>
    exact publish_eq_steps C G X cfg s numbers now authorization rawName body hid
  | revocations urlPath =>
    simp only [post]
    by_cases hi : revocationIssuerFromPath urlPath = ""
    · simp [requestEvents, next, destination, hi, hid]
    · rw [if_neg hi]
      exact publishRevocations_eq_steps C G X cfg s numbers now authorization urlPath body hid hi

variable {C G X cfg}

theorem Reachable.request (h : Reachable C G X cfg s) {id number : ℕ} (numbers : CommitNumbers)
    {now : String} (r : Request) (hid : s.jobs id = none)
    (hfresh : s.reg.files.lookup (cfg.uploadPath number) = none)
    (hnumber : ∀ id' job, s.jobs id' = some job → job.number ≠ number) (hnow : now ≠ "") :
    Reachable C G X cfg ((requestEvents id number numbers now r).foldl (next C G X cfg) s) := by
  have hstage := h.step (.stage id number r.authorization r.target r.body) ⟨hid, hfresh, hnumber⟩
  have hdigest := (hstage.step (.validate id) trivial).step (.digest id now) hnow
  exact (hdigest.step (.commit id numbers) trivial).step (.finish id) trivial

section Accepted

variable {id number written : ℕ} {dest : Dest} {body : Bytes} {now : String}

theorem next_stage {target : Target} {authorization : String}
    (ha : authorized cfg authorization = true) (hd : destination target = some dest)
    (hl : body.length ≤ dest.maxBytes) :
    next C G X cfg s (.stage id number authorization target body) =
      { s with reg := ⟨s.reg.files.insert (cfg.uploadPath number) body, s.reg.index⟩ }.setJob id
        ⟨dest, number, .staged body.length⟩ := by
  have hstage : stageUpload StageFaults.none (cfg.uploadPath number) body dest.maxBytes
      s.reg.files = (.ok body.length, s.reg.files.insert (cfg.uploadPath number) body) :=
    stageUpload_ok.mpr ⟨⟨rfl, rfl, rfl, rfl, rfl⟩, hl, rfl, rfl⟩
  rw [next, if_pos ha, hd]
  dsimp only
  rw [stageJob, hstage]

theorem next_validate (hj : s.jobs id = some ⟨dest, number, .staged written⟩)
    (hb : s.reg.files.lookup (cfg.uploadPath number) = some body)
    (hv : dest.Accepts C G body) :
    next C G X cfg s (.validate id) = s.setJob id ⟨dest, number, .validated written⟩ := by
  have hread : readFile none (cfg.uploadPath number) s.reg.files = .ok body := by
    rw [readFile, hb]
  have hok : validateJob C G dest (cfg.uploadPath number) s.reg.files = .ok () := by
    cases dest with
    | artifact name =>
      rw [validateJob, validateUpload, hread]
      exact hv.2
    | revocations issuer =>
      rw [validateJob, hread]
      exact hv
  rw [next, hj]
  dsimp only
  rw [hok]

theorem next_digest (hj : s.jobs id = some ⟨dest, number, .validated written⟩)
    (hb : s.reg.files.lookup (cfg.uploadPath number) = some body) :
    next C G X cfg s (.digest id now) =
      s.setJob id ⟨dest, number, .digested written (fileDigest C body) now⟩ := by
  have hok : digestUpload C none (cfg.uploadPath number) s.reg.files = .ok (fileDigest C body) := by
    rw [digestUpload, readFile, hb]
    rfl
  rw [next, hj]
  dsimp only
  rw [hok]

def uploadEvents (id number : ℕ) (now : String) (r : Request) : List Event :=
  [.stage id number r.authorization r.target r.body, .validate id, .digest id now]

theorem upload_digested {target : Target} {authorization : String} (id number : ℕ) (now : String)
    (ha : authorized cfg authorization = true) (hd : destination target = some dest)
    (hl : body.length ≤ dest.maxBytes) (hv : dest.Accepts C G body) :
    let s' := (uploadEvents id number now ⟨target, authorization, body⟩).foldl (next C G X cfg) s
    s'.reg = ⟨s.reg.files.insert (cfg.uploadPath number) body, s.reg.index⟩ ∧ s'.log = s.log ∧
      s'.jobs = Function.update s.jobs id
        (some ⟨dest, number, .digested body.length (fileDigest C body) now⟩) := by
  simp only [uploadEvents, List.foldl_cons, List.foldl_nil]
  rw [next_stage ha hd hl]
  have hb : (s.reg.files.insert (cfg.uploadPath number) body).lookup (cfg.uploadPath number) =
      some body := AList.lookup_insert _
  rw [next_validate (Function.update_self ..) hb hv, next_digest (Function.update_self ..) hb]
  refine ⟨rfl, rfl, ?_⟩
  simp only [System.setJob, Function.update_idem]

def Dest.commits (dest : Dest) (body : Bytes) (now : String) : List Commit :=
  match dest with
  | .artifact name => [⟨name, body, now⟩]
  | .revocations _ => []

theorem next_commit {digest : String} (numbers : CommitNumbers) (hv : dest.Accepts C G body)
    (hj : s.jobs id = some ⟨dest, number, .digested written digest now⟩)
    (hb : s.reg.files.lookup (cfg.uploadPath number) = some body) :
    let s' := next C G X cfg s (.commit id numbers)
    s'.log = s.log ++ dest.commits body now ∧
      s'.jobs = Function.update s.jobs id (some ⟨dest, number, .finished⟩) ∧
      ∀ n, n ≠ number →
        s'.reg.files.lookup (cfg.uploadPath n) = s.reg.files.lookup (cfg.uploadPath n) := by
  intro s'
  have hne : ∀ n, n ≠ number → cfg.uploadPath n ≠ cfg.uploadPath number :=
    fun n hn he => hn (uploadPath_injective he)
  cases dest with
  | artifact name =>
    obtain ⟨files', hcommit, hlookup⟩ := commitArtifact_none X cfg numbers (cfg.artifactPath name)
      (artifactCapsule name written digest now) hb
    have hs' : s' = { s.setJob id ⟨.artifact name, number, .finished⟩ with
        reg := ⟨files', SortedIndex.upsert Capsule.name keepCreatedAt
          (artifactCapsule name written digest now) s.reg.index⟩
        log := s.log ++ [⟨name, body, now⟩] } := by
      simp only [s', next, hj, commitJob, hcommit, hb, Option.getD_some]
    rw [hs']
    refine ⟨rfl, rfl, ?_⟩
    intro n hn
    rw [hlookup, if_neg (tracked_ne_upload .index n).symm, if_neg (uploadPath_ne_indexTemp n _),
      if_neg (tracked_ne_upload (artifact_tracked hv.1) n).symm, if_neg (hne n hn)]
  | revocations issuer =>
    have hs' : s' = { s.setJob id ⟨.revocations issuer, number, .finished⟩ with
        reg := ⟨(s.reg.files.erase (cfg.uploadPath number)).insert (cfg.revocationPath issuer) body,
          s.reg.index⟩ } := by
      simp only [s', next, hj, commitJob, replaceFile_none hb]
    rw [hs']
    refine ⟨(List.append_nil _).symm, rfl, ?_⟩
    intro n hn
    rw [lookup_rename, if_neg (tracked_ne_upload (.revocations issuer) n).symm,
      if_neg (hne n hn)]

theorem next_finish (hj : s.jobs id = some ⟨dest, number, .finished⟩) :
    next C G X cfg s (.finish id) =
      { s with
        reg := ⟨removeQuietly none (cfg.uploadPath number) s.reg.files, s.reg.index⟩
        jobs := Function.update s.jobs id none } := by
  simp only [next, hj]

theorem request_done {target : Target} {authorization : String} (id number : ℕ)
    (numbers : CommitNumbers) (now : String) (ha : authorized cfg authorization = true)
    (hd : destination target = some dest) (hl : body.length ≤ dest.maxBytes)
    (hv : dest.Accepts C G body) :
    let s' := (requestEvents id number numbers now ⟨target, authorization, body⟩).foldl
      (next C G X cfg) s
    s'.log = s.log ++ dest.commits body now ∧ s'.jobs = Function.update s.jobs id none ∧
      ∀ n, n ≠ number →
        s'.reg.files.lookup (cfg.uploadPath n) = s.reg.files.lookup (cfg.uploadPath n) := by
  have hevents : requestEvents id number numbers now ⟨target, authorization, body⟩ =
      uploadEvents id number now ⟨target, authorization, body⟩ ++
        [Event.commit id numbers, .finish id] := rfl
  rw [hevents, List.foldl_append]
  obtain ⟨hreg, hlog, hjobs⟩ := upload_digested (X := X) (s := s) id number now ha hd hl hv
  generalize (uploadEvents id number now ⟨target, authorization, body⟩).foldl (next C G X cfg) s =
    s₁ at *
  have hb : s₁.reg.files.lookup (cfg.uploadPath number) = some body := by
    rw [hreg]
    exact AList.lookup_insert _
  have hj : s₁.jobs id = some ⟨dest, number, .digested body.length (fileDigest C body) now⟩ := by
    rw [hjobs]
    exact Function.update_self ..
  obtain ⟨hlog₁, hjobs₁, hfiles₁⟩ := next_commit (X := X) numbers hv hj hb
  have hfinished : (next C G X cfg s₁ (.commit id numbers)).jobs id =
      some ⟨dest, number, .finished⟩ := by
    rw [hjobs₁]
    exact Function.update_self ..
  simp only [List.foldl_cons, List.foldl_nil]
  rw [next_finish hfinished]
  refine ⟨hlog₁.trans (by rw [hlog]), ?_, ?_⟩
  · rw [hjobs₁, hjobs, Function.update_idem, Function.update_idem]
  · intro n hn
    have hne : cfg.uploadPath n ≠ cfg.uploadPath number := fun he => hn (uploadPath_injective he)
    rw [removeQuietly_other hne, hfiles₁ n hn, hreg]
    exact AList.lookup_insert_ne hne

def twoUploads (m n : ℕ) (now now' : String) (r : Request) : List Event :=
  [.stage 0 m r.authorization r.target r.body, .stage 1 n r.authorization r.target r.body,
    .validate 0, .validate 1, .digest 0 now, .digest 1 now']

theorem Reachable.two_digested (h : Reachable C G X cfg s) (hidle : s.jobs = fun _ => none)
    {authorization : String} {target : Target} {m n : ℕ} {now' : String}
    (ha : authorized cfg authorization = true) (hd : destination target = some dest)
    (hl : body.length ≤ dest.maxBytes)
    (hv : dest.Accepts C G body) (hmn : m ≠ n)
    (hm : s.reg.files.lookup (cfg.uploadPath m) = none)
    (hn : s.reg.files.lookup (cfg.uploadPath n) = none) (hnow : now ≠ "") (hnow' : now' ≠ "") :
    let s' := (twoUploads m n now now' ⟨target, authorization, body⟩).foldl (next C G X cfg) s
    Reachable C G X cfg s' ∧ s'.log = s.log ∧
      s'.jobs 0 = some ⟨dest, m, .digested body.length (fileDigest C body) now⟩ ∧
      s'.jobs 1 = some ⟨dest, n, .digested body.length (fileDigest C body) now'⟩ ∧
      s'.reg.files.lookup (cfg.uploadPath m) = some body ∧
      s'.reg.files.lookup (cfg.uploadPath n) = some body := by
  have hne : cfg.uploadPath n ≠ cfg.uploadPath m := fun he => hmn (uploadPath_injective he).symm
  have hs₁ := h.step (.stage 0 m authorization target body)
    ⟨by rw [hidle], hm, by intro id job hj; rw [hidle] at hj; cases hj⟩
  have hs₂ := hs₁.step (.stage 1 n authorization target body) (by
    rw [next_stage ha hd hl]
    refine ⟨by simp [System.setJob, hidle], (AList.lookup_insert_ne hne).trans hn, ?_⟩
    intro id job hj
    simp only [System.setJob, hidle, Function.update_apply] at hj
    split at hj
    · cases hj
      exact hmn
    · cases hj)
  have hreach := (((hs₂.step (.validate 0) trivial).step (.validate 1) trivial).step
    (.digest 0 now) hnow).step (.digest 1 now') hnow'
  simp only [twoUploads, List.foldl_cons, List.foldl_nil]
  refine ⟨hreach, ?_⟩
  generalize hs : next C G X cfg (next C G X cfg s (.stage 0 m authorization target body))
    (.stage 1 n authorization target body) = s₂
  rw [next_stage ha hd hl, next_stage ha hd hl] at hs
  have hlog : s₂.log = s.log := hs ▸ rfl
  have hm' : s₂.reg.files.lookup (cfg.uploadPath m) = some body := by
    rw [← hs]
    exact (AList.lookup_insert_ne hne.symm).trans (AList.lookup_insert _)
  have hn' : s₂.reg.files.lookup (cfg.uploadPath n) = some body := by
    rw [← hs]
    exact AList.lookup_insert _
  have h₀ : s₂.jobs 0 = some ⟨dest, m, .staged body.length⟩ := hs ▸ rfl
  have h₁ : s₂.jobs 1 = some ⟨dest, n, .staged body.length⟩ := hs ▸ rfl
  rw [next_validate h₀ hm' hv]
  set s₃ := s₂.setJob 0 ⟨dest, m, .validated body.length⟩
  have hv₁ : s₃.jobs 1 = some ⟨dest, n, .staged body.length⟩ := h₁
  rw [next_validate hv₁ hn' hv]
  set s₄ := s₃.setJob 1 ⟨dest, n, .validated body.length⟩
  have hd₀ : s₄.jobs 0 = some ⟨dest, m, .validated body.length⟩ := rfl
  rw [next_digest hd₀ hm']
  set s₅ := s₄.setJob 0 ⟨dest, m, .digested body.length (fileDigest C body) now⟩
  have hd₁ : s₅.jobs 1 = some ⟨dest, n, .validated body.length⟩ := rfl
  rw [next_digest hd₁ hn']
  exact ⟨hlog, rfl, rfl, hm', hn'⟩

theorem log_next {e : Event} (he : ∀ id numbers, e ≠ .commit id numbers) :
    (next C G X cfg s e).log = s.log := by
  cases e with
  | stage id number authorization target body =>
    simp only [next, stageJob]
    split
    · split
      · rfl
      · split <;> rfl
    · rfl
  | validate id | digest id now =>
    simp only [next]
    split
    · split <;> rfl
    · rfl
  | commit id numbers => exact absurd rfl (he id numbers)
  | finish id =>
    simp only [next]
    split <;> rfl
  | reload numbers modTime | abortedReload | restart numbers modTime => rfl

def commitsReversed (commits commits' : CommitNumbers) (numbers : Numbers)
    (modTime : Path → String) : List Event :=
  [.commit 1 commits', .commit 0 commits, .reload numbers modTime, .finish 1, .finish 0,
    .restart numbers modTime]

theorem Reachable.two_committed (h : Reachable C G X cfg s) {name digest : String} {m n : ℕ}
    {now' : String} (commits commits' : CommitNumbers) (numbers : Numbers)
    (modTime : Path → String) (hv : (Dest.artifact name).Accepts C G body) (hmn : m ≠ n)
    (h₀ : s.jobs 0 = some ⟨.artifact name, m, .digested written digest now⟩)
    (h₁ : s.jobs 1 = some ⟨.artifact name, n, .digested written digest now'⟩)
    (hm : s.reg.files.lookup (cfg.uploadPath m) = some body)
    (hn : s.reg.files.lookup (cfg.uploadPath n) = some body) :
    let s' := (commitsReversed commits commits' numbers modTime).foldl (next C G X cfg) s
    Reachable C G X cfg s' ∧ s'.log = s.log ++ [⟨name, body, now'⟩, ⟨name, body, now⟩] := by
  have hcommits := (h.step (.commit 1 commits') trivial).step (.commit 0 commits) trivial
  have hfinished := ((hcommits.step (.reload numbers modTime) trivial).step (.finish 1)
    trivial).step (.finish 0) trivial
  refine ⟨hfinished.step (.restart numbers modTime) trivial, ?_⟩
  obtain ⟨hlog₁, hjobs₁, hfiles₁⟩ := next_commit (X := X) commits' hv h₁ hn
  have hfirst : (next C G X cfg s (.commit 1 commits')).jobs 0 = _ :=
    (congrFun hjobs₁ 0).trans h₀
  obtain ⟨hlog₂, -, -⟩ := next_commit (X := X) commits hv hfirst ((hfiles₁ m hmn).trans hm)
  simp only [commitsReversed, List.foldl_cons, List.foldl_nil]
  rw [log_next (by simp), log_next (by simp), log_next (by simp), log_next (by simp), hlog₂,
    hlog₁, List.append_assoc]
  rfl

end Accepted

variable (C G X cfg)

/-- An entry describes stored bytes that passed the checks, were committed last under its name,
and were first committed there at the time that it carries. -/
structure Describes (log : List Commit) (files : Files) (entry : Capsule) (bytes : Bytes) :
    Prop where
  named : ext entry.name = ".qcap"
  stored : files.lookup (cfg.artifactPath entry.name) = some bytes
  last : lastBytes log entry.name = some bytes
  size : entry.size = bytes.length
  digest : entry.digest = fileDigest C bytes
  created : firstCreatedAt log entry.name = some entry.createdAt
  valid : validateQcapArchive C G (G.openReader bytes) = .ok ()

/-- The index in memory, the index file and the stored artifacts agree with each other and with
the log, and `loadIndex` finds nothing to change. -/
structure Consistent (s : System) : Prop where
  sorted : s.reg.index.Pairwise fun a b => a.name < b.name
  listed : ∀ p bytes, s.reg.files.lookup p = some bytes → cfg.storeDir <+: p →
    ext (base p) = ".qcap" → ∃ entry ∈ s.reg.index, p = cfg.artifactPath entry.name
  described : ∀ entry ∈ s.reg.index, ∃ bytes, Describes C G cfg s.log s.reg.files entry bytes
  persisted : ∃ bytes, s.reg.files.lookup cfg.indexPath = some bytes ∧
    X.unmarshal bytes = .ok s.reg.index
  reload : ∀ numbers modTime, s.reg.files.lookup (cfg.indexTemp numbers) = none →
    ∃ files, loadIndexLocked C X cfg numbers modTime s.reg = (.ok (), ⟨files, s.reg.index⟩) ∧
      ∀ p, files.lookup p = s.reg.files.lookup p

variable {C G X cfg}

theorem Coherent.describes (h : Coherent C G X cfg log reg) {entry : Capsule}
    (he : entry ∈ reg.index) : ∃ bytes, Describes C G cfg log reg.files entry bytes := by
  obtain ⟨bytes, createdAt, hb, hc, heq⟩ := (h.index entry).mp he
  obtain ⟨c, hcm, hn, hcb⟩ := lastBytes_mem hb
  have hcommitted := h.committed c hcm
  have hnamed : ext entry.name = ".qcap" := hn ▸ hcommitted.named
  have hcreated : entry.createdAt = createdAt := by
    rw [heq]
    rfl
  refine ⟨bytes, hnamed, (h.stored _ hnamed).trans hb, hb, ?_, ?_, ?_, ?_⟩
  · rw [heq]
    rfl
  · rw [heq]
    rfl
  · rw [hc, hcreated]
  · exact hcb ▸ hcommitted.valid

theorem Coherent.consistent (hX : X.ReadsBack) (h : Coherent C G X cfg s.log s.reg) :
    Consistent C G X cfg s where
  sorted := h.sorted
  listed p bytes hp hs he := by
    have hpath := h.below p bytes hp hs he
    have hb : lastBytes s.log (base p) = some bytes := by
      rw [← h.stored (base p) he, ← hpath]
      exact hp
    obtain ⟨entry, hentry, hn⟩ := EntryOf.listed C hb
    exact ⟨entry, (h.index entry).mpr hentry, hn ▸ hpath⟩
  described entry he := h.describes he
  persisted := ⟨_, h.persisted, hX _ h.size⟩
  reload numbers modTime hfresh := by
    obtain ⟨files, hl, hlookup⟩ := h.load hX numbers modTime s.reg.index
    refine ⟨files, hl, fun p => ?_⟩
    rw [hlookup]
    by_cases hp : p = cfg.indexTemp numbers
    · rw [if_pos hp, hp, hfresh]
    · rw [if_neg hp]

/-- In every reachable state, of every interleaving, the registry is consistent. -/
theorem reachable_consistent (hcfg : cfg.DefaultIndex) (hX : X.ReadsBack)
    (h : Reachable C G X cfg s) : Consistent C G X cfg s :=
  (h.invariant hcfg hX).coherent.consistent hX

def sampleRun : System :=
  (requestEvents 0 1 ⟨0, ⟨2, 0⟩⟩ "2024-01-01T00:00:00Z" ⟨.artifact "", "", sampleArchive⟩).foldl
    (next toy (legacyGo sampleBundle) (goIndexCodec false) sampleConfig)
    (start toy (goIndexCodec false) sampleConfig ∅ ⟨0, 0⟩ fun _ => "")

theorem sampleRun_index : sampleRun.reg.index = [sampleCapsule] := by
  have hname : artifactName "" = some "artifact.qcap" := by decide
  have hready : Ready sampleConfig (Env.clear 1 ⟨0, ⟨2, 0⟩⟩ "2024-01-01T00:00:00Z") ""
      sampleArchive maxArtifactBytes :=
    ⟨rfl, ⟨rfl, rfl, rfl, rfl, rfl⟩, sampleArchive_fits, rfl, rfl⟩
  have hcfg : sampleConfig.DefaultIndex := rfl
  have hstart : Coherent toy (legacyGo sampleBundle) (goIndexCodec false) sampleConfig []
      (start toy (goIndexCodec false) sampleConfig ∅ ⟨0, 0⟩ fun _ => "").reg :=
    Coherent.start hcfg (fun p _ => AList.lookup_empty p) _ _
  rw [sampleRun, post_eq_steps _ _ _ _ _ _ _ _ rfl]
  simp only [post,
    publish_accepted toy _ (goIndexCodec false) _ hname hready sampleArchive_accepted]
  refine (commitArtifact_installed (goIndexCodec false) _ _ sampleCapsule (by decide) staged_upload
    (Or.inl ⟨rfl, rfl⟩)).index.trans ?_
  rw [staged, hstart.empty, SortedIndex.upsert_nil]

def sampleInterleaved : System :=
  (commitsReversed ⟨0, ⟨4, 0⟩⟩ ⟨0, ⟨3, 0⟩⟩ ⟨5, 0⟩ fun _ => "2024-01-03T00:00:00Z").foldl
      (next toy (legacyGo sampleBundle) (goIndexCodec false) sampleConfig)
    ((twoUploads 1 2 "2024-01-01T00:00:00Z" "2024-01-02T00:00:00Z"
      ⟨.artifact "", "", sampleArchive⟩).foldl
        (next toy (legacyGo sampleBundle) (goIndexCodec false) sampleConfig)
      (start toy (goIndexCodec false) sampleConfig ∅ ⟨0, 0⟩ fun _ => ""))

theorem sampleInterleaved_reachable :
    Reachable toy (legacyGo sampleBundle) (goIndexCodec false) sampleConfig sampleInterleaved ∧
      sampleInterleaved.log =
        [⟨"artifact.qcap", sampleArchive, "2024-01-02T00:00:00Z"⟩,
          ⟨"artifact.qcap", sampleArchive, "2024-01-01T00:00:00Z"⟩] := by
  have hname : artifactName "" = some "artifact.qcap" := by decide
  have hdest : destination (.artifact "") = some (.artifact "artifact.qcap") := by
    rw [destination, hname]
    rfl
  have haccepts : (Dest.artifact "artifact.qcap").Accepts toy (legacyGo sampleBundle)
      sampleArchive := ⟨by decide, sampleArchive_accepted⟩
  have hfresh : ∀ n ∈ [1, 2], (start toy (goIndexCodec false) sampleConfig ∅ ⟨0, 0⟩ fun _ =>
      "").reg.files.lookup (sampleConfig.uploadPath n) = none := by
    decide +kernel
  have hdated : "2024-01-01T00:00:00Z" ≠ "" ∧ "2024-01-02T00:00:00Z" ≠ "" := by decide
  have hstart : Reachable toy (legacyGo sampleBundle) (goIndexCodec false) sampleConfig
      (start toy (goIndexCodec false) sampleConfig ∅ ⟨0, 0⟩ fun _ => "") :=
    .start _ _ _ fun p _ => AList.lookup_empty p
  obtain ⟨hreach, hlog, hfirst, hsecond, hm, hn⟩ := hstart.two_digested rfl rfl hdest
    sampleArchive_fits haccepts (by decide) (hfresh 1 (by decide)) (hfresh 2 (by decide))
    hdated.1 hdated.2
  obtain ⟨hend, hcommitted⟩ := hreach.two_committed ⟨0, ⟨4, 0⟩⟩ ⟨0, ⟨3, 0⟩⟩ ⟨5, 0⟩
    (fun _ => "2024-01-03T00:00:00Z") haccepts (by decide) hfirst hsecond hm hn
  refine ⟨hend, hcommitted.trans ?_⟩
  rw [hlog]
  rfl

theorem sampleInterleaved_consistent : sampleInterleaved.log.length = 2 ∧
    Consistent toy (legacyGo sampleBundle) (goIndexCodec false) sampleConfig sampleInterleaved := by
  obtain ⟨hreach, hlog⟩ := sampleInterleaved_reachable
  refine ⟨?_, reachable_consistent rfl (goIndexCodec_readsBack false) hreach⟩
  rw [hlog]
  rfl

end QCap.RegistryRuns
