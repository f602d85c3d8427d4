import QCap.IndexReload
import QCap.RegistryMoments

/-!
# Kills and restarts

The process may be killed at any file system call of any step of any request, and again at any
call of the restarts that follow. What a restart finds is an index file that says what the
artifacts say, or one that is behind by the artifact that was just put in place; both lead back
to a consistent registry, and no commit that was answered is lost.
-/
namespace QCap.RegistryKills

open QCap.Text QCap.Crypto QCap.CrashSafety QCap.RegistryArchive QCap.RegistryFiles
open QCap.RegistryIndex QCap.RegistryPublish QCap.RegistryRuns QCap.RegistryCalls
open QCap.RegistryMoments QCap.IndexReload QCap.GoDocuments QCap.IndexJson

variable (C : Primitives) (G : GoLib) (X : IndexCodec) (cfg : Config)

/-- The artifact of `name` is in place, and everything else is as before its commit. -/
structure Behind (log : List Commit) (name : String) (bytes : Bytes) (files : Files) : Prop where
  named : ext name = ".qcap"
  size : bytes.length ≤ maxArtifactBytes
  valid : validateQcapArchive C G (G.openReader bytes) = .ok ()
  before : ∃ reg, Coherent C G X cfg log reg ∧ ∀ p, ext (base p) = ".qcap" ∨ p = cfg.indexPath →
    files.lookup p = if p = cfg.artifactPath name then some bytes else reg.files.lookup p

variable {C G X cfg} {log : List Commit} {name : String} {bytes : Bytes} {files files' : Files}

def created (modTime : Path → String) (byName : AList fun _ : String => Capsule) (path : Path)
    (name : String) : String :=
  let old := ((byName.lookup name).map Capsule.createdAt).getD ""
  if old = "" then modTime path else old

theorem lookup_visit_new (C : Primitives) (bytes : Bytes) (modTime : Path → String)
    (byName : AList fun _ : String => Capsule) {path : Path} (hp : path ≠ cfg.indexPath)
    (hext : ext (base path) = ".qcap") (n : String) :
    (visit C cfg modTime byName (path, bytes)).lookup n =
      if n = base path then some (artifactCapsule (base path) bytes.length (fileDigest C bytes)
        (created modTime byName path (base path)))
      else byName.lookup n := by
  unfold visit
  rw [if_neg (by simp [hp, hext])]
  by_cases hn : n = base path
  · subst hn
    rw [if_pos rfl, AList.lookup_insert]
    rfl
  · rw [if_neg hn, AList.lookup_insert_ne hn]

theorem recorded_congr {byName byName' : AList fun _ : String => Capsule} {f : Path × Bytes}
    (h : Recorded C byName f) (hl : byName'.lookup (base f.1) = byName.lookup (base f.1)) :
    Recorded C byName' f := by
  obtain ⟨createdAt, hne, hr⟩ := h
  exact ⟨createdAt, hne, hl.trans hr⟩

theorem lookup_foldl_visit_new {modTime : Path → String} {path : Path}
    (hp : path ≠ cfg.indexPath) (hext : ext (base path) = ".qcap") (hm : modTime path ≠ "")
    {visited : List (Path × Bytes)} {byName : AList fun _ : String => Capsule}
    (h : ∀ f ∈ visited, ext (base f.1) = ".qcap" →
      (base f.1 ≠ base path ∧ Recorded C byName f) ∨ f = (path, bytes))
    (hmem : (path, bytes) ∈ visited) (n : String) :
    (visited.foldl (visit C cfg modTime) byName).lookup n =
      if n = base path then some (artifactCapsule (base path) bytes.length (fileDigest C bytes)
        (created modTime byName path (base path)))
      else byName.lookup n := by
  induction visited generalizing byName with
  | nil => cases hmem
  | cons f visited ih =>
    rw [List.foldl_cons]
    by_cases hf : f = (path, bytes)
    · subst hf
      have hl := lookup_visit_new C bytes modTime byName hp hext
      rw [lookup_foldl_visit, hl n]
      intro g hg he
      rcases h g (List.mem_cons_of_mem _ hg) he with ⟨hne, hr⟩ | rfl
      · exact recorded_congr hr ((hl _).trans (if_neg hne))
      · refine ⟨created modTime byName path (base path), ?_, (hl _).trans (if_pos rfl)⟩
        unfold created
        by_cases ho : ((byName.lookup (base path)).map Capsule.createdAt).getD "" = ""
        · rwa [if_pos ho]
        · rwa [if_neg ho]
    · have hrest : (path, bytes) ∈ visited := (List.mem_cons.mp hmem).resolve_left (Ne.symm hf)
      have hl : ∀ n, (visit C cfg modTime byName f).lookup n = byName.lookup n :=
        lookup_visit fun he =>
          ((h f List.mem_cons_self he).resolve_right hf).2
      rw [ih _ hrest, created, created, hl, hl]
      intro g hg he
      rcases h g (List.mem_cons_of_mem _ hg) he with ⟨hne, hr⟩ | heq
      · exact .inl ⟨hne, recorded_congr hr (hl _)⟩
      · exact .inr heq

theorem sorted_rebuild (modTime : Path → String) (idx : List Capsule) (files : Files) :
    SortedIndex.Sorted Capsule.name (rebuild C cfg modTime idx files) :=
  SortedIndex.sorted_ofMap Capsule.name fun name _ h =>
    (h ▸ entryFor_rebuilt C cfg modTime idx files name).name

/-- What a reload makes of the store: an index that says, with its file, what `log` says. -/
structure ReloadsTo (C : Primitives) (G : GoLib) (X : IndexCodec) (cfg : Config)
    (modTime : Path → String) (files : Files) (log : List Commit)
    (index : List Capsule) : Prop where
  reads : ∃ idx, readIndex X cfg files = .ok idx ∧ rebuild C cfg modTime idx files = index
  coherent : ∀ files' : Files,
    (∀ p, ext (base p) = ".qcap" → files'.lookup p = files.lookup p) →
      files'.lookup cfg.indexPath = some (indexBytes X index) →
        Coherent C G X cfg log ⟨files', index⟩

theorem readIndex_congr (h : files'.lookup cfg.indexPath = files.lookup cfg.indexPath) :
    readIndex X cfg files' = readIndex X cfg files := by
  unfold readIndex
  rw [h]

theorem coherent_reloadsTo (hX : X.ReadsBack) {reg : Registry} (h : Coherent C G X cfg log reg)
    (modTime : Path → String) :
    ReloadsTo C G X cfg modTime reg.files log reg.index where
  reads := ⟨reg.index, h.readIndex hX, h.rebuild modTime⟩
  coherent files' hf hi := h.frame rfl fun p hp => by
    rcases hp with hp | rfl
    · exact hf p hp
    · exact hi.trans h.persisted.symm

/-- A reload keeps the time of the first commit of a name. -/
theorem created_kept {reg : Registry} (hc : Coherent C G X cfg log reg)
    (modTime : Path → String) (p : Path) (name : String) :
    created modTime (oldEntries reg.index) p name =
      (firstCreatedAt log name).getD (modTime p) := by
  unfold created
  cases hb : lastBytes log name with
  | none =>
    have hnone : (oldEntries reg.index).lookup name = none := by
      cases hl : (oldEntries reg.index).lookup name with
      | none => rfl
      | some e =>
        obtain ⟨he, hn⟩ := (lookup_oldEntries_iff hc.sorted).mp hl
        obtain ⟨bytes', _, hb', -⟩ := (hc.index e).mp he
        rw [hn, hb] at hb'
        cases hb'
    rw [hnone, firstCreatedAt_none hb]
    exact if_pos rfl
  | some bytes' =>
    obtain ⟨e, he, hn⟩ := EntryOf.listed C hb
    have hl := (lookup_oldEntries_iff hc.sorted).mpr ⟨(hc.index e).mpr he, hn⟩
    obtain ⟨_, createdAt, -, hcr, heq⟩ := he
    rw [hn] at hcr
    have hcreated : e.createdAt = createdAt := by
      rw [heq]
      rfl
    obtain ⟨d, hd, -, hdc⟩ := firstCreatedAt_mem hcr
    have hne' : e.createdAt ≠ "" := by
      rw [hcreated, ← hdc]
      exact (hc.committed d hd).created
    rw [hl, hcr, ← hcreated]
    exact if_neg hne'

theorem Behind.reloadsTo (hcfg : cfg.DefaultIndex) (hX : X.ReadsBack)
    (h : Behind C G X cfg log name bytes files) {modTime : Path → String}
    (hm : ∀ p, modTime p ≠ "") :
    ∃ index, ReloadsTo C G X cfg modTime files
      (log ++ [⟨name, bytes, modTime (cfg.artifactPath name)⟩]) index := by
  obtain ⟨reg, hc, hf⟩ := h.before
  have hbase : base (cfg.artifactPath name) = name := by rw [Config.artifactPath, base_append]
  have hext : ext (base (cfg.artifactPath name)) = ".qcap" := by rw [hbase, h.named]
  have hne : cfg.artifactPath name ≠ cfg.indexPath := artifact_ne_index hcfg hext
  have hstored : files.lookup (cfg.artifactPath name) = some bytes := by
    rw [hf _ (.inl hext), if_pos rfl]
  have hread : readIndex X cfg files = .ok reg.index := by
    rw [← hc.readIndex hX]
    apply readIndex_congr
    rw [hf _ (.inr rfl), if_neg (Ne.symm hne)]
  -- each file that the walk enters is the new artifact, or as the index says
  have hwalk : ∀ f ∈ walk cfg files, ext (base f.1) = ".qcap" →
      (base f.1 ≠ base (cfg.artifactPath name) ∧ Recorded C (oldEntries reg.index) f) ∨
        f = (cfg.artifactPath name, bytes) := by
    intro f hw he
    obtain ⟨hl, hp⟩ := mem_walk.mp hw
    by_cases hpath : f.1 = cfg.artifactPath name
    · right
      rw [hpath, hstored] at hl
      exact Prod.ext hpath (Option.some.inj hl).symm
    · left
      rw [hf _ (.inl he), if_neg hpath] at hl
      refine ⟨?_, hc.recorded (mem_walk.mpr ⟨hl, hp⟩) he⟩
      intro hb
      apply hpath
      rw [hc.below f.1 f.2 hl hp he, hb, hbase]
  have hlookup := lookup_foldl_visit_new (C := C) hne hext (hm _) hwalk
    (mem_walk.mpr ⟨hstored, List.prefix_append _ _⟩)
  refine ⟨rebuild C cfg modTime reg.index files, ⟨_, hread, rfl⟩, ?_⟩
  intro files' hq hi
  refine ⟨?_, sorted_rebuild modTime reg.index files, ?_, ?_, ?_, hi⟩
  · intro d hd
    rcases List.mem_append.mp hd with hd | hd
    · exact hc.committed d hd
    · rw [List.mem_singleton.mp hd]
      exact ⟨h.named, h.size, hm _, h.valid⟩
  · intro e
    rw [mem_rebuild, hlookup, hbase, created_kept hc]
    by_cases hn : e.name = name
    · rw [if_pos hn, entryOf_snoc_self C hn]
      exact ⟨fun h => (Option.some.inj h).symm, fun h => congrArg some h.symm⟩
    · rw [if_neg hn, entryOf_snoc_ne C hn, lookup_oldEntries_iff hc.sorted, ← hc.index]
      exact and_iff_left rfl
  · intro n hn
    have he : ext (base (cfg.artifactPath n)) = ".qcap" := by
      rw [Config.artifactPath, base_append, hn]
    rw [hq _ he, hf _ (.inl he), lastBytes_snoc]
    by_cases hnn : name = n
    · rw [if_pos (by rw [hnn]), if_pos hnn]
    · have hpath : cfg.artifactPath n ≠ cfg.artifactPath name := by
        simpa [Config.artifactPath] using Ne.symm hnn
      rw [if_neg hpath, if_neg hnn]
      exact hc.stored n hn
  · intro p bytes' hp hs he
    by_cases hpath : p = cfg.artifactPath name
    · rw [hpath, hbase]
    · rw [hq _ he, hf _ (.inl he), if_neg hpath] at hp
      exact hc.below p bytes' hp hs he

variable (C G X cfg)

/-- `loadIndex` in a new process. -/
def restartCalls (numbers : Numbers) (modTime : Path → String) :
    RegistryProgram (GoResult Unit) := do
  remember fun _ => []
  loadIndexCalls C X cfg .none numbers modTime

inductive Recoverable (logs : List Commit → Prop) (files : Files) : Prop where
  | saved {log : List Commit} {index : List Capsule} : logs log →
      Coherent C G X cfg log ⟨files, index⟩ → Recoverable logs files
  | behind {log : List Commit} {name : String} {bytes : Bytes} :
      Behind C G X cfg log name bytes files →
      (∀ createdAt, createdAt ≠ "" → logs (log ++ [⟨name, bytes, createdAt⟩])) →
      Recoverable logs files

variable {C G X cfg} {logs : List Commit → Prop}

def SameState (cfg : Config) (files files' : Files) : Prop :=
  ∀ p, ext (base p) = ".qcap" ∨ p = cfg.indexPath → files'.lookup p = files.lookup p

theorem Behind.frame (h : Behind C G X cfg log name bytes files)
    (hf : SameState cfg files files') : Behind C G X cfg log name bytes files' := by
  obtain ⟨reg, hc, hb⟩ := h.before
  exact ⟨h.named, h.size, h.valid, reg, hc, fun p hp => (hf p hp).trans (hb p hp)⟩

theorem Recoverable.frame (h : Recoverable C G X cfg logs files) (hf : SameState cfg files files') :
    Recoverable C G X cfg logs files' := by
  cases h with
  | saved hl hc => exact .saved hl (hc.frame rfl hf)
  | behind hb hl => exact .behind (hb.frame hf) hl

theorem Recoverable.reloadsTo (hcfg : cfg.DefaultIndex) (hX : X.ReadsBack)
    (h : Recoverable C G X cfg logs files) {modTime : Path → String} (hm : ∀ p, modTime p ≠ "") :
    ∃ log index, logs log ∧
      ReloadsTo C G X cfg modTime files log index := by
  cases h with
  | saved hl hc => exact ⟨_, _, hl, coherent_reloadsTo hX hc modTime⟩
  | behind hb hl =>
    obtain ⟨index, hr⟩ := hb.reloadsTo hcfg hX hm
    exact ⟨_, index, hl _ (hm _), hr⟩

theorem not_detours {old : Option Bytes} : ¬ ReplaceFaults.none.Detours old := by
  rintro ⟨-, hr, -⟩
  exact hr rfl

theorem artifact_ne_indexTemp {p : Path} (hp : ext (base p) = ".qcap") (numbers : Numbers) :
    p ≠ cfg.indexTemp numbers := by
  apply (Tracked.artifact hp).ne cfg
  rw [Config.indexTemp, tempPath, base_append]
  exact temporary_index _

theorem saveIndex_cases (hcfg : cfg.DefaultIndex) {numbers : Numbers} {reg now : Registry}
    (h : now ∈ (saveIndexCalls X cfg SaveFaults.none numbers).moments reg) :
    (∀ p, ext (base p) = ".qcap" → now.files.lookup p = reg.files.lookup p) ∧
      (now.files.lookup cfg.indexPath = reg.files.lookup cfg.indexPath ∨
        now.files.lookup cfg.indexPath = some (indexBytes X reg.index)) := by
  obtain ⟨-, hm⟩ := saveIndex_moments h
  refine ⟨?_, ?_⟩
  · intro p hp
    have ht : Tracked cfg p := .artifact hp
    exact hm.other p (artifact_ne_indexTemp hp numbers) (ht.ne cfg (temporary_backup _ _))
      (artifact_ne_index hcfg hp)
  · rcases hm.target with hold | hnew | ⟨hd, -⟩
    · exact .inl hold
    · exact .inr hnew
    · exact absurd hd not_detours

/-- A reload ends with the index that it makes, and on the way its file is the old or the new. -/
theorem load_spec (hcfg : cfg.DefaultIndex) (numbers : Numbers) {modTime : Path → String}
    {reg : Registry} {index : List Capsule}
    (h : ReloadsTo C G X cfg modTime reg.files log index) :
    Coherent C G X cfg log ((loadIndexCalls C X cfg .none numbers modTime).run reg).2 ∧
      ∀ now ∈ (loadIndexCalls C X cfg .none numbers modTime).moments reg,
        SameState cfg reg.files now.files ∨ Coherent C G X cfg log ⟨now.files, index⟩ := by
  obtain ⟨⟨idx, hread, hrebuild⟩, hcoherent⟩ := h
  constructor
  · obtain ⟨files', hsave, hl⟩ := saveIndexLocked_none X cfg numbers index reg.files
    have hrun : (loadIndexCalls C X cfg .none numbers modTime).run reg =
        (.ok (), ⟨files', index⟩) := by
      rw [run_loadIndexCalls]
      simp only [loadIndexLocked, hread, hrebuild, hsave]
    rw [hrun]
    refine hcoherent files' ?_ ?_
    · intro p hp
      rw [hl, if_neg (artifact_ne_index hcfg hp), if_neg (artifact_ne_indexTemp hp numbers)]
    · rw [hl, if_pos rfl]
  · intro now hnow
    have hsame : SameState cfg reg.files reg.files := fun _ _ => rfl
    have hold : oldIndex X cfg LoadFaults.none.read reg = .ok idx := hread
    unfold loadIndexCalls at hnow
    rw [Program.mem_moments_bind, mem_moments_observe, run_observe, hold] at hnow
    rcases hnow with rfl | hnow
    · exact .inl hsame
    dsimp only [LoadFaults.none] at hnow
    rw [Program.mem_moments_bind, mem_moments_observe, run_observe, hrebuild] at hnow
    rcases hnow with rfl | hnow
    · exact .inl hsame
    rw [Program.mem_moments_bind, run_remember] at hnow
    rcases hnow with hnow | hnow
    · rcases Program.mem_moments_call.mp hnow with rfl | rfl
      · exact .inl hsame
      · exact .inl hsame
    obtain ⟨hq, hold | hnew⟩ := saveIndex_cases hcfg hnow
    · left
      rintro p (hp | rfl)
      · exact hq p hp
      · exact hold
    · exact .inr (hcoherent now.files hq hnew)

theorem restart_meets (hcfg : cfg.DefaultIndex) (hX : X.ReadsBack) (numbers : Numbers)
    {modTime : Path → String} (hm : ∀ p, modTime p ≠ "") :
    (restartCalls C X cfg numbers modTime).Meets
      (fun reg => Recoverable C G X cfg logs reg.files)
      (fun _ reg => ∃ log, logs log ∧ Coherent C G X cfg log reg)
      (fun reg => Recoverable C G X cfg logs reg.files) := by
  have hforget : (remember fun _ => []).Preserves
      (fun reg => Recoverable C G X cfg logs reg.files) := Program.preserves_call fun _ h => h
  apply Program.Meets.bind hforget
  intro _ reg h
  obtain ⟨log, index, hlog, hr⟩ := h.reloadsTo hcfg hX hm
  obtain ⟨hend, hmoments⟩ := load_spec hcfg numbers hr
  refine ⟨⟨log, hlog, hend⟩, ?_⟩
  intro now hnow
  rcases hmoments now hnow with hs | hc
  · exact h.frame hs
  · exact .saved hlog hc

structure Surroundings where
  numbers : Numbers
  modTime : Path → String
  dated : ∀ p, modTime p ≠ ""

variable (C G X cfg)

/-- The calls of a step. Those that only read are left out. -/
def eventCalls (s : System) : Event → RegistryProgram Unit
  | .stage _ number authorization target body =>
    if authorized cfg authorization = true then
      match destination target with
      | none => .done ()
      | some dest => do
        let _ ← stageUploadCalls StageFaults.none (cfg.uploadPath number) body dest.maxBytes
        return ()
    else .done ()
  | .commit id numbers =>
    match s.jobs id with
    | some ⟨.artifact name, number, .digested written digest now⟩ => do
      let _ ← commitArtifactCalls X cfg CommitFaults.none numbers (cfg.uploadPath number)
        (cfg.artifactPath name) (artifactCapsule name written digest now)
      return ()
    | some ⟨.revocations issuer, number, .digested _ _ _⟩ => do
      let _ ← replaceFileCalls ReplaceFaults.none numbers.nanos (cfg.uploadPath number)
        (cfg.revocationPath issuer)
      return ()
    | _ => .done ()
  | .finish id =>
    match s.jobs id with
    | some ⟨_, number, .finished⟩ => quietly (remove none (cfg.uploadPath number))
    | _ => .done ()
  | .reload numbers modTime => do
    let _ ← loadIndexCalls C X cfg .none numbers modTime
    return ()
  | .restart numbers modTime => do
    let _ ← restartCalls C X cfg numbers modTime
    return ()
  | _ => .done ()

theorem run_restartCalls (numbers : Numbers) (modTime : Path → String) (reg : Registry) :
    (restartCalls C X cfg numbers modTime).run reg =
      loadIndexLocked C X cfg numbers modTime ⟨reg.files, []⟩ := by
  rw [restartCalls, Program.run_bind, run_remember, run_loadIndexCalls]

theorem run_eventCalls (s : System) (e : Event) :
    ((eventCalls C X cfg s e).run s.reg).2 = (next C G X cfg s e).reg := by
  cases e with
  | stage id number authorization target body =>
    simp only [eventCalls, next]
    by_cases ha : authorized cfg authorization = true
    · rw [if_pos ha, if_pos ha]
      cases destination target with
      | none => rfl
      | some dest =>
        simp only [Program.run_bind, run_stageUploadCalls, stageJob]
        rcases stageUpload StageFaults.none (cfg.uploadPath number) body dest.maxBytes
          s.reg.files with ⟨e | written, files⟩
        · rfl
        · rfl
    · rw [if_neg ha, if_neg ha]
      rfl
  | validate id =>
    simp only [eventCalls, next]
    rcases s.jobs id with _ | ⟨dest, number, written | _ | _ | _⟩
    · rfl
    · dsimp only
      cases validateJob C G dest (cfg.uploadPath number) s.reg.files with
      | error e => rfl
      | ok _ => rfl
    all_goals rfl
  | digest id now =>
    simp only [eventCalls, next]
    rcases s.jobs id with _ | ⟨dest, number, _ | written | _ | _⟩
    · rfl
    · rfl
    · dsimp only
      cases digestUpload C none (cfg.uploadPath number) s.reg.files with
      | error e => rfl
      | ok digest => rfl
    all_goals rfl
  | commit id numbers =>
    simp only [eventCalls, next]
    rcases s.jobs id with _ | ⟨name | issuer, number, _ | _ | ⟨written, digest, now⟩ | _⟩
    all_goals try rfl
    · simp only [Program.run_bind, run_commitArtifactCalls, commitJob]
      rcases commitArtifact X cfg CommitFaults.none numbers (cfg.uploadPath number)
        (cfg.artifactPath name) (artifactCapsule name written digest now) s.reg with ⟨e | _, reg⟩
      · rfl
      · rfl
    · simp only [Program.run_bind, run_replaceFileCalls, commitJob]
      rfl
  | finish id =>
    simp only [eventCalls, next]
    rcases s.jobs id with _ | ⟨dest, number, _ | _ | _ | _⟩
    all_goals try rfl
    rw [run_quietly_remove]
  | reload numbers modTime =>
    simp only [eventCalls, next, Program.run_bind, run_loadIndexCalls]
    rfl
  | abortedReload => rfl
  | restart numbers modTime =>
    simp only [eventCalls, next, Program.run_bind, run_restartCalls]
    rfl

def committing (s : System) : Event → Option (ℕ × String)
  | .commit id _ =>
    match s.jobs id with
    | some ⟨.artifact name, number, .digested _ _ _⟩ => some (number, name)
    | _ => none
  | _ => none

/-- The log after a kill. A commit counts from when the upload was renamed, and `createdAt` is
the time that it gets if it is the first of its name. -/
def logAfter (s : System) (e : Event) (files : Files) (createdAt : String) : List Commit :=
  match committing s e with
  | none => s.log
  | some (number, name) =>
    if (files.lookup (cfg.uploadPath number)).isSome then s.log
    else s.log ++ [⟨name, (s.reg.files.lookup (cfg.uploadPath number)).getD [], createdAt⟩]

/-- The time that the index gives to the commit that was cut short. -/
def indexTime (s : System) (e : Event) (index : List Capsule) : String :=
  match committing s e with
  | none => ""
  | some (_, name) => ((index.find? fun c => c.name = name).map Capsule.createdAt).getD ""

/-- After a kill at `now` in a step, and a restart: the requests are gone, the files are not. -/
def afterKill (s : System) (e : Event) (now restarted : Registry) : System :=
  ⟨restarted, fun _ => none, logAfter cfg s e now.files (indexTime s e restarted.index)⟩

/-- Runs in which the process may be killed at any moment of the calls of a step, and again
before a restart ends. -/
inductive KillReachable : System → Prop where
  | start (files : Files) (numbers : Numbers) (modTime : Path → String) :
      (∀ p, cfg.storeDir <+: p → files.lookup p = none) →
      KillReachable (start C X cfg files numbers modTime)
  | step {s : System} (e : Event) :
      KillReachable s → Enabled cfg s e → KillReachable (next C G X cfg s e)
  | kill {s : System} (e : Event) {now : Registry} {restarted : GoResult Unit × Registry} :
      KillReachable s → Enabled cfg s e → now ∈ (eventCalls C X cfg s e).moments s.reg →
      Program.Restarts (fun r : Surroundings => restartCalls C X cfg r.numbers r.modTime) now
        restarted →
      KillReachable (afterKill cfg s e now restarted.2)

variable {C G X cfg} {s : System} {e : Event} {now : Registry}

def LogsAfter (cfg : Config) (s : System) (e : Event) (files : Files) (log : List Commit) : Prop :=
  ∃ createdAt, createdAt ≠ "" ∧ log = logAfter cfg s e files createdAt

theorem recoverable_same (h : Coherent C G X cfg s.log s.reg)
    (hlog : LogsAfter cfg s e now.files s.log) (hs : SameState cfg s.reg.files now.files) :
    Recoverable C G X cfg (LogsAfter cfg s e now.files) now.files :=
  have hc : Coherent C G X cfg s.log ⟨now.files, s.reg.index⟩ := h.frame rfl hs
  .saved hlog hc

theorem logsAfter_self (hc : committing s e = none) (files : Files) :
    LogsAfter cfg s e files s.log :=
  ⟨"-", by decide, by rw [logAfter, hc]⟩

theorem only_sameState {n : ℕ} {reg : Registry} (h : Only (cfg.uploadPath n) reg now) :
    SameState cfg reg.files now.files := fun _ hp =>
  h.files _ (tracked_ne_upload (Tracked.of_store hp) n)

theorem commit_recoverable (hcfg : cfg.DefaultIndex) (h : Coherent C G X cfg s.log s.reg)
    {number : ℕ} {name now' : String} {body : Bytes} (numbers : CommitNumbers)
    (hc : committing s e = some (number, name))
    (ht : s.reg.files.lookup (cfg.uploadPath number) = some body)
    (hcommitted : Committed C G ⟨name, body, now'⟩)
    (hnow : now ∈ (commitArtifactCalls X cfg CommitFaults.none numbers (cfg.uploadPath number)
      (cfg.artifactPath name) (artifactCapsule name body.length (fileDigest C body) now')).moments
        s.reg) :
    Recoverable C G X cfg (LogsAfter cfg s e now.files) now.files := by
  have hd : Tracked cfg (cfg.artifactPath name) := artifact_tracked hcommitted.named
  have htd := (tracked_ne_upload hd number).symm
  obtain ⟨reg', hcm, hcoherent, -⟩ := h.commit hcfg ht hcommitted numbers
  obtain ⟨files', hcm', hl'⟩ := commitArtifact_none X cfg numbers (cfg.artifactPath name)
    (artifactCapsule name body.length (fileDigest C body) now') ht
  -- the two places where the upload may be
  have hstill : ∀ files : Files, files.lookup (cfg.uploadPath number) = some body →
      LogsAfter cfg s e files s.log := by
    intro files hf
    exact ⟨"-", by decide, by simp [logAfter, hc, hf]⟩
  have hgone : ∀ files : Files, files.lookup (cfg.uploadPath number) = none →
      ∀ createdAt, createdAt ≠ "" →
        LogsAfter cfg s e files (s.log ++ [⟨name, body, createdAt⟩]) := by
    intro files hf createdAt hne
    exact ⟨createdAt, hne, by simp [logAfter, hc, hf, ht]⟩
  set renamed := (s.reg.files.erase (cfg.uploadPath number)).insert (cfg.artifactPath name) body
    with hrenamed
  have hbehind : Behind C G X cfg s.log name body renamed := by
    refine ⟨hcommitted.named, hcommitted.size, hcommitted.valid, s.reg, h, ?_⟩
    intro p hp
    rw [hrenamed, lookup_rename, if_neg (tracked_ne_upload (Tracked.of_store hp) number)]
  have hno : renamed.lookup (cfg.uploadPath number) = none := by
    rw [hrenamed, lookup_rename, if_neg htd, if_pos rfl]
  have hreplace : ∀ now ∈ (replaceFileCalls CommitFaults.none.replace numbers.nanos
      (cfg.uploadPath number) (cfg.artifactPath name)).moments s.reg,
      Recoverable C G X cfg (LogsAfter cfg s e now.files) now.files := by
    intro now hm
    obtain ⟨-, hm⟩ := replaceFile_moments ht htd backup_ne_upload hm
    generalize now.files = files at hm
    cases hm with
    | unchanged => exact .saved (hstill _ ht) h
    | renamed => exact .behind hbehind (hgone _ hno)
    | aside _ hdet => exact absurd hdet not_detours
    | installed _ hdet => exact absurd hdet not_detours
    | removed _ hdet => exact absurd hdet not_detours
    | restored _ hdet => exact absurd hdet not_detours
  unfold commitArtifactCalls at hnow
  rw [Program.mem_moments_bind] at hnow
  rcases hnow with hnow | hnow
  · exact hreplace now hnow
  have hrun : (replaceFileCalls CommitFaults.none.replace numbers.nanos (cfg.uploadPath number)
      (cfg.artifactPath name)).run s.reg = (.ok (), ⟨renamed, s.reg.index⟩) := by
    rw [run_replaceFileCalls, CommitFaults.none, replaceFile_none ht]
  rw [hrun] at hnow
  dsimp only at hnow
  rw [Program.mem_moments_bind, run_remember] at hnow
  rcases hnow with hnow | hnow
  · rcases Program.mem_moments_call.mp hnow with rfl | rfl
    · exact .behind hbehind (hgone _ hno)
    · exact .behind hbehind (hgone _ hno)
  dsimp only at hnow
  obtain ⟨-, hm⟩ := saveIndex_moments hnow
  obtain ⟨hq, hfile⟩ := saveIndex_cases hcfg hnow
  have hupload : now.files.lookup (cfg.uploadPath number) = none := by
    rw [hm.other _ (uploadPath_ne_indexTemp number _) backup_ne_upload.symm
      (tracked_ne_upload .index number).symm]
    exact hno
  rcases hfile with hold | hnew
  · refine .behind (hbehind.frame ?_) (hgone _ hupload)
    rintro p (hp | rfl)
    · exact hq p hp
    · exact hold
  · cases hcm.symm.trans hcm'
    have hc' : ∀ files : Files, SameState cfg files' files →
        Recoverable C G X cfg (LogsAfter cfg s e now.files) files := fun _ hf =>
      .saved (hgone _ hupload _ hcommitted.created) (hcoherent.frame rfl hf)
    apply hc' now.files
    rintro p (hp | rfl)
    · rw [hq p hp, hl', if_neg (artifact_ne_index hcfg hp),
        if_neg (artifact_ne_indexTemp hp numbers.save)]
      exact lookup_rename
    · rw [hnew, hl', if_pos rfl]

theorem commit_cases (C : Primitives) (X : IndexCodec) (cfg : Config) (s : System) (id : ℕ)
    (numbers : CommitNumbers) :
    (∃ name number written digest now,
      s.jobs id = some ⟨.artifact name, number, .digested written digest now⟩) ∨
    (∃ issuer number written digest now,
      s.jobs id = some ⟨.revocations issuer, number, .digested written digest now⟩) ∨
    (eventCalls C X cfg s (.commit id numbers) = .done () ∧
      committing s (.commit id numbers) = none) := by
  cases hj : s.jobs id with
  | none => simp [eventCalls, committing, hj]
  | some job =>
    obtain ⟨dest, number, phase⟩ := job
    cases phase with
    | digested written digest now =>
      cases dest with
      | artifact name => exact .inl ⟨name, number, written, digest, now, rfl⟩
      | revocations issuer => exact .inr (.inl ⟨issuer, number, written, digest, now, rfl⟩)
    | staged written => cases dest <;> simp [eventCalls, committing, hj]
    | validated written => cases dest <;> simp [eventCalls, committing, hj]
    | finished => cases dest <;> simp [eventCalls, committing, hj]

/-- The steps that write nothing but the upload of their own request. -/
def Private : Event → Prop
  | .stage _ _ _ _ _ | .validate _ | .digest _ _ | .finish _ | .abortedReload => True
  | .commit _ _ | .reload _ _ | .restart _ _ => False

theorem private_uncommitting (h : Private e) : committing s e = none := by
  cases e with
  | commit id numbers => cases h
  | _ => rfl

theorem private_moments (h : Private e) (hnow : now ∈ (eventCalls C X cfg s e).moments s.reg) :
    ∃ number, Only (cfg.uploadPath number) s.reg now := by
  have hdone : now ∈ (Program.done () : RegistryProgram Unit).moments s.reg →
      ∃ number, Only (cfg.uploadPath number) s.reg now := by
    intro hm
    rw [Program.mem_moments_done.mp hm]
    exact ⟨0, Only.refl _ _⟩
  cases e with
  | stage id number authorization target body =>
    simp only [eventCalls] at hnow
    by_cases ha : authorized cfg authorization = true
    · rw [if_pos ha] at hnow
      cases hd : destination target with
      | none =>
        rw [hd] at hnow
        exact hdone hnow
      | some dest =>
        rw [hd] at hnow
        exact ⟨number, stageUpload_moments (Program.mem_moments_returns (fun _ => ⟨(), rfl⟩) hnow)⟩
    · rw [if_neg ha] at hnow
      exact hdone hnow
  | validate id => exact hdone hnow
  | digest id now' => exact hdone hnow
  | abortedReload => exact hdone hnow
  | finish id =>
    simp only [eventCalls] at hnow
    rcases hj : s.jobs id with _ | ⟨dest, number, _ | _ | _ | _⟩
    case some.finished =>
      rw [hj] at hnow
      exact ⟨number, (discard_only _ none _ (Only.refl _ _)).2 now hnow⟩
    all_goals
      rw [hj] at hnow
      exact hdone hnow
  | commit id numbers => cases h
  | reload numbers modTime => cases h
  | restart numbers modTime => cases h

/-- A kill at any moment of a step leaves files from which a restart recovers. -/
theorem invariant_recoverable (hcfg : cfg.DefaultIndex) (hX : X.ReadsBack)
    (h : Invariant C G cfg X s) (hnow : now ∈ (eventCalls C X cfg s e).moments s.reg) :
    Recoverable C G X cfg (LogsAfter cfg s e now.files) now.files := by
  have hcoherent := h.coherent
  have hsame : SameState cfg s.reg.files s.reg.files := fun _ _ => rfl
  have hreload : ∀ {numbers : Numbers} {modTime : Path → String} {reg : Registry},
      reg.files = s.reg.files → committing s e = none →
      now ∈ (loadIndexCalls C X cfg .none numbers modTime).moments reg →
      Recoverable C G X cfg (LogsAfter cfg s e now.files) now.files := by
    intro numbers modTime reg hf hc hm
    have hr := coherent_reloadsTo hX hcoherent modTime
    rw [← hf] at hr
    rcases (load_spec hcfg numbers hr).2 now hm with hs | hc'
    · exact recoverable_same hcoherent (logsAfter_self hc _) (hf ▸ hs)
    · exact .saved (logsAfter_self hc _) hc'
  by_cases hprivate : Private e
  · obtain ⟨number, honly⟩ := private_moments hprivate hnow
    exact recoverable_same hcoherent (logsAfter_self (private_uncommitting hprivate) _)
      (only_sameState honly)
  cases e with
  | stage | validate | digest | finish | abortedReload => exact absurd trivial hprivate
  | reload numbers modTime =>
    exact hreload rfl rfl (Program.mem_moments_returns (fun _ => ⟨(), rfl⟩) hnow)
  | restart numbers modTime =>
    have hrestart := Program.mem_moments_returns (fun _ => ⟨(), rfl⟩) hnow
    unfold restartCalls at hrestart
    rw [Program.mem_moments_bind, run_remember] at hrestart
    rcases hrestart with hm | hm
    · rcases Program.mem_moments_call.mp hm with rfl | rfl
      · exact recoverable_same hcoherent (logsAfter_self rfl _) hsame
      · exact recoverable_same hcoherent (logsAfter_self rfl _) hsame
    · have hempty : (⟨s.reg.files, []⟩ : Registry).files = s.reg.files := rfl
      exact hreload hempty rfl hm
  | commit id numbers =>
    rcases commit_cases C X cfg s id numbers with ⟨name, number, written, digest, now', hj⟩ |
      ⟨issuer, number, written, digest, now', hj⟩ | ⟨hdone, hc⟩
    · obtain ⟨body, hu, ha, rfl, hne⟩ := h.sound id _ hj
      obtain rfl := hu.written
      simp only [eventCalls, hj] at hnow
      exact commit_recoverable hcfg hcoherent numbers (by simp [committing, hj]) hu.temp
        ⟨ha.1, hu.size, hne, ha.2⟩ (Program.mem_moments_returns (fun _ => ⟨(), rfl⟩) hnow)
    · obtain ⟨body, hu, -⟩ := h.sound id _ hj
      simp only [eventCalls, hj] at hnow
      apply recoverable_same hcoherent (logsAfter_self (by simp [committing, hj]) _)
      have hlist : Tracked cfg (cfg.revocationPath issuer) := .revocations issuer
      obtain ⟨-, hm⟩ := replaceFile_midway hu.temp (tracked_ne_upload hlist number).symm
        (hlist.ne cfg (temporary_backup _ numbers.nanos)).symm backup_ne_upload
        (Program.mem_moments_returns (fun _ => ⟨(), rfl⟩) hnow)
      intro p hp
      have ht := Tracked.of_store hp
      exact hm.other p (tracked_ne_upload ht number) (ht.ne cfg (temporary_backup _ _))
        (artifact_ne_list hcfg issuer hp)
    · rw [hdone] at hnow
      rw [Program.mem_moments_done.mp hnow]
      exact recoverable_same hcoherent (logsAfter_self hc _) hsame

theorem coherent_retime {createdAt : String} {reg : Registry}
    (h : Coherent C G X cfg (log ++ [⟨name, bytes, createdAt⟩]) reg) :
    Coherent C G X cfg
      (log ++ [⟨name, bytes, (firstCreatedAt log name).getD createdAt⟩]) reg := by
  have hlast := h.committed _ (List.mem_append_right log List.mem_cons_self)
  have hlog : ∀ c ∈ log, Committed C G c := fun c hc => h.committed c (List.mem_append_left _ hc)
  have hne : (firstCreatedAt log name).getD createdAt ≠ "" := by
    cases hf : firstCreatedAt log name with
    | none => exact hlast.created
    | some t =>
      obtain ⟨c, hc, -, rfl⟩ := firstCreatedAt_mem hf
      exact (hlog c hc).created
  refine ⟨?_, h.sorted, ?_, ?_, h.below, h.persisted⟩
  · intro c hc
    rcases List.mem_append.mp hc with hc | hc
    · exact hlog c hc
    · rw [List.mem_singleton.mp hc]
      exact ⟨hlast.named, hlast.size, hne, hlast.valid⟩
  · intro e
    rw [h.index]
    by_cases hn : e.name = name
    · rw [entryOf_snoc_self C hn, entryOf_snoc_self C hn]
      cases firstCreatedAt log name with
      | none => rfl
      | some t => rfl
    · rw [entryOf_snoc_ne C hn, entryOf_snoc_ne C hn]
  · intro n hn
    rw [h.stored n hn, lastBytes_snoc, lastBytes_snoc]

theorem coherent_find {log : List Commit} {reg : Registry} (h : Coherent C G X cfg log reg)
    {bytes : Bytes} (hb : lastBytes log name = some bytes) :
    ((reg.index.find? fun c => c.name = name).map Capsule.createdAt).getD "" =
      (firstCreatedAt log name).getD "" := by
  obtain ⟨entry, he, hn⟩ := EntryOf.listed C hb
  have hm := (h.index entry).mpr he
  cases hf : reg.index.find? fun c => c.name = name with
  | none => exact absurd (decide_eq_true hn) (List.find?_eq_none.mp hf entry hm)
  | some found =>
    have hfn : found.name = name := by simpa using List.find?_some hf
    have hfe := h.sorted.key_injective Capsule.name (List.mem_of_find?_eq_some hf) hm
      (hfn.trans hn.symm)
    obtain ⟨_, createdAt, -, hc, heq⟩ := he
    rw [hn] at hc
    rw [hfe, hc, heq]
    rfl

theorem coherent_after {createdAt : String} {reg : Registry} {files : Files}
    (h : Coherent C G X cfg (logAfter cfg s e files createdAt) reg) :
    Coherent C G X cfg (logAfter cfg s e files (indexTime s e reg.index)) reg := by
  cases hc : committing s e with
  | none =>
    simp only [logAfter, hc] at h ⊢
    exact h
  | some target =>
    obtain ⟨number, name⟩ := target
    simp only [logAfter, indexTime, hc] at h ⊢
    by_cases hu : (files.lookup (cfg.uploadPath number)).isSome = true
    · rw [if_pos hu] at h ⊢
      exact h
    · rw [if_neg hu] at h ⊢
      have hlast := lastBytes_snoc s.log
        ⟨name, (s.reg.files.lookup (cfg.uploadPath number)).getD [], createdAt⟩ name
      rw [if_pos rfl] at hlast
      rw [coherent_find h hlast, firstCreatedAt_snoc, if_pos rfl]
      have hretime := coherent_retime h
      cases hf : firstCreatedAt s.log name with
      | none => exact h
      | some t =>
        rw [hf] at hretime
        exact hretime

theorem KillReachable.invariant (hcfg : cfg.DefaultIndex) (hX : X.ReadsBack)
    (h : KillReachable C G X cfg s) : Invariant C G cfg X s := by
  induction h with
  | start files numbers modTime hf =>
    refine ⟨Coherent.start hcfg hf numbers modTime, ?_, ?_, ?_⟩
    · intro id job name hj
      cases hj
    · intro id job hj
      cases hj
    · intro id id' job job' hj
      cases hj
  | step e _ he ih => exact ih.next hcfg hX he
  | kill e _ _ hnow hrestarted ih =>
    have hrec := invariant_recoverable hcfg hX ih hnow
    obtain ⟨log, ⟨createdAt, -, rfl⟩, hc⟩ := hrestarted.holds
      (fun r => restart_meets hcfg hX r.numbers r.dated) hrec
    refine ⟨coherent_after hc, ?_, ?_, ?_⟩
    · intro id job name hj
      cases hj
    · intro id job hj
      cases hj
    · intro id id' job job' hj
      cases hj

/-- Wherever the process is killed, in a request, a reload or a restart: once it runs again the
index, its file and the artifacts agree, with all commits that were made. -/
theorem killReachable_consistent (hcfg : cfg.DefaultIndex) (hX : X.ReadsBack)
    (h : KillReachable C G X cfg s) : Consistent C G X cfg s :=
  (h.invariant hcfg hX).coherent.consistent hX

variable (C X cfg)

/-- A kill at `now`, and a restart that is killed once as it begins. -/
def killedAt (s : System) (e : Event) (now : Registry) (r : Surroundings) : System :=
  afterKill cfg s e now ((restartCalls C X cfg r.numbers r.modTime).run now).2

def installed (s : System) (number : ℕ) (name : String) (body : Bytes) : Registry :=
  ⟨(s.reg.files.erase (cfg.uploadPath number)).insert (cfg.artifactPath name) body, s.reg.index⟩

variable {C X cfg}

theorem restarts_again (now : Registry) (r : Surroundings) :
    Program.Restarts (fun r : Surroundings => restartCalls C X cfg r.numbers r.modTime) now
      ((restartCalls C X cfg r.numbers r.modTime).run now) :=
  .again r (Program.self_mem_moments _ _) (.finish r _)

section

variable {id number written : ℕ} {name digest createdAt : String} {body : Bytes}

theorem installed_moment (numbers : CommitNumbers)
    (hj : s.jobs id = some ⟨.artifact name, number, .digested written digest createdAt⟩)
    (hb : s.reg.files.lookup (cfg.uploadPath number) = some body) :
    installed cfg s number name body ∈
      (eventCalls C X cfg s (.commit id numbers)).moments s.reg := by
  have hrun : ((replaceFileCalls ReplaceFaults.none numbers.nanos (cfg.uploadPath number)
      (cfg.artifactPath name)).run s.reg).2 = installed cfg s number name body := by
    rw [run_replaceFileCalls, replaceFile_none hb]
    rfl
  simp only [eventCalls, hj]
  rw [Program.mem_moments_bind]
  refine .inl ?_
  unfold commitArtifactCalls
  rw [Program.mem_moments_bind]
  refine .inl ?_
  rw [← hrun]
  exact Program.run_mem_moments _ _

theorem logAfter_installed (numbers : CommitNumbers) (time : String) (hext : ext name = ".qcap")
    (hj : s.jobs id = some ⟨.artifact name, number, .digested written digest createdAt⟩)
    (hb : s.reg.files.lookup (cfg.uploadPath number) = some body) :
    logAfter cfg s (.commit id numbers) (installed cfg s number name body).files time =
      s.log ++ [⟨name, body, time⟩] := by
  have hmoved : (installed cfg s number name body).files.lookup (cfg.uploadPath number) = none := by
    rw [installed, lookup_rename, if_neg (tracked_ne_upload (artifact_tracked hext) number).symm,
      if_pos rfl]
  simp only [logAfter, committing, hj, hmoved, hb, Option.isSome_none, Option.getD_some,
    Bool.false_eq_true, if_false]

theorem KillReachable.killed_upload (h : KillReachable C G X cfg s) {authorization : String}
    {target : Target} {now : String} (numbers : CommitNumbers) (r : Surroundings)
    (ha : authorized cfg authorization = true)
    (hd : destination target = some (.artifact name)) (hl : body.length ≤ maxArtifactBytes)
    (hv : (Dest.artifact name).Accepts C G body) (hid : s.jobs id = none)
    (hfresh : s.reg.files.lookup (cfg.uploadPath number) = none)
    (hnumber : ∀ id' job, s.jobs id' = some job → job.number ≠ number) (hnow : now ≠ "") :
    let s' := (uploadEvents id number now ⟨target, authorization, body⟩).foldl (next C G X cfg) s
    let s'' := killedAt C X cfg s' (.commit id numbers) (installed cfg s' number name body) r
    KillReachable C G X cfg s'' ∧ ∃ time, s''.log = s.log ++ [⟨name, body, time⟩] := by
  have hstage := h.step (.stage id number authorization target body) ⟨hid, hfresh, hnumber⟩
  have hdigest := (hstage.step (.validate id) trivial).step (.digest id now) hnow
  intro s'
  obtain ⟨hreg, hlog, hjobs⟩ := upload_digested (X := X) (s := s) id number now ha hd hl hv
  have hb : s'.reg.files.lookup (cfg.uploadPath number) = some body := by
    rw [hreg]
    exact AList.lookup_insert _
  have hj : s'.jobs id = _ := (congrFun hjobs id).trans (Function.update_self ..)
  have hafter : ∀ time, logAfter cfg s' (.commit id numbers)
      (installed cfg s' number name body).files time = s'.log ++ [⟨name, body, time⟩] :=
    fun time => logAfter_installed numbers time hv.1 hj hb
  rw [hlog] at hafter
  exact ⟨hdigest.kill (.commit id numbers) trivial (installed_moment numbers hj hb)
    (restarts_again _ r), _, hafter _⟩

end

def sampleSurroundings : Surroundings where
  numbers := ⟨5, 0⟩
  modTime _ := "2024-02-02T00:00:00Z"
  dated _ := by decide

def sampleStarted : System := start toy (goIndexCodec false) sampleConfig ∅ ⟨0, 0⟩ fun _ => ""

def sampleDigested : System :=
  (uploadEvents 0 1 "2024-01-01T00:00:00Z" ⟨.artifact "", "", sampleArchive⟩).foldl
    (next toy (legacyGo sampleBundle) (goIndexCodec false) sampleConfig) sampleStarted

def sampleRestarted : System :=
  killedAt toy (goIndexCodec false) sampleConfig sampleDigested (.commit 0 ⟨0, ⟨2, 0⟩⟩)
    (installed sampleConfig sampleDigested 1 "artifact.qcap" sampleArchive) sampleSurroundings

theorem sampleRestarted_consistent :
    (∃ time, sampleRestarted.log = [⟨"artifact.qcap", sampleArchive, time⟩]) ∧
    Consistent toy (legacyGo sampleBundle) (goIndexCodec false) sampleConfig sampleRestarted := by
  have hname : artifactName "" = some "artifact.qcap" := by decide
  have hext : ext "artifact.qcap" = ".qcap" := by decide
  have hdest : destination (.artifact "") = some (.artifact "artifact.qcap") := by
    rw [destination, hname]
    rfl
  have hstart : KillReachable toy (legacyGo sampleBundle) (goIndexCodec false) sampleConfig
      sampleStarted := .start _ _ _ fun p _ => AList.lookup_empty p
  have hfresh : sampleStarted.reg.files.lookup (sampleConfig.uploadPath 1) = none := by
    decide +kernel
  have hnow : "2024-01-01T00:00:00Z" ≠ "" := by decide
  obtain ⟨hreach, time, hlog⟩ := hstart.killed_upload ⟨0, ⟨2, 0⟩⟩ sampleSurroundings rfl hdest
    sampleArchive_fits ⟨hext, sampleArchive_accepted⟩ (show sampleStarted.jobs 0 = none from rfl)
    hfresh (by intro id' job hj; cases hj) hnow
  exact ⟨⟨time, hlog⟩, killReachable_consistent rfl (goIndexCodec_readsBack false) hreach⟩

end QCap.RegistryKills
