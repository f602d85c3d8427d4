import QCap.RegistryCalls

/-!
# Moments of a request

What lies in the store between two calls of a request, with any failures: a file that holds
state of the registry has its old contents or its complete new ones, or it is missing for as
long as its old contents are set aside.
-/
namespace QCap.RegistryMoments

open QCap.Text QCap.Crypto QCap.CrashSafety QCap.RegistryArchive QCap.RegistryFiles
open QCap.RegistryIndex QCap.RegistryPublish QCap.RegistryCalls QCap.GoDocuments QCap.IndexJson

variable {C : Primitives} {G : GoLib} {X : IndexCodec} {cfg : Config}

/-- The states of `replaceFile`: the old file is in place, gives way to the new one, or is set
aside under `backup` on the detour. -/
inductive ReplaceMoment (faults : ReplaceFaults) (temp dest backup : Path) (files : Files)
    (new : Bytes) : Files → Prop where
  | unchanged : ReplaceMoment faults temp dest backup files new files
  | renamed : ReplaceMoment faults temp dest backup files new ((files.erase temp).insert dest new)
  | aside {old : Bytes} : files.lookup dest = some old → faults.Detours (some old) →
      ReplaceMoment faults temp dest backup files new ((files.erase dest).insert backup old)
  | installed {old : Bytes} : files.lookup dest = some old → faults.Detours (some old) →
      ReplaceMoment faults temp dest backup files new
        ((((files.erase dest).insert backup old).erase temp).insert dest new)
  | removed {old : Bytes} : files.lookup dest = some old → faults.Detours (some old) →
      ReplaceMoment faults temp dest backup files new
        (((((files.erase dest).insert backup old).erase temp).insert dest new).erase backup)
  | restored {old : Bytes} : files.lookup dest = some old → faults.Detours (some old) →
      ReplaceMoment faults temp dest backup files new
        ((((files.erase dest).insert backup old).erase backup).insert dest old)

theorem mem_moments_attempt {op : Files → GoResult Files} {reg now : Registry} :
    now ∈ (attempt op).moments reg ↔ now = reg ∨ now = ((attempt op).run reg).2 :=
  Program.mem_moments_call

theorem mem_moments_observe {α : Type} {read : Registry → α} {reg now : Registry} :
    now ∈ (observe read).moments reg ↔ now = reg := by
  rw [observe, Program.mem_moments_call, or_self]

theorem mem_moments_quietly {op : Files → GoResult Files} {reg now : Registry} :
    now ∈ (quietly op).moments reg ↔ now = reg ∨ now = ((attempt op).run reg).2 := by
  rw [quietly, Program.mem_moments_bind, mem_moments_attempt]
  constructor
  · rintro (h | h)
    · exact h
    · exact .inr (Program.mem_moments_done.mp h)
  · exact .inl

theorem replaceFile_moments {faults : ReplaceFaults} {nanos : ℕ} {temp dest : Path}
    {files : Files} {index : List Capsule} {new : Bytes} (ht : files.lookup temp = some new)
    (htd : temp ≠ dest) (hbt : backupPath dest nanos ≠ temp) {now : Registry}
    (h : now ∈ (replaceFileCalls faults nanos temp dest).moments ⟨files, index⟩) :
    now.index = index ∧
      ReplaceMoment faults temp dest (backupPath dest nanos) files new now.files := by
  obtain ⟨mkdir, ren, st, bk, ins, rb, rm⟩ := faults
  unfold replaceFileCalls at h
  cases mkdir with
  | some e =>
    rw [Program.mem_moments_done.mp h]
    exact ⟨rfl, .unchanged⟩
  | none =>
  rw [Program.mem_moments_bind, mem_moments_attempt] at h
  cases ren with
  | none =>
    simp only [run_attempt, rename_ok ht] at h
    rcases h with (rfl | rfl) | h
    · exact ⟨rfl, .unchanged⟩
    · exact ⟨rfl, .renamed⟩
    · rw [Program.mem_moments_done.mp h]
      exact ⟨rfl, .renamed⟩
  | some renameErr =>
  simp only [run_attempt, rename_fault, or_self] at h
  rcases h with rfl | h
  · exact ⟨rfl, .unchanged⟩
  cases st with
  | some e =>
    rw [Program.mem_moments_done.mp h]
    exact ⟨rfl, .unchanged⟩
  | none =>
  rw [Program.mem_moments_bind, mem_moments_observe, run_observe] at h
  rcases h with rfl | h
  · exact ⟨rfl, .unchanged⟩
  cases hold : files.lookup dest with
  | none =>
    have hm : dest ∉ files := AList.lookup_eq_none.mp hold
    simp only [hm, not_false_eq_true, decide_true] at h
    rw [Program.mem_moments_done.mp h]
    exact ⟨rfl, .unchanged⟩
  | some old =>
  have hm : dest ∈ files := by
    rw [← AList.lookup_isSome, hold]
    rfl
  simp only [hm, not_true_eq_false, decide_false] at h
  rw [Program.mem_moments_bind, mem_moments_attempt] at h
  cases bk with
  | some e =>
    simp only [run_attempt, rename_fault, or_self] at h
    rcases h with rfl | h
    · exact ⟨rfl, .unchanged⟩
    · rw [Program.mem_moments_done.mp h]
      exact ⟨rfl, .unchanged⟩
  | none =>
  have hd : ReplaceFaults.Detours ⟨none, some renameErr, none, none, ins, rb, rm⟩ (some old) := by
    simp [ReplaceFaults.Detours]
  simp only [run_attempt, rename_ok hold] at h
  rcases h with (rfl | rfl) | h
  · exact ⟨rfl, .unchanged⟩
  · exact ⟨rfl, .aside hold hd⟩
  -- from here on the old file is aside
  rw [Program.mem_moments_bind, mem_moments_attempt] at h
  cases ins with
  | some e =>
    simp only [run_attempt, rename_fault, or_self] at h
    rcases h with rfl | h
    · exact ⟨rfl, .aside hold hd⟩
    rw [Program.mem_moments_bind, mem_moments_quietly] at h
    cases rb with
    | some e' =>
      simp only [run_attempt, rename_fault, or_self, quietly, Program.run_bind] at h
      rcases h with rfl | h
      · exact ⟨rfl, .aside hold hd⟩
      · rw [Program.mem_moments_done.mp h]
        exact ⟨rfl, .aside hold hd⟩
    | none =>
      simp only [run_attempt, rename_ok (AList.lookup_insert _), quietly, Program.run_bind] at h
      rcases h with (rfl | rfl) | h
      · exact ⟨rfl, .aside hold hd⟩
      · exact ⟨rfl, .restored hold hd⟩
      · rw [Program.mem_moments_done.mp h]
        exact ⟨rfl, .restored hold hd⟩
  | none =>
  have ht' : ((files.erase dest).insert (backupPath dest nanos) old).lookup temp = some new := by
    rw [lookup_rename, if_neg (Ne.symm hbt), if_neg htd, ht]
  simp only [run_attempt, rename_ok ht'] at h
  rcases h with (rfl | rfl) | h
  · exact ⟨rfl, .aside hold hd⟩
  · exact ⟨rfl, .installed hold hd⟩
  rw [Program.mem_moments_bind, mem_moments_attempt] at h
  cases rm with
  | some e =>
    simp only [run_attempt, remove, or_self] at h
    rcases h with rfl | h
    · exact ⟨rfl, .installed hold hd⟩
    · rw [Program.mem_moments_done.mp h]
      exact ⟨rfl, .installed hold hd⟩
  | none =>
    have hb : backupPath dest nanos ∈
        (((files.erase dest).insert (backupPath dest nanos) old).erase temp).insert dest new := by
      simp [hbt]
    simp only [run_attempt, remove, hb, if_true] at h
    rcases h with (rfl | rfl) | h
    · exact ⟨rfl, .installed hold hd⟩
    · exact ⟨rfl, .removed hold hd⟩
    · rw [Program.mem_moments_done.mp h]
      exact ⟨rfl, .removed hold hd⟩

/-- A file on the way from its old contents to `new`; nothing else changes but the scratch
files. -/
structure Midway (faults : ReplaceFaults) (temp dest backup : Path) (new : Bytes)
    (files now : Files) : Prop where
  target : now.lookup dest = files.lookup dest ∨ now.lookup dest = some new ∨
    (faults.Detours (files.lookup dest) ∧ now.lookup dest = none ∧
      now.lookup backup = files.lookup dest)
  other : ∀ q, q ≠ temp → q ≠ backup → q ≠ dest → now.lookup q = files.lookup q

variable {faults : ReplaceFaults} {temp dest backup : Path} {new : Bytes} {files now : Files}

theorem ReplaceMoment.midway (h : ReplaceMoment faults temp dest backup files new now)
    (hbd : backup ≠ dest) : Midway faults temp dest backup new files now := by
  cases h with
  | unchanged => exact ⟨.inl rfl, fun _ _ _ _ => rfl⟩
  | renamed =>
    refine ⟨.inr (.inl (AList.lookup_insert _)), ?_⟩
    intro q hqt _ hqd
    rw [lookup_rename, if_neg hqd, if_neg hqt]
  | aside hold hd =>
    refine ⟨.inr (.inr ⟨hold ▸ hd, ?_, ?_⟩), ?_⟩
    · rw [lookup_rename, if_neg (Ne.symm hbd), if_pos rfl]
    · rw [AList.lookup_insert, hold]
    · intro q _ hqb hqd
      rw [lookup_rename, if_neg hqb, if_neg hqd]
  | installed hold hd =>
    refine ⟨.inr (.inl (AList.lookup_insert _)), ?_⟩
    intro q hqt hqb hqd
    rw [lookup_rename, if_neg hqd, if_neg hqt, lookup_rename, if_neg hqb, if_neg hqd]
  | removed hold hd =>
    refine ⟨.inr (.inl ?_), ?_⟩
    · rw [AList.lookup_erase_ne (Ne.symm hbd), AList.lookup_insert]
    · intro q hqt hqb hqd
      rw [AList.lookup_erase_ne hqb, lookup_rename, if_neg hqd, if_neg hqt, lookup_rename,
        if_neg hqb, if_neg hqd]
  | restored hold hd =>
    refine ⟨.inl ?_, ?_⟩
    · rw [AList.lookup_insert, hold]
    · intro q hqt hqb hqd
      rw [lookup_rename, if_neg hqd, if_neg hqb, lookup_rename, if_neg hqb, if_neg hqd]

theorem Midway.frame {before after : Files} (h : Midway faults temp dest backup new before now)
    (htd : temp ≠ dest) (htb : temp ≠ backup)
    (hb : ∀ q, q ≠ temp → before.lookup q = files.lookup q)
    (ha : ∀ q, q ≠ temp → after.lookup q = now.lookup q) :
    Midway faults temp dest backup new files after where
  target := by
    rw [ha dest (Ne.symm htd), ha backup (Ne.symm htb), ← hb dest (Ne.symm htd)]
    exact h.target
  other q hqt hqb hqd := (ha q hqt).trans ((h.other q hqt hqb hqd).trans (hb q hqt))

structure Only (temp : Path) (reg now : Registry) : Prop where
  index : now.index = reg.index
  files : ∀ q, q ≠ temp → now.files.lookup q = reg.files.lookup q

variable {reg : Registry}

theorem Only.refl (temp : Path) (reg : Registry) : Only temp reg reg := ⟨rfl, fun _ _ => rfl⟩

theorem Only.insert {now : Registry} (h : Only temp reg now) (bytes : Bytes) :
    Only temp reg ⟨now.files.insert temp bytes, now.index⟩ where
  index := h.index
  files q hq := (AList.lookup_insert_ne hq).trans (h.files q hq)

theorem createFile_only : (createFile temp).Preserves (Only temp reg) :=
  Program.preserves_call fun _ h => h.insert []

theorem writeBytes_only (bytes : Bytes) : (writeBytes temp bytes).Preserves (Only temp reg) := by
  induction bytes with
  | nil => exact Program.preserves_done ()
  | cons b bytes ih =>
    exact Program.Meets.bind (Program.preserves_call fun _ h => h.insert _) fun _ => ih

theorem discard_only (temp : Path) (fault : Fault) :
    (quietly (remove fault temp)).Preserves (Only temp reg) := by
  refine Program.Meets.bind (Program.preserves_call ?_) fun _ => Program.preserves_done _
  intro now h
  cases hr : remove fault temp now.files with
  | error e => exact h
  | ok files =>
    refine ⟨h.index, fun q hq => ?_⟩
    have hother : (removeQuietly fault temp now.files).lookup q = now.files.lookup q :=
      removeQuietly_other hq
    rw [removeQuietly, hr] at hother
    exact hother.trans (h.files q hq)

theorem stageUpload_only (faults : StageFaults) (body : Bytes) (maxBytes : ℕ) :
    (stageUploadCalls faults temp body maxBytes).Preserves (Only temp reg) := by
  unfold stageUploadCalls
  cases faults.mkdir.or faults.createTemp with
  | some e => exact Program.preserves_done _
  | none =>
  refine Program.Meets.bind createFile_only fun _ => ?_
  refine Program.Meets.bind (writeBytes_only _) fun _ => ?_
  cases faults.copy with
  | some e => exact Program.Meets.bind (discard_only _ _) fun _ => Program.preserves_done _
  | none =>
  by_cases hl : maxBytes < (body.take (maxBytes + 1)).length
  · simp only [if_pos hl]
    exact Program.Meets.bind (discard_only _ _) fun _ => Program.preserves_done _
  · simp only [if_neg hl]
    cases faults.sync.or faults.close with
    | some e => exact Program.Meets.bind (discard_only _ _) fun _ => Program.preserves_done _
    | none => exact Program.preserves_done _

theorem stageUpload_moments {faults : StageFaults} {body : Bytes} {maxBytes : ℕ} {now : Registry}
    (h : now ∈ (stageUploadCalls faults temp body maxBytes).moments reg) : Only temp reg now :=
  ((stageUpload_only faults body maxBytes) reg (Only.refl temp reg)).2 now h

/-- A condition that does not depend on the upload holds at every moment of a request, if it
holds at the start and at every moment with the upload in place. -/
theorem withUpload_moments {P : Registry → Prop} {env : Env} {body : Bytes} {limit : ℕ}
    {next : ℕ → RegistryProgram Response}
    (hclosed : ∀ a b, Only (cfg.uploadPath env.upload) a b → P a → P b) (hreg : P reg)
    (hnext : ∀ now ∈ (next body.length).moments
      ⟨reg.files.insert (cfg.uploadPath env.upload) body, reg.index⟩, P now) {now : Registry}
    (h : now ∈ (withUploadCalls cfg env body limit next).moments reg) : P now := by
  unfold withUploadCalls at h
  rw [Program.mem_moments_bind, run_stageUploadCalls] at h
  rcases h with h | h
  · exact hclosed reg now (stageUpload_moments h) hreg
  rcases hs : stageUpload env.stage (cfg.uploadPath env.upload) body limit reg.files with
    ⟨e | written, files⟩
  · have hend : now = ⟨files, reg.index⟩ := by
      rw [hs] at h
      exact Program.mem_moments_done.mp h
    refine hclosed reg now ⟨?_, ?_⟩ hreg
    · rw [hend]
    · intro q hq
      have hother : (stageUpload env.stage (cfg.uploadPath env.upload) body limit
          reg.files).2.lookup q = reg.files.lookup q := stageUpload_other hq
      rw [hs] at hother
      rw [hend]
      exact hother
  · obtain ⟨-, -, rfl, rfl⟩ := stageUpload_ok.mp hs
    rw [hs] at h
    dsimp only at h
    rw [Program.mem_moments_bind] at h
    rcases h with h | h
    · exact hnext now h
    have hrun := hnext _ (Program.run_mem_moments _ _)
    rw [Program.mem_moments_bind] at h
    rcases h with h | h
    · exact hclosed _ now ((discard_only _ env.removeUpload _ (Only.refl _ _)).2 now h) hrun
    · rw [Program.mem_moments_done.mp h]
      exact hclosed _ _ (discard_only _ env.removeUpload _ (Only.refl _ _)).1 hrun

theorem replaceFile_midway {nanos : ℕ} {index : List Capsule} {now : Registry}
    (ht : files.lookup temp = some new) (htd : temp ≠ dest) (hbd : backupPath dest nanos ≠ dest)
    (hbt : backupPath dest nanos ≠ temp)
    (h : now ∈ (replaceFileCalls faults nanos temp dest).moments ⟨files, index⟩) :
    now.index = index ∧
      Midway faults temp dest (backupPath dest nanos) new files now.files := by
  obtain ⟨hi, hm⟩ := replaceFile_moments ht htd hbt h
  exact ⟨hi, hm.midway hbd⟩

theorem Midway.refl (faults : ReplaceFaults) (temp dest backup : Path) (new : Bytes)
    (files : Files) : Midway faults temp dest backup new files files :=
  ⟨.inl rfl, fun _ _ _ _ => rfl⟩

theorem Only.midway {now : Registry} (h : Only temp reg now) (htd : temp ≠ dest) :
    Midway faults temp dest backup new reg.files now.files :=
  ⟨.inl (h.files dest (Ne.symm htd)), fun q hq _ _ => h.files q hq⟩

theorem atomicWriteFile_moments {faults : WriteFaults} {numbers : Numbers} {bytes : Bytes}
    {now : Registry} (htd : tempPath dest.dropLast ".qcap-index-" numbers.temp ≠ dest)
    (hbd : backupPath dest numbers.nanos ≠ dest)
    (h : now ∈ (atomicWriteFileCalls faults numbers dest bytes).moments reg) :
    now.index = reg.index ∧
      Midway faults.replace (tempPath dest.dropLast ".qcap-index-" numbers.temp) dest
        (backupPath dest numbers.nanos) bytes reg.files now.files := by
  have hbt : backupPath dest numbers.nanos ≠
      tempPath dest.dropLast ".qcap-index-" numbers.temp := backup_ne_index
  unfold atomicWriteFileCalls at h
  generalize tempPath dest.dropLast ".qcap-index-" numbers.temp = temp at h htd hbt ⊢
  have hfirst : ∀ now, Only temp reg now → now.index = reg.index ∧
      Midway faults.replace temp dest (backupPath dest numbers.nanos) bytes reg.files
        now.files := by
    intro now ho
    exact ⟨ho.index, ho.midway htd⟩
  cases hc : faults.mkdir.or faults.createTemp with
  | some e =>
    rw [hc] at h
    rw [Program.mem_moments_done.mp h]
    exact hfirst reg (Only.refl temp reg)
  | none =>
  rw [hc] at h
  dsimp only at h
  rw [Program.mem_moments_bind] at h
  rcases h with h | h
  · exact hfirst now ((createFile_only reg (Only.refl temp reg)).2 now h)
  have hcreated : Only temp reg ⟨reg.files.insert temp [], reg.index⟩ := (Only.refl _ _).insert []
  rw [run_createFile] at h
  cases hw : faults.chmod.or (faults.write.or (faults.sync.or faults.close)) with
  | some e =>
    rw [hw] at h
    dsimp only at h
    rw [Program.mem_moments_bind] at h
    have hdiscard := discard_only temp faults.removeTemp _ hcreated
    rcases h with h | h
    · exact hfirst now (hdiscard.2 now h)
    · rw [Program.mem_moments_done.mp h]
      exact hfirst _ hdiscard.1
  | none =>
  rw [hw] at h
  dsimp only at h
  rw [Program.mem_moments_bind, run_writeBytes, List.nil_append] at h
  rcases h with h | h
  · exact hfirst now ((writeBytes_only bytes _ hcreated).2 now h)
  have hwritten : ∀ q, q ≠ temp → (reg.files.insert temp bytes).lookup q = reg.files.lookup q :=
    fun q hq => AList.lookup_insert_ne hq
  have hreplace : ∀ now ∈ (replaceFileCalls faults.replace numbers.nanos temp dest).moments
      ⟨reg.files.insert temp bytes, reg.index⟩, now.index = reg.index ∧
        Midway faults.replace temp dest (backupPath dest numbers.nanos) bytes
          (reg.files.insert temp bytes) now.files := fun now hm =>
    replaceFile_midway (AList.lookup_insert _) htd hbd hbt hm
  have hframe : ∀ now after : Registry, now.index = reg.index ∧
      Midway faults.replace temp dest (backupPath dest numbers.nanos) bytes
        (reg.files.insert temp bytes) now.files → Only temp now after →
      after.index = reg.index ∧ Midway faults.replace temp dest (backupPath dest numbers.nanos)
        bytes reg.files after.files := by
    intro now after hm ho
    exact ⟨ho.index.trans hm.1, hm.2.frame htd hbt.symm hwritten ho.files⟩
  rw [Program.mem_moments_bind] at h
  rcases h with h | h
  · exact hframe now now (hreplace now h) (Only.refl temp now)
  have hrun := hreplace _ (Program.run_mem_moments _ _)
  rw [Program.mem_moments_bind] at h
  have hdiscard := discard_only temp faults.removeTemp _ (Only.refl temp
    ((replaceFileCalls faults.replace numbers.nanos temp dest).run
      ⟨reg.files.insert temp bytes, reg.index⟩).2)
  rcases h with h | h
  · exact hframe _ now hrun (hdiscard.2 now h)
  · rw [Program.mem_moments_done.mp h]
    exact hframe _ _ hrun hdiscard.1

theorem saveIndex_moments {faults : SaveFaults} {numbers : Numbers} {now : Registry}
    (h : now ∈ (saveIndexCalls X cfg faults numbers).moments reg) :
    now.index = reg.index ∧
      Midway faults.write.replace (cfg.indexTemp numbers) cfg.indexPath
        (backupPath cfg.indexPath numbers.nanos) (indexBytes X reg.index) reg.files now.files := by
  unfold saveIndexCalls at h
  cases hm : faults.mkdir with
  | some e =>
    rw [hm] at h
    rw [Program.mem_moments_done.mp h]
    exact ⟨rfl, Midway.refl _ _ _ _ _ _⟩
  | none =>
  rw [hm] at h
  dsimp only at h
  rw [Program.mem_moments_bind, mem_moments_observe, run_observe] at h
  rcases h with rfl | h
  · exact ⟨rfl, Midway.refl _ _ _ _ _ _⟩
  · exact atomicWriteFile_moments (indexTemp_ne_index cfg numbers)
      ((Tracked.index : Tracked cfg cfg.indexPath).ne cfg (temporary_backup _ _)).symm h

variable (C G X cfg)

def requestCapsule (env : Env) (r : Request) (name : String) : Capsule :=
  artifactCapsule name r.body.length (fileDigest C r.body) env.now

inductive Installs (env : Env) (r : Request) (before : Registry) :
    Path → Bytes → ReplaceFaults → Prop where
  | artifact {rawName name : String} : r.target = .artifact rawName →
      artifactName rawName = some name →
      validateQcapArchive C G (G.openReader r.body) = .ok () →
      Installs env r before (cfg.artifactPath name) r.body env.commit.replace
  | revocations {urlPath : String} : r.target = .revocations urlPath →
      validateRevocationList C G r.body (revocationIssuerFromPath urlPath) = .ok () →
      Installs env r before (cfg.revocationPath (revocationIssuerFromPath urlPath)) r.body
        env.commit.replace
  | index {rawName name : String} : r.target = .artifact rawName →
      artifactName rawName = some name →
      Installs env r before cfg.indexPath
        (indexBytes X (SortedIndex.upsert Capsule.name keepCreatedAt (requestCapsule C env r name)
          before.index)) env.commit.save.write.replace

/-- A file has its old contents, or all of the new ones, or its old contents are set aside after
a rename that failed. -/
inductive Sight (env : Env) (r : Request) (before now : Registry) (p : Path) : Prop where
  | old : now.files.lookup p = before.files.lookup p → Sight env r before now p
  | new {bytes : Bytes} {faults : ReplaceFaults} : Installs C G X cfg env r before p bytes faults →
      now.files.lookup p = some bytes → Sight env r before now p
  | aside {bytes : Bytes} {faults : ReplaceFaults} (nanos : ℕ) :
      Installs C G X cfg env r before p bytes faults → faults.Detours (before.files.lookup p) →
      now.files.lookup p = none →
      now.files.lookup (backupPath p nanos) = before.files.lookup p → Sight env r before now p

structure Listing (env : Env) (r : Request) (before now : Registry) : Prop where
  listed : ∃ rawName name, r.target = .artifact rawName ∧ artifactName rawName = some name ∧
    now.files.lookup (cfg.artifactPath name) = some r.body ∧
    now.index = SortedIndex.upsert Capsule.name keepCreatedAt (requestCapsule C env r name)
      before.index

/-- The files a request makes for its own use. -/
inductive RequestScratch (env : Env) (r : Request) (before : Registry) : Path → Prop where
  | upload : RequestScratch env r before (cfg.uploadPath env.upload)
  | backup {dest : Path} {bytes : Bytes} {faults : ReplaceFaults} :
      Installs C G X cfg env r before dest bytes faults →
      RequestScratch env r before (backupPath dest env.numbers.nanos)
  | index {p : Path} : p ∈ saveScratch cfg env.numbers.save → RequestScratch env r before p

/-- The store at a moment of a request: every file but its scratch files, whether it belongs to
the registry or not. -/
structure Glimpse (env : Env) (r : Request) (before now : Registry) : Prop where
  files : ∀ p, ¬ RequestScratch C G X cfg env r before p → Sight C G X cfg env r before now p
  ordered : (now.index = before.index ∧
      now.files.lookup cfg.indexPath = before.files.lookup cfg.indexPath) ∨
    Listing C cfg env r before now

variable {C G X cfg} {env : Env} {r : Request} {before now after : Registry}

theorem RequestScratch.temporary {p : Path} (h : RequestScratch C G X cfg env r before p) :
    Temporary (base p) := by
  cases h with
  | upload =>
    rw [Config.uploadPath, tempPath, base_append]
    exact temporary_upload env.upload
  | backup _ => exact temporary_backup _ _
  | index hp => exact saveScratch_temporary cfg hp

theorem tracked_not_requestScratch {p : Path} (h : Tracked cfg p) :
    ¬ RequestScratch C G X cfg env r before p :=
  fun hs => h.ne cfg hs.temporary rfl

theorem Glimpse.refl (before : Registry) : Glimpse C G X cfg env r before before :=
  ⟨fun _ _ => .old rfl, .inl ⟨rfl, rfl⟩⟩

theorem Sight.congr {p : Path} (hp : after.files.lookup p = now.files.lookup p)
    (hb : ∀ nanos, after.files.lookup (backupPath p nanos) =
      now.files.lookup (backupPath p nanos))
    (h : Sight C G X cfg env r before now p) : Sight C G X cfg env r before after p := by
  cases h with
  | old ho => exact .old (hp.trans ho)
  | new hi hn => exact .new hi (hp.trans hn)
  | aside nanos hi hd hn hbk => exact .aside nanos hi hd (hp.trans hn) ((hb nanos).trans hbk)

/-- The upload does not belong to what is seen. -/
theorem Glimpse.only (ho : Only (cfg.uploadPath env.upload) now after)
    (h : Glimpse C G X cfg env r before now) : Glimpse C G X cfg env r before after := by
  have htracked : ∀ p, Tracked cfg p → after.files.lookup p = now.files.lookup p :=
    fun p hp => ho.files p (tracked_ne_upload hp env.upload)
  refine ⟨?_, ?_⟩
  · intro p hp
    have hne : p ≠ cfg.uploadPath env.upload := by
      rintro rfl
      exact hp .upload
    exact (h.files p hp).congr (ho.files p hne) fun nanos => ho.files _ backup_ne_upload
  · rcases h.ordered with ⟨hi, hf⟩ | ⟨rawName, name, hr, hname, hf, hi⟩
    · exact .inl ⟨ho.index.trans hi, (htracked _ .index).trans hf⟩
    · have hart := htracked _ (artifact_tracked (artifactName_ext hname))
      exact .inr ⟨rawName, name, hr, hname, hart.trans hf, ho.index.trans hi⟩

theorem Midway.sight {p temp : Path} {nanos : ℕ} {faults : ReplaceFaults} {new : Bytes}
    {now : Registry} (h : Midway faults temp p (backupPath p nanos) new before.files now.files)
    (hi : Installs C G X cfg env r before p new faults) : Sight C G X cfg env r before now p := by
  rcases h.target with hold | hnew | ⟨hd, hn, hb⟩
  · exact .old hold
  · exact .new hi hnew
  · exact .aside nanos hi hd hn hb

theorem replaceUpload_glimpse {dest : Path} (hd : Tracked cfg dest)
    (hne : dest ≠ cfg.indexPath)
    (hi : Installs C G X cfg env r before dest r.body env.commit.replace)
    (h : now ∈ (replaceFileCalls env.commit.replace env.numbers.nanos (cfg.uploadPath env.upload)
        dest).moments
      ⟨before.files.insert (cfg.uploadPath env.upload) r.body, before.index⟩) :
    Glimpse C G X cfg env r before now := by
  have htd := (tracked_ne_upload hd env.upload).symm
  have hbd := (hd.ne cfg (temporary_backup dest env.numbers.nanos)).symm
  obtain ⟨hindex, hm⟩ := replaceFile_midway (AList.lookup_insert _) htd hbd backup_ne_upload h
  have hframe : Midway env.commit.replace (cfg.uploadPath env.upload) dest
      (backupPath dest env.numbers.nanos) r.body before.files now.files :=
    hm.frame htd backup_ne_upload.symm (fun q hq => AList.lookup_insert_ne hq) fun _ _ => rfl
  have hother : ∀ p, ¬ RequestScratch C G X cfg env r before p → p ≠ dest →
      now.files.lookup p = before.files.lookup p := by
    intro p hp hpd
    apply hframe.other p _ _ hpd
    · rintro rfl
      exact hp .upload
    · rintro rfl
      exact hp (.backup hi)
  have hindexed := hother _ (tracked_not_requestScratch .index) (Ne.symm hne)
  refine ⟨?_, .inl ⟨hindex, hindexed⟩⟩
  intro p hp
  by_cases hpd : p = dest
  · subst hpd
    exact hframe.sight hi
  · exact .old (hother p hp hpd)

theorem commitArtifact_glimpse {rawName name : String} (ht : r.target = .artifact rawName)
    (hname : artifactName rawName = some name)
    (hv : validateQcapArchive C G (G.openReader r.body) = .ok ())
    (h : now ∈ (commitArtifactCalls X cfg env.commit env.numbers (cfg.uploadPath env.upload)
      (cfg.artifactPath name) (requestCapsule C env r name)).moments
        ⟨before.files.insert (cfg.uploadPath env.upload) r.body, before.index⟩) :
    Glimpse C G X cfg env r before now := by
  have hext := artifactName_ext hname
  have hd : Tracked cfg (cfg.artifactPath name) := artifact_tracked hext
  have hne : cfg.artifactPath name ≠ cfg.indexPath := (cfg.index_not_artifact name hext).symm
  have hi : Installs C G X cfg env r before (cfg.artifactPath name) r.body env.commit.replace :=
    .artifact ht hname hv
  unfold commitArtifactCalls at h
  rw [Program.mem_moments_bind] at h
  rcases h with h | h
  · exact replaceUpload_glimpse hd hne hi h
  have hreplaced := replaceUpload_glimpse hd hne hi (Program.run_mem_moments
    (replaceFileCalls env.commit.replace env.numbers.nanos (cfg.uploadPath env.upload)
      (cfg.artifactPath name)) _)
  have hstaged : (before.files.insert (cfg.uploadPath env.upload) r.body).lookup
      (cfg.uploadPath env.upload) = some r.body := AList.lookup_insert _
  have hspec := replaceUpload_spec env.commit.replace env.numbers.nanos hd hstaged
  rw [run_replaceFileCalls] at h hreplaced
  dsimp only at h hreplaced
  rcases hresult : replaceFile env.commit.replace env.numbers.nanos (cfg.uploadPath env.upload)
    (cfg.artifactPath name) (before.files.insert (cfg.uploadPath env.upload) r.body) with
      ⟨e | _, files⟩
  · rw [hresult] at h hreplaced
    rw [Program.mem_moments_done.mp h]
    exact hreplaced
  rw [hresult] at h hreplaced hspec
  have hbody : files.lookup (cfg.artifactPath name) = some r.body := hspec.installed rfl
  have hfiles : ∀ p, ¬ RequestScratch C G X cfg env r before p → p ≠ cfg.artifactPath name →
      files.lookup p = before.files.lookup p := by
    intro p hp hpd
    have hupload : p ≠ cfg.uploadPath env.upload := by
      rintro rfl
      exact hp .upload
    have hbackup : p ≠ backupPath (cfg.artifactPath name) env.numbers.nanos := by
      rintro rfl
      exact hp (.backup hi)
    refine (hspec.other p ?_ hpd).trans (AList.lookup_insert_ne hupload)
    simp only [List.mem_cons, List.not_mem_nil, or_false, not_or]
    exact ⟨hupload, hbackup⟩
  rw [Program.mem_moments_bind] at h
  rcases h with h | h
  · rcases Program.mem_moments_call.mp h with rfl | rfl
    · exact hreplaced
    · have hsight : ∀ p, ¬ RequestScratch C G X cfg env r before p →
          Sight C G X cfg env r before ⟨files, before.index⟩ p := hreplaced.files
      refine ⟨?_, .inr ⟨rawName, name, ht, hname, hbody, rfl⟩⟩
      intro p hp
      refine Sight.congr ?_ ?_ (hsight p hp)
      · rfl
      · intro _
        rfl
  rw [run_remember] at h
  obtain ⟨hindex, hm⟩ := saveIndex_moments h
  have hother : ∀ p, ¬ RequestScratch C G X cfg env r before p → p ≠ cfg.indexPath →
      now.files.lookup p = files.lookup p := by
    intro p hp hpi
    apply hm.other p _ _ hpi
    · rintro rfl
      exact hp (.index List.mem_cons_self)
    · rintro rfl
      exact hp (.index (List.mem_cons_of_mem _ List.mem_cons_self))
  have hkept : now.files.lookup (cfg.artifactPath name) = some r.body :=
    (hother _ (tracked_not_requestScratch hd) hne).trans hbody
  refine ⟨?_, .inr ⟨rawName, name, ht, hname, hkept, hindex⟩⟩
  intro p hp
  by_cases hpi : p = cfg.indexPath
  · subst hpi
    have hold := hfiles _ hp hne.symm
    rcases hm.target with hkept | hnew | ⟨hdet, hn, hb⟩
    · exact .old (hkept.trans hold)
    · exact .new (.index ht hname) hnew
    · rw [hold] at hdet hb
      exact .aside _ (.index ht hname) hdet hn hb
  · by_cases hpd : p = cfg.artifactPath name
    · subst hpd
      exact .new hi hkept
    · exact .old ((hother p hp hpi).trans (hfiles p hp hpd))

theorem publish_moments {authorization rawName : String} (ht : r.target = .artifact rawName)
    (h : now ∈ (publishCalls C G X cfg env authorization rawName r.body).moments before) :
    Glimpse C G X cfg env r before now := by
  unfold publishCalls at h
  by_cases ha : authorized cfg authorization = false
  · rw [if_pos ha] at h
    rw [Program.mem_moments_done.mp h]
    exact Glimpse.refl before
  rw [if_neg ha] at h
  cases hname : artifactName rawName with
  | none =>
    rw [hname] at h
    rw [Program.mem_moments_done.mp h]
    exact Glimpse.refl before
  | some name =>
  rw [hname] at h
  refine withUpload_moments (fun a b ho hg => hg.only ho) (Glimpse.refl before) ?_ h
  intro now h
  have hstaged : Glimpse C G X cfg env r before (staged cfg env r.body before) :=
    (Glimpse.refl before).only ((Only.refl _ before).insert r.body)
  change now ∈ Program.moments _ (staged cfg env r.body before) at h
  dsimp only at h
  rw [Program.mem_moments_bind, mem_moments_observe, run_observe] at h
  rcases h with rfl | h
  · exact hstaged
  cases hv : validateUpload C G env.validate (cfg.uploadPath env.upload)
    (staged cfg env r.body before).files with
  | error e =>
    rw [hv] at h
    rw [Program.mem_moments_done.mp h]
    exact hstaged
  | ok _ =>
  rw [hv] at h
  dsimp only at h
  rw [Program.mem_moments_bind, mem_moments_observe, run_observe] at h
  rcases h with rfl | h
  · exact hstaged
  cases hdigest : digestUpload C env.digest (cfg.uploadPath env.upload)
    (staged cfg env r.body before).files with
  | error e =>
    rw [hdigest] at h
    rw [Program.mem_moments_done.mp h]
    exact hstaged
  | ok digest =>
  obtain ⟨-, hvalid⟩ := (validateUpload_ok C G).mp hv
  obtain ⟨-, rfl⟩ := (digestUpload_ok C).mp hdigest
  rw [hdigest] at h
  dsimp only at h
  refine commitArtifact_glimpse ht hname hvalid (Program.mem_moments_returns ?_ h)
  intro result
  cases result with
  | error e => exact ⟨_, rfl⟩
  | ok _ => exact ⟨_, rfl⟩

theorem publishRevocations_moments {urlPath authorization : String}
    (ht : r.target = .revocations urlPath)
    (hcfg : ∀ issuer, cfg.revocationPath issuer ≠ cfg.indexPath)
    (h : now ∈ (publishRevocationsCalls C G cfg env authorization
      (revocationIssuerFromPath urlPath) r.body).moments before) :
    Glimpse C G X cfg env r before now := by
  unfold publishRevocationsCalls at h
  by_cases ha : authorized cfg authorization = false
  · rw [if_pos ha] at h
    rw [Program.mem_moments_done.mp h]
    exact Glimpse.refl before
  rw [if_neg ha] at h
  refine withUpload_moments (fun a b ho hg => hg.only ho) (Glimpse.refl before) ?_ h
  intro now h
  have hstaged : Glimpse C G X cfg env r before (staged cfg env r.body before) :=
    (Glimpse.refl before).only ((Only.refl _ before).insert r.body)
  change now ∈ Program.moments _ (staged cfg env r.body before) at h
  dsimp only at h
  rw [Program.mem_moments_bind, mem_moments_observe, run_observe] at h
  rcases h with rfl | h
  · exact hstaged
  cases hv : readFile env.validate (cfg.uploadPath env.upload)
    (staged cfg env r.body before).files >>= fun document =>
      validateRevocationList C G document (revocationIssuerFromPath urlPath) with
  | error e =>
    rw [hv] at h
    rw [Program.mem_moments_done.mp h]
    exact hstaged
  | ok _ =>
  rw [hv] at h
  dsimp only at h
  rw [Program.mem_moments_bind, mem_moments_observe, run_observe] at h
  rcases h with rfl | h
  · exact hstaged
  cases hdigest : digestUpload C env.digest (cfg.uploadPath env.upload)
    (staged cfg env r.body before).files with
  | error e =>
    rw [hdigest] at h
    rw [Program.mem_moments_done.mp h]
    exact hstaged
  | ok digest =>
  obtain ⟨document, hread, hvalid⟩ := bind_ok.mp hv
  obtain ⟨-, rfl⟩ := readFile_staged_ok.mp hread
  rw [hdigest] at h
  dsimp only at h
  refine replaceUpload_glimpse (.revocations _) (hcfg _) (.revocations ht hvalid)
    (Program.mem_moments_returns ?_ h)
  intro result
  cases result with
  | error e => exact ⟨_, rfl⟩
  | ok _ => exact ⟨_, rfl⟩

/-- At every moment of a request, whatever fails: no file but its scratch files is half written,
none is missing but for one that is set aside, those it has no business with are as they were,
and the index never runs ahead of its artifact. -/
theorem post_moments (hcfg : ∀ issuer, cfg.revocationPath issuer ≠ cfg.indexPath) (env : Env)
    (r : Request) (before : Registry) {now : Registry}
    (h : now ∈ (postCalls C G X cfg env r).moments before) :
    Glimpse C G X cfg env r before now := by
  unfold postCalls at h
  cases ht : r.target with
  | artifact rawName =>
    rw [ht] at h
    exact publish_moments ht h
  | revocations urlPath =>
    rw [ht] at h
    dsimp only at h
    by_cases hissuer : revocationIssuerFromPath urlPath = ""
    · rw [if_pos hissuer] at h
      rw [Program.mem_moments_done.mp h]
      exact Glimpse.refl before
    · rw [if_neg hissuer] at h
      exact publishRevocations_moments ht hcfg h

/-- The moments of the commit are moments of a request that comes that far. -/
theorem commit_moments {rawName name authorization : String} {body : Bytes}
    (hname : artifactName rawName = some name)
    (hr : Ready cfg env authorization body maxArtifactBytes)
    (hv : validateQcapArchive C G (G.openReader body) = .ok ())
    (h : now ∈ (commitArtifactCalls X cfg env.commit env.numbers (cfg.uploadPath env.upload)
      (cfg.artifactPath name)
      (artifactCapsule name body.length (fileDigest C body) env.now)).moments
        (staged cfg env body before)) :
    now ∈ (postCalls C G X cfg env ⟨.artifact rawName, authorization, body⟩).moments before := by
  have hstage : stageUpload env.stage (cfg.uploadPath env.upload) body maxArtifactBytes
      before.files = (.ok body.length, before.files.insert (cfg.uploadPath env.upload) body) :=
    stageUpload_ok.mpr ⟨hr.stage, hr.size, rfl, rfl⟩
  have hvalid : validateUpload C G env.validate (cfg.uploadPath env.upload)
      (staged cfg env body before).files = .ok () := (validateUpload_ok C G).mpr ⟨hr.validate, hv⟩
  have hdigest : digestUpload C env.digest (cfg.uploadPath env.upload)
      (staged cfg env body before).files = .ok (fileDigest C body) :=
    (digestUpload_ok C).mpr ⟨hr.digest, rfl⟩
  unfold postCalls
  dsimp only
  unfold publishCalls withUploadCalls
  rw [if_neg (by simp [hr.authorized]), hname]
  dsimp only
  rw [Program.mem_moments_bind, run_stageUploadCalls, hstage]
  refine .inr ?_
  change now ∈ Program.moments _ (staged cfg env body before)
  dsimp only
  -- validation, the digest and the commit come one after the other
  rw [Program.mem_moments_bind]
  refine .inl ?_
  rw [Program.mem_moments_bind, run_observe, hvalid]
  refine .inr ?_
  dsimp only
  rw [Program.mem_moments_bind, run_observe, hdigest]
  refine .inr ?_
  dsimp only
  rw [Program.mem_moments_bind]
  exact .inl h

theorem aside_moment {faults : ReplaceFaults} {nanos : ℕ} {temp dest : Path} {old : Bytes}
    (hf : faults.Detours (some old)) (hold : reg.files.lookup dest = some old) :
    ⟨(reg.files.erase dest).insert (backupPath dest nanos) old, reg.index⟩ ∈
      (replaceFileCalls faults nanos temp dest).moments reg := by
  obtain ⟨mkdir, ren, st, bk, ins, rb, rm⟩ := faults
  obtain ⟨hmkdir, hfails, hst, -, hbk⟩ := hf
  obtain ⟨renameErr, hren⟩ := Option.ne_none_iff_exists'.mp hfails
  dsimp only at hmkdir hren hst hbk
  subst hmkdir hren hst hbk
  have hm : dest ∈ reg.files := by
    rw [← AList.lookup_isSome, hold]
    rfl
  unfold replaceFileCalls
  dsimp only
  rw [Program.mem_moments_bind, run_attempt, rename_fault]
  refine .inr ?_
  dsimp only
  rw [Program.mem_moments_bind, run_observe]
  simp only [hm, not_true_eq_false, decide_false]
  refine .inr ?_
  rw [Program.mem_moments_bind, mem_moments_attempt, run_attempt, rename_ok hold]
  exact .inl (.inr rfl)

def sampleEnv : Env := Env.clear 1 ⟨0, ⟨2, 0⟩⟩ "2024-01-01T00:00:00Z"

def sampleRequest : Request := ⟨.artifact "", "", sampleArchive⟩

theorem samplePost_stored : (post toy (legacyGo sampleBundle) (goIndexCodec false) sampleConfig
    sampleEnv sampleRequest ⟨∅, []⟩).2.files.lookup (sampleConfig.artifactPath "artifact.qcap") =
      some sampleArchive := by
  have hname : artifactName "" = some "artifact.qcap" := by decide
  have hext : ext "artifact.qcap" = ".qcap" := by decide
  have hready : Ready sampleConfig sampleEnv "" sampleArchive maxArtifactBytes :=
    ⟨rfl, ⟨rfl, rfl, rfl, rfl, rfl⟩, sampleArchive_fits, rfl, rfl⟩
  have hupload : (staged sampleConfig sampleEnv sampleArchive ⟨∅, []⟩).files.lookup
      (sampleConfig.uploadPath sampleEnv.upload) = some sampleArchive := staged_upload
  simp only [post, sampleRequest,
    publish_accepted toy _ (goIndexCodec false) ⟨∅, []⟩ hname hready sampleArchive_accepted]
  apply (removeQuietly_other (tracked_ne_upload (artifact_tracked hext) _)).trans
  exact (commitArtifact_installed (goIndexCodec false) _ _ _ hext hupload
    (Or.inl ⟨rfl, rfl⟩)).stored

def busyEnv : Env :=
  { sampleEnv with commit := ⟨{ ReplaceFaults.none with rename := some "device busy" },
    SaveFaults.none⟩ }

def oldRegistry : Registry :=
  ⟨(∅ : Files).insert (sampleConfig.artifactPath "artifact.qcap") [1], []⟩

theorem samplePost_moment : ∃ now ∈ (postCalls toy (legacyGo sampleBundle) (goIndexCodec false)
      sampleConfig busyEnv sampleRequest).moments oldRegistry,
    now.files.lookup (sampleConfig.artifactPath "artifact.qcap") = none ∧
    Glimpse toy (legacyGo sampleBundle) (goIndexCodec false) sampleConfig busyEnv sampleRequest
      oldRegistry now := by
  have hname : artifactName "" = some "artifact.qcap" := by decide
  have hext : ext "artifact.qcap" = ".qcap" := by decide
  have hready : Ready sampleConfig busyEnv "" sampleArchive maxArtifactBytes :=
    ⟨rfl, ⟨rfl, rfl, rfl, rfl, rfl⟩, sampleArchive_fits, rfl, rfl⟩
  have htracked : Tracked sampleConfig (sampleConfig.artifactPath "artifact.qcap") :=
    artifact_tracked hext
  have hold : (staged sampleConfig busyEnv sampleArchive oldRegistry).files.lookup
      (sampleConfig.artifactPath "artifact.qcap") = some [1] :=
    (AList.lookup_insert_ne (tracked_ne_upload htracked _)).trans (AList.lookup_insert _)
  have hdetours : busyEnv.commit.replace.Detours (some [1]) :=
    ⟨rfl, Option.some_ne_none _, rfl, Option.some_ne_none _, rfl⟩
  have hmoment : _ ∈ (postCalls toy (legacyGo sampleBundle) (goIndexCodec false) sampleConfig
      busyEnv sampleRequest).moments oldRegistry :=
    commit_moments hname hready sampleArchive_accepted
      (Program.mem_moments_bind.mpr (.inl (aside_moment hdetours hold)))
  refine ⟨_, hmoment, ?_, ?_⟩
  · rw [AList.lookup_insert_ne (htracked.ne _ (temporary_backup _ _)), AList.lookup_erase]
  · exact post_moments (fun issuer => by simp [sampleConfig, Config.default, Config.revocationPath])
      busyEnv sampleRequest oldRegistry hmoment

end QCap.RegistryMoments
