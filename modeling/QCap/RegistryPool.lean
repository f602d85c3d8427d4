import QCap.RegistryMoments
import QCap.RegistryService
import QCap.RelyGuarantee

/-!
# Requests side by side, call by call

Any number of requests and reloads run at once, each file system call of each at any time and
with any failures, and the process may be killed at any moment. The locks are left out, so the
runs are more than the registry has. A client is never sent a file that was not checked as a
whole, and the index file is never half written.
-/
namespace QCap.RegistryPool

open QCap.Text QCap.Crypto QCap.CrashSafety QCap.RelyGuarantee QCap.RegistryArchive
open QCap.RegistryFiles QCap.RegistryIndex QCap.RegistryPublish QCap.RegistryCalls
open QCap.RegistryMoments QCap.RegistryRuns QCap.RegistryService QCap.IndexReload
open QCap.GoDocuments QCap.IndexJson

variable (C : Primitives) (G : GoLib) (X : IndexCodec) (cfg : Config)

inductive Kept : Path → Prop where
  | artifact (name : String) : ext name = ".qcap" → Kept (cfg.artifactPath name)
  | revocations (issuer : String) : Kept (cfg.revocationPath issuer)
  | index : Kept cfg.indexPath

inductive Complete : Path → Bytes → Prop where
  | artifact {name : String} {bytes : Bytes} : ext name = ".qcap" →
      validateQcapArchive C G (G.openReader bytes) = .ok () →
      Complete (cfg.artifactPath name) bytes
  | revocations {issuer : String} {bytes : Bytes} :
      validateRevocationList C G bytes issuer = .ok () →
      Complete (cfg.revocationPath issuer) bytes
  | index (index : List Capsule) : Complete cfg.indexPath (indexBytes X index)

/-- The bytes may lie at the path, or under a name that `replaceFile` sets its file aside by. -/
structure Fine (q : Path) (bytes : Bytes) : Prop where
  kept : Kept cfg q → Complete C G X cfg q bytes
  aside : ∀ p nanos, Kept cfg p → q = backupPath p nanos → Complete C G X cfg p bytes

def Sound (reg : Registry) : Prop :=
  ∀ q bytes, reg.files.lookup q = some bytes → Fine C G X cfg q bytes

structure Owned where
  upload : ℕ
  index : ℕ

def Config.indexTempPath (n : ℕ) : Path := tempPath cfg.indexPath.dropLast ".qcap-index-" n

def owned (o : Owned) : List Path := [cfg.uploadPath o.upload, Config.indexTempPath cfg o.index]

def Untouched (o : Owned) (reg reg' : Registry) : Prop :=
  ∀ p ∈ owned cfg o, reg'.files.lookup p = reg.files.lookup p

def Apart (o o' : Owned) : Prop := o.upload ≠ o'.upload ∧ o.index ≠ o'.index

/-- The temporary file may take the place of `dest`, if it is there. -/
def Staged (temp dest : Path) (reg : Registry) : Prop :=
  ∀ bytes, reg.files.lookup temp = some bytes → Complete C G X cfg dest bytes

variable {C G X cfg} {o : Owned} {reg reg' : Registry}

theorem Kept.tracked {p : Path} (h : Kept cfg p) : Tracked cfg p := by
  cases h with
  | artifact name hn => exact artifact_tracked hn
  | revocations issuer => exact .revocations issuer
  | index => exact .index

theorem Kept.snoc (hcfg : cfg.DefaultIndex) {p : Path} (h : Kept cfg p) :
    ∃ dir name, p = dir ++ [name] := by
  cases h with
  | artifact name hn => exact ⟨_, _, rfl⟩
  | revocations issuer =>
    exact ⟨cfg.storeDir ++ ["revocations", issuer], "revocations.json", by
      simp [Config.revocationPath]⟩
  | index => exact ⟨_, _, hcfg⟩

theorem backupPath_injective {dir dir' : Path} {name name' : String} {m n : ℕ}
    (h : backupPath (dir ++ [name]) m = backupPath (dir' ++ [name']) n) :
    dir ++ [name] = dir' ++ [name'] := by
  have hb := congrArg base h
  have he := congrArg (fun p => ext (base p)) h
  have hd := congrArg List.dropLast h
  simp only [backupPath, base_append, ext_backup, List.dropLast_concat] at hb he hd
  rw [String.append_assoc, String.append_assoc, he, String.append_left_inj] at hb
  rw [hb, hd]

theorem tempPath_injective {dir dir' : Path} {stem : String} {m n : ℕ}
    (h : tempPath dir stem m = tempPath dir' stem n) : m = n := by
  have hb := congrArg base h
  simp only [tempPath, base_append, String.append_right_inj] at hb
  rw [Nat.toString_eq_repr, Nat.toString_eq_repr] at hb
  exact Nat.repr_injective hb

theorem owned_temporary {p : Path} (h : p ∈ owned cfg o) : Temporary (base p) := by
  simp only [owned, List.mem_cons, List.not_mem_nil, or_false] at h
  rcases h with rfl | rfl
  · rw [Config.uploadPath, tempPath, base_append]
    exact temporary_upload _
  · rw [Config.indexTempPath, tempPath, base_append]
    exact temporary_index _

theorem owned_ne_backup {p q : Path} {nanos : ℕ} (h : p ∈ owned cfg o) :
    p ≠ backupPath q nanos := by
  simp only [owned, List.mem_cons, List.not_mem_nil, or_false] at h
  rcases h with rfl | rfl
  · exact backup_ne_upload.symm
  · exact backup_ne_index.symm

theorem Kept.not_owned {p : Path} (h : Kept cfg p) : p ∉ owned cfg o :=
  fun hp => h.tracked.ne cfg (owned_temporary hp) rfl

theorem fine_kept {p : Path} {bytes : Bytes} (h : Kept cfg p) (hc : Complete C G X cfg p bytes) :
    Fine C G X cfg p bytes where
  kept _ := hc
  aside q nanos _ hq := absurd hq (h.tracked.ne cfg (temporary_backup q nanos))

theorem fine_backup (hcfg : cfg.DefaultIndex) {p : Path} {nanos : ℕ} {bytes : Bytes}
    (h : Kept cfg p) (hc : Complete C G X cfg p bytes) :
    Fine C G X cfg (backupPath p nanos) bytes where
  kept hb := absurd rfl (hb.tracked.ne cfg (temporary_backup p nanos))
  aside q nanos' hq he := by
    obtain ⟨dir, name, rfl⟩ := h.snoc hcfg
    obtain ⟨dir', name', rfl⟩ := hq.snoc hcfg
    rw [← backupPath_injective he]
    exact hc

theorem fine_owned {p : Path} {bytes : Bytes} (h : p ∈ owned cfg o) : Fine C G X cfg p bytes where
  kept hk := absurd h hk.not_owned
  aside _ _ _ he := absurd he (owned_ne_backup h)

theorem Sound.erase (h : Sound C G X cfg reg) (p : Path) (index : List Capsule) :
    Sound C G X cfg ⟨reg.files.erase p, index⟩ := by
  intro q bytes hq
  apply h q bytes
  by_cases hp : q = p
  · rw [hp, AList.lookup_erase] at hq
    cases hq
  · exact (AList.lookup_erase_ne hp).symm.trans hq

theorem Sound.insert {files : Files} {index : List Capsule} {p : Path} {bytes : Bytes}
    (h : Sound C G X cfg ⟨files, index⟩) (hf : Fine C G X cfg p bytes) (index' : List Capsule) :
    Sound C G X cfg ⟨files.insert p bytes, index'⟩ := by
  intro q bytes' hq
  by_cases hp : q = p
  · subst hp
    rw [AList.lookup_insert] at hq
    cases hq
    exact hf
  · exact h q bytes' ((AList.lookup_insert_ne hp).symm.trans hq)

/-- Owned files, kept files and the names they are set aside by. -/
def Writable (cfg : Config) (o : Owned) (p : Path) : Prop :=
  p ∈ owned cfg o ∨ Kept cfg p ∨ ∃ q nanos, p = backupPath q nanos

theorem Writable.not_owned {o' : Owned} {p : Path} (ha : Apart o o')
    (h : Writable cfg o p) : p ∉ owned cfg o' := by
  intro hp
  rcases h with h | h | ⟨q, nanos, rfl⟩
  · simp only [owned, List.mem_cons, List.not_mem_nil, or_false] at h hp
    rcases h with rfl | rfl
    · rcases hp with hp | hp
      · exact ha.1 (tempPath_injective hp)
      · exact upload_ne_index hp
    · rcases hp with hp | hp
      · exact upload_ne_index hp.symm
      · exact ha.2 (tempPath_injective hp)
  · exact h.not_owned hp
  · exact owned_ne_backup hp rfl

theorem guarantees (paths : List Path) (hs : Sound C G X cfg reg')
    (hw : ∀ q ∉ paths, reg'.files.lookup q = reg.files.lookup q)
    (hpaths : ∀ q ∈ paths, Writable cfg o q) :
    Guarantees (Sound C G X cfg) (Untouched cfg) Apart o reg reg' where
  keeps := hs
  others _ ha p hp := hw p fun hq => (hpaths p hq).not_owned ha hp

theorem guarantees_refl {index : List Capsule} (hs : Sound C G X cfg reg) :
    Guarantees (Sound C G X cfg) (Untouched cfg) Apart o reg ⟨reg.files, index⟩ :=
  guarantees [] hs (fun _ _ => rfl) (by simp)

variable (C G X cfg)

abbrev Behaves {α : Type} (o : Owned) (post : α → Registry → Prop) (p : RegistryProgram α)
    (reg : Registry) : Prop :=
  Keeps (Sound C G X cfg) (Untouched cfg) Apart o post p reg

variable {C G X cfg} {α : Type} {temp dest : Path}

theorem Untouched.lookup (h : Untouched cfg o reg reg') {p : Path} (hp : p ∈ owned cfg o) :
    reg'.files.lookup p = reg.files.lookup p := h p hp

theorem Staged.stable (ht : temp ∈ owned cfg o) (h : Staged C G X cfg temp dest reg)
    (hr : Untouched cfg o reg reg') : Staged C G X cfg temp dest reg' := by
  intro bytes hb
  rw [hr temp ht] at hb
  exact h bytes hb

theorem behaves_observe {read : Registry → α} (post : α → Registry → Prop)
    (h : ∀ reg', Sound C G X cfg reg' → Untouched cfg o reg reg' → post (read reg') reg') :
    Behaves C G X cfg o post (observe read) reg := by
  apply keeps_call
  intro reg' hs hr
  exact ⟨guarantees_refl hs, h reg' hs hr⟩

theorem behaves_look (read : Registry → α) (reg : Registry) :
    Behaves C G X cfg o (fun _ _ => True) (observe read) reg :=
  behaves_observe _ fun _ _ _ => trivial

theorem behaves_remember (f : List Capsule → List Capsule) (reg : Registry) :
    Behaves C G X cfg o (fun _ _ => True) (remember f) reg := by
  apply keeps_call
  intro reg' hs _
  exact ⟨guarantees_refl hs, trivial⟩

theorem rename_inv {fault : Fault} {src dst : Path} {files files' : Files}
    (h : rename fault src dst files = .ok files') :
    ∃ bytes, files.lookup src = some bytes ∧ files' = (files.erase src).insert dst bytes := by
  cases fault with
  | some e => cases h
  | none =>
    cases hl : files.lookup src with
    | none => simp [rename, hl] at h
    | some bytes =>
      rw [rename_ok hl] at h
      cases h
      exact ⟨bytes, rfl, rfl⟩

theorem remove_inv {fault : Fault} {p : Path} {files files' : Files}
    (h : remove fault p files = .ok files') : files' = files.erase p := by
  cases fault with
  | some e => cases h
  | none =>
    by_cases hm : p ∈ files
    · simp only [remove, hm, if_true] at h
      cases h
      rfl
    · simp [remove, hm] at h

theorem behaves_attempt {op : Files → GoResult Files} {post : GoResult Unit → Registry → Prop}
    (hok : ∀ reg' files', Sound C G X cfg reg' → Untouched cfg o reg reg' →
      op reg'.files = .ok files' →
        Guarantees (Sound C G X cfg) (Untouched cfg) Apart o reg' ⟨files', reg'.index⟩ ∧
          post (.ok ()) ⟨files', reg'.index⟩)
    (herror : ∀ reg' e, Untouched cfg o reg reg' → post (.error e) reg') :
    Behaves C G X cfg o post (attempt op) reg := by
  apply keeps_call
  intro reg' hs hr
  cases hop : op reg'.files with
  | ok files' => exact hok reg' files' hs hr hop
  | error e => exact ⟨guarantees_refl hs, herror reg' e hr⟩

theorem behaves_rename {fault : Fault} {src dst : Path} (post : GoResult Unit → Registry → Prop)
    (hsrc : Writable cfg o src) (hdst : Writable cfg o dst)
    (hfine : ∀ reg' bytes, Sound C G X cfg reg' → Untouched cfg o reg reg' →
      reg'.files.lookup src = some bytes → Fine C G X cfg dst bytes)
    (hok : ∀ reg' bytes, Untouched cfg o reg reg' →
      post (.ok ()) ⟨(reg'.files.erase src).insert dst bytes, reg'.index⟩)
    (herror : ∀ reg' e, Untouched cfg o reg reg' → post (.error e) reg') :
    Behaves C G X cfg o post (attempt (rename fault src dst)) reg := by
  apply behaves_attempt ?_ herror
  intro reg' files' hs hr hop
  obtain ⟨bytes, hb, rfl⟩ := rename_inv hop
  refine ⟨guarantees [src, dst] ?_ ?_ ?_, hok reg' bytes hr⟩
  · exact (hs.erase src reg'.index).insert (hfine reg' bytes hs hr hb) _
  · intro q hq
    simp only [List.mem_cons, List.not_mem_nil, or_false, not_or] at hq
    rw [lookup_rename, if_neg hq.2, if_neg hq.1]
  · intro q hq
    simp only [List.mem_cons, List.not_mem_nil, or_false] at hq
    rcases hq with rfl | rfl
    · exact hsrc
    · exact hdst

theorem behaves_remove (fault : Fault) {p : Path} (hp : Writable cfg o p) (reg : Registry) :
    Behaves C G X cfg o (fun _ _ => True) (attempt (remove fault p)) reg := by
  apply behaves_attempt ?_ fun _ _ _ => trivial
  intro reg' files' hs hr hop
  rw [remove_inv hop]
  refine ⟨guarantees [p] (hs.erase p _) ?_ ?_, trivial⟩
  · intro q hq
    exact AList.lookup_erase_ne (by simpa using hq)
  · intro q hq
    rw [List.mem_singleton.mp hq]
    exact hp

theorem Behaves.quietly {op : Files → GoResult Files}
    (h : Behaves C G X cfg o (fun _ _ => True) (attempt op) reg) :
    Behaves C G X cfg o (fun _ _ => True) (quietly op) reg :=
  Keeps.bind h fun _ _ _ => trivial

theorem behaves_discard (ht : temp ∈ owned cfg o) (fault : Fault) (reg : Registry) :
    Behaves C G X cfg o (fun _ _ => True) (RegistryCalls.quietly (remove fault temp)) reg :=
  Behaves.quietly (behaves_remove fault (Or.inl ht) reg)

theorem behaves_insert {op : Registry → Unit × Registry} {bytes : Bytes}
    (ht : temp ∈ owned cfg o) (reg : Registry)
    (hop : ∀ reg', Untouched cfg o reg reg' →
      op reg' = ((), ⟨reg'.files.insert temp bytes, reg'.index⟩)) :
    Behaves C G X cfg o (fun _ reg' => reg'.files.lookup temp = some bytes) (.call op) reg := by
  apply keeps_call
  intro reg' hs hr
  rw [hop reg' hr]
  refine ⟨guarantees [temp] (hs.insert (fine_owned ht) _) ?_ ?_, ?_⟩
  · intro q hq
    exact AList.lookup_insert_ne (by simpa using hq)
  · intro q hq
    rw [List.mem_singleton.mp hq]
    exact Or.inl ht
  · exact AList.lookup_insert _

theorem behaves_createFile (ht : temp ∈ owned cfg o) (reg : Registry) :
    Behaves C G X cfg o (fun _ reg' => reg'.files.lookup temp = some []) (createFile temp) reg :=
  behaves_insert ht reg fun _ _ => rfl

theorem behaves_writeBytes (ht : temp ∈ owned cfg o) (bytes : Bytes) {written : Bytes}
    {reg : Registry} (h : reg.files.lookup temp = some written) :
    Behaves C G X cfg o (fun _ reg' => reg'.files.lookup temp = some (written ++ bytes))
      (writeBytes temp bytes) reg := by
  induction bytes generalizing written reg with
  | nil =>
    rw [List.append_nil]
    exact h
  | cons b bytes ih =>
    have hbyte : Behaves C G X cfg o
        (fun _ reg' => reg'.files.lookup temp = some (written ++ [b])) (appendByte temp b) reg := by
      apply behaves_insert ht reg
      intro reg' hr
      rw [hr.lookup ht, h]
      rfl
    apply Keeps.bind hbyte
    intro _ reg' hb
    have hrest := ih hb
    rwa [List.append_assoc] at hrest

theorem behaves_replaceFile (hcfg : cfg.DefaultIndex) (faults : ReplaceFaults) (nanos : ℕ)
    (ht : temp ∈ owned cfg o) (hd : Kept cfg dest) (h : Staged C G X cfg temp dest reg) :
    Behaves C G X cfg o (fun _ _ => True) (replaceFileCalls faults nanos temp dest) reg := by
  have htd : temp ≠ dest := fun he => hd.not_owned (he ▸ ht)
  have htb : temp ≠ backupPath dest nanos := owned_ne_backup ht
  have hbackup : Writable cfg o (backupPath dest nanos) := Or.inr (Or.inr ⟨_, _, rfl⟩)
  have hdest : Writable cfg o dest := Or.inr (Or.inl hd)
  -- whatever became of the temporary file, what is left of it may be installed
  have hkeep : ∀ {reg reg' : Registry}, Staged C G X cfg temp dest reg → Untouched cfg o reg reg' →
      Staged C G X cfg temp dest reg' := fun h hr => h.stable ht hr
  have hmove : ∀ {src dst : Path} {reg reg' : Registry} {bytes : Bytes}, temp ≠ dst →
      Staged C G X cfg temp dest reg → Untouched cfg o reg reg' →
      Staged C G X cfg temp dest ⟨(reg'.files.erase src).insert dst bytes, reg'.index⟩ := by
    intro src dst reg reg' bytes hne hst hr bytes' hb
    rw [lookup_rename, if_neg hne] at hb
    by_cases hs : temp = src
    · rw [if_pos hs] at hb
      cases hb
    · rw [if_neg hs] at hb
      exact hkeep hst hr bytes' hb
  have hinstall : ∀ (fault : Fault) {reg : Registry}, Staged C G X cfg temp dest reg →
      Behaves C G X cfg o (fun _ reg' => Staged C G X cfg temp dest reg')
        (attempt (rename fault temp dest)) reg := by
    intro fault reg hst
    apply behaves_rename _ (Or.inl ht) hdest
    · intro reg' bytes _ hr hb
      exact fine_kept hd (hkeep hst hr bytes hb)
    · intro reg' bytes hr
      exact hmove htd hst hr
    · intro reg' e hr
      exact hkeep hst hr
  unfold replaceFileCalls
  cases faults.mkdir with
  | some e => trivial
  | none =>
  apply Keeps.bind (hinstall faults.rename h)
  intro result reg₁ h₁
  cases result with
  | ok _ => trivial
  | error renameErr =>
  dsimp only
  cases faults.stat with
  | some e => trivial
  | none =>
  refine Keeps.bind (behaves_observe (fun _ reg' => Staged C G X cfg temp dest reg') ?_) ?_
  · intro reg' _ hr
    exact hkeep h₁ hr
  intro absent reg₂ h₂
  cases absent with
  | true => trivial
  | false =>
  refine Keeps.bind (behaves_rename (fun _ reg' => Staged C G X cfg temp dest reg')
    hdest hbackup ?_ ?_ ?_) ?_
  · intro reg' bytes hs _ hb
    exact fine_backup hcfg hd ((hs dest bytes hb).kept hd)
  · intro reg' bytes hr
    exact hmove htb h₂ hr
  · intro reg' e hr
    exact hkeep h₂ hr
  intro result reg₃ h₃
  cases result with
  | error e => trivial
  | ok _ =>
  apply Keeps.bind (hinstall faults.install h₃)
  intro result reg₄ h₄
  cases result with
  | error e =>
    refine Keeps.bind (Behaves.quietly (behaves_rename _ hbackup hdest ?_ ?_ ?_)) ?_
    · intro reg' bytes hs _ hb
      exact fine_kept hd ((hs _ bytes hb).aside dest nanos hd rfl)
    · intro _ _ _
      trivial
    · intro _ _ _
      trivial
    · intro _ _ _
      trivial
  | ok _ =>
  apply Keeps.bind (behaves_remove _ hbackup _)
  intro result _ _
  cases result with
  | error e => trivial
  | ok _ => trivial

theorem behaves_atomicWriteFile (hcfg : cfg.DefaultIndex) (faults : WriteFaults)
    (numbers : Numbers) (ho : numbers.temp = o.index) (index : List Capsule) (reg : Registry) :
    Behaves C G X cfg o (fun _ _ => True)
      (atomicWriteFileCalls faults numbers cfg.indexPath (indexBytes X index)) reg := by
  have ht : Config.indexTempPath cfg numbers.temp ∈ owned cfg o := by
    rw [ho]
    simp [owned]
  unfold atomicWriteFileCalls
  cases faults.mkdir.or faults.createTemp with
  | some e => trivial
  | none =>
  apply Keeps.bind (behaves_createFile ht reg)
  intro _ reg₁ h₁
  cases faults.chmod.or (faults.write.or (faults.sync.or faults.close)) with
  | some e => exact Keeps.bind (behaves_discard ht _ _) fun _ _ _ => trivial
  | none =>
  apply Keeps.bind (behaves_writeBytes ht _ h₁)
  intro _ reg₂ h₂
  have hstaged : Staged C G X cfg (Config.indexTempPath cfg numbers.temp) cfg.indexPath reg₂ := by
    intro bytes hb
    rw [h₂] at hb
    cases hb
    exact .index index
  apply Keeps.bind (behaves_replaceFile hcfg _ _ ht .index hstaged)
  intro result reg₃ _
  exact Keeps.bind (behaves_discard ht _ _) fun _ _ _ => trivial

theorem behaves_saveIndex (hcfg : cfg.DefaultIndex) (faults : SaveFaults) (numbers : Numbers)
    (ho : numbers.temp = o.index) (reg : Registry) :
    Behaves C G X cfg o (fun _ _ => True) (saveIndexCalls X cfg faults numbers) reg := by
  unfold saveIndexCalls
  cases faults.mkdir with
  | some e => trivial
  | none =>
  apply Keeps.bind (behaves_look _ _)
  intro index reg' _
  exact behaves_atomicWriteFile hcfg _ _ ho index reg'

theorem behaves_commitArtifact (hcfg : cfg.DefaultIndex) (faults : CommitFaults)
    (numbers : CommitNumbers) (ho : numbers.save.temp = o.index) (capsule : Capsule)
    (ht : temp ∈ owned cfg o) (hd : Kept cfg dest) (h : Staged C G X cfg temp dest reg) :
    Behaves C G X cfg o (fun _ _ => True)
      (commitArtifactCalls X cfg faults numbers temp dest capsule) reg := by
  unfold commitArtifactCalls
  apply Keeps.bind (behaves_replaceFile hcfg _ _ ht hd h)
  intro result reg₁ _
  cases result with
  | error e => trivial
  | ok _ =>
  apply Keeps.bind (behaves_remember _ _)
  intro _ reg₂ _
  exact behaves_saveIndex hcfg _ _ ho reg₂

theorem behaves_loadIndex (hcfg : cfg.DefaultIndex) (faults : LoadFaults) (numbers : Numbers)
    (ho : numbers.temp = o.index) (modTime : Path → String) (reg : Registry) :
    Behaves C G X cfg o (fun _ _ => True) (loadIndexCalls C X cfg faults numbers modTime)
      reg := by
  unfold loadIndexCalls
  apply Keeps.bind (behaves_look _ _)
  intro idx reg₁ _
  cases idx with
  | error e => trivial
  | ok idx =>
  cases faults.walk with
  | some e => trivial
  | none =>
  apply Keeps.bind (behaves_look _ _)
  intro index reg₂ _
  apply Keeps.bind (behaves_remember _ _)
  intro _ reg₃ _
  exact behaves_saveIndex hcfg _ _ ho reg₃

theorem behaves_stageUpload (faults : StageFaults) (ht : temp ∈ owned cfg o) (body : Bytes)
    (maxBytes : ℕ) (reg : Registry) :
    Behaves C G X cfg o (fun _ _ => True) (stageUploadCalls faults temp body maxBytes) reg := by
  unfold stageUploadCalls
  cases faults.mkdir.or faults.createTemp with
  | some e => trivial
  | none =>
  apply Keeps.bind (behaves_createFile ht reg)
  intro _ reg₁ h₁
  apply Keeps.bind (behaves_writeBytes ht _ h₁)
  intro _ reg₂ _
  cases faults.copy with
  | some e => exact Keeps.bind (behaves_discard ht _ _) fun _ _ _ => trivial
  | none =>
  apply keeps_ite
  · intro _
    exact Keeps.bind (behaves_discard ht _ _) fun _ _ _ => trivial
  · intro _
    cases faults.sync.or faults.close with
    | some e => exact Keeps.bind (behaves_discard ht _ _) fun _ _ _ => trivial
    | none => trivial

theorem behaves_withUpload (env : Env) (ho : env.upload = o.upload) (body : Bytes) (limit : ℕ)
    {next : ℕ → RegistryProgram Response} (reg : Registry)
    (h : ∀ written reg, Behaves C G X cfg o (fun _ _ => True) (next written) reg) :
    Behaves C G X cfg o (fun _ _ => True) (withUploadCalls cfg env body limit next) reg := by
  have ht : cfg.uploadPath env.upload ∈ owned cfg o := by
    rw [ho]
    simp [owned]
  unfold withUploadCalls
  apply Keeps.bind (behaves_stageUpload _ ht body limit reg)
  intro result reg₁ _
  cases result with
  | error e => trivial
  | ok written =>
  apply Keeps.bind (h written reg₁)
  intro answer reg₂ _
  exact Keeps.bind (behaves_discard ht _ _) fun _ _ _ => trivial

theorem readFile_inv {fault : Fault} {p : Path} {files : Files} {bytes : Bytes}
    (h : readFile fault p files = .ok bytes) : files.lookup p = some bytes := by
  cases fault with
  | some e => cases h
  | none =>
    cases hl : files.lookup p with
    | none => simp [readFile, hl] at h
    | some bytes' =>
      simp only [readFile, hl] at h
      cases h
      rfl

theorem behaves_publish (hcfg : cfg.DefaultIndex) (env : Env) (ho : env.upload = o.upload)
    (hi : env.numbers.save.temp = o.index) (authorization rawName : String) (body : Bytes)
    (reg : Registry) : Behaves C G X cfg o (fun _ _ => True)
      (publishCalls C G X cfg env authorization rawName body) reg := by
  unfold publishCalls
  apply keeps_ite
  · intro _
    trivial
  intro _
  cases hname : artifactName rawName with
  | none => trivial
  | some name =>
  have ht : cfg.uploadPath env.upload ∈ owned cfg o := by
    rw [ho]
    simp [owned]
  have hd : Kept cfg (cfg.artifactPath name) := .artifact name (artifactName_ext hname)
  apply behaves_withUpload env ho
  intro written reg₁
  refine Keeps.bind (behaves_observe (fun result reg' => result = .ok () →
    Staged C G X cfg (cfg.uploadPath env.upload) (cfg.artifactPath name) reg') ?_) ?_
  · intro reg' _ _ hv bytes hb
    cases hread : readFile env.validate (cfg.uploadPath env.upload) reg'.files with
    | error e =>
      rw [validateUpload, hread] at hv
      obtain ⟨_, hw, -⟩ := bind_ok.mp hv
      cases wrap_ok.mp hw
    | ok bytes' =>
      cases (readFile_inv hread).symm.trans hb
      rw [validateUpload, hread] at hv
      exact .artifact (artifactName_ext hname) hv
  intro result reg₂ h₂
  cases result with
  | error e => trivial
  | ok _ =>
  refine Keeps.bind (behaves_observe (fun _ reg' =>
    Staged C G X cfg (cfg.uploadPath env.upload) (cfg.artifactPath name) reg') ?_) ?_
  · intro reg' _ hr
    exact (h₂ rfl).stable ht hr
  intro result reg₃ h₃
  cases result with
  | error e => trivial
  | ok digest =>
  apply Keeps.bind (behaves_commitArtifact hcfg _ _ hi _ ht hd h₃)
  intro result _ _
  cases result with
  | error e => trivial
  | ok _ => trivial

theorem behaves_publishRevocations (hcfg : cfg.DefaultIndex) (env : Env)
    (ho : env.upload = o.upload) (authorization issuer : String) (body : Bytes)
    (reg : Registry) : Behaves C G X cfg o (fun _ _ => True)
      (publishRevocationsCalls C G cfg env authorization issuer body) reg := by
  unfold publishRevocationsCalls
  apply keeps_ite
  · intro _
    trivial
  intro _
  have ht : cfg.uploadPath env.upload ∈ owned cfg o := by
    rw [ho]
    simp [owned]
  apply behaves_withUpload env ho
  intro written reg₁
  refine Keeps.bind (behaves_observe (fun result reg' => result = .ok () →
    Staged C G X cfg (cfg.uploadPath env.upload) (cfg.revocationPath issuer) reg') ?_) ?_
  · intro reg' _ _ hv bytes hb
    obtain ⟨document, hread, hvalid⟩ := bind_ok.mp hv
    cases (readFile_inv hread).symm.trans hb
    exact .revocations hvalid
  intro result reg₂ h₂
  cases result with
  | error e => trivial
  | ok _ =>
  refine Keeps.bind (behaves_observe (fun _ reg' =>
    Staged C G X cfg (cfg.uploadPath env.upload) (cfg.revocationPath issuer) reg') ?_) ?_
  · intro reg' _ hr
    exact (h₂ rfl).stable ht hr
  intro result reg₃ h₃
  cases result with
  | error e => trivial
  | ok digest =>
  apply Keeps.bind (behaves_replaceFile hcfg _ _ ht (.revocations issuer) h₃)
  intro result _ _
  cases result with
  | error e => trivial
  | ok _ => trivial

theorem behaves_post (hcfg : cfg.DefaultIndex) (env : Env) (ho : env.upload = o.upload)
    (hi : env.numbers.save.temp = o.index) (r : Request) (reg : Registry) :
    Behaves C G X cfg o (fun _ _ => True) (postCalls C G X cfg env r) reg := by
  unfold postCalls
  cases r.target with
  | artifact rawName => exact behaves_publish hcfg env ho hi _ _ _ _
  | revocations urlPath =>
    dsimp only
    generalize revocationIssuerFromPath urlPath = issuer
    apply keeps_ite
    · intro _
      trivial
    · intro _
      exact behaves_publishRevocations hcfg env ho _ _ _ _

variable (C G X cfg)

inductive Starts : Owned → RegistryProgram (Option Response) → Prop where
  | post (env : Env) (r : Request) :
      Starts ⟨env.upload, env.numbers.save.temp⟩ (do
        let answer ← postCalls C G X cfg env r
        return some answer)
  | reload (faults : LoadFaults) (numbers : Numbers) (modTime : Path → String) (upload : ℕ) :
      Starts ⟨upload, numbers.temp⟩ (do
        let _ ← loadIndexCalls C X cfg faults numbers modTime
        return none)

def killed (reg : Registry) : Registry := ⟨reg.files, []⟩

abbrev Running (init : Registry) (pool : Pool Registry Owned (Option Response) ℕ) : Prop :=
  PoolReachable Apart (Starts C G X cfg) killed init pool

structure Intact (files : Files) : Prop where
  artifact : ∀ urlPath bytes, serveArtifact cfg urlPath files = .file bytes →
    validateQcapArchive C G (G.openReader bytes) = .ok ()
  revocations : ∀ urlPath bytes, serveRevocations cfg urlPath files = .file bytes →
    validateRevocationList C G bytes (revocationIssuerFromPath urlPath) = .ok ()
  index : ∀ bytes, files.lookup cfg.indexPath = some bytes → ∃ index, bytes = indexBytes X index

variable {C G X cfg}

theorem complete_artifact {name : String} {bytes : Bytes} (hext : ext name = ".qcap")
    (h : Complete C G X cfg (cfg.artifactPath name) bytes) :
    validateQcapArchive C G (G.openReader bytes) = .ok () := by
  generalize hp : cfg.artifactPath name = p at h
  cases h with
  | artifact _ hv => exact hv
  | revocations _ => exact absurd hp (by simp [Config.artifactPath, Config.revocationPath])
  | index _ => exact absurd hp.symm (cfg.index_not_artifact name hext)

theorem complete_revocations (hcfg : cfg.DefaultIndex) {issuer : String} {bytes : Bytes}
    (h : Complete C G X cfg (cfg.revocationPath issuer) bytes) :
    validateRevocationList C G bytes issuer = .ok () := by
  generalize hp : cfg.revocationPath issuer = p at h
  cases h with
  | artifact _ _ => exact absurd hp (by simp [Config.artifactPath, Config.revocationPath])
  | @revocations issuer' _ hv =>
    have hi : issuer = issuer' := by simpa [Config.revocationPath] using hp
    exact hi ▸ hv
  | index _ =>
    rw [hcfg] at hp
    exact absurd hp (by simp [Config.revocationPath])

theorem complete_index (hcfg : cfg.DefaultIndex) {bytes : Bytes}
    (h : Complete C G X cfg cfg.indexPath bytes) : ∃ index, bytes = indexBytes X index := by
  generalize hp : cfg.indexPath = p at h
  cases h with
  | artifact hext _ => exact absurd hp (cfg.index_not_artifact _ hext)
  | revocations _ =>
    rw [hcfg] at hp
    exact absurd hp (by simp [Config.revocationPath])
  | index index => exact ⟨index, rfl⟩

theorem Sound.intact (hcfg : cfg.DefaultIndex) (h : Sound C G X cfg reg) :
    Intact C G X cfg reg.files where
  artifact urlPath bytes hs := by
    obtain ⟨name, hn, hl⟩ := serveArtifact_file hs
    have hext := requestedName_ext hn
    exact complete_artifact hext ((h _ bytes hl).kept (.artifact name hext))
  revocations urlPath bytes hs :=
    complete_revocations hcfg ((h _ bytes (serveRevocations_file hs)).kept (.revocations _))
  index bytes hb := complete_index hcfg ((h _ bytes hb).kept .index)

theorem starts_behaves (hcfg : cfg.DefaultIndex) {p : RegistryProgram (Option Response)}
    (h : Starts C G X cfg o p) (reg : Registry) :
    Behaves C G X cfg o (fun _ _ => True) p reg := by
  cases h with
  | post env r =>
    exact Keeps.bind (behaves_post hcfg env rfl rfl r reg) fun _ _ _ => trivial
  | reload faults numbers modTime upload =>
    exact Keeps.bind (behaves_loadIndex hcfg faults numbers rfl modTime reg) fun _ _ _ => trivial

theorem running_sound (hcfg : cfg.DefaultIndex) {init : Registry} (hinit : Sound C G X cfg init)
    {pool : Pool Registry Owned (Option Response) ℕ} (h : Running C G X cfg init pool) :
    Sound C G X cfg pool.state := by
  have hrefl : ∀ o reg, Untouched cfg o reg reg := by
    intro o reg p _
    rfl
  have htrans : ∀ o reg₁ reg₂ reg₃, Untouched cfg o reg₁ reg₂ → Untouched cfg o reg₂ reg₃ →
      Untouched cfg o reg₁ reg₃ := by
    intro o reg₁ reg₂ reg₃ h₁ h₂ p hp
    exact (h₂ p hp).trans (h₁ p hp)
  refine (h.invariant hrefl htrans ?_ ?_ hinit).holds
  · intro o p reg hp _
    exact starts_behaves hcfg hp reg
  · intro reg hs
    exact hs

/-- Whatever runs, however the calls interleave and fail, and wherever the process is killed:
what a GET sends was checked as a whole, and the index file is a whole document. -/
theorem running_intact (hcfg : cfg.DefaultIndex) {init : Registry}
    (hinit : Sound C G X cfg init) {pool : Pool Registry Owned (Option Response) ℕ}
    (h : Running C G X cfg init pool) : Intact C G X cfg pool.state.files :=
  (running_sound hcfg hinit h).intact hcfg

variable (C G X cfg)

def afterPost (env : Env) (r : Request) (init : Registry) :
    Pool Registry Owned (Option Response) ℕ :=
  ⟨killed (post C G X cfg env r init).2, fun _ => none⟩

variable {C G X cfg}

theorem afterPost_files (env : Env) (r : Request) (init : Registry) :
    (afterPost C G X cfg env r init).state.files = (post C G X cfg env r init).2.files :=
  rfl

theorem running_afterPost (env : Env) (r : Request) (init : Registry) (faults : LoadFaults)
    (numbers : Numbers) (modTime : Path → String)
    (h : numbers.temp ≠ env.numbers.save.temp) :
    Running C G X cfg init (afterPost C G X cfg env r init) := by
  have hreload : Running C G X cfg init _ := PoolReachable.init.next
    (.start 1 _ _ (.reload faults numbers modTime (env.upload + 1)) rfl (by
      intro j o' q hj
      cases hj))
  have hpost := hreload.next (.start 0 _ _ (.post env r) rfl (by
    intro j o' q hj
    rcases set_threads hj with ⟨-, ht⟩ | ⟨-, hj⟩
    · cases ht
      exact ⟨⟨by simp, Ne.symm h⟩, ⟨by simp, h⟩⟩
    · cases hj))
  have hkilled := (hpost.run (Function.update_self _ _ _)).next .kill
  rw [Program.run_bind, run_postCalls] at hkilled
  exact hkilled

def samplePool : Pool Registry Owned (Option Response) ℕ :=
  afterPost toy (legacyGo sampleBundle) (goIndexCodec false) sampleConfig sampleEnv sampleRequest
    ⟨∅, []⟩

theorem samplePool_intact :
    samplePool.state.files.lookup (sampleConfig.artifactPath "artifact.qcap") =
      some sampleArchive ∧
    Intact toy (legacyGo sampleBundle) (goIndexCodec false) sampleConfig
      samplePool.state.files := by
  have hcfg : sampleConfig.DefaultIndex := rfl
  have hempty : Sound toy (legacyGo sampleBundle) (goIndexCodec false) sampleConfig ⟨∅, []⟩ := by
    intro q bytes hq
    cases hq.symm.trans (AList.lookup_empty q)
  have hrunning : Running toy (legacyGo sampleBundle) (goIndexCodec false) sampleConfig ⟨∅, []⟩
      samplePool :=
    running_afterPost sampleEnv sampleRequest ⟨∅, []⟩ .none ⟨4, 0⟩ (fun _ => "now") (by decide)
  refine ⟨?_, running_intact hcfg hempty hrunning⟩
  rw [samplePool, afterPost_files]
  exact samplePost_stored

end QCap.RegistryPool
