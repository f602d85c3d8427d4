import QCap.RegistryKills
import QCap.RegistryStore
import QCap.ListAgreement

/-!
# The registry refines the store

Whatever the clients see of the registry, with its requests interleaved, its index reloaded and
its process killed and restarted at any call, they could see of the store.
-/
namespace QCap.RegistryRefinement

open QCap.Text QCap.Crypto QCap.CrashSafety QCap.Refinement QCap.RegistryArchive
open QCap.RegistryFiles QCap.RegistryIndex QCap.RegistryPublish QCap.RegistryRuns
open QCap.RegistryCalls QCap.RegistryMoments QCap.RegistryKills QCap.RegistryService
open QCap.RegistryStore QCap.IndexReload QCap.RegistryNames QCap.GoDocuments QCap.IndexJson
open QCap.Revocation QCap.ListAgreement QCap.SerdeDocuments QCap.GoJson

variable (C : Primitives) (G : GoLib) (X : IndexCodec) (cfg : Config)

def answered (s : System) : Event → Option Seen
  | .commit id numbers =>
    match s.jobs id with
    | some ⟨.artifact name, number, .digested written digest now⟩ =>
      match (commitArtifact X cfg CommitFaults.none numbers (cfg.uploadPath number)
          (cfg.artifactPath name) (artifactCapsule name written digest now) s.reg).1 with
      | .ok () => some (.created (artifactCapsule name written digest now))
      | .error _ => none
    | some ⟨.revocations issuer, number, .digested written digest now⟩ =>
      match (replaceFile ReplaceFaults.none numbers.nanos (cfg.uploadPath number)
          (cfg.revocationPath issuer) s.reg.files).1 with
      | .ok () => some (.listed (revocationDocument issuer written digest now))
      | .error _ => none
    | _ => none
  | _ => none

def Dest.slot : Dest → Slot
  | .artifact name => .artifact name
  | .revocations issuer => .list issuer

def during (s : System) : Event → Option Slot
  | .commit id _ => (s.jobs id).map fun job => Dest.slot job.dest
  | _ => none

/-- The steps of the registry, a GET among them, and the kills. -/
inductive RegistryStep : System → Option Seen → System → Prop where
  | event {s : System} (e : Event) : Enabled cfg s e →
      RegistryStep s (answered X cfg s e) (next C G X cfg s e)
  | read {s : System} {urlPath : String} {answer : Answer} :
      readAnswer cfg urlPath s.reg = some answer →
      RegistryStep s (some (.read urlPath answer)) s
  | kill {s : System} (e : Event) {now : Registry} {restarted : GoResult Unit × Registry} :
      Enabled cfg s e → now ∈ (eventCalls C X cfg s e).moments s.reg →
      Program.Restarts (fun r : Surroundings => restartCalls C X cfg r.numbers r.modTime) now
        restarted →
      RegistryStep s (some (.killed (during s e))) (afterKill cfg s e now restarted.2)

def RunsFromEmpty (trace : List Seen) (s : System) : Prop :=
  ∃ (files : Files) (numbers : Numbers) (modTime : Path → String),
    (∀ p, cfg.storeDir <+: p → files.lookup p = none) ∧
      Runs (RegistryStep C G X cfg) (start C X cfg files numbers modTime) trace s

def storedOf (log : List Commit) (name : String) : Option Stored :=
  (lastBytes log name).bind fun bytes =>
    (firstCreatedAt log name).map fun createdAt => ⟨bytes, createdAt⟩

def storeOf (s : System) : Store where
  artifacts := storedOf s.log
  lists issuer := s.reg.files.lookup (cfg.revocationPath issuer)

variable {C G X cfg} {s : System} {log : List Commit} {name : String} {t : Store}

theorem storedOf_createdAt (log : List Commit) (name : String) :
    (storedOf log name).map Stored.createdAt = firstCreatedAt log name := by
  unfold storedOf
  cases hb : lastBytes log name with
  | none => rw [firstCreatedAt_none hb]; rfl
  | some bytes =>
    obtain ⟨createdAt, hc⟩ := firstCreatedAt_of_lastBytes hb
    rw [hc]
    rfl

theorem storedOf_bytes (log : List Commit) (name : String) :
    (storedOf log name).map Stored.bytes = lastBytes log name := by
  unfold storedOf
  cases hb : lastBytes log name with
  | none => rfl
  | some bytes =>
    obtain ⟨createdAt, hc⟩ := firstCreatedAt_of_lastBytes hb
    rw [hc]
    rfl

theorem storedOf_snoc (log : List Commit) (c : Commit) :
    storedOf (log ++ [c]) = Function.update (storedOf log) c.name
      (some ⟨c.bytes, ((storedOf log c.name).map Stored.createdAt).getD c.createdAt⟩) := by
  funext name
  by_cases hn : name = c.name
  · subst hn
    rw [Function.update_self, storedOf_createdAt, storedOf, lastBytes_snoc, if_pos rfl,
      firstCreatedAt_snoc, if_pos rfl]
    cases firstCreatedAt log c.name with
    | none => rfl
    | some createdAt => rfl
  · rw [Function.update_of_ne hn, storedOf, lastBytes_snoc, if_neg (Ne.symm hn),
      firstCreatedAt_snoc, if_neg (Ne.symm hn), Option.or_none]
    rfl

theorem entryOf_iff (log : List Commit) (c : Capsule) :
    EntryOf C log c ↔ ∃ a, storedOf log c.name = some a ∧ c = a.row C c.name := by
  constructor
  · rintro ⟨bytes, createdAt, hb, hc, he⟩
    refine ⟨⟨bytes, createdAt⟩, ?_, he⟩
    rw [storedOf, hb, hc]
    rfl
  · rintro ⟨a, ha, he⟩
    have hb := storedOf_bytes log c.name
    have hc := storedOf_createdAt log c.name
    rw [ha] at hb hc
    exact ⟨a.bytes, a.createdAt, hb.symm, hc.symm, he⟩

structure Represents (C : Primitives) (cfg : Config) (t : Store) (reg : Registry) : Prop where
  artifacts : ∀ name, ext name = ".qcap" →
    reg.files.lookup (cfg.artifactPath name) = (t.artifacts name).map Stored.bytes
  lists : ∀ issuer, reg.files.lookup (cfg.revocationPath issuer) = t.lists issuer
  index : t.Index C reg.index

theorem coherent_represents (h : Coherent C G X cfg s.log s.reg) :
    Represents C cfg (storeOf cfg s) s.reg where
  artifacts name hn := (h.stored name hn).trans (storedOf_bytes s.log name).symm
  lists _ := rfl
  index := ⟨h.sorted, fun c => (h.index c).trans (entryOf_iff s.log c)⟩

theorem Represents.download {reg : Registry} (h : Represents C cfg t reg) {answer : Answer}
    (hn : ∃ rawName, artifactName rawName = some name)
    (ha : readAnswer cfg ("/artifacts/" ++ name) reg = some answer) :
    answer = whole ((t.artifacts name).map Stored.bytes) := by
  obtain ⟨rawName, hraw⟩ := hn
  have hstored : StoredName cfg name := artifactName_stored _ hraw
  obtain ⟨hroute, hreply⟩ := route_download hstored
  rw [readAnswer, hroute] at ha
  cases ha
  rw [serveArtifact, hstored.requested]
  dsimp only
  rw [serveFile, hreply, h.artifacts name hstored.qcap]
  rfl

theorem Represents.list {reg : Registry} (h : Represents C cfg t reg) {issuer : String}
    {answer : Answer} (hkey : HexKey issuer)
    (ha : readAnswer cfg (listUrl issuer) reg = some answer) : answer = whole (t.lists issuer) := by
  obtain ⟨hroute, hreply⟩ := @route_list issuer hkey
  rw [readAnswer, hroute] at ha
  cases ha
  unfold serveRevocations
  dsimp only
  rw [revocationIssuerFromPath_listUrl hkey, if_neg hkey.plain.1, serveFile, hreply, h.lists]
  rfl

/-- Under any spelling of a path there is a stored file that it names. -/
theorem Represents.file {reg : Registry} (h : Represents C cfg t reg) {urlPath : String}
    {bytes : Bytes} (ha : readAnswer cfg urlPath reg = some (.file (.file bytes))) :
    (∃ raw a, urlPath = "/artifacts/" ++ raw ∧ t.artifacts (trim raw) = some a ∧
      a.bytes = bytes) ∨
    ∃ rest issuer, urlPath = "/revocations/" ++ rest ∧ issuer.toList <:+: rest.toList ∧
      t.lists issuer = some bytes := by
  have hserved : route urlPath = .artifact ∧
        serveArtifact cfg urlPath reg.files = .file bytes ∨
      route urlPath = .revocations ∧ serveRevocations cfg urlPath reg.files = .file bytes := by
    unfold readAnswer at ha
    cases hr : route urlPath with
    | artifact =>
      rw [hr] at ha
      exact .inl ⟨rfl, Answer.file.inj (Option.some.inj ha)⟩
    | revocations =>
      rw [hr] at ha
      exact .inr ⟨rfl, Answer.file.inj (Option.some.inj ha)⟩
    | indexJSON | indexHTML | root | health | healthHTML | publish | redirect =>
      rw [hr] at ha
      cases ha
  rcases hserved with ⟨-, hs⟩ | ⟨hroute, hs⟩
  · obtain ⟨name, hn, hl⟩ := serveArtifact_file hs
    obtain ⟨raw, hurl, hraw⟩ := requestedName_trim hn
    rw [h.artifacts name (requestedName_ext hn), ← hraw, Option.map_eq_some_iff] at hl
    obtain ⟨a, ha, hbytes⟩ := hl
    exact .inl ⟨raw, a, hurl, ha, hbytes⟩
  · obtain ⟨rest, hrest⟩ := route_revocations hroute
    have hl := serveRevocations_file hs
    rw [h.lists] at hl
    refine .inr ⟨rest, _, hrest, ?_, hl⟩
    rw [hrest]
    exact revocationIssuer_within rest

/-- Each GET says what the store holds. -/
theorem Represents.answers {reg : Registry} (h : Represents C cfg t reg) {urlPath : String}
    {answer : Answer} (ha : readAnswer cfg urlPath reg = some answer) :
    t.Answers C urlPath answer where
  download name hn hurl := h.download hn (hurl ▸ ha)
  list issuer hkey hurl := h.list hkey (hurl ▸ ha)
  indexJSON hurl := by
    rw [readAnswer, hurl, show route "/index.json" = .indexJSON by decide] at ha
    cases ha
    exact ⟨_, rfl⟩
  indexHTML hurl := by
    rw [readAnswer, hurl, show route "/index" = .indexHTML by decide] at ha
    cases ha
    exact ⟨_, rfl⟩
  rows index hi := by
    have he : index = reg.index := by
      unfold readAnswer at ha
      cases hr : route urlPath with
      | indexJSON | indexHTML =>
        rw [hr] at ha
        cases ha
        rcases hi with he | he
        · cases he <;> rfl
        · cases he <;> rfl
      | artifact | revocations =>
        rw [hr] at ha
        cases ha
        rcases hi with he | he
        · cases he
        · cases he
      | root | health | healthHTML | publish | redirect =>
        rw [hr] at ha
        cases ha
    rw [he]
    exact h.index
  file bytes hb := h.file (hb ▸ ha)

/-- A request in progress has a name that `publish` made. -/
def Named (s : System) : Prop :=
  ∀ id job name, s.jobs id = some job → job.dest = .artifact name →
    ∃ rawName, artifactName rawName = some name

theorem Named.of_jobs {s' : System} (h : Named s)
    (hjobs : ∀ id job, s'.jobs id = some job →
      ∃ before, s.jobs id = some before ∧ before.dest = job.dest) : Named s' := by
  intro id job name hj hdest
  obtain ⟨before, hbefore, hd⟩ := hjobs id job hj
  exact h id before name hbefore (hd.trans hdest)

theorem Named.setJob (h : Named s) {id : ℕ} {job : Job} (after : Job)
    (hj : s.jobs id = some job) (hd : job.dest = after.dest) : Named (s.setJob id after) := by
  apply h.of_jobs
  intro id' job' hj'
  by_cases hid : id' = id
  · subst hid
    simp only [System.setJob, Function.update_self] at hj'
    cases hj'
    exact ⟨job, hj, hd⟩
  · simp only [System.setJob, Function.update_of_ne hid] at hj'
    exact ⟨job', hj', rfl⟩

theorem Named.next (h : Named s) (e : Event) : Named (next C G X cfg s e) := by
  cases e with
  | stage id number authorization target body =>
    simp only [RegistryRuns.next]
    by_cases ha : authorized cfg authorization = true
    swap
    · rw [if_neg ha]
      exact h
    rw [if_pos ha]
    cases hd : destination target with
    | none => exact h
    | some dest =>
      dsimp only
      unfold stageJob
      rcases stageUpload StageFaults.none (cfg.uploadPath number) body dest.maxBytes
        s.reg.files with ⟨_ | written, files⟩
      · exact h
      intro id' job name hj hdest
      by_cases hid : id' = id
      · subst hid
        simp only [System.setJob, Function.update_self] at hj
        cases hj
        dsimp only at hdest
        subst hdest
        cases target with
        | artifact rawName =>
          obtain ⟨name', hn, he⟩ := Option.map_eq_some_iff.mp hd
          cases he
          exact ⟨rawName, hn⟩
        | revocations urlPath =>
          simp only [destination] at hd
          split at hd
          · cases hd
          · cases hd
      · simp only [System.setJob, Function.update_of_ne hid] at hj
        exact h id' job name hj hdest
  | validate id =>
    simp only [RegistryRuns.next]
    rcases hj : s.jobs id with _ | ⟨dest, number, written | _ | _ | _⟩
    · exact h
    · dsimp only
      cases validateJob C G dest (cfg.uploadPath number) s.reg.files with
      | error e => exact h.setJob ⟨dest, number, .finished⟩ hj rfl
      | ok _ => exact h.setJob ⟨dest, number, .validated written⟩ hj rfl
    all_goals exact h
  | digest id now =>
    simp only [RegistryRuns.next]
    rcases hj : s.jobs id with _ | ⟨dest, number, _ | written | _ | _⟩
    · exact h
    · exact h
    · dsimp only
      cases digestUpload C none (cfg.uploadPath number) s.reg.files with
      | error e => exact h.setJob ⟨dest, number, .finished⟩ hj rfl
      | ok digest => exact h.setJob ⟨dest, number, .digested written digest now⟩ hj rfl
    all_goals exact h
  | commit id numbers =>
    simp only [RegistryRuns.next]
    rcases hj : s.jobs id with _ | ⟨name | issuer, number, _ | _ | ⟨written, digest, now⟩ | _⟩
    all_goals try exact h
    · have hset : Named (s.setJob id ⟨.artifact name, number, .finished⟩) := h.setJob _ hj rfl
      simp only [commitJob]
      rcases commitArtifact X cfg CommitFaults.none numbers (cfg.uploadPath number)
        (cfg.artifactPath name) (artifactCapsule name written digest now) s.reg with ⟨e | _, reg⟩
      · exact hset
      · exact hset
    · have hset : Named (s.setJob id ⟨.revocations issuer, number, .finished⟩) :=
        h.setJob _ hj rfl
      exact hset
  | finish id =>
    simp only [RegistryRuns.next]
    rcases hj : s.jobs id with _ | ⟨dest, number, _ | _ | _ | _⟩
    all_goals try exact h
    apply h.of_jobs
    intro id' job hj'
    dsimp only at hj'
    by_cases hid : id' = id
    · subst hid
      rw [Function.update_self] at hj'
      cases hj'
    · rw [Function.update_of_ne hid] at hj'
      exact ⟨job, hj', rfl⟩
  | reload numbers modTime => exact h
  | abortedReload => exact h
  | restart numbers modTime =>
    intro id job name hj
    cases hj

def SameLists (cfg : Config) (files files' : Files) : Prop :=
  ∀ issuer, files'.lookup (cfg.revocationPath issuer) = files.lookup (cfg.revocationPath issuer)

theorem list_tracked (issuer : String) : Tracked cfg (cfg.revocationPath issuer) :=
  .revocations issuer

theorem list_ne_index (hcfg : cfg.DefaultIndex) (issuer : String) :
    cfg.revocationPath issuer ≠ cfg.indexPath :=
  (artifact_ne_list hcfg issuer (.inr rfl)).symm

theorem list_ne_artifact (hcfg : cfg.DefaultIndex) (issuer : String) (hn : ext name = ".qcap") :
    cfg.revocationPath issuer ≠ cfg.artifactPath name := by
  refine (artifact_ne_list hcfg issuer (.inl ?_)).symm
  rw [Config.artifactPath, base_append, hn]

theorem list_ne_indexTemp (issuer : String) (numbers : Numbers) :
    cfg.revocationPath issuer ≠ cfg.indexTemp numbers := by
  apply (list_tracked issuer).ne cfg
  rw [Config.indexTemp, tempPath, base_append]
  exact temporary_index _

theorem revocationPath_injective {issuer issuer' : String}
    (h : cfg.revocationPath issuer = cfg.revocationPath issuer') : issuer = issuer' := by
  have htail := List.append_cancel_left h
  simpa using htail

theorem only_sameLists {n : ℕ} {reg now : Registry} (h : Only (cfg.uploadPath n) reg now) :
    SameLists cfg reg.files now.files := fun issuer =>
  h.files _ (tracked_ne_upload (list_tracked issuer) n)

theorem saveIndex_lists (hcfg : cfg.DefaultIndex) {numbers : Numbers} {faults : SaveFaults}
    {reg now : Registry} (h : now ∈ (saveIndexCalls X cfg faults numbers).moments reg) :
    SameLists cfg reg.files now.files := by
  obtain ⟨-, hm⟩ := saveIndex_moments h
  intro issuer
  exact hm.other _ (list_ne_indexTemp issuer numbers)
    ((list_tracked issuer).ne cfg (temporary_backup _ _)) (list_ne_index hcfg issuer)

theorem loadIndex_lists (hcfg : cfg.DefaultIndex) (faults : LoadFaults) (numbers : Numbers)
    (modTime : Path → String) (files : Files) :
    (loadIndexCalls C X cfg faults numbers modTime).Preserves
      fun reg => SameLists cfg files reg.files := by
  have hread : ∀ {α : Type} (read : Registry → α),
      (observe read).Preserves fun reg => SameLists cfg files reg.files := fun _ =>
    Program.preserves_call fun _ h => h
  apply Program.Meets.bind (hread _)
  intro old
  cases old with
  | error e => exact Program.preserves_done _
  | ok idx =>
    dsimp only
    cases faults.walk with
    | some e => exact Program.preserves_done _
    | none =>
      apply Program.Meets.bind (hread _)
      intro index
      apply Program.Meets.bind (Program.preserves_call fun _ h => h)
      intro _ reg h
      have hall : ∀ now ∈ (saveIndexCalls X cfg faults.save numbers).moments reg,
          SameLists cfg files now.files := fun now hnow issuer =>
        (saveIndex_lists hcfg hnow issuer).trans (h issuer)
      exact ⟨hall _ (Program.run_mem_moments _ _), hall⟩

theorem restart_lists (hcfg : cfg.DefaultIndex) (numbers : Numbers) (modTime : Path → String)
    (files : Files) :
    (restartCalls C X cfg numbers modTime).Preserves fun reg => SameLists cfg files reg.files :=
  Program.Meets.bind (Program.preserves_call fun _ h => h) fun _ =>
    loadIndex_lists hcfg .none numbers modTime files

theorem next_quiet (hcfg : cfg.DefaultIndex) (e : Event)
    (he : ∀ id numbers, e ≠ .commit id numbers) :
    (next C G X cfg s e).log = s.log ∧
      SameLists cfg s.reg.files (next C G X cfg s e).reg.files := by
  have hrun := run_eventCalls C G X cfg s e
  have hsame : SameLists cfg s.reg.files s.reg.files := fun _ => rfl
  cases e with
  | stage id number authorization target body =>
    simp only [RegistryRuns.next]
    by_cases ha : authorized cfg authorization = true
    swap
    · rw [if_neg ha]
      exact ⟨rfl, hsame⟩
    rw [if_pos ha]
    cases destination target with
    | none => exact ⟨rfl, hsame⟩
    | some dest =>
      have hother : ∀ q, q ≠ cfg.uploadPath number → (stageUpload StageFaults.none
          (cfg.uploadPath number) body dest.maxBytes s.reg.files).2.lookup q =
            s.reg.files.lookup q := fun q hq => stageUpload_other hq
      dsimp only
      unfold stageJob
      rcases hs : stageUpload StageFaults.none (cfg.uploadPath number) body dest.maxBytes
        s.reg.files with ⟨_ | written, files⟩
      all_goals
        rw [hs] at hother
        exact ⟨rfl, fun issuer => hother _ (tracked_ne_upload (list_tracked issuer) number)⟩
  | validate id =>
    simp only [RegistryRuns.next]
    rcases s.jobs id with _ | ⟨dest, number, written | _ | _ | _⟩
    · exact ⟨rfl, hsame⟩
    · dsimp only
      cases validateJob C G dest (cfg.uploadPath number) s.reg.files with
      | error e => exact ⟨rfl, hsame⟩
      | ok _ => exact ⟨rfl, hsame⟩
    all_goals exact ⟨rfl, hsame⟩
  | digest id now =>
    simp only [RegistryRuns.next]
    rcases s.jobs id with _ | ⟨dest, number, _ | written | _ | _⟩
    · exact ⟨rfl, hsame⟩
    · exact ⟨rfl, hsame⟩
    · dsimp only
      cases digestUpload C none (cfg.uploadPath number) s.reg.files with
      | error e => exact ⟨rfl, hsame⟩
      | ok digest => exact ⟨rfl, hsame⟩
    all_goals exact ⟨rfl, hsame⟩
  | commit id numbers => exact absurd rfl (he id numbers)
  | finish id =>
    simp only [RegistryRuns.next]
    rcases s.jobs id with _ | ⟨dest, number, _ | _ | _ | _⟩
    all_goals try exact ⟨rfl, hsame⟩
    exact ⟨rfl, fun issuer => removeQuietly_other (tracked_ne_upload (list_tracked issuer) number)⟩
  | abortedReload => exact ⟨rfl, hsame⟩
  | reload numbers modTime =>
    refine ⟨rfl, ?_⟩
    rw [← hrun]
    have hload := loadIndex_lists (C := C) (X := X) hcfg .none numbers modTime s.reg.files
    exact (hload s.reg hsame).2 _ (Program.mem_moments_returns (fun _ => ⟨(), rfl⟩)
      (Program.run_mem_moments _ _))
  | restart numbers modTime =>
    refine ⟨rfl, ?_⟩
    rw [← hrun]
    have hload := restart_lists (C := C) (X := X) hcfg numbers modTime s.reg.files
    exact (hload s.reg hsame).2 _ (Program.mem_moments_returns (fun _ => ⟨(), rfl⟩)
      (Program.run_mem_moments _ _))

theorem storeOf_same {s' : System} (hlog : s'.log = s.log)
    (hl : SameLists cfg s.reg.files s'.reg.files) : storeOf cfg s' = storeOf cfg s := by
  unfold storeOf
  rw [hlog]
  congr 1
  funext issuer
  exact hl issuer

theorem storeOf_put {s' : System} {body : Bytes} {now : String}
    (hlog : s'.log = s.log ++ [⟨name, body, now⟩])
    (hl : SameLists cfg s.reg.files s'.reg.files) :
    storeOf cfg s' = (storeOf cfg s).put name body now := by
  unfold storeOf Store.put
  rw [hlog, storedOf_snoc]
  congr 1
  funext issuer
  exact hl issuer

def ListReplaced (cfg : Config) (issuer : String) (body : Bytes) (files files' : Files) : Prop :=
  ∀ i, files'.lookup (cfg.revocationPath i) =
    if i = issuer then some body else files.lookup (cfg.revocationPath i)

theorem storeOf_putList {s' : System} {issuer : String} {body : Bytes} (hlog : s'.log = s.log)
    (hl : ListReplaced cfg issuer body s.reg.files s'.reg.files) :
    storeOf cfg s' = (storeOf cfg s).putList issuer body := by
  unfold storeOf Store.putList
  rw [hlog]
  congr 1
  funext i
  rw [hl i, Function.update_apply]

theorem listReplaced_rename (cfg : Config) (issuer : String) (number : ℕ) (body : Bytes)
    (files : Files) :
    ListReplaced cfg issuer body files
      ((files.erase (cfg.uploadPath number)).insert (cfg.revocationPath issuer) body) := by
  intro i
  rw [lookup_rename, if_neg (tracked_ne_upload (list_tracked i) number)]
  by_cases hi : i = issuer
  · rw [if_pos hi, if_pos (congrArg cfg.revocationPath hi)]
  · rw [if_neg hi, if_neg fun h => hi (revocationPath_injective h)]

/-- A commit is a step of the store, and is answered; no other step is seen. -/
theorem event_step (hcfg : cfg.DefaultIndex) (h : Invariant C G cfg X s) (hn : Named s)
    (e : Event) :
    Step C G (storeOf cfg s) (answered X cfg s e) (storeOf cfg (next C G X cfg s e)) ∨
      (answered X cfg s e = none ∧ storeOf cfg (next C G X cfg s e) = storeOf cfg s) := by
  have hquiet : (∀ id numbers, e ≠ .commit id numbers) →
      storeOf cfg (next C G X cfg s e) = storeOf cfg s := by
    intro he
    obtain ⟨hlog, hl⟩ := next_quiet (C := C) (G := G) (X := X) (s := s) hcfg e he
    exact storeOf_same hlog hl
  cases e with
  | commit id numbers =>
    rcases hj : s.jobs id with _ | ⟨name | issuer, number, _ | _ | ⟨written, digest, now⟩ | _⟩
    case some.artifact.digested =>
      obtain ⟨body, hu, ha, rfl, hnow⟩ := h.sound id _ hj
      obtain rfl := hu.written
      obtain ⟨files', hcm, hl⟩ := commitArtifact_none X cfg numbers (cfg.artifactPath name)
        (artifactCapsule name body.length (fileDigest C body) now) hu.temp
      have hlists : SameLists cfg s.reg.files files' := by
        intro issuer
        rw [hl, if_neg (list_ne_index hcfg issuer), if_neg (list_ne_indexTemp issuer _),
          if_neg (list_ne_artifact hcfg issuer ha.1),
          if_neg (tracked_ne_upload (list_tracked issuer) number)]
      have hlog : (next C G X cfg s (.commit id numbers)).log = s.log ++ [⟨name, body, now⟩] := by
        simp only [RegistryRuns.next, hj, commitJob, hcm, hu.temp, Option.getD_some]
      have hfiles : (next C G X cfg s (.commit id numbers)).reg.files = files' := by
        simp only [RegistryRuns.next, hj, commitJob, hcm]
      rw [← hfiles] at hlists
      left
      rw [storeOf_put hlog hlists]
      simp only [answered, hj, hcm]
      exact .created now ⟨hn id _ name hj rfl, hu.size, ha.2⟩
    case some.revocations.digested =>
      obtain ⟨body, hu, ha, rfl, hnow⟩ := h.sound id _ hj
      obtain rfl := hu.written
      have hrenamed := listReplaced_rename cfg issuer number body s.reg.files
      have hlog : (next C G X cfg s (.commit id numbers)).log = s.log := by
        simp only [RegistryRuns.next, hj, commitJob]
        rfl
      have hfiles : (next C G X cfg s (.commit id numbers)).reg.files =
          (s.reg.files.erase (cfg.uploadPath number)).insert (cfg.revocationPath issuer) body := by
        simp only [RegistryRuns.next, hj, commitJob, replaceFile_none hu.temp]
      rw [← hfiles] at hrenamed
      left
      rw [storeOf_putList hlog hrenamed]
      simp only [answered, hj, replaceFile_none hu.temp]
      exact .listed now ha
    all_goals
      right
      simp only [answered, RegistryRuns.next, hj]
      exact ⟨trivial, trivial⟩
  | stage id number authorization target body =>
    exact .inr ⟨rfl, hquiet (by intro _ _ he; cases he)⟩
  | validate id => exact .inr ⟨rfl, hquiet (by intro _ _ he; cases he)⟩
  | digest id now => exact .inr ⟨rfl, hquiet (by intro _ _ he; cases he)⟩
  | finish id => exact .inr ⟨rfl, hquiet (by intro _ _ he; cases he)⟩
  | reload numbers modTime => exact .inr ⟨rfl, hquiet (by intro _ _ he; cases he)⟩
  | abortedReload => exact .inr ⟨rfl, hquiet (by intro _ _ he; cases he)⟩
  | restart numbers modTime => exact .inr ⟨rfl, hquiet (by intro _ _ he; cases he)⟩

variable {e : Event} {now : Registry}

/-- The commit of an artifact never touches a list. -/
theorem commitArtifact_lists (hcfg : cfg.DefaultIndex) {reg : Registry} {name : String}
    {number : ℕ} {body : Bytes} {capsule : Capsule} {numbers : CommitNumbers}
    (hn : ext name = ".qcap") (ht : reg.files.lookup (cfg.uploadPath number) = some body)
    (h : now ∈ (commitArtifactCalls X cfg .none numbers (cfg.uploadPath number)
      (cfg.artifactPath name) capsule).moments reg) :
    SameLists cfg reg.files now.files := by
  have hd : Tracked cfg (cfg.artifactPath name) := artifact_tracked hn
  have hreplace : ∀ now' ∈ (replaceFileCalls CommitFaults.none.replace numbers.nanos
      (cfg.uploadPath number) (cfg.artifactPath name)).moments reg,
      SameLists cfg reg.files now'.files := by
    intro now' hm issuer
    obtain ⟨-, hmid⟩ := replaceFile_midway ht (tracked_ne_upload hd number).symm
      (hd.ne cfg (temporary_backup _ numbers.nanos)).symm backup_ne_upload hm
    exact hmid.other _ (tracked_ne_upload (list_tracked issuer) number)
      ((list_tracked issuer).ne cfg (temporary_backup _ _)) (list_ne_artifact hcfg issuer hn)
  have hafter := hreplace _ (Program.run_mem_moments _ _)
  unfold commitArtifactCalls at h
  rw [Program.mem_moments_bind] at h
  rcases h with hm | hm
  · exact hreplace now hm
  generalize (replaceFileCalls CommitFaults.none.replace numbers.nanos
    (cfg.uploadPath number) (cfg.artifactPath name)).run reg = r at hm hafter
  obtain ⟨e | _, reg'⟩ := r
  · rw [Program.mem_moments_done.mp hm]
    exact hafter
  · dsimp only at hm
    rw [Program.mem_moments_bind, run_remember] at hm
    rcases hm with hm | hm
    · rcases Program.mem_moments_call.mp hm with rfl | rfl
      · exact hafter
      · exact hafter
    · intro issuer
      exact (saveIndex_lists hcfg hm issuer).trans (hafter issuer)

/-- A list is put in place by one rename. -/
theorem commitList_lists {issuer : String} {number : ℕ} {body : Bytes} {nanos : ℕ}
    {reg : Registry} (ht : reg.files.lookup (cfg.uploadPath number) = some body)
    (h : now ∈ (replaceFileCalls CommitFaults.none.replace nanos (cfg.uploadPath number)
      (cfg.revocationPath issuer)).moments reg) :
    SameLists cfg reg.files now.files ∨ ListReplaced cfg issuer body reg.files now.files := by
  obtain ⟨-, hm⟩ := replaceFile_moments ht
    (tracked_ne_upload (list_tracked issuer) number).symm backup_ne_upload h
  generalize now.files = files at hm
  cases hm with
  | unchanged => exact .inl fun _ => rfl
  | renamed => exact .inr (listReplaced_rename cfg issuer number body reg.files)
  | aside _ hdet => exact absurd hdet not_detours
  | installed _ hdet => exact absurd hdet not_detours
  | removed _ hdet => exact absurd hdet not_detours
  | restored _ hdet => exact absurd hdet not_detours

/-- At every moment of a step, the lists are as before or one was just put in place. -/
theorem moments_lists (hcfg : cfg.DefaultIndex) (h : Invariant C G cfg X s)
    (hnow : now ∈ (eventCalls C X cfg s e).moments s.reg) :
    SameLists cfg s.reg.files now.files ∨
      (committing s e = none ∧ ∃ issuer body, during s e = some (.list issuer) ∧
        validateRevocationList C G body issuer = .ok () ∧
        ListReplaced cfg issuer body s.reg.files now.files) := by
  have hsame : SameLists cfg s.reg.files s.reg.files := fun _ => rfl
  by_cases hprivate : Private e
  · obtain ⟨number, honly⟩ := private_moments hprivate hnow
    exact .inl (only_sameLists honly)
  cases e with
  | stage | validate | digest | finish | abortedReload => exact absurd trivial hprivate
  | reload numbers modTime =>
    left
    exact (loadIndex_lists (C := C) (X := X) hcfg .none numbers modTime s.reg.files s.reg hsame).2
      now (Program.mem_moments_returns (fun _ => ⟨(), rfl⟩) hnow)
  | restart numbers modTime =>
    left
    exact (restart_lists (C := C) (X := X) hcfg numbers modTime s.reg.files s.reg hsame).2
      now (Program.mem_moments_returns (fun _ => ⟨(), rfl⟩) hnow)
  | commit id numbers =>
    rcases commit_cases C X cfg s id numbers with ⟨name, number, written, digest, now', hj⟩ |
      ⟨issuer, number, written, digest, now', hj⟩ | ⟨hcalls, hc⟩
    · obtain ⟨body, hu, ha, -⟩ := h.sound id _ hj
      left
      simp only [eventCalls, hj] at hnow
      exact commitArtifact_lists hcfg ha.1 hu.temp
        (Program.mem_moments_returns (fun _ => ⟨(), rfl⟩) hnow)
    · obtain ⟨body, hu, ha, -⟩ := h.sound id _ hj
      simp only [eventCalls, hj] at hnow
      rcases commitList_lists hu.temp (Program.mem_moments_returns (fun _ => ⟨(), rfl⟩) hnow) with
        hl | hl
      · exact .inl hl
      · exact .inr ⟨by simp [committing, hj], issuer, body, by rw [during, hj]; rfl, ha, hl⟩
    · rw [hcalls] at hnow
      rw [Program.mem_moments_done.mp hnow]
      exact .inl hsame

/-- A kill, and the restarts after it, are one step of the store. -/
theorem kill_step (hcfg : cfg.DefaultIndex) (h : Invariant C G cfg X s) (hn : Named s)
    {restarted : GoResult Unit × Registry} (hnow : now ∈ (eventCalls C X cfg s e).moments s.reg)
    (hr : Program.Restarts (fun r : Surroundings => restartCalls C X cfg r.numbers r.modTime) now
      restarted) :
    Step C G (storeOf cfg s) (some (.killed (during s e)))
      (storeOf cfg (afterKill cfg s e now restarted.2)) := by
  have hlists : SameLists cfg now.files restarted.2.files :=
    hr.holds (fun r => restart_lists hcfg r.numbers r.modTime now.files) fun _ => rfl
  cases hc : committing s e with
  | none =>
    have hlog : (afterKill cfg s e now restarted.2).log = s.log := by
      simp only [afterKill, logAfter, hc]
    rcases moments_lists hcfg h hnow with hl | ⟨-, issuer, body, hduring, hv, hl⟩
    · rw [storeOf_same (s := s) hlog fun issuer => (hlists issuer).trans (hl issuer)]
      exact .killed _
    · rw [storeOf_putList (s := s) hlog fun i => (hlists i).trans (hl i), hduring]
      exact .killedListing hv
  | some target =>
    obtain ⟨number, name⟩ := target
    have hl : SameLists cfg s.reg.files restarted.2.files := by
      rcases moments_lists hcfg h hnow with hl | ⟨hnone, -⟩
      · exact fun issuer => (hlists issuer).trans (hl issuer)
      · rw [hc] at hnone
        cases hnone
    by_cases hu : (now.files.lookup (cfg.uploadPath number)).isSome = true
    · have hlog : (afterKill cfg s e now restarted.2).log = s.log := by
        simp only [afterKill, logAfter, hc, if_pos hu]
      rw [storeOf_same (s := s) hlog hl]
      exact .killed _
    · cases e with
      | commit id numbers =>
        simp only [committing] at hc
        rcases hj : s.jobs id with _ | ⟨name' | issuer, number', _ | _ | ⟨_, _, now'⟩ | _⟩
        case some.artifact.digested =>
          rw [hj] at hc
          cases hc
          obtain ⟨body, hup, ha, -⟩ := h.sound id _ hj
          have hlog : (afterKill cfg s (.commit id numbers) now restarted.2).log =
              s.log ++ [⟨name, body, indexTime s (.commit id numbers) restarted.2.index⟩] := by
            simp only [afterKill, logAfter, committing, hj, if_neg hu, hup.temp, Option.getD_some]
          have hduring : during s (.commit id numbers) = some (.artifact name) := by
            rw [during, hj]
            rfl
          rw [storeOf_put (s := s) hlog hl, hduring]
          exact .killedCreating _ ⟨hn id _ name hj rfl, hup.size, ha.2⟩
        all_goals
          rw [hj] at hc
          cases hc
      | stage | validate | digest | finish | reload | abortedReload | restart => cases hc

def Refines (C : Primitives) (G : GoLib) (X : IndexCodec) (cfg : Config) (s : System)
    (t : Store) : Prop :=
  KillReachable C G X cfg s ∧ Named s ∧ t = storeOf cfg s

theorem registry_simulates (hcfg : cfg.DefaultIndex) (hX : X.ReadsBack) :
    Simulates (RegistryStep C G X cfg) (Step C G) (Refines C G X cfg) := by
  rintro s t label s' ⟨hs, hn, rfl⟩ hstep
  have hinv := hs.invariant hcfg hX
  cases hstep with
  | event e he =>
    refine ⟨storeOf cfg (next C G X cfg s e), ⟨hs.step e he, hn.next e, rfl⟩, ?_⟩
    exact event_step hcfg hinv hn e
  | read ha =>
    refine ⟨storeOf cfg s, ⟨hs, hn, rfl⟩, .inl (.read ?_)⟩
    exact (coherent_represents hinv.coherent).answers ha
  | kill e he hnow hr =>
    refine ⟨_, ⟨hs.kill e he hnow hr, ?_, rfl⟩, .inl (kill_step hcfg hinv hn hnow hr)⟩
    intro id job name hj
    cases hj

theorem start_refines (hcfg : cfg.DefaultIndex) {files : Files}
    (hf : ∀ p, cfg.storeDir <+: p → files.lookup p = none) (numbers : Numbers)
    (modTime : Path → String) :
    Refines C G X cfg (start C X cfg files numbers modTime) Store.empty := by
  refine ⟨.start files numbers modTime hf, ?_, ?_⟩
  · intro id job name hj
    cases hj
  · have hlists := loadIndex_lists (C := C) (X := X) hcfg .none numbers modTime files
    have hrun := (hlists ⟨files, []⟩ fun _ => rfl).1
    rw [run_loadIndexCalls] at hrun
    have hnone : ∀ issuer, (start C X cfg files numbers modTime).reg.files.lookup
        (cfg.revocationPath issuer) = none := fun issuer =>
      (hrun issuer).trans (hf _ (List.prefix_append _ _))
    unfold storeOf Store.empty
    congr 1
    funext issuer
    exact (hnone issuer).symm

theorem runs_store (hcfg : cfg.DefaultIndex) (hX : X.ReadsBack) {trace : List Seen}
    (h : RunsFromEmpty C G X cfg trace s) :
    Runs (Step C G) Store.empty trace (storeOf cfg s) ∧ Coherent C G X cfg s.log s.reg := by
  obtain ⟨files, numbers, modTime, hf, hrun⟩ := h
  obtain ⟨_, hruns, hs, -, rfl⟩ :=
    (registry_simulates hcfg hX).runs (start_refines hcfg hf numbers modTime) hrun
  exact ⟨hruns, (hs.invariant hcfg hX).coherent⟩

theorem runs_event {s₀ : System} {trace : List Seen}
    (h : Runs (RegistryStep C G X cfg) s₀ trace s) (e : Event) (he : Enabled cfg s e) :
    Runs (RegistryStep C G X cfg) s₀ (trace ++ (answered X cfg s e).toList)
      (next C G X cfg s e) := by
  have hstep : RegistryStep C G X cfg s (answered X cfg s e) (next C G X cfg s e) := .event e he
  cases ha : answered X cfg s e with
  | none =>
    rw [ha] at hstep
    rw [Option.toList_none, List.append_nil]
    exact h.silent hstep
  | some label =>
    rw [ha] at hstep
    exact h.visible hstep

/-- What `publish` and `publishRevocations` answer when they succeed. -/
def success (C : Primitives) (dest : Dest) (body : Bytes) (now : String) : Seen :=
  match dest with
  | .artifact name => .created (artifactCapsule name body.length (fileDigest C body) now)
  | .revocations issuer => .listed (revocationDocument issuer body.length (fileDigest C body) now)

section Uploads

variable {id number : ℕ} {now authorization : String} {target : Target} {dest : Dest} {body : Bytes}

theorem request_digested (hd : destination target = some dest)
    (ha : authorized cfg authorization = true) (hl : body.length ≤ dest.maxBytes)
    (hv : dest.Accepts C G body) (hid : s.jobs id = none)
    (hfresh : s.reg.files.lookup (cfg.uploadPath number) = none)
    (hnumber : ∀ id' job, s.jobs id' = some job → job.number ≠ number) (hnow : now ≠ "") :
    let s' := (uploadEvents id number now ⟨target, authorization, body⟩).foldl (next C G X cfg) s
    Runs (RegistryStep C G X cfg) s [] s' ∧
      s'.reg.files.lookup (cfg.uploadPath number) = some body ∧
      s'.jobs id = some ⟨dest, number, .digested body.length (fileDigest C body) now⟩ := by
  obtain ⟨hreg, -, hjobs⟩ := upload_digested (X := X) (s := s) id number now ha hd hl hv
  refine ⟨?_, ?_, (congrFun hjobs id).trans (Function.update_self ..)⟩
  · have hstart : Runs (RegistryStep C G X cfg) s [] s := .refl
    have hstaging := runs_event hstart (.stage id number authorization target body)
      ⟨hid, hfresh, hnumber⟩
    exact runs_event (runs_event hstaging (.validate id) trivial) (.digest id now) hnow
  · rw [hreg]
    exact AList.lookup_insert _

theorem request_answered (numbers : CommitNumbers) (hd : destination target = some dest)
    (ha : authorized cfg authorization = true) (hl : body.length ≤ dest.maxBytes)
    (hv : dest.Accepts C G body) (hid : s.jobs id = none)
    (hfresh : s.reg.files.lookup (cfg.uploadPath number) = none)
    (hnumber : ∀ id' job, s.jobs id' = some job → job.number ≠ number) (hnow : now ≠ "") :
    Runs (RegistryStep C G X cfg) s [success C dest body now]
      ((requestEvents id number numbers now ⟨target, authorization, body⟩).foldl
        (next C G X cfg) s) := by
  obtain ⟨hrun, hb, hj⟩ := request_digested (X := X) hd ha hl hv hid hfresh hnumber hnow
  have hanswer : answered X cfg ((uploadEvents id number now ⟨target, authorization, body⟩).foldl
      (next C G X cfg) s) (.commit id numbers) = some (success C dest body now) := by
    cases dest with
    | artifact name =>
      obtain ⟨files', hcommit, -⟩ := commitArtifact_none X cfg numbers (cfg.artifactPath name)
        (artifactCapsule name body.length (fileDigest C body) now) hb
      simp only [answered, hj, hcommit, success]
    | revocations issuer =>
      simp only [answered, hj, replaceFile_none hb, success]
  have hcommit := runs_event (runs_event hrun (.commit id numbers) trivial) (.finish id) trivial
  rw [hanswer] at hcommit
  exact hcommit

theorem request_idle (numbers : CommitNumbers) (hd : destination target = some dest)
    (ha : authorized cfg authorization = true) (hl : body.length ≤ dest.maxBytes)
    (hv : dest.Accepts C G body) (hidle : s.jobs = fun _ => none) {n : ℕ} (hne : n ≠ number)
    (hn : s.reg.files.lookup (cfg.uploadPath n) = none) :
    let s' := (requestEvents id number numbers now ⟨target, authorization, body⟩).foldl
      (next C G X cfg) s
    s'.jobs = (fun _ => none) ∧ s'.reg.files.lookup (cfg.uploadPath n) = none := by
  obtain ⟨-, hjobs, hfiles⟩ := request_done (X := X) (s := s) id number numbers now ha hd hl hv
  refine ⟨?_, (hfiles n hne).trans hn⟩
  rw [hjobs, hidle]
  exact Function.update_eq_self id _

theorem request_killed {name : String} (numbers : CommitNumbers) (r : Surroundings)
    (hd : destination target = some (.artifact name)) (ha : authorized cfg authorization = true)
    (hl : body.length ≤ maxArtifactBytes) (hv : (Dest.artifact name).Accepts C G body)
    (hid : s.jobs id = none) (hfresh : s.reg.files.lookup (cfg.uploadPath number) = none)
    (hnumber : ∀ id' job, s.jobs id' = some job → job.number ≠ number) (hnow : now ≠ "") :
    ∃ s', Runs (RegistryStep C G X cfg) s [.killed (some (.artifact name))] s' := by
  obtain ⟨hrun, hb, hj⟩ := request_digested (X := X) hd ha hl hv hid hfresh hnumber hnow
  have hkill := hrun.visible (.kill (.commit id numbers) trivial
    (installed_moment numbers hj hb) (restarts_again _ r))
  rw [during, hj] at hkill
  exact ⟨_, hkill⟩

theorem staging_killed (r : Surroundings) (hd : destination target = some dest)
    (ha : authorized cfg authorization = true) (hid : s.jobs id = none)
    (hfresh : s.reg.files.lookup (cfg.uploadPath number) = none)
    (hnumber : ∀ id' job, s.jobs id' = some job → job.number ≠ number) :
    ∃ s', Runs (RegistryStep C G X cfg) s [.killed none] s' := by
  have hmoment : ⟨s.reg.files.insert (cfg.uploadPath number) [], s.reg.index⟩ ∈
      (eventCalls C X cfg s (.stage id number authorization target [])).moments s.reg := by
    simp only [eventCalls, if_pos ha, hd]
    rw [Program.mem_moments_bind]
    refine .inl ?_
    unfold stageUploadCalls
    change _ ∈ Program.moments (createFile (cfg.uploadPath number) >>= _) s.reg
    rw [Program.mem_moments_bind]
    exact .inl (Program.run_mem_moments (createFile _) s.reg)
  have hstart : Runs (RegistryStep C G X cfg) s [] s := .refl
  exact ⟨_, hstart.visible (.kill (.stage id number authorization target [])
    ⟨hid, hfresh, hnumber⟩ hmoment (restarts_again _ r))⟩

end Uploads

theorem RunsFromEmpty.trans {trace trace' : List Seen} {s' : System}
    (h : RunsFromEmpty C G X cfg trace s) (h' : Runs (RegistryStep C G X cfg) s trace' s') :
    RunsFromEmpty C G X cfg (trace ++ trace') s' := by
  obtain ⟨files, numbers, modTime, hf, hrun⟩ := h
  exact ⟨files, numbers, modTime, hf, hrun.trans h'⟩

theorem RunsFromEmpty.read {trace : List Seen} (h : RunsFromEmpty C G X cfg trace s)
    {urlPath : String} {answer : Answer} (ha : readAnswer cfg urlPath s.reg = some answer) :
    RunsFromEmpty C G X cfg (trace ++ [.read urlPath answer]) s := by
  obtain ⟨files, numbers, modTime, hf, hrun⟩ := h
  exact ⟨files, numbers, modTime, hf, hrun.visible (.read ha)⟩

theorem handle_get_runs (env : Env) (numbers : Numbers) (modTime : Path → String)
    {req : HttpRequest} (s : System) (hm : req.method = "GET")
    (hr : (route req.urlPath).Reads = true) :
    Runs (RegistryStep C G X cfg) s
      [.read req.urlPath (handle C G X cfg env numbers modTime req s.reg).1]
      { s with reg := (handle C G X cfg env numbers modTime req s.reg).2 } := by
  obtain ⟨hreg, hanswer⟩ := @handle_get C G X cfg env numbers modTime _
    s.reg hm hr
  have hstart : Runs (RegistryStep C G X cfg) s [] s := .refl
  rw [hreg]
  by_cases hload : (route req.urlPath).Loads = true
  · rw [if_pos hload] at hanswer ⊢
    exact (runs_event hstart (.reload numbers modTime) trivial).visible (.read hanswer)
  · rw [if_neg hload] at hanswer ⊢
    exact hstart.visible (.read hanswer)

theorem sampleRun_seen : RunsFromEmpty toy (legacyGo sampleBundle) (goIndexCodec false) sampleConfig
    [.created sampleCapsule] sampleRun := by
  have hname : artifactName "" = some "artifact.qcap" := by decide
  have hdest : destination (.artifact "") = some (.artifact "artifact.qcap") := by
    rw [destination, hname]
    rfl
  have hfresh : (start toy (goIndexCodec false) sampleConfig ∅ ⟨0, 0⟩ fun _ => "").reg.files.lookup
      (sampleConfig.uploadPath 1) = none := by
    decide +kernel
  refine ⟨∅, ⟨0, 0⟩, fun _ => "", fun p _ => AList.lookup_empty p, ?_⟩
  exact request_answered ⟨0, ⟨2, 0⟩⟩ hdest rfl sampleArchive_fits
    ⟨by decide, sampleArchive_accepted⟩ rfl hfresh (by intro id' job hj; cases hj) (by decide)

theorem sampleRun_idle : sampleRun.jobs = (fun _ => none) ∧
    sampleRun.reg.files.lookup (sampleConfig.uploadPath 2) = none := by
  have hname : artifactName "" = some "artifact.qcap" := by decide
  have hdest : destination (.artifact "") = some (.artifact "artifact.qcap") := by
    rw [destination, hname]
    rfl
  have hauthorized : authorized sampleConfig "" = true := rfl
  have haccepts : (Dest.artifact "artifact.qcap").Accepts toy (legacyGo sampleBundle)
      sampleArchive := ⟨by decide, sampleArchive_accepted⟩
  have hfresh : sampleStarted.reg.files.lookup (sampleConfig.uploadPath 2) = none := by
    decide +kernel
  unfold sampleRun
  exact request_idle ⟨0, ⟨2, 0⟩⟩ hdest hauthorized sampleArchive_fits haccepts rfl (by decide)
    hfresh

theorem sampleRun_killed : ∃ s, Runs (RegistryStep toy (legacyGo sampleBundle) (goIndexCodec false)
    sampleConfig) sampleRun [.killed (some (.artifact "other.qcap"))] s := by
  obtain ⟨hidle, hfresh⟩ := sampleRun_idle
  have hname : artifactName "other" = some "other.qcap" := by decide
  have hdest : destination (.artifact "other") = some (.artifact "other.qcap") := by
    rw [destination, hname]
    rfl
  have hauthorized : authorized sampleConfig "" = true := rfl
  have haccepts : (Dest.artifact "other.qcap").Accepts toy (legacyGo sampleBundle)
      sampleArchive := ⟨by decide, sampleArchive_accepted⟩
  have hfree : ∀ id job, sampleRun.jobs id = some job → job.number ≠ 2 := by
    intro id job hj
    rw [hidle] at hj
    cases hj
  have hnow : "2024-01-03T00:00:00Z" ≠ "" := by decide
  exact request_killed ⟨0, ⟨3, 0⟩⟩ sampleSurroundings hdest hauthorized sampleArchive_fits haccepts
    (congrFun hidle 0) hfresh hfree hnow

theorem sampleConfig_default : sampleConfig.DefaultIndex := rfl

theorem sampleCapsule_route : route sampleCapsule.path = .artifact := by
  have hname : artifactName "" = some "artifact.qcap" := by decide
  have hstored : StoredName sampleConfig "artifact.qcap" := artifactName_stored _ hname
  exact (route_download hstored).1

def sampleList : Bytes := listBytes (exampleList "0.1.0" [])

theorem sampleList_accepted :
    validateRevocationList toy (goLibrary noArchives) sampleList exampleIssuer = .ok () :=
  signed_list_accepted (toy_signatureCorrect _ _) (by decide) noArchives

theorem sampleList_fits : sampleList.length ≤ maxRevocationBytes := by
  decide +kernel

def sampleDocument : RevocationDocument :=
  revocationDocument exampleIssuer sampleList.length (fileDigest toy sampleList)
    "2024-01-01T00:00:00Z"

def sampleListed : System :=
  (requestEvents 0 1 ⟨0, ⟨2, 0⟩⟩ "2024-01-01T00:00:00Z"
    ⟨.revocations (listUrl exampleIssuer), "", sampleList⟩).foldl
      (next toy (goLibrary noArchives) (goIndexCodec false) sampleConfig) sampleStarted

theorem sampleListed_seen : RunsFromEmpty toy (goLibrary noArchives) (goIndexCodec false)
    sampleConfig [.listed sampleDocument] sampleListed := by
  obtain ⟨hkey, -⟩ := validateRevocationList_own sampleList_accepted
  have hdest : destination (.revocations (listUrl exampleIssuer)) =
      some (.revocations exampleIssuer) := by
    rw [destination, revocationIssuerFromPath_listUrl hkey, if_neg hkey.plain.1]
  have hfresh : sampleStarted.reg.files.lookup (sampleConfig.uploadPath 1) = none := by
    decide +kernel
  refine ⟨∅, ⟨0, 0⟩, fun _ => "", fun p _ => AList.lookup_empty p, ?_⟩
  exact request_answered ⟨0, ⟨2, 0⟩⟩ hdest rfl sampleList_fits sampleList_accepted rfl hfresh
    (by intro id' job hj; cases hj) (by decide)

theorem sampleListed_killed : ∃ s, Runs (RegistryStep toy (goLibrary noArchives)
    (goIndexCodec false) sampleConfig) sampleListed [.killed none] s := by
  obtain ⟨hkey, -⟩ := validateRevocationList_own sampleList_accepted
  have hdest : destination (.revocations (listUrl exampleIssuer)) =
      some (.revocations exampleIssuer) := by
    rw [destination, revocationIssuerFromPath_listUrl hkey, if_neg hkey.plain.1]
  have hauthorized : authorized sampleConfig "" = true := rfl
  have hstarted : sampleStarted.reg.files.lookup (sampleConfig.uploadPath 2) = none := by
    decide +kernel
  have haccepts : (Dest.revocations exampleIssuer).Accepts toy (goLibrary noArchives) sampleList :=
    sampleList_accepted
  obtain ⟨hidle, hfresh⟩ : sampleListed.jobs = (fun _ => none) ∧
      sampleListed.reg.files.lookup (sampleConfig.uploadPath 2) = none := by
    unfold sampleListed
    exact request_idle ⟨0, ⟨2, 0⟩⟩ hdest hauthorized sampleList_fits haccepts rfl (by decide)
      hstarted
  have hfree : ∀ id job, sampleListed.jobs id = some job → job.number ≠ 2 := by
    intro id job hj
    rw [hidle] at hj
    cases hj
  exact staging_killed sampleSurroundings hdest hauthorized (congrFun hidle 0) hfresh hfree

/-- What is seen of a run of the registry, with kills at any call, can be seen of the store, and
at the end the files and the index hold what the store holds. -/
theorem registry_refines (hcfg : cfg.DefaultIndex) (hX : X.ReadsBack) {trace : List Seen}
    (h : RunsFromEmpty C G X cfg trace s) :
    ∃ t, Runs (Step C G) Store.empty trace t ∧ Represents C cfg t s.reg := by
  obtain ⟨hruns, hcoherent⟩ := runs_store hcfg hX h
  exact ⟨_, hruns, coherent_represents hcoherent⟩

theorem sampleRun_refines : ∃ (s : System) (t : Store),
    Runs (Step toy (legacyGo sampleBundle)) Store.empty
      [.created sampleCapsule, .killed (some (.artifact "other.qcap"))] t ∧
      Represents toy sampleConfig t s.reg := by
  obtain ⟨s, hkilled⟩ := sampleRun_killed
  exact ⟨s, registry_refines sampleConfig_default (goIndexCodec_readsBack false)
    (sampleRun_seen.trans hkilled)⟩

section

variable {before middle after : List Seen}

/-- An artifact that was answered as created is served under its path: as it was uploaded, until
another upload of the name or a kill, and in any case a valid one. -/
theorem created_served (hcfg : cfg.DefaultIndex) (hX : X.ReadsBack) {capsule : Capsule}
    {answer : Answer} (h : RunsFromEmpty C G X cfg
      (before ++ .created capsule :: (middle ++ .read capsule.path answer :: after)) s) :
    ∃ bytes, answer = .file (.file bytes) ∧
      validateQcapArchive C G (G.openReader bytes) = .ok () ∧
      ((∀ s ∈ middle, s.NotCreated capsule.name) →
        bytes.length = capsule.size ∧ fileDigest C bytes = capsule.digest) := by
  obtain ⟨hruns, -⟩ := runs_store hcfg hX h
  exact created_download hruns

theorem sampleRun_served : ∃ s bytes,
    Answer.file (serveArtifact sampleConfig sampleCapsule.path s) = .file (.file bytes) ∧
    validateQcapArchive toy (legacyGo sampleBundle) ((legacyGo sampleBundle).openReader bytes) =
      .ok () ∧
    bytes.length = sampleCapsule.size ∧ fileDigest toy bytes = sampleCapsule.digest := by
  obtain ⟨s, hkilled⟩ := sampleRun_killed
  have hread : readAnswer sampleConfig sampleCapsule.path s.reg =
      some (.file (serveArtifact sampleConfig sampleCapsule.path s.reg.files)) := by
    rw [readAnswer, sampleCapsule_route]
  have hrun : RunsFromEmpty toy (legacyGo sampleBundle) (goIndexCodec false) sampleConfig
      ([] ++ .created sampleCapsule :: ([.killed (some (.artifact "other.qcap"))] ++
        .read sampleCapsule.path _ :: [])) s := (sampleRun_seen.trans hkilled).read hread
  obtain ⟨bytes, hanswer, hvalid, hsame⟩ :=
    created_served sampleConfig_default (goIndexCodec_readsBack false) hrun
  exact ⟨s.reg.files, bytes, hanswer, hvalid, hsame (by simp [Seen.NotCreated, sampleCapsule,
    artifactCapsule])⟩

theorem listed_served (hcfg : cfg.DefaultIndex) (hX : X.ReadsBack) {document : RevocationDocument}
    {answer : Answer} (h : RunsFromEmpty C G X cfg
      (before ++ .listed document :: (middle ++ .read document.path answer :: after)) s) :
    ∃ bytes, answer = .file (.file bytes) ∧
      validateRevocationList C G bytes document.issuer = .ok () ∧
      ((∀ s ∈ middle, s.NotListed document.issuer) →
        bytes.length = document.size ∧ fileDigest C bytes = document.digest) := by
  obtain ⟨hruns, -⟩ := runs_store hcfg hX h
  exact listed_download hruns

theorem sampleListed_served : ∃ s bytes,
    Answer.file (serveRevocations sampleConfig sampleDocument.path s) = .file (.file bytes) ∧
    validateRevocationList toy (goLibrary noArchives) bytes sampleDocument.issuer = .ok () ∧
    bytes.length = sampleDocument.size ∧ fileDigest toy bytes = sampleDocument.digest := by
  have hstored : StoredList (goLibrary noArchives) sampleConfig exampleIssuer sampleList :=
    storedList_of_valid sampleList_accepted
  obtain ⟨s, hkilled⟩ := sampleListed_killed
  have hread : readAnswer sampleConfig sampleDocument.path s.reg =
      some (.file (serveRevocations sampleConfig sampleDocument.path s.reg.files)) := by
    rw [readAnswer, sampleDocument, revocationDocument_path, (route_list hstored.key).1]
  have hrun : RunsFromEmpty toy (goLibrary noArchives) (goIndexCodec false) sampleConfig
      ([] ++ .listed sampleDocument :: ([.killed none] ++ .read sampleDocument.path _ :: [])) s :=
    (sampleListed_seen.trans hkilled).read hread
  obtain ⟨bytes, hanswer, hvalid, hsame⟩ :=
    listed_served sampleConfig_default (goIndexCodec_readsBack false) hrun
  exact ⟨s.reg.files, bytes, hanswer, hvalid, hsame (by simp [Seen.NotListed])⟩

/-- A row of an index answer stays in the later ones, with its time, and its path serves what
the row says, until the next upload of the name or a kill. -/
theorem row_stays (hcfg : cfg.DefaultIndex) (hX : X.ReadsBack) {index : List Capsule}
    {urlPath urlPath' : String} {answer answer' : Answer} (ha : IndexAnswer index answer)
    (h : RunsFromEmpty C G X cfg
      (before ++ .read urlPath answer :: (middle ++ .read urlPath' answer' :: after)) s)
    {row : Capsule} (hrow : row ∈ index) :
    (∀ index', IndexAnswer index' answer' →
      ∃ row' ∈ index', row'.name = row.name ∧ row'.createdAt = row.createdAt ∧
        ((∀ s ∈ middle, s.NotCreated row.name) → row' = row)) ∧
    (urlPath' = row.path → ∃ bytes, answer' = .file (.file bytes) ∧
      ((∀ s ∈ middle, s.NotCreated row.name) →
        bytes.length = row.size ∧ fileDigest C bytes = row.digest)) := by
  obtain ⟨hruns, -⟩ := runs_store hcfg hX h
  obtain ⟨hlater, hpath⟩ := index_later allValid_empty ha hruns hrow
  refine ⟨hlater, ?_⟩
  intro hp
  obtain ⟨bytes, hanswer, -, hsame⟩ := hpath hp
  exact ⟨bytes, hanswer, hsame⟩

theorem sampleRow_stays : ∃ s : System, sampleCapsule ∈ s.reg.index ∧
    ∃ bytes, Answer.file (serveArtifact sampleConfig sampleCapsule.path s.reg.files) =
        .file (.file bytes) ∧
      bytes.length = sampleCapsule.size ∧ fileDigest toy bytes = sampleCapsule.digest := by
  obtain ⟨s, hkilled⟩ := sampleRun_killed
  have hroute : route "/index.json" = .indexJSON := by decide
  have hindex : ∀ s : System, readAnswer sampleConfig "/index.json" s.reg =
      some (.index s.reg.index) := by
    intro s
    rw [readAnswer, hroute]
  have hread : readAnswer sampleConfig sampleCapsule.path s.reg =
      some (.file (serveArtifact sampleConfig sampleCapsule.path s.reg.files)) := by
    rw [readAnswer, sampleCapsule_route]
  have hbefore := (sampleRun_seen.read (hindex sampleRun)).trans hkilled
  have hpath : RunsFromEmpty toy (legacyGo sampleBundle) (goIndexCodec false) sampleConfig
      ([.created sampleCapsule] ++ .read "/index.json" (.index sampleRun.reg.index) ::
        ([.killed (some (.artifact "other.qcap"))] ++ .read sampleCapsule.path _ :: [])) s :=
    hbefore.read hread
  have hlater : RunsFromEmpty toy (legacyGo sampleBundle) (goIndexCodec false) sampleConfig
      ([.created sampleCapsule] ++ .read "/index.json" (.index sampleRun.reg.index) ::
        ([.killed (some (.artifact "other.qcap"))] ++
          .read "/index.json" (.index s.reg.index) :: [])) s := by
    have h := hbefore.read (hindex s)
    rw [List.append_assoc, List.append_assoc] at h
    exact h
  have hrow : sampleCapsule ∈ sampleRun.reg.index := by
    rw [sampleRun_index]
    exact List.mem_singleton.mpr rfl
  have hother : ∀ s ∈ [Seen.killed (some (.artifact "other.qcap"))],
      s.NotCreated sampleCapsule.name := by
    simp [Seen.NotCreated, sampleCapsule, artifactCapsule]
  obtain ⟨-, hserved⟩ := row_stays sampleConfig_default (goIndexCodec_readsBack false) (.inl rfl)
    hpath hrow
  obtain ⟨hlisted, -⟩ := row_stays sampleConfig_default (goIndexCodec_readsBack false) (.inl rfl)
    hlater hrow
  obtain ⟨row', hmem, -, -, hsame⟩ := hlisted s.reg.index (.inl rfl)
  obtain ⟨bytes, hfile, hbytes⟩ := hserved rfl
  rw [hsame hother] at hmem
  exact ⟨s, hmem, bytes, hfile, hbytes hother⟩

end

end QCap.RegistryRefinement
