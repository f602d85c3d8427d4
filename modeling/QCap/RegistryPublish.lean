import QCap.RegistryIndex
import QCap.GoDocuments
import QCap.IndexJson

/-!
# Publishing

`POST /artifacts` and `POST /revocations/<issuer>/revocations.json`: an upload is staged,
checked, digested and then put in place. A refused upload should change nothing; it does
when the file is in place, or out of it, before the last call that fails.
-/
namespace QCap.RegistryPublish

open QCap.Text QCap.Crypto QCap.Formats QCap.Signatures QCap.RegistryArchive
open QCap.RegistryFiles QCap.RegistryIndex QCap.GoDocuments QCap.IndexJson

variable (C : Primitives) (G : GoLib) (X : IndexCodec) (cfg : Config)

def maxArtifactBytes : ℕ := 512 <<< 20
def maxRevocationBytes : ℕ := 10 <<< 20

/-- `filepath.Base` of a text. -/
def baseName (s : String) : String :=
  if s = "" then "."
  else
    let tail := s.toList.reverse.dropWhile (· = '/')
    if tail = [] then "/" else String.ofList (tail.takeWhile (· ≠ '/')).reverse

/-- `filepath.IsLocal`, on Unix. -/
def isLocal (s : String) : Bool :=
  !(startsWith s "/") && s ≠ "" && cleanPath s ≠ ".." && !(startsWith (cleanPath s) "../")

def isPlainName (name : String) : Bool :=
  name ≠ "" && isLocal name && baseName name = name && '/' ∉ name.toList && '\\' ∉ name.toList

def safeArtifactName (raw : String) : String :=
  let name := trim raw
  if isPlainName name then name else ""

def containsText (s t : String) : Bool := s.toList.tails.any fun cs => t.toList.isPrefixOf cs

def safePathSegment (raw : String) : String :=
  let name := trim raw
  if isPlainName name && !(containsText name "..") then name else ""

/-- `strings.Trim(s, "/")`. -/
def trimSlashes (s : String) : String :=
  String.ofList ((s.toList.dropWhile (· = '/')).reverse.dropWhile (· = '/')).reverse

def revocationIssuerFromPath (path : String) : String :=
  let raw := (stripPrefix path "/revocations/").getD path
  let raw := trimSlashes (trimSuffix raw "/revocations.json")
  if raw = "" || '/' ∈ raw.toList then "" else safePathSegment raw

example : revocationIssuerFromPath "/revocations/ab12/revocations.json" = "ab12" := by decide

/-- The name that `publish` gives to an artifact. -/
def artifactName (rawName : String) : Option String :=
  let name := if trim rawName = "" then "artifact.qcap" else safeArtifactName rawName
  if name = "" then none
  else some (if ext name = ".qcap" then name else name ++ ".qcap")

/-- The header `X-Qcap-Name`, or the path below `/revocations/`. -/
inductive Target where
  | artifact (rawName : String)
  | revocations (urlPath : String)

structure Request where
  target : Target
  authorization : String
  body : Bytes

structure RevocationDocument where
  issuer : String
  path : String
  size : ℕ
  contentType : String
  digest : String
  createdAt : String

inductive Response where
  | artifactCreated (capsule : Capsule)
  | revocationsCreated (document : RevocationDocument)
  | error (status : ℕ) (text : String)

def Response.Refuses : Response → Prop
  | .error _ _ => True
  | _ => False

/-- What the file system and the clock do during a request. -/
structure Env where
  stage : StageFaults
  validate : Fault
  digest : Fault
  commit : CommitFaults
  removeUpload : Fault
  upload : ℕ
  numbers : CommitNumbers
  now : String

def authorized (authorization : String) : Bool :=
  cfg.token = "" || authorization = "Bearer " ++ cfg.token

/-- `writeUploadError`. -/
def uploadError : StageError → Response
  | .tooLarge => .error 413 "upload exceeds size limit"
  | .failed text => .error 500 text

def withUpload (env : Env) (body : Bytes) (limit : ℕ) (reg : Registry)
    (next : ℕ → Registry → Response × Registry) : Response × Registry :=
  let temp := cfg.uploadPath env.upload
  match stageUpload env.stage temp body limit reg.files with
  | (.error e, files) => (uploadError e, ⟨files, reg.index⟩)
  | (.ok written, files) =>
    let answer := next written ⟨files, reg.index⟩
    (answer.1, ⟨removeQuietly env.removeUpload temp answer.2.files, answer.2.index⟩)

def validateUpload (fault : Fault) (temp : Path) (files : Files) : GoResult Unit :=
  validateQcapArchive C G (readFile fault temp files >>= G.openReader)

def digestUpload (fault : Fault) (temp : Path) (files : Files) : GoResult String :=
  fileDigest C <$> readFile fault temp files

def publish (env : Env) (authorization rawName : String) (body : Bytes) (reg : Registry) :
    Response × Registry :=
  if authorized cfg authorization = false then (.error 401 "unauthorized", reg)
  else
    match artifactName rawName with
    | none => (.error 400 "invalid artifact name", reg)
    | some name =>
      withUpload cfg env body maxArtifactBytes reg fun written reg =>
        let temp := cfg.uploadPath env.upload
        match validateUpload C G env.validate temp reg.files with
        | .error e => (.error 400 ("invalid qcap archive: " ++ e), reg)
        | .ok () =>
          match digestUpload C env.digest temp reg.files with
          | .error e => (.error 500 e, reg)
          | .ok digest =>
            let capsule := artifactCapsule name written digest env.now
            match commitArtifact X cfg env.commit env.numbers temp (cfg.artifactPath name)
                capsule reg with
            | (.error e, reg) => (.error 500 e, reg)
            | (.ok (), reg) => (.artifactCreated capsule, reg)

def publishRevocations (env : Env) (authorization issuer : String) (body : Bytes)
    (reg : Registry) : Response × Registry :=
  if authorized cfg authorization = false then (.error 401 "unauthorized", reg)
  else
    withUpload cfg env body maxRevocationBytes reg fun written reg =>
      let temp := cfg.uploadPath env.upload
      match readFile env.validate temp reg.files >>= fun document =>
          validateRevocationList C G document issuer with
      | .error e => (.error 400 ("invalid revocation list: " ++ e), reg)
      | .ok () =>
        match digestUpload C env.digest temp reg.files with
        | .error e => (.error 500 e, reg)
        | .ok digest =>
          match replaceFile env.commit.replace env.numbers.nanos temp (cfg.revocationPath issuer)
              reg.files with
          | (.error e, files) => (.error 500 e, ⟨files, reg.index⟩)
          | (.ok (), files) =>
            (.revocationsCreated {
              issuer := issuer
              path := "/revocations/" ++ issuer ++ "/revocations.json"
              size := written
              contentType := "application/qcap-revocations+json"
              digest := digest
              createdAt := env.now }, ⟨files, reg.index⟩)

def post (env : Env) (r : Request) (reg : Registry) : Response × Registry :=
  match r.target with
  | .artifact rawName => publish C G X cfg env r.authorization rawName r.body reg
  | .revocations urlPath =>
    let issuer := revocationIssuerFromPath urlPath
    if issuer = "" then (.error 404 "404 page not found", reg)
    else publishRevocations C G cfg env r.authorization issuer r.body reg

theorem artifactName_ext {rawName name : String} (h : artifactName rawName = some name) :
    ext name = ".qcap" := by
  unfold artifactName at h
  generalize (if trim rawName = "" then "artifact.qcap" else safeArtifactName rawName) = s at h
  dsimp only at h
  by_cases hs : s = ""
  · rw [if_pos hs] at h
    cases h
  · rw [if_neg hs] at h
    cases h
    by_cases he : ext s = ".qcap"
    · rw [if_pos he, he]
    · rw [if_neg he]
      exact ext_last_dot (t := "qcap") (by decide)

/-- The index in memory and the contents of the artifacts, lists and index file. -/
structure Unchanged (reg reg' : Registry) : Prop where
  index : reg'.index = reg.index
  files : ∀ p, Tracked cfg p → reg'.files.lookup p = reg.files.lookup p

theorem Unchanged.refl (reg : Registry) : Unchanged cfg reg reg := ⟨rfl, fun _ _ => rfl⟩

variable {cfg}

theorem tracked_ne_upload {p : Path} (h : Tracked cfg p) (n : ℕ) : p ≠ cfg.uploadPath n := by
  apply h.ne cfg
  rw [Config.uploadPath, tempPath, base_append]
  exact temporary_upload n

theorem tracked_not_scratch {p dest : Path} (h : Tracked cfg p) {m n : ℕ} :
    p ∉ [cfg.uploadPath m, backupPath dest n] := by
  simp only [List.mem_cons, List.not_mem_nil, or_false, not_or]
  exact ⟨tracked_ne_upload h m, h.ne cfg (temporary_backup dest n)⟩

theorem tracked_not_saveScratch {p : Path} (h : Tracked cfg p) {numbers : Numbers} :
    p ∉ saveScratch cfg numbers := fun hs =>
  h.ne cfg (saveScratch_temporary cfg hs) rfl

theorem replaceUpload_spec (faults : ReplaceFaults) (n : ℕ) {m : ℕ} {dest : Path}
    {files : Files} {new : Bytes} (hd : Tracked cfg dest)
    (ht : files.lookup (cfg.uploadPath m) = some new) :
    Replaced (faults.Succeeds (files.lookup dest)) (faults.Spoils (files.lookup dest) new)
      [cfg.uploadPath m, backupPath dest n] dest files new
      (replaceFile faults n (cfg.uploadPath m) dest files) :=
  replaceFile_spec ht (tracked_ne_upload hd m).symm (hd.ne cfg (temporary_backup dest n)).symm
    backup_ne_upload

theorem replaced_unchanged_iff {succeeds spoils : Prop} {m n : ℕ} {dest : Path} {reg : Registry}
    {files : Files} {new : Bytes} {e : String} (hd : Tracked cfg dest)
    (h : Replaced succeeds spoils [cfg.uploadPath m, backupPath dest n] dest reg.files new
      (.error e, files)) :
    Unchanged cfg reg ⟨files, reg.index⟩ ↔ ¬ spoils := by
  rw [← h.kept nofun]
  refine ⟨fun hu => hu.files dest hd, fun hk => ⟨rfl, fun p hp => ?_⟩⟩
  by_cases hpd : p = dest
  · rw [hpd]
    exact hk
  · exact h.other p (tracked_not_scratch hp) hpd

theorem artifact_tracked {name : String} (h : ext name = ".qcap") :
    Tracked cfg (cfg.artifactPath name) :=
  .artifact (by rw [Config.artifactPath, base_append, h])

def Listed (index : List Capsule) (capsule : Capsule) : Prop :=
  ∃ entry, index.find? (fun c => c.name = capsule.name) = some entry ∧
    keepCreatedAt entry capsule = entry

/-- A commit that fails and still changes the registry: the artifact is out of place, or it is
in place and the index cannot be saved, unless that leaves everything as it was. -/
def CommitSpoils (cfg : Config) (faults : CommitFaults) (name : String) (capsule : Capsule)
    (body : Bytes)
    (reg : Registry) : Prop :=
  let old := reg.files.lookup (cfg.artifactPath name)
  let oldIndex := reg.files.lookup cfg.indexPath
  faults.replace.Spoils old body ∨
    (faults.replace.Succeeds old ∧ ¬ faults.save.Succeeds oldIndex ∧
      ¬ (old = some body ∧ Listed reg.index capsule ∧
        ¬ faults.save.Spoils oldIndex (indexBytes X reg.index)))

theorem unsaved_unchanged_iff (faults : SaveFaults) (numbers : Numbers) {name : String}
    {body : Bytes} (index : List Capsule) {reg : Registry} {files : Files}
    (hn : ext name = ".qcap") (hbody : files.lookup (cfg.artifactPath name) = some body)
    (hother : ∀ p, Tracked cfg p → p ≠ cfg.artifactPath name →
      files.lookup p = reg.files.lookup p)
    (hs : (saveIndexLocked X cfg faults numbers index files).1 ≠ .ok ()) :
    Unchanged cfg reg ⟨(saveIndexLocked X cfg faults numbers index files).2, index⟩ ↔
      reg.files.lookup (cfg.artifactPath name) = some body ∧ index = reg.index ∧
        ¬ faults.Spoils (reg.files.lookup cfg.indexPath) (indexBytes X reg.index) := by
  have hspec := saveIndexLocked_spec X cfg faults numbers index files
  have hne : cfg.indexPath ≠ cfg.artifactPath name := cfg.index_not_artifact name hn
  have hidx := hother _ .index hne
  have hkept := hspec.kept hs
  rw [hidx] at hkept
  have hart : (saveIndexLocked X cfg faults numbers index files).2.lookup (cfg.artifactPath name) =
      some body := by
    rw [hspec.other _ (tracked_not_saveScratch (artifact_tracked hn)) hne.symm, hbody]
  constructor
  · intro h
    have hi : index = reg.index := h.index
    refine ⟨(h.files _ (artifact_tracked hn)).symm.trans hart, hi, ?_⟩
    rw [← hi]
    exact hkept.mp (h.files _ .index)
  · rintro ⟨hold, hi, hsp⟩
    refine ⟨hi, fun p hp => ?_⟩
    by_cases hpa : p = cfg.artifactPath name
    · rw [hpa, hart, hold]
    · by_cases hpi : p = cfg.indexPath
      · rw [hpi]
        exact hkept.mpr (hi ▸ hsp)
      · exact (hspec.other p (tracked_not_saveScratch hp) hpi).trans (hother p hp hpa)

theorem commitArtifact_ok (faults : CommitFaults) (numbers : CommitNumbers) (capsule : Capsule)
    {m : ℕ} {name : String} {body : Bytes} {reg : Registry}
    (hn : ext name = ".qcap") (ht : reg.files.lookup (cfg.uploadPath m) = some body) :
    (commitArtifact X cfg faults numbers (cfg.uploadPath m) (cfg.artifactPath name) capsule
      reg).1 = .ok () ↔ faults.replace.Succeeds (reg.files.lookup (cfg.artifactPath name)) ∧
        faults.save.Succeeds (reg.files.lookup cfg.indexPath) := by
  have hspec := replaceUpload_spec faults.replace numbers.nanos (artifact_tracked hn) ht
  unfold commitArtifact
  split
  · rename_i e files he
    rw [he] at hspec
    exact iff_of_false (by simp) fun h => absurd (hspec.succeeds.mpr h.1) (by simp)
  · rename_i files he
    rw [he] at hspec
    have hsave := saveIndexLocked_spec X cfg faults.save numbers.save
      (SortedIndex.upsert Capsule.name keepCreatedAt capsule reg.index) files
    have hidx : files.lookup cfg.indexPath = reg.files.lookup cfg.indexPath :=
      hspec.other _ (tracked_not_scratch .index) (cfg.index_not_artifact name hn)
    rw [hidx] at hsave
    exact hsave.succeeds.trans (and_iff_right (hspec.succeeds.mp rfl)).symm

structure Installed (cfg : Config) (name : String) (capsule : Capsule) (body : Bytes)
    (reg : Registry) (result : GoResult Unit × Registry) : Prop where
  index : result.2.index = SortedIndex.upsert Capsule.name keepCreatedAt capsule reg.index
  stored : result.2.files.lookup (cfg.artifactPath name) = some body
  saved : result.1 = .ok () →
    result.2.files.lookup cfg.indexPath = some (indexBytes X result.2.index)
  other : ∀ p, Tracked cfg p → p ≠ cfg.artifactPath name → p ≠ cfg.indexPath →
    result.2.files.lookup p = reg.files.lookup p

theorem commitArtifact_installed (faults : CommitFaults) (numbers : CommitNumbers)
    (capsule : Capsule) {m : ℕ} {name : String} {body : Bytes} {reg : Registry}
    (hn : ext name = ".qcap") (ht : reg.files.lookup (cfg.uploadPath m) = some body)
    (h : faults.replace.Succeeds (reg.files.lookup (cfg.artifactPath name))) :
    Installed X cfg name capsule body reg (commitArtifact X cfg faults numbers (cfg.uploadPath m)
      (cfg.artifactPath name) capsule reg) := by
  have hspec := replaceUpload_spec faults.replace numbers.nanos (artifact_tracked hn) ht
  have hok := hspec.succeeds.mpr h
  have hne : cfg.indexPath ≠ cfg.artifactPath name := cfg.index_not_artifact name hn
  unfold commitArtifact
  split
  · rename_i e files he
    rw [he] at hok
    cases hok
  · rename_i files he
    rw [he] at hspec
    have hsave := saveIndexLocked_spec X cfg faults.save numbers.save
      (SortedIndex.upsert Capsule.name keepCreatedAt capsule reg.index) files
    refine ⟨rfl, ?_, hsave.installed, fun p hp hpa hpi => ?_⟩
    · rw [hsave.other _ (tracked_not_saveScratch (artifact_tracked hn)) hne.symm]
      exact hspec.installed rfl
    · rw [hsave.other p (tracked_not_saveScratch hp) hpi]
      exact hspec.other p (tracked_not_scratch hp) hpa

theorem commitArtifact_spec (faults : CommitFaults) (numbers : CommitNumbers) (capsule : Capsule)
    {m : ℕ} {name : String} {body : Bytes} {reg : Registry}
    (hn : ext name = ".qcap") (ht : reg.files.lookup (cfg.uploadPath m) = some body) :
    ((commitArtifact X cfg faults numbers (cfg.uploadPath m) (cfg.artifactPath name) capsule
      reg).1 ≠ .ok () → Unchanged cfg reg (commitArtifact X cfg faults numbers (cfg.uploadPath m)
      (cfg.artifactPath name) capsule reg).2) ↔
      ¬ CommitSpoils X cfg faults name capsule body reg := by
  have hspec := replaceUpload_spec faults.replace numbers.nanos (artifact_tracked hn) ht
  have hok := commitArtifact_ok X faults numbers capsule hn ht
  unfold CommitSpoils
  unfold commitArtifact at hok ⊢
  split
  · -- the artifact was not put in place, or the call says so
    rename_i e files he
    rw [he] at hspec
    have hsucc : ¬ faults.replace.Succeeds (reg.files.lookup (cfg.artifactPath name)) := fun h =>
      absurd (hspec.succeeds.mpr h) (by simp)
    simp only [hsucc, false_and, or_false]
    rw [← replaced_unchanged_iff (artifact_tracked hn) hspec]
    exact ⟨fun h => h nofun, fun h _ => h⟩
  · rename_i files he
    rw [he] at hspec hok
    have hsucc := hspec.succeeds.mp rfl
    have hu := unsaved_unchanged_iff X faults.save numbers.save
      (SortedIndex.upsert Capsule.name keepCreatedAt capsule reg.index) hn (hspec.installed rfl)
      fun p hp hpa => hspec.other p (tracked_not_scratch hp) hpa
    rw [SortedIndex.upsert_eq_self] at hu
    simp only [hsucc, true_and] at hok
    simp only [hsucc.not_spoils, hsucc, false_or, true_and, ← hok]
    by_cases hsv : (saveIndexLocked X cfg faults.save numbers.save
        (SortedIndex.upsert Capsule.name keepCreatedAt capsule reg.index) files).1 = .ok ()
    · exact iff_of_true (fun h => absurd hsv h) fun h => h.1 hsv
    · simp only [ne_eq, hsv, not_false_eq_true, true_imp_iff, true_and, not_not]
      exact hu hsv

variable (cfg)

def staged (env : Env) (body : Bytes) (reg : Registry) : Registry :=
  ⟨reg.files.insert (cfg.uploadPath env.upload) body, reg.index⟩

structure Ready (env : Env) (authorization : String) (body : Bytes) (limit : ℕ) : Prop where
  authorized : authorized cfg authorization = true
  stage : env.stage.Clear
  size : body.length ≤ limit
  validate : env.validate = none
  digest : env.digest = none

def ArtifactSpoils (env : Env) (authorization rawName : String) (body : Bytes)
    (reg : Registry) : Prop :=
  ∃ name, artifactName rawName = some name ∧ Ready cfg env authorization body maxArtifactBytes ∧
    validateQcapArchive C G (G.openReader body) = .ok () ∧
    CommitSpoils X cfg env.commit name
      (artifactCapsule name body.length (fileDigest C body) env.now) body reg

def ListSpoils (env : Env) (authorization issuer : String) (body : Bytes) (reg : Registry) :
    Prop :=
  Ready cfg env authorization body maxRevocationBytes ∧
    validateRevocationList C G body issuer = .ok () ∧
    env.commit.replace.Spoils (reg.files.lookup (cfg.revocationPath issuer)) body

/-- The requests that are refused and still change the registry. -/
def Slips (env : Env) (r : Request) (reg : Registry) : Prop :=
  match r.target with
  | .artifact rawName => ArtifactSpoils C G X cfg env r.authorization rawName r.body reg
  | .revocations urlPath =>
    revocationIssuerFromPath urlPath ≠ "" ∧
      ListSpoils C G cfg env r.authorization (revocationIssuerFromPath urlPath) r.body reg

variable {cfg} {env : Env} {authorization : String} {body : Bytes} {reg reg' : Registry}

theorem lookup_staged {p : Path} (h : Tracked cfg p) :
    (staged cfg env body reg).files.lookup p = reg.files.lookup p :=
  AList.lookup_insert_ne (tracked_ne_upload h env.upload)

theorem staged_upload :
    (staged cfg env body reg).files.lookup (cfg.uploadPath env.upload) = some body :=
  AList.lookup_insert _

theorem unchanged_staged :
    Unchanged cfg (staged cfg env body reg) reg' ↔ Unchanged cfg reg reg' := by
  constructor <;> intro h
  · exact ⟨h.index, fun p hp => (h.files p hp).trans (lookup_staged hp)⟩
  · exact ⟨h.index, fun p hp => (h.files p hp).trans (lookup_staged hp).symm⟩

/-- Staging and the final removal are invisible, so the part in between decides. -/
theorem withUpload_unchanged_iff {limit : ℕ} {next : ℕ → Registry → Response × Registry} :
    ((withUpload cfg env body limit reg next).1.Refuses →
        Unchanged cfg reg (withUpload cfg env body limit reg next).2) ↔
      (env.stage.Clear → body.length ≤ limit →
        (next body.length (staged cfg env body reg)).1.Refuses →
        Unchanged cfg reg (next body.length (staged cfg env body reg)).2) := by
  unfold withUpload
  dsimp only
  split
  · rename_i e files he
    refine iff_of_true (fun _ => ⟨rfl, fun p hp => ?_⟩) fun hc hl => ?_
    · have ho :
          (stageUpload env.stage (cfg.uploadPath env.upload) body limit reg.files).2.lookup p =
            reg.files.lookup p := stageUpload_other (tracked_ne_upload hp env.upload)
      rw [he] at ho
      exact ho
    · have hok : stageUpload env.stage (cfg.uploadPath env.upload) body limit reg.files =
          (.ok body.length, reg.files.insert (cfg.uploadPath env.upload) body) :=
        stageUpload_ok.mpr ⟨hc, hl, rfl, rfl⟩
      rw [he] at hok
      cases hok
  · rename_i n files he
    obtain ⟨hc, hl, rfl, rfl⟩ := stageUpload_ok.mp he
    simp only [hc, hl, true_imp_iff]
    refine imp_congr_right fun _ => ?_
    constructor <;> intro h
    · exact ⟨h.index, fun p hp => (removeQuietly_other (tracked_ne_upload hp _)).symm.trans
        (h.files p hp)⟩
    · exact ⟨h.index, fun p hp => (removeQuietly_other (tracked_ne_upload hp _)).trans
        (h.files p hp)⟩

theorem readFile_staged_ok {fault : Fault} {b : Bytes} :
    readFile fault (cfg.uploadPath env.upload) (staged cfg env body reg).files = .ok b ↔
      fault = none ∧ b = body := by
  cases fault with
  | some e => simp [readFile]
  | none => simp [readFile, staged_upload, eq_comm]

theorem validateUpload_ok {fault : Fault} :
    validateUpload C G fault (cfg.uploadPath env.upload) (staged cfg env body reg).files = .ok () ↔
      fault = none ∧ validateQcapArchive C G (G.openReader body) = .ok () := by
  unfold validateUpload
  cases fault with
  | some e => exact iff_of_false nofun fun h => nomatch h.1
  | none =>
    rw [readFile_staged_ok.mpr ⟨rfl, rfl⟩]
    exact (and_iff_right rfl).symm

theorem digestUpload_ok {fault : Fault} {digest : String} :
    digestUpload C fault (cfg.uploadPath env.upload) (staged cfg env body reg).files = .ok digest ↔
      fault = none ∧ digest = fileDigest C body := by
  unfold digestUpload
  cases fault with
  | some e => exact iff_of_false nofun fun h => nomatch h.1
  | none =>
    rw [readFile_staged_ok.mpr ⟨rfl, rfl⟩]
    exact ⟨fun h => ⟨rfl, (Except.ok.inj h).symm⟩, fun h => congrArg Except.ok h.2.symm⟩

theorem commitSpoils_staged {faults : CommitFaults} {name : String} {capsule : Capsule}
    (hn : ext name = ".qcap") :
    CommitSpoils X cfg faults name capsule body (staged cfg env body reg) ↔
      CommitSpoils X cfg faults name capsule body reg := by
  simp only [CommitSpoils, lookup_staged (artifact_tracked hn), lookup_staged Tracked.index]
  rfl

theorem refused_iff {r : Response} {spoils : Prop} (h : ¬ spoils) :
    ((r, staged cfg env body reg).1.Refuses →
      Unchanged cfg reg (r, staged cfg env body reg).2) ↔ ¬ spoils :=
  iff_of_true (fun _ => unchanged_staged.mp (Unchanged.refl cfg _)) h

theorem publish_accepted (reg : Registry) {rawName name : String}
    (hname : artifactName rawName = some name)
    (hr : Ready cfg env authorization body maxArtifactBytes)
    (hv : validateQcapArchive C G (G.openReader body) = .ok ()) :
    let capsule := artifactCapsule name body.length (fileDigest C body) env.now
    let committed := commitArtifact X cfg env.commit env.numbers (cfg.uploadPath env.upload)
      (cfg.artifactPath name) capsule (staged cfg env body reg)
    publish C G X cfg env authorization rawName body reg =
      (match committed.1 with
        | .error e => .error 500 e
        | .ok () => .artifactCreated capsule,
        ⟨removeQuietly env.removeUpload (cfg.uploadPath env.upload) committed.2.files,
          committed.2.index⟩) := by
  dsimp only
  have hs : stageUpload env.stage (cfg.uploadPath env.upload) body maxArtifactBytes reg.files =
      (.ok body.length, reg.files.insert (cfg.uploadPath env.upload) body) :=
    stageUpload_ok.mpr ⟨hr.stage, hr.size, rfl, rfl⟩
  have hvalid : validateUpload C G env.validate (cfg.uploadPath env.upload)
      (staged cfg env body reg).files = .ok () := (validateUpload_ok C G).mpr ⟨hr.validate, hv⟩
  have hdigest : digestUpload C env.digest (cfg.uploadPath env.upload)
      (staged cfg env body reg).files = .ok (fileDigest C body) :=
    (digestUpload_ok C).mpr ⟨hr.digest, rfl⟩
  simp only [staged] at hvalid hdigest ⊢
  unfold publish withUpload
  rw [if_neg (by simp [hr.authorized]), hname]
  simp only [hs, hvalid, hdigest]
  generalize commitArtifact X cfg env.commit env.numbers _ _ _ _ = committed
  obtain ⟨e | _, reg'⟩ := committed <;> rfl

theorem publish_unchanged_iff {rawName : String} :
    ((publish C G X cfg env authorization rawName body reg).1.Refuses →
        Unchanged cfg reg (publish C G X cfg env authorization rawName body reg).2) ↔
      ¬ ArtifactSpoils C G X cfg env authorization rawName body reg := by
  unfold publish
  by_cases ha : authorized cfg authorization = true
  swap
  · rw [if_pos (Bool.eq_false_iff.mpr ha)]
    exact iff_of_true (fun _ => Unchanged.refl cfg reg) fun ⟨_, _, hr, _⟩ => ha hr.authorized
  rw [if_neg (by simp [ha])]
  cases hname : artifactName rawName with
  | none =>
    refine iff_of_true (fun _ => Unchanged.refl cfg reg) fun ⟨name, h, _⟩ => ?_
    rw [hname] at h
    cases h
  | some name =>
  have hn := artifactName_ext hname
  rw [withUpload_unchanged_iff]
  by_cases hc : env.stage.Clear
  swap
  · exact iff_of_true (fun h => absurd h hc) fun ⟨_, _, hr, _⟩ => hc hr.stage
  by_cases hl : body.length ≤ maxArtifactBytes
  swap
  · exact iff_of_true (fun _ h => absurd h hl) fun ⟨_, _, hr, _⟩ => hl hr.size
  simp only [hc, hl, true_imp_iff]
  split
  · rename_i e he
    refine refused_iff fun ⟨_, _, hr, hv, _⟩ => ?_
    rw [(validateUpload_ok C G).mpr ⟨hr.validate, hv⟩] at he
    cases he
  · rename_i hv
    obtain ⟨hvf, hv⟩ := (validateUpload_ok C G).mp hv
    split
    · rename_i e he
      refine refused_iff fun ⟨_, _, hr, _, _⟩ => ?_
      rw [(digestUpload_ok C).mpr ⟨hr.digest, rfl⟩] at he
      cases he
    · rename_i digest hd
      obtain ⟨hdf, rfl⟩ := (digestUpload_ok C).mp hd
      have hspoils : ArtifactSpoils C G X cfg env authorization rawName body reg ↔
          CommitSpoils X cfg env.commit name
            (artifactCapsule name body.length (fileDigest C body) env.now) body
            (staged cfg env body reg) := by
        rw [commitSpoils_staged X hn]
        refine ⟨fun ⟨name', h, _, _, hs⟩ => ?_, fun hs => ?_⟩
        · cases hname.symm.trans h
          exact hs
        · exact ⟨name, hname, ⟨ha, hc, hl, hvf, hdf⟩, hv, hs⟩
      rw [hspoils, ← commitArtifact_spec X env.commit env.numbers _ hn staged_upload,
        unchanged_staged]
      split
      · rename_i e reg' he
        rw [he]
        exact imp_congr_left (iff_of_true trivial nofun)
      · rename_i reg' he
        rw [he]
        exact iff_of_true nofun fun h => absurd rfl h

theorem publishRevocations_unchanged_iff {issuer : String} :
    ((publishRevocations C G cfg env authorization issuer body reg).1.Refuses →
        Unchanged cfg reg (publishRevocations C G cfg env authorization issuer body reg).2) ↔
      ¬ ListSpoils C G cfg env authorization issuer body reg := by
  unfold publishRevocations
  by_cases ha : authorized cfg authorization = true
  swap
  · rw [if_pos (Bool.eq_false_iff.mpr ha)]
    exact iff_of_true (fun _ => Unchanged.refl cfg reg) fun h => ha h.1.authorized
  rw [if_neg (by simp [ha]), withUpload_unchanged_iff]
  by_cases hc : env.stage.Clear
  swap
  · exact iff_of_true (fun h => absurd h hc) fun h => hc h.1.stage
  by_cases hl : body.length ≤ maxRevocationBytes
  swap
  · exact iff_of_true (fun _ h => absurd h hl) fun h => hl h.1.size
  simp only [hc, hl, true_imp_iff]
  split
  · rename_i e he
    refine refused_iff fun ⟨hr, hv, _⟩ => ?_
    rw [readFile_staged_ok.mpr ⟨hr.validate, rfl⟩, ok_bind, hv] at he
    cases he
  · rename_i hv
    obtain ⟨document, hread, hv⟩ := bind_ok.mp hv
    obtain ⟨hvf, hb⟩ := readFile_staged_ok.mp hread
    rw [hb] at hv
    split
    · rename_i e he
      refine refused_iff fun ⟨hr, _, _⟩ => ?_
      rw [(digestUpload_ok C).mpr ⟨hr.digest, rfl⟩] at he
      cases he
    · rename_i digest hd
      obtain ⟨hdf, rfl⟩ := (digestUpload_ok C).mp hd
      have hlist : Tracked cfg (cfg.revocationPath issuer) := .revocations issuer
      have hup : (staged cfg env body reg).files.lookup (cfg.uploadPath env.upload) = some body :=
        staged_upload
      have hspec := replaceUpload_spec env.commit.replace env.numbers.nanos hlist hup
      have hspoils : ListSpoils C G cfg env authorization issuer body reg ↔
          env.commit.replace.Spoils
            ((staged cfg env body reg).files.lookup (cfg.revocationPath issuer)) body := by
        rw [lookup_staged hlist]
        exact ⟨fun h => h.2.2, fun h => ⟨⟨ha, hc, hl, hvf, hdf⟩, hv, h⟩⟩
      rw [hspoils]
      split
      · rename_i e files he
        rw [he] at hspec
        rw [← replaced_unchanged_iff hlist hspec, unchanged_staged]
        exact ⟨fun h => h trivial, fun h _ => h⟩
      · rename_i files he
        rw [he] at hspec
        exact iff_of_true nofun (hspec.succeeds.mp rfl).not_spoils

/-- A refused upload changes nothing, unless the last step leaves the registry half changed. -/
theorem refused_unchanged_iff (env : Env) (r : Request) (reg : Registry) :
    ((post C G X cfg env r reg).1.Refuses → Unchanged cfg reg (post C G X cfg env r reg).2) ↔
      ¬ Slips C G X cfg env r reg := by
  obtain ⟨target, authorization, body⟩ := r
  cases target with
  | artifact rawName => exact publish_unchanged_iff C G X
  | revocations urlPath =>
    simp only [post]
    by_cases hi : revocationIssuerFromPath urlPath = ""
    · rw [if_pos hi]
      exact iff_of_true (fun _ => Unchanged.refl cfg reg) fun h => h.1 hi
    · rw [if_neg hi, publishRevocations_unchanged_iff]
      exact not_congr (and_iff_right hi).symm

def Env.clear (upload : ℕ) (numbers : CommitNumbers) (now : String) : Env where
  stage := StageFaults.none
  validate := none
  digest := none
  commit := CommitFaults.none
  removeUpload := none
  upload := upload
  numbers := numbers
  now := now

def diskFull : Env :=
  { Env.clear 1 ⟨0, ⟨2, 0⟩⟩ "2024-01-01T00:00:00Z" with
    commit := ⟨ReplaceFaults.none, ⟨none, { WriteFaults.none with
      write := some "write: no space left on device" }⟩⟩ }

def sampleRoot : String :=
  "blake3:af1349b9f5f9a1a6a0404dea36dcc9499bcb25c9adc112b7cc9a93cae41f3262"

def sampleBundle : QcapSignatureBundle := signMerkleRoot toy sampleRoot signerKey

def sampleArchive : Bytes := storedZip (legacyArchive sampleBundle)

theorem sampleBundle_fits : trim sampleRoot ≠ "" ∧
    (legacyManifest sampleRoot).length ≤ maxManifestBytes ∧
    (Json.bundleBytes sampleBundle).length ≤ maxManifestBytes :=
  ⟨by decide, signed_documents_fit _ _ (by decide)⟩

theorem sampleArchive_fits : sampleArchive.length ≤ maxArtifactBytes := by
  obtain ⟨-, hm, hb⟩ := sampleBundle_fits
  have hmax : 256 + maxManifestBytes + maxManifestBytes ≤ maxArtifactBytes := by decide
  have hr : sampleBundle.merkleRoot = sampleRoot := rfl
  rw [sampleArchive, length_legacyZip, hr]
  omega

theorem sampleBundle_verifies : hexDecode sampleBundle.publicKey = some signerKey.val ∧
    hexDecode sampleBundle.signature = some (toy.sign signerKey (asBytes sampleRoot)).val ∧
    toy.verify signerKey (asBytes sampleBundle.merkleRoot)
      (toy.sign signerKey (asBytes sampleRoot)) = true :=
  ⟨hexDecode_hexEncode _, hexDecode_hexEncode _,
    (toy_signatureCorrect signerKey (asBytes sampleRoot)).2⟩

theorem sampleArchive_accepted :
    validateQcapArchive toy (legacyGo sampleBundle)
      ((legacyGo sampleBundle).openReader sampleArchive) = .ok () := by
  obtain ⟨hroot, hm, hb⟩ := sampleBundle_fits
  obtain ⟨hpk, hsig, hv⟩ := sampleBundle_verifies
  rw [sampleArchive, legacyGo_openReader]
  exact legacyArchive_accepted toy rfl hpk hsig hv hroot hm hb

def sampleConfig : Config := Config.default ["data"] ""

def emptyRegistry : Registry :=
  ⟨(∅ : Files).insert sampleConfig.indexPath (indexBytes (goIndexCodec false) []), []⟩

def sampleCapsule : Capsule :=
  artifactCapsule "artifact.qcap" sampleArchive.length (fileDigest toy sampleArchive)
    "2024-01-01T00:00:00Z"

/-- The answer is an error, but the artifact is stored and listed. -/
theorem unsaved_artifact_stays :
    let answer := post toy (legacyGo sampleBundle) (goIndexCodec false) sampleConfig diskFull
      ⟨.artifact "", "", sampleArchive⟩ emptyRegistry
    answer.1 = .error 500 "write: no space left on device" ∧
      answer.2.index = [sampleCapsule] ∧
      answer.2.files.lookup (sampleConfig.artifactPath "artifact.qcap") = some sampleArchive ∧
      ¬ Unchanged sampleConfig emptyRegistry answer.2 := by
  have hname : artifactName "" = some "artifact.qcap" := by decide
  have hready : Ready sampleConfig diskFull "" sampleArchive maxArtifactBytes :=
    ⟨rfl, ⟨rfl, rfl, rfl, rfl, rfl⟩, sampleArchive_fits, rfl, rfl⟩
  have hpost := publish_accepted toy (legacyGo sampleBundle) (goIndexCodec false) emptyRegistry
    hname hready sampleArchive_accepted
  have htemp : (staged sampleConfig diskFull sampleArchive emptyRegistry).files.lookup
      (sampleConfig.uploadPath diskFull.upload) = some sampleArchive := staged_upload
  have hq : ext "artifact.qcap" = ".qcap" := by decide
  have hcommit := commitArtifact_installed (goIndexCodec false) diskFull.commit diskFull.numbers
    sampleCapsule hq htemp (Or.inl ⟨rfl, rfl⟩)
  have hindex := hcommit.index.trans (SortedIndex.upsert_nil _ _ _)
  have herror : (commitArtifact (goIndexCodec false) sampleConfig diskFull.commit diskFull.numbers
      (sampleConfig.uploadPath diskFull.upload) (sampleConfig.artifactPath "artifact.qcap")
      sampleCapsule (staged sampleConfig diskFull sampleArchive emptyRegistry)).1 =
        .error "write: no space left on device" := by
    have hnone : diskFull.commit.replace = ReplaceFaults.none := rfl
    rw [commitArtifact, hnone, replaceFile_none htemp]
    rfl
  simp only [post, hpost]
  refine ⟨?_, hindex, ?_, fun hu => ?_⟩
  · exact congrArg (fun result => match result with
      | .error e => Response.error 500 e
      | .ok () => Response.artifactCreated sampleCapsule) herror
  · rw [removeQuietly_other (tracked_ne_upload (artifact_tracked hq) diskFull.upload)]
    exact hcommit.stored
  · have hnil : emptyRegistry.index = [sampleCapsule] := hu.index.symm.trans hindex
    cases hnil

end QCap.RegistryPublish
