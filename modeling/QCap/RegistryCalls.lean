import QCap.CrashSafety
import QCap.RegistryRuns

/-!
# Requests, call by call

The handlers of the registry as programs of file system calls and changes of the index in
memory, in the order of the source. A call that fails changes nothing, and a file is written
byte by byte. Run to their end they are the functions of the model; in between they show what
others, or a restart after a kill, may find.
-/
namespace QCap.RegistryCalls

open QCap.Text QCap.Crypto QCap.CrashSafety QCap.RegistryArchive QCap.RegistryFiles
open QCap.RegistryIndex QCap.RegistryPublish

abbrev RegistryProgram := Program Registry

def attempt (op : Files → GoResult Files) : RegistryProgram (GoResult Unit) :=
  .call fun reg =>
    match op reg.files with
    | .ok files => (.ok (), ⟨files, reg.index⟩)
    | .error e => (.error e, reg)

def observe {α : Type} (read : Registry → α) : RegistryProgram α :=
  .call fun reg => (read reg, reg)

def quietly (op : Files → GoResult Files) : RegistryProgram Unit := do
  let _ ← attempt op
  return ()

def remember (f : List Capsule → List Capsule) : RegistryProgram Unit :=
  .call fun reg => ((), ⟨reg.files, f reg.index⟩)

def createFile (p : Path) : RegistryProgram Unit :=
  .call fun reg => ((), ⟨reg.files.insert p [], reg.index⟩)

def appendByte (p : Path) (b : UInt8) : RegistryProgram Unit :=
  .call fun reg => ((), ⟨reg.files.insert p ((reg.files.lookup p).getD [] ++ [b]), reg.index⟩)

def writeBytes (p : Path) : Bytes → RegistryProgram Unit
  | [] => .done ()
  | b :: bytes => do
    appendByte p b
    writeBytes p bytes

def replaceFileCalls (faults : ReplaceFaults) (nanos : ℕ) (tempPath dest : Path) :
    RegistryProgram (GoResult Unit) :=
  match faults.mkdir with
  | some e => .done (.error e)
  | none => do
    match ← attempt (rename faults.rename tempPath dest) with
    | .ok () => return .ok ()
    | .error renameErr =>
      match faults.stat with
      | some e => return .error ("inspect replacement target " ++ base dest ++ ": " ++ e)
      | none =>
        match ← observe fun reg => decide (dest ∉ reg.files) with
        | true => return .error ("replace " ++ base dest ++ ": " ++ renameErr)
        | false =>
          let backup := backupPath dest nanos
          match ← attempt (rename faults.backup dest backup) with
          | .error e => return .error ("prepare replacement for " ++ base dest ++ ": " ++ e)
          | .ok () =>
            match ← attempt (rename faults.install tempPath dest) with
            | .error e =>
              quietly (rename faults.rollback backup dest)
              return .error ("replace " ++ base dest ++ ": " ++ e)
            | .ok () =>
              match ← attempt (remove faults.removeBackup backup) with
              | .error e =>
                return .error ("remove replacement backup for " ++ base dest ++ ": " ++ e)
              | .ok () => return .ok ()

def atomicWriteFileCalls (faults : WriteFaults) (numbers : Numbers) (dest : Path)
    (bytes : Bytes) : RegistryProgram (GoResult Unit) :=
  match faults.mkdir.or faults.createTemp with
  | some e => .done (.error e)
  | none => do
    let temp := tempPath dest.dropLast ".qcap-index-" numbers.temp
    createFile temp
    match faults.chmod.or (faults.write.or (faults.sync.or faults.close)) with
    | some e =>
      quietly (remove faults.removeTemp temp)
      return .error e
    | none =>
      writeBytes temp bytes
      let result ← replaceFileCalls faults.replace numbers.nanos temp dest
      quietly (remove faults.removeTemp temp)
      return result

def stageUploadCalls (faults : StageFaults) (temp : Path) (body : Bytes) (maxBytes : ℕ) :
    RegistryProgram (Except StageError ℕ) :=
  match faults.mkdir.or faults.createTemp with
  | some e => .done (.error (.failed e))
  | none => do
    let copied := body.take (maxBytes + 1)
    createFile temp
    writeBytes temp copied
    match faults.copy with
    | some e =>
      quietly (remove faults.removeTemp temp)
      return .error (.failed e)
    | none =>
      if maxBytes < copied.length then
        quietly (remove faults.removeTemp temp)
        return .error .tooLarge
      else
        match faults.sync.or faults.close with
        | some e =>
          quietly (remove faults.removeTemp temp)
          return .error (.failed e)
        | none => return .ok copied.length

variable (C : Primitives) (G : GoLib) (X : IndexCodec) (cfg : Config)

def saveIndexCalls (faults : SaveFaults) (numbers : Numbers) :
    RegistryProgram (GoResult Unit) :=
  match faults.mkdir with
  | some e => .done (.error e)
  | none => do
    let index ← observe Registry.index
    atomicWriteFileCalls faults.write numbers cfg.indexPath (indexBytes X index)

def commitArtifactCalls (faults : CommitFaults) (numbers : CommitNumbers) (temp dest : Path)
    (capsule : Capsule) : RegistryProgram (GoResult Unit) := do
  match ← replaceFileCalls faults.replace numbers.nanos temp dest with
  | .error e => return .error e
  | .ok () =>
    remember (SortedIndex.upsert Capsule.name keepCreatedAt capsule)
    saveIndexCalls X cfg faults.save numbers.save

structure LoadFaults where
  read : Fault
  walk : Fault
  save : SaveFaults

def LoadFaults.none : LoadFaults := ⟨.none, .none, SaveFaults.none⟩

def oldIndex (fault : Fault) (reg : Registry) : GoResult (List Capsule) :=
  match fault with
  | some _ => .ok []
  | none => readIndex X cfg reg.files

/-- `loadIndexLocked`. A walk that fails ends it. -/
def loadIndexCalls (faults : LoadFaults) (numbers : Numbers) (modTime : Path → String) :
    RegistryProgram (GoResult Unit) := do
  match ← observe (oldIndex X cfg faults.read) with
  | .error e => return .error e
  | .ok idx =>
    match faults.walk with
    | some e => return .error e
    | none =>
      let index ← observe fun reg => rebuild C cfg modTime idx reg.files
      remember fun _ => index
      saveIndexCalls X cfg faults.save numbers

def withUploadCalls (env : Env) (body : Bytes) (limit : ℕ) (next : ℕ → RegistryProgram Response) :
    RegistryProgram Response := do
  let temp := cfg.uploadPath env.upload
  match ← stageUploadCalls env.stage temp body limit with
  | .error e => return uploadError e
  | .ok written =>
    let answer ← next written
    quietly (remove env.removeUpload temp)
    return answer

def publishCalls (env : Env) (authorization rawName : String) (body : Bytes) :
    RegistryProgram Response :=
  if authorized cfg authorization = false then .done (.error 401 "unauthorized")
  else
    match artifactName rawName with
    | none => .done (.error 400 "invalid artifact name")
    | some name =>
      withUploadCalls cfg env body maxArtifactBytes fun written => do
        let temp := cfg.uploadPath env.upload
        match ← observe fun reg => validateUpload C G env.validate temp reg.files with
        | .error e => return .error 400 ("invalid qcap archive: " ++ e)
        | .ok () =>
          match ← observe fun reg => digestUpload C env.digest temp reg.files with
          | .error e => return .error 500 e
          | .ok digest =>
            let capsule := artifactCapsule name written digest env.now
            match ← commitArtifactCalls X cfg env.commit env.numbers temp
                (cfg.artifactPath name) capsule with
            | .error e => return .error 500 e
            | .ok () => return .artifactCreated capsule

def publishRevocationsCalls (env : Env) (authorization issuer : String) (body : Bytes) :
    RegistryProgram Response :=
  if authorized cfg authorization = false then .done (.error 401 "unauthorized")
  else
    withUploadCalls cfg env body maxRevocationBytes fun written => do
      let temp := cfg.uploadPath env.upload
      match ← observe fun reg => readFile env.validate temp reg.files >>= fun document =>
          validateRevocationList C G document issuer with
      | .error e => return .error 400 ("invalid revocation list: " ++ e)
      | .ok () =>
        match ← observe fun reg => digestUpload C env.digest temp reg.files with
        | .error e => return .error 500 e
        | .ok digest =>
          match ← replaceFileCalls env.commit.replace env.numbers.nanos temp
              (cfg.revocationPath issuer) with
          | .error e => return .error 500 e
          | .ok () =>
            return .revocationsCreated {
              issuer := issuer
              path := "/revocations/" ++ issuer ++ "/revocations.json"
              size := written
              contentType := "application/qcap-revocations+json"
              digest := digest
              createdAt := env.now }

def postCalls (env : Env) (r : Request) : RegistryProgram Response :=
  match r.target with
  | .artifact rawName => publishCalls C G X cfg env r.authorization rawName r.body
  | .revocations urlPath =>
    let issuer := revocationIssuerFromPath urlPath
    if issuer = "" then .done (.error 404 "404 page not found")
    else publishRevocationsCalls C G cfg env r.authorization issuer r.body

variable {C G X cfg}

@[simp] theorem run_attempt (op : Files → GoResult Files) (reg : Registry) :
    (attempt op).run reg =
      match op reg.files with
      | .ok files => (.ok (), ⟨files, reg.index⟩)
      | .error e => (.error e, reg) :=
  rfl

@[simp] theorem run_observe {α : Type} (read : Registry → α) (reg : Registry) :
    (observe read).run reg = (read reg, reg) :=
  rfl

@[simp] theorem run_remember (f : List Capsule → List Capsule) (reg : Registry) :
    (remember f).run reg = ((), ⟨reg.files, f reg.index⟩) :=
  rfl

@[simp] theorem run_quietly_remove (fault : Fault) (p : Path) (reg : Registry) :
    (quietly (remove fault p)).run reg = ((), ⟨removeQuietly fault p reg.files, reg.index⟩) := by
  rw [quietly, Program.run_bind, run_attempt, removeQuietly]
  cases remove fault p reg.files with
  | error e => rfl
  | ok files => rfl

@[simp] theorem run_createFile (p : Path) (reg : Registry) :
    (createFile p).run reg = ((), ⟨reg.files.insert p [], reg.index⟩) :=
  rfl

theorem run_writeBytes {p : Path} {files : Files} {index : List Capsule} {written : Bytes}
    (bytes : Bytes) : (writeBytes p bytes).run ⟨files.insert p written, index⟩ =
      ((), ⟨files.insert p (written ++ bytes), index⟩) := by
  induction bytes generalizing written with
  | nil =>
    rw [List.append_nil]
    rfl
  | cons b bytes ih =>
    have hb : (appendByte p b).run ⟨files.insert p written, index⟩ =
        ((), ⟨files.insert p (written ++ [b]), index⟩) := by
      simp [appendByte]
    rw [writeBytes, Program.run_bind, hb, ih, List.append_assoc]
    rfl

theorem run_replaceFileCalls (faults : ReplaceFaults) (nanos : ℕ) (tempPath dest : Path)
    (reg : Registry) : (replaceFileCalls faults nanos tempPath dest).run reg =
      let result := replaceFile faults nanos tempPath dest reg.files
      (result.1, ⟨result.2, reg.index⟩) := by
  unfold replaceFileCalls replaceFile
  cases faults.mkdir with
  | some e => rfl
  | none =>
  simp only [Program.run_bind, run_attempt]
  cases rename faults.rename tempPath dest reg.files with
  | ok renamed => rfl
  | error renameErr =>
  cases faults.stat with
  | some e => rfl
  | none =>
  simp only [Program.run_bind, run_observe]
  by_cases hm : dest ∉ reg.files
  · simp [hm]
  simp only [hm, decide_false, if_false, Program.run_bind, run_attempt]
  cases rename faults.backup dest (backupPath dest nanos) reg.files with
  | error e => rfl
  | ok aside =>
  simp only [Program.run_bind, run_attempt]
  cases rename faults.install tempPath dest aside with
  | error e =>
    simp only [Program.run_bind, quietly, run_attempt]
    cases rename faults.rollback (backupPath dest nanos) dest aside with
    | error e' => rfl
    | ok restored => rfl
  | ok installed =>
  simp only [Program.run_bind, run_attempt]
  cases remove faults.removeBackup (backupPath dest nanos) installed with
  | error e => rfl
  | ok removed => rfl

theorem run_atomicWriteFileCalls (faults : WriteFaults) (numbers : Numbers) (dest : Path)
    (bytes : Bytes) (reg : Registry) : (atomicWriteFileCalls faults numbers dest bytes).run reg =
      let result := atomicWriteFile faults numbers dest bytes reg.files
      (result.1, ⟨result.2, reg.index⟩) := by
  unfold atomicWriteFileCalls atomicWriteFile
  cases faults.mkdir.or faults.createTemp with
  | some e => rfl
  | none =>
  cases faults.chmod.or (faults.write.or (faults.sync.or faults.close)) with
  | some e => simp
  | none => simp [run_writeBytes, run_replaceFileCalls]

theorem run_stageUploadCalls (faults : StageFaults) (temp : Path) (body : Bytes) (maxBytes : ℕ)
    (reg : Registry) : (stageUploadCalls faults temp body maxBytes).run reg =
      let result := stageUpload faults temp body maxBytes reg.files
      (result.1, ⟨result.2, reg.index⟩) := by
  unfold stageUploadCalls stageUpload
  cases faults.mkdir.or faults.createTemp with
  | some e => rfl
  | none =>
  simp only [Program.run_bind, run_createFile, run_writeBytes, List.nil_append]
  generalize body.take (maxBytes + 1) = copied
  cases faults.copy with
  | some e => simp
  | none =>
  by_cases hl : maxBytes < copied.length
  · simp [hl]
  · cases faults.sync.or faults.close with
    | some e => simp [hl]
    | none => simp [hl]

theorem run_saveIndexCalls (faults : SaveFaults) (numbers : Numbers) (reg : Registry) :
    (saveIndexCalls X cfg faults numbers).run reg =
      let result := saveIndexLocked X cfg faults numbers reg.index reg.files
      (result.1, ⟨result.2, reg.index⟩) := by
  unfold saveIndexCalls saveIndexLocked
  cases faults.mkdir with
  | some e => rfl
  | none => simp [run_atomicWriteFileCalls]

theorem run_commitArtifactCalls (faults : CommitFaults) (numbers : CommitNumbers)
    (temp dest : Path) (capsule : Capsule) (reg : Registry) :
    (commitArtifactCalls X cfg faults numbers temp dest capsule).run reg =
      commitArtifact X cfg faults numbers temp dest capsule reg := by
  unfold commitArtifactCalls commitArtifact
  simp only [Program.run_bind, run_replaceFileCalls]
  rcases replaceFile faults.replace numbers.nanos temp dest reg.files with ⟨e | _, files⟩
  · rfl
  · simp [run_saveIndexCalls]

theorem run_loadIndexCalls (numbers : Numbers) (modTime : Path → String) (reg : Registry) :
    (loadIndexCalls C X cfg .none numbers modTime).run reg =
      loadIndexLocked C X cfg numbers modTime reg := by
  unfold loadIndexCalls loadIndexLocked
  simp only [LoadFaults.none, oldIndex, Program.run_bind, run_observe]
  cases readIndex X cfg reg.files with
  | error e => rfl
  | ok idx => simp [run_saveIndexCalls]

theorem run_withUploadCalls (env : Env) (body : Bytes) (limit : ℕ) (reg : Registry)
    {next : ℕ → RegistryProgram Response} {next' : ℕ → Registry → Response × Registry}
    (h : ∀ written reg, (next written).run reg = next' written reg) :
    (withUploadCalls cfg env body limit next).run reg =
      withUpload cfg env body limit reg next' := by
  unfold withUploadCalls withUpload
  simp only [Program.run_bind, run_stageUploadCalls]
  rcases stageUpload env.stage (cfg.uploadPath env.upload) body limit reg.files with
    ⟨e | written, files⟩
  · rfl
  · simp [h]

theorem run_publishCalls (env : Env) (authorization rawName : String) (body : Bytes)
    (reg : Registry) : (publishCalls C G X cfg env authorization rawName body).run reg =
      publish C G X cfg env authorization rawName body reg := by
  unfold publishCalls publish
  by_cases ha : authorized cfg authorization = false
  · simp [ha]
  rw [if_neg ha, if_neg ha]
  cases artifactName rawName with
  | none => rfl
  | some name =>
  apply run_withUploadCalls env body maxArtifactBytes reg
  intro written reg'
  simp only [Program.run_bind, run_observe]
  cases validateUpload C G env.validate (cfg.uploadPath env.upload) reg'.files with
  | error e => rfl
  | ok _ =>
  simp only [Program.run_bind, run_observe]
  cases digestUpload C env.digest (cfg.uploadPath env.upload) reg'.files with
  | error e => rfl
  | ok digest =>
  simp only [Program.run_bind, run_commitArtifactCalls]
  rcases commitArtifact X cfg env.commit env.numbers (cfg.uploadPath env.upload)
    (cfg.artifactPath name) (artifactCapsule name written digest env.now) reg' with ⟨e | _, reg''⟩
  · rfl
  · rfl

theorem run_publishRevocationsCalls (env : Env) (authorization issuer : String) (body : Bytes)
    (reg : Registry) : (publishRevocationsCalls C G cfg env authorization issuer body).run reg =
      publishRevocations C G cfg env authorization issuer body reg := by
  unfold publishRevocationsCalls publishRevocations
  by_cases ha : authorized cfg authorization = false
  · simp [ha]
  rw [if_neg ha, if_neg ha]
  apply run_withUploadCalls env body maxRevocationBytes reg
  intro written reg'
  simp only [Program.run_bind, run_observe]
  cases readFile env.validate (cfg.uploadPath env.upload) reg'.files >>= fun document =>
    validateRevocationList C G document issuer with
  | error e => rfl
  | ok _ =>
  simp only [Program.run_bind, run_observe]
  cases digestUpload C env.digest (cfg.uploadPath env.upload) reg'.files with
  | error e => rfl
  | ok digest =>
  simp only [Program.run_bind, run_replaceFileCalls]
  rcases replaceFile env.commit.replace env.numbers.nanos (cfg.uploadPath env.upload)
    (cfg.revocationPath issuer) reg'.files with ⟨e | _, files⟩
  · rfl
  · rfl

/-- The calls of a request, run to their end, are its handler. -/
theorem run_postCalls (env : Env) (r : Request) (reg : Registry) :
    (postCalls C G X cfg env r).run reg = post C G X cfg env r reg := by
  unfold postCalls post
  cases r.target with
  | artifact rawName => exact run_publishCalls env r.authorization rawName r.body reg
  | revocations urlPath =>
    dsimp only
    by_cases hi : revocationIssuerFromPath urlPath = ""
    · rw [if_pos hi, if_pos hi]
      rfl
    · rw [if_neg hi, if_neg hi]
      exact run_publishRevocationsCalls env r.authorization _ r.body reg

end QCap.RegistryCalls
