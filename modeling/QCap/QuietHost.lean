import QCap.InputText

/-!
# Where nothing fails

On an input whose names are text, without links and without faults, the commands of the host
make the archives that they make of the tree.
-/
namespace QCap.QuietHost

open QCap.Text QCap.PathTree QCap.Crypto QCap.Formats QCap.Signatures QCap.PayloadMerkle
open QCap.Identity QCap.KeyWrap QCap.Archive QCap.IssuerCommands QCap.InputTree
open QCap.HostArchive QCap.HostPack QCap.HostSeal QCap.InputText

variable {C : Primitives} {J : JsonCodec}

theorem file?_ofTree (t : Tree) (p : RelPath) :
    (HostInput.directory (ofTree t)).file? (bytePath p) =
      (t.read p).map fun b => ⟨b, false⟩ :=
  hostFiles_lookup t.files p

theorem walkFiles_quiet (t : Tree) :
    (HostInput.directory (ofTree t)).walkFiles .quiet = t.walkFiles.map bytePath :=
  (ofTree_mirrors t).walkFiles (quiet_delivers _)

theorem walkRegular_quiet (t : Tree) :
    (HostInput.directory (ofTree t)).walkRegular .quiet = t.walkFiles.map bytePath := by
  apply (ofTree_mirrors t).files
  · intro p hp
    exact HostInput.isRegular_isSome hp
  · intro p hp
    refine ⟨(quiet_delivers _ p hp).1, ?_⟩
    obtain ⟨q, rfl⟩ := (ofTree_mirrors t).text p hp
    rw [file?_ofTree, Option.isSome_map] at hp
    obtain ⟨b, hb⟩ := Option.isSome_iff_exists.mp hp
    rw [HostInput.isRegular, file?_ofTree, hb]
    rfl

theorem readToEnd_quiet {t : Tree} {p : RelPath} {b : Bytes} (h : t.read p = some b) :
    (HostInput.directory (ofTree t)).readToEnd .quiet (bytePath p) = .ok b := by
  rw [HostInput.readToEnd, file?_ofTree, h]
  rfl

theorem computeRoot_quiet (t : Tree) (blake3 : Bytes → Digest) :
    (HostInput.directory (ofTree t)).computeRoot .quiet blake3 =
      .ok (computePayloadMerkleRoot blake3 t) := by
  obtain ⟨root, hroot⟩ : ∃ root, (HostInput.directory (ofTree t)).computeRoot .quiet blake3 =
      .ok root := HostInput.computeRoot_readable (fun _ => rfl) blake3
  rw [hroot, (ofTree_mirrors t).computeRoot (quiet_delivers _) hroot]

def fileMember (f : RelPath × Bytes) : Member := ⟨some (bytePath f.1), ⟨payloadName f.1, f.2⟩⟩

def treeCalls (t : Tree) (manifest : QcapManifest) (signature : QcapSignatureBundle) :
    List ZipCall :=
  headerCalls J manifest signature ++
    (((payloadFiles t).map fileMember).flatMap Member.calls ++ [.finish])

theorem archiveCalls_quiet (t : Tree) (manifest : QcapManifest)
    (signature : QcapSignatureBundle) :
    archiveCalls J (.directory (ofTree t)) .quiet manifest signature =
      (treeCalls (J := J) t manifest signature).map .ok := by
  have hfiles : ∀ files : List (RelPath × Bytes), (∀ f ∈ files, t.read f.1 = some f.2) →
      (files.map fun f => bytePath f.1).flatMap (fileCalls (.directory (ofTree t)) .quiet) =
        ((files.map fileMember).flatMap Member.calls).map .ok := by
    intro files hfiles
    induction files with
    | nil => rfl
    | cons f files ih =>
      rw [List.forall_mem_cons] at hfiles
      have hf : fileCalls (.directory (ofTree t)) .quiet (bytePath f.1) =
          (fileMember f).calls.map .ok := by
        rw [fileCalls, archiveName_bytePath, file?_ofTree, hfiles.1]
        rfl
      rw [List.map_cons, List.map_cons, List.flatMap_cons, List.flatMap_cons, List.map_append,
        ih hfiles.2, hf]
  rw [archiveCalls, walkFiles_quiet, Mirrors.payload,
    hfiles _ fun f hf => mem_payloadFiles.mp hf, treeCalls, List.map_append, List.map_append,
    List.append_assoc]
  rfl

theorem zip_treeCalls (t : Tree) (manifest : QcapManifest) (signature : QcapSignatureBundle) :
    zip (treeCalls (J := J) t manifest signature) =
      createQcapArchiveWithSignature J t manifest signature :=
  (ofTree_mirrors t).zip (quiet_delivers _) (archiveCalls_quiet t manifest signature)

theorem writeArchive_quiet (calls : List ZipCall) :
    writeArchive (fun _ => none) (.ok (calls.map .ok)) = (.ok (), some ⟨calls, none⟩) := by
  have hrun := runCalls_quiet [] calls []
  rw [List.append_nil, List.nil_append] at hrun
  rw [writeArchive, hrun]
  rfl

def hostPackRequest (r : PackRequest) : HostPackRequest where
  input := .directory (ofTree r.inputDir)
  hashing := .quiet
  key := r.key
  passphrase := r.passphrase
  now := r.now
  out := .outside (.ok ())
  archiving := .quiet
  failing _ := none

/-- `pack` on the host is `pack` on the tree. -/
theorem packHost_quiet (r : PackRequest) :
    match packPlain C J r with
    | .ok archive => ∃ calls, packHost C J (hostPackRequest r) = (.ok (), some ⟨calls, none⟩) ∧
        zip calls = archive
    | .error e => packHost C J (hostPackRequest r) = (.error e, none) := by
  rw [packHost, packPlain]
  cases hk : signingKeyFromFile C J r.key r.passphrase with
  | error e =>
    have hcalls : packCalls C J (hostPackRequest r) = .error e := by
      simp only [packCalls, hostPackRequest, computeRoot_quiet, hk, ok_bind, error_bind]
    rw [hcalls]
    rfl
  | ok key =>
    have hopened : Opened C J (hostPackRequest r) (computePayloadMerkleRoot C.blake3 r.inputDir)
        key (.directory (ofTree r.inputDir)) := ⟨computeRoot_quiet _ _, hk, rfl⟩
    have hcalls := packCalls_ok.mpr ⟨_, _, _, hopened, rfl⟩
    rw [show (hostPackRequest r).archiving = .quiet from rfl, archiveCalls_quiet] at hcalls
    rw [hcalls]
    exact ⟨_, writeArchive_quiet _, zip_treeCalls _ _ _⟩

def hostSealRequest (r : SealRequest) : HostSealRequest where
  inputPath := r.inputPath
  input := match r.inputDir with
    | some t => .directory (ofTree t)
    | none => .missing
  walking := .quiet
  issuer := r.issuer
  recipient := r.recipient
  passphrase := r.passphrase
  now := r.now
  contentKey := r.contentKey
  packageRandom := r.packageRandom
  fileNonce := r.fileNonce
  ephemeralSecret := r.ephemeralSecret
  wrapNonce := r.wrapNonce
  tempdir := .ok ()
  unstored _ := false
  hashing := .quiet
  archiving := .quiet
  created := .ok ()
  failing _ := none

theorem hostRelPath_bytePath (p : RelPath) : hostRelPath (bytePath p) = relPath p := by
  rw [hostRelPath, ← asBytes_pathString, toStr_asBytes, okOr_some, ok_bind, relPath]

theorem sealLoop_quiet {q : HostSealRequest} {r : SealRequest} (hk : q.contentKey = r.contentKey)
    (hn : q.fileNonce = r.fileNonce) (hu : ∀ i, q.unstored i = false) (i : ℕ)
    (files : List (RelPath × Bytes))
    (hfiles : ∀ f ∈ files, q.input.readToEnd q.walking (bytePath f.1) = .ok f.2) (root : Tree) :
    (sealLoop C q i (files.map fun f => bytePath f.1) root).map
        (fun out => (out.1, out.2.map Prod.snd)) = sealFiles C r i files root := by
  induction files generalizing i root with
  | nil => rfl
  | cons f files ih =>
    obtain ⟨p, b⟩ := f
    rw [List.forall_mem_cons] at hfiles
    rw [List.map_cons, sealLoop, sealFiles, hostRelPath_bytePath, hfiles.1, hk, hn, hu]
    cases relPath p with
    | error e => rfl
    | ok rel =>
      simp only [ok_bind]
      cases encrypt C r.contentKey (r.fileNonce i) (asBytes rel) b with
      | error e => rfl
      | ok ciphertext =>
        simp only [ok_bind, Bool.false_eq_true, if_false]
        rcases writeUnder root rel ciphertext with ⟨result, root'⟩
        cases result with
        | error e => rfl
        | ok u =>
          simp only [← ih (i + 1) hfiles.2 root']
          cases sealLoop C q (i + 1) (files.map fun f => bytePath f.1) root' with
          | error e => rfl
          | ok out => rfl

theorem encryptInput_quiet {r : SealRequest} {t : Tree} (hd : r.inputDir = some t) :
    encryptInput C (hostSealRequest r) = do
      let issuer ← r.issuer
      let recipient ← r.recipient
      let passphrase ← identityPassphrase issuer r.passphrase
      let (root, files) ← sealLoop C (hostSealRequest r) 0
        ((payloadFiles t).map fun f => bytePath f.1) Tree.empty
      return { issuer, recipient, passphrase, root, files } := by
  have hin : (hostSealRequest r).input = .directory (ofTree t) := by
    simp only [hostSealRequest, hd]
  have hdir : ensure (isDirectory (hostSealRequest r).input (hostSealRequest r).walking)
      ("input_dir is not a directory: " ++ (hostSealRequest r).inputPath) = .ok () := by
    rw [hin, ensure_ok]
    rfl
  rw [encryptInput, hdir, ok_bind, hin, show (hostSealRequest r).walking = .quiet from rfl,
    walkRegular_quiet, Mirrors.payload]
  rfl

theorem sealCalls_quiet {r : SealRequest} {t : Tree} (hd : r.inputDir = some t) :
    sealCalls C J (hostSealRequest r) = (sealPackage C J r).map fun package =>
      (treeCalls (J := J) package.encryptedRoot package.manifest (package.bundle C J)).map
        .ok := by
  have hloop := sealLoop_quiet (C := C) (q := hostSealRequest r) (r := r) rfl rfl
    (fun _ => rfl) 0 (payloadFiles t) (by
      intro f hf
      simp only [hostSealRequest, hd]
      exact readToEnd_quiet (mem_payloadFiles.mp hf)) Tree.empty
  rw [sealCalls, encryptInput_quiet hd, sealPackage, hd, okOr_some, ok_bind, ← hloop]
  cases r.issuer with
  | error e => rfl
  | ok issuer =>
  cases r.recipient with
  | error e => rfl
  | ok recipient =>
  simp only [ok_bind]
  cases identityPassphrase issuer r.passphrase with
  | error e => rfl
  | ok passphrase =>
  simp only [ok_bind]
  cases sealLoop C (hostSealRequest r) 0 ((payloadFiles t).map fun f => bytePath f.1)
    Tree.empty with
  | error e => rfl
  | ok out =>
  have hroot : (sealedInput ⟨issuer, recipient, passphrase, out.1, out.2⟩).computeRoot
      (hostSealRequest r).hashing C.blake3 = .ok (computePayloadMerkleRoot C.blake3 out.1) :=
    computeRoot_quiet out.1 C.blake3
  obtain ⟨root, files⟩ := out
  simp only [Except.map, ok_bind, pure, Except.pure]
  rw [hroot, ok_bind]
  change (wrapContentKey C r.contentKey (randomId r.packageRandom) recipient r.ephemeralSecret
    r.wrapNonce >>= _) = _
  cases wrapContentKey C r.contentKey (randomId r.packageRandom) recipient r.ephemeralSecret
    r.wrapNonce with
  | error e => rfl
  | ok stanza =>
  simp only [ok_bind]
  cases signingKey C J issuer passphrase with
  | error e => rfl
  | ok key => exact congrArg Except.ok (archiveCalls_quiet root _ _)

/-- `seal` on the host is `seal` on the tree. -/
theorem sealHost_quiet (r : SealRequest) :
    match sealArchive C J r with
    | .ok archive => ∃ calls, sealHost C J (hostSealRequest r) = (.ok (), some ⟨calls, none⟩) ∧
        zip calls = archive
    | .error e => sealHost C J (hostSealRequest r) = (.error e, none) := by
  rw [sealHost, sealArchive]
  cases hd : r.inputDir with
  | none =>
    have hcalls : sealCalls C J (hostSealRequest r) =
        .error (.message ("input_dir is not a directory: " ++ r.inputPath)) := by
      simp only [sealCalls, encryptInput, hostSealRequest, hd, isDirectory]
      rfl
    rw [hcalls, sealPackage, hd]
    rfl
  | some t =>
    rw [sealCalls_quiet hd]
    cases sealPackage C J r with
    | error e => rfl
    | ok package => exact ⟨_, writeArchive_quiet _, zip_treeCalls _ _ _⟩

end QCap.QuietHost
