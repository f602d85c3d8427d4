import QCap.HostPack
import QCap.Sealing

/-!
# Sealing on the host

`seal` walks its input once, writes the ciphertexts below a temporary directory and walks that
twice more, for the root and for the archive. Each walk keeps what it is given and drops the
errors, so that a file which one of them does not reach is missing from the package, and nothing
in the package tells.
-/
namespace QCap.HostSeal

open QCap.Text QCap.PathTree QCap.Crypto QCap.Formats QCap.Signatures QCap.PayloadMerkle
open QCap.Identity QCap.KeyWrap QCap.Archive QCap.IssuerCommands QCap.InputTree
open QCap.HostArchive QCap.HostPack

variable (C : Primitives) (J : JsonCodec)

/-- `unstored` tells at which files of the walk the temporary directory refuses a write. -/
structure HostSealRequest where
  inputPath : String
  input : HostInput
  walking : Pass
  issuer : Result Identity
  recipient : Result Identity
  passphrase : PassphraseSource
  now : ℕ
  contentKey : Key
  packageRandom : FixedBytes 16
  fileNonce : ℕ → Nonce
  ephemeralSecret : Key
  wrapNonce : Nonce
  tempdir : Result Unit
  unstored : ℕ → Bool
  hashing : Pass
  archiving : Pass
  created : Result Unit
  failing : ℕ → Option ℕ

def isDirectory (input : HostInput) (pass : Pass) : Bool :=
  match input with
  | .directory _ => !pass.unchecked []
  | .missing | .file _ => false

/-- `rel_path`. -/
def hostRelPath (p : BytePath) : Result String := do
  let s ← okOr (toStr (joinBytes p)) (.message "payload path is not valid UTF-8")
  let rel := replaceChar s '\\' '/'
  validateRelativePath rel
  return rel

/-- The loop of `seal`, with each file beside its description in the manifest. -/
def sealLoop (r : HostSealRequest) : ℕ → List BytePath → Tree →
    Result (Tree × List (BytePath × PayloadFile))
  | _, [], encryptedRoot => .ok (encryptedRoot, [])
  | i, p :: rest, encryptedRoot => do
    let rel ← hostRelPath p
    let plaintext ← r.input.readToEnd r.walking p
    let ciphertext ← encrypt C r.contentKey (r.fileNonce i) (asBytes rel) plaintext
    if r.unstored i then .error .fileSystem
    else
      match writeUnder encryptedRoot rel ciphertext with
      | (.error e, _) => .error e
      | (.ok (), encryptedRoot') =>
        let (final, files) ← sealLoop r (i + 1) rest encryptedRoot'
        return (final, (p,
          { path := rel
            size := ciphertext.length
            nonce := hexEncode (r.fileNonce i).val
            ciphertextHash := blake3Prefixed C ciphertext }) :: files)

structure Encrypted where
  issuer : Identity
  recipient : Identity
  passphrase : Option String
  root : Tree
  files : List (BytePath × PayloadFile)

/-- `seal` as far as the end of its loop. -/
def encryptInput (r : HostSealRequest) : Result Encrypted := do
  ensure (isDirectory r.input r.walking) ("input_dir is not a directory: " ++ r.inputPath)
  let issuer ← r.issuer
  let recipient ← r.recipient
  let passphrase ← identityPassphrase issuer r.passphrase
  r.tempdir
  let (root, files) ← sealLoop C r 0 (r.input.walkRegular r.walking) Tree.empty
  return { issuer, recipient, passphrase, root, files }

def sealedInput (e : Encrypted) : HostInput := .directory (ofTree e.root)

def sealManifest (r : HostSealRequest) (e : Encrypted) (merkleRoot : String)
    (stanza : RecipientStanza) : QcapManifest :=
  QcapManifest.newSealed "0.2.0" (randomId r.packageRandom) merkleRoot
    (some (identityId e.issuer)) (.object [("title", .string "Q-Cap MVP sealed package")])
    (e.files.map Prod.snd) [stanza] r.now

def sealCalls (r : HostSealRequest) : Result (List (Result ZipCall)) := do
  let e ← encryptInput C r
  let merkleRoot ← (sealedInput e).computeRoot r.hashing C.blake3
  let stanza ← wrapContentKey C r.contentKey (randomId r.packageRandom) e.recipient
    r.ephemeralSecret r.wrapNonce
  let manifest := sealManifest r e merkleRoot stanza
  let key ← signingKey C J e.issuer e.passphrase
  r.created
  return archiveCalls J (sealedInput e) r.archiving manifest (hostBundle C J manifest key)

/-- `seal`, and the calls that the ZIP writer got if there was one. -/
def sealHost (r : HostSealRequest) : Result Unit × Option Calls :=
  writeArchive r.failing (sealCalls C J r)

def filePlace (file : PayloadFile) : BytePath := bytePath (destination file.path)

def place (p : BytePath) : Result BytePath := do
  let rel ← hostRelPath p
  return bytePath (destination rel)

/-- The input file whose ciphertext was written last at a place of the temporary directory. -/
def origin (files : List (BytePath × PayloadFile)) (t : BytePath) : Option BytePath :=
  WriteLog.last (fun f => filePlace f.2) Prod.fst files t

def sealOrigin (r : HostSealRequest) (t : BytePath) : Option BytePath :=
  match encryptInput C r with
  | .ok e => origin e.files t
  | .error _ => none

variable {C J}

theorem sealLoop_ok {r : HostSealRequest} {i : ℕ} {ps : List BytePath} {root root' : Tree}
    {files : List (BytePath × PayloadFile)} (h : sealLoop C r i ps root = .ok (root', files)) :
    files.map Prod.fst = ps ∧ (∀ f ∈ files, hostRelPath f.1 = .ok f.2.path) ∧
      ∃ writes : List FileWrite, writes.map Prod.fst = files.map (fun f => f.2.path) ∧
        Wrote writes root root' := by
  induction ps generalizing i root files with
  | nil =>
    cases h
    exact ⟨rfl, by simp, [], rfl, rfl⟩
  | cons p ps ih =>
    simp only [sealLoop, bind_ok] at h
    obtain ⟨rel, hrel, plaintext, -, ciphertext, -, h⟩ := h
    split at h
    · cases h
    · split at h
      · cases h
      · rename_i m hw
        simp only [bind_ok] at h
        obtain ⟨⟨final, more⟩, hrest, he⟩ := h
        cases he
        obtain ⟨hmap, hpaths, writes, hwrites, hwrote⟩ := ih hrest
        refine ⟨by rw [List.map_cons, hmap], ?_, (rel, ciphertext) :: writes, ?_, m, hw, hwrote⟩
        · rw [List.forall_mem_cons]
          exact ⟨hrel, hpaths⟩
        · rw [List.map_cons, List.map_cons, hwrites]

structure Encrypts (r : HostSealRequest) (e : Encrypted) : Prop where
  directory : ∃ t, r.input = .directory t
  walked : e.files.map Prod.fst = r.input.walkRegular r.walking
  paths : ∀ f ∈ e.files, hostRelPath f.1 = .ok f.2.path
  stored : ∀ q, q ∈ e.root.files ↔ ∃ f ∈ e.files, destination f.2.path = q

theorem encryptInput_ok {r : HostSealRequest} {e : Encrypted} (h : encryptInput C r = .ok e) :
    Encrypts r e := by
  simp only [encryptInput, bind_ok, ensure_ok] at h
  obtain ⟨-, hdir, issuer, -, recipient, -, passphrase, -, -, -, ⟨root, files⟩, hloop, he⟩ := h
  cases he
  obtain ⟨hwalked, hpaths, writes, hwrites, hwrote⟩ := sealLoop_ok hloop
  refine ⟨?_, hwalked, hpaths, ?_⟩
  · cases hin : r.input with
    | directory t => exact ⟨t, rfl⟩
    | missing =>
      rw [hin] at hdir
      cases hdir
    | file bytes =>
      rw [hin] at hdir
      cases hdir
  · intro q
    have hlast : lastWrite writes q = none ↔ ∀ f ∈ files, destination f.2.path ≠ q := by
      rw [lastWrite, WriteLog.last_eq_none]
      have hall := List.forall_mem_map (f := Prod.fst) (l := writes)
        (P := fun path => destination path ≠ q)
      rw [← hall, hwrites, List.forall_mem_map]
    rw [Tree.mem_files, wrote_read hwrote, Tree.read_empty, Option.or_none,
      ← Option.isSome_iff_exists, ← not_iff_not, Bool.not_eq_true, Option.isSome_eq_false_iff,
      Option.isNone_iff_eq_none, hlast]
    simp

theorem replaceChar_removes (s : String) {c d : Char} (h : d ≠ c) :
    Free c (replaceChar s c d) := by
  rw [Free, replaceChar, String.toList_ofList, List.mem_map]
  rintro ⟨x, -, hx⟩
  split at hx
  · exact h hx
  · rename_i hne
    exact hne hx

theorem toComponent_name {leading : Bool} {segment name : String} {k : Component}
    (hk : toComponent leading segment = some k) (hn : k.name? = some name) : name = segment := by
  rw [toComponent] at hk
  split at hk
  · cases hk
  · split at hk
    · split at hk
      · cases hk
        cases hn
      · cases hk
    · split at hk
      · cases hk
        cases hn
      · cases hk
        cases hn
        rfl

theorem mem_destination {path name : String} (h : name ∈ destination path) :
    name ∈ splitOn path '/' := by
  obtain ⟨k, hk, hn⟩ := List.mem_filterMap.mp h
  rw [components] at hk
  split at hk
  · cases hk
  · rename_i first rest hsplit
    rw [hsplit]
    rcases List.mem_append.mp hk with hk | hk
    · split at hk
      · cases List.mem_singleton.mp hk
        cases hn
      · rw [toComponent_name (Option.mem_toList.mp hk) hn]
        exact List.mem_cons_self
    · obtain ⟨segment, hs, hk⟩ := List.mem_filterMap.mp hk
      rw [toComponent_name hk hn]
      exact List.mem_cons_of_mem _ hs

theorem destination_free {path : String} {c : Char} (h : Free c path) :
    ∀ name ∈ destination path, Free c name := by
  intro name hn hc
  exact h (mem_splitOn (mem_destination hn) hc)

theorem hostRelPath_ok {p : BytePath} {rel : String} (h : hostRelPath p = .ok rel) :
    Free '\\' rel ∧ validateRelativePath rel = .ok () := by
  simp only [hostRelPath, bind_ok, okOr_ok] at h
  obtain ⟨s, -, _, hv, he⟩ := h
  cases he
  exact ⟨replaceChar_removes s (by decide), hv⟩

theorem archiveName_bytePath (p : RelPath) : archiveName (bytePath p) = .ok (payloadName p) := by
  rw [archiveName, ← asBytes_pathString, toStr_asBytes]
  rfl

theorem Encrypts.name_injective {r : HostSealRequest} {e : Encrypted} (h : Encrypts r e)
    {t u : BytePath} (ht : t ∈ hostFiles e.root.files) (hu : u ∈ hostFiles e.root.files)
    (hn : archiveName u = archiveName t) : u = t := by
  have hplain : ∀ q ∈ e.root.files, ∀ n ∈ q, Free '\\' n := by
    intro q hq
    obtain ⟨f, hf, rfl⟩ := (h.stored q).mp hq
    exact destination_free (hostRelPath_ok (h.paths f hf)).1
  obtain ⟨p, hp, rfl⟩ := mem_hostFiles.mp ht
  obtain ⟨q, hq, rfl⟩ := mem_hostFiles.mp hu
  rw [archiveName_bytePath, archiveName_bytePath, Except.ok.injEq,
    payloadName_plain (hplain p hp), payloadName_plain (hplain q hq)] at hn
  rw [pathString_injective (Tree.file_ne_nil hq) (Tree.file_ne_nil hp) (Tree.file_names hq)
    (Tree.file_names hp) ((String.append_right_inj _).mp hn)]

theorem Encrypts.place {r : HostSealRequest} {e : Encrypted} (h : Encrypts r e)
    {f : BytePath × PayloadFile} (hf : f ∈ e.files) : place f.1 = .ok (filePlace f.2) := by
  rw [HostSeal.place, h.paths f hf]
  rfl

theorem Encrypts.mem_walkFiles {r : HostSealRequest} {e : Encrypted} (h : Encrypts r e)
    {t : BytePath} {pass : Pass} :
    t ∈ (sealedInput e).walkFiles pass ↔ (∃ f ∈ e.files, filePlace f.2 = t) ∧
      DirWalk.reaches pass.lost t = true ∧ pass.unchecked t = false := by
  rw [HostInput.mem_walkFiles]
  refine and_congr_left fun _ => ?_
  change ((hostFiles e.root.files).lookup t).isSome = true ↔ _
  rw [AList.lookup_isSome, mem_hostFiles]
  constructor
  · rintro ⟨q, hq, rfl⟩
    obtain ⟨f, hf, rfl⟩ := (h.stored q).mp hq
    exact ⟨f, hf, rfl⟩
  · rintro ⟨f, hf, rfl⟩
    exact ⟨_, (h.stored _).mpr ⟨f, hf, rfl⟩, rfl⟩

theorem origin_mem {files : List (BytePath × PayloadFile)} {t p : BytePath}
    (h : origin files t = some p) : ∃ f ∈ files, filePlace f.2 = t ∧ f.1 = p :=
  WriteLog.last_mem _ _ h

theorem origin_isSome {files : List (BytePath × PayloadFile)} {f : BytePath × PayloadFile}
    (h : f ∈ files) : ∃ p, origin files (filePlace f.2) = some p := by
  cases ho : origin files (filePlace f.2) with
  | none => exact absurd rfl ((WriteLog.last_eq_none _ _).mp ho f h)
  | some p => exact ⟨p, rfl⟩

/-- The input walk delivers the file, the archive walk delivers its ciphertext, and no other file
that the input walk delivers has the same place. -/
structure SealDelivers (r : HostSealRequest) (p : BytePath) : Prop where
  reached : DirWalk.reaches r.walking.lost p = true
  repacked : ∀ t, place p = .ok t →
    DirWalk.reaches r.archiving.lost t = true ∧ r.archiving.unchecked t = false
  alone : ∀ q, r.input.Regular q → DirWalk.reaches r.walking.lost q = true →
    place q = place p → q = p

theorem Encrypts.regular {r : HostSealRequest} {e : Encrypted} (h : Encrypts r e) {p : BytePath} :
    r.input.isRegular p = true ↔ r.input.Regular p := by
  obtain ⟨t, ht⟩ := h.directory
  constructor
  · intro hp
    rw [HostInput.isRegular, Option.any_eq_true] at hp
    obtain ⟨f, hf, hl⟩ := hp
    rw [ht] at hf
    exact ⟨t, f, ht, hf, by simpa using hl⟩
  · exact HostInput.Regular.isRegular

theorem Encrypts.mem_files {r : HostSealRequest} {e : Encrypted} (h : Encrypts r e)
    {p : BytePath} : (∃ f ∈ e.files, f.1 = p) ↔
      r.input.Regular p ∧ DirWalk.reaches r.walking.lost p = true := by
  rw [← h.regular, ← HostInput.mem_walkRegular, ← h.walked, List.mem_map]

theorem sealCalls_ok {r : HostSealRequest} {plan : List (Result ZipCall)}
    (h : sealCalls C J r = .ok plan) : ∃ e manifest signature, encryptInput C r = .ok e ∧
      plan = archiveCalls J (sealedInput e) r.archiving manifest signature := by
  simp only [sealCalls, bind_ok] at h
  obtain ⟨e, he, merkleRoot, -, stanza, -, key, -, -, -, hplan⟩ := h
  exact ⟨e, _, _, he, (Except.ok.inj hplan).symm⟩

theorem Encrypts.origin_place {r : HostSealRequest} {e : Encrypted} (h : Encrypts r e)
    {t p : BytePath} (ho : origin e.files t = some p) : HostSeal.place p = .ok t ∧
      r.input.Regular p ∧ DirWalk.reaches r.walking.lost p = true := by
  obtain ⟨f, hf, rfl, rfl⟩ := origin_mem ho
  exact ⟨h.place hf, h.mem_files.mp ⟨f, hf, rfl⟩⟩

theorem Encrypts.origin_alone {r : HostSealRequest} {e : Encrypted} (h : Encrypts r e)
    {f : BytePath × PayloadFile} (hf : f ∈ e.files)
    (halone : ∀ q, r.input.Regular q → DirWalk.reaches r.walking.lost q = true →
      HostSeal.place q = HostSeal.place f.1 → q = f.1) :
    origin e.files (filePlace f.2) = some f.1 := by
  obtain ⟨q, hq⟩ := origin_isSome hf
  obtain ⟨hplace, hreg, hreach⟩ := h.origin_place hq
  rw [hq, halone q hreg hreach (hplace.trans (h.place hf).symm)]

/-- Every regular file has its one entry exactly when each is delivered. -/
theorem sealHost_packedOnce {r : HostSealRequest} {calls : Calls}
    (h : sealHost C J r = (.ok (), some calls)) :
    (∀ p, r.input.Regular p → PackedOnce (sealOrigin C r) calls.made p) ↔
      ∀ p, r.input.Regular p → SealDelivers r p := by
  obtain ⟨made, hbegun, hcalls⟩ := writeArchive_ok
    (show (writeArchive r.failing (sealCalls C J r)).1 = .ok () from congrArg Prod.fst h)
  obtain ⟨e, manifest, signature, he, hplan⟩ := sealCalls_ok hbegun
  cases hcalls.symm.trans h
  have horigin : sealOrigin C r = origin e.files := by
    funext t
    rw [sealOrigin, he]
  have henc := encryptInput_ok he
  simp only [horigin, packedOnce_iff hplan.symm, henc.mem_walkFiles]
  constructor
  · intro hall p hp
    obtain ⟨t, ⟨-, hreach, hcheck⟩, ho, -, -⟩ := hall p hp
    obtain ⟨hpt, -, hwalk⟩ := henc.origin_place ho
    refine ⟨hwalk, ?_, ?_⟩
    · intro u hu
      rw [hpt, Except.ok.injEq] at hu
      rw [← hu]
      exact ⟨hreach, hcheck⟩
    · intro q hq _ hqp
      obtain ⟨u, -, hou, -, -⟩ := hall q hq
      rw [(henc.origin_place hou).1, hpt, Except.ok.injEq] at hqp
      rw [hqp, ho] at hou
      exact (Option.some.inj hou).symm
  · intro hall p hp
    have hdel := hall p hp
    obtain ⟨f, hf, rfl⟩ := henc.mem_files.mpr ⟨hp, hdel.reached⟩
    obtain ⟨hreach, hcheck⟩ := hdel.repacked _ (henc.place hf)
    refine ⟨filePlace f.2, ⟨⟨f, hf, rfl⟩, hreach, hcheck⟩, ?_, ?_, ?_⟩
    · exact henc.origin_alone hf hdel.alone
    · rintro u - hou
      have hplace := (henc.origin_place hou).1
      rw [henc.place hf, Except.ok.injEq] at hplace
      exact hplace.symm
    · rintro u ⟨⟨g, hg, rfl⟩, -⟩ hn
      exact henc.name_injective (mem_hostFiles.mpr ⟨_, (henc.stored _).mpr ⟨f, hf, rfl⟩, rfl⟩)
        (mem_hostFiles.mpr ⟨_, (henc.stored _).mpr ⟨g, hg, rfl⟩, rfl⟩) hn

end QCap.HostSeal
