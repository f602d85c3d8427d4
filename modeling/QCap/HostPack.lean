import QCap.HostArchive

/-!
# Packing on the host

`pack_plain` with all that can go wrong on the way: two passes over the input, the key, the
output file and the calls of the ZIP writer. The output is created in place, so that from then
on an error leaves the archive as far as it got.
-/
namespace QCap.HostPack

open QCap.Text QCap.PathTree QCap.Crypto QCap.Formats QCap.Signatures QCap.PayloadMerkle
open QCap.Identity QCap.Archive QCap.IssuerCommands QCap.InputTree QCap.HostArchive

variable (C : Primitives) (J : JsonCodec)

/-- Where the output file is created. In the input, `copied` is what the second walk reads from
it while it is being written. -/
inductive HostOutput where
  | outside (created : Result Unit)
  | inside (p : BytePath) (created : Result Unit) (copied : Bytes)

/-- The input once `File::create` has returned. -/
def afterCreate (input : HostInput) : HostOutput → Result HostInput
  | .outside created => do
    created
    return input
  | .inside p created copied => do
    created
    match input with
    | .directory tree => do
      let tree' ← tree.create p copied
      return .directory tree'
    | .missing | .file _ => if p = [] then return .file copied else throw .fileSystem

structure HostPackRequest where
  input : HostInput
  hashing : Pass
  key : Result Bytes
  passphrase : PassphraseSource
  now : ℕ
  out : HostOutput
  archiving : Pass
  failing : ℕ → Option ℕ

def hostManifest (now : ℕ) (root : String) : QcapManifest :=
  QcapManifest.newWithNow "0.1.0" root none (.object []) now

def hostBundle (manifest : QcapManifest) (key : Seed) : QcapSignatureBundle :=
  signManifest C (J.manifestBytes manifest) manifest.merkleRoot key

def packCalls (r : HostPackRequest) : Result (List (Result ZipCall)) := do
  let root ← r.input.computeRoot r.hashing C.blake3
  let key ← signingKeyFromFile C J r.key r.passphrase
  let walked ← afterCreate r.input r.out
  let manifest := hostManifest r.now root
  return archiveCalls J walked r.archiving manifest (hostBundle C J manifest key)

/-- `pack_plain`, and the calls that the ZIP writer got if there was one. -/
def packHost (r : HostPackRequest) : Result Unit × Option Calls :=
  writeArchive r.failing (packCalls C J r)

structure Opened (r : HostPackRequest) (root : String) (key : Seed) (walked : HostInput) :
    Prop where
  root_computed : r.input.computeRoot r.hashing C.blake3 = .ok root
  key_loaded : signingKeyFromFile C J r.key r.passphrase = .ok key
  created : afterCreate r.input r.out = .ok walked

variable {C J}

theorem packCalls_ok {r : HostPackRequest} {plan : List (Result ZipCall)} :
    packCalls C J r = .ok plan ↔ ∃ root key walked, Opened C J r root key walked ∧
      plan = archiveCalls J walked r.archiving (hostManifest r.now root)
        (hostBundle C J (hostManifest r.now root) key) := by
  simp only [packCalls, bind_ok]
  constructor
  · rintro ⟨root, hroot, key, hkey, walked, hwalked, he⟩
    exact ⟨root, key, walked, ⟨hroot, hkey, hwalked⟩, (Except.ok.inj he).symm⟩
  · rintro ⟨root, key, walked, ⟨hroot, hkey, hwalked⟩, rfl⟩
    exact ⟨root, hroot, key, hkey, walked, hwalked, rfl⟩

/-- An error before the output is created leaves the output path alone. After a later one it holds
what the ZIP writer made of the calls until then, whatever it held before. -/
theorem failed_pack_output (disk : Calls → Bytes) (old : Option Bytes) {r : HostPackRequest}
    {e : Error} (h : (packHost C J r).1 = .error e) :
    ((¬ ∃ root key walked, Opened C J r root key walked) →
      outputAfter disk old (packHost C J r).2 = old) ∧
    ∀ root key walked, Opened C J r root key walked →
      ∃ calls, outputAfter disk old (packHost C J r).2 = some (disk calls) ∧
        Ended r.failing [] (archiveCalls J walked r.archiving (hostManifest r.now root)
          (hostBundle C J (hostManifest r.now root) key)) (.error e, calls) := by
  rw [packHost] at h ⊢
  constructor
  · intro hno
    cases hplan : packCalls C J r with
    | error e' => rfl
    | ok plan =>
      obtain ⟨root, key, walked, hopened, -⟩ := packCalls_ok.mp hplan
      exact absurd ⟨root, key, walked, hopened⟩ hno
  · intro root key walked hopened
    have hplan := packCalls_ok.mpr ⟨root, key, walked, hopened, rfl⟩
    rw [hplan, writeArchive] at h ⊢
    refine ⟨_, rfl, ?_⟩
    rw [← h]
    exact runCalls_ended r.failing [] _

/-- A file that the archive walk can come to: one of the input, or the output created in it. -/
def Present (input : HostInput) (out : HostOutput) (p : BytePath) : Prop :=
  (input.file? p).isSome = true ∨ ∃ created copied, out = .inside p created copied

theorem present_iff {input walked : HostInput} {out : HostOutput} {p : BytePath}
    {t : HostTree} (hd : input = .directory t) (h : afterCreate input out = .ok walked) :
    (walked.file? p).isSome = true ↔ Present input out p := by
  subst hd
  cases out with
  | outside created =>
    simp only [afterCreate, bind_ok] at h
    obtain ⟨-, -, he⟩ := h
    cases he
    simp [Present]
  | inside q created copied =>
    simp only [afterCreate, bind_ok] at h
    obtain ⟨-, -, t', ht', he⟩ := h
    cases he
    have hfiles := create_files ht'
    simp only [Present, HostInput.file?, AList.lookup_isSome, hfiles, AList.mem_insert,
      HostOutput.inside.injEq]
    constructor
    · rintro (rfl | hp)
      · exact Or.inr ⟨_, _, rfl, rfl, rfl⟩
      · exact Or.inl hp
    · rintro (hp | ⟨_, _, rfl, -, -⟩)
      · exact Or.inr hp
      · exact Or.inl rfl

structure PackDelivers (r : HostPackRequest) (p : BytePath) : Prop where
  reached : DirWalk.reaches r.archiving.lost p = true
  checked : r.archiving.unchecked p = false
  alone : ∀ q, Present r.input r.out q → DirWalk.reaches r.archiving.lost q = true →
    r.archiving.unchecked q = false → archiveName q = archiveName p → q = p

/-- A regular file has its one entry exactly when the archive walk delivers it. -/
theorem packHost_packedOnce {r : HostPackRequest} {calls : Calls}
    (h : packHost C J r = (.ok (), some calls)) {p : BytePath} (hp : r.input.Regular p) :
    PackedOnce some calls.made p ↔ PackDelivers r p := by
  obtain ⟨t, f, hd, hf, -⟩ := hp
  obtain ⟨made, hbegun, hcalls⟩ := writeArchive_ok
    (show (writeArchive r.failing (packCalls C J r)).1 = .ok () from congrArg Prod.fst h)
  obtain ⟨root, key, walked, hopened, hplan⟩ := packCalls_ok.mp hbegun
  cases hcalls.symm.trans h
  have hwalk : ∀ q, q ∈ walked.walkFiles r.archiving ↔ Present r.input r.out q ∧
      DirWalk.reaches r.archiving.lost q = true ∧ r.archiving.unchecked q = false := by
    intro q
    rw [HostInput.mem_walkFiles, present_iff hd hopened.created]
  rw [packedOnce_iff hplan.symm]
  constructor
  · rintro ⟨u, hu, he, -, halone⟩
    cases he
    obtain ⟨-, hreach, hcheck⟩ := (hwalk p).mp hu
    refine ⟨hreach, hcheck, ?_⟩
    intro q hq hr hc hn
    exact halone q ((hwalk q).mpr ⟨hq, hr, hc⟩) hn
  · intro hdel
    have hpresent : Present r.input r.out p := by
      left
      rw [hd, HostInput.file?, hf]
      rfl
    refine ⟨p, (hwalk p).mpr ⟨hpresent, hdel.reached, hdel.checked⟩, rfl, ?_, ?_⟩
    · intro q _ he
      exact Option.some.inj he
    · intro q hq hn
      obtain ⟨hq, hr, hc⟩ := (hwalk q).mp hq
      exact hdel.alone q hq hr hc hn

def oddTree : HostTree where
  dirs := []
  files := AList.singleton [[255]] ⟨[1], false⟩
  names := by simp [AList.mem_keys, ByteName]
  parents := by simp [AList.mem_keys]
  disjoint := by simp
  root_directory := by simp [AList.mem_keys]

def quietRequest (input : HostInput) : HostPackRequest where
  input := input
  hashing := .quiet
  key := .ok (asBytes (hexEncode signerKey.val))
  passphrase := noPassphrase
  now := 1700000000
  out := .outside (.ok ())
  archiving := .quiet
  failing _ := none

theorem quietRequest_opened (input : HostInput) (J : JsonCodec) :
    ∃ root, Opened toy J (quietRequest input) root signerKey input := by
  obtain ⟨root, hroot⟩ : ∃ root, input.computeRoot .quiet toy.blake3 = .ok root :=
    HostInput.computeRoot_readable (fun _ => rfl) toy.blake3
  exact ⟨root, hroot, signingKeyFromFile_hex toy J signerKey noPassphrase, rfl⟩

theorem oddTree_packed (J : JsonCodec) :
    ∃ header, packHost toy J (quietRequest (.directory oddTree)) =
      (.error (.message "non-utf8 path"), some ⟨header, none⟩) := by
  obtain ⟨root, hopened⟩ := quietRequest_opened (.directory oddTree) J
  have hwalk : HostInput.walkFiles (.directory oddTree) .quiet = [[[255]]] := by decide +kernel
  have hcalls : fileCalls (.directory oddTree) .quiet [[255]] =
      [.error (.message "non-utf8 path")] := by
    have hname : archiveName [[255]] = .error (.message "non-utf8 path") := rfl
    rw [fileCalls, hname]
  rw [packHost, packCalls_ok.mpr ⟨root, signerKey, _, hopened, rfl⟩]
  simp only [quietRequest, writeArchive, archiveCalls, hwalk, List.flatMap_cons, hcalls,
    List.append_assoc, runCalls_quiet]
  exact ⟨_, rfl⟩

theorem failed_pack_overwrites :
    ∃ calls, packHost toy (Json.documentCodec [] [] []) (quietRequest (.directory oddTree)) =
        (.error (.message "non-utf8 path"), some calls) ∧
      ∀ disk : Calls → Bytes, outputAfter disk none (some calls) ≠ none ∧
        ∃ old, outputAfter disk (some old) (some calls) ≠ some old := by
  obtain ⟨header, hpack⟩ := oddTree_packed (Json.documentCodec [] [] [])
  refine ⟨_, hpack, fun disk => ⟨?_, 0 :: disk ⟨header, none⟩, ?_⟩⟩
  · intro h
    cases h
  · intro h
    have hlen := congrArg List.length (Option.some.inj h)
    simp at hlen

/-- The file that held one byte holds the two that the writer left. -/
theorem failed_pack_output_odd :
    outputAfter (fun _ => [80, 75]) (some [1])
      (packHost toy (Json.documentCodec [] [] []) (quietRequest (.directory oddTree))).2 =
        some [80, 75] := by
  obtain ⟨header, hpack⟩ := oddTree_packed (Json.documentCodec [] [] [])
  obtain ⟨root, hopened⟩ := quietRequest_opened (.directory oddTree) (Json.documentCodec [] [] [])
  obtain ⟨-, hafter⟩ := failed_pack_output (fun _ => [80, 75]) (some [1])
    (show (packHost toy (Json.documentCodec [] [] [])
      (quietRequest (.directory oddTree))).1 = .error (.message "non-utf8 path") by rw [hpack])
  obtain ⟨calls, hout, -⟩ := hafter root signerKey _ hopened
  exact hout

end QCap.HostPack
