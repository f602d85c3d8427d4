import QCap.HostSeal
import QCap.OrderedCodes

/-!
# Inputs whose names are text

Where every name is text and a pass delivers every file, the root and the archive of the host
are those of a tree. `PathBuf` compares bytes and the tree compares characters, which is the
same order.
-/
namespace QCap.InputText

open QCap.Text QCap.PathTree QCap.Crypto QCap.Formats QCap.Signatures QCap.PayloadMerkle
open QCap.Identity QCap.Archive QCap.IssuerCommands QCap.InputTree
open QCap.HostArchive QCap.HostSeal OrderedCodes

variable {J : JsonCodec} {t : Tree} {input : HostInput} {pass : Pass}

theorem asBytes_strictMono : StrictMono fun s : String => (asBytes s).map UInt8.toNat := by
  intro s t h
  have hlt := charDigits_ordered.flatMap_strictMono (String.lt_iff_toList_lt.mp h)
  simp only [asBytes_eq_flatMap, List.map_flatMap]
  exact hlt

theorem pathLe_bytePath {p q : RelPath} : PathLe (bytePath p) (bytePath q) ↔ p ≤ q := by
  have hkey : ∀ p, byteKey (bytePath p) =
      p.map fun s : String => (asBytes s).map UInt8.toNat := by
    intro p
    rw [byteKey, bytePath, List.map_map]
    rfl
  rw [PathLe, hkey, hkey]
  exact (map_strictMono asBytes_strictMono).le_iff_le

theorem pathLe_antisymm {p q : BytePath} (h : PathLe p q) (h' : PathLe q p) : p = q := by
  have hbytes : Function.Injective fun name : Bytes => name.map UInt8.toNat :=
    List.map_injective_iff.mpr fun _ _ hb => UInt8.toNat_inj.mp hb
  exact List.map_injective_iff.mpr hbytes (le_antisymm h h')

instance : Std.Total PathLe := ⟨fun p q => le_total (byteKey p) (byteKey q)⟩

instance : IsTrans BytePath PathLe := ⟨fun _ _ _ h h' => le_trans (α := List (List ℕ)) h h'⟩

structure Mirrors (input : HostInput) (t : Tree) : Prop where
  text : ∀ p, (input.file? p).isSome = true → ∃ q, bytePath q = p
  bytes : ∀ q, (input.file? (bytePath q)).map HostFile.bytes = t.read q

/-- The walk comes to every file and finds that it is one. -/
def Delivers (pass : Pass) (input : HostInput) : Prop :=
  ∀ p, (input.file? p).isSome = true →
    DirWalk.reaches pass.lost p = true ∧ pass.unchecked p = false

theorem quiet_delivers (input : HostInput) : Delivers .quiet input :=
  fun _ _ => ⟨(DirWalk.reaches_iff _).mpr fun _ _ => rfl, rfl⟩

namespace Mirrors

theorem file_iff (h : Mirrors input t) {p : BytePath} :
    (input.file? p).isSome = true ↔ p ∈ t.walkFiles.map bytePath := by
  rw [List.mem_map]
  constructor
  · intro hp
    obtain ⟨q, rfl⟩ := h.text p hp
    refine ⟨q, Tree.mem_walkFiles.mpr (Tree.mem_files.mpr ?_), rfl⟩
    rw [← Option.isSome_iff_exists, ← h.bytes, Option.isSome_map]
    exact hp
  · rintro ⟨q, hq, rfl⟩
    obtain ⟨b, hb⟩ := Tree.mem_files.mp (Tree.mem_walkFiles.mp hq)
    rw [← Option.isSome_map, h.bytes, hb]
    rfl

theorem walkFiles_sorted (t : Tree) : (t.walkFiles.map bytePath).Pairwise PathLe := by
  rw [List.pairwise_map]
  have hsorted : t.walkFiles.Pairwise (· ≤ ·) := List.sortedLE_insertionSort.pairwise
  exact hsorted.imp fun hle => pathLe_bytePath.mpr hle

/-- A walk that delivers every file lists the files of the tree, in its order. -/
theorem files (h : Mirrors input t) {lost isFile : BytePath → Bool}
    (hfile : ∀ p, isFile p = true → (input.file? p).isSome = true)
    (hall : ∀ p, (input.file? p).isSome = true →
      DirWalk.reaches lost p = true ∧ isFile p = true) :
    DirWalk.files PathLe lost isFile input.entries = t.walkFiles.map bytePath := by
  have hnodup := DirWalk.files_nodup PathLe lost isFile (HostInput.entries_nodup hfile)
  have hperm : (DirWalk.files PathLe lost isFile input.entries).Perm
      (t.walkFiles.map bytePath) := by
    apply (List.perm_ext_iff_of_nodup hnodup (t.walkFiles_nodup.map bytePath_injective)).mpr
    intro p
    rw [DirWalk.mem_files, ← h.file_iff]
    constructor
    · rintro ⟨-, -, hp⟩
      exact hfile p hp
    · intro hp
      exact ⟨HostInput.mem_entries hp, hall p hp⟩
  exact hperm.eq_of_pairwise (fun _ _ _ _ => pathLe_antisymm)
    (List.pairwise_insertionSort PathLe _) (walkFiles_sorted t)

theorem walkFiles (h : Mirrors input t) (hd : Delivers pass input) :
    input.walkFiles pass = t.walkFiles.map bytePath := by
  apply h.files
  · intro p hp
    exact (HostInput.isFile_iff.mp hp).2
  · intro p hp
    obtain ⟨hreach, hcheck⟩ := hd p hp
    exact ⟨hreach, HostInput.isFile_iff.mpr ⟨hcheck, hp⟩⟩

theorem payload (t : Tree) :
    t.walkFiles.map bytePath = (payloadFiles t).map fun f => bytePath f.1 := by
  rw [← payloadFiles_paths, List.map_map]
  rfl

theorem readToEnd (h : Mirrors input t) {p : RelPath} {b bytes : Bytes} (hb : t.read p = some b)
    (hr : input.readToEnd pass (bytePath p) = .ok bytes) : bytes = b := by
  have hp := h.bytes p
  rw [hb, Option.map_eq_some_iff] at hp
  obtain ⟨f, hf, rfl⟩ := hp
  rw [HostInput.readToEnd, hf] at hr
  cases hread : pass.read (bytePath p) with
  | fine =>
    rw [hread] at hr
    cases hr
    rfl
  | unopened =>
    rw [hread] at hr
    cases hr
  | broken after =>
    rw [hread] at hr
    cases hr

/-- The leaves, where every file is delivered and reads to its end. -/
theorem leaves (h : Mirrors input t) (hd : Delivers pass input) {blake3 : Bytes → Digest}
    {digests : List Digest} (hl : input.leaves pass blake3 = .ok digests) :
    digests = HashTree.leafDigests (scheme blake3) (payloadFiles t) := by
  have hmap : ∀ files : List (RelPath × Bytes), (∀ f ∈ files, t.read f.1 = some f.2) →
      ∀ digests, ((files.map fun f => bytePath f.1).mapM fun p => do
        let bytes ← input.readToEnd pass p
        return blake3 (lossyPathBytes p ++ 0 :: bytes)) = (.ok digests : Result (List Digest)) →
      digests = HashTree.leafDigests (scheme blake3) files := by
    intro files hfiles
    induction files with
    | nil =>
      intro digests hm
      cases hm
      rfl
    | cons f files ih =>
      intro digests hm
      rw [List.forall_mem_cons] at hfiles
      simp only [List.map_cons, List.mapM_cons, bind_ok, pure, Except.pure,
        Except.ok.injEq] at hm
      obtain ⟨digest, ⟨bytes, hread, rfl⟩, rest, hrest, rfl⟩ := hm
      rw [ih hfiles.2 rest hrest, h.readToEnd hfiles.1 hread, lossyPathBytes_bytePath]
      rfl
  rw [HostInput.leaves, HostInput.listFiles, ← HostInput.walkFiles, h.walkFiles hd,
    payload] at hl
  exact hmap _ (fun f hf => mem_payloadFiles.mp hf) _ hl

theorem computeRoot (h : Mirrors input t) (hd : Delivers pass input) {blake3 : Bytes → Digest}
    {root : String} (hr : input.computeRoot pass blake3 = .ok root) :
    root = computePayloadMerkleRoot blake3 t := by
  rw [HostInput.computeRoot, bind_ok] at hr
  obtain ⟨digests, hl, hr⟩ := hr
  rw [h.leaves hd hl] at hr
  rw [computePayloadMerkleRoot]
  cases hreduce : HashTree.reduce (scheme blake3).combine
    (HashTree.leafDigests (scheme blake3) (payloadFiles t)).length
    (HashTree.leafDigests (scheme blake3) (payloadFiles t)) with
  | nil =>
    rw [hreduce] at hr
    cases hr
    rfl
  | cons digest rest =>
    rw [hreduce] at hr
    cases hr
    rfl

theorem zip (h : Mirrors input t) (hd : Delivers pass input) {manifest : QcapManifest}
    {signature : QcapSignatureBundle} {calls : List ZipCall}
    (hc : archiveCalls J input pass manifest signature = calls.map .ok) :
    HostArchive.zip calls = createQcapArchiveWithSignature J t manifest signature := by
  obtain ⟨members, hpacks, hmembers⟩ := archiveCalls_ok hc
  rw [h.walkFiles hd, payload] at hpacks
  have hentries : ∀ (files : List (RelPath × Bytes)) (members : List Member),
      (∀ f ∈ files, t.read f.1 = some f.2) →
      List.Forall₂ (Packs input) (files.map fun f => bytePath f.1) members →
      members.map Member.entry = files.map fun f => ⟨payloadName f.1, f.2⟩ := by
    intro files
    induction files with
    | nil =>
      intro members _ hp
      cases hp
      rfl
    | cons f files ih =>
      intro members hfiles hp
      rw [List.forall_mem_cons] at hfiles
      obtain ⟨m, rest, hm, hrest, rfl⟩ := List.forall₂_cons_left_iff.mp hp
      have hname := hm.name
      rw [archiveName_bytePath, Except.ok.injEq] at hname
      have hbytes := hm.bytes
      rw [h.bytes, hfiles.1, Option.some.injEq] at hbytes
      rw [List.map_cons, List.map_cons, ih rest hfiles.2 hrest, hname, hbytes]
  rw [HostArchive.zip, hmembers, List.map_append,
    hentries _ members (fun f hf => mem_payloadFiles.mp hf) hpacks]
  rfl

end Mirrors

theorem ofTree_mirrors (t : Tree) : Mirrors (.directory (ofTree t)) t where
  text := by
    intro p hp
    obtain ⟨q, -, he⟩ := mem_hostFiles.mp (AList.lookup_isSome.mp hp)
    exact ⟨q, he⟩
  bytes := by
    intro q
    have hlookup : (HostInput.directory (ofTree t)).file? (bytePath q) =
        (t.read q).map fun b => ⟨b, false⟩ := hostFiles_lookup t.files q
    rw [hlookup, Option.map_map]
    exact congrFun Option.map_id (t.read q)

end QCap.InputText
