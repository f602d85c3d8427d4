import QCap.DirWalk
import QCap.SealRoundTrip

/-!
# The input as the host has it

Names are bytes, as Unix has them, and need not be text; a file may be a symbolic link to one
elsewhere. Other entries, among them links to directories, are in no walk's list of files and
are left out. What fails in one pass over the input need not fail in the next.
-/
namespace QCap.InputTree

open QCap.Text QCap.PathTree QCap.Crypto QCap.PayloadMerkle QCap.IssuerCommands

abbrev BytePath := List Bytes

/-- A name without `/` and NUL that is no `.` and no `..`. -/
def ByteName (name : Bytes) : Prop :=
  name ≠ [] ∧ name ≠ [46] ∧ name ≠ [46, 46] ∧ 47 ∉ name ∧ 0 ∉ name

instance (name : Bytes) : Decidable (ByteName name) :=
  inferInstanceAs (Decidable (_ ∧ _ ∧ _ ∧ _ ∧ _))

def joinBytes (p : BytePath) : Bytes := [47].intercalate p

def bytePath (p : RelPath) : BytePath := p.map asBytes

theorem asBytes_joinWith (parts : List String) :
    asBytes (joinWith '/' parts) = joinBytes (bytePath parts) := by
  induction parts with
  | nil => decide
  | cons first rest ih =>
    cases rest with
    | nil => simp [joinWith_singleton, joinBytes, bytePath]
    | cons second rest =>
      rw [joinWith_cons_cons, asBytes_append, asBytes_append, ih]
      simp only [joinBytes, bytePath, List.map_cons, List.intercalate_cons_cons]
      rfl

theorem asBytes_pathString (p : RelPath) : asBytes (pathString p) = joinBytes (bytePath p) :=
  asBytes_joinWith p

theorem bytePath_injective : Function.Injective bytePath :=
  List.map_injective_iff.mpr fun _ _ h => asBytes_injective h

theorem byteName_asBytes {name : String} (h : FileName name) : ByteName (asBytes name) := by
  obtain ⟨hempty, hdot, hdots, hslash, hnul⟩ := h
  refine ⟨fun he => hempty ?_, fun he => hdot ?_, fun he => hdots ?_, fun hm => hslash ?_,
    zero_not_mem_asBytes hnul⟩
  · exact asBytes_injective (he.trans (by decide))
  · exact asBytes_injective (he.trans (by decide))
  · exact asBytes_injective (he.trans (by decide))
  · obtain ⟨c, hc, hn⟩ := ascii_mem_asBytes (by decide) hm
    rwa [Char.toNat_inj.mp (show c.toNat = '/'.toNat from hn)] at hc

def toStr (path : Bytes) : Option String := fromUtf8 path

theorem toStr_asBytes (s : String) : toStr (asBytes s) = some s := fromUTF8?_asBytes s

def replacementBytes : Bytes := [0xEF, 0xBF, 0xBD]

structure Pending where
  seen : Bytes
  owed : ℕ
  low : UInt8
  high : UInt8

def beginChar (b : UInt8) : Bytes × Option Pending :=
  if b ≤ 0x7F then ([b], none)
  else if 0xC2 ≤ b && b ≤ 0xDF then ([], some ⟨[b], 1, 0x80, 0xBF⟩)
  else if b = 0xE0 then ([], some ⟨[b], 2, 0xA0, 0xBF⟩)
  else if b = 0xED then ([], some ⟨[b], 2, 0x80, 0x9F⟩)
  else if 0xE1 ≤ b && b ≤ 0xEF then ([], some ⟨[b], 2, 0x80, 0xBF⟩)
  else if b = 0xF0 then ([], some ⟨[b], 3, 0x90, 0xBF⟩)
  else if 0xF1 ≤ b && b ≤ 0xF3 then ([], some ⟨[b], 3, 0x80, 0xBF⟩)
  else if b = 0xF4 then ([], some ⟨[b], 3, 0x80, 0x8F⟩)
  else (replacementBytes, none)

/-- A byte that cannot go on begins anew: what was seen before it is replaced as one. -/
def nextByte : Option Pending → UInt8 → Bytes × Option Pending
  | none, b => beginChar b
  | some p, b =>
    if p.low ≤ b && b ≤ p.high then
      if p.owed ≤ 1 then (p.seen ++ [b], none)
      else ([], some ⟨p.seen ++ [b], p.owed - 1, 0x80, 0xBF⟩)
    else (replacementBytes ++ (beginChar b).1, (beginChar b).2)

def replaceInvalid : Option Pending → Bytes → Bytes
  | none, [] => []
  | some _, [] => replacementBytes
  | state, b :: rest => (nextByte state b).1 ++ replaceInvalid (nextByte state b).2 rest

/-- `to_string_lossy().replace('\\', "/").into_bytes()`. -/
def lossyPathBytes (p : BytePath) : Bytes :=
  match toStr (joinBytes p) with
  | some s => asBytes (replaceChar s '\\' '/')
  | none => (replaceInvalid none (joinBytes p)).map fun b => if b = 92 then 47 else b

theorem lossyPathBytes_bytePath (p : RelPath) : lossyPathBytes (bytePath p) = pathBytes p := by
  rw [lossyPathBytes, ← asBytes_pathString, toStr_asBytes]
  rfl

/-- Three invalid sequences in four bytes: a cut character, an odd byte and a lone start. -/
example : replaceInvalid none [0xE2, 0x82, 0xFF, 0xC3] =
    replacementBytes ++ replacementBytes ++ replacementBytes := by decide

structure HostFile where
  bytes : Bytes
  /-- The entry is a symbolic link. -/
  link : Bool
  deriving DecidableEq

structure HostTree where
  dirs : List BytePath
  files : AList fun _ : BytePath => HostFile
  names : ∀ p, p ∈ dirs ∨ p ∈ files → ∀ n ∈ p, ByteName n
  parents : ∀ p, p ∈ dirs ∨ p ∈ files → p.dropLast = [] ∨ p.dropLast ∈ dirs
  disjoint : ∀ p ∈ dirs, p ∉ files
  root_directory : [] ∉ files

def hostFiles (files : AList fun _ : RelPath => Bytes) : AList fun _ : BytePath => HostFile where
  entries := files.entries.map fun e => ⟨bytePath e.1, ⟨e.2, false⟩⟩
  nodupKeys := by
    have hkeys : (files.entries.map fun e =>
        (⟨bytePath e.1, ⟨e.2, false⟩⟩ : Sigma fun _ : BytePath => HostFile)).keys =
        files.keys.map bytePath := by
      simp [List.keys, AList.keys, Function.comp_def]
    rw [List.NodupKeys, hkeys]
    exact files.keys_nodup.map bytePath_injective

theorem hostFiles_keys (files : AList fun _ : RelPath => Bytes) :
    (hostFiles files).keys = files.keys.map bytePath := by
  simp [hostFiles, List.keys, AList.keys, Function.comp_def]

theorem mem_hostFiles {files : AList fun _ : RelPath => Bytes} {p : BytePath} :
    p ∈ hostFiles files ↔ ∃ q ∈ files, bytePath q = p := by
  rw [AList.mem_keys, hostFiles_keys, List.mem_map]
  rfl

theorem hostFiles_lookup (files : AList fun _ : RelPath => Bytes) (p : RelPath) :
    (hostFiles files).lookup (bytePath p) = (files.lookup p).map fun b => ⟨b, false⟩ := by
  cases hb : files.lookup p with
  | none =>
    rw [AList.lookup_eq_none] at hb
    rw [Option.map_none, AList.lookup_eq_none, mem_hostFiles]
    rintro ⟨q, hq, he⟩
    exact hb (bytePath_injective he ▸ hq)
  | some b =>
    rw [Option.map_some, ← Option.mem_def, AList.mem_lookup_iff]
    exact List.mem_map.mpr ⟨⟨p, b⟩, AList.mem_lookup_iff.mp hb, rfl⟩

theorem bytePath_dropLast (p : RelPath) : (bytePath p).dropLast = bytePath p.dropLast :=
  List.map_dropLast.symm

theorem hostEntry {t : Tree} {p : BytePath}
    (h : p ∈ t.dirs.map bytePath ∨ p ∈ hostFiles t.files) :
    ∃ q, (q ∈ t.dirs ∨ q ∈ t.files) ∧ bytePath q = p := by
  rw [List.mem_map, mem_hostFiles] at h
  rcases h with ⟨q, hq, he⟩ | ⟨q, hq, he⟩
  · exact ⟨q, Or.inl hq, he⟩
  · exact ⟨q, Or.inr hq, he⟩

def ofTree (t : Tree) : HostTree where
  dirs := t.dirs.map bytePath
  files := hostFiles t.files
  names := by
    intro p hp n hn
    obtain ⟨q, hq, rfl⟩ := hostEntry hp
    obtain ⟨name, hname, rfl⟩ := List.mem_map.mp hn
    exact byteName_asBytes (t.names q hq name hname)
  parents := by
    intro p hp
    obtain ⟨q, hq, rfl⟩ := hostEntry hp
    rw [bytePath_dropLast]
    rcases t.parents q hq with he | hd
    · exact Or.inl (by rw [he]; rfl)
    · exact Or.inr (List.mem_map_of_mem hd)
  disjoint := by
    intro p hp hf
    obtain ⟨d, hd, rfl⟩ := List.mem_map.mp hp
    obtain ⟨q, hq, he⟩ := mem_hostFiles.mp hf
    exact t.disjoint d hd (bytePath_injective he ▸ hq)
  root_directory := by
    intro hf
    obtain ⟨q, hq, he⟩ := mem_hostFiles.mp hf
    exact t.root_directory (List.map_eq_nil_iff.mp he ▸ hq)

/-- `File::create` and the writes that follow it. A link stays one: its target is written. -/
def HostTree.create (t : HostTree) (p : BytePath) (bytes : Bytes) : Result HostTree :=
  if h : p ≠ [] ∧ (∀ n ∈ p, ByteName n) ∧ (p.dropLast = [] ∨ p.dropLast ∈ t.dirs) ∧
      p ∉ t.dirs then
    .ok
      { t with
        files := t.files.insert p ⟨bytes, (t.files.lookup p).any HostFile.link⟩
        names := by
          intro q hq
          rw [AList.mem_insert, or_left_comm] at hq
          rcases hq with rfl | hq
          · exact h.2.1
          · exact t.names q hq
        parents := by
          intro q hq
          rw [AList.mem_insert, or_left_comm] at hq
          rcases hq with rfl | hq
          · exact h.2.2.1
          · exact t.parents q hq
        disjoint := by
          intro q hq hf
          rcases (AList.mem_insert _).mp hf with rfl | hf
          · exact h.2.2.2 hq
          · exact t.disjoint q hq hf
        root_directory := by
          intro hf
          rcases (AList.mem_insert _).mp hf with hf | hf
          · exact h.1 hf.symm
          · exact t.root_directory hf }
  else .error .fileSystem

theorem create_files {t t' : HostTree} {p : BytePath} {bytes : Bytes}
    (h : t.create p bytes = .ok t') :
    t'.files = t.files.insert p ⟨bytes, (t.files.lookup p).any HostFile.link⟩ := by
  rw [HostTree.create] at h
  split at h
  · cases h
    rfl
  · cases h

inductive HostInput where
  | missing
  | file (bytes : Bytes)
  | directory (tree : HostTree)

def HostInput.entries : HostInput → List BytePath
  | .missing => []
  | .file _ => [[]]
  | .directory t => [] :: t.dirs ++ t.files.keys

def HostInput.file? : HostInput → BytePath → Option HostFile
  | .missing, _ => none
  | .file bytes, p => if p = [] then some ⟨bytes, false⟩ else none
  | .directory t, p => t.files.lookup p

def HostInput.Regular (input : HostInput) (p : BytePath) : Prop :=
  ∃ t f, input = .directory t ∧ t.files.lookup p = some f ∧ f.link = false

theorem HostInput.mem_entries {input : HostInput} {p : BytePath}
    (h : (input.file? p).isSome = true) : p ∈ input.entries := by
  cases input with
  | missing => cases h
  | file bytes =>
    simp only [HostInput.file?] at h
    split at h
    · rename_i hp
      exact List.mem_singleton.mpr hp
    · cases h
  | directory t =>
    have hk : p ∈ t.files.keys := AList.mem_keys.mp (AList.lookup_isSome.mp h)
    exact List.mem_append_right _ hk

theorem HostInput.entries_nodup {input : HostInput} {isFile : BytePath → Bool}
    (h : ∀ p, isFile p = true → (input.file? p).isSome = true) :
    (input.entries.filter isFile).Nodup := by
  cases input with
  | missing => exact List.nodup_nil
  | file bytes => exact (List.nodup_singleton _).filter _
  | directory t =>
    have hnone : ([] :: t.dirs).filter isFile = [] := by
      rw [List.filter_eq_nil_iff]
      intro p hp hf
      have hm : p ∈ t.files := AList.lookup_isSome.mp (h p hf)
      rcases List.mem_cons.mp hp with rfl | hp
      · exact t.root_directory hm
      · exact t.disjoint p hp hm
    rw [HostInput.entries, List.filter_append, hnone, List.nil_append]
    exact t.files.keys_nodup.filter _

inductive ReadFault where
  | fine
  | unopened
  | broken (after : ℕ)

/-- What goes wrong in one pass: entries that the walk does not deliver, paths whose type cannot
be read, files that cannot be read to their end. -/
structure Pass where
  lost : BytePath → Bool
  unchecked : BytePath → Bool
  read : BytePath → ReadFault

def Pass.quiet : Pass where
  lost _ := false
  unchecked _ := false
  read _ := .fine

/-- The order of `PathBuf`: component by component, and each byte by byte. -/
def byteKey (p : BytePath) : List (List ℕ) := p.map fun name => name.map UInt8.toNat

def PathLe (p q : BytePath) : Prop := byteKey p ≤ byteKey q

instance : DecidableRel PathLe := fun p q => inferInstanceAs (Decidable (byteKey p ≤ byteKey q))

namespace HostInput

variable (input : HostInput) (pass : Pass)

/-- `Path::is_file`: links are followed, and a path that cannot be looked at is no file. -/
def isFile (p : BytePath) : Bool := !pass.unchecked p && (input.file? p).isSome

/-- `entry.file_type().is_file()`, which follows no link. -/
def isRegular (p : BytePath) : Bool := (input.file? p).any fun f => !f.link

/-- `list_files` of the root computation. -/
def listFiles : List BytePath :=
  DirWalk.files PathLe pass.lost (input.isFile pass) input.entries

/-- `walk_files` of the archive. -/
def walkFiles : List BytePath :=
  DirWalk.files PathLe pass.lost (input.isFile pass) input.entries

/-- `walk_files` of `seal`. -/
def walkRegular : List BytePath :=
  DirWalk.files PathLe pass.lost input.isRegular input.entries

/-- `File::open` and `read_to_end`, or `fs::read`. -/
def readToEnd (p : BytePath) : Result Bytes :=
  match input.file? p, pass.read p with
  | some f, .fine => .ok f.bytes
  | _, _ => .error .fileSystem

/-- The leaf loop of `compute_payload_merkle_root`. -/
def leaves (blake3 : Bytes → Digest) : Result (List Digest) :=
  (input.listFiles pass).mapM fun p => do
    let bytes ← input.readToEnd pass p
    return blake3 (lossyPathBytes p ++ 0 :: bytes)

/-- `compute_payload_merkle_root`. -/
def computeRoot (blake3 : Bytes → Digest) : Result String := do
  let leaves ← input.leaves pass blake3
  match HashTree.reduce (scheme blake3).combine leaves.length leaves with
  | [] => return "blake3:" ++ hexEncode (blake3 []).val
  | root :: _ => return "blake3:" ++ hexEncode root.val

variable {input pass}

theorem isFile_iff {p : BytePath} :
    input.isFile pass p = true ↔ pass.unchecked p = false ∧ (input.file? p).isSome = true := by
  rw [isFile, Bool.and_eq_true, Bool.not_eq_true']

theorem isRegular_isSome {p : BytePath} (h : input.isRegular p = true) :
    (input.file? p).isSome = true := by
  rw [isRegular, Option.any_eq_true] at h
  obtain ⟨f, hf, -⟩ := h
  rw [hf]
  rfl

theorem mem_walkFiles {p : BytePath} :
    p ∈ input.walkFiles pass ↔ (input.file? p).isSome = true ∧
      DirWalk.reaches pass.lost p = true ∧ pass.unchecked p = false := by
  rw [walkFiles, DirWalk.mem_files, isFile_iff]
  constructor
  · rintro ⟨-, hr, hu, hf⟩
    exact ⟨hf, hr, hu⟩
  · rintro ⟨hf, hr, hu⟩
    exact ⟨mem_entries hf, hr, hu, hf⟩

theorem mem_walkRegular {p : BytePath} :
    p ∈ input.walkRegular pass ↔
      input.isRegular p = true ∧ DirWalk.reaches pass.lost p = true := by
  rw [walkRegular, DirWalk.mem_files]
  constructor
  · rintro ⟨-, hr, hf⟩
    exact ⟨hf, hr⟩
  · rintro ⟨hf, hr⟩
    exact ⟨mem_entries (isRegular_isSome hf), hr, hf⟩

theorem computeRoot_readable (hr : ∀ p, pass.read p = .fine) (blake3 : Bytes → Digest) :
    ∃ root, input.computeRoot pass blake3 = .ok root := by
  have hleaves : ∀ ps : List BytePath, (∀ p ∈ ps, (input.file? p).isSome = true) →
      ∃ leaves, (ps.mapM fun p => do
        let bytes ← input.readToEnd pass p
        return blake3 (lossyPathBytes p ++ 0 :: bytes)) = (.ok leaves : Result (List Digest)) := by
    intro ps hps
    induction ps with
    | nil => exact ⟨[], rfl⟩
    | cons p ps ih =>
      obtain ⟨f, hf⟩ := Option.isSome_iff_exists.mp (hps p List.mem_cons_self)
      obtain ⟨leaves, hl⟩ := ih fun q hq => hps q (List.mem_cons_of_mem _ hq)
      refine ⟨blake3 (lossyPathBytes p ++ 0 :: f.bytes) :: leaves, ?_⟩
      rw [List.mapM_cons, hl, readToEnd, hf, hr]
      rfl
  obtain ⟨leaves, hl⟩ := hleaves (input.listFiles pass) fun p hp => (mem_walkFiles.mp hp).1
  rw [computeRoot, HostInput.leaves, hl, ok_bind]
  split
  · exact ⟨_, rfl⟩
  · exact ⟨_, rfl⟩

theorem walkFiles_nodup : (input.walkFiles pass).Nodup := by
  apply DirWalk.files_nodup
  apply entries_nodup
  intro p hp
  exact (isFile_iff.mp hp).2

theorem Regular.isRegular {p : BytePath} (h : input.Regular p) : input.isRegular p = true := by
  obtain ⟨t, f, rfl, hf, hl⟩ := h
  rw [HostInput.isRegular, HostInput.file?, hf]
  simp [hl]

end HostInput

end QCap.InputTree
