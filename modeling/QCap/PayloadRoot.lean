import QCap.LeftComplete
import QCap.PayloadMerkle
import Mathlib.Data.List.Dedup
import Mathlib.Data.Prod.Lex

/-!
# The payload root, walk and loops

`compute_payload_merkle_root` from what the directory walk yields, in whatever order and below
whatever root, to the digest that its loops leave.
-/
namespace QCap.PayloadRoot

open QCap.Text QCap.PathTree QCap.Crypto QCap.PayloadMerkle
open LeftComplete (Loop treeHash)

/-- A path below the root as the walk yields it: components of the root, then names. -/
abbrev HostPath := List Component

/-- `Component` is ordered by its kind first. -/
def sortKey : Component → ℕ ×ₗ String
  | .rootDir => toLex (1, "")
  | .curDir => toLex (2, "")
  | .parentDir => toLex (3, "")
  | .normal name => toLex (4, name)

def hostPath (root : HostPath) (p : RelPath) : HostPath := root ++ p.map .normal

/-- `strip_prefix`. -/
def stripRoot (root path : HostPath) : Option HostPath :=
  if root.isPrefixOf path then some (path.drop root.length) else none

def relNames (rel : HostPath) : RelPath := rel.filterMap Component.name?

theorem sortKey_injective : Function.Injective sortKey := by
  intro a b h
  cases a <;> cases b <;> simp_all [sortKey]

theorem stripRoot_hostPath (root : HostPath) (p : RelPath) :
    stripRoot root (hostPath root p) = some (p.map .normal) := by
  simp [stripRoot, hostPath]

theorem relNames_map (p : RelPath) : relNames (p.map .normal) = p := by
  simp [relNames, List.filterMap_map, Function.comp_def, Component.name?]

theorem hostPath_injective (root : HostPath) : Function.Injective (hostPath root) := by
  intro p q h
  have hs := congrArg (stripRoot root) h
  rw [stripRoot_hostPath, stripRoot_hostPath] at hs
  rw [← relNames_map p, Option.some.inj hs, relNames_map]

theorem hostPath_mono (root : HostPath) {p q : RelPath} (h : p ≤ q) :
    (hostPath root p).map sortKey ≤ (hostPath root q).map sortKey := by
  rcases eq_or_lt_of_le h with rfl | hlt
  · exact le_refl _
  · have hmap : p.map (sortKey ∘ .normal) < q.map (sortKey ∘ .normal) :=
      List.map_lt (fun a b hab => Prod.Lex.toLex_lt_toLex.mpr (Or.inr ⟨rfl, hab⟩)) hlt
    simp only [hostPath, List.map_append, List.map_map]
    exact le_of_lt (List.append_left_lt hmap)

section

variable (blake3 : Bytes → Digest) (t : Tree) (root : HostPath)

def isFile (path : HostPath) : Bool :=
  match stripRoot root path with
  | some rel => (t.read (relNames rel)).isSome
  | none => false

def listFiles (entries : List HostPath) : List HostPath :=
  (entries.filter (isFile t root)).insertionSort fun p q => p.map sortKey ≤ q.map sortKey

/-- One turn of the first loop: `none` is a file that is gone or is not below the root. -/
def leafDigest (path : HostPath) : Option Digest := do
  let rel ← stripRoot root path
  let bytes ← t.read (relNames rel)
  return blake3 (pathBytes (relNames rel) ++ 0 :: bytes)

/-- `compute_payload_merkle_root`, within `fuel` turns of the nested loops. -/
def computeRoot (fuel : ℕ) (entries : List HostPath) : Option String := do
  let leaves ← (listFiles t root entries).mapM (leafDigest blake3 t root)
  if leaves = [] then return "blake3:" ++ hexEncode (blake3 []).val
  let final ← (Loop.start leaves).run (scheme blake3).combine fuel
  let digest ← final.level.head?
  return "blake3:" ++ hexEncode digest.val

/-- What the walk may yield: the root, each directory and each file once, in any order. -/
structure Yields (entries : List HostPath) : Prop where
  nodup : entries.Nodup
  mem : ∀ path, path ∈ entries ↔
    ∃ p, (p = [] ∨ p ∈ t.dirs ∨ p ∈ t.files) ∧ path = hostPath root p

variable {t root}

theorem isFile_hostPath (p : RelPath) : isFile t root (hostPath root p) = (t.read p).isSome := by
  rw [isFile, stripRoot_hostPath]
  simp only [relNames_map]

theorem leafDigest_hostPath {f : RelPath × Bytes} (hf : f ∈ payloadFiles t) :
    leafDigest blake3 t root (hostPath root f.1) = some (blake3 (leafBytes f)) := by
  rw [leafDigest, stripRoot_hostPath]
  simp only [Option.bind_eq_bind, Option.bind_some, relNames_map, mem_payloadFiles.mp hf]
  rfl

/-- Sorting absolute paths sorts the payload, wherever its root lies. -/
theorem listFiles_eq {entries : List HostPath} (h : Yields t root entries) :
    listFiles t root entries = (payloadFiles t).map fun f => hostPath root f.1 := by
  have hpaths : (payloadFiles t).map (fun f => hostPath root f.1) =
      t.walkFiles.map (hostPath root) := by
    rw [← payloadFiles_paths, List.map_map]
    rfl
  have hperm : (entries.filter (isFile t root)).Perm (t.walkFiles.map (hostPath root)) := by
    refine (List.perm_ext_iff_of_nodup (h.nodup.filter _)
      (t.walkFiles_nodup.map (hostPath_injective root))).mpr fun path => ?_
    rw [List.mem_filter, h.mem, List.mem_map]
    constructor
    · rintro ⟨⟨p, -, rfl⟩, hfile⟩
      rw [isFile_hostPath, Option.isSome_iff_exists] at hfile
      exact ⟨p, Tree.mem_walkFiles.mpr (Tree.mem_files.mpr hfile), rfl⟩
    · rintro ⟨p, hp, rfl⟩
      have hm := Tree.mem_walkFiles.mp hp
      rw [isFile_hostPath, Option.isSome_iff_exists]
      exact ⟨⟨p, Or.inr (Or.inr hm), rfl⟩, Tree.mem_files.mp hm⟩
  have hsorted : (t.walkFiles.map (hostPath root)).Pairwise
      fun p q => p.map sortKey ≤ q.map sortKey := by
    apply List.pairwise_map.mpr
    have hwalk : t.walkFiles.Pairwise (· ≤ ·) := List.sortedLE_insertionSort.pairwise
    exact hwalk.imp fun hpq => hostPath_mono root hpq
  rw [hpaths]
  refine List.Perm.eq_of_pairwise (fun p q _ _ hpq hqp => ?_) ?_ hsorted
    ((List.perm_insertionSort _ _).trans hperm)
  · exact List.map_injective_iff.mpr sortKey_injective (le_antisymm hpq hqp)
  · exact List.pairwise_insertionSort _ _

theorem mapM_some {α β : Type} {f : α → Option β} {g : α → β} {l : List α}
    (h : ∀ a ∈ l, f a = some (g a)) : l.mapM f = some (l.map g) := by
  induction l with
  | nil => rfl
  | cons a l ih =>
    rw [List.forall_mem_cons] at h
    simp [List.mapM_cons, h.1, ih h.2]

theorem leaves_eq {entries : List HostPath} (h : Yields t root entries) :
    (listFiles t root entries).mapM (leafDigest blake3 t root) =
      some ((payloadFiles t).map fun f => blake3 (leafBytes f)) := by
  rw [listFiles_eq h, List.mapM_map]
  exact mapM_some fun f hf => leafDigest_hostPath blake3 hf

variable (t)

structure InPathOrder (files : List (RelPath × Bytes)) : Prop where
  mem : ∀ p b, (p, b) ∈ files ↔ t.read p = some b
  sorted : (files.map Prod.fst).Pairwise (· < ·)

/-- `T`, over the leaves of the files. -/
def treeRoot (files : List (RelPath × Bytes)) : String :=
  "blake3:" ++ hexEncode (treeHash (fun l r => blake3 (l.val ++ r.val)) (blake3 [])
    (files.map fun f => blake3 (pathBytes f.1 ++ 0 :: f.2))).val

variable {t}

theorem payloadFiles_inPathOrder : InPathOrder t (payloadFiles t) where
  mem _ _ := mem_payloadFiles
  sorted := by
    have hle : t.walkFiles.Pairwise (· ≤ ·) := List.sortedLE_insertionSort.pairwise
    rw [payloadFiles_paths]
    exact (hle.and t.walkFiles_nodup).imp fun h => lt_of_le_of_ne h.1 h.2

theorem InPathOrder.unique {files files' : List (RelPath × Bytes)} (h : InPathOrder t files)
    (h' : InPathOrder t files') : files = files' := by
  have hmem : ∀ f, f ∈ files ↔ f ∈ files' := fun f => (h.mem f.1 f.2).trans (h'.mem f.1 f.2).symm
  have hnodup : ∀ {l : List (RelPath × Bytes)}, (l.map Prod.fst).Pairwise (· < ·) → l.Nodup :=
    fun hl => List.Nodup.of_map _ (hl.imp fun hab => ne_of_lt hab)
  refine List.Perm.eq_of_pairwise (fun a b _ _ hab hba => absurd hab (not_lt_of_gt hba))
    (List.pairwise_map.mp h.sorted) (List.pairwise_map.mp h'.sorted)
    ((List.perm_ext_iff_of_nodup (hnodup h.sorted) (hnodup h'.sorted)).mpr hmem)

theorem computePayloadMerkleRoot_eq :
    computePayloadMerkleRoot blake3 t = treeRoot blake3 (payloadFiles t) := by
  unfold computePayloadMerkleRoot treeRoot
  by_cases hne : payloadFiles t = []
  · simp only [hne, List.map_nil, LeftComplete.treeHash_nil]
    rfl
  · have hleaves : HashTree.leafDigests (scheme blake3) (payloadFiles t) ≠ [] := by
      simpa [HashTree.leafDigests] using hne
    have hroot := LeftComplete.reduce_eq_treeHash (scheme blake3).combine (blake3 []) hleaves
    simp only [hroot]
    rfl

theorem computeRoot_eq {entries : List HostPath} (h : Yields t root entries) {fuel : ℕ}
    (hf : 4 * (payloadFiles t).length < fuel) :
    computeRoot blake3 t root fuel entries = some (computePayloadMerkleRoot blake3 t) := by
  rw [computePayloadMerkleRoot_eq, computeRoot, leaves_eq blake3 h]
  by_cases hne : payloadFiles t = []
  · simp [hne, treeRoot, LeftComplete.treeHash_nil]
  · have hleaves : (payloadFiles t).map (fun f => blake3 (leafBytes f)) ≠ [] := by
      simpa using hne
    have hrun := Loop.run_start (scheme blake3).combine (blake3 []) hleaves
      (by rw [List.length_map]; exact hf)
    simp only [Option.bind_eq_bind, Option.bind_some, if_neg hleaves, hrun]
    rfl

/-- Whatever the walk yields and wherever the root lies, the loops end, and what they leave is
the root of the left-complete tree over the files in path order. -/
theorem computeRoot_left_complete {entries : List HostPath} (h : Yields t root entries) :
    ∃ files, InPathOrder t files ∧ ∀ fuel, 4 * files.length < fuel →
      computeRoot blake3 t root fuel entries = some (treeRoot blake3 files) :=
  ⟨payloadFiles t, payloadFiles_inPathOrder, fun fuel hf => by
    rw [computeRoot_eq blake3 h hf, computePayloadMerkleRoot_eq]⟩

end

def someWalk (t : Tree) (root : HostPath) : List HostPath :=
  (([] :: t.dirs ++ t.files.keys).dedup.map (hostPath root)).reverse

theorem someWalk_yields (t : Tree) (root : HostPath) : Yields t root (someWalk t root) where
  nodup := List.nodup_reverse.mpr ((List.nodup_dedup _).map (hostPath_injective root))
  mem path := by
    simp only [someWalk, List.mem_reverse, List.mem_map, List.mem_dedup, List.cons_append,
      List.mem_cons, List.mem_append, AList.mem_keys]
    exact ⟨fun ⟨p, hp, he⟩ => ⟨p, hp, he.symm⟩, fun ⟨p, hp, he⟩ => ⟨p, hp, he.symm⟩⟩

def threeFiles : Tree :=
  (writeUnder (writeUnder (writeUnder Tree.empty "a.txt" [1]).2 "a/b" [2]).2 "c" [3]).2

theorem threeFiles_left_complete :
    ∃ files, InPathOrder threeFiles files ∧ ∀ fuel, 4 * files.length < fuel →
      computeRoot toy.blake3 threeFiles [.parentDir, .normal "in"] fuel
        (someWalk threeFiles [.parentDir, .normal "in"]) = some (treeRoot toy.blake3 files) :=
  computeRoot_left_complete toy.blake3 (someWalk_yields threeFiles _)

end QCap.PayloadRoot
