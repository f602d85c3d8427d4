import QCap.HashTree
import QCap.PathTree
import QCap.Crypto

/-!
# The payload Merkle root

`compute_payload_merkle_root` walks a directory, hashes `path || 0x00 || contents` for each
file and combines the digests level by level. Leaves and inner nodes are hashed without a
domain tag, which is the one way in which different payloads share a root without a
collision of the hash function.
-/
namespace QCap.PayloadMerkle

open QCap.Text QCap.PathTree QCap.Crypto
open HashTree (Scheme Collides)

variable (blake3 : Bytes → Digest)

/-- The path bytes of a leaf: separators are written as `/`. -/
def pathBytes (p : RelPath) : Bytes := asBytes (replaceChar (pathString p) '\\' '/')

def leafBytes (f : RelPath × Bytes) : Bytes := pathBytes f.1 ++ 0 :: f.2

def scheme : Scheme (RelPath × Bytes) Bytes Digest where
  hash := blake3
  leafBytes := leafBytes
  nodeBytes l r := l.val ++ r.val

def payloadFiles (inputDir : Tree) : List (RelPath × Bytes) :=
  inputDir.walkFiles.filterMap fun p => (inputDir.read p).map (p, ·)

def computePayloadMerkleRoot (inputDir : Tree) : String :=
  let leaves := HashTree.leafDigests (scheme blake3) (payloadFiles inputDir)
  match HashTree.reduce (scheme blake3).combine leaves.length leaves with
  | [] => "blake3:" ++ hexEncode (blake3 []).val
  | root :: _ => "blake3:" ++ hexEncode root.val

def hashedStrings (inputDir : Tree) : List Bytes :=
  if payloadFiles inputDir = [] then [[]]
  else HashTree.hashedBytes (scheme blake3) (payloadFiles inputDir)

def innerStrings (inputDir : Tree) : List Bytes :=
  HashTree.innerBytes (scheme blake3) (payloadFiles inputDir)

theorem mem_payloadFiles {t : Tree} {p : RelPath} {b : Bytes} :
    (p, b) ∈ payloadFiles t ↔ t.read p = some b := by
  simp only [payloadFiles, List.mem_filterMap, Option.map_eq_some_iff, Prod.mk.injEq]
  constructor
  · rintro ⟨q, -, c, hr, rfl, rfl⟩; exact hr
  · intro hr
    exact ⟨p, Tree.mem_walkFiles.mpr (Tree.mem_files.mpr ⟨b, hr⟩), b, hr, rfl, rfl⟩

theorem payloadFiles_paths (t : Tree) : (payloadFiles t).map Prod.fst = t.walkFiles := by
  have h : ∀ l : List RelPath, (∀ p ∈ l, ∃ b, t.read p = some b) →
      (l.filterMap fun p => (t.read p).map (p, ·)).map Prod.fst = l := by
    intro l hl
    induction l with
    | nil => rfl
    | cons p l ih =>
      obtain ⟨b, hb⟩ := hl p (by simp)
      simp [hb, ih fun q hq => hl q (List.mem_cons_of_mem _ hq)]
  exact h _ fun p hp => Tree.mem_files.mp (Tree.mem_walkFiles.mp hp)

theorem payloadFiles_nodup (t : Tree) : ((payloadFiles t).map Prod.fst).Nodup :=
  payloadFiles_paths t ▸ t.walkFiles_nodup

def matchingFiles (allowed : String → Bool) (t : Tree) : List FileWrite :=
  ((payloadFiles t).filter fun f => allowed (pathString f.1)).map fun f => (pathString f.1, f.2)

theorem lastWrite_matchingFiles (allowed : String → Bool) (t : Tree) (p : RelPath) :
    lastWrite (matchingFiles allowed t) p =
      if allowed (pathString p) then t.read p else none := by
  have hdest : ∀ f ∈ payloadFiles t, destination (pathString f.1) = f.1 := by
    intro f hf
    have hk := Tree.mem_files.mpr ⟨f.2, mem_payloadFiles.mp hf⟩
    exact destination_pathString (Tree.file_ne_nil hk) (Tree.file_names hk)
  have hkeys : (matchingFiles allowed t).map (fun w => destination w.1) =
      ((payloadFiles t).filter fun f => allowed (pathString f.1)).map Prod.fst := by
    rw [matchingFiles, List.map_map]
    exact List.map_congr_left fun f hf => hdest f (List.mem_filter.mp hf).1
  have hnodup : ((matchingFiles allowed t).map fun w => destination w.1).Nodup := by
    rw [hkeys]
    exact (payloadFiles_nodup t).sublist (List.filter_sublist.map _)
  have hnone : ¬ (allowed (pathString p) = true ∧ ∃ b, t.read p = some b) →
      lastWrite (matchingFiles allowed t) p = none := by
    intro hn
    refine (WriteLog.last_eq_none _ _).mpr fun w hw hp => hn ?_
    obtain ⟨f, hf, rfl⟩ := List.mem_map.mp hw
    obtain ⟨hf, ha⟩ := List.mem_filter.mp hf
    rw [← hp, hdest f hf]
    exact ⟨ha, f.2, mem_payloadFiles.mp hf⟩
  by_cases ha : allowed (pathString p) = true
  · rw [if_pos ha]
    cases hb : t.read p with
    | none => exact hnone fun ⟨_, b, h⟩ => by simp [h] at hb
    | some b =>
      have hm := mem_payloadFiles.mpr hb
      have hw : (pathString p, b) ∈ matchingFiles allowed t :=
        List.mem_map.mpr ⟨(p, b), List.mem_filter.mpr ⟨hm, ha⟩, rfl⟩
      have hlast := WriteLog.last_of_nodup (fun w : FileWrite => destination w.1) (fun w => w.2)
        hnodup hw
      rw [hdest _ hm] at hlast
      exact hlast
  · rw [if_neg ha]
    exact hnone fun h => ha h.1

theorem matchingFiles_wrote (allowed : String → Bool) (t : Tree) :
    ∃ out, Wrote (matchingFiles allowed t) Tree.empty out ∧
      ∀ w ∈ matchingFiles allowed t, validateRelativePath w.1 = .ok () := by
  have hmem : ∀ f ∈ (payloadFiles t).filter fun f => allowed (pathString f.1), f.1 ∈ t.files :=
    fun f hf => Tree.mem_files.mpr ⟨f.2, mem_payloadFiles.mp (List.mem_filter.mp hf).1⟩
  obtain ⟨out, hw, -⟩ := (Tree.empty_within t).wrote _ hmem
  refine ⟨out, hw, fun w hw => ?_⟩
  obtain ⟨f, hf, rfl⟩ := List.mem_map.mp hw
  exact validate_pathString (Tree.file_ne_nil (hmem f hf)) (Tree.file_names (hmem f hf))

theorem payloadFiles_congr {t u : Tree} (h : ∀ p, t.read p = u.read p) :
    payloadFiles t = payloadFiles u := by
  have hm : ∀ p, p ∈ t.files ↔ p ∈ u.files := fun p => by
    rw [Tree.mem_files, Tree.mem_files, h]
  simp only [payloadFiles, Tree.walkFiles_congr hm, h]

theorem root_congr {t u : Tree} (h : ∀ p, t.read p = u.read p) :
    computePayloadMerkleRoot blake3 t = computePayloadMerkleRoot blake3 u := by
  simp only [computePayloadMerkleRoot, payloadFiles_congr h]

/-- Every root has the documented form, so it holds no delimiter. -/
theorem root_form (t : Tree) :
    ∃ d : Digest, computePayloadMerkleRoot blake3 t = "blake3:" ++ hexEncode d.val := by
  unfold computePayloadMerkleRoot
  simp only
  split
  · exact ⟨_, rfl⟩
  · exact ⟨_, rfl⟩

theorem root_free (t : Tree) {d : Char} (hd : isLowerHex d = false)
    (hb : Free d "blake3:") : Free d (computePayloadMerkleRoot blake3 t) := by
  obtain ⟨r, hr⟩ := root_form blake3 t
  rw [hr]
  exact free_append.mpr ⟨hb, hexEncode_free hd _⟩

/-- Names that the backslash replacement leaves alone. NUL and `/` are no part of any name. -/
def PlainNames (t : Tree) : Prop := ∀ p ∈ t.files.keys, ∀ n ∈ p, Free '\\' n

instance (t : Tree) : Decidable (PlainNames t) :=
  inferInstanceAs (Decidable (∀ p ∈ t.files.keys, ∀ n ∈ p, Free '\\' n))

theorem mem_pathString {p : RelPath} {c : Char} (h : c ∈ (pathString p).toList) :
    c = '/' ∨ ∃ n ∈ p, c ∈ n.toList := by
  induction p with
  | nil => simp [pathString, joinWith] at h
  | cons n p ih =>
    cases p with
    | nil => exact Or.inr ⟨n, by simp, by simpa [pathString, joinWith_singleton] using h⟩
    | cons m p =>
      rw [pathString, joinWith_cons_cons, String.toList_append, String.toList_append,
        List.mem_append, List.mem_append] at h
      rcases h with (h | h) | h
      · exact Or.inr ⟨n, by simp, h⟩
      · exact Or.inl (by simpa using h)
      · rcases ih h with h | ⟨k, hk, h⟩
        · exact Or.inl h
        · exact Or.inr ⟨k, List.mem_cons_of_mem _ hk, h⟩

theorem replaceChar_free {s : String} {c d : Char} (h : Free c s) : replaceChar s c d = s := by
  rw [← String.toList_inj, replaceChar, String.toList_ofList]
  conv_rhs => rw [← List.map_id s.toList]
  apply List.map_congr_left
  intro x hx
  have : x ≠ c := fun he => h (he ▸ hx)
  simp [this]

theorem pathString_free {p : RelPath} {c : Char} (hc : c ≠ '/') (h : ∀ n ∈ p, Free c n) :
    Free c (pathString p) := by
  intro hm
  rcases mem_pathString hm with he | ⟨n, hn, hm⟩
  · exact hc he
  · exact h n hn hm

/-- The zero byte separates path and contents: paths cannot contain it. -/
theorem leafBytes_injective {t u : Tree} (ht : PlainNames t) (hu : PlainNames u)
    {f g : RelPath × Bytes} (hf : f ∈ payloadFiles t) (hg : g ∈ payloadFiles u)
    (h : leafBytes f = leafBytes g) : f = g := by
  obtain ⟨p, b⟩ := f
  obtain ⟨q, c⟩ := g
  have hp := Tree.mem_files.mpr ⟨b, mem_payloadFiles.mp hf⟩
  have hq := Tree.mem_files.mpr ⟨c, mem_payloadFiles.mp hg⟩
  have np := t.names p (Or.inr hp)
  have nq := u.names q (Or.inr hq)
  have rp := replaceChar_free (d := '/') (pathString_free (by decide) (ht p hp))
  have rq := replaceChar_free (d := '/') (pathString_free (by decide) (hu q hq))
  have zp := zero_not_mem_asBytes (pathString_free (c := '\x00') (by decide)
    fun n hn => (np n hn).2.2.2.2)
  have zq := zero_not_mem_asBytes (pathString_free (c := '\x00') (by decide)
    fun n hn => (nq n hn).2.2.2.2)
  simp only [leafBytes, pathBytes, rp, rq] at h
  obtain ⟨hpath, hbytes⟩ := cons_split_unique zp zq h
  have ep : p ≠ [] := fun he => t.root_directory (he ▸ hp)
  have eq : q ≠ [] := fun he => u.root_directory (he ▸ hq)
  exact Prod.ext (pathString_injective ep eq np nq (asBytes_injective hpath)) hbytes

theorem leaves_injective {t u : Tree} (ht : PlainNames t) (hu : PlainNames u)
    (h : (payloadFiles t).map leafBytes = (payloadFiles u).map leafBytes) :
    payloadFiles t = payloadFiles u := by
  have hl : (payloadFiles t).length = (payloadFiles u).length := by
    simpa using congrArg List.length h
  apply List.ext_getElem hl
  intro i hi hj
  apply leafBytes_injective ht hu (List.getElem_mem hi) (List.getElem_mem hj)
  have hi' := congrArg (fun l => l[i]?) h
  simpa [hi, hj] using hi'

theorem read_of_payloadFiles {t u : Tree} (h : payloadFiles t = payloadFiles u) (p : RelPath) :
    t.read p = u.read p := by
  apply Option.ext
  intro b
  rw [← mem_payloadFiles, ← mem_payloadFiles, h]

theorem nodeBytes_injective (a b c d : Digest)
    (h : (scheme blake3).nodeBytes a b = (scheme blake3).nodeBytes c d) : a = c ∧ b = d := by
  obtain ⟨h₁, h₂⟩ := List.append_inj h (a.property.trans c.property.symm)
  exact ⟨Subtype.ext h₁, Subtype.ext h₂⟩

theorem root_of_reduce {t : Tree} {d : Digest}
    (h : HashTree.reduce (scheme blake3).combine (payloadFiles t).length
      (HashTree.leafDigests (scheme blake3) (payloadFiles t)) = [d]) :
    computePayloadMerkleRoot blake3 t = "blake3:" ++ hexEncode d.val := by
  simp only [computePayloadMerkleRoot, HashTree.leafDigests, List.length_map] at h ⊢
  rw [h]

theorem root_empty {t : Tree} (h : payloadFiles t = []) :
    computePayloadMerkleRoot blake3 t = "blake3:" ++ hexEncode (blake3 []).val := by
  simp [computePayloadMerkleRoot, HashTree.leafDigests, h, HashTree.reduce]

theorem root_string_injective {a b : Digest}
    (h : "blake3:" ++ hexEncode a.val = "blake3:" ++ hexEncode b.val) : a = b := by
  apply Subtype.ext
  apply hexEncode_injective
  rw [← String.toList_inj] at h ⊢
  simpa [String.toList_append] using h

/-- The root of a nonempty payload is no digest of the empty string, short of a collision. -/
theorem root_empty_collides {t u : Tree} (ht : payloadFiles t = []) (hu : payloadFiles u ≠ [])
    (h : computePayloadMerkleRoot blake3 t = computePayloadMerkleRoot blake3 u) :
    Collides blake3 (hashedStrings blake3 t ++ hashedStrings blake3 u) := by
  obtain ⟨b, hr, hb, hkind⟩ := HashTree.reduce_preimage (scheme blake3) hu
  rw [root_empty blake3 ht, root_of_reduce blake3 hr] at h
  refine ⟨[], by simp [hashedStrings, ht], b, ?_, ?_, root_string_injective h⟩
  · rw [hashedStrings, hashedStrings, if_neg hu]
    exact List.mem_append_right _ hb
  · rcases hkind with ⟨f, -, rfl⟩ | ⟨l, r, rfl⟩
    · exact fun he => by simpa [scheme, leafBytes] using congrArg List.length he
    · intro he
      have hl := congrArg List.length he
      simp only [scheme, List.length_nil, List.length_append, l.property] at hl
      omega

/-- A root binds its payload up to a collision, or up to a file whose hashed string is at
the same time two concatenated digests of the other payload: nothing tags the two kinds. -/
theorem merkle_root_binds_payload {t u : Tree} (ht : PlainNames t) (hu : PlainNames u)
    (h : computePayloadMerkleRoot blake3 t = computePayloadMerkleRoot blake3 u) :
    (∀ p, t.read p = u.read p) ∨
    Collides blake3 (hashedStrings blake3 t ++ hashedStrings blake3 u) ∨
    (∃ f ∈ payloadFiles t, leafBytes f ∈ innerStrings blake3 u) ∨
    (∃ f ∈ payloadFiles u, leafBytes f ∈ innerStrings blake3 t) := by
  by_cases et : payloadFiles t = []
  · by_cases eu : payloadFiles u = []
    · exact Or.inl (read_of_payloadFiles (et.trans eu.symm))
    · exact Or.inr (Or.inl (root_empty_collides blake3 et eu h))
  by_cases eu : payloadFiles u = []
  · refine Or.inr (Or.inl ((root_empty_collides blake3 eu et h.symm).mono ?_))
    intro x hx
    exact List.mem_append.mpr (List.mem_append.mp hx).symm
  obtain ⟨b, hb, -, -⟩ := HashTree.reduce_preimage (scheme blake3) et
  obtain ⟨c, hc, -, -⟩ := HashTree.reduce_preimage (scheme blake3) eu
  have hroot := h
  rw [root_of_reduce blake3 hb, root_of_reduce blake3 hc] at hroot
  have hbind := HashTree.reduce_binding (scheme blake3) (nodeBytes_injective blake3) et eu
    (by rw [hb, hc, root_string_injective hroot])
  rcases hbind with hbind | hbind | hbind | hbind
  · exact Or.inl (read_of_payloadFiles (leaves_injective ht hu hbind))
  · rw [hashedStrings, hashedStrings, if_neg et, if_neg eu]
    exact Or.inr (Or.inl hbind)
  · exact Or.inr (Or.inr (Or.inl hbind))
  · exact Or.inr (Or.inr (Or.inr hbind))

def splitPayload : Tree := (writeUnder (writeUnder Tree.empty "a" []).2 "b" []).2

def digestA : Digest := pad 32 [120]
def digestB : Digest := pad 32 (List.replicate 32 1)

def mergedPayload : Tree :=
  (writeUnder Tree.empty "x" (List.replicate 30 0 ++ digestB.val)).2

/-- Injective on every string that the two computations hash. -/
def splittingHash (b : Bytes) : Digest :=
  if b = [97, 0] then digestA else if b = [98, 0] then digestB else pad 32 [2]

def reorderedPayload : Tree := (writeUnder (writeUnder Tree.empty "b" []).2 "a" []).2

theorem merkle_root_binds_reordered :
    (∀ p, splitPayload.read p = reorderedPayload.read p) ∨
    Collides splittingHash
      (hashedStrings splittingHash splitPayload ++ hashedStrings splittingHash reorderedPayload) ∨
    (∃ f ∈ payloadFiles splitPayload, leafBytes f ∈ innerStrings splittingHash reorderedPayload) ∨
    (∃ f ∈ payloadFiles reorderedPayload, leafBytes f ∈ innerStrings splittingHash splitPayload) :=
  merkle_root_binds_payload splittingHash (by decide) (by decide) (by decide)

theorem merkle_root_confusion :
    PlainNames splitPayload ∧ PlainNames mergedPayload ∧
    computePayloadMerkleRoot splittingHash splitPayload =
      computePayloadMerkleRoot splittingHash mergedPayload ∧
    splitPayload.read ["a"] ≠ mergedPayload.read ["a"] ∧
    ¬ Collides splittingHash
      (hashedStrings splittingHash splitPayload ++ hashedStrings splittingHash mergedPayload) := by
  refine ⟨by decide, by decide, by decide, by decide, ?_⟩
  unfold Collides
  decide

end QCap.PayloadMerkle
