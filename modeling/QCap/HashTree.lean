import Mathlib.Data.List.Basic
import Mathlib.Tactic.Common

/-!
# Pairwise hash trees

Level-by-level reduction of a list of digests: neighbours are combined, an unpaired last
digest is promoted unchanged. Running the same reduction on symbolic trees recovers the
shape of the computation, and equal digests then bind the leaves, up to a collision among
the hashed strings or a leaf whose preimage is also the preimage of an inner node.
Nothing here separates the two domains; the caller decides whether its encoding does.
-/
namespace HashTree

variable {α B D E : Type*}

inductive Tree (α : Type*) where
  | leaf (a : α)
  | node (l r : Tree α)
  deriving DecidableEq, Repr

def nextLevel (combine : D → D → D) : List D → List D
  | l :: r :: rest => combine l r :: nextLevel combine rest
  | [d] => [d]
  | [] => []

/-- `while level.len() > 1`, with fuel. `reduce_singleton` shows that the length suffices. -/
def reduce (combine : D → D → D) : ℕ → List D → List D
  | 0, level => level
  | fuel + 1, level =>
    if 1 < level.length then reduce combine fuel (nextLevel combine level) else level

theorem nextLevel_length (combine : D → D → D) (level : List D) :
    (nextLevel combine level).length = (level.length + 1) / 2 := by
  induction level using nextLevel.induct with
  | case1 l r rest ih => simp only [nextLevel, List.length_cons, ih]; omega
  | case2 d => simp [nextLevel]
  | case3 => simp [nextLevel]

theorem nextLevel_ne_nil {combine : D → D → D} {level : List D} (h : level ≠ []) :
    nextLevel combine level ≠ [] := by
  rw [← List.length_pos_iff] at h ⊢
  rw [nextLevel_length]
  omega

/-- Each pass over more than one digest is shorter, so the loop ends in a single digest. -/
theorem reduce_length (combine : D → D → D) (fuel : ℕ) (level : List D) (hne : level ≠ [])
    (hf : level.length ≤ fuel) : (reduce combine fuel level).length = 1 := by
  induction fuel generalizing level with
  | zero => exact absurd (List.length_eq_zero_iff.mp (by omega)) hne
  | succ fuel ih =>
    have hpos := List.length_pos_iff.mpr hne
    unfold reduce
    split
    · apply ih _ (nextLevel_ne_nil hne)
      rw [nextLevel_length]
      omega
    · omega

theorem reduce_singleton (combine : D → D → D) {level : List D} (hne : level ≠ []) :
    ∃ d, reduce combine level.length level = [d] :=
  List.length_eq_one_iff.mp (reduce_length combine _ level hne (Nat.le_refl _))

theorem map_nextLevel {c : D → D → D} {c' : E → E → E} {f : D → E}
    (hf : ∀ a b, f (c a b) = c' (f a) (f b)) (level : List D) :
    (nextLevel c level).map f = nextLevel c' (level.map f) := by
  induction level using nextLevel.induct with
  | case1 l r rest ih => simp [nextLevel, hf, ih]
  | case2 d => rfl
  | case3 => rfl

/-- The loop is uniform in the digests: a map that respects `combine` commutes with it. -/
theorem map_reduce {c : D → D → D} {c' : E → E → E} {f : D → E}
    (hf : ∀ a b, f (c a b) = c' (f a) (f b)) (fuel : ℕ) (level : List D) :
    (reduce c fuel level).map f = reduce c' fuel (level.map f) := by
  induction fuel generalizing level with
  | zero => rfl
  | succ fuel ih =>
    simp only [reduce, List.length_map]
    split
    · rw [ih, map_nextLevel hf]
    · rfl

def Tree.leaves : Tree α → List α
  | .leaf a => [a]
  | .node l r => l.leaves ++ r.leaves

theorem leaves_nextLevel (level : List (Tree α)) :
    (nextLevel Tree.node level).flatMap Tree.leaves = level.flatMap Tree.leaves := by
  induction level using nextLevel.induct with
  | case1 l r rest ih => simp [nextLevel, Tree.leaves, ih]
  | case2 d => rfl
  | case3 => rfl

theorem leaves_reduce (fuel : ℕ) (level : List (Tree α)) :
    (reduce Tree.node fuel level).flatMap Tree.leaves = level.flatMap Tree.leaves := by
  induction fuel generalizing level with
  | zero => rfl
  | succ fuel ih =>
    unfold reduce
    split
    · rw [ih, leaves_nextLevel]
    · rfl

theorem exists_tree (xs : List α) (hne : xs ≠ []) :
    ∃ t : Tree α, reduce Tree.node xs.length (xs.map Tree.leaf) = [t] ∧ t.leaves = xs := by
  have hm : xs.map Tree.leaf ≠ [] := by simpa using hne
  obtain ⟨t, ht⟩ := reduce_singleton Tree.node hm
  rw [List.length_map] at ht
  refine ⟨t, ht, ?_⟩
  have hl := leaves_reduce xs.length (xs.map Tree.leaf)
  rw [ht] at hl
  simpa [Tree.leaves, List.flatMap_map, List.flatMap_singleton'] using hl

structure Scheme (α B D : Type*) where
  hash : B → D
  leafBytes : α → B
  nodeBytes : D → D → B

variable (S : Scheme α B D)

def Scheme.combine (l r : D) : D := S.hash (S.nodeBytes l r)

def Tree.digest : Tree α → D
  | .leaf a => S.hash (S.leafBytes a)
  | .node l r => S.combine l.digest r.digest

def Tree.inner : Tree α → List B
  | .leaf _ => []
  | .node l r => S.nodeBytes (l.digest S) (r.digest S) :: (l.inner ++ r.inner)

def Tree.hashed (t : Tree α) : List B := t.leaves.map S.leafBytes ++ t.inner S

def Collides (hash : B → D) (xs : List B) : Prop :=
  ∃ x ∈ xs, ∃ y ∈ xs, x ≠ y ∧ hash x = hash y

/-- A string hashed for a leaf of `s` that is also hashed for an inner node of `t`. -/
def Confused (s t : Tree α) : Prop := ∃ a ∈ s.leaves, S.leafBytes a ∈ t.inner S

theorem Collides.mono {hash : B → D} {xs ys : List B} (h : Collides hash xs)
    (hs : ∀ x ∈ xs, x ∈ ys) : Collides hash ys := by
  obtain ⟨x, hx, y, hy, hne, he⟩ := h
  exact ⟨x, hs x hx, y, hs y hy, hne, he⟩

theorem Confused.mono {s s' t t' : Tree α} (h : Confused S s t)
    (hs : ∀ a ∈ s.leaves, a ∈ s'.leaves) (ht : ∀ b ∈ t.inner S, b ∈ t'.inner S) :
    Confused S s' t' := by
  obtain ⟨a, ha, hb⟩ := h
  exact ⟨a, hs a ha, ht _ hb⟩

theorem digest_reduce (xs : List α) {t : Tree α}
    (ht : reduce Tree.node xs.length (xs.map Tree.leaf) = [t]) :
    reduce S.combine xs.length (xs.map fun a => S.hash (S.leafBytes a)) = [t.digest S] := by
  have hf : ∀ l r : Tree α, (Tree.node l r).digest S = S.combine (l.digest S) (r.digest S) :=
    fun _ _ => rfl
  have h := map_reduce hf xs.length (xs.map Tree.leaf)
  rw [ht, List.map_map] at h
  exact h.symm

def pairBytes : List D → List B
  | l :: r :: rest => S.nodeBytes l r :: pairBytes rest
  | _ => []

def loopBytes : ℕ → List D → List B
  | 0, _ => []
  | fuel + 1, level =>
    if 1 < level.length then
      pairBytes S level ++ loopBytes fuel (nextLevel S.combine level) else []

theorem inner_nextLevel (ts : List (Tree α)) (b : B) :
    b ∈ (nextLevel Tree.node ts).flatMap (Tree.inner S) ↔
      b ∈ ts.flatMap (Tree.inner S) ∨ b ∈ pairBytes S (ts.map (Tree.digest S)) := by
  induction ts using nextLevel.induct with
  | case1 l r rest ih =>
    simp only [nextLevel, List.flatMap_cons, List.mem_append, ih, Tree.inner, List.mem_cons,
      List.map_cons, pairBytes]
    tauto
  | case2 t => simp [nextLevel, pairBytes]
  | case3 => simp [nextLevel, pairBytes]

theorem inner_reduce (fuel : ℕ) (ts : List (Tree α)) (b : B) :
    b ∈ (reduce Tree.node fuel ts).flatMap (Tree.inner S) ↔
      b ∈ ts.flatMap (Tree.inner S) ∨ b ∈ loopBytes S fuel (ts.map (Tree.digest S)) := by
  induction fuel generalizing ts with
  | zero => simp [reduce, loopBytes]
  | succ fuel ih =>
    simp only [reduce, loopBytes, List.length_map]
    split
    · have hf : ∀ l r : Tree α, (Tree.node l r).digest S = S.combine (l.digest S) (r.digest S) :=
        fun _ _ => rfl
      rw [ih, inner_nextLevel, map_nextLevel hf, List.mem_append, or_assoc]
    · simp

/-- The three ways in which two trees can share a digest. -/
def Bound (s t : Tree α) : Prop :=
  s.leaves.map S.leafBytes = t.leaves.map S.leafBytes ∨
  Collides S.hash (s.hashed S ++ t.hashed S) ∨ Confused S s t ∨ Confused S t s

/-- Equal preimages of two inner nodes reduce the question to both pairs of children. -/
theorem Bound.node {l r l' r' : Tree α} (hl : Bound S l l') (hr : Bound S r r') :
    Bound S (.node l r) (.node l' r') := by
  have left (x : B) (hx : x ∈ l.hashed S ++ l'.hashed S) :
      x ∈ (Tree.node l r).hashed S ++ (Tree.node l' r').hashed S := by
    simp only [Tree.hashed, Tree.leaves, Tree.inner, List.mem_append, List.map_append,
      List.mem_cons] at hx ⊢
    tauto
  have right (x : B) (hx : x ∈ r.hashed S ++ r'.hashed S) :
      x ∈ (Tree.node l r).hashed S ++ (Tree.node l' r').hashed S := by
    simp only [Tree.hashed, Tree.leaves, Tree.inner, List.mem_append, List.map_append,
      List.mem_cons] at hx ⊢
    tauto
  rcases hl with hl | hl | hl | hl
  · rcases hr with hr | hr | hr | hr
    · exact Or.inl (by simp [Tree.leaves, hl, hr])
    · exact Or.inr (Or.inl (hr.mono right))
    · exact Or.inr (Or.inr (Or.inl (hr.mono S (by simp +contextual [Tree.leaves])
        (by simp +contextual [Tree.inner]))))
    · exact Or.inr (Or.inr (Or.inr (hr.mono S (by simp +contextual [Tree.leaves])
        (by simp +contextual [Tree.inner]))))
  · exact Or.inr (Or.inl (hl.mono left))
  · exact Or.inr (Or.inr (Or.inl (hl.mono S (by simp +contextual [Tree.leaves])
      (by simp +contextual [Tree.inner]))))
  · exact Or.inr (Or.inr (Or.inr (hl.mono S (by simp +contextual [Tree.leaves])
      (by simp +contextual [Tree.inner]))))

theorem digest_binding (hnode : ∀ a b c d, S.nodeBytes a b = S.nodeBytes c d → a = c ∧ b = d)
    (s t : Tree α) (h : s.digest S = t.digest S) : Bound S s t := by
  classical
  induction s generalizing t with
  | leaf a =>
    cases t with
    | leaf b =>
      by_cases he : S.leafBytes a = S.leafBytes b
      · exact Or.inl (by simp [Tree.leaves, he])
      · exact Or.inr (Or.inl ⟨_, by simp [Tree.hashed, Tree.leaves], _,
          by simp [Tree.hashed, Tree.leaves], he, h⟩)
    | node l r =>
      by_cases he : S.leafBytes a = S.nodeBytes (l.digest S) (r.digest S)
      · exact Or.inr (Or.inr (Or.inl ⟨a, by simp [Tree.leaves], by simp [Tree.inner, he]⟩))
      · exact Or.inr (Or.inl ⟨_, by simp [Tree.hashed, Tree.leaves],
          S.nodeBytes (l.digest S) (r.digest S), by simp [Tree.hashed, Tree.inner], he, h⟩)
  | node l r ihl ihr =>
    cases t with
    | leaf b =>
      by_cases he : S.leafBytes b = S.nodeBytes (l.digest S) (r.digest S)
      · exact Or.inr (Or.inr (Or.inr ⟨b, by simp [Tree.leaves], by simp [Tree.inner, he]⟩))
      · exact Or.inr (Or.inl ⟨S.leafBytes b, by simp [Tree.hashed, Tree.leaves],
          S.nodeBytes (l.digest S) (r.digest S), by simp [Tree.hashed, Tree.inner], he, h.symm⟩)
    | node l' r' =>
      by_cases he : S.nodeBytes (l.digest S) (r.digest S) = S.nodeBytes (l'.digest S) (r'.digest S)
      · obtain ⟨hl, hr⟩ := hnode _ _ _ _ he
        exact (ihl l' hl).node S (ihr r' hr)
      · exact Or.inr (Or.inl ⟨_, by simp [Tree.hashed, Tree.inner],
          S.nodeBytes (l'.digest S) (r'.digest S), by simp [Tree.hashed, Tree.inner], he, h⟩)

def leafDigests (xs : List α) : List D := xs.map fun a => S.hash (S.leafBytes a)

def innerBytes (xs : List α) : List B := loopBytes S xs.length (leafDigests S xs)

def hashedBytes (xs : List α) : List B := xs.map S.leafBytes ++ innerBytes S xs

theorem mem_innerBytes {xs : List α} {t : Tree α}
    (ht : reduce Tree.node xs.length (xs.map Tree.leaf) = [t]) (b : B) :
    b ∈ t.inner S ↔ b ∈ innerBytes S xs := by
  have h := inner_reduce S xs.length (xs.map Tree.leaf) b
  rw [ht] at h
  simpa [Tree.inner, innerBytes, leafDigests, List.map_map, List.flatMap_map, Function.comp_def,
    Tree.digest] using h

theorem mem_hashedBytes {xs : List α} {t : Tree α}
    (ht : reduce Tree.node xs.length (xs.map Tree.leaf) = [t]) (hl : t.leaves = xs) (b : B) :
    b ∈ t.hashed S ↔ b ∈ hashedBytes S xs := by
  simp only [Tree.hashed, hashedBytes, List.mem_append, hl, mem_innerBytes S ht]

theorem reduce_preimage {xs : List α} (hx : xs ≠ []) :
    ∃ b, reduce S.combine xs.length (leafDigests S xs) = [S.hash b] ∧ b ∈ hashedBytes S xs ∧
      ((∃ a ∈ xs, b = S.leafBytes a) ∨ ∃ l r, b = S.nodeBytes l r) := by
  obtain ⟨t, ht, hl⟩ := exists_tree xs hx
  rw [leafDigests, digest_reduce S xs ht]
  have hm := mem_hashedBytes S ht hl
  cases t with
  | leaf a =>
    exact ⟨S.leafBytes a, rfl, (hm _).mp (by simp [Tree.hashed, Tree.leaves]),
      Or.inl ⟨a, hl ▸ by simp [Tree.leaves], rfl⟩⟩
  | node l r =>
    exact ⟨S.nodeBytes (l.digest S) (r.digest S), rfl,
      (hm _).mp (by simp [Tree.hashed, Tree.inner]), Or.inr ⟨_, _, rfl⟩⟩

/-- Two nonempty lists of leaves with one root are the same encoded leaves, or exhibit a
collision, or one of them has a leaf whose encoding is an inner node of the other. -/
theorem reduce_binding (hnode : ∀ a b c d, S.nodeBytes a b = S.nodeBytes c d → a = c ∧ b = d)
    {xs ys : List α} (hx : xs ≠ []) (hy : ys ≠ [])
    (h : reduce S.combine xs.length (leafDigests S xs) =
      reduce S.combine ys.length (leafDigests S ys)) :
    xs.map S.leafBytes = ys.map S.leafBytes ∨
    Collides S.hash (hashedBytes S xs ++ hashedBytes S ys) ∨
    (∃ a ∈ xs, S.leafBytes a ∈ innerBytes S ys) ∨ ∃ a ∈ ys, S.leafBytes a ∈ innerBytes S xs := by
  obtain ⟨s, hs, hsl⟩ := exists_tree xs hx
  obtain ⟨t, ht, htl⟩ := exists_tree ys hy
  have hd : s.digest S = t.digest S := by
    rw [leafDigests, leafDigests, digest_reduce S xs hs, digest_reduce S ys ht] at h
    exact List.singleton_inj.mp h
  rcases digest_binding S hnode s t hd with hb | hb | hb | hb
  · exact Or.inl (by rw [← hsl, ← htl, hb])
  · refine Or.inr (Or.inl (hb.mono ?_))
    intro b hm
    rw [List.mem_append] at hm ⊢
    rwa [← mem_hashedBytes S hs hsl, ← mem_hashedBytes S ht htl]
  · obtain ⟨a, ha, hin⟩ := hb
    exact Or.inr (Or.inr (Or.inl ⟨a, hsl ▸ ha, (mem_innerBytes S ht _).mp hin⟩))
  · obtain ⟨a, ha, hin⟩ := hb
    exact Or.inr (Or.inr (Or.inr ⟨a, htl ▸ ha, (mem_innerBytes S hs _).mp hin⟩))

end HashTree
