import QCap.HashTree
import Mathlib.Data.List.Induction
import Mathlib.Data.Nat.Log
import Mathlib.Algebra.Order.Ring.Nat
import Mathlib.Order.Bounds.Basic

/-!
# Left-complete trees

The tree over a list of digests that splits at the largest power of two below the length,
and the nested loops that compute it from below. A level of pairs has the same tree as the
level under it, so the loops end in its digest.
-/
namespace LeftComplete

open HashTree (nextLevel nextLevel_length nextLevel_ne_nil reduce reduce_singleton)

variable {D : Type*} (combine : D → D → D)

def splitPoint (n : ℕ) : ℕ := 2 ^ Nat.log 2 (n - 1)

theorem splitPoint_lt {n : ℕ} (h : 2 ≤ n) : splitPoint n < n := by
  have hle := Nat.pow_log_le_self 2 (x := n - 1) (by omega)
  rw [splitPoint]
  omega

theorem splitPoint_pos (n : ℕ) : 0 < splitPoint n := Nat.two_pow_pos _

/-- The largest power of two strictly below the length. -/
theorem splitPoint_isGreatest {n : ℕ} (h : 2 ≤ n) :
    IsGreatest {k | (∃ j, k = 2 ^ j) ∧ k < n} (splitPoint n) := by
  refine ⟨⟨⟨_, rfl⟩, splitPoint_lt h⟩, ?_⟩
  rintro _ ⟨⟨j, rfl⟩, hj⟩
  have hlog : j ≤ Nat.log 2 (n - 1) := Nat.le_log_of_pow_le (by decide) (by omega)
  exact Nat.pow_le_pow_right (by decide) hlog

theorem splitPoint_half {n : ℕ} (h : 3 ≤ n) : splitPoint n = 2 * splitPoint ((n + 1) / 2) := by
  have hhalf : (n + 1) / 2 - 1 = (n - 1) / 2 := by omega
  rw [splitPoint, splitPoint, hhalf, Nat.log_of_one_lt_of_le (by decide) (by omega), Nat.pow_succ,
    Nat.mul_comm]

/-- `T`: a single digest is itself, and `empty` stands for no digest at all. -/
def treeHash (empty : D) : List D → D
  | [] => empty
  | [d] => d
  | d :: e :: rest =>
    combine (treeHash empty ((d :: e :: rest).take (splitPoint (rest.length + 2))))
      (treeHash empty ((d :: e :: rest).drop (splitPoint (rest.length + 2))))
termination_by ds => ds.length
decreasing_by
  · have := splitPoint_lt (n := rest.length + 2) (by omega)
    simp only [List.length_take, List.length_cons]
    omega
  · have := splitPoint_pos (rest.length + 2)
    simp only [List.length_drop, List.length_cons]
    omega

variable {combine} {empty : D}

theorem treeHash_nil : treeHash combine empty [] = empty := by
  rw [treeHash]

theorem treeHash_singleton (d : D) : treeHash combine empty [d] = d := by
  rw [treeHash]

theorem treeHash_split {ds : List D} (h : 2 ≤ ds.length) : treeHash combine empty ds =
    combine (treeHash combine empty (ds.take (splitPoint ds.length)))
      (treeHash combine empty (ds.drop (splitPoint ds.length))) := by
  match ds, h with
  | d :: e :: rest, _ =>
    rw [treeHash]
    rfl

theorem nextLevel_append {left : List D} (h : 2 ∣ left.length) (right : List D) :
    nextLevel combine (left ++ right) = nextLevel combine left ++ nextLevel combine right := by
  induction left using List.twoStepInduction with
  | cons_cons l r rest ih _ =>
    have hrest : 2 ∣ rest.length := by
      simp only [List.length_cons] at h
      omega
    simp only [List.cons_append, nextLevel, ih hrest]
  | singleton d => simp at h
  | nil => rfl

/-- Pairs of neighbours lie on one side of every split, so the tree stays the same. -/
theorem treeHash_nextLevel (ds : List D) :
    treeHash combine empty (nextLevel combine ds) = treeHash combine empty ds := by
  induction hn : ds.length using Nat.strong_induction_on generalizing ds with
  | _ n ih =>
    match ds with
    | [] => rfl
    | [d] => rfl
    | [l, r] =>
      have hk : splitPoint 2 = 1 := by decide
      have htwo : 2 ≤ [l, r].length := le_rfl
      rw [treeHash_split htwo]
      simp only [List.length_cons, List.length_nil, Nat.zero_add, hk, List.take_succ_cons,
        List.take_zero, List.drop_succ_cons, List.drop_zero, treeHash_singleton, nextLevel]
    | l :: r :: m :: rest =>
      generalize hds : l :: r :: m :: rest = ds at hn
      have hlen : 3 ≤ ds.length := by
        rw [← hds]
        simp
      have hhalf := splitPoint_half hlen
      have hlt := splitPoint_lt (n := ds.length) (by omega)
      have hpos := splitPoint_pos ds.length
      have hleft : (ds.take (splitPoint ds.length)).length = splitPoint ds.length := by
        rw [List.length_take]
        omega
      have hcut : nextLevel combine ds = nextLevel combine (ds.take (splitPoint ds.length)) ++
          nextLevel combine (ds.drop (splitPoint ds.length)) := by
        rw [← nextLevel_append (by rw [hleft]; exact ⟨_, hhalf⟩), List.take_append_drop]
      have hnext : (nextLevel combine ds).length = (ds.length + 1) / 2 := nextLevel_length _ _
      have hfirst : (nextLevel combine (ds.take (splitPoint ds.length))).length =
          splitPoint (nextLevel combine ds).length := by
        rw [nextLevel_length, hleft, hnext]
        omega
      have hl := ih _ (by omega) (ds.take (splitPoint ds.length)) hleft
      have hr := ih _ (by omega) (ds.drop (splitPoint ds.length)) List.length_drop
      have htwo : 2 ≤ ds.length := by omega
      have hnext_two : 2 ≤ (nextLevel combine ds).length := by omega
      rw [treeHash_split htwo, treeHash_split hnext_two, ← hfirst]
      conv_lhs => rw [hcut]
      rw [List.take_left, List.drop_left, hl, hr]

theorem treeHash_reduce (fuel : ℕ) (ds : List D) :
    treeHash combine empty (reduce combine fuel ds) = treeHash combine empty ds := by
  induction fuel generalizing ds with
  | zero => rfl
  | succ fuel ih =>
    unfold reduce
    split
    · rw [ih, treeHash_nextLevel]
    · rfl

/-- The levels end in the digest of the left-complete tree. -/
theorem reduce_eq_treeHash (combine : D → D → D) (empty : D) {ds : List D} (hne : ds ≠ []) :
    reduce combine ds.length ds = [treeHash combine empty ds] := by
  obtain ⟨d, hd⟩ := reduce_singleton combine hne
  have ht : treeHash combine empty (reduce combine ds.length ds) = treeHash combine empty ds :=
    treeHash_reduce ds.length ds
  rw [hd, treeHash_singleton] at ht
  rw [hd, ht]

structure Loop (D : Type*) where
  level : List D
  next : List D
  i : ℕ

def Loop.start (level : List D) : Loop D := ⟨level, [], 0⟩

def Loop.turn (combine : D → D → D) (s : Loop D) : Option (Loop D) :=
  if 1 < s.level.length then
    match s.level.drop s.i with
    | l :: r :: _ => some ⟨s.level, s.next ++ [combine l r], s.i + 2⟩
    | [d] => some ⟨s.level, s.next ++ [d], s.i + 1⟩
    | [] => some (Loop.start s.next)
  else none

/-- The state in which the loops are left, if that is within `fuel` turns. -/
def Loop.run (combine : D → D → D) : ℕ → Loop D → Option (Loop D)
  | 0, _ => none
  | fuel + 1, s =>
    match s.turn combine with
    | none => some s
    | some s' => s'.run combine fuel

theorem Loop.run_turn {s s' : Loop D} (h : s.turn combine = some s') (fuel : ℕ) :
    s.run combine (fuel + 1) = s'.run combine fuel := by
  rw [Loop.run, h]

theorem Loop.run_inner (combine : D → D → D) {level : List D} (hlen : 1 < level.length)
    (rest next : List D) (i : ℕ) (h : level.drop i = rest) : ∃ k ≤ (rest.length + 1) / 2, ∀ fuel,
      (Loop.mk level next i).run combine (k + 1 + fuel) =
        (Loop.start (next ++ nextLevel combine rest)).run combine fuel := by
  induction rest using List.twoStepInduction generalizing next i with
  | cons_cons l r rest ih _ =>
    have hdrop : level.drop (i + 2) = rest := by
      rw [← List.drop_drop, h]
      rfl
    obtain ⟨k, hk, hrun⟩ := ih (next ++ [combine l r]) (i + 2) hdrop
    have hturn : (Loop.mk level next i).turn combine =
        some ⟨level, next ++ [combine l r], i + 2⟩ := by
      simp [Loop.turn, hlen, h]
    refine ⟨k + 1, by simp only [List.length_cons]; omega, fun fuel => ?_⟩
    rw [show k + 1 + 1 + fuel = k + 1 + fuel + 1 by omega, Loop.run_turn hturn, hrun, nextLevel,
      List.append_assoc, List.singleton_append]
  | singleton d =>
    have hturn : (Loop.mk level next i).turn combine = some ⟨level, next ++ [d], i + 1⟩ := by
      simp [Loop.turn, hlen, h]
    have hend : (Loop.mk level (next ++ [d]) (i + 1)).turn combine =
        some (Loop.start (next ++ [d])) := by
      have hdrop : level.drop (i + 1) = [] := by
        rw [← List.drop_drop, h]
        rfl
      simp [Loop.turn, hlen, hdrop]
    refine ⟨1, by simp, fun fuel => ?_⟩
    rw [show 1 + 1 + fuel = fuel + 1 + 1 by omega, Loop.run_turn hturn, Loop.run_turn hend]
    rfl
  | nil =>
    have hend : (Loop.mk level next i).turn combine = some (Loop.start next) := by
      simp [Loop.turn, hlen, h]
    refine ⟨0, Nat.zero_le _, fun fuel => ?_⟩
    rw [show 0 + 1 + fuel = fuel + 1 by omega, Loop.run_turn hend, nextLevel, List.append_nil]

/-- The loops end, within four turns for each leaf, and leave the digest of the tree. -/
theorem Loop.run_start (combine : D → D → D) (empty : D) {ds : List D} (hne : ds ≠ []) {fuel : ℕ}
    (hf : 4 * ds.length < fuel) :
    (Loop.start ds).run combine fuel = some (Loop.start [treeHash combine empty ds]) := by
  induction hn : ds.length using Nat.strong_induction_on generalizing ds fuel with
  | _ n ih =>
    by_cases hlen : 1 < ds.length
    · obtain ⟨k, hk, hrun⟩ := Loop.run_inner combine hlen ds [] 0 rfl
      have hnext := nextLevel_length combine ds
      obtain ⟨rest, rfl⟩ : ∃ rest, fuel = k + 1 + rest := ⟨fuel - (k + 1), by omega⟩
      rw [Loop.start, hrun, List.nil_append, ih _ (by omega) (nextLevel_ne_nil hne) (by omega) rfl,
        treeHash_nextLevel]
    · have hone : ds.length = 1 := by
        have := List.length_pos_iff.mpr hne
        omega
      obtain ⟨d, rfl⟩ := List.length_eq_one_iff.mp hone
      obtain ⟨fuel, rfl⟩ := Nat.exists_eq_add_of_lt (Nat.zero_lt_of_lt hf)
      rw [treeHash_singleton, Nat.zero_add, Loop.run]
      rfl

end LeftComplete
