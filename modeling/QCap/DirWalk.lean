import Mathlib.Data.List.Sort
import Mathlib.Data.List.Nodup
import Mathlib.Tactic.Common

/-!
# Directory walks

A walk yields the entries below a root, each as the names that lead to it. An entry that is not
delivered leaves an error in its place, and nothing below it comes up. A caller that drops the
errors is left with the entries that were reached, and cannot tell that there were others.
-/
namespace DirWalk

variable {ν α : Type*}

section Walk

variable (lost : List ν → Bool)

def hidden (p : List ν) : Bool := (List.range p.length).any fun n => lost (p.take n)

def reaches (p : List ν) : Bool := (List.range (p.length + 1)).all fun n => !lost (p.take n)

def items (entries : List (List ν)) : List (Except (List ν) (List ν)) :=
  entries.filterMap fun p =>
    if hidden lost p then none else if lost p then some (.error p) else some (.ok p)

def delivered (entries : List (List ν)) : List (List ν) :=
  (items lost entries).filterMap Except.toOption

theorem reaches_iff {p : List ν} : reaches lost p = true ↔ ∀ q, q <+: p → lost q = false := by
  rw [reaches, List.all_eq_true]
  constructor
  · intro h q hq
    have hlt : q.length ∈ List.range (p.length + 1) :=
      List.mem_range.mpr (Nat.lt_succ_of_le hq.length_le)
    have htake : p.take q.length = q := (List.prefix_iff_eq_take.mp hq).symm
    simpa [htake] using h q.length hlt
  · intro h n _
    simpa using h _ (List.take_prefix n p)

theorem reaches_eq (p : List ν) : reaches lost p = (!hidden lost p && !lost p) := by
  rw [reaches, hidden, List.range_succ, List.all_append, List.not_any_eq_all_not]
  simp

theorem delivered_eq (entries : List (List ν)) :
    delivered lost entries = entries.filter (reaches lost) := by
  rw [delivered, items, List.filterMap_filterMap, ← List.filterMap_eq_filter]
  apply List.filterMap_congr
  intro p _
  simp only [Option.guard, reaches_eq]
  cases hidden lost p with
  | true => rfl
  | false => cases lost p <;> rfl

end Walk

section Files

variable (r : List ν → List ν → Prop) [DecidableRel r] (lost : List ν → Bool)
  (isFile : List ν → Bool)

def files (entries : List (List ν)) : List (List ν) :=
  ((delivered lost entries).filter isFile).insertionSort r

theorem mem_files {entries : List (List ν)} {p : List ν} :
    p ∈ files r lost isFile entries ↔ p ∈ entries ∧ reaches lost p = true ∧ isFile p = true := by
  rw [files, List.mem_insertionSort, List.mem_filter, delivered_eq, List.mem_filter, and_assoc]

theorem files_perm (entries : List (List ν)) :
    (files r lost isFile entries).Perm ((entries.filter isFile).filter (reaches lost)) := by
  rw [files, delivered_eq, List.filter_filter, List.filter_filter]
  simp only [Bool.and_comm]
  exact List.perm_insertionSort r _

theorem files_nodup {entries : List (List ν)} (h : (entries.filter isFile).Nodup) :
    (files r lost isFile entries).Nodup :=
  (files_perm r lost isFile entries).nodup_iff.mpr (h.filter _)

end Files

theorem filter_eq_singleton {l : List α} (hn : l.Nodup) {keep : α → Bool} {a : α} :
    l.filter keep = [a] ↔ a ∈ l ∧ keep a = true ∧ ∀ b ∈ l, keep b = true → b = a := by
  constructor
  · intro h
    have hmem : ∀ b, b ∈ l ∧ keep b = true ↔ b = a := by
      intro b
      rw [← List.mem_filter, h, List.mem_singleton]
    obtain ⟨ha, hk⟩ := (hmem a).mpr rfl
    exact ⟨ha, hk, fun b hb hkb => (hmem b).mp ⟨hb, hkb⟩⟩
  · rintro ⟨ha, hk, hall⟩
    rw [← List.perm_singleton]
    apply (List.perm_ext_iff_of_nodup (hn.filter keep) (List.nodup_singleton a)).mpr
    intro b
    rw [List.mem_filter, List.mem_singleton]
    constructor
    · rintro ⟨hb, hkb⟩
      exact hall b hb hkb
    · rintro rfl
      exact ⟨ha, hk⟩

end DirWalk
