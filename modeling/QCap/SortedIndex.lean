import Mathlib.Data.List.AList
import Mathlib.Data.List.Sort
import Mathlib.Order.Defs.LinearOrder

/-!
# Sorted indexes

An index is a list of records that is strictly sorted by a key. It is maintained in two
ways: one record at a time, replacing the record of its key or adding it and sorting again,
and from a finite map. A strictly sorted list is determined by its members, so both agree
whenever they hold the same records.
-/
namespace SortedIndex

variable {α K : Type*} [LinearOrder K] (key : α → K)

def Sorted (l : List α) : Prop := l.Pairwise fun a b => key a < key b

def sortByKey (l : List α) : List α := l.mergeSort fun a b => decide (key a ≤ key b)

@[simp] theorem mem_sortByKey {l : List α} {a : α} : a ∈ sortByKey key l ↔ a ∈ l :=
  List.mem_mergeSort

theorem sorted_sortByKey {l : List α} (h : (l.map key).Nodup) : Sorted key (sortByKey key l) := by
  have htrans : ∀ a b c, decide (key a ≤ key b) = true → decide (key b ≤ key c) = true →
      decide (key a ≤ key c) = true := by
    simpa using fun a b c => le_trans (a := key a) (b := key b) (c := key c)
  have htotal : ∀ a b, (decide (key a ≤ key b) || decide (key b ≤ key a)) = true := by
    simpa using fun a b => le_total (key a) (key b)
  have hle : (sortByKey key l).Pairwise fun a b => key a ≤ key b :=
    (List.pairwise_mergeSort htrans htotal l).imp of_decide_eq_true
  have hne : (sortByKey key l).Pairwise fun a b => key a ≠ key b := by
    rw [← List.pairwise_map (f := key) (R := fun x y => x ≠ y)]
    exact ((List.mergeSort_perm l _).map key).nodup_iff.mpr h
  exact (hle.and hne).imp fun h => lt_of_le_of_ne h.1 h.2

theorem Sorted.nodup_keys {l : List α} (h : Sorted key l) : (l.map key).Nodup :=
  List.pairwise_map.mpr (h.imp ne_of_lt)

theorem Sorted.key_injective {l : List α} (h : Sorted key l) {a b : α} (ha : a ∈ l) (hb : b ∈ l)
    (hk : key a = key b) : a = b :=
  List.inj_on_of_nodup_map (h.nodup_keys key) ha hb hk

theorem Sorted.ext {l l' : List α} (h : Sorted key l) (h' : Sorted key l')
    (hm : ∀ a, a ∈ l ↔ a ∈ l') : l = l' := by
  have hn := List.Nodup.of_map key (h.nodup_keys key)
  have hn' := List.Nodup.of_map key (h'.nodup_keys key)
  refine List.Perm.eq_of_pairwise ?_ h h' ((List.perm_ext_iff_of_nodup hn hn').mpr hm)
  intro a b _ _ hab hba
  exact absurd (lt_trans hab hba) (lt_irrefl _)

variable (merge : α → α → α)

/-- The first record with the key of `a` gives way to its merger with `a`. -/
def replaceFirst (a : α) : List α → Option (List α)
  | [] => none
  | b :: bs =>
    if key b = key a then some (merge b a :: bs) else (replaceFirst a bs).map (b :: ·)

def upsert (a : α) (l : List α) : List α :=
  (replaceFirst key merge a l).getD (sortByKey key (l ++ [a]))

@[simp] theorem upsert_nil (a : α) : upsert key merge a [] = [a] := by
  simp [upsert, replaceFirst, sortByKey]

theorem replaceFirst_none {a : α} {l : List α} :
    replaceFirst key merge a l = none ↔ ∀ b ∈ l, key b ≠ key a := by
  induction l with
  | nil => simp [replaceFirst]
  | cons b bs ih =>
    by_cases h : key b = key a <;> simp [replaceFirst, h, ih]

theorem replaceFirst_keys (hm : ∀ b a, key (merge b a) = key a) {a : α} {l l' : List α}
    (h : replaceFirst key merge a l = some l') : l'.map key = l.map key := by
  induction l generalizing l' with
  | nil => cases h
  | cons b bs ih =>
    simp only [replaceFirst] at h
    split at h
    · rename_i hk
      cases h
      rw [List.map_cons, List.map_cons, hm, hk]
    · obtain ⟨bs', hb, rfl⟩ := Option.map_eq_some_iff.mp h
      rw [List.map_cons, List.map_cons, ih hb]

theorem mem_replaceFirst {a c : α} {l l' : List α} (hs : Sorted key l)
    (h : replaceFirst key merge a l = some l') :
    c ∈ l' ↔ (c ∈ l ∧ key c ≠ key a) ∨ ∃ b ∈ l, key b = key a ∧ c = merge b a := by
  induction l generalizing l' with
  | nil => cases h
  | cons b bs ih =>
    obtain ⟨hlt, hs'⟩ := List.pairwise_cons.mp hs
    simp only [replaceFirst] at h
    split at h
    · rename_i hk
      cases h
      have hne : ∀ x ∈ bs, key x ≠ key a := fun x hx he => absurd (hlt x hx) (by simp [hk, he])
      constructor
      · intro hc
        rcases List.mem_cons.mp hc with rfl | hc
        · exact Or.inr ⟨b, List.mem_cons_self, hk, rfl⟩
        · exact Or.inl ⟨List.mem_cons_of_mem _ hc, hne c hc⟩
      · rintro (⟨hc, hca⟩ | ⟨x, hx, hxa, rfl⟩)
        · rcases List.mem_cons.mp hc with rfl | hc
          · exact absurd hk hca
          · exact List.mem_cons_of_mem _ hc
        · rcases List.mem_cons.mp hx with rfl | hx
          · exact List.mem_cons_self
          · exact absurd hxa (hne x hx)
    · rename_i hk
      obtain ⟨bs', hb, rfl⟩ := Option.map_eq_some_iff.mp h
      rw [List.mem_cons, ih hs' hb, List.mem_cons]
      constructor
      · rintro (rfl | ⟨hc, hca⟩ | ⟨x, hx, hxa, rfl⟩)
        · exact Or.inl ⟨Or.inl rfl, hk⟩
        · exact Or.inl ⟨Or.inr hc, hca⟩
        · exact Or.inr ⟨x, List.mem_cons_of_mem _ hx, hxa, rfl⟩
      · rintro (⟨rfl | hc, hca⟩ | ⟨x, hx, hxa, rfl⟩)
        · exact Or.inl rfl
        · exact Or.inr (Or.inl ⟨hc, hca⟩)
        · rcases List.mem_cons.mp hx with rfl | hx
          · exact absurd hxa hk
          · exact Or.inr (Or.inr ⟨x, hx, hxa, rfl⟩)

theorem sorted_upsert (hm : ∀ b a, key (merge b a) = key a) {l : List α} (hs : Sorted key l)
    (a : α) : Sorted key (upsert key merge a l) := by
  unfold upsert
  cases h : replaceFirst key merge a l with
  | some l' =>
    have hk := replaceFirst_keys key merge hm h
    have hp : (l.map key).Pairwise (· < ·) := List.pairwise_map.mpr hs
    exact List.pairwise_map.mp (hk ▸ hp)
  | none =>
    apply sorted_sortByKey
    have hne := (replaceFirst_none key merge).mp h
    rw [List.map_append, List.nodup_append]
    refine ⟨hs.nodup_keys key, List.nodup_singleton _, ?_⟩
    intro x hx y hy
    obtain ⟨b, hb, rfl⟩ := List.mem_map.mp hx
    rw [List.mem_singleton.mp hy]
    exact hne b hb

theorem mem_upsert {l : List α} (hs : Sorted key l) {a c : α} :
    c ∈ upsert key merge a l ↔ (c ∈ l ∧ key c ≠ key a) ∨
      (∃ b ∈ l, key b = key a ∧ c = merge b a) ∨ ((∀ b ∈ l, key b ≠ key a) ∧ c = a) := by
  unfold upsert
  cases h : replaceFirst key merge a l with
  | some l' =>
    have hsome : ¬ ∀ b ∈ l, key b ≠ key a := fun hn => by
      rw [(replaceFirst_none key merge).mpr hn] at h
      cases h
    simp [mem_replaceFirst key merge hs h, hsome]
  | none =>
    have hne := (replaceFirst_none key merge).mp h
    have hno : ¬ ∃ b ∈ l, key b = key a ∧ c = merge b a := fun ⟨b, hb, hk, _⟩ => hne b hb hk
    simp only [Option.getD_none, mem_sortByKey, List.mem_append, List.mem_singleton]
    constructor
    · rintro (hc | rfl)
      · exact Or.inl ⟨hc, hne c hc⟩
      · exact Or.inr (Or.inr ⟨hne, rfl⟩)
    · rintro (⟨hc, -⟩ | hb | ⟨-, rfl⟩)
      · exact Or.inl hc
      · exact absurd hb hno
      · exact Or.inr rfl

theorem upsert_of_sorted {l : List α} {a : α} (h : Sorted key (l ++ [a])) :
    upsert key merge a l = l ++ [a] := by
  have hne : ∀ b ∈ l, key b ≠ key a := by
    intro b hb
    exact ne_of_lt ((List.pairwise_append.mp h).2.2 b hb a (List.mem_singleton_self a))
  rw [upsert, (replaceFirst_none key merge).mpr hne]
  exact (sorted_sortByKey key (h.nodup_keys key)).ext key h fun _ => mem_sortByKey key

/-- An index stays as it is exactly when its first record of the key absorbs the new one. -/
theorem upsert_eq_self {l : List α} {a : α} :
    upsert key merge a l = l ↔ ∃ b, l.find? (fun b => key b = key a) = some b ∧ merge b a = b := by
  unfold upsert
  cases h : replaceFirst key merge a l with
  | none =>
    have hne := (replaceFirst_none key merge).mp h
    refine iff_of_false (fun he => ?_) ?_
    · have hl := congrArg List.length he
      simp [sortByKey, List.length_mergeSort] at hl
    · rintro ⟨b, hb, -⟩
      exact hne b (List.mem_of_find?_eq_some hb) (by simpa using List.find?_some hb)
  | some l' =>
    simp only [Option.getD_some]
    induction l generalizing l' with
    | nil => cases h
    | cons b bs ih =>
      simp only [replaceFirst] at h
      split at h
      · rename_i hk
        cases h
        simp [hk]
      · rename_i hk
        obtain ⟨bs', hb, rfl⟩ := Option.map_eq_some_iff.mp h
        simp [hk, ih bs' hb]

def ofMap (m : AList fun _ : K => α) : List α := sortByKey key (m.entries.map Sigma.snd)

theorem mem_ofMap {m : AList fun _ : K => α} (h : ∀ k a, m.lookup k = some a → key a = k)
    {a : α} : a ∈ ofMap key m ↔ m.lookup (key a) = some a := by
  rw [ofMap, mem_sortByKey, List.mem_map]
  constructor
  · rintro ⟨⟨k, b⟩, hb, rfl⟩
    have hl := AList.mem_lookup_iff.mpr hb
    rw [Option.mem_def] at hl
    rw [h k b hl]
    exact hl
  · intro hl
    exact ⟨⟨key a, a⟩, AList.mem_lookup_iff.mp hl, rfl⟩

theorem sorted_ofMap {m : AList fun _ : K => α} (h : ∀ k a, m.lookup k = some a → key a = k) :
    Sorted key (ofMap key m) := by
  apply sorted_sortByKey
  have hk : (m.entries.map Sigma.snd).map key = m.keys := by
    rw [List.map_map, AList.keys]
    refine List.map_congr_left fun e he => ?_
    exact h e.1 e.2 (Option.mem_def.mp (AList.mem_lookup_iff.mpr he))
  rw [hk]
  exact m.keys_nodup

end SortedIndex
