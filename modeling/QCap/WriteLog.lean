import Mathlib.Data.List.Basic
import Mathlib.Tactic.Common

/-!
# Last-writer-wins logs

A log is a list of events, each of which writes a value under a key. The key need not
determine the event: several spellings may address one location. What a reader of the
whole log sees at a location is compared with what a reader of a filtered log sees.
-/
namespace WriteLog

variable {ε K V : Type*} [DecidableEq K] (key : ε → K) (val : ε → V)

/-- The value that the last event for `k` leaves behind. -/
def last : List ε → K → Option V
  | [], _ => none
  | e :: es, k =>
    match last es k with
    | some v => some v
    | none => if key e = k then some (val e) else none

@[simp] theorem last_nil (k : K) : last key val [] k = none := rfl

theorem last_append (xs ys : List ε) (k : K) :
    last key val (xs ++ ys) k = (last key val ys k).or (last key val xs k) := by
  induction xs with
  | nil => simp
  | cons x xs ih =>
    simp only [List.cons_append, last, ih]
    cases last key val ys k <;> simp

theorem last_snoc (xs : List ε) (e : ε) (k : K) :
    last key val (xs ++ [e]) k = if key e = k then some (val e) else last key val xs k := by
  rw [last_append]
  by_cases h : key e = k <;> simp [last, h]

theorem last_eq_none {xs : List ε} {k : K} :
    last key val xs k = none ↔ ∀ e ∈ xs, key e ≠ k := by
  induction xs with
  | nil => simp
  | cons x xs ih =>
    simp only [last, List.mem_cons, forall_eq_or_imp]
    cases h : last key val xs k with
    | none =>
      have := ih.mp h
      simpa using fun _ => this
    | some v =>
      have : ¬ ∀ e ∈ xs, key e ≠ k := fun hn => by simp [ih.mpr hn] at h
      simp [this]

/-- The event whose value survives, and everything after it writes elsewhere. -/
theorem last_eq_some {xs : List ε} {k : K} {v : V} :
    last key val xs k = some v ↔ ∃ before e after, xs = before ++ e :: after ∧
      key e = k ∧ val e = v ∧ ∀ a ∈ after, key a ≠ k := by
  constructor
  · intro h
    induction xs with
    | nil => cases h
    | cons x xs ih =>
      simp only [last] at h
      cases hl : last key val xs k with
      | some w =>
        rw [hl] at h
        obtain ⟨before, e, after, rfl, hk, hv, ha⟩ := ih (hl.trans h)
        exact ⟨x :: before, e, after, rfl, hk, hv, ha⟩
      | none =>
        rw [hl] at h
        simp only at h
        split at h
        · rename_i hk
          exact ⟨[], x, xs, rfl, hk, Option.some.inj h, (last_eq_none key val).mp hl⟩
        · cases h
  · rintro ⟨before, e, after, rfl, rfl, rfl, ha⟩
    rw [last_append]
    have hn : last key val after (key e) = none := (last_eq_none key val).mpr ha
    simp [last, hn]

theorem last_mem {xs : List ε} {k : K} {v : V} (h : last key val xs k = some v) :
    ∃ e ∈ xs, key e = k ∧ val e = v := by
  obtain ⟨before, e, after, rfl, hk, hv, -⟩ := (last_eq_some key val).mp h
  exact ⟨e, by simp, hk, hv⟩

theorem last_of_nodup {xs : List ε} (hn : (xs.map key).Nodup) {e : ε} (he : e ∈ xs) :
    last key val xs (key e) = some (val e) := by
  obtain ⟨before, after, rfl⟩ := List.append_of_mem he
  refine (last_eq_some key val).mpr ⟨before, e, after, rfl, rfl, rfl, ?_⟩
  intro a ha heq
  rw [List.map_append, List.map_cons, List.nodup_append] at hn
  exact (List.nodup_cons.mp hn.2.1).1 (heq ▸ List.mem_map_of_mem ha)

variable (keep : ε → Bool)

/-- Some kept event is the last kept one for its key, but not the last one: a dropped
event after it leaves a different value at the same location. -/
def Overridden (log : List ε) : Prop :=
  ∃ before e after, log = before ++ e :: after ∧ keep e = true ∧
    (∀ a ∈ after, keep a = true → key a ≠ key e) ∧
    ∃ v, last key val after (key e) = some v ∧ v ≠ val e

/-- The filtered log agrees with the whole log exactly when nothing is overridden. -/
theorem filter_agrees_iff (log : List ε) :
    (∀ k v, last key val (log.filter keep) k = some v → last key val log k = some v) ↔
      ¬ Overridden key val keep log := by
  constructor
  · rintro h ⟨before, e, after, rfl, hk, ha, v, hv, hne⟩
    have hf : last key val ((before ++ e :: after).filter keep) (key e) = some (val e) := by
      refine (last_eq_some key val).mpr ⟨before.filter keep, e, after.filter keep, ?_, rfl, rfl, ?_⟩
      · simp [List.filter_append, hk]
      · intro a hm
        obtain ⟨hm, hkeep⟩ := List.mem_filter.mp hm
        exact ha a hm hkeep
    have hall := h _ _ hf
    rw [last_append] at hall
    simp only [last, hv, Option.some_or, Option.some.injEq] at hall
    exact hne hall
  · intro hn k v hf
    obtain ⟨fb, e, fa, hs, rfl, rfl, hfa⟩ := (last_eq_some key val).mp hf
    obtain ⟨before, rest, rfl, -, hrest⟩ := List.filter_eq_append_iff.mp hs
    obtain ⟨skipped, after, rfl, hskip, hkeep, rfl⟩ := List.filter_eq_cons_iff.mp hrest
    have hafter : ∀ a ∈ after, keep a = true → key a ≠ key e := fun a ha hka =>
      hfa a (List.mem_filter.mpr ⟨ha, hka⟩)
    rw [← List.append_assoc, last_append]
    cases hl : last key val after (key e) with
    | none => simp [last, hl]
    | some w =>
      have hw : w = val e := by
        by_contra hne
        exact hn ⟨before ++ skipped, e, after, by simp, hkeep, hafter, w, hl, hne⟩
      simp [last, hl, hw]

end WriteLog
