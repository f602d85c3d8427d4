import Mathlib.Data.List.Basic

/-!
# Refinement of labelled systems

A step of a system may be seen from outside, by its label, or not. One system refines another
if whatever is seen of the one can be seen of the other; a simulation shows it step by step.
-/
namespace QCap.Refinement

variable {σ τ l : Type} (step : σ → Option l → σ → Prop) (spec : τ → Option l → τ → Prop)

/-- What is seen of a run, oldest first. -/
inductive Runs (s : σ) : List l → σ → Prop where
  | refl : Runs s [] s
  | silent {s' s'' : σ} {trace : List l} : Runs s trace s' → step s' none s'' → Runs s trace s''
  | visible {s' s'' : σ} {trace : List l} {a : l} : Runs s trace s' → step s' (some a) s'' →
      Runs s (trace ++ [a]) s''

/-- Each step is matched by one with the same label, or by none if it is not seen. -/
def Simulates (rel : σ → τ → Prop) : Prop :=
  ∀ s t label s', rel s t → step s label s' →
    ∃ t', rel s' t' ∧ (spec t label t' ∨ (label = none ∧ t' = t))

variable {step spec} {rel : σ → τ → Prop} {s s' s'' : σ} {t : τ} {trace trace' : List l}

theorem Runs.trans (h : Runs step s trace s') (h' : Runs step s' trace' s'') :
    Runs step s (trace ++ trace') s'' := by
  induction h' with
  | refl =>
    rw [List.append_nil]
    exact h
  | silent _ hstep ih => exact ih.silent hstep
  | visible _ hstep ih =>
    rw [← List.append_assoc]
    exact ih.visible hstep

theorem Runs.split (h : Runs step s (trace ++ trace') s'') :
    ∃ s', Runs step s trace s' ∧ Runs step s' trace' s'' := by
  generalize ht : trace ++ trace' = whole at h
  induction h generalizing trace' with
  | refl =>
    obtain ⟨rfl, rfl⟩ := List.append_eq_nil_iff.mp ht
    exact ⟨s, .refl, .refl⟩
  | silent _ hstep ih =>
    obtain ⟨m, hm, hm'⟩ := ih ht
    exact ⟨m, hm, hm'.silent hstep⟩
  | @visible s₂ s₃ before a hrun hstep ih =>
    rcases List.eq_nil_or_concat trace' with rfl | ⟨init, last, rfl⟩
    · rw [List.append_nil] at ht
      subst ht
      exact ⟨s₃, hrun.visible hstep, .refl⟩
    · rw [List.concat_eq_append, ← List.append_assoc] at ht
      obtain ⟨hinit, hlast⟩ := List.append_inj' ht rfl
      obtain ⟨m, hm, hm'⟩ := ih hinit
      cases hlast
      rw [List.concat_eq_append]
      exact ⟨m, hm, hm'.visible hstep⟩

theorem Runs.uncons {a : l} (h : Runs step s (a :: trace) s'') :
    ∃ m m', Runs step s [] m ∧ step m (some a) m' ∧ Runs step m' trace s'' := by
  generalize ht : a :: trace = whole at h
  induction h generalizing trace with
  | refl => cases ht
  | silent _ hstep ih =>
    obtain ⟨m, m', hfirst, ha, hrest⟩ := ih ht
    exact ⟨m, m', hfirst, ha, hrest.silent hstep⟩
  | @visible s₂ s₃ before b hrun hstep ih =>
    cases before with
    | nil =>
      cases ht
      exact ⟨_, _, hrun, hstep, .refl⟩
    | cons c rest =>
      obtain ⟨rfl, rfl⟩ := List.cons.inj ht
      obtain ⟨m, m', hfirst, ha, hrest⟩ := ih rfl
      exact ⟨m, m', hfirst, ha, hrest.visible hstep⟩

theorem Runs.cut {a : l} (h : Runs step s (trace ++ a :: trace') s'') :
    ∃ m m', Runs step s trace m ∧ step m (some a) m' ∧ Runs step m' trace' s'' := by
  obtain ⟨m, hbefore, hrest⟩ := h.split
  obtain ⟨m', m'', hquiet, ha, hafter⟩ := hrest.uncons
  have hrun := hbefore.trans hquiet
  rw [List.append_nil] at hrun
  exact ⟨m', m'', hrun, ha, hafter⟩

theorem Runs.invariant {inv : σ → Prop} (h : Runs step s trace s')
    (hinv : ∀ s label s', inv s → step s label s' → inv s') (hs : inv s) : inv s' := by
  induction h with
  | refl => exact hs
  | silent _ hstep ih => exact hinv _ _ _ ih hstep
  | visible _ hstep ih => exact hinv _ _ _ ih hstep

theorem Runs.invariant_of {inv : σ → Prop} {allowed : l → Prop} (h : Runs step s trace s')
    (hsilent : ∀ s s', inv s → step s none s' → inv s')
    (hvisible : ∀ s a s', allowed a → inv s → step s (some a) s' → inv s')
    (htrace : ∀ a ∈ trace, allowed a) (hs : inv s) : inv s' := by
  induction h with
  | refl => exact hs
  | silent _ hstep ih => exact hsilent _ _ (ih htrace) hstep
  | visible _ hstep ih =>
    have hlast := htrace _ (List.mem_append_right _ List.mem_cons_self)
    exact hvisible _ _ _ hlast (ih fun a ha => htrace a (List.mem_append_left _ ha)) hstep

/-- Whatever is seen of the system can be seen of what it simulates. -/
theorem Simulates.runs (h : Simulates step spec rel) (hs : rel s t)
    (hrun : Runs step s trace s') : ∃ t', Runs spec t trace t' ∧ rel s' t' := by
  induction hrun with
  | refl => exact ⟨t, .refl, hs⟩
  | silent _ hstep ih =>
    obtain ⟨m, hm, hrel⟩ := ih
    obtain ⟨t', hrel', hspec | ⟨-, rfl⟩⟩ := h _ _ _ _ hrel hstep
    · exact ⟨t', hm.silent hspec, hrel'⟩
    · exact ⟨t', hm, hrel'⟩
  | visible _ hstep ih =>
    obtain ⟨m, hm, hrel⟩ := ih
    obtain ⟨t', hrel', hspec | ⟨hnone, -⟩⟩ := h _ _ _ _ hrel hstep
    · exact ⟨t', hm.visible hspec, hrel'⟩
    · cases hnone

end QCap.Refinement
