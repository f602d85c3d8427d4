import QCap.CrashSafety
import Mathlib.Logic.Function.Basic

/-!
# Programs that run side by side

Programs over one state take their steps in any order. Each owns a part of the state, which the
others leave alone, and every step keeps an invariant that belongs to all. What one program
does is checked against any interference that its owned part survives; then the invariant
holds at every moment, however many programs run and wherever they are killed.
-/
namespace QCap.RelyGuarantee

open QCap.CrashSafety

variable {σ ο α β ι : Type} (inv : σ → Prop) (rely : ο → σ → σ → Prop) (apart : ο → ο → Prop)

structure Guarantees (o : ο) (s s' : σ) : Prop where
  keeps : inv s'
  others : ∀ o', apart o o' → rely o' s s'

/-- From `s`, whatever others do before each step, the steps of the program are guaranteed and
it ends in `post`. -/
def Keeps (o : ο) (post : α → σ → Prop) : Program σ α → σ → Prop
  | .done a, s => post a s
  | .step act next, s => ∀ s', inv s' → rely o s s' →
      Guarantees inv rely apart o s' (act s') ∧ Keeps o post (next s') (act s')

variable {inv rely apart} {o : ο} {post : α → σ → Prop} {p : Program σ α} {s s' : σ}

theorem Keeps.mono {post' : α → σ → Prop} (h : Keeps inv rely apart o post p s)
    (hpost : ∀ a s, post a s → post' a s) : Keeps inv rely apart o post' p s := by
  induction p generalizing s with
  | done a => exact hpost a s h
  | step act next ih =>
    intro s' hinv hrely
    obtain ⟨hguar, hnext⟩ := h s' hinv hrely
    exact ⟨hguar, ih s' hnext⟩

theorem Keeps.bind {f : α → Program σ β} {post' : β → σ → Prop}
    (h : Keeps inv rely apart o post p s)
    (hf : ∀ a s, post a s → Keeps inv rely apart o post' (f a) s) :
    Keeps inv rely apart o post' (p >>= f) s := by
  change Keeps inv rely apart o post' (p.bind f) s
  induction p generalizing s with
  | done a => exact hf a s h
  | step act next ih =>
    intro s' hinv hrely
    obtain ⟨hguar, hnext⟩ := h s' hinv hrely
    exact ⟨hguar, ih s' hnext⟩

theorem keeps_call {op : σ → α × σ}
    (h : ∀ s', inv s' → rely o s s' →
      Guarantees inv rely apart o s' (op s').2 ∧ post (op s').1 (op s').2) :
    Keeps inv rely apart o post (.call op) s :=
  h

theorem keeps_ite {c : Prop} [Decidable c] {q : Program σ α}
    (hp : c → Keeps inv rely apart o post p s) (hq : ¬ c → Keeps inv rely apart o post q s) :
    Keeps inv rely apart o post (if c then p else q) s := by
  by_cases h : c
  · rw [if_pos h]
    exact hp h
  · rw [if_neg h]
    exact hq h

/-- What others do takes nothing away from a program. -/
theorem Keeps.stable (htrans : ∀ s₁ s₂ s₃, rely o s₁ s₂ → rely o s₂ s₃ → rely o s₁ s₃)
    (hpost : ∀ a s s', rely o s s' → post a s → post a s')
    (h : Keeps inv rely apart o post p s) (hs : rely o s s') :
    Keeps inv rely apart o post p s' := by
  cases p with
  | done a => exact hpost a s s' hs h
  | step act next =>
    intro s'' hinv hrely
    exact h s'' hinv (htrans s s' s'' hs hrely)

structure Pool (σ ο α ι : Type) where
  state : σ
  threads : ι → Option (ο × Program σ α)

variable [DecidableEq ι]

def Pool.set (pool : Pool σ ο α ι) (i : ι) (s : σ) (thread : Option (ο × Program σ α)) :
    Pool σ ο α ι :=
  ⟨s, Function.update pool.threads i thread⟩

variable (rely apart) (starts : ο → Program σ α → Prop) (crash : σ → σ)

/-- A program starts, takes one step or ends, or all are killed. What is owned by a program that
starts is apart from what the others own. -/
inductive PoolStep : Pool σ ο α ι → Pool σ ο α ι → Prop where
  | start {pool : Pool σ ο α ι} (i : ι) (o : ο) (p : Program σ α) : starts o p →
      pool.threads i = none →
      (∀ j o' q, pool.threads j = some (o', q) → apart o o' ∧ apart o' o) →
      PoolStep pool (pool.set i pool.state (some (o, p)))
  | step {pool : Pool σ ο α ι} {i : ι} {o : ο} {act : σ → σ} {next : σ → Program σ α} :
      pool.threads i = some (o, .step act next) →
      PoolStep pool (pool.set i (act pool.state) (some (o, next pool.state)))
  | finish {pool : Pool σ ο α ι} {i : ι} {o : ο} {a : α} :
      pool.threads i = some (o, .done a) → PoolStep pool (pool.set i pool.state none)
  | kill {pool : Pool σ ο α ι} : PoolStep pool ⟨crash pool.state, fun _ => none⟩

inductive PoolReachable (init : σ) : Pool σ ο α ι → Prop where
  | init : PoolReachable init ⟨init, fun _ => none⟩
  | next {pool pool' : Pool σ ο α ι} : PoolReachable init pool →
      PoolStep apart starts crash pool pool' → PoolReachable init pool'

variable (inv)

structure PoolInvariant (pool : Pool σ ο α ι) : Prop where
  holds : inv pool.state
  keeps : ∀ i o p, pool.threads i = some (o, p) →
    Keeps inv rely apart o (fun _ _ => True) p pool.state
  apart : ∀ i j o o' p q, i ≠ j → pool.threads i = some (o, p) → pool.threads j = some (o', q) →
    apart o o'

variable {inv rely apart starts crash}

theorem set_threads {pool : Pool σ ο α ι} {i j : ι} {s : σ} {thread : Option (ο × Program σ α)}
    {t : ο × Program σ α} (h : (pool.set i s thread).threads j = some t) :
    (j = i ∧ thread = some t) ∨ (j ≠ i ∧ pool.threads j = some t) := by
  have ht : (pool.set i s thread).threads = Function.update pool.threads i thread := rfl
  rw [ht] at h
  by_cases hj : j = i
  · subst hj
    rw [Function.update_self] at h
    exact .inl ⟨rfl, h⟩
  · rw [Function.update_of_ne hj] at h
    exact .inr ⟨hj, h⟩

/-- Another thread may change the state as it guarantees. -/
theorem PoolInvariant.set {pool : Pool σ ο α ι}
    (htrans : ∀ o s₁ s₂ s₃, rely o s₁ s₂ → rely o s₂ s₃ → rely o s₁ s₃)
    (h : PoolInvariant inv rely apart pool) {i : ι} {s : σ} {thread : Option (ο × Program σ α)}
    (hinv : inv s)
    (hothers : ∀ j o p, j ≠ i → pool.threads j = some (o, p) → rely o pool.state s)
    (hthread : ∀ o p, thread = some (o, p) → Keeps inv rely apart o (fun _ _ => True) p s)
    (hapart : ∀ o p j o' q, thread = some (o, p) → j ≠ i → pool.threads j = some (o', q) →
      apart o o' ∧ apart o' o) :
    PoolInvariant inv rely apart (pool.set i s thread) := by
  refine ⟨hinv, ?_, ?_⟩
  · intro j o p hj
    rcases set_threads hj with ⟨-, ht⟩ | ⟨hne, hj⟩
    · exact hthread o p ht
    · exact (h.keeps j o p hj).stable (htrans o) (fun _ _ _ _ _ => trivial)
        (hothers j o p hne hj)
  · intro j k o o' p q hjk hj hk
    rcases set_threads hj with ⟨hji, ht⟩ | ⟨hji, hj⟩
    · rcases set_threads hk with ⟨hki, -⟩ | ⟨hki, hk⟩
      · exact absurd (hji.trans hki.symm) hjk
      · exact (hapart o p k o' q ht hki hk).1
    · rcases set_threads hk with ⟨-, ht⟩ | ⟨-, hk⟩
      · exact (hapart o' q j o p ht hji hj).2
      · exact h.apart j k o o' p q hjk hj hk

theorem PoolInvariant.step {pool pool' : Pool σ ο α ι} (hrefl : ∀ o s, rely o s s)
    (htrans : ∀ o s₁ s₂ s₃, rely o s₁ s₂ → rely o s₂ s₃ → rely o s₁ s₃)
    (hstarts : ∀ o p s, starts o p → inv s → Keeps inv rely apart o (fun _ _ => True) p s)
    (hcrash : ∀ s, inv s → inv (crash s)) (h : PoolInvariant inv rely apart pool)
    (hs : PoolStep apart starts crash pool pool') : PoolInvariant inv rely apart pool' := by
  cases hs with
  | start i o p hp _ hapart =>
    refine h.set htrans h.holds (fun _ _ _ _ _ => hrefl _ _) ?_ ?_
    · intro o' p' ht
      cases ht
      exact hstarts o p _ hp h.holds
    · intro o' p' j o'' q ht _ hj
      cases ht
      exact hapart j o'' q hj
  | @step i o act next hi =>
    obtain ⟨hguar, hnext⟩ := h.keeps i o _ hi pool.state h.holds (hrefl o _)
    refine h.set htrans hguar.keeps ?_ ?_ ?_
    · intro j o' q hj hq
      exact hguar.others o' (h.apart i j o o' _ q (Ne.symm hj) hi hq)
    · intro o' p' ht
      cases ht
      exact hnext
    · intro o' p' j o'' q ht hj hq
      cases ht
      exact ⟨h.apart i j _ _ _ q (Ne.symm hj) hi hq, h.apart j i _ _ q _ hj hq hi⟩
  | finish hi =>
    refine h.set htrans h.holds (fun _ _ _ _ _ => hrefl _ _) ?_ ?_
    · intro o' p' ht
      cases ht
    · intro o' p' j o'' q ht
      cases ht
  | kill =>
    refine ⟨hcrash _ h.holds, ?_, ?_⟩
    · intro i o p hi
      cases hi
    · intro i j o o' p q _ hi
      cases hi

/-- The invariant holds at every moment of every interleaving. -/
theorem PoolReachable.invariant {init : σ} {pool : Pool σ ο α ι} (hrefl : ∀ o s, rely o s s)
    (htrans : ∀ o s₁ s₂ s₃, rely o s₁ s₂ → rely o s₂ s₃ → rely o s₁ s₃)
    (hstarts : ∀ o p s, starts o p → inv s → Keeps inv rely apart o (fun _ _ => True) p s)
    (hcrash : ∀ s, inv s → inv (crash s)) (hinit : inv init)
    (h : PoolReachable apart starts crash init pool) : PoolInvariant inv rely apart pool := by
  induction h with
  | init =>
    refine ⟨hinit, ?_, ?_⟩
    · intro i o p hi
      cases hi
    · intro i j o o' p q _ hi
      cases hi
  | next _ hs ih => exact ih.step hrefl htrans hstarts hcrash hs

/-- A program may run to its end while the others rest. -/
theorem PoolReachable.run {init : σ} {pool : Pool σ ο α ι} {i : ι} {o : ο} {p : Program σ α}
    (h : PoolReachable apart starts crash init pool) (hi : pool.threads i = some (o, p)) :
    PoolReachable apart starts crash init
      (pool.set i (p.run pool.state).2 (some (o, .done (p.run pool.state).1))) := by
  induction p generalizing pool with
  | done a =>
    have hsame : pool.set i pool.state (some (o, .done a)) = pool := by
      rw [Pool.set, ← hi, Function.update_eq_self]
    exact hsame.symm ▸ h
  | step act next ih =>
    have hstep := ih pool.state (h.next (.step hi)) (Function.update_self _ _ _)
    have hset : ∀ s t, (pool.set i (act pool.state) (some (o, next pool.state))).set i s t =
        pool.set i s t := by
      intro s t
      rw [Pool.set, Pool.set, Pool.set, Function.update_idem]
    rw [hset] at hstep
    exact hstep

end QCap.RelyGuarantee
