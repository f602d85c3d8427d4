import Mathlib.Logic.Basic

/-!
# Programs that may be killed

A program makes one atomic change after another and reads the state in between. A kill leaves
the state between two changes, and a restart runs a recovery program, which may be killed in
its turn. Rules for what holds at the end of a program and at every moment of it.
-/
namespace QCap.CrashSafety

/-- `step` changes the state by `act` and goes on with what it saw before. -/
inductive Program (σ α : Type) where
  | done (a : α)
  | step (act : σ → σ) (next : σ → Program σ α)

namespace Program

variable {σ α β : Type}

def bind : Program σ α → (α → Program σ β) → Program σ β
  | done a, f => f a
  | step act next, f => step act fun s => (next s).bind f

instance : Monad (Program σ) where
  pure := done
  bind := bind

def run : Program σ α → σ → α × σ
  | done a, s => (a, s)
  | step act next, s => (next s).run (act s)

/-- The states that a kill can leave, the last one included. -/
def moments : Program σ α → σ → List σ
  | done _, s => [s]
  | step act next, s => s :: (next s).moments (act s)

def call (op : σ → α × σ) : Program σ α := step (fun s => (op s).2) fun s => done (op s).1

@[simp] theorem run_done (a : α) (s : σ) : (done a : Program σ α).run s = (a, s) := rfl

@[simp] theorem run_pure (a : α) (s : σ) : (pure a : Program σ α).run s = (a, s) := rfl

@[simp] theorem run_call (op : σ → α × σ) (s : σ) : (call op).run s = op s := rfl

@[simp] theorem run_bind (p : Program σ α) (f : α → Program σ β) (s : σ) :
    (p >>= f).run s = (f (p.run s).1).run (p.run s).2 := by
  change (p.bind f).run s = _
  induction p generalizing s with
  | done a => rfl
  | step act next ih => exact ih s (act s)

theorem self_mem_moments (p : Program σ α) (s : σ) : s ∈ p.moments s := by
  cases p with
  | done a => exact List.mem_singleton.mpr rfl
  | step act next => exact List.mem_cons_self

theorem mem_moments_done {a : α} {s s' : σ} :
    s' ∈ (done a : Program σ α).moments s ↔ s' = s :=
  List.mem_singleton

theorem mem_moments_call {op : σ → α × σ} {s s' : σ} :
    s' ∈ (call op).moments s ↔ s' = s ∨ s' = (op s).2 := by
  simp [call, moments]

theorem mem_moments_bind {p : Program σ α} {f : α → Program σ β} {s s' : σ} :
    s' ∈ (p >>= f).moments s ↔
      s' ∈ p.moments s ∨ s' ∈ (f (p.run s).1).moments (p.run s).2 := by
  change s' ∈ (p.bind f).moments s ↔ _
  induction p generalizing s with
  | done a =>
    constructor
    · exact Or.inr
    · rintro (h | h)
      · rw [mem_moments_done.mp h]
        exact self_mem_moments (f a) s
      · exact h
  | step act next ih =>
    have hstep : s' ∈ ((step act next).bind f).moments s ↔
        s' = s ∨ s' ∈ ((next s).bind f).moments (act s) := List.mem_cons
    have hfirst : s' ∈ (step act next).moments s ↔ s' = s ∨ s' ∈ (next s).moments (act s) :=
      List.mem_cons
    rw [hstep, ih s, hfirst, or_assoc]
    rfl

theorem run_mem_moments (p : Program σ α) (s : σ) : (p.run s).2 ∈ p.moments s := by
  induction p generalizing s with
  | done a => exact List.mem_singleton.mpr rfl
  | step act next ih => exact List.mem_cons_of_mem s (ih s (act s))

theorem mem_moments_returns {p : Program σ α} {f : α → Program σ β} {s s' : σ}
    (hf : ∀ a, ∃ b, f a = done b) (h : s' ∈ (p >>= f).moments s) : s' ∈ p.moments s := by
  rcases mem_moments_bind.mp h with h | h
  · exact h
  · obtain ⟨b, hb⟩ := hf (p.run s).1
    rw [hb] at h
    rw [mem_moments_done.mp h]
    exact run_mem_moments p s

/-- From `pre` the program ends in `post`, and `crash` holds at every moment on the way. -/
def Meets (p : Program σ α) (pre : σ → Prop) (post : α → σ → Prop) (crash : σ → Prop) : Prop :=
  ∀ s, pre s → post (p.run s).1 (p.run s).2 ∧ ∀ s' ∈ p.moments s, crash s'

variable {p : Program σ α} {pre crash : σ → Prop} {post : α → σ → Prop}

theorem Meets.mono (h : p.Meets pre post crash) {pre' crash' : σ → Prop} {post' : α → σ → Prop}
    (hpre : ∀ s, pre' s → pre s) (hpost : ∀ a s, post a s → post' a s)
    (hcrash : ∀ s, crash s → crash' s) : p.Meets pre' post' crash' := by
  intro s hs
  obtain ⟨hend, hall⟩ := h s (hpre s hs)
  exact ⟨hpost _ _ hend, fun s' hs' => hcrash s' (hall s' hs')⟩

theorem meets_done {a : α} (hpost : ∀ s, pre s → post a s) (hcrash : ∀ s, pre s → crash s) :
    (done a : Program σ α).Meets pre post crash := by
  intro s hs
  refine ⟨hpost s hs, ?_⟩
  intro s' hs'
  rw [mem_moments_done.mp hs']
  exact hcrash s hs

theorem meets_call {op : σ → α × σ} (hpost : ∀ s, pre s → post (op s).1 (op s).2)
    (hbefore : ∀ s, pre s → crash s) (hafter : ∀ s, pre s → crash (op s).2) :
    (call op).Meets pre post crash := by
  intro s hs
  refine ⟨hpost s hs, ?_⟩
  intro s' hs'
  rcases mem_moments_call.mp hs' with rfl | rfl
  · exact hbefore _ hs
  · exact hafter s hs

theorem Meets.bind {f : α → Program σ β} {mid : α → σ → Prop} {post : β → σ → Prop}
    (hp : p.Meets pre mid crash) (hf : ∀ a, (f a).Meets (mid a) post crash) :
    (p >>= f).Meets pre post crash := by
  intro s hs
  obtain ⟨hmid, hall⟩ := hp s hs
  obtain ⟨hend, hrest⟩ := hf _ _ hmid
  refine ⟨?_, ?_⟩
  · rw [run_bind]
    exact hend
  · intro s' hs'
    rcases mem_moments_bind.mp hs' with h | h
    · exact hall s' h
    · exact hrest s' h

abbrev Preserves (p : Program σ α) (inv : σ → Prop) : Prop := p.Meets inv (fun _ => inv) inv

theorem preserves_call {inv : σ → Prop} {op : σ → α × σ} (h : ∀ s, inv s → inv (op s).2) :
    (call op).Preserves inv :=
  meets_call h (fun _ hs => hs) h

theorem preserves_done {inv : σ → Prop} (a : α) : (done a : Program σ α).Preserves inv :=
  meets_done (fun _ hs => hs) fun _ hs => hs

variable {ι : Type}

/-- Attempts to recover, each but the last one killed. An attempt may be any of a family, since
what it draws from its surroundings changes from one to the next. -/
inductive Restarts (recover : ι → Program σ α) : σ → α × σ → Prop where
  | finish (i : ι) (s : σ) : Restarts recover s ((recover i).run s)
  | again {s s' : σ} {r : α × σ} (i : ι) : s' ∈ (recover i).moments s → Restarts recover s' r →
      Restarts recover s r

/-- What holds at every moment of a recovery, from any state in which it may begin, lets the
next one begin. -/
theorem Restarts.holds {recover : ι → Program σ α} {s : σ} {r : α × σ}
    (h : Restarts recover s r) (hr : ∀ i, (recover i).Meets crash post crash) (hs : crash s) :
    post r.1 r.2 := by
  induction h with
  | finish i s => exact (hr i s hs).1
  | again i hm _ ih => exact ih ((hr i _ hs).2 _ hm)

end Program

end QCap.CrashSafety
