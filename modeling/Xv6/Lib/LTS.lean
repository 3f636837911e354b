import Mathlib.Init

/-!
# Lib/LTS — labelled transition systems, their runs and what holds along them

A system has initial states and labelled steps.  Invariants are proved step by step
(`Reach.invariant`); a condition on the steps taken is a smaller system (`restrict`); and where a
step is a function, what it computes is reached (`Reach.play`).
-/

/-- States, and steps with labels. -/
structure LTS (σ α : Type) where
  init : σ → Prop
  step : σ → α → σ → Prop

namespace LTS

variable {σ α : Type} {S : LTS σ α}

/-- The states a system can be in. -/
inductive Reach (S : LTS σ α) : σ → Prop
  | init {s : σ} (h : S.init s) : Reach S s
  | step {s s' : σ} {a : α} (h : Reach S s) (hs : S.step s a s') : Reach S s'

/-- **Induction along a run**: what holds at the start and is kept by every step holds
throughout. -/
theorem Reach.invariant {I : σ → Prop} {s : σ} (h : Reach S s) (h0 : ∀ s, S.init s → I s)
    (hstep : ∀ s a s', Reach S s → I s → S.step s a s' → I s') : I s := by
  induction h with
  | init h => exact h0 _ h
  | step h hs ih => exact hstep _ _ _ h ih hs

/-- The system that takes only the steps that meet a condition on the state before them. -/
def restrict (S : LTS σ α) (C : σ → α → Prop) : LTS σ α where
  init := S.init
  step s a s' := C s a ∧ S.step s a s'

theorem Reach.of_restrict {C : σ → α → Prop} {s : σ} (h : Reach (S.restrict C) s) : Reach S s := by
  induction h with
  | init h => exact .init h
  | step _ hs ih => exact .step ih hs.2

/-- What is reached under a condition is reached under a weaker one… -/
theorem Reach.mono {C C' : σ → α → Prop} (hc : ∀ s a, C s a → C' s a) {s : σ}
    (h : Reach (S.restrict C) s) : Reach (S.restrict C') s := by
  induction h with
  | init h => exact .init h
  | step _ hs ih => exact .step ih ⟨hc _ _ hs.1, hs.2⟩

/-- …and anything under one that always holds. -/
theorem Reach.restrict {C : σ → α → Prop} (hc : ∀ s a, C s a) {s : σ} (h : Reach S s) :
    Reach (S.restrict C) s := by
  induction h with
  | init h => exact .init h
  | step _ hs ih => exact .step ih ⟨hc _ _, hs⟩

/-- Reaching a state by a list of labels. -/
inductive Path (S : LTS σ α) : σ → List α → σ → Prop
  | nil {s : σ} : Path S s [] s
  | snoc {s t u : σ} {l : List α} {a : α} (h : Path S s l t) (hs : S.step t a u) :
      Path S s (l ++ [a]) u

/-- Take the steps a list of labels names, where a step is a function. -/
def play (f : σ → α → Option σ) : σ → List α → Option σ
  | s, [] => some s
  | s, a :: l => (f s a).bind fun t => play f t l

/-- **What is played is reached.** -/
theorem Reach.play {f : σ → α → Option σ} (hf : ∀ s a t, f s a = some t → S.step s a t) {s t : σ}
    {l : List α} (h : Reach S s) (hp : LTS.play f s l = some t) : Reach S t := by
  induction l generalizing s with
  | nil =>
    obtain rfl := Option.some.inj hp
    exact h
  | cons a l ih =>
    obtain ⟨u, hu, hp⟩ := Option.bind_eq_some_iff.1 hp
    exact ih (h.step (hf s a u hu)) hp

/-- …and so is something with what can be computed of it. -/
theorem Reach.play_any {f : σ → α → Option σ} (hf : ∀ s a t, f s a = some t → S.step s a t) {s : σ}
    {P : σ → Bool} {l : List α} (h : Reach S s) (hp : (LTS.play f s l).any P = true) :
    ∃ t, Reach S t ∧ P t = true := by
  cases ht : LTS.play f s l with
  | none =>
    rw [ht] at hp
    cases hp
  | some t =>
    rw [ht] at hp
    exact ⟨t, h.play hf ht, hp⟩

/-- A step function that refuses what does not meet a condition. -/
def guarded (C : σ → α → Prop) [∀ s, DecidablePred (C s)] (f : σ → α → Option σ) (s : σ) (a : α) :
    Option σ :=
  if C s a then f s a else none

/-- …and what is played under a condition is reached under it. -/
theorem Reach.play_guarded {C : σ → α → Prop} [∀ s, DecidablePred (C s)] {f : σ → α → Option σ}
    (hf : ∀ s a t, f s a = some t → S.step s a t) {s : σ} {P : σ → Bool} {l : List α}
    (h : Reach (S.restrict C) s) (hp : (LTS.play (guarded C f) s l).any P = true) :
    ∃ t, Reach (S.restrict C) t ∧ P t = true := by
  refine h.play_any (fun s a t e => ?_) hp
  obtain ⟨hc, e⟩ := Option.ite_none_right_eq_some.1 e
  exact ⟨hc, hf s a t e⟩

end LTS
