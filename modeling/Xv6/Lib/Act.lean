import Mathlib.Logic.Basic
import Mathlib.Tactic.Common

/-!
# Lib/Act — sequential computations that may stop

`Act σ ε α` is code that runs on a state `σ`, returns an `α`, or stops for a reason `ε`.  The
weakest precondition `wp m Q E` has one postcondition for each way out: `Q` for a return, `E` for a
stop.  A call is total exactly when it is proved with `E` empty.
-/

/-- Code on a state `σ` that returns an `α` or stops with an `ε`. -/
def Act (σ ε α : Type) : Type := σ → Except ε (α × σ)

namespace Act

variable {σ ε α β γ : Type}

/-- Return without touching the state. -/
protected def pure (a : α) : Act σ ε α := fun s => .ok (a, s)

/-- Run `m`, then `f` on its result; a stop of `m` is a stop of the whole. -/
protected def bind (m : Act σ ε α) (f : α → Act σ ε β) : Act σ ε β := fun s =>
  match m s with
  | .ok (a, s') => f a s'
  | .error e => .error e

instance : Monad (Act σ ε) where
  pure := Act.pure
  bind := Act.bind

instance : LawfulMonad (Act σ ε) := by
  refine LawfulMonad.mk' _ (fun m => funext fun s => ?_)
    (fun _ _ => rfl) fun m f h => funext fun s => ?_
  · show Act.bind m (fun a => Act.pure (id a)) s = m s
    unfold Act.bind
    cases m s <;> rfl
  · show Act.bind (Act.bind m f) h s = Act.bind m (fun a => Act.bind (f a) h) s
    unfold Act.bind
    cases m s <;> rfl

/-- Read a value off the state. -/
def gets (f : σ → α) : Act σ ε α := fun s => .ok (f s, s)

/-- Replace the state. -/
def modify (f : σ → σ) : Act σ ε Unit := fun s => .ok ((), f s)

/-- Stop. -/
def stop (e : ε) : Act σ ε α := fun _ => .error e

@[simp] theorem pure_apply (a : α) (s : σ) : (pure a : Act σ ε α) s = .ok (a, s) := rfl

@[simp] theorem gets_apply (f : σ → α) (s : σ) : (gets f : Act σ ε α) s = .ok (f s, s) := rfl

@[simp] theorem modify_apply (f : σ → σ) (s : σ) :
    (modify f : Act σ ε Unit) s = .ok ((), f s) := rfl

@[simp] theorem stop_apply (e : ε) (s : σ) : (stop e : Act σ ε α) s = .error e := rfl

theorem bind_apply (m : Act σ ε α) (f : α → Act σ ε β) (s : σ) :
    (m >>= f) s = match m s with
      | .ok (a, s') => f a s'
      | .error e => .error e := rfl

theorem ok_inj {a b : α} {s t : σ} (h : (.ok (a, s) : Except ε (α × σ)) = .ok (b, t)) :
    a = b ∧ s = t :=
  Prod.mk.inj (Except.ok.inj h)

/-- **Symbolic execution of a bind**: once the first half is known to return, run the second. -/
theorem bind_ok {m : Act σ ε α} {f : α → Act σ ε β} {s s' : σ} {a : α} (h : m s = .ok (a, s')) :
    (m >>= f) s = f a s' := by rw [bind_apply, h]

/-- …and a bind that returns ran both halves. -/
theorem exists_of_bind {m : Act σ ε α} {f : α → Act σ ε β} {s t : σ} {b : β}
    (h : (m >>= f) s = .ok (b, t)) : ∃ a s', m s = .ok (a, s') ∧ f a s' = .ok (b, t) := by
  rw [bind_apply] at h
  split at h
  next a s' e => exact ⟨a, s', e, h⟩
  next => cases h

/-- An action that stops stops the sequence. -/
theorem bind_error {m : Act σ ε α} {f : α → Act σ ε β} {s : σ} {e : ε} (h : m s = .error e) :
    (m >>= f) s = .error e := by
  rw [bind_apply, h]

/-- Two actions that end together may be followed by a third. -/
theorem bind_bind_ok {m : Act σ ε α} {f : α → Act σ ε β} {g : β → Act σ ε γ} {s s' : σ} {b : β}
    (h : (m >>= f) s = .ok (b, s')) : (m >>= fun a => f a >>= g) s = g b s' := by
  rw [bind_apply] at h ⊢
  split at h
  · exact bind_ok h
  · cases h

/-- What follows only sees how the first action ends. -/
theorem bind_congr_left {m m' : Act σ ε α} {f : α → Act σ ε β} {s s' : σ} (h : m s = m' s') :
    (m >>= f) s = (m' >>= f) s' := by
  rw [bind_apply, bind_apply, h]

/-! ## The weakest precondition -/

/-- Every way out of `m` from `s` is covered: returns by `Q`, stops by `E`. -/
def wp (m : Act σ ε α) (Q : α → σ → Prop) (E : ε → Prop) (s : σ) : Prop :=
  match m s with
  | .ok (a, s') => Q a s'
  | .error e => E e

variable {Q Q' : α → σ → Prop} {R : β → σ → Prop} {E E' : ε → Prop} {s : σ}

@[simp] theorem wp_pure (a : α) : wp (pure a : Act σ ε α) Q E s ↔ Q a s := Iff.rfl

@[simp] theorem wp_gets (f : σ → α) : wp (gets f) Q E s ↔ Q (f s) s := Iff.rfl

@[simp] theorem wp_modify {Q : Unit → σ → Prop} (f : σ → σ) :
    wp (modify f) Q E s ↔ Q () (f s) := Iff.rfl

@[simp] theorem wp_stop (e : ε) : wp (stop e : Act σ ε α) Q E s ↔ E e := Iff.rfl

@[simp] theorem wp_bind (m : Act σ ε α) (f : α → Act σ ε β) :
    wp (m >>= f) R E s ↔ wp m (fun a s' => wp (f a) R E s') E s := by
  unfold wp
  rw [bind_apply]
  rcases m s with e | ⟨a, s'⟩ <;> rfl

theorem wp_ite {c : Prop} [Decidable c] (m m' : Act σ ε α) :
    wp (if c then m else m') Q E s ↔ (c → wp m Q E s) ∧ (¬ c → wp m' Q E s) := by
  by_cases h : c <;> simp [h]

/-- **Consequence.** -/
theorem wp.mono {m : Act σ ε α} (h : wp m Q E s) (hQ : ∀ a s', Q a s' → Q' a s')
    (hE : ∀ e, E e → E' e) : wp m Q' E' s := by
  unfold wp at h ⊢
  rcases hm : m s with e | ⟨a, s'⟩
  · rw [hm] at h
    exact hE e h
  · rw [hm] at h
    exact hQ a s' h

theorem wp.imp {m : Act σ ε α} (h : wp m Q E s) (hQ : ∀ a s', Q a s' → Q' a s') :
    wp m Q' E s := h.mono hQ fun _ he => he

/-- What is proved of one computation twice. -/
theorem wp.and {m : Act σ ε α} (h : wp m Q E s) (h' : wp m Q' E' s) :
    wp m (fun a s' => Q a s' ∧ Q' a s') (fun e => E e ∧ E' e) s := by
  unfold wp at h h' ⊢
  rcases hm : m s with e | ⟨a, s'⟩
  · rw [hm] at h h'
    exact ⟨h, h'⟩
  · rw [hm] at h h'
    exact ⟨h, h'⟩

/-- A computation known to return satisfies what its return does. -/
theorem wp_of_ok {m : Act σ ε α} {a : α} {s' : σ} (h : m s = .ok (a, s')) (hQ : Q a s') :
    wp m Q E s := by
  unfold wp
  rw [h]
  exact hQ

theorem wp.of_ok {m : Act σ ε α} {a : α} {s' : σ} (h : wp m Q E s) (hm : m s = .ok (a, s')) :
    Q a s' := by
  unfold wp at h
  rwa [hm] at h

theorem wp_trivial {m : Act σ ε α} : wp m (fun _ _ => True) (fun _ => True) s := by
  unfold wp
  split <;> trivial

/-- **Total correctness**: with no stop allowed, the call returns. -/
theorem wp.total {m : Act σ ε α} (h : wp m Q (fun _ => False) s) :
    ∃ a s', m s = .ok (a, s') ∧ Q a s' := by
  unfold wp at h
  rcases hm : m s with e | ⟨a, s'⟩
  · rw [hm] at h
    exact h.elim
  · rw [hm] at h
    exact ⟨a, s', rfl, h⟩

/-! ## Two states side by side -/

variable {τ δ : Type}

/-- Code on the first of two states. -/
def onFst (e : ε → δ) (m : Act σ ε α) : Act (σ × τ) δ α := fun w =>
  match m w.1 with
  | .ok (a, s) => .ok (a, (s, w.2))
  | .error x => .error (e x)

/-- …and on the second. -/
def onSnd (e : ε → δ) (m : Act σ ε α) : Act (τ × σ) δ α := fun w =>
  match m w.2 with
  | .ok (a, s) => .ok (a, (w.1, s))
  | .error x => .error (e x)

theorem onFst_ok {e : ε → δ} {m : Act σ ε α} {s s' : σ} {t : τ} {a : α} (h : m s = .ok (a, s')) :
    onFst e m (s, t) = .ok (a, (s', t)) := by
  rw [onFst, h]

theorem onSnd_ok {e : ε → δ} {m : Act σ ε α} {s s' : σ} {t : τ} {a : α} (h : m s = .ok (a, s')) :
    onSnd e m (t, s) = .ok (a, (t, s')) := by
  rw [onSnd, h]

theorem onFst_gets_bind {e : ε → δ} {f : σ → α} {g : α → Act (σ × τ) δ β} {w : σ × τ} :
    (onFst e (gets f) >>= g) w = g (f w.1) w := rfl

theorem exists_of_onFst {e : ε → δ} {m : Act σ ε α} {w w' : σ × τ} {a : α}
    (h : onFst e m w = .ok (a, w')) : m w.1 = .ok (a, w'.1) ∧ w'.2 = w.2 := by
  unfold onFst at h
  split at h
  next e =>
    obtain ⟨rfl, rfl⟩ := ok_inj h
    exact ⟨e, rfl⟩
  next => cases h

theorem exists_of_onSnd {e : ε → δ} {m : Act σ ε α} {w w' : τ × σ} {a : α}
    (h : onSnd e m w = .ok (a, w')) : m w.2 = .ok (a, w'.2) ∧ w'.1 = w.1 := by
  unfold onSnd at h
  split at h
  next e =>
    obtain ⟨rfl, rfl⟩ := ok_inj h
    exact ⟨e, rfl⟩
  next => cases h

end Act
