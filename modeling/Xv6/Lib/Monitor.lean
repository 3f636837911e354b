import Mathlib.Logic.Function.Basic
import Mathlib.Tactic.Common
import Xv6.Lib.LTS

/-!
# Lib/Monitor — an object behind a lock, and the processes that sleep on it

The functions of an object run with its lock held, except while they sleep; another process has to
wake them, or kill them.  What they have in common is here (`Code`): taking and releasing the lock,
sleeping, and a wakeup, which goes through the processes one by one.  What is theirs is a step
function on the object (`Monitor.body`), where a step ends wherever a kill can come in between.

Falling asleep is one step: `sleep` has the lock of the process from before it releases that of the
object until the process sleeps, and neither a wakeup nor a kill can see the process without it.

A process that checks its `killed` flag and then goes to sleep can be killed in between, and sleep
on. `Monitor.awake` is what holds otherwise.
-/

/-- Program points: those all functions share, and the object's own, `B`.  A process sleeps on a
channel, and goes on at a point of its own. -/
inductive Code (B C : Type)
  | done (ret : Int)
  | acquire (b : B)
  | release (ret : Int)
  | sleep (c : C) (b : B)
  | wakeup (c : C) (k : Nat) (next : Code B C)
  | body (b : B)

/-- A process: where it is, the channel it sleeps on, and its `killed` flag. -/
structure Waiter (B C : Type) where
  pc : Code B C
  chan : Option C
  killed : Bool

namespace Waiter

variable {B C : Type} [DecidableEq C] {t : Waiter B C} {c d : C}

/-- A wakeup on `c` comes past the process. -/
def wake (t : Waiter B C) (c : C) : Waiter B C :=
  if t.chan = some c then { t with chan := none } else t

/-- `kill`: the flag is set, and a process that sleeps is woken. -/
def kill (t : Waiter B C) : Waiter B C := { t with killed := true, chan := none }

@[simp] theorem wake_pc : (t.wake c).pc = t.pc := by
  unfold wake
  split <;> rfl

@[simp] theorem wake_killed : (t.wake c).killed = t.killed := by
  unfold wake
  split <;> rfl

/-- **After a wakeup a process sleeps only on another channel**, and did so before. -/
theorem wake_chan (h : (t.wake c).chan = some d) : d ≠ c ∧ t.chan = some d := by
  unfold wake at h
  split at h
  next => cases h
  next hne => exact ⟨fun e => hne (e ▸ h), h⟩

end Waiter

/-- An object with its functions: what they do at a point, given the `killed` flag of the process
and what its user supplies; where they start; and which of them interrupt handlers call. -/
structure Monitor (σ A B C F : Type) where
  body : σ → Bool → A → B → σ × Code B C
  start : σ → F → σ × B
  handler : F → Bool

namespace Monitor

open Option

variable {σ A B C F : Type}

/-- The object, its lock and the processes. -/
structure Sys (σ B C : Type) where
  obj : σ
  lock : Option Nat
  procs : Nat → Waiter B C

namespace Sys

/-- The state with another process in the place of `p`. -/
def upd (s : Sys σ B C) (p : Nat) (t : Waiter B C) : Sys σ B C :=
  { s with procs := Function.update s.procs p t }

/-- Process `p` goes on at `pc`. -/
def goto (s : Sys σ B C) (p : Nat) (pc : Code B C) : Sys σ B C := s.upd p { s.procs p with pc }

/-- A wakeup by process `p`, which skips itself, comes past process `k`. -/
def pass [DecidableEq C] (s : Sys σ B C) (p k : Nat) (c : C) : Sys σ B C :=
  if k = p then s else s.upd k ((s.procs k).wake c)

/-- `p` is killed. -/
def kill (s : Sys σ B C) (p : Nat) : Sys σ B C :=
  s.upd p { s.procs p with killed := true, chan := none }

/-- Everybody is outside. -/
def start (x : σ) : Sys σ B C := ⟨x, none, fun _ => ⟨.done 0, none, false⟩⟩

end Sys

/-- What can happen: a process takes a step, calls a function, or is killed. -/
inductive Label (A F : Type)
  | run (p : Nat) (a : A)
  | call (p : Nat) (f : F)
  | kill (p : Nat)

variable [DecidableEq C] (M : Monitor σ A B C F) (N : Nat)

/-- What process `p` does at a program point; `N` is the size of the process table. -/
def step (s : Sys σ B C) (p : Nat) (a : A) : Code B C → Option (Sys σ B C)
  | .done _ => none
  | .acquire b => if s.lock = none then some { s.goto p (.body b) with lock := some p } else none
  | .release ret => some { s.goto p (.done ret) with lock := none }
  | .sleep c b =>
    some { s.upd p { s.procs p with pc := .acquire b, chan := some c } with lock := none }
  | .wakeup c k next =>
    if k < N then some ((s.pass p k c).goto p (.wakeup c (k + 1) next)) else some (s.goto p next)
  | .body b =>
    let r := M.body s.obj (s.procs p).killed a b
    some { s.goto p r.2 with obj := r.1 }

/-- A process that is in none of the functions calls one.  Handlers are not in the process table. -/
def call (s : Sys σ B C) (p : Nat) (f : F) : Option (Sys σ B C) :=
  match (s.procs p).pc with
  | .done _ =>
    if (M.handler f = false → p < N) ∧ (s.procs p).chan = none then
      let r := M.start s.obj f
      some { s.goto p (.acquire r.2) with obj := r.1 }
    else none
  | _ => none

def exec (s : Sys σ B C) : Label A F → Option (Sys σ B C)
  | .run p a => if (s.procs p).chan = none then M.step N s p a (s.procs p).pc else none
  | .call p f => M.call N s p f
  | .kill p => some (s.kill p)

/-- The object in a system with `N` processes. -/
def system (init : σ → Prop) : LTS (Sys σ B C) (Label A F) where
  init s := ∃ x, init x ∧ s = .start x
  step s a s' := M.exec N s a = some s'

/-! ## What a step changes -/

section

variable {M N} {s s' t : Sys σ B C} {p q k : Nat} {a : A} {b : B} {c : C} {f : F} {pc : Code B C}
  {w : Waiter B C} {l : Label A F}

omit [DecidableEq C]

@[simp] theorem upd_self : (s.upd p w).procs p = w := Function.update_self ..

theorem upd_ne (h : q ≠ p) : (s.upd p w).procs q = s.procs q := Function.update_of_ne h ..

@[simp] theorem goto_chan : ((s.goto p pc).procs q).chan = (s.procs q).chan := by
  rw [Sys.goto]
  by_cases e : q = p
  · subst e
    rw [upd_self]
  · rw [upd_ne e]

@[simp] theorem goto_killed : ((s.goto p pc).procs q).killed = (s.procs q).killed := by
  rw [Sys.goto]
  by_cases e : q = p
  · subst e
    rw [upd_self]
  · rw [upd_ne e]

theorem goto_pc : ((s.goto p pc).procs p).pc = pc := by rw [Sys.goto, upd_self]

theorem goto_pc_ne (h : q ≠ p) : ((s.goto p pc).procs q).pc = (s.procs q).pc := by
  rw [Sys.goto, upd_ne h]

/-- `t` is `s`, except that processes may have been woken and the object changed. -/
structure Calms (s t : Sys σ B C) : Prop where
  pc : ∀ q, (t.procs q).pc = (s.procs q).pc
  chan : ∀ q c, (t.procs q).chan = some c → (s.procs q).chan = some c
  lock : t.lock = s.lock

theorem Calms.refl : Calms s s := ⟨fun _ => rfl, fun _ _ h => h, rfl⟩

theorem Calms.upd (hpc : w.pc = (s.procs q).pc)
    (hch : ∀ c, w.chan = some c → (s.procs q).chan = some c) : Calms s (s.upd q w) := by
  refine ⟨fun r => ?_, fun r c h => ?_, rfl⟩ <;> by_cases e : r = q
  · subst e
    rwa [upd_self]
  · rw [upd_ne e]
  · subst e
    rw [upd_self] at h
    exact hch c h
  · rwa [upd_ne e] at h

theorem kill_calms : Calms s (s.kill p) := .upd rfl nofun

theorem kill_killed_ne (h : q ≠ p) : ((s.kill p).procs q).killed = (s.procs q).killed :=
  congrArg Waiter.killed (upd_ne h)

variable [DecidableEq C]

theorem pass_calms : Calms s (s.pass p k c) := by
  unfold Sys.pass
  split
  · exact .refl
  · exact .upd Waiter.wake_pc fun d hd => (Waiter.wake_chan hd).2

theorem pass_obj : (s.pass p k c).obj = s.obj := by
  unfold Sys.pass
  split <;> rfl

/-- **One turn of a wakeup**: one process more does not sleep on the channel. -/
theorem pass_chan (hp : (s.procs p).chan = none) (h : ∀ q < k, (s.procs q).chan ≠ some c) :
    ∀ q < k + 1, ((s.pass p k c).procs q).chan ≠ some c := by
  intro q hq e
  have hs := pass_calms.chan q c e
  obtain rfl : q = k := by
    by_contra hne
    exact h q (by omega) hs
  unfold Sys.pass at e
  split at e
  next hk =>
    rw [hk, hp] at e
    cases e
  next =>
    rw [upd_self] at e
    exact (Waiter.wake_chan e).1 rfl

omit [DecidableEq C] in
theorem call_eq (h : M.call N s p f = some s') :
    (∃ r, (s.procs p).pc = .done r) ∧ (M.handler f = false → p < N) ∧ (s.procs p).chan = none ∧
      s' = { s.goto p (.acquire (M.start s.obj f).2) with obj := (M.start s.obj f).1 } := by
  unfold call at h
  split at h
  next r e =>
    obtain ⟨⟨hp, hc⟩, h⟩ := ite_none_right_eq_some.1 h
    exact ⟨⟨r, e⟩, hp, hc, (some.inj h).symm⟩
  next => cases h

/-- **The object changes** by a step of one of its functions, or as one is called. -/
theorem exec_obj (h : M.exec N s l = some s') : s'.obj = s.obj ∨
    (∃ p a b, l = .run p a ∧ (s.procs p).pc = .body b ∧
      s'.obj = (M.body s.obj (s.procs p).killed a b).1) ∨
    ∃ p f, l = .call p f ∧ s'.obj = (M.start s.obj f).1 := by
  cases l with
  | run p a =>
    obtain ⟨-, h⟩ := ite_none_right_eq_some.1 h
    generalize hpc : (s.procs p).pc = pc at h
    cases pc with
    | done => cases h
    | acquire =>
      obtain ⟨-, h⟩ := ite_none_right_eq_some.1 h
      exact .inl (some.inj h ▸ rfl)
    | release | sleep => exact .inl (some.inj h ▸ rfl)
    | wakeup =>
      rw [step] at h
      split at h
      · exact .inl (some.inj h ▸ pass_obj)
      · exact .inl (some.inj h ▸ rfl)
    | body b => exact .inr (.inl ⟨p, a, b, rfl, hpc, some.inj h ▸ rfl⟩)
  | call p f =>
    obtain ⟨-, -, -, rfl⟩ := call_eq h
    exact .inr (.inr ⟨p, f, rfl, rfl⟩)
  | kill p => exact .inl (some.inj h ▸ rfl)

/-- A property of the object that its functions keep. -/
theorem obj_invariant {init I : σ → Prop} {Q : A → Prop} (h0 : ∀ x, init x → I x)
    (hbody : ∀ x k a b, I x → Q a → I (M.body x k a b).1) (hstart : ∀ x f, I x → I (M.start x f).1)
    (h : ((M.system N init).restrict fun _ l => ∀ p a, l = .run p a → Q a).Reach s) : I s.obj := by
  refine h.invariant (I := fun s => I s.obj) ?_ fun s l s' _ hi hs => ?_
  · rintro _ ⟨x, hx, rfl⟩
    exact h0 x hx
  · rcases exec_obj hs.2 with e | ⟨p, a, b, e, -, e'⟩ | ⟨p, f, -, e⟩
    · exact e ▸ hi
    · exact e' ▸ hbody _ _ _ _ hi (hs.1 p a e)
    · exact e ▸ hstart _ _ hi

end

/-! ## Kills and sleep -/

/-- The process has passed its check of the flag, at a point in `D` or later, and is about to
sleep. -/
def Drowsy (D : B → Prop) : Code B C → Prop
  | .done _ | .release _ => False
  | .sleep .. => True
  | .wakeup _ _ next => Drowsy D next
  | .acquire b | .body b => D b

/-- Nobody is killed between the check and the sleep. -/
def Watchful (D : B → Prop) (s : Sys σ B C) : Label A F → Prop
  | .kill p => ¬Drowsy D (s.procs p).pc
  | _ => True

instance Drowsy.decidable (D : B → Prop) [DecidablePred D] : DecidablePred (Drowsy (C := C) D)
  | .done _ | .release _ => .isFalse id
  | .sleep .. => .isTrue trivial
  | .wakeup _ _ next => Drowsy.decidable D next
  | .acquire b | .body b => inferInstanceAs (Decidable (D b))

instance (D : B → Prop) [DecidablePred D] (s : Sys σ B C) :
    DecidablePred (Watchful (A := A) (F := F) D s)
  | .kill p => inferInstanceAs (Decidable (¬Drowsy D (s.procs p).pc))
  | .run .. | .call .. => .isTrue trivial

/-- A process that has been killed is awake, and not about to sleep. -/
def Alert (D : B → Prop) (t : Waiter B C) : Prop := t.killed = true → t.chan = none ∧ ¬Drowsy D t.pc

section

variable {M N} {D : B → Prop} {s s' : Sys σ B C} {p q k : Nat} {a : A} {c : C} {pc : Code B C}
  {w : Waiter B C} {l : Label A F}

section

variable (h : ∀ q, Alert D (s.procs q))

include h

omit [DecidableEq C] in
theorem alert_upd (hw : Alert D w) (q : Nat) : Alert D ((s.upd p w).procs q) := by
  by_cases e : q = p
  · subst e
    rwa [upd_self]
  · rw [upd_ne e]
    exact h q

omit [DecidableEq C] in
/-- A process moves on, to where it is not about to sleep if it has been killed. -/
theorem alert_goto (hpc : (s.procs p).killed = true → ¬Drowsy D pc) (q : Nat) :
    Alert D ((s.goto p pc).procs q) := by
  have hw : Alert D { s.procs p with pc } := fun hk => ⟨(h p hk).1, hpc hk⟩
  exact alert_upd h hw q

theorem alert_pass (q : Nat) : Alert D ((s.pass p k c).procs q) := by
  unfold Sys.pass
  split
  · exact h q
  · refine alert_upd h (fun hk => ?_) q
    rw [Waiter.wake_killed] at hk
    obtain ⟨hc, hd⟩ := h k hk
    rw [Waiter.wake_pc]
    refine ⟨?_, hd⟩
    by_contra hne
    obtain ⟨d, e⟩ := Option.ne_none_iff_exists'.1 hne
    rw [(Waiter.wake_chan e).2] at hc
    cases hc

end

theorem alert_step (hbody : ∀ x a b, ¬D b → ¬Drowsy D (M.body x true a b).2)
    (h : ∀ q, Alert D (s.procs q)) (hpc : (s.procs p).pc = pc) (he : M.step N s p a pc = some s') :
    ∀ q, Alert D (s'.procs q) := by
  have hd : (s.procs p).killed = true → ¬Drowsy D pc := fun hk => hpc ▸ (h p hk).2
  cases pc with
  | done => cases he
  | acquire b =>
    obtain ⟨-, he⟩ := ite_none_right_eq_some.1 he
    obtain rfl := some.inj he
    exact alert_goto h hd
  | release ret =>
    obtain rfl := some.inj he
    exact alert_goto h fun _ => id
  | sleep c b =>
    obtain rfl := some.inj he
    exact alert_upd h fun hk => absurd trivial (hd hk)
  | wakeup c k next =>
    rw [step] at he
    split at he
    · obtain rfl := some.inj he
      refine alert_goto (alert_pass h) fun hk => hd ?_
      rw [← hk]
      unfold Sys.pass
      split
      · rfl
      next hkp => rw [upd_ne (Ne.symm hkp)]
    · obtain rfl := some.inj he
      exact alert_goto h hd
  | body b =>
    obtain rfl := some.inj he
    refine alert_goto h fun hk => ?_
    rw [hk]
    exact hbody _ a b (hd hk)

/-- **Nobody sleeps through a kill** that does not come between the check and the sleep. -/
theorem awake {init : σ → Prop} (hbody : ∀ x a b, ¬D b → ¬Drowsy D (M.body x true a b).2)
    (hstart : ∀ x f, ¬D (M.start x f).2) (h : ((M.system N init).restrict (Watchful D)).Reach s) :
    ∀ p, Alert D (s.procs p) := by
  refine h.invariant (I := fun s => ∀ p, Alert D (s.procs p)) ?_ fun s l s' _ hi hs => ?_
  · rintro _ ⟨x, -, rfl⟩
    exact fun _ => nofun
  · obtain ⟨hw, he⟩ := hs
    cases l with
    | run p a =>
      obtain ⟨-, he⟩ := ite_none_right_eq_some.1 he
      exact alert_step hbody hi rfl he
    | call p f =>
      obtain ⟨-, -, -, rfl⟩ := call_eq he
      exact alert_goto hi fun _ => hstart _ f
    | kill p =>
      obtain rfl := some.inj he
      exact alert_upd hi fun _ => ⟨rfl, hw⟩

end

end Monitor
