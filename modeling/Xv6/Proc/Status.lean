import Xv6.Proc.Claims

/-!
# Proc/Status — where a process is

A process is off every processor with its thread at a point to resume from, or one processor has it:
about to switch to it, executing it, or just switched back (`Status`).  While it executes, its state
is `RUNNING` but for the moments around `sched`, and then its thread holds `p->lock` (`leftState`).
`Inv` is this for all processes, with the claims of locks and the shape of stacks it rests on.
-/

namespace Xv6.Sched

/-! ## Stacks -/

/-- The state of a process whose thread is executed with this stack. -/
def leftState : List Frame → PState
  | .sched _ :: .yieldEnd _ :: _ => .runnable
  | .sched _ :: .sleepEnd .. :: _ => .sleeping
  | .sched _ :: .exitEnd _ :: _ => .zombie
  | .exitRel _ :: _ => .zombie
  | _ => .running

/-- …and what it is about to sleep on. -/
def leftAsleep : List Frame → Option (Chan × Lk)
  | .sleepSet _ ch k :: _ => some (ch, k.lk)
  | .sched _ :: .sleepEnd _ ch k :: _ => some (ch, k.lk)
  | _ => none

/-- Nothing is left. -/
def Calm (st : List Frame) : Prop := leftState st = .running ∧ leftAsleep st = none

/-- A function that calls another, or is interrupted, has left nothing; and a process that calls
`sched` has left its state behind. -/
def Nested : List Frame → Prop
  | [] => True
  | f :: r => (∀ p, f = .sched p → leftState (f :: r) ≠ .running) ∧ Calm r ∧ Nested r

/-- The functions only code outside `proc.c` calls, and `exit` among them. -/
def Frame.base : Frame → Bool
  | .alloc .. | .allocNext .. | .allocFound .. | .allocPid .. | .allocFail _ | .forkRel ..
  | .forkParent .. | .forkParentHeld .. | .forkRun .. | .forkRunHeld _ | .exit .. | .reparent ..
  | .exitZombie .. | .exitRel _ | .exitEnd _ | .wait .. | .waitScan .. | .waitNext ..
  | .waitFound ..
  | .waitRelease _ | .waitRet | .waitKilled .. | .waitKilledHeld .. | .sleep .. | .sleepRel ..
  | .sleepSet .. | .sleepEnd .. | .relock .. => true
  | _ => false

/-- They are at the bottom of their stack. -/
def Based : List Frame → Prop
  | [] => True
  | f :: r => (f.base = true → r = []) ∧ Based r

/-- A point at which a process can be resumed. -/
def Resumes (p : Nat) (st : List Frame) : Prop :=
  ∃ r, st = .yieldEnd p :: r ∨ (∃ ch k, st = .sleepEnd p ch k :: r) ∨ st = .forkret p :: r

/-- What the thread of a process that is not executed looks like. -/
def Parked (P : Proc) (p : Nat) (st : List Frame) : Prop :=
  match P.state with
  | .unused => (st = [] ∨ st = [.exitEnd p]) ∧ P.asleep = none
  | .used => st = [.forkret p] ∧ P.asleep = none
  | .zombie => st = [.exitEnd p] ∧ P.asleep = none
  | .runnable | .running => Resumes p st ∧ claims st = [.proc p] ∧ P.asleep = none
  | .sleeping => ∃ ch k r, st = .sleepEnd p ch k :: r ∧ claims st = [.proc p] ∧
      P.asleep = some (ch, k.lk)

/-! ## The invariant -/

/-- **Where a process is.** -/
inductive Status (s : Sys) (p : Nat) : Prop
  | off (h : ∀ d, s.mem.proc d ≠ some p) (hs : (s.mem.procs p).state ≠ .running)
      (hp : Parked (s.mem.procs p) p (s.stack (.proc p)))
  | entering (d : Nat) (h : ∀ e, s.mem.proc e = some p ↔ e = d) (hcur : s.mem.cur d = .cpu d)
      (hst : s.stack (.cpu d) = [.schedulerSwtch p]) (hs : (s.mem.procs p).state = .running)
      (hp : Parked (s.mem.procs p) p (s.stack (.proc p)))
  | on (d : Nat) (h : ∀ e, s.mem.proc e = some p ↔ e = d) (hcur : s.mem.cur d = .proc p)
      (hst : s.stack (.cpu d) = [.schedulerBack p])
      (hs : (s.mem.procs p).state = leftState (s.stack (.proc p)))
      (ha : (s.mem.procs p).asleep = leftAsleep (s.stack (.proc p)))
  | back (d : Nat) (h : ∀ e, s.mem.proc e = some p ↔ e = d) (hcur : s.mem.cur d = .cpu d)
      (hst : s.stack (.cpu d) = [.schedulerBack p]) (hs : (s.mem.procs p).state ≠ .running)
      (hp : Parked (s.mem.procs p) p (s.stack (.proc p)))

/-- The points of an interrupt handler on a processor without a process. -/
def Frame.handles : Frame → Bool
  | .intr | .wakeup .. | .wakeupHeld .. => true
  | _ => false

/-- The thread of a processor without a process. -/
def Idle (st : List Frame) : Prop :=
  (∃ i, st = [.schedulerHeld i]) ∨ ∃ h i, st = h ++ [.scheduler i] ∧ ∀ f ∈ h, f.handles = true

/-- A processor executes its own thread or that of its process, and has a process only between
`schedulerSwtch` and `schedulerBack`. -/
structure CpuOk (s : Sys) (c : Nat) : Prop where
  cur : s.mem.cur c = .cpu c ∨ ∃ p, s.mem.cur c = .proc p
  proc : ∀ p, s.mem.cur c = .proc p → s.mem.proc c = some p
  idle : s.mem.proc c = none → Idle (s.stack (.cpu c))

/-- The slot a thread in `fork` is filling. -/
def Frame.owner : Frame → Option Nat
  | .allocFound _ i | .allocPid _ i _ _ | .forkRel _ i | .forkParent _ i | .forkParentHeld _ i
  | .forkRun _ i => some i
  | _ => none

/-- The slot a program point works on, and the state it knows that to be in. -/
def Frame.slot : Frame → Option (Nat × PState)
  | .allocFound _ i | .allocPid _ i _ _ => some (i, .unused)
  | .forkRel _ i | .forkParent _ i | .forkParentHeld _ i | .forkRun _ i => some (i, .used)
  | .waitFound _ _ i => some (i, .zombie)
  | _ => none

/-- It is in that state. -/
def Frame.Knows (m : Mem) (f : Frame) : Prop := ∀ i x, f.slot = some (i, x) → (m.procs i).state = x

/-- **The invariant of the scheduler.** -/
structure Inv (s : Sys) : Prop where
  counted : s.spin.Counted
  claims : ∀ c, s.spin.Claims c (Sched.claims (s.stack (s.mem.cur c)))
  home : ∀ x, ∀ f ∈ s.stack x, f.For x
  nested : ∀ x, Nested (s.stack x)
  based : ∀ x, Based (s.stack x)
  cpu : ∀ c, CpuOk s c
  status : ∀ p, Status s p
  knows : ∀ x, ∀ f ∈ s.stack x, f.Knows s.mem
  owner : ∀ x y f g i, f ∈ s.stack x → g ∈ s.stack y → f.owner = some i → g.owner = some i → x = y
  chan : ∀ p, (s.mem.procs p).state = .sleeping → ∃ l, (s.mem.procs p).asleep = some
    ((s.mem.procs p).chan, l)

/-! ## What follows from it -/

variable {s s' : Sys} {c d p : Nat} {st r : List Frame} {f : Frame}

theorem Calm.nil : Calm [] := ⟨rfl, rfl⟩

/-- A process that has left holds its own lock. -/
theorem mem_claims_of_left (hst : ∀ f ∈ st, f.For (.proc p)) (h : leftState st ≠ .running) :
    Lk.proc p ∈ claims st := by
  unfold leftState at h
  split at h
  next q r =>
    cases hst (.yieldEnd q) (by simp)
    simp [Frame.holds]
  next q ch k r =>
    obtain ⟨e, -⟩ := hst (.sleepEnd q ch k) (by simp)
    cases e
    simp [Frame.holds]
  next q r =>
    cases hst (.exitEnd q) (by simp)
    simp [Frame.holds]
  next q r =>
    cases hst (.exitRel q) (by simp)
    simp [Frame.holds]
  next => exact absurd rfl h

/-- …and so does one that is about to sleep. -/
theorem mem_claims_of_asleep (hst : ∀ f ∈ st, f.For (.proc p)) (h : leftAsleep st ≠ none) :
    Lk.proc p ∈ claims st := by
  unfold leftAsleep at h
  split at h
  next q ch k r =>
    obtain ⟨e, -⟩ := hst (.sleepSet q ch k) (by simp)
    cases e
    simp [Frame.holds]
  next q ch k r =>
    obtain ⟨e, -⟩ := hst (.sleepEnd q ch k) (by simp)
    cases e
    simp [Frame.holds]
  next => exact absurd rfl h

theorem Resumes.calm (h : Resumes p st) : Calm st := by
  obtain ⟨r, rfl | ⟨ch, k, rfl⟩ | rfl⟩ := h <;> exact ⟨rfl, rfl⟩

namespace Inv

section

variable (h : Inv s)

include h

/-- A process thread that is executed. -/
theorem on_of_cur (hc : s.mem.cur c = .proc p) :
    (∀ e, s.mem.proc e = some p ↔ e = c) ∧ s.stack (.cpu c) = [.schedulerBack p] ∧
      (s.mem.procs p).state = leftState (s.stack (.proc p)) ∧
      (s.mem.procs p).asleep = leftAsleep (s.stack (.proc p)) := by
  have hp := (h.cpu c).proc p hc
  cases h.status p with
  | off hd _ _ => exact absurd hp (hd c)
  | entering d hd hcur hst hs hp' =>
    obtain rfl := (hd c).1 hp
    rw [hcur] at hc
    cases hc
  | on d hd hcur hst hs ha =>
    obtain rfl := (hd c).1 hp
    exact ⟨hd, hst, hs, ha⟩
  | back d hd hcur hst hs hp' =>
    obtain rfl := (hd c).1 hp
    rw [hcur] at hc
    cases hc

/-- One processor executes it. -/
theorem cur_unique (hc : s.mem.cur c = .proc p) (hd : s.mem.cur d = .proc p) : d = c :=
  ((h.on_of_cur hc).1 d).1 ((h.cpu d).proc p hd)

theorem cur_eq {x : Tid} (hc : s.mem.cur c = x) (hd : s.mem.cur d = x) : d = c := by
  cases x with
  | proc p => exact h.cur_unique hc hd
  | cpu e =>
    rcases (h.cpu c).cur with e1 | ⟨q, e1⟩ <;> rw [e1] at hc <;> cases hc
    rcases (h.cpu d).cur with e2 | ⟨q, e2⟩ <;> rw [e2] at hd <;> cases hd
    rfl

/-- **A process whose lock is free** and that is not `RUNNING` is off every processor. -/
theorem off_of_free (hl : s.spin.holder (.proc p) = none) (hs : (s.mem.procs p).state ≠ .running) :
    (∀ d, s.mem.proc d ≠ some p) ∧ Parked (s.mem.procs p) p (s.stack (.proc p)) := by
  cases h.status p with
  | off hd _ hp => exact ⟨hd, hp⟩
  | entering d hd hcur hst hs' hp' => exact absurd hs' hs
  | on d hd hcur hst hs' ha =>
    rw [hs'] at hs
    have hm := mem_claims_of_left (h.home _) hs
    have := (h.claims d).held (.proc p) (by rw [hcur]; exact hm)
    rw [hl] at this
    cases this
  | back d hd hcur hst hs' hp' =>
    have := (h.claims d).held (.proc p) (by rw [hcur, hst]; simp [Frame.holds])
    rw [hl] at this
    cases this

/-- The thread of a processor that has a process. -/
theorem cpu_stack (hp : s.mem.proc c = some p) :
    s.stack (.cpu c) = [.schedulerSwtch p] ∨ s.stack (.cpu c) = [.schedulerBack p] := by
  cases h.status p with
  | off hd _ _ => exact absurd hp (hd c)
  | entering d hd _ e _ _ =>
    obtain rfl := (hd c).1 hp
    exact .inl e
  | on d hd _ e _ _ | back d hd _ e _ _ =>
    obtain rfl := (hd c).1 hp
    exact .inr e

/-- The thread of a processor is at no call from outside, and in a handler only without a
process. -/
theorem cpu_none (hst : s.stack (.cpu c) = [] ∨ ∃ r, s.stack (.cpu c) = .intr :: r) :
    s.mem.proc c = none ∧ s.stack (.cpu c) ≠ [] := by
  cases hp : s.mem.proc c with
  | none =>
    refine ⟨rfl, fun e => ?_⟩
    rcases (h.cpu c).idle hp with ⟨i, e'⟩ | ⟨h', i, e', -⟩ <;> simp [e'] at e
  | some q => rcases h.cpu_stack hp with e | e <;> rcases hst with e' | ⟨r, e'⟩ <;> simp [e] at e'

/-- A process that is not executed is parked. -/
theorem parked (hc : ∀ d, s.mem.cur d ≠ .proc p) :
    Parked (s.mem.procs p) p (s.stack (.proc p)) := by
  cases h.status p with
  | off hd _ hp => exact hp
  | entering d hd hcur hst hs' hp' => exact hp'
  | on d hd hcur hst hs' ha => exact absurd hcur (hc d)
  | back d hd hcur hst hs' hp' => exact hp'

end

end Inv

end Xv6.Sched
