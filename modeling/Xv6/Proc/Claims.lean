import Xv6.Proc.Threads

/-!
# Proc/Claims — which locks a program point holds

`Fires` lists everything that can happen on a processor.  Each program point claims the locks its
function has acquired (`Frame.holds`) and belongs to a thread (`Frame.For`); every move accounts for
the claims of the points it replaces (`Fires.claims`).
-/

namespace Xv6.Sched

open Option

/-! ## What can happen -/

/-- Processor `c` replaces the program points `taken`, on top of `rest`, by a move. -/
inductive Fires (s : Sys) (c : Nat) : List Frame → List Frame → Move → Prop
  | frame {f : Frame} {rest : List Frame} {ok : Bool} {mv : Move} (h : f.move s c ok = some mv) :
      Fires s c [f] rest mv
  | code {f : Call} {mv : Move} (h : f.move s c = some mv) : Fires s c [] [] mv
  | handler {f : Call} {rest : List Frame} {mv : Move} (hf : f.handler = true)
      (h : f.move s c = some mv) : Fires s c [] (.intr :: rest) mv
  | interrupt {rest : List Frame} (h : s.spin.noff c = 0) :
      Fires s c [] rest { mem := s.mem, frames := [.intr] }
  | iret {rest : List Frame} (h : s.spin.noff c = 0) :
      Fires s c [.intr] rest { mem := s.mem, frames := [] }

/-- A step, taken apart. -/
structure Fired (s : Sys) (c : Nat) (taken rest : List Frame) (mv : Move) (s' : Sys) : Prop where
  stack_eq : s.stack (s.mem.cur c) = taken ++ rest
  fires : Fires s c taken rest mv
  spin : s.spin.step c mv.op = some s'.spin
  mem : s'.mem = mv.mem
  stack : s'.stack = mv.spawned (Function.update s.stack (s.mem.cur c) (mv.frames ++ rest))

variable {s s' : Sys} {c : Nat} {taken rest : List Frame} {mv : Move}

theorem Fired.of_apply (hst : s.stack (s.mem.cur c) = taken ++ rest) (hf : Fires s c taken rest mv)
    (h : s.apply c (s.mem.cur c) rest mv = some s') : Fired s c taken rest mv s' := by
  obtain ⟨k, hk, rfl⟩ := map_eq_some_iff.1 h
  exact ⟨hst, hf, hk, rfl, rfl⟩

/-- The step of a thread at a known point. -/
theorem Fired.of_exec {f : Frame} {ok : Bool} (hst : s.stack (s.mem.cur c) = f :: rest)
    (h : exec s (.run c ok) = some s') :
    ∃ mv, f.move s c ok = some mv ∧ Fired s c [f] rest mv s' := by
  simp only [exec, hst] at h
  obtain ⟨mv, hmv, h⟩ := bind_eq_some_iff.1 h
  exact ⟨mv, hmv, .of_apply hst (.frame hmv) h⟩

/-- **Every step is a move.** -/
theorem exec_fired {a : Label} (h : exec s a = some s') :
    ∃ c taken rest mv, Fired s c taken rest mv s' := by
  cases a with
  | run c ok =>
    cases hst : s.stack (s.mem.cur c) with
    | nil => simp [exec, hst] at h
    | cons f rest =>
      obtain ⟨mv, -, F⟩ := Fired.of_exec hst h
      exact ⟨c, [f], rest, mv, F⟩
  | call c f =>
    simp only [exec] at h
    split at h
    next hst =>
      obtain ⟨mv, hmv, h⟩ := bind_eq_some_iff.1 h
      exact ⟨c, [], [], mv, .of_apply hst (.code hmv) h⟩
    next rest hst =>
      split at h
      next hf =>
        obtain ⟨mv, hmv, h⟩ := bind_eq_some_iff.1 h
        exact ⟨c, [], .intr :: rest, mv, .of_apply hst (.handler hf hmv) h⟩
      next => cases h
    next => cases h
  | interrupt c =>
    simp only [exec] at h
    split at h
    next hn => exact ⟨c, [], _, _, .of_apply rfl (.interrupt hn) h⟩
    next => cases h
  | iret c =>
    simp only [exec] at h
    split at h
    next rest hst =>
      split at h
      next hn => exact ⟨c, [.intr], rest, _, .of_apply hst (.iret hn) h⟩
      next => cases h
    next => cases h

/-! ## Locks -/

/-- What `wait` holds while it calls `sleep`. -/
def Sleeper.claims : Sleeper → List Lk
  | .code _ => []
  | .wait .. => [.wait]

/-- The locks a program point claims for its function. -/
def Frame.holds : Frame → List Lk
  | .schedulerHeld i | .schedulerSwtch i | .schedulerBack i | .yieldEnd i | .forkret i
  | .sleepSet i _ _ | .sleepEnd i _ _ | .wakeupHeld _ i | .killHeld _ i _ | .setkilledHeld i
  | .allocNext _ i | .allocFound _ i | .allocFail i | .forkRel _ i | .forkRunHeld i | .exitEnd i =>
    [.proc i]
  | .sleep _ _ k => k.claims
  | .sleepRel p _ k => .proc p :: k.claims
  | .allocPid _ i _ _ => [.pid, .proc i]
  | .forkParentHeld .. | .reparent .. | .exitZombie .. | .waitScan .. | .waitRet | .waitKilled .. =>
    [.wait]
  | .exitRel i => [.wait, .proc i]
  | .waitNext _ _ i | .waitFound _ _ i | .waitRelease i | .waitKilledHeld i _ _ => [.proc i, .wait]
  | _ => []

/-- The locks a thread claims. -/
def claims (st : List Frame) : List Lk := st.flatMap Frame.holds

@[simp] theorem claims_nil : claims [] = [] := rfl

@[simp] theorem claims_cons (f : Frame) (st : List Frame) :
    claims (f :: st) = f.holds ++ claims st := rfl

@[simp] theorem claims_append (st st' : List Frame) :
    claims (st ++ st') = claims st ++ claims st' :=
  List.flatMap_append ..

/-- Locks of other modules are not claimed. -/
theorem obj_notMem_claims {st : List Frame} {n : Nat} : Lk.obj n ∉ claims st := by
  intro h
  obtain ⟨f, -, hf⟩ := List.mem_flatMap.1 h
  cases f <;> simp [Frame.holds] at hf
  case sleep p ch k => cases k <;> simp [Sleeper.claims] at hf
  case sleepRel p ch k => cases k <;> simp [Sleeper.claims] at hf

/-! ## Threads -/

/-- The threads a program point can belong to. -/
def Frame.For (x : Tid) : Frame → Prop
  | .scheduler _ | .schedulerHeld _ | .schedulerSwtch _ | .schedulerBack _ => ∃ c, x = .cpu c
  | .intr | .wakeup .. | .wakeupHeld .. => True
  | .kill .. | .killHeld .. | .setkilled _ | .setkilledHeld _ | .allocFail _ | .forkRunHeld _
  | .waitRelease _ | .waitRet => ∃ p, x = .proc p
  | .relock p k | .sleep p _ k | .sleepRel p _ k | .sleepSet p _ k | .sleepEnd p _ k =>
    x = .proc p ∧ ∀ q a, k = .wait q a → q = p
  | .sched p | .yield p | .yieldEnd p | .forkret p | .alloc p _ | .allocNext p _ | .allocFound p _
  | .allocPid p _ _ _ | .forkRel p _ | .forkParent p _ | .forkParentHeld p _ | .forkRun p _
  | .exit p _ | .reparent p _ _ | .exitZombie p _ | .exitRel p | .exitEnd p | .wait p _
  | .waitScan p _ _ _ | .waitNext p _ _ | .waitFound p _ _ | .waitKilled p _
  | .waitKilledHeld p _ _ => x = .proc p

/-- How a move changes the claims of its thread. -/
inductive Accounts : List Lk → Spin.Op Lk → List Lk → Prop
  | skip {ls ls' : List Lk} (h : ls'.Perm ls) : Accounts ls .skip ls'
  | acquire {l : Lk} {ls ls' : List Lk} (h : ls'.Perm (l :: ls)) : Accounts ls (.acquire l) ls'
  | release {l : Lk} {ls ls' : List Lk} (h : ls.Perm (l :: ls')) : Accounts ls (.release l) ls'
  | lock {n : Nat} {ls ls' : List Lk} (h : ls'.Perm ls) : Accounts ls (.acquire (.obj n)) ls'
  | unlock {n : Nat} {ls ls' : List Lk} (h : ls'.Perm ls) : Accounts ls (.release (.obj n)) ls'

theorem Accounts.append {ls ls' : List Lk} {o : Spin.Op Lk} (h : Accounts ls o ls') (r : List Lk) :
    Accounts (ls ++ r) o (ls' ++ r) := by
  cases h with
  | skip h => exact .skip (h.append_right r)
  | acquire h => exact .acquire (h.append_right r)
  | release h => exact .release (h.append_right r)
  | lock h => exact .lock (h.append_right r)
  | unlock h => exact .unlock (h.append_right r)

/-- **Every program point accounts for its locks.** -/
theorem Frame.move_accounts {f : Frame} {x : Tid} {ok : Bool} (h : f.move s c ok = some mv)
    (hx : f.For x) (hme : ∀ p, x = .proc p → s.mem.proc c = some p) :
    Accounts f.holds mv.op (claims mv.frames) := by
  cases f with
  | forkret p =>
    simp only [Frame.move, hme p hx] at h
    cases h
    exact .release (.refl _)
  | sleep p ch k =>
    cases h
    exact .acquire (by simp [holds])
  | sleepRel p ch k =>
    cases h
    cases k with
    | code n => exact .unlock (.refl _)
    | wait q a => exact .release (.swap ..)
  | relock p k =>
    cases h
    cases k with
    | code n => exact .lock (.refl _)
    | wait q a => exact .acquire (.refl _)
  | killHeld pid i found =>
    cases h
    cases found <;> exact .release (.refl _)
  | alloc p i =>
    simp only [Frame.move] at h
    split at h <;> cases h
    · refine .acquire ?_
      simp only
      split <;> exact .refl _
    · exact .skip (.refl _)
  | exitZombie p st =>
    cases h
    exact .acquire (.swap ..)
  | waitScan p addr i hk =>
    simp only [Frame.move] at h
    split at h
    · split at h <;> cases h
      · refine .acquire ?_
        simp only
        split <;> exact .refl _
      · exact .skip (.refl _)
    · cases h
      cases hk <;> exact .skip (.refl _)
  | waitKilledHeld p addr k =>
    simp only [Frame.move, hme p hx] at h
    cases h
    cases k <;> exact .release (.refl _)
  -- branches that end in moves of one kind
  | scheduler | sched | wakeup | kill | allocPid | reparent | waitFound =>
    simp only [Frame.move] at h
    split at h <;> (try split at h) <;> cases h <;>
      first
      | exact .skip (.refl _)
      | exact .acquire (.refl _)
      | exact .release (.refl _)
  | _ =>
    cases h <;>
      first
      | exact .skip (.refl _)
      | exact .acquire (.refl _)
      | exact .release (.refl _)

theorem Call.move_accounts {f : Call} (h : f.move s c = some mv) :
    Accounts [] mv.op (claims mv.frames) := by
  cases f with
  | acquire n => cases h; exact .lock (.refl _)
  | release n => cases h; exact .unlock (.refl _)
  | exit st =>
    obtain ⟨p, -, h⟩ := bind_eq_some_iff.1 h
    split at h <;> cases h
    exact .skip (.refl _)
  | sleep | yield | fork | wait =>
    obtain ⟨p, -, rfl⟩ := map_eq_some_iff.1 h
    exact .skip (.refl _)
  | _ => cases h; exact .skip (.refl _)

/-- **Every move accounts for the locks of its thread.** -/
theorem Fires.claims {x : Tid} (h : Fires s c taken rest mv) (hx : ∀ f ∈ taken, f.For x)
    (hme : ∀ p, x = .proc p → s.mem.proc c = some p) :
    Accounts (Sched.claims (taken ++ rest)) mv.op (Sched.claims (mv.frames ++ rest)) := by
  rw [claims_append, claims_append]
  refine Accounts.append ?_ _
  cases h with
  | frame h =>
    have := Frame.move_accounts h (hx _ (by simp)) hme
    simpa using this
  | code h | handler _ h => exact Call.move_accounts h
  | interrupt _ | iret _ => exact .skip (.refl _)

/-! ## What comes next -/

/-- The program points that can follow one. -/
def Frame.next (s : Sys) (c : Nat) : Frame → List Frame
  | .scheduler i => [.schedulerSwtch i, .schedulerHeld i, .scheduler 0]
  | .schedulerHeld i | .schedulerBack i => [.scheduler (i + 1)]
  | .schedulerSwtch i => [.schedulerBack i]
  | .yield p => [.sched p, .yieldEnd p]
  | .sleep p ch k => [.sleepRel p ch k]
  | .sleepRel p ch k => [.sleepSet p ch k]
  | .sleepSet p ch k => [.sched p, .sleepEnd p ch k]
  | .sleepEnd p _ k => [.relock p k]
  | .relock _ (.wait p addr) => [.waitScan p addr 0 false]
  | .wakeup ch i => [.wakeup ch (i + 1), .wakeupHeld ch i]
  | .wakeupHeld ch i => [.wakeup ch (i + 1)]
  | .kill pid i => [.killHeld pid i true, .killHeld pid i false]
  | .killHeld pid i _ => [.kill pid (i + 1)]
  | .setkilled i => [.setkilledHeld i]
  | .alloc p i => [.allocFound p i, .allocNext p i]
  | .allocNext p i => [.alloc p (i + 1)]
  | .allocFound p i => [.allocPid p i s.mem.nextpid s.mem.count]
  | .allocPid p i _ _ => [.forkRel p i, .allocFail i]
  | .forkRel p np => [.forkParent p np]
  | .forkParent p np => [.forkParentHeld p np]
  | .forkParentHeld p np => [.forkRun p np]
  | .forkRun _ np => [.forkRunHeld np]
  | .exit p status => [.reparent p status 0]
  | .reparent p status i => [.wakeup (.proc s.mem.initproc) 0, .reparent p status (i + 1),
      .wakeup (.ofParent (s.mem.procs p).parent) 0, .exitZombie p status]
  | .exitZombie p _ => [.exitRel p]
  | .exitRel p => [.sched p, .exitEnd p]
  | .wait p addr => [.waitScan p addr 0 false]
  | .waitScan p addr i hk => [.waitFound p addr i, .waitNext p addr i, .waitScan p addr (i + 1) hk,
      .waitKilled p addr, .waitRet]
  | .waitNext p addr i => [.waitScan p addr (i + 1) true]
  | .waitFound _ _ i => [.waitRelease i]
  | .waitRelease _ => [.waitRet]
  | .waitKilled p addr => [.waitKilledHeld p addr (s.mem.procs p).killed]
  | .waitKilledHeld p addr _ =>
    .waitRet :: (s.mem.proc c).toList.map fun q => .sleep q (.proc p) (.wait p addr)
  | _ => []

theorem Frame.move_next {f : Frame} {ok : Bool} (h : f.move s c ok = some mv) :
    mv.frames ⊆ f.next s c := by
  cases f with
  | forkret =>
    obtain ⟨q, -, rfl⟩ := map_eq_some_iff.1 h
    simp
  | waitKilledHeld p addr k =>
    obtain ⟨q, hq, rfl⟩ := map_eq_some_iff.1 h
    cases k <;> simp [Frame.next, hq]
  | relock p k => cases h; cases k <;> simp [Frame.next]
  | killHeld pid i found => cases h; cases found <;> simp [Frame.next]
  | alloc p i =>
    simp only [Frame.move] at h
    split at h <;> cases h <;> simp only <;> (try split) <;> simp [Frame.next]
  | waitScan p addr i hk =>
    simp only [Frame.move] at h
    split at h <;> (try split at h) <;> cases h <;> simp only <;> (try split) <;> simp [Frame.next]
  | scheduler | sched | wakeup | kill | reparent | allocPid | waitFound =>
    simp only [Frame.move] at h
    split at h <;> (try split at h) <;> cases h <;> simp [Frame.next]
  | _ => cases h <;> simp [Frame.next]

/-- A point belongs to the thread of the point before it. -/
theorem Frame.next_for {f : Frame} {x : Tid} (hx : f.For x)
    (hme : ∀ p, x = .proc p → s.mem.proc c = some p) : ∀ g ∈ f.next s c, g.For x := by
  cases f with
  | relock p k =>
    cases k with
    | code n => simp [Frame.next]
    | wait q a =>
      obtain ⟨rfl, hk⟩ := hx
      simp [Frame.next, Frame.For, hk q a rfl]
  | waitKilledHeld p addr k =>
    obtain rfl : x = .proc p := hx
    simp only [Frame.next, hme p rfl, toList_some, List.map_cons, List.map_nil, List.mem_cons,
      List.not_mem_nil, or_false, forall_eq_or_imp, forall_eq]
    exact ⟨⟨p, rfl⟩, rfl, by rintro q a ⟨⟩; rfl⟩
  | _ => simp_all [Frame.next, Frame.For]

end Xv6.Sched
