import Xv6.Proc.Status

/-!
# Proc/Effect — what a step does

`Effect` lists what a program point can do to memory, with what it has checked before.  Every later
proof about steps goes by cases of it, or by the shape of the stack a move leaves (`Shape`).
-/

namespace Xv6.Sched

open Option

/-! ## What a move does to memory -/

variable {s s' : Sys} {c d p i : Nat} {taken rest st r : List Frame} {f : Frame}
  {mv : Move} {ok : Bool}

/-- What happens at a program point, by its effect on memory. -/
inductive Effect (s : Sys) (c : Nat) : Frame → Move → Prop
  | quiet {f : Frame} {mv : Move} (hm : mv.mem = s.mem) (hs : mv.spawn = none)
      (hl : ∀ r, Calm r → leftState (mv.frames ++ r) = leftState (f :: r) ∧
        leftAsleep (mv.frames ++ r) = leftAsleep (f :: r)) : Effect s c f mv
  | run {i : Nat} (hi : i < NPROC) (hr : (s.mem.procs i).state = .runnable) :
      Effect s c (.scheduler i)
        { op := .acquire (.proc i), mem := (s.mem.setState i .running).setCpu c (some i)
          frames := [.schedulerSwtch i] }
  | enter {i : Nat} : Effect s c (.schedulerSwtch i)
      { mem := s.mem.swtch c (.proc i), frames := [.schedulerBack i] }
  | back {i : Nat} : Effect s c (.schedulerBack i)
      { op := .release (.proc i), mem := s.mem.setCpu c none, frames := [.scheduler (i + 1)] }
  | sched {p : Nat} (hl : s.spin.holder (.proc p) = some c) (hn : s.spin.noff c = 1)
      (hs : (s.mem.procs p).state ≠ .running) :
      Effect s c (.sched p) { mem := s.mem.swtch c (.cpu c), frames := [] }
  | yield {p : Nat} : Effect s c (.yield p)
      { op := .acquire (.proc p), mem := s.mem.setState p .runnable
        frames := [.sched p, .yieldEnd p] }
  | sleepRel {p : Nat} {ch : Chan} {k : Sleeper} : Effect s c (.sleepRel p ch k)
      { op := .release k.lk, mem := s.mem.upd p fun P => { P with asleep := some (ch, k.lk) }
        frames := [.sleepSet p ch k] }
  | sleepSet {p : Nat} {ch : Chan} {k : Sleeper} : Effect s c (.sleepSet p ch k)
      { mem := s.mem.upd p fun P => { P with chan := ch, state := .sleeping }
        frames := [.sched p, .sleepEnd p ch k] }
  | sleepEnd {p : Nat} {ch : Chan} {k : Sleeper} : Effect s c (.sleepEnd p ch k)
      { op := .release (.proc p), mem := s.mem.upd p fun P => { P with chan := .null }
        frames := [.relock p k] }
  | wake {ch : Chan} {i : Nat} (hi : i < NPROC) (hc : s.mem.proc c ≠ some i) :
      Effect s c (.wakeup ch i)
        { op := .acquire (.proc i), mem := s.mem.upd i (Proc.wake ch)
          frames := [.wakeupHeld ch i] }
  | kill {pid : Int} {i : Nat} (hi : i < NPROC) (hp : (s.mem.procs i).pid = pid) :
      Effect s c (.kill pid i)
        { op := .acquire (.proc i), mem := s.mem.upd i Proc.kill, frames := [.killHeld pid i true] }
  | setkilled {i : Nat} : Effect s c (.setkilled i)
      { op := .acquire (.proc i), mem := s.mem.upd i fun P => { P with killed := true }
        frames := [.setkilledHeld i] }
  | allocFound {p i : Nat} : Effect s c (.allocFound p i)
      { op := .acquire .pid
        mem := { s.mem with nextpid := wrap32 (s.mem.nextpid + 1), count := s.mem.count + 1 }
        frames := [.allocPid p i s.mem.nextpid s.mem.count] }
  | allocPid {p i sn : Nat} {pid : Int} : Effect s c (.allocPid p i pid sn)
      { op := .release .pid
        mem := s.mem.upd i fun P => { P with pid := pid, state := .used, sn := sn }
        frames := [.forkRel p i], spawn := some i }
  | allocFail {p i sn : Nat} {pid : Int} : Effect s c (.allocPid p i pid sn)
      { op := .release .pid, mem := s.mem.freeproc i, frames := [.allocFail i] }
  | forkParent {p np : Nat} : Effect s c (.forkParent p np)
      { op := .acquire .wait, mem := s.mem.upd np fun P => { P with parent := some p }
        frames := [.forkParentHeld p np] }
  | forkRun {p np : Nat} : Effect s c (.forkRun p np)
      { op := .acquire (.proc np)
        mem := { s.mem.setState np .runnable with
          forks := ((s.mem.procs np).sn, (s.mem.procs np).pid) :: s.mem.forks }
        frames := [.forkRunHeld np] }
  | adopt {p i : Nat} {status : Int} (hi : i < NPROC) (hp : (s.mem.procs i).parent = some p) :
      Effect s c (.reparent p status i)
        { mem := s.mem.upd i fun P => { P with parent := some s.mem.initproc }
          frames := [.wakeup (.proc s.mem.initproc) 0, .reparent p status (i + 1)] }
  | zombie {p : Nat} {status : Int} : Effect s c (.exitZombie p status)
      { op := .acquire (.proc p)
        mem := s.mem.upd p fun P => { P with xstate := status, state := .zombie }
        frames := [.exitRel p] }
  | reap {p i : Nat} {addr : Bool} : Effect s c (.waitFound p addr i)
      { mem := { s.mem.freeproc i with
          reaps := ⟨(s.mem.procs i).sn, (s.mem.procs i).pid, (s.mem.procs i).xstate,
            (s.mem.procs p).sn⟩ :: s.mem.reaps }
        frames := [.waitRelease i] }

theorem Mem.freeproc_upd (m : Mem) (g : Proc → Proc) : (m.upd i g).freeproc i = m.freeproc i := by
  simp [Mem.freeproc, Mem.upd]

/-- **Every program point has one of these effects.** -/
theorem Frame.move_effect (h : f.move s c ok = some mv) : Effect s c f mv := by
  cases f with
  | scheduler i =>
    simp only [Frame.move] at h
    split at h
    next hi =>
      split at h
      next hr => cases h; exact .run hi hr
      next => cases h; exact .quiet rfl rfl fun _ _ => ⟨rfl, rfl⟩
    next => cases h; exact .quiet rfl rfl fun _ _ => ⟨rfl, rfl⟩
  | schedulerSwtch => cases h; exact .enter
  | schedulerBack => cases h; exact .back
  | sched p =>
    simp only [Frame.move] at h
    split at h
    next hg => cases h; exact .sched hg.1 hg.2.1 hg.2.2
    next => cases h
  | yield => cases h; exact .yield
  | sleepRel => cases h; exact .sleepRel
  | sleepSet => cases h; exact .sleepSet
  | sleepEnd => cases h; exact .sleepEnd
  | wakeup ch i =>
    simp only [Frame.move] at h
    split at h
    next hi =>
      split at h
      next => cases h; exact .quiet rfl rfl fun _ _ => ⟨rfl, rfl⟩
      next hc => cases h; exact .wake hi hc
    next => cases h; exact .quiet rfl rfl fun _ hr => hr
  | kill pid i =>
    simp only [Frame.move] at h
    split at h
    next hi =>
      split at h
      next hp => cases h; exact .kill hi hp
      next => cases h; exact .quiet rfl rfl fun _ _ => ⟨rfl, rfl⟩
    next => cases h; exact .quiet rfl rfl fun _ hr => hr
  | setkilled => cases h; exact .setkilled
  | allocFound => cases h; exact .allocFound
  | allocPid p i pid sn =>
    simp only [Frame.move] at h
    split at h
    next => cases h; exact .allocPid
    next =>
      rw [Mem.freeproc_upd] at h
      cases h
      exact .allocFail
  | forkParent => cases h; exact .forkParent
  | forkRun => cases h; exact .forkRun
  | reparent p st i =>
    simp only [Frame.move] at h
    split at h
    next hi =>
      split at h
      next hp => cases h; exact .adopt hi hp
      next => cases h; exact .quiet rfl rfl fun _ _ => ⟨rfl, rfl⟩
    next => cases h; exact .quiet rfl rfl fun _ _ => ⟨rfl, rfl⟩
  | exitZombie => cases h; exact .zombie
  | waitFound p addr i =>
    simp only [Frame.move] at h
    split at h
    next => cases h; exact .quiet rfl rfl fun _ _ => ⟨rfl, rfl⟩
    next => cases h; exact .reap
  | forkret p =>
    obtain ⟨q, -, rfl⟩ := map_eq_some_iff.1 h
    exact .quiet rfl rfl fun _ hr => hr
  | relock p k =>
    cases h
    cases k with
    | code n => exact .quiet rfl rfl fun _ hr => hr
    | wait q a => exact .quiet rfl rfl fun _ _ => ⟨rfl, rfl⟩
  | killHeld pid i found =>
    cases h
    cases found with
    | true => exact .quiet rfl rfl fun _ hr => hr
    | false => exact .quiet rfl rfl fun _ _ => ⟨rfl, rfl⟩
  | alloc p i =>
    simp only [Frame.move] at h
    split at h
    next =>
      cases h
      refine .quiet rfl rfl fun _ _ => ?_
      simp only
      split <;> exact ⟨rfl, rfl⟩
    next => cases h; exact .quiet rfl rfl fun _ hr => hr
  | waitScan p addr i hk =>
    simp only [Frame.move] at h
    split at h
    next =>
      split at h
      next =>
        cases h
        refine .quiet rfl rfl fun _ _ => ?_
        simp only
        split <;> exact ⟨rfl, rfl⟩
      next => cases h; exact .quiet rfl rfl fun _ _ => ⟨rfl, rfl⟩
    next =>
      cases h
      cases hk <;> exact .quiet rfl rfl fun _ _ => ⟨rfl, rfl⟩
  | waitKilledHeld p addr k =>
    obtain ⟨q, -, rfl⟩ := map_eq_some_iff.1 h
    cases k <;> exact .quiet rfl rfl fun _ _ => ⟨rfl, rfl⟩
  | exitEnd | intr => cases h
  | yieldEnd | setkilledHeld | allocFail | forkRunHeld | waitRet =>
    cases h
    exact .quiet rfl rfl fun _ hr => hr
  | _ =>
    cases h
    exact .quiet rfl rfl fun _ _ => ⟨rfl, rfl⟩

theorem Call.move_mem {f : Call} (h : f.move s c = some mv) :
    mv.spawn = none ∧ (mv.mem = s.mem ∨ ∃ st q, f = .exit st ∧ s.mem.proc c = some q ∧
      q ≠ s.mem.initproc ∧ mv.frames = [.exit q st] ∧
      mv.mem =
        { s.mem with exits := Function.update s.mem.exits (s.mem.procs q).sn (some st) }) := by
  cases f with
  | exit st =>
    obtain ⟨p, hp, h⟩ := bind_eq_some_iff.1 h
    split at h <;> cases h
    next hne => exact ⟨rfl, .inr ⟨st, p, rfl, hp, hne, rfl, rfl⟩⟩
  | sleep | yield | fork | wait =>
    obtain ⟨p, -, rfl⟩ := map_eq_some_iff.1 h
    exact ⟨rfl, .inl rfl⟩
  | _ => cases h; exact ⟨rfl, .inl rfl⟩

/-- Where a call begins, for process `p`. -/
def Call.first (p : Nat) : Call → List Frame
  | .acquire _ | .release _ => []
  | .sleep ch n => [.sleep p ch (.code n)]
  | .wakeup ch => [.wakeup ch 0]
  | .yield => [.yield p]
  | .kill pid => [.kill pid 0]
  | .setkilled i => [.setkilled i]
  | .fork => [.alloc p 0]
  | .exit status => [.exit p status]
  | .wait addr => [.wait p addr]

theorem Call.move_first {f : Call} (h : f.move s c = some mv) :
    ∃ p, mv.frames = f.first p ∧ ∀ q, s.mem.proc c = some q → q = p := by
  cases f with
  | exit st =>
    obtain ⟨p, hp, h⟩ := bind_eq_some_iff.1 h
    split at h <;> cases h
    exact ⟨p, rfl, fun q hq => some.inj (hq.symm.trans hp)⟩
  | sleep | yield | fork | wait =>
    obtain ⟨p, hp, rfl⟩ := map_eq_some_iff.1 h
    exact ⟨p, rfl, fun q hq => some.inj (hq.symm.trans hp)⟩
  | _ => cases h; exact ⟨(s.mem.proc c).getD 0, rfl, fun q hq => by rw [hq]; rfl⟩

/-! ## The stack after a move -/

/-- The program points a move leaves, in a thread with or without functions of the bottom. -/
inductive Shape (b : Bool) : List Frame → Prop
  | nil : Shape b []
  | one {g : Frame} (h : g.base = true → b = true) (hs : ∀ p, g ≠ .sched p) : Shape b [g]
  | two {g g' : Frame} (hg : g.base = false) (h : g'.base = true → b = true)
      (hc : ∀ r, Calm (g' :: r))
      (hs : (∀ p, g ≠ .sched p) ∨ ∀ r, leftState (g :: g' :: r) ≠ .running)
      (hs' : ∀ p, g' ≠ .sched p) : Shape b [g, g']

theorem Frame.move_shape (h : f.move s c ok = some mv) : Shape f.base mv.frames := by
  cases f with
  | forkret p =>
    obtain ⟨q, -, rfl⟩ := map_eq_some_iff.1 h
    exact .nil
  | waitKilledHeld p addr k =>
    obtain ⟨q, -, rfl⟩ := map_eq_some_iff.1 h
    cases k <;> exact .one (fun _ => rfl) (by simp)
  | relock p k =>
    cases h
    cases k with
    | code n => exact .nil
    | wait q a => exact .one (fun _ => rfl) (by simp)
  | killHeld pid i found =>
    cases h
    cases found with
    | true => exact .nil
    | false => exact .one (by rintro ⟨⟩) (by simp)
  | alloc p i =>
    simp only [Frame.move] at h
    split at h <;> cases h
    · simp only
      split <;> exact .one (fun _ => rfl) (by simp)
    · exact .nil
  | waitScan p addr i hk =>
    simp only [Frame.move] at h
    split at h
    · split at h <;> cases h
      · simp only
        split <;> exact .one (fun _ => rfl) (by simp)
      · exact .one (fun _ => rfl) (by simp)
    · cases h
      simp only
      split <;> exact .one (fun _ => rfl) (by simp)
  | scheduler | sched | wakeup | kill | reparent | allocPid | waitFound =>
    simp only [Frame.move] at h
    split at h <;> (try split at h) <;> cases h <;>
      first
      | exact .nil
      | exact .one (fun _ => rfl) (by simp)
      | exact .one (by rintro ⟨⟩) (by simp)
      | exact .two rfl (fun _ => rfl) (fun _ => ⟨rfl, rfl⟩) (.inl (by simp)) (by simp)
  | _ =>
    cases h <;>
      first
      | exact .nil
      | exact .one (fun _ => rfl) (by simp)
      | exact .one (by rintro ⟨⟩) (by simp)
      | exact .two rfl (fun _ => rfl) (fun _ => ⟨rfl, rfl⟩) (.inr fun _ => by rintro ⟨⟩) (by simp)
      | exact .two rfl (by rintro ⟨⟩) (fun _ => ⟨rfl, rfl⟩) (.inr fun _ => by rintro ⟨⟩) (by simp)

theorem Call.move_shape {f : Call} (h : f.move s c = some mv) : Shape (!f.handler) mv.frames := by
  obtain ⟨p, e, -⟩ := Call.move_first h
  rw [e]
  cases f with
  | exit | sleep | fork | wait => exact .one (fun _ => rfl) nofun
  | acquire | release => exact .nil
  | _ => exact .one nofun nofun

theorem Shape.nested {b : Bool} {fs : List Frame} (h : Shape b fs) (hc : Calm rest)
    (hr : Nested rest) : Nested (fs ++ rest) := by
  cases h with
  | nil => exact hr
  | one _ hs => exact ⟨fun p e => absurd e (hs p), hc, hr⟩
  | two _ _ hg hs hs' =>
    refine ⟨fun p e => ?_, hg rest, fun p e => absurd e (hs' p), hc, hr⟩
    rcases hs with hs | hs
    exacts [absurd e (hs p), hs rest]

theorem Shape.based {b : Bool} {fs : List Frame} (h : Shape b fs) (hb : b = true → rest = [])
    (hr : Based rest) : Based (fs ++ rest) := by
  cases h with
  | nil => exact hr
  | one hg _ => exact ⟨fun e => hb (hg e), hr⟩
  | two hg hg' _ _ _ =>
    exact ⟨fun e => absurd (hg.symm.trans e) Bool.false_ne_true, fun e => hb (hg' e), hr⟩

end Xv6.Sched
