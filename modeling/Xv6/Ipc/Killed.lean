import Xv6.Dev.Clock
import Xv6.Dev.Console
import Xv6.Ipc.Pipe
import Xv6.Proc.Awake

/-!
# Ipc/Killed — kills and the functions that sleep

`piperead`, `pipewrite`, `consoleread`, `sys_sleep` and `wait` check the `killed` flag in their
loops, and then sleep.  The check is over when `sleep` takes `p->lock`, and a kill in between sets
the flag of a process that is not `SLEEPING` yet: it sleeps on with the flag set, until what it
waits for happens (`kill_slept_through`).  Kills at any other time are seen, or wake the process
(`kill_seen`).
-/

namespace Xv6

open Monitor

/-- `pipewrite` has checked the flag, and may find the pipe full; `piperead` sleeps right after its
check. -/
def Pipe.Point.checked : Pipe.Point → Prop
  | .writeFull .. => True
  | _ => False

theorem Pipe.body_alert (x : State) (user : Option UInt8) (b : Point) (hb : ¬b.checked) :
    ¬Drowsy Point.checked (body x true user b).2 := by
  cases b with
  | writeFull => exact absurd trivial hb
  | write n i | read n | copy n i =>
    simp only [body]
    split_ifs <;> exact id
  | close writable => cases writable <;> exact id
  | writeKilled | readKilled | closeFree => exact id

/-- No reader and no writer of a pipe sleeps with its flag set… -/
theorem Pipe.awake {N : Nat} {s : Sys} (h : ((system N).restrict (Watchful Point.checked)).Reach s)
    (p : Nat) : Alert Point.checked (s.procs p) :=
  Monitor.awake body_alert (fun _ f => by cases f <;> exact id) h p

theorem Console.body_alert (x : State) (ok : Bool) (b : Point) :
    ¬Drowsy (fun _ => False) (body x true ok b).2 := by
  cases b with
  | read =>
    simp only [body, consoleread, State.finish]
    split_ifs <;> exact id
  | killed => exact id
  | intr =>
    simp only [body, consoleintr]
    split_ifs <;> exact id

/-- …nor a reader of the console… -/
theorem Console.awake {N : Nat} {s : Sys}
    (h : ((system N).restrict (Watchful fun _ => False)).Reach s) (p : Nat) :
    Alert (fun _ => False) (s.procs p) :=
  Monitor.awake (fun x ok b _ => body_alert x ok b) (fun _ _ => id) h p

theorem Clock.body_alert (ticks : UInt32) (b : Point) :
    ¬Drowsy (fun _ => False) (body ticks true b).2 := by
  cases b with
  | loop =>
    simp only [body]
    split_ifs <;> exact id
  | start | killed | tick => exact id

/-- …nor a process in `sys_sleep`. -/
theorem Clock.awake {N : Nat} {s : Sys}
    (h : ((system N).restrict (Watchful fun _ => False)).Reach s) (p : Nat) :
    Alert (fun _ => False) (s.procs p) :=
  Monitor.awake (fun x _ b _ => body_alert x b) (fun _ _ => id) h p

/-- **A kill is seen**, in every run in which none comes between the check of the flag and the
sleep: no process sleeps with its flag set in `piperead` or `pipewrite`, in `consoleread`, in
`sys_sleep` or in `wait`. -/
theorem kill_seen (N p : Nat) :
    (∀ s, ((Pipe.system N).restrict (Watchful Pipe.Point.checked)).Reach s →
      (s.procs p).killed = true → (s.procs p).chan = none) ∧
    (∀ s, ((Console.system N).restrict (Watchful fun _ => False)).Reach s →
      (s.procs p).killed = true → (s.procs p).chan = none) ∧
    (∀ s, ((Clock.system N).restrict (Watchful fun _ => False)).Reach s →
      (s.procs p).killed = true → (s.procs p).chan = none) ∧
    ∀ s, (Sched.system.restrict fun s a => Sched.Traps s a ∧ Sched.Spares s a).Reach s →
      (s.mem.procs p).killed = true → ¬Sched.SleepsInWait s p :=
  ⟨fun _ h hk => (Pipe.awake h p hk).1, fun _ h hk => (Console.awake h p hk).1,
    fun _ h hk => (Clock.awake h p hk).1, fun _ h hk => (Sched.wait_awake h p hk).sleeps⟩

/-! ## Runs -/

/-- The steps of process 0 in `piperead` of an empty pipe, up to its check of the flag… -/
def Pipe.readChecked : List Label := .call 0 (.piperead 1) :: steps 0 3 0

/-- …in `consoleread`… -/
def Console.readChecked : List Label := .call 0 (.consoleread 1) :: List.replicate 3 (.run 0 true)

/-- …and in `sys_sleep`. -/
def Clock.sleepChecked : List Label := .call 0 (.sysSleep 1) :: List.replicate 4 (.run 0 ())

/-- The first process forks and calls `wait`, and the child runs on the second processor. -/
def Sched.waitChecked : List Label :=
  firstRuns ++ .call 0 .fork :: List.replicate 10 (.run 0 true) ++
    List.replicate 5 (.run 1 true) ++ .call 0 (.wait false) :: List.replicate 69 (.run 0 true)

instance : DecidablePred Pipe.Point.checked
  | .writeFull .. => .isTrue trivial
  | .write .. | .writeKilled .. | .read _ | .readKilled _ | .copy .. | .close _
  | .closeFree => .isFalse id

theorem kill_seen_asleep :
    (∃ s, (Pipe.system 1).Reach s ∧ (s.procs 0).killed = true ∧ (s.procs 0).chan = none) ∧
    (∃ s, (Console.system 1).Reach s ∧ (s.procs 0).killed = true ∧ (s.procs 0).chan = none) ∧
    (∃ s, (Clock.system 1).Reach s ∧ (s.procs 0).killed = true ∧ (s.procs 0).chan = none) ∧
    ∃ s, Sched.system.Reach s ∧ (s.mem.procs 0).killed = true ∧ ¬Sched.SleepsInWait s 0 := by
  -- in each of the functions the process is killed as it sleeps
  refine ⟨?_, ?_, ?_, ?_⟩
  · have h : ((Pipe.system 1).restrict (Watchful Pipe.Point.checked)).Reach
        (.start (Pipe.pipealloc fun _ => 0)) :=
      .init ⟨_, ⟨_, rfl⟩, rfl⟩
    obtain ⟨s, hs, hP⟩ := h.play_guarded (f := Pipe.monitor.exec 1) (fun _ _ _ e => e)
      (l := Pipe.readChecked ++ Pipe.steps 0 1 0 ++ [.kill 0])
      (P := fun s : Pipe.Sys => (s.procs 0).killed) (by decide +kernel)
    exact ⟨s, hs.of_restrict, hP, (kill_seen 1 0).1 s hs hP⟩
  · have h : ((Console.system 1).restrict (Watchful fun _ => False)).Reach
        (.start Console.consoleinit) :=
      .init ⟨_, rfl, rfl⟩
    obtain ⟨s, hs, hP⟩ := h.play_guarded (f := Console.monitor.exec 1) (fun _ _ _ e => e)
      (l := Console.readChecked ++ [.run 0 true, .kill 0])
      (P := fun s : Console.Sys => (s.procs 0).killed) (by decide +kernel)
    exact ⟨s, hs.of_restrict, hP, (kill_seen 1 0).2.1 s hs hP⟩
  · have h : ((Clock.system 1).restrict (Watchful fun _ => False)).Reach (.start 0) :=
      .init ⟨_, rfl, rfl⟩
    obtain ⟨s, hs, hP⟩ := h.play_guarded (f := Clock.monitor.exec 1) (fun _ _ _ e => e)
      (l := Clock.sleepChecked ++ [.run 0 (), .kill 0])
      (P := fun s : Clock.Sys => (s.procs 0).killed) (by decide +kernel)
    exact ⟨s, hs.of_restrict, hP, (kill_seen 1 0).2.2.1 s hs hP⟩
  · have h : (Sched.system.restrict fun s a => Sched.Traps s a ∧ Sched.Spares s a).Reach
        Sched.initSys := .init rfl
    obtain ⟨s, hs, hP⟩ := h.play_guarded (f := Sched.exec) (fun _ _ _ e => e)
      (l := Sched.waitChecked ++ List.replicate 5 (.run 0 true) ++ [.call 1 (.kill 1), .run 1 true])
      (P := fun s : Sched.Sys => (s.mem.procs 0).killed) (by decide +kernel)
    exact ⟨s, hs.of_restrict, hP, (kill_seen 1 0).2.2.2 s hs hP⟩

/-- **A kill is slept through**, in each of these functions: it comes after the check and before the
sleep, and then the process sleeps with its flag set. -/
theorem kill_slept_through :
    (∃ s, (Pipe.system 1).Reach s ∧ (s.procs 0).killed = true ∧ (s.procs 0).chan = some .nread) ∧
    (∃ s, (Console.system 1).Reach s ∧ (s.procs 0).killed = true ∧ (s.procs 0).chan = some .r) ∧
    (∃ s, (Clock.system 1).Reach s ∧ (s.procs 0).killed = true ∧ (s.procs 0).chan = some .ticks) ∧
    ∃ s, (Sched.system.restrict Sched.Traps).Reach s ∧ (s.mem.procs 0).killed = true ∧
    Sched.SleepsInWait s 0 := by
  refine ⟨?_, ?_, ?_, ?_⟩
  · have h : (Pipe.system 1).Reach (.start (Pipe.pipealloc fun _ => 0)) := .init ⟨_, ⟨_, rfl⟩, rfl⟩
    obtain ⟨s, hs, hP⟩ := h.play_any (f := Pipe.monitor.exec 1) (fun _ _ _ e => e)
      (l := Pipe.readChecked ++ .kill 0 :: Pipe.steps 0 1 0)
      (P := fun s : Pipe.Sys => decide ((s.procs 0).killed = true ∧ (s.procs 0).chan = some .nread))
      (by decide +kernel)
    exact ⟨s, hs, of_decide_eq_true hP⟩
  · have h : (Console.system 1).Reach (.start Console.consoleinit) := .init ⟨_, rfl, rfl⟩
    obtain ⟨s, hs, hP⟩ := h.play_any (f := Console.monitor.exec 1) (fun _ _ _ e => e)
      (l := Console.readChecked ++ [.kill 0, .run 0 true])
      (P := fun s : Console.Sys => decide ((s.procs 0).killed = true ∧ (s.procs 0).chan = some .r))
      (by decide +kernel)
    exact ⟨s, hs, of_decide_eq_true hP⟩
  · have h : (Clock.system 1).Reach (.start 0) := .init ⟨_, rfl, rfl⟩
    obtain ⟨s, hs, hP⟩ := h.play_any (f := Clock.monitor.exec 1) (fun _ _ _ e => e)
      (l := Clock.sleepChecked ++ [.kill 0, .run 0 ()])
      (P := fun s : Clock.Sys => decide ((s.procs 0).killed = true ∧
        (s.procs 0).chan = some .ticks))
      (by decide +kernel)
    exact ⟨s, hs, of_decide_eq_true hP⟩
  · have h : (Sched.system.restrict Sched.Traps).Reach Sched.initSys := .init rfl
    obtain ⟨s, hs, hP⟩ := h.play_guarded (f := Sched.exec) (fun _ _ _ e => e)
      (l := Sched.waitChecked ++ .call 1 (.kill 1) :: List.replicate 2 (.run 1 true) ++
        List.replicate 3 (.run 0 true))
      (P := fun s : Sched.Sys => decide ((s.mem.procs 0).killed = true ∧ Sched.SleepsInWait s 0))
      (by decide +kernel)
    exact ⟨s, hs, of_decide_eq_true hP⟩

end Xv6
