import Xv6.Proc.Family

/-!
# Proc/Kill — who is killed

A log beside the system records when processes are created by `allocproc`, when `kill` is called,
and when a process takes a trap it should not.  A process whose `killed` flag is set has been the
target of one of the latter two since it was created (`only_targeted_killed`) — provided that nobody
calls `kill(0)`: that finds an `UNUSED` slot, whose `pid` is 0, and sets the flag of the next
process to be made there, as `allocproc` does not clear it (`kill_zero`); and provided that no
`kill` is looking for the pid that `allocproc` gives to a process: it may come to the slot after the
process has been made.
-/

namespace Xv6.Sched

open List Option

variable {s s' : Sys} {c d p q i : Nat} {taken rest st r : List Frame} {f g : Frame} {mv : Move}
  {ok : Bool} {a : Label}

/-! ## The log -/

/-- What is recorded: a process is created, `kill` is called, a process takes a trap. -/
inductive Ev
  | created (sn : Nat)
  | kill (pid : Int)
  | trap (sn : Nat)
  deriving DecidableEq

/-- What a program point records. -/
def Frame.events (ok : Bool) : Frame → List Ev
  | .allocPid _ _ _ sn => if ok then [.created sn] else []
  | _ => []

/-- What a call records. -/
def Call.events (m : Mem) : Call → List Ev
  | .kill pid => [.kill pid]
  | .setkilled i => [.trap (m.procs i).sn]
  | _ => []

/-- What a step records. -/
def record (s : Sys) : Label → List Ev
  | .run c ok =>
    match s.stack (s.mem.cur c) with
    | f :: _ => f.events ok
    | [] => []
  | .call _ f => f.events s.mem
  | _ => []

/-- The system with a log, the latest event first. -/
def logged : LTS (Sys × List Ev) Label where
  init x := x = (initSys, [])
  step x a y := exec x.1 a = some y.1 ∧ y.2 = record x.1 a ++ x.2

/-- The events since process number `sn` was created. -/
def since (sn : Nat) (log : List Ev) : List Ev := log.takeWhile (· ≠ .created sn)

/-- A trap is taken by the process that is executed. -/
def Traps (s : Sys) : Label → Prop
  | .call c (.setkilled i) => s.mem.proc c = some i
  | _ => True

/-- The pid that `kill` looks for. -/
def Frame.target : Frame → Option Int
  | .kill pid _ | .killHeld pid _ _ => some pid
  | _ => none

/-- A call of `kill` is looking for a pid. -/
def Sys.Seeks (s : Sys) (pid : Int) : Prop := ∃ x, ∃ f ∈ s.stack x, f.target = some pid

/-- The pid that `kill` is called with. -/
def Label.pid : Label → Option Int
  | .call _ (.kill pid) => some pid
  | _ => none

/-- The pid that `allocproc` gives to a process. -/
def Sys.allocates (s : Sys) : Label → Option Int
  | .run c true =>
    match s.stack (s.mem.cur c) with
    | .allocPid _ _ pid _ :: _ => some pid
    | _ => none
  | _ => none

/-- …nobody calls `kill(0)`, and nobody looks for a process that is about to be made. -/
def Aims (s : Sys) (a : Label) : Prop :=
  Traps s a ∧ a.pid ≠ some 0 ∧ ∀ pid, s.allocates a = some pid → ¬ s.Seeks pid

/-! ## What a step does to the flag -/

/-- **The flag of a process** is kept, cleared with the slot, or set by `kill` or a trap. -/
inductive Flag (s : Sys) (taken : List Frame) (mv : Move) (q : Nat) : Prop
  | same (h : (mv.mem.procs q).killed = (s.mem.procs q).killed)
  | free (h : mv.mem.procs q = {})
  | kill {pid : Int} (ht : taken = [.kill pid q]) (hq : q < NPROC) (hp : (s.mem.procs q).pid = pid)
  | trap (ht : taken = [.setkilled q])

theorem Flag.upd {h : Proc → Proc} (hm : mv.mem.procs = (s.mem.upd i h).procs)
    (hi : mv.mem.procs i = h (s.mem.procs i) → Flag s taken mv i) : Flag s taken mv q := by
  by_cases hq : q = i
  · rw [hq]
    exact hi (by rw [hm, Mem.upd_self])
  · exact .same (by rw [hm, Mem.upd_ne hq])

theorem Flag.upd_same {h : Proc → Proc} (hm : mv.mem.procs = (s.mem.upd i h).procs)
    (hk : (h (s.mem.procs i)).killed = (s.mem.procs i).killed) : Flag s taken mv q :=
  .upd hm fun e => .same (by rw [e, hk])

/-- **Every step does one of these.** -/
theorem Fired.flag (F : Fired s c taken rest mv s') (q : Nat) : Flag s taken mv q := by
  rcases F.frame_or with ⟨f, ok, rfl, hm⟩ | ⟨e, -⟩
  swap
  · exact .same (by rw [e])
  · cases Frame.move_effect hm with
    | quiet e _ _ => exact .same (by rw [e])
    | enter | back | sched | allocFound => exact .same rfl
    | @run i => exact .upd_same (i := i) (h := fun P => { P with state := .running }) rfl rfl
    | @forkRun p i => exact .upd_same (i := i) (h := fun P => { P with state := .runnable }) rfl rfl
    | yield | sleepSet | sleepRel | sleepEnd | allocPid | forkParent | adopt | zombie =>
      exact .upd_same rfl rfl
    | @wake ch i =>
      refine .upd_same rfl ?_
      unfold Proc.wake
      split <;> rfl
    | @kill pid i hi hp => exact .upd rfl fun _ => .kill rfl hi hp
    | @setkilled i => exact .upd rfl fun _ => .trap rfl
    | @allocFail p i | @reap p i => exact .upd (i := i) (h := fun _ => {}) rfl fun e => .free e

/-! ## Aims -/

/-- `kill` looks for certain pids only, and a trap is taken by the thread's own process, of which
something is known. -/
def Frame.Aimed (P : Int → Prop) (T : Nat → Prop) (x : Tid) : Frame → Prop
  | .kill pid _ | .killHeld pid _ _ => P pid
  | .setkilled i | .setkilledHeld i => x = .proc i ∧ T i
  | _ => True

/-- …and so for whatever follows. -/
theorem Frame.Aimed.imp {P P' : Int → Prop} {T T' : Nat → Prop} {x : Tid} (h : f.Aimed P T x)
    (hP : ∀ pid, f.target = some pid → P pid → P' pid) (hT : ∀ i, x = .proc i → T i → T' i) :
    f.Aimed P' T' x := by
  cases f with
  | kill | killHeld => exact hP _ rfl h
  | setkilled | setkilledHeld => exact ⟨h.1, hT _ h.1 h.2⟩
  | _ => trivial

theorem Frame.next_aimed {P : Int → Prop} {T : Nat → Prop} {x : Tid} (hf : f.Aimed P T x) :
    ∀ g ∈ f.next s c, g.Aimed P T x := by
  intro g hg
  cases f <;> simp only [Frame.next, mem_cons, not_mem_nil, or_false] at hg
  case relock p k =>
    cases k with
    | code => cases hg
    | wait =>
      obtain rfl := mem_singleton.1 hg
      trivial
  case waitKilledHeld =>
    obtain rfl | hg := hg
    · trivial
    · obtain ⟨q, -, rfl⟩ := mem_map.1 hg
      trivial
  case kill => obtain rfl | rfl := hg <;> exact hf
  case killHeld | setkilled => subst hg; exact hf
  all_goals
    rcases hg with rfl | rfl | rfl | rfl | rfl <;> trivial

/-- A call that is aimed. -/
theorem Call.move_aimed {P : Int → Prop} {T : Nat → Prop} {f : Call} {x : Tid}
    (hm : f.move s c = some mv) (hk : ∀ pid, f = .kill pid → P pid)
    (ht : ∀ i, f = .setkilled i → x = .proc i ∧ T i) : ∀ g ∈ mv.frames, g.Aimed P T x := by
  intro g hg
  obtain ⟨p, e, -⟩ := Call.move_first hm
  rw [e] at hg
  cases f with
  | acquire | release => cases hg
  | kill pid => obtain rfl := mem_singleton.1 hg; exact hk pid rfl
  | setkilled i => obtain rfl := mem_singleton.1 hg; exact ht i rfl
  | _ => obtain rfl := mem_singleton.1 hg; trivial

/-- A step, and what it records. -/
structure Recorded (s : Sys) (a : Label) (c : Nat) (taken : List Frame) (mv : Move) : Prop where
  ran : ∀ f, taken = [f] → f ≠ .intr → ∃ ok, a = .run c ok
  aimed : ∀ {P T}, (∀ f ∈ taken, f.Aimed P T (s.mem.cur c)) →
    (∀ d pid, a = .call d (.kill pid) → P pid) → (∀ d i, a = .call d (.setkilled i) → T i) →
    ∀ g ∈ mv.frames, g.Aimed P T (s.mem.cur c)
  alloc : ∀ p i pid sn, taken = [.allocPid p i pid sn] → mv.mem.phase i ≠ .free →
    s.allocates a = some pid ∧ mv.spawn = some i ∧ (mv.mem.procs i).pid = pid
  created : ∀ sn, .created sn ∈ record s a → ∃ p i pid, taken = [.allocPid p i pid sn]

/-- Code outside `proc.c` is code of the process. -/
theorem Inv.cur_of_code (h : Inv s) (hst : s.stack (s.mem.cur c) = [])
    (hp : s.mem.proc c = some p) : s.mem.cur c = .proc p := by
  rcases (h.cpu c).cur with e | ⟨q, e⟩
  · rw [e] at hst
    exact absurd hst (h.cpu_none (.inl hst)).2
  · rw [e, some.inj (((h.cpu c).proc q e).symm.trans hp)]

theorem exec_recorded (h : Inv s) (ht : Traps s a) (he : exec s a = some s') :
    ∃ c taken rest mv, Fired s c taken rest mv s' ∧ Recorded s a c taken mv := by
  cases a with
  | run c ok =>
    simp only [exec] at he
    split at he
    next => cases he
    next f rest hst =>
      obtain ⟨mv, hmv, he⟩ := bind_eq_some_iff.1 he
      refine ⟨c, [f], rest, mv, .of_apply hst (.frame hmv) he, fun _ _ _ => ⟨ok, rfl⟩,
        fun hf _ _ g hg => ?_, fun p i pid sn e hl => ?_, fun sn hsn => ?_⟩
      · exact Frame.next_aimed (hf f mem_cons_self) g (Frame.move_next hmv hg)
      · obtain rfl := (cons_eq_cons.1 e).1
        cases ok with
        | false =>
          cases hmv
          refine absurd ?_ hl
          simp [Mem.phase, Mem.freeproc, Mem.upd, PState.phase]
        | true =>
          cases hmv
          exact ⟨by simp only [Sys.allocates, hst], rfl, by simp [Mem.upd]⟩
      · rw [record, hst] at hsn
        cases f with
        | allocPid p i pid sn' =>
          simp only [Frame.events] at hsn
          split at hsn
          · cases mem_singleton.1 hsn
            exact ⟨p, i, pid, rfl⟩
          · cases hsn
        | _ => cases hsn
  | call c f =>
    have hsn : ∀ sn, .created sn ∉ f.events s.mem := by
      intro sn hsn
      cases f with
      | kill | setkilled => cases mem_singleton.1 hsn
      | _ => cases hsn
    have hrec : ∀ {mv : Move}, f.move s c = some mv →
        (∀ i, f = .setkilled i → s.mem.cur c = .proc i) → Recorded s (.call c f) c [] mv :=
        fun hmv hx =>
      ⟨(by simp), fun _ hk hT => Call.move_aimed hmv (fun pid e => hk c pid (e ▸ rfl)) fun i e =>
        ⟨hx i e, hT c i (e ▸ rfl)⟩, (by simp), fun sn e => absurd e (hsn sn)⟩
    simp only [exec] at he
    split at he
    next hst =>
      obtain ⟨mv, hmv, he⟩ := bind_eq_some_iff.1 he
      refine ⟨c, [], [], mv, .of_apply hst (.code hmv) he, hrec hmv fun i e => ?_⟩
      subst e
      exact h.cur_of_code hst ht
    next rest hst =>
      split at he
      next hf =>
        obtain ⟨mv, hmv, he⟩ := bind_eq_some_iff.1 he
        refine ⟨c, [], .intr :: rest, mv, .of_apply hst (.handler hf hmv) he,
          hrec hmv fun i e => ?_⟩
        subst e
        cases hf
      next => cases he
    next => cases he
  | interrupt c =>
    simp only [exec] at he
    split at he
    next hn =>
      refine ⟨c, [], _, _, .of_apply rfl (.interrupt hn) he, (by simp), fun _ _ _ g hg => ?_,
        (by simp), (by rintro _ ⟨⟩)⟩
      obtain rfl := mem_singleton.1 hg
      trivial
    next => cases he
  | iret c =>
    simp only [exec] at he
    split at he
    next rest hst =>
      split at he
      next hn =>
        exact ⟨c, [.intr], rest, _, .of_apply hst (.iret hn) he,
          fun f e hne => absurd (cons_eq_cons.1 e).1.symm hne, (by simp), (by simp),
          (by rintro _ ⟨⟩)⟩
      next => cases he
    next => cases he

/-- **All calls in progress are aimed** after a step, if those before it are and a new one is. -/
theorem Recorded.step {P : Int → Prop} {T : Nat → Prop} (hR : Recorded s a c taken mv) (h : Inv s)
    (F : Fired s c taken rest mv s')
    (hold : ∀ x, ∀ f ∈ s.stack x, (∀ i, mv.spawn = some i → x ≠ .proc i) → f.Aimed P T x)
    (hk : ∀ d pid, a = .call d (.kill pid) → P pid) (ht : ∀ d i, a = .call d (.setkilled i) → T i)
    (x : Tid) (f : Frame) (hf : f ∈ s'.stack x) : f.Aimed P T x := by
  rcases h.mem_stack F hf with ⟨rfl, hnew⟩ | ⟨hf', -⟩ | ⟨np, -, -, rfl⟩
  · refine hR.aimed (fun g hg => hold _ g ?_ fun i e => h.spawn_off F e c) hk ht f hnew
    rw [F.stack_eq]
    exact mem_append_left _ hg
  · by_cases hx : ∃ i, mv.spawn = some i ∧ x = .proc i
    · obtain ⟨i, hi, rfl⟩ := hx
      rw [F.stack_spawn hi] at hf
      obtain rfl := mem_singleton.1 hf
      trivial
    · exact hold x f hf' fun i hi e => hx ⟨i, hi, e⟩
  · trivial

/-! ## The invariant -/

/-- Every process with this pid has been aimed at since it was created. -/
def Sought (s : Sys) (log : List Ev) (pid : Int) : Prop :=
  pid ≠ 0 ∧ ∀ q, s.mem.phase q ≠ .free → (s.mem.procs q).pid = pid →
    .kill pid ∈ since (s.mem.procs q).sn log

/-- The process has taken a trap. -/
def Trapped (s : Sys) (log : List Ev) (i : Nat) : Prop :=
  s.mem.phase i ≠ .free → .trap (s.mem.procs i).sn ∈ since (s.mem.procs i).sn log

/-- Calls in progress are recorded; slots that are not used have neither a pid nor the flag, and
where the flag is set there has been a reason since the process was created. -/
structure Targets (s : Sys) (log : List Ev) : Prop where
  aimed : ∀ x, ∀ f ∈ s.stack x, f.Aimed (Sought s log) (Trapped s log) x
  unused : ∀ q, s.mem.phase q = .free → (s.mem.procs q).pid = 0 ∧ (s.mem.procs q).killed = false
  killed : ∀ q, s.mem.phase q ≠ .free → (s.mem.procs q).killed = true →
    .kill (s.mem.procs q).pid ∈ since (s.mem.procs q).sn log ∨
      .trap (s.mem.procs q).sn ∈ since (s.mem.procs q).sn log

theorem since_append {sn : Nat} {l log : List Ev} (h : .created sn ∉ l) :
    since sn (l ++ log) = l ++ since sn log := by
  refine takeWhile_append_of_pos fun e he => ?_
  have : e ≠ .created sn := fun hs => h (hs ▸ he)
  simpa using this

theorem phase_free {m : Mem} : m.phase q = .free ↔ (m.procs q).state = .unused := by
  rw [Mem.phase]
  cases (m.procs q).state <;> simp [PState.phase]

variable {log : List Ev}

namespace Targets

/-- A slot that is free after a step. -/
theorem free_step (T : Targets s log) (h : Inv s) (F : Fired s c taken rest mv s')
    (hq' : mv.mem.phase q = .free) :
    (mv.mem.procs q).pid = 0 ∧ (mv.mem.procs q).killed = false := by
  rcases F.change h q with hs | ⟨-, -, e, -⟩ | ⟨-, -, -, e⟩ | ⟨-, -, -, e⟩ | ⟨-, -, e, -⟩ | ⟨-, -,
    e, -⟩ | ⟨-, -, hp, e⟩ | ⟨-, -, e, -⟩
  case same =>
    have hq : s.mem.phase q = .free := hs.phase.symm.trans hq'
    obtain ⟨hpid, hk⟩ := T.unused q hq
    refine ⟨hs.pid.trans hpid, ?_⟩
    rcases F.flag q with e | e | ⟨ht, -, hp⟩ | ht
    · exact e.trans hk
    · rw [e]
    · -- `kill` looks for 0 nowhere
      subst ht
      exact absurd (hp.symm.trans hpid) (T.aimed _ _ F.mem_taken).1
    · -- the process that takes a trap lives
      subst ht
      rw [F.phase_cur h (T.aimed _ _ F.mem_taken).1 rfl] at hq
      cases hq
  case adopt =>
    obtain ⟨hpid, hk⟩ := T.unused q (hp.symm.trans hq')
    rw [e]
    exact ⟨hpid, hk⟩
  case fail | reap => rw [e]; exact ⟨rfl, rfl⟩
  all_goals
    rw [e] at hq'
    cases hq'

section

variable (T : Targets s log) (h : Inv s) (hF : Family s) (F : Fired s c taken rest mv s')
  (hR : Recorded s a c taken mv)

include hF F hR

omit T in
/-- What is recorded is recorded since the processes were created that are there. -/
theorem since_record (hq : s.mem.phase q ≠ .free) :
    since (s.mem.procs q).sn (record s a ++ log) = record s a ++ since (s.mem.procs q).sn log := by
  refine since_append fun e => ?_
  obtain ⟨p, i, pid, rfl⟩ := hR.created _ e
  exact (hF.points _ _ F.mem_taken).2.2.1 q hq rfl

include T h

/-- **Calls that are in progress stay recorded**, for a thread that is not made by the step. -/
theorem kept (hA : ∀ pid, s.allocates a = some pid → ¬ s.Seeks pid) {x : Tid} (hf : f ∈ s.stack x)
    (hx : ∀ i, mv.spawn = some i → x ≠ .proc i) :
    f.Aimed (Sought s' (record s a ++ log)) (Trapped s' (record s a ++ log)) x := by
  refine (T.aimed x f hf).imp ?_ ?_
  · rintro pid ht ⟨h0, hS⟩
    refine ⟨h0, fun q hq hp => ?_⟩
    rw [F.mem] at hq hp ⊢
    rcases hF.old F h hq with ⟨p, pid', sn, htk, -⟩ | ⟨hq0, hsn, hpid⟩
    · obtain ⟨hal, -, hp'⟩ := hR.alloc _ _ _ _ htk hq
      exact absurd ⟨x, f, hf, ht.trans (by rw [← hp, hp'])⟩ (hA _ hal)
    · rw [hsn, since_record hF F hR hq0]
      exact mem_append_right _ (hS q hq0 (hpid ▸ hp))
  · rintro i rfl hT hq
    rw [F.mem] at hq ⊢
    rcases hF.old F h hq with ⟨p, pid', sn, htk, -⟩ | ⟨hq0, hsn, -⟩
    · exact absurd rfl (hx i (hR.alloc _ _ _ _ htk hq).2.1)
    · rw [hsn, since_record hF F hR hq0]
      exact mem_append_right _ (hT hq0)

omit h in
/-- A process that was there before a step, and has kept its numbers. -/
theorem killed_step (hq : s.mem.phase q ≠ .free) (hsn : (mv.mem.procs q).sn = (s.mem.procs q).sn)
    (hpid : (mv.mem.procs q).pid = (s.mem.procs q).pid) (hfree : mv.mem.phase q ≠ .free)
    (hk : (mv.mem.procs q).killed = true) :
    .kill (mv.mem.procs q).pid ∈ since (mv.mem.procs q).sn (record s a ++ log) ∨
      .trap (mv.mem.procs q).sn ∈ since (mv.mem.procs q).sn (record s a ++ log) := by
  rw [hsn, hpid, since_record hF F hR hq]
  refine .imp (mem_append_right _) (mem_append_right _) ?_
  rcases F.flag q with e | e | ⟨ht, -, hp⟩ | ht
  · exact T.killed q hq (e.symm.trans hk)
  · exact absurd (by rw [Mem.phase, e]; rfl) hfree
  · subst ht
    exact .inl (hp ▸ (T.aimed _ _ F.mem_taken).2 q hq hp)
  · subst ht
    exact .inr ((T.aimed _ _ F.mem_taken).2 hq)

theorem step (hA : Aims s a) : Targets s' (record s a ++ log) where
  aimed := by
    -- what is recorded of a call is recorded since any process was created
    have hadd : (∀ pid, s.allocates a ≠ some pid) → ∀ q, s'.mem.phase q ≠ .free →
        (s'.mem.procs q).sn = (s.mem.procs q).sn ∧ ∀ e ∈ record s a, e ∈ since (s'.mem.procs q).sn
        (record s a ++ log) := by
      intro hn q hq
      rw [F.mem] at hq ⊢
      rcases hF.old F h hq with ⟨p, pid', sn, htk, -⟩ | ⟨hq0, hsn, -⟩
      · exact absurd (hR.alloc _ _ _ _ htk hq).1 (hn _)
      · rw [hsn, since_record hF F hR hq0]
        exact ⟨rfl, fun e => mem_append_left _⟩
    refine hR.step h F (fun x f hf => T.kept h hF F hR hA.2.2 hf) ?_ ?_
    · rintro d pid rfl
      exact ⟨fun h0 => hA.2.1 (congrArg some h0), fun q hq _ => (hadd (by rintro _ ⟨⟩) q hq).2
        _ mem_cons_self⟩
    · rintro d i rfl hq
      obtain ⟨hsn, hmem⟩ := hadd (by rintro _ ⟨⟩) i hq
      exact hmem _ (hsn ▸ mem_cons_self)
  unused q hq := by
    rw [F.mem] at hq ⊢
    exact T.free_step h F hq
  killed q hq hk := by
    rw [F.mem] at hq hk ⊢
    rcases hF.old F h hq with ⟨p, pid', sn, rfl, -⟩ | ⟨hq0, hsn, hpid⟩
    · -- a new process has the flag of its slot
      have hk0 := (T.unused q (phase_free.2 (h.knows _ _ F.mem_taken q .unused rfl))).2
      rcases F.flag q with e | e | ⟨e, -⟩ | e
      · cases hk0.symm.trans (e.symm.trans hk)
      · rw [e] at hk
        cases hk
      · cases e
      · cases e
    · exact T.killed_step hF F hR hq0 hsn hpid hq hk

end

end Targets

/-- At boot nobody looks for anything. -/
theorem aimed_start {P : Int → Prop} {T : Nat → Prop} (x : Tid) (f : Frame)
    (hf : f ∈ initSys.stack x) : f.Aimed P T x := by
  cases x with
  | proc p =>
    simp only [initSys] at hf
    split at hf
    · obtain rfl := mem_singleton.1 hf
      trivial
    · cases hf
  | cpu c =>
    obtain rfl := mem_singleton.1 hf
    trivial

theorem Targets.start : Targets initSys [] := by
  have hk : ∀ q, (initSys.mem.procs q).killed = false := by
    intro q
    simp only [initSys, initMem]
    split <;> rfl
  refine ⟨aimed_start, fun q hq => ⟨?_, hk q⟩, fun q _ e => ?_⟩
  · simp only [Mem.phase, initSys, initMem] at hq ⊢
    split at hq
    · cases hq
    next hne => rw [if_neg hne]
  · rw [hk q] at e
    cases e

/-- The log does not disturb the system. -/
theorem logged_reach {C : Sys × List Ev → Label → Prop} {x : Sys × List Ev}
    (h : (logged.restrict C).Reach x) : system.Reach x.1 := by
  induction h with
  | init h => exact .init (congrArg Prod.fst h)
  | step _ hs ih => exact ih.step hs.2.1

theorem logged_targets {x : Sys × List Ev} (h : (logged.restrict fun x => Aims x.1).Reach x) :
    Targets x.1 x.2 := by
  refine h.invariant (I := fun x => Targets x.1 x.2) ?_ fun x a y hx hT hs => ?_
  · rintro _ rfl
    exact Targets.start
  · have hi := system_inv (logged_reach hx)
    obtain ⟨c, taken, rest, mv, F, hR⟩ := exec_recorded hi hs.1.1 hs.2.1
    rw [hs.2.2]
    exact hT.step hi (system_family (logged_reach hx)) F hR hs.1

/-- **Who is killed.** -/
structure Targeted (s : Sys) (log : List Ev) : Prop where
  /-- Where the flag of a process is set, `kill` has been called with its pid since it was created,
  or it has taken a trap. -/
  killed : ∀ p, (s.mem.procs p).state ≠ .unused → (s.mem.procs p).killed = true →
    .kill (s.mem.procs p).pid ∈ since (s.mem.procs p).sn log ∨
      .trap (s.mem.procs p).sn ∈ since (s.mem.procs p).sn log
  /-- The process that `allocproc` returns does not have it set. -/
  fresh : ∀ c s' p i pid sn rest, s.stack (s.mem.cur c) = .allocPid p i pid sn :: rest →
    exec s (.run c true) = some s' → (s'.mem.procs i).killed = false
  /-- `kill` finds, and then returns 0 for, processes with that pid only. -/
  found : ∀ c ok s' pid i rest, s.stack (s.mem.cur c) = .kill pid i :: rest →
    exec s (.run c ok) = some s' → s'.stack (s.mem.cur c) = .killHeld pid i true :: rest →
    (s.mem.procs i).pid = pid ∧ (s.mem.procs i).state ≠ .unused

theorem Targets.targeted (T : Targets s log) (h : Inv s) : Targeted s log where
  killed p hp := T.killed p fun e => hp (phase_free.1 e)
  fresh c s' p i pid sn rest hst he := by
    have hi : (s.mem.procs i).state = .unused :=
      h.knows _ (.allocPid p i pid sn) (hst ▸ mem_cons_self) i .unused rfl
    obtain ⟨mv, hmv, F⟩ := Fired.of_exec hst he
    cases hmv
    rw [F.mem, Mem.upd_self]
    exact (T.unused i (phase_free.2 hi)).2
  found c ok s' pid i rest hst he hst' := by
    have hne : pid ≠ 0 := (T.aimed _ (.kill pid i) (hst ▸ mem_cons_self)).1
    obtain ⟨mv, hmv, F⟩ := Fired.of_exec hst he
    have hfr : mv.frames ++ rest = .killHeld pid i true :: rest := by
      rw [← hst', F.stack_cur]
      intro np e
      simp only [Frame.move] at hmv
      split_ifs at hmv <;> cases hmv <;> cases e
    have hpid : (s.mem.procs i).pid = pid := by
      simp only [Frame.move] at hmv
      split_ifs at hmv with hi hp
      · exact hp
      · cases hmv
        cases hfr
      · cases hmv
        exact absurd (congrArg List.length hfr) (by simp)
    refine ⟨hpid, fun hu => hne ?_⟩
    rw [← hpid]
    exact (T.unused i (phase_free.2 hu)).1

/-- **Only a process that was aimed at is killed**, in every run without `kill(0)` in which no
process is made while `kill` is looking for it. -/
theorem only_targeted_killed (x : Sys × List Ev) (h : (logged.restrict fun x => Aims x.1).Reach x) :
    Targeted x.1 x.2 :=
  (logged_targets h).targeted (system_inv (logged_reach h))

/-! ## Runs -/

instance {s : Sys} : DecidablePred (Traps s)
  | .call c (.setkilled i) => inferInstanceAs (Decidable (s.mem.proc c = some i))
  | .call _ (.acquire _) | .call _ (.release _) | .call _ (.sleep ..) | .call _ (.wakeup _)
  | .call _ .yield
  | .call _ (.kill _) | .call _ .fork | .call _ (.exit _) | .call _ (.wait _) | .run ..
  | .interrupt _
  | .iret _ => .isTrue trivial

/-- Steps with a log, as a function. -/
def execLogged (x : Sys × List Ev) (a : Label) : Option (Sys × List Ev) :=
  (exec x.1 a).map fun s => (s, record x.1 a ++ x.2)

theorem step_execLogged {x y : Sys × List Ev} (h : execLogged x a = some y) :
    logged.step x a y := by
  obtain ⟨s, hs, rfl⟩ := map_eq_some_iff.1 h
  exact ⟨hs, rfl⟩

/-- The first processor runs the first process until it returns to user space. -/
def firstRuns : List Label := List.replicate 3 (.run 0 true)

/-- `kill` has been called with every pid it looks for. -/
theorem logged_seeks {x : Sys × List Ev} (h : (logged.restrict fun x => Traps x.1).Reach x) :
    ∀ y, ∀ f ∈ x.1.stack y, f.Aimed (.kill · ∈ x.2) (fun _ => True) y := by
  refine h.invariant (I := fun x => ∀ y, ∀ f ∈ x.1.stack y, f.Aimed (.kill · ∈ x.2) (fun _ => True)
    y) ?_ fun x a z hx hI hs y f hf => ?_
  · rintro _ rfl
    exact aimed_start
  · have hi := system_inv (logged_reach hx)
    obtain ⟨c, taken, rest, mv, F, hR⟩ := exec_recorded hi hs.1 hs.2.1
    refine hR.step hi F (fun y f hf _ => (hI y f hf).imp (fun _ _ e => ?_) fun _ _ => id) ?_
      (fun _ _ _ => trivial) y f hf
    · exact hs.2.2 ▸ mem_append_right _ e
    · rintro d pid rfl
      exact hs.2.2 ▸ mem_append_left _ mem_cons_self

/-- A condition that can be computed: `kill` is not called with 0, and has not been with a pid that
is given out. -/
def Unnamed (x : Sys × List Ev) (a : Label) : Prop :=
  Traps x.1 a ∧ a.pid ≠ some 0 ∧ ∀ pid ∈ x.1.allocates a, .kill pid ∉ x.2

instance {x : Sys × List Ev} : DecidablePred (Unnamed x) :=
  fun _ => inferInstanceAs (Decidable (_ ∧ _ ∧ _))

theorem reach_unnamed {x : Sys × List Ev} (h : (logged.restrict Unnamed).Reach x) :
    (logged.restrict fun x => Aims x.1).Reach x := by
  suffices h : (logged.restrict fun x => Aims x.1).Reach x ∧
      (logged.restrict fun x => Traps x.1).Reach x from h.1
  induction h with
  | init h => exact ⟨.init h, .init h⟩
  | step _ hs ih =>
    obtain ⟨⟨ht, h0, hn⟩, hs⟩ := hs
    refine ⟨ih.1.step ⟨⟨ht, h0, ?_⟩, hs⟩, ih.2.step ⟨ht, hs⟩⟩
    · rintro pid hp ⟨y, f, hf, hpid⟩
      have hA := logged_seeks ih.2 y f hf
      cases f with
      | kill | killHeld =>
        cases hpid
        exact hn pid hp hA
      | _ => cases hpid

/-- The first process makes process 2, and kills it. -/
theorem only_targeted_killed_child : ∃ x, (logged.restrict fun x => Aims x.1).Reach x ∧
    (x.1.mem.procs 1).pid = 2 ∧ (x.1.mem.procs 1).killed = true ∧ Targeted x.1 x.2 := by
  have h : (logged.restrict Unnamed).Reach (initSys, []) := .init rfl
  obtain ⟨x, hx, hP⟩ := h.play_guarded (f := execLogged) (fun _ _ _ e => step_execLogged e)
    (l := firstRuns ++ .call 0 .fork :: List.replicate 10 (.run 0 true) ++
      .call 0 (.kill 2) :: List.replicate 3 (.run 0 true))
    (P := fun x : Sys × List Ev => decide ((x.1.mem.procs 1).pid = 2 ∧
      (x.1.mem.procs 1).killed = true))
    (by decide +kernel)
  have hx := reach_unnamed hx
  obtain ⟨hp, hk⟩ := of_decide_eq_true hP
  exact ⟨x, hx, hp, hk, only_targeted_killed x hx⟩

/-- **`kill(0)` kills the next process to be made**: it finds the `UNUSED` slot 1, whose flag
`allocproc` leaves as it is.  Process 2 is created there with its flag set, and nobody has aimed at
it. -/
theorem kill_zero : ∃ x, (logged.restrict fun x => Traps x.1).Reach x ∧
    (x.1.mem.procs 1).state ≠ .unused ∧ (x.1.mem.procs 1).pid = 2 ∧
      (x.1.mem.procs 1).killed = true ∧
    x.2 = [.created (x.1.mem.procs 1).sn, .kill 0] := by
  have h : (logged.restrict fun x => Traps x.1).Reach (initSys, []) := .init rfl
  obtain ⟨x, hx, hP⟩ := h.play_guarded (f := execLogged) (fun _ _ _ e => step_execLogged e)
    (l := firstRuns ++ .call 0 (.kill 0) :: List.replicate 4 (.run 0 true) ++
      .call 0 .fork :: List.replicate 5 (.run 0 true))
    (P := fun x : Sys × List Ev => decide ((x.1.mem.procs 1).state ≠ .unused ∧
      (x.1.mem.procs 1).pid = 2 ∧ (x.1.mem.procs 1).killed = true ∧
      x.2 = [.created (x.1.mem.procs 1).sn, .kill 0]))
    (by decide +kernel)
  exact ⟨x, hx, of_decide_eq_true hP⟩

end Xv6.Sched
