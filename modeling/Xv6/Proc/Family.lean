import Xv6.Proc.Wakeup

/-!
# Proc/Family — parents and children

What a step does to a process as seen by its family (`Change`): it is allocated, gets a parent, is
started, adopted, becomes a zombie, or its slot is freed.  `wait_lock` is held wherever parents
change or zombies appear, so a process that holds it knows its children (`Frame.Family`).
-/

namespace Xv6.Sched

open Function List Option

variable {s s' : Sys} {c d p q i : Nat} {taken rest st r : List Frame} {f g : Frame} {mv : Move}
  {ok : Bool} {ch : Chan} {l : Lk}

/-! ## What happens to a process -/

/-- The life of a process: its slot is free, it is made, it lives, and it is dead until it is
reaped. -/
inductive Phase
  | free
  | made
  | live
  | dead
  deriving DecidableEq

/-- The phase of a process, by its state. -/
def PState.phase : PState → Phase
  | .unused => .free
  | .used => .made
  | .runnable | .running | .sleeping => .live
  | .zombie => .dead

/-- The phase of slot `q`. -/
def Mem.phase (m : Mem) (q : Nat) : Phase := (m.procs q).state.phase

theorem phase_dead {m : Mem} : m.phase q = .dead ↔ (m.procs q).state = .zombie := by
  rw [Mem.phase]
  cases (m.procs q).state <;> simp [PState.phase]

/-- Nothing that matters to the family. -/
structure Proc.Same (P Q : Proc) : Prop where
  phase : P.state.phase = Q.state.phase
  parent : P.parent = Q.parent
  sn : P.sn = Q.sn
  pid : P.pid = Q.pid
  xstate : P.xstate = Q.xstate

theorem Proc.Same.rfl {P : Proc} : P.Same P := ⟨.refl _, .refl _, .refl _, .refl _, .refl _⟩

/-- **What a step does to a process**, by its phase. -/
inductive Change (s : Sys) (taken : List Frame) (mv : Move) (q : Nat) : Prop
  | same (h : (mv.mem.procs q).Same (s.mem.procs q))
  | alloc {p sn : Nat} {pid : Int} (hf : taken = [.allocPid p q pid sn])
      (hq : s.mem.phase q = .free) (hq' : mv.mem.phase q = .made)
      (h : mv.mem.procs q = { s.mem.procs q with pid := pid, state := .used, sn := sn })
  | fail {p sn : Nat} {pid : Int} (hf : taken = [.allocPid p q pid sn]) (hq : s.mem.phase q = .free)
      (hq' : mv.mem.phase q = .free) (h : mv.mem.procs q = {})
  | reap {p : Nat} {a : Bool} (hf : taken = [.waitFound p a q]) (hq : s.mem.phase q = .dead)
      (hq' : mv.mem.phase q = .free) (h : mv.mem.procs q = {})
  | parent {p : Nat} (hf : taken = [.forkParent p q]) (hq : s.mem.phase q = .made)
      (hq' : mv.mem.phase q = .made) (h : mv.mem.procs q = { s.mem.procs q with parent := some p })
  | start {p : Nat} (hf : taken = [.forkRun p q]) (hq : s.mem.phase q = .made)
      (hq' : mv.mem.phase q = .live)
      (h : mv.mem.procs q = { s.mem.procs q with state := .runnable })
  | adopt {p : Nat} {status : Int} (hf : taken = [.reparent p status q])
      (hp : (s.mem.procs q).parent = some p) (hq' : mv.mem.phase q = s.mem.phase q)
      (h : mv.mem.procs q = { s.mem.procs q with parent := some s.mem.initproc })
  | zombie {status : Int} (hf : taken = [.exitZombie q status]) (hq : s.mem.phase q = .live)
      (hq' : mv.mem.phase q = .dead)
      (h : mv.mem.procs q = { s.mem.procs q with xstate := status, state := .zombie })

/-- A store to one slot. -/
theorem Change.upd {g : Proc → Proc} (hm : mv.mem.procs = (s.mem.upd i g).procs)
    (h : mv.mem.procs i = g (s.mem.procs i) → Change s taken mv i) : Change s taken mv q := by
  by_cases hq : q = i
  · rw [hq]
    exact h (by rw [hm, Mem.upd_self])
  · refine .same ?_
    rw [hm, Mem.upd_ne hq]
    exact .rfl

theorem Change.upd_same {g : Proc → Proc} (hm : mv.mem.procs = (s.mem.upd i g).procs)
    (h : (g (s.mem.procs i)).Same (s.mem.procs i)) : Change s taken mv q := by
  refine .upd hm fun e => .same ?_
  rw [e]
  exact h

/-- **Every step does one of these** to each process. -/
theorem Fired.change (F : Fired s c taken rest mv s') (h : Inv s) (q : Nat) :
    Change s taken mv q := by
  rcases F.frame_or with ⟨f, ok, rfl, hm⟩ | ⟨e, -⟩
  swap
  · exact .same (by rw [e]; exact .rfl)
  · have hf := F.for_taken h _ mem_cons_self
    have hst := F.stack_eq
    -- the state of a process that moves by itself
    have hme : ∀ {p : Nat}, s.mem.cur c = .proc p → (s.mem.procs p).state = leftState
        (f :: rest) := by
      intro p hc
      have := (h.on_of_cur hc).2.2.1
      rwa [← hc, hst] at this
    have hslot : ∀ {i : Nat} {x : PState}, f.slot = some (i, x) → s.mem.phase i = x.phase := by
      intro i x e
      rw [Mem.phase, h.knows _ f (by rw [hst]; exact mem_cons_self) i x e]
    cases Frame.move_effect hm with
    | quiet e _ _ => exact .same (by rw [e]; exact .rfl)
    | enter | back | sched | allocFound => exact .same .rfl
    | @run i _ hr =>
      refine .upd_same (i := i) (g := fun P => { P with state := .running }) rfl ?_
      exact ⟨by rw [hr]; rfl, rfl, rfl, rfl, rfl⟩
    | yield =>
      refine .upd_same rfl ⟨?_, rfl, rfl, rfl, rfl⟩
      rw [hme hf]
      rfl
    | sleepSet =>
      refine .upd_same rfl ⟨?_, rfl, rfl, rfl, rfl⟩
      rw [hme hf.1]
      rfl
    | sleepRel | sleepEnd | setkilled => exact .upd_same rfl ⟨rfl, rfl, rfl, rfl, rfl⟩
    | wake =>
      refine .upd_same rfl ?_
      unfold Proc.wake
      split
      next hs => exact ⟨by rw [hs.1]; rfl, rfl, rfl, rfl, rfl⟩
      next => exact .rfl
    | kill =>
      refine .upd_same rfl ?_
      unfold Proc.kill
      split
      next hs => exact ⟨by rw [hs]; rfl, rfl, rfl, rfl, rfl⟩
      next => exact ⟨rfl, rfl, rfl, rfl, rfl⟩
    | @allocPid p i sn pid =>
      refine .upd (i := i)
        (g := fun P => { P with pid := pid, state := .used, sn := sn }) rfl fun e => ?_
      exact .alloc rfl (hslot rfl) (by rw [Mem.phase, e]; rfl) e
    | @allocFail p i =>
      refine .upd (i := i) (g := fun _ => {}) rfl fun e => ?_
      exact .fail rfl (hslot rfl) (by rw [Mem.phase, e]; rfl) e
    | @reap p i =>
      refine .upd (i := i) (g := fun _ => {}) rfl fun e => ?_
      exact .reap rfl (hslot rfl) (by rw [Mem.phase, e]; rfl) e
    | @forkParent p i =>
      refine .upd (i := i) (g := fun P => { P with parent := some p }) rfl fun e => ?_
      exact .parent rfl (hslot rfl) (by rw [Mem.phase, e]; exact hslot rfl) e
    | @forkRun p i =>
      refine .upd (i := i) (g := fun P => { P with state := .runnable }) rfl fun e => ?_
      exact .start rfl (hslot rfl) (by rw [Mem.phase, e]; rfl) e
    | @adopt p i _ hi hp =>
      refine .upd (i := i) (g := fun P => { P with parent := some s.mem.initproc }) rfl fun e => ?_
      exact .adopt rfl hp (by rw [Mem.phase, e]; rfl) e
    | @zombie p st =>
      refine .upd (i := p) (g := fun P => { P with xstate := st, state := .zombie }) rfl fun e => ?_
      exact .zombie rfl (by rw [Mem.phase, hme hf]; rfl) (by rw [Mem.phase, e]; rfl) e

/-- **What a step records.** -/
inductive Book (s : Sys) (c : Nat) (taken rest : List Frame) (mv : Move) : Prop
  | none (hn : mv.mem.count = s.mem.count) (hf : mv.mem.forks = s.mem.forks)
      (hr : mv.mem.reaps = s.mem.reaps) (he : mv.mem.exits = s.mem.exits)
  | alloc {p i : Nat} (ht : taken = [.allocFound p i]) (hn : mv.mem.count = s.mem.count + 1)
      (hm : mv.mem.procs = s.mem.procs)
      (hf : mv.mem.forks = s.mem.forks) (hr : mv.mem.reaps = s.mem.reaps)
      (he : mv.mem.exits = s.mem.exits)
  | fork {p np : Nat} (ht : taken = [.forkRun p np]) (hn : mv.mem.count = s.mem.count)
      (hf : mv.mem.forks = ((s.mem.procs np).sn, (s.mem.procs np).pid) :: s.mem.forks)
      (hr : mv.mem.reaps = s.mem.reaps) (he : mv.mem.exits = s.mem.exits)
  | reap {p i : Nat} {addr : Bool} (ht : taken = [.waitFound p addr i])
      (hm : mv.mem.procs i = {}) (hn : mv.mem.count = s.mem.count)
      (hf : mv.mem.forks = s.mem.forks)
      (hr : mv.mem.reaps = ⟨(s.mem.procs i).sn, (s.mem.procs i).pid, (s.mem.procs i).xstate,
        (s.mem.procs p).sn⟩ :: s.mem.reaps) (he : mv.mem.exits = s.mem.exits)
  | exit {p : Nat} {status : Int} (ht : taken = [] ∧ rest = []) (hp : s.mem.proc c = some p)
      (hi : p ≠ s.mem.initproc) (hfr : mv.frames = [.exit p status])
      (hm : mv.mem.procs = s.mem.procs) (hn : mv.mem.count = s.mem.count)
      (hf : mv.mem.forks = s.mem.forks) (hr : mv.mem.reaps = s.mem.reaps)
      (he : mv.mem.exits = update s.mem.exits (s.mem.procs p).sn (some status))

theorem Fired.book (F : Fired s c taken rest mv s') : Book s c taken rest mv := by
  have hquiet : mv.mem = s.mem → Book s c taken rest mv := fun e =>
    .none (by rw [e]) (by rw [e]) (by rw [e]) (by rw [e])
  cases F.fires with
  | code hm =>
    obtain ⟨-, e | ⟨_, _, -, hp, hi, hfr, e⟩⟩ := Call.move_mem hm
    · exact hquiet e
    · exact .exit ⟨rfl, rfl⟩ hp hi hfr (by rw [e]) (by rw [e]) (by rw [e]) (by rw [e]) (by rw [e])
  | handler hf hm =>
    obtain ⟨-, e | ⟨_, _, rfl, -⟩⟩ := Call.move_mem hm
    · exact hquiet e
    · cases hf
  | interrupt | iret => exact .none rfl rfl rfl rfl
  | frame hm =>
    cases Frame.move_effect hm with
    | quiet e _ _ => exact hquiet e
    | allocFound => exact .alloc rfl rfl rfl rfl rfl rfl
    | forkRun => exact .fork rfl rfl rfl rfl rfl
    | reap => exact .reap rfl (update_self ..) rfl rfl rfl rfl
    | _ => exact .none rfl rfl rfl rfl

theorem Fired.initproc (F : Fired s c taken rest mv s') : mv.mem.initproc = s.mem.initproc := by
  have hcall : ∀ {f : Call}, f.move s c = some mv → mv.mem.initproc = s.mem.initproc := fun hm => by
    obtain ⟨-, e | ⟨_, _, -, -, -, -, e⟩⟩ := Call.move_mem hm <;> rw [e]
  cases F.fires with
  | code hm | handler _ hm => exact hcall hm
  | interrupt | iret => rfl
  | frame hm =>
    cases Frame.move_effect hm with
    | quiet e _ _ => rw [e]
    | _ => rfl

/-! ## The invariant -/

/-- **Parents and children**, in memory. -/
structure Tree (m : Mem) : Prop where
  range : ∀ k, m.phase k ≠ .free → k < NPROC
  init : m.phase m.initproc = .live
  free : ∀ k, m.phase k = .free → (m.procs k).parent = none
  orphan : ∀ k, m.phase k = .live ∨ m.phase k = .dead → k ≠ m.initproc → (m.procs k).parent ≠ none
  cares : ∀ k q, (m.procs k).parent = some q → m.phase q = .live

theorem Tree.nonfree {m : Mem} (h : Tree m) (hp : (m.procs p).parent = some q) :
    m.phase p ≠ .free := by
  intro e
  rw [h.free p e] at hp
  cases hp

/-- **Serial numbers**: each process has its own, and with it what has been recorded about it. -/
structure Serials (m : Mem) : Prop where
  lt : ∀ k, m.phase k ≠ .free → (m.procs k).sn < m.count
  inj : ∀ k k', m.phase k ≠ .free → m.phase k' ≠ .free → (m.procs k).sn = (m.procs k').sn → k = k'
  forked : ∀ k, m.phase k = .live ∨ m.phase k = .dead → k ≠ m.initproc →
    ((m.procs k).sn, (m.procs k).pid) ∈ m.forks
  made : ∀ k, m.phase k = .made → ∀ e ∈ m.forks, e.1 ≠ (m.procs k).sn
  forks_lt : ∀ e ∈ m.forks, e.1 < m.count
  forks_nodup : (m.forks.map Prod.fst).Nodup
  reaps_nodup : (m.reaps.map Reap.sn).Nodup
  reaped : ∀ r ∈ m.reaps, (r.sn, r.pid) ∈ m.forks ∧ m.exits r.sn = some r.status ∧
    ∀ k, m.phase k ≠ .free → (m.procs k).sn ≠ r.sn
  dead : ∀ k, m.phase k = .dead → m.exits (m.procs k).sn = some (m.procs k).xstate

/-- A process in `exit`. -/
structure Mem.Exiting (m : Mem) (p : Nat) (status : Int) : Prop where
  ne : p ≠ m.initproc
  live : m.phase p = .live
  exits : m.exits (m.procs p).sn = some status

/-- No child below `i` is a zombie. -/
def Mem.NoZombie (m : Mem) (p i : Nat) : Prop :=
  ∀ k < i, (m.procs k).parent = some p → m.phase k ≠ .dead

/-- What a point in `fork`, `exit` or `wait` knows about the family. -/
def Frame.Family (m : Mem) : Frame → Prop
  | .allocFound _ i => i < NPROC
  | .allocPid _ i _ sn =>
    i < NPROC ∧ sn < m.count ∧ (∀ k, m.phase k ≠ .free → (m.procs k).sn ≠ sn) ∧
      ∀ e ∈ m.forks, e.1 ≠ sn
  | .forkRel _ np | .forkParent _ np => (m.procs np).parent = none
  | .forkParentHeld p np | .forkRun p np => (m.procs np).parent = some p
  | .exit p status => m.Exiting p status
  | .reparent p status i => m.Exiting p status ∧ ∀ k, (m.procs k).parent = some p → i ≤ k
  | .exitZombie p status => m.Exiting p status ∧ ∀ k, (m.procs k).parent ≠ some p
  | .exitRel p | .exitEnd p => p ≠ m.initproc ∧ ∀ k, (m.procs k).parent ≠ some p
  | .waitScan p _ i _ => m.NoZombie p i
  | .waitNext p _ i => m.NoZombie p (i + 1)
  | .waitFound p _ i => (m.procs i).parent = some p
  | .waitKilled p _ | .waitKilledHeld p _ _ => m.NoZombie p NPROC
  | .sleep p ch (.wait ..) | .sleepRel p ch (.wait ..) => ch = .proc p ∧ m.NoZombie p NPROC
  | .sleepSet p ch (.wait ..) | .sleepEnd p ch (.wait ..) => ch = .proc p
  | _ => True

/-- What is kept about families. -/
structure Family (s : Sys) : Prop where
  tree : Tree s.mem
  serials : Serials s.mem
  points : ∀ x, ∀ f ∈ s.stack x, f.Family s.mem

/-! ## Who moves -/

namespace Fired

/-- The point that moved is on the stack. -/
theorem mem_taken (F : Fired s c [f] rest mv s') : f ∈ s.stack (s.mem.cur c) := by
  rw [F.stack_eq]
  exact mem_cons_self

/-- A point that works on a slot knows its phase. -/
theorem phase_slot (F : Fired s c taken rest mv s') (h : Inv s) {x : PState} (ht : taken = [f])
    (hf : f.slot = some (i, x)) : s.mem.phase i = x.phase := by
  subst ht
  rw [Mem.phase, h.knows _ f F.mem_taken i x hf]

/-- A process that moves lives. -/
theorem phase_cur (F : Fired s c taken rest mv s') (h : Inv s) (hc : s.mem.cur c = .proc p)
    (hl : leftState (taken ++ rest) = .running) : s.mem.phase p = .live := by
  have hs := (h.on_of_cur hc).2.2.1
  rw [← hc, F.stack_eq, hl] at hs
  rw [Mem.phase, hs]
  rfl

/-- Below a point of `fork`, `exit` or `wait` there is none. -/
theorem rest_nil (F : Fired s c [f] rest mv s') (h : Inv s) (hf : f.base = true) : rest = [] := by
  have := h.based (s.mem.cur c)
  rw [F.stack_eq] at this
  exact this.1 hf

end Fired

/-- A thread that claims `wait_lock` or `pid_lock` is executed. -/
theorem Inv.cur_of_claim (h : Inv s) {y : Tid} (hg : g ∈ s.stack y) (hl : l ∈ g.holds)
    (hlp : ∀ j, l ≠ .proc j) : ∃ d, s.mem.cur d = y ∧ s.spin.holder l = some d := by
  have hm : l ∈ Sched.claims (s.stack y) := mem_flatMap.2 ⟨g, hg, hl⟩
  suffices hcur : ∃ d, s.mem.cur d = y by
    obtain ⟨d, rfl⟩ := hcur
    exact ⟨d, rfl, (h.claims d).held _ hm⟩
  cases y with
  | cpu d =>
    have hf := h.home _ g hg
    cases g with
    | schedulerHeld | schedulerSwtch | schedulerBack | wakeupHeld =>
      exact absurd (mem_singleton.1 hl) (hlp _)
    | scheduler | intr | wakeup => cases hl
    | kill | killHeld | setkilled | setkilledHeld | allocFail | forkRunHeld | waitRelease
    | waitRet =>
      obtain ⟨_, e⟩ := hf
      cases e
    | relock | sleep | sleepRel | sleepSet | sleepEnd => cases hf.1
    | _ => cases hf
  | proc q =>
    by_contra hn
    have hk := h.parked (p := q) fun d hd => hn ⟨d, hd⟩
    have hcl : Sched.claims (s.stack (.proc q)) = [] ∨
        Sched.claims (s.stack (.proc q)) = [.proc q] := by
      unfold Parked at hk
      split at hk
      next => rcases hk.1 with e | e <;> rw [e] <;> simp [Frame.holds]
      next => rw [hk.1]; simp [Frame.holds]
      next => rw [hk.1]; simp [Frame.holds]
      next => exact .inr hk.2.1
      next => exact .inr hk.2.1
      next =>
        obtain ⟨_, _, _, -, e, -⟩ := hk
        exact .inr e
    rcases hcl with e | e <;> rw [e] at hm
    · cases hm
    · exact hlp q (mem_singleton.1 hm)

/-! ## Every step: memory -/

section

variable (F : Fired s c taken rest mv s') (h : Inv s)

include F h

/-- **A process dies** by itself only. -/
theorem Fired.live (hq : s.mem.phase q = .live) :
    mv.mem.phase q = .live ∨ ∃ status, taken = [.exitZombie q status] := by
  cases F.change h q with
  | same e => exact .inl (e.phase.trans hq)
  | alloc _ e | fail _ e | reap _ e | parent _ e | start _ e => rw [hq] at e; cases e
  | adopt _ _ e => exact .inl (e.trans hq)
  | zombie hf => exact .inr ⟨_, hf⟩

/-- A process has the parent it had, or a new one. -/
theorem Fired.parent (hq : (mv.mem.procs q).parent = some p) : (s.mem.procs q).parent = some p ∨
    taken = [.forkParent p q] ∨ p = s.mem.initproc ∧
      ∃ p' status, taken = [.reparent p' status q] ∧ (s.mem.procs q).parent = some p' := by
  cases F.change h q with
  | same e => exact .inl (e.parent ▸ hq)
  | alloc _ _ _ e | start _ _ _ e | zombie _ _ _ e => exact .inl (by rwa [e] at hq)
  | fail _ _ _ e | reap _ _ _ e => rw [e] at hq; cases hq
  | parent hf _ _ e =>
    rw [e] at hq
    cases hq
    exact .inr (.inl hf)
  | adopt hf hp _ e =>
    rw [e] at hq
    cases hq
    exact .inr (.inr ⟨rfl, _, _, hf, hp⟩)

variable (hF : Family s)

include hF

omit h in
/-- What the point that moved knows. -/
theorem Family.top (ht : taken = [f]) : f.Family s.mem := by
  subst ht
  exact hF.points _ f F.mem_taken

/-- The first process lives. -/
theorem Family.init_live : mv.mem.phase s.mem.initproc = .live := by
  rcases F.live h hF.tree.init with e | ⟨st, ht⟩
  · exact e
  · exact absurd rfl (hF.top F ht).1.ne

/-- A process that is not new has its serial number and its pid. -/
theorem Family.old (hq : mv.mem.phase q ≠ .free) :
    (∃ p pid sn, taken = [.allocPid p q pid sn] ∧ (mv.mem.procs q).sn = sn) ∨
      s.mem.phase q ≠ .free ∧ (mv.mem.procs q).sn = (s.mem.procs q).sn ∧
        (mv.mem.procs q).pid = (s.mem.procs q).pid := by
  cases F.change h q with
  | same e => exact .inr ⟨by rwa [Mem.phase, ← e.phase], e.sn, e.pid⟩
  | alloc hf _ _ e => exact .inl ⟨_, _, _, hf, by rw [e]⟩
  | fail _ _ e | reap _ _ e => exact absurd e hq
  | parent _ e _ e' | start _ e _ e' | zombie _ e _ e' =>
    exact .inr ⟨by rw [e]; nofun, by rw [e'], by rw [e']⟩
  | adopt _ hp _ e' => exact .inr ⟨hF.tree.nonfree hp, by rw [e'], by rw [e']⟩

theorem Family.tree_step : Tree mv.mem := by
  refine ⟨fun k hk => ?_, ?_, fun k hk => ?_, fun k hk hi => ?_, fun k q hq => ?_⟩
  · rcases hF.old F h hk with ⟨_, _, _, hf, -⟩ | ⟨e, -⟩
    exacts [(hF.top F hf).1, hF.tree.range k e]
  · rw [F.initproc]
    exact hF.init_live F h
  · cases F.change h k with
    | same e =>
      rw [e.parent]
      exact hF.tree.free k (by rwa [Mem.phase, ← e.phase])
    | fail _ _ _ e | reap _ _ _ e => rw [e]
    | alloc _ _ e | parent _ _ e | start _ _ e | zombie _ _ e => rw [hk] at e; cases e
    | adopt _ hp e => exact absurd (e.symm.trans hk) (hF.tree.nonfree hp)
  · rw [F.initproc] at hi
    cases F.change h k with
    | same e =>
      rw [e.parent]
      exact hF.tree.orphan k (by rwa [Mem.phase, ← e.phase]) hi
    | alloc _ _ e | fail _ _ e | reap _ _ e | parent _ _ e => rw [e] at hk; simp at hk
    | start hf _ _ e =>
      rw [e]
      exact fun e => nomatch (hF.top F hf).symm.trans e
    | adopt _ _ _ e => rw [e]; nofun
    | zombie hf hq _ e =>
      rw [e]
      exact hF.tree.orphan k (.inl hq) hi
  · rcases F.parent h hq with hp | hf | ⟨rfl, -⟩
    · rcases F.live h (hF.tree.cares k q hp) with e | ⟨st, hf⟩
      · exact e
      · exact absurd hp ((hF.top F hf).2 k)
    · -- a process that forks
      subst hf
      have hc : s.mem.cur c = .proc q := F.for_taken h _ mem_cons_self
      rcases F.live h (F.phase_cur h hc rfl) with e | ⟨st, hf⟩
      exacts [e, nomatch hf]
    · exact hF.init_live F h

omit hF in
/-- A process that calls `exit` lives. -/
theorem Fired.live_exit (ht : taken = [] ∧ rest = []) (hp : s.mem.proc c = some p) :
    s.mem.cur c = .proc p ∧ s.mem.phase p = .live := by
  obtain ⟨rfl, rfl⟩ := ht
  have hst : s.stack (s.mem.cur c) = [] := F.stack_eq
  have hc : s.mem.cur c = .proc p := by
    rcases (h.cpu c).cur with e | ⟨q, e⟩
    · rw [e] at hst
      exact absurd hst (h.cpu_none (.inl hst)).2
    · rw [e, some.inj (hp.symm.trans ((h.cpu c).proc q e))]
  exact ⟨hc, F.phase_cur h hc rfl⟩

omit hF in
/-- What was recorded of `exit` calls stays, but for the process that calls `exit` now. -/
theorem Fired.exits {n : Nat} (hn : ∀ p, s.mem.phase p = .live → s.mem.cur c = .proc p →
    taken = [] → rest = [] → (s.mem.procs p).sn ≠ n) : mv.mem.exits n = s.mem.exits n := by
  cases F.book with
  | none _ _ _ e | alloc _ _ _ _ _ e | fork _ _ _ _ e | reap _ _ _ _ _ e => rw [e]
  | exit ht hp _ _ _ _ _ _ e =>
    obtain ⟨hc, hl⟩ := F.live_exit h ht hp
    rw [e, update_of_ne (hn _ hl hc ht.1 ht.2).symm]

omit h hF in
theorem Fired.count_le : s.mem.count ≤ mv.mem.count := by
  cases F.book with
  | none e | fork _ e | reap _ _ e | exit _ _ _ _ _ e => exact e.ge
  | alloc _ e => omega

omit h hF in
theorem Fired.forks_subset : s.mem.forks ⊆ mv.mem.forks := by
  cases F.book with
  | none _ e | alloc _ _ _ e | reap _ _ _ e | exit _ _ _ _ _ _ e => rw [e]; exact List.Subset.refl _
  | fork _ _ e => rw [e]; exact subset_cons_self ..

omit h hF in
theorem Fired.mem_forks {e : Nat × Int} (he : e ∈ mv.mem.forks) : e ∈ s.mem.forks ∨
    ∃ p np, taken = [.forkRun p np] ∧ e = ((s.mem.procs np).sn, (s.mem.procs np).pid) := by
  cases F.book with
  | none _ e | alloc _ _ _ e | reap _ _ _ e | exit _ _ _ _ _ _ e => exact .inl (e ▸ he)
  | fork ht _ e =>
    rw [e] at he
    exact (mem_cons.1 he).symm.imp_right fun e => ⟨_, _, ht, e⟩

omit h hF in
theorem Fired.forked (ht : taken = [.forkRun p q]) :
    ((s.mem.procs q).sn, (s.mem.procs q).pid) ∈ mv.mem.forks ∧ mv.mem.phase q = .live := by
  subst ht
  cases F.fires with
  | frame hm =>
    cases hm
    refine ⟨mem_cons_self, ?_⟩
    simp [Mem.phase, Mem.setState, PState.phase]

theorem Family.serials_step : Serials mv.mem := by
  have S := hF.serials
  refine ⟨fun k hk => ?_, fun k k' hk hk' e => ?_, fun k hk hi => ?_, fun k hk e he hek => ?_,
    fun e he => ?_, ?_, ?_, fun r hr => ?_, fun k hk => ?_⟩
  · refine lt_of_lt_of_le ?_ F.count_le
    rcases hF.old F h hk with ⟨_, _, _, hf, e⟩ | ⟨hk, e, -⟩ <;> rw [e]
    exacts [(hF.top F hf).2.1, S.lt k hk]
  · rcases hF.old F h hk with ⟨_, _, _, hf, e1⟩ | ⟨hk, e1, -⟩ <;>
      rcases hF.old F h hk' with ⟨_, _, _, hf', e2⟩ | ⟨hk', e2, -⟩ <;> rw [e1, e2] at e
    · rw [hf] at hf'
      cases hf'
      rfl
    · exact absurd e.symm ((hF.top F hf).2.2.1 k' hk')
    · exact absurd e ((hF.top F hf').2.2.1 k hk)
    · exact S.inj k k' hk hk' e
  · rw [F.initproc] at hi
    have hold : s.mem.phase k = .live ∨ s.mem.phase k = .dead →
        ((s.mem.procs k).sn, (s.mem.procs k).pid) ∈ mv.mem.forks :=
      fun e => F.forks_subset (S.forked k e hi)
    cases F.change h k with
    | same e =>
      rw [e.sn, e.pid]
      exact hold (by rwa [Mem.phase, ← e.phase])
    | alloc _ _ e | fail _ _ e | reap _ _ e | parent _ _ e => rw [e] at hk; simp at hk
    | start hf _ _ e =>
      rw [e]
      exact (F.forked hf).1
    | adopt _ _ e e' =>
      rw [e']
      exact hold (e ▸ hk)
    | zombie _ e _ e' =>
      rw [e']
      exact hold (.inl e)
  · have hnew : ∀ p np, taken = [.forkRun p np] → s.mem.phase k ≠ .free →
        (s.mem.procs np).sn ≠ (s.mem.procs k).sn := by
      intro p np ht hk' e
      have hnp : s.mem.phase np = .made := F.phase_slot h ht rfl
      rw [S.inj np k (by rw [hnp]; nofun) hk' e] at ht
      rw [(F.forked ht).2] at hk
      cases hk
    have hold : s.mem.phase k = .made → e.1 = (s.mem.procs k).sn → False := by
      intro hk' hek
      rcases F.mem_forks he with he | ⟨p, np, ht, rfl⟩
      exacts [S.made k hk' e he hek, hnew p np ht (by rw [hk']; nofun) hek]
    cases F.change h k with
    | same e' => exact hold (e'.phase.symm.trans hk) (e'.sn ▸ hek)
    | alloc hf _ _ e' =>
      rcases F.mem_forks he with he | ⟨p, np, ht, rfl⟩
      · exact (hF.top F hf).2.2.2 e he (by rwa [e'] at hek)
      · rw [hf] at ht
        cases ht
    | fail _ _ e' | reap _ _ e' | start _ _ e' | zombie _ _ e' => rw [e'] at hk; cases hk
    | parent _ hq _ e' => exact hold hq (by rwa [e'] at hek)
    | adopt _ _ hq e' => exact hold (hq ▸ hk) (by rwa [e'] at hek)
  · refine lt_of_lt_of_le ?_ F.count_le
    rcases F.mem_forks he with he | ⟨p, np, ht, rfl⟩
    · exact S.forks_lt e he
    · exact S.lt np (by rw [F.phase_slot h ht rfl]; nofun)
  · cases F.book with
    | none _ e | alloc _ _ _ e | reap _ _ _ e | exit _ _ _ _ _ _ e => rw [e]; exact S.forks_nodup
    | @fork p np ht _ e =>
      rw [e, map_cons, nodup_cons]
      refine ⟨fun hm => ?_, S.forks_nodup⟩
      obtain ⟨e', he', hs⟩ := mem_map.1 hm
      exact S.made np (F.phase_slot h ht rfl) e' he' hs
  · cases F.book with
    | none _ _ e | alloc _ _ _ _ e | fork _ _ _ e
    | exit _ _ _ _ _ _ _ e => rw [e]; exact S.reaps_nodup
    | @reap p i _ ht _ _ _ e =>
      rw [e, map_cons, nodup_cons]
      refine ⟨fun hm => ?_, S.reaps_nodup⟩
      obtain ⟨r, hr, hs⟩ := mem_map.1 hm
      exact (S.reaped r hr).2.2 i (by rw [F.phase_slot h ht rfl]; nofun) hs.symm
  · have hold : r ∈ s.mem.reaps → (r.sn, r.pid) ∈ mv.mem.forks ∧ mv.mem.exits r.sn = some r.status ∧
        ∀ k, mv.mem.phase k ≠ .free → (mv.mem.procs k).sn ≠ r.sn := by
      intro hr
      obtain ⟨h1, h2, h3⟩ := S.reaped r hr
      refine ⟨F.forks_subset h1, ?_, fun k hk => ?_⟩
      · rw [F.exits h fun p hp _ _ _ => h3 p (by rw [hp]; nofun), h2]
      · rcases hF.old F h hk with ⟨_, _, _, hf, e⟩ | ⟨hk, e, -⟩ <;> rw [e]
        exacts [((hF.top F hf).2.2.2 _ h1).symm, h3 k hk]
    cases F.book with
    | none _ _ e | alloc _ _ _ _ e | fork _ _ _ e | exit _ _ _ _ _ _ _ e => exact hold (e ▸ hr)
    | @reap p i _ ht hm _ hf e he =>
      rw [e] at hr
      rcases mem_cons.1 hr with rfl | hr
      · have hd : s.mem.phase i = .dead := F.phase_slot h ht rfl
        have hi : i ≠ s.mem.initproc := by
          rintro rfl
          rw [hF.tree.init] at hd
          cases hd
        refine ⟨hf ▸ S.forked i (.inr hd) hi, by rw [he]; exact S.dead i hd, fun k hk => ?_⟩
        rcases hF.old F h hk with ⟨_, _, _, hf, -⟩ | ⟨hk', e, -⟩
        · rw [ht] at hf
          cases hf
        · rw [e]
          intro e
          obtain rfl := S.inj k i hk' (by rw [hd]; nofun) e
          rw [Mem.phase, hm] at hk
          exact hk rfl
      · exact hold hr
  · have hold : s.mem.phase k = .dead → mv.mem.exits (s.mem.procs k).sn =
        some (s.mem.procs k).xstate := by
      intro hd
      rw [F.exits h fun p hp _ _ _ e => ?_, S.dead k hd]
      obtain rfl := S.inj p k (by rw [hp]; nofun) (by rw [hd]; nofun) e
      rw [hp] at hd
      cases hd
    cases F.change h k with
    | same e =>
      rw [e.sn, e.xstate]
      exact hold (e.phase.symm.trans hk)
    | alloc _ _ e | fail _ _ e | reap _ _ e | parent _ _ e | start _ _ e => rw [e] at hk; cases hk
    | adopt _ _ hq e =>
      rw [e]
      exact hold (hq ▸ hk)
    | zombie hf _ _ e =>
      rw [e, F.exits h fun _ _ _ ht _ => by rw [hf] at ht; cases ht]
      exact (hF.top F hf).1.exits

/-! ## Every step: the points that do not move -/

variable {x : Tid} (hg : g ∈ s.stack x) (hx : x = s.mem.cur c → g ∈ rest)

include hg hx

omit hF hg in
/-- Where parents change or zombies appear, another thread moves. -/
theorem Fired.apart (ht : taken = [f]) (hf : f.base = true) : x ≠ s.mem.cur c := by
  subst ht
  intro e
  have := hx e
  rw [F.rest_nil h hf] at this
  cases this

omit hF in
/-- …and not at all while this one holds `wait_lock` or `pid_lock`. -/
theorem Fired.locked (hl : l ∈ g.holds) (hlp : ∀ j, l ≠ .proc j) : mv.op ≠ .acquire l ∧
    ∀ f, taken = [f] → f.base = true → l ∉ f.holds := by
  obtain ⟨d, hd, hh⟩ := h.cur_of_claim hg hl hlp
  refine ⟨fun e => ?_, fun f ht hf hlf => ?_⟩
  · have := (Spin.step_acquire (e ▸ F.spin)).1
    rw [hh] at this
    cases this
  · have hne := F.apart h hx ht hf
    subst ht
    have := (h.claims c).held l (mem_flatMap.2 ⟨f, F.mem_taken, hlf⟩)
    rw [hh] at this
    exact hne (some.inj this ▸ hd.symm)

omit hF in
/-- The children of a process that holds `wait_lock`. -/
theorem Fired.wait_parent (hl : Lk.wait ∈ g.holds) (hq : (mv.mem.procs q).parent = some p) :
    (s.mem.procs q).parent = some p ∧ (mv.mem.phase q = .dead → s.mem.phase q = .dead) := by
  obtain ⟨ho, hn⟩ := F.locked h hg hx hl nofun
  have hb : ∀ {f : Frame}, taken = [f] → f.base = true → Lk.wait ∈ f.holds → False :=
    fun ht hf hm => hn _ ht hf hm
  have hfp : ∀ {p : Nat}, taken = [.forkParent p q] → False := by
    rintro p rfl
    cases F.fires with
    | frame hm => cases hm; exact ho rfl
  refine ⟨?_, fun hd => ?_⟩
  · rcases F.parent h hq with e | ht | ⟨-, _, _, ht, -⟩
    exacts [e, (hfp ht).elim, (hb ht rfl (by simp [Frame.holds])).elim]
  · cases F.change h q with
    | same e => exact e.phase.symm.trans hd
    | alloc _ _ e | fail _ _ e | reap _ _ e | parent _ _ e | start _ _ e => rw [e] at hd; cases hd
    | adopt _ _ e => exact e.symm.trans hd
    | zombie ht => exact (hb ht rfl (by simp [Frame.holds])).elim

omit hF in
theorem Fired.noZombie (hl : Lk.wait ∈ g.holds) (hz : s.mem.NoZombie p i) :
    mv.mem.NoZombie p i := by
  intro k hk hp hd
  obtain ⟨h1, h2⟩ := F.wait_parent h hg hx hl hp
  exact hz k hk h1 (h2 hd)

omit hg in
/-- A process in `exit` stays there. -/
theorem Family.exiting {status : Int} (hgx : x = .proc p) (he : s.mem.Exiting p status) :
    mv.mem.Exiting p status := by
  have hlive : mv.mem.phase p = .live := by
    rcases F.live h he.live with e | ⟨st, ht⟩
    · exact e
    · have hne := F.apart h hx ht rfl
      subst ht
      exact (hne (hgx.trans (Eq.symm (F.for_taken h _ mem_cons_self)))).elim
  refine ⟨F.initproc ▸ he.ne, hlive, ?_⟩
  rcases hF.old F h (by rw [hlive]; nofun) with ⟨_, _, _, ht, -⟩ | ⟨-, e, -⟩
  · have := F.phase_slot h ht rfl
    rw [he.live] at this
    cases this
  · rw [e, F.exits h fun p' hp' hc ht hr e => ?_, he.exits]
    obtain rfl := hF.serials.inj p' p (by rw [hp']; nofun) (by rw [he.live]; nofun) e
    have := hx (hgx.trans hc.symm)
    rw [hr] at this
    cases this

omit hF hg in
/-- A process in `exit` gets no children. -/
theorem Fired.exit_parent (hgx : x = .proc p) (hp : p ≠ s.mem.initproc)
    (hq : (mv.mem.procs q).parent = some p) : (s.mem.procs q).parent = some p := by
  rcases F.parent h hq with e | ht | ⟨e, -⟩
  · exact e
  · have hne := F.apart h hx ht rfl
    subst ht
    exact (hne (hgx.trans (Eq.symm (F.for_taken h _ mem_cons_self)))).elim
  · exact absurd e hp

section

variable (hs : g.slot = some (i, .used))

include hs

omit hF in
/-- The parent of a process that is being made. -/
theorem Fired.made_parent : (mv.mem.procs i).parent = (s.mem.procs i).parent ∨
      ∃ p status, taken = [.reparent p status i] ∧ (s.mem.procs i).parent = some p := by
  have hi : s.mem.phase i = .made := by rw [Mem.phase, h.knows x g hg i _ hs]; rfl
  cases F.change h i with
  | same e => exact .inl e.parent
  | alloc _ _ _ e | start _ _ _ e | zombie _ _ _ e => exact .inl (by rw [e])
  | fail _ e | reap _ e => rw [hi] at e; cases e
  | parent ht =>
    have hne := F.apart h hx ht rfl
    subst ht
    exact (hne (h.owner x _ g _ i hg F.mem_taken (Frame.slot_owner hs nofun) rfl)).elim
  | adopt ht hp => exact .inr ⟨_, _, ht, hp⟩

omit hF in
theorem Fired.made_none (hi : (s.mem.procs i).parent = none) : (mv.mem.procs i).parent = none := by
  rcases F.made_parent h hg hx hs with e | ⟨_, _, -, e⟩ <;> rw [hi] at e
  · exact e
  · cases e

omit hF in
theorem Fired.made_some (hi : (s.mem.procs i).parent = some p)
    (hgx : x = .proc p) : (mv.mem.procs i).parent = some p := by
  rcases F.made_parent h hg hx hs with e | ⟨q, _, ht, e⟩ <;> rw [hi] at e
  · exact e
  · cases e
    have hne := F.apart h hx ht rfl
    subst ht
    exact (hne (hgx.trans (Eq.symm (F.for_taken h _ mem_cons_self)))).elim

end

/-- **What a point knows about the family stays so** while others move. -/
theorem Family.stays : g.Family mv.mem := by
  have hk := hF.points x g hg
  have hhome := h.home x g hg
  cases g with
  | allocFound => exact hk
  | allocPid p i pid sn =>
    obtain ⟨h1, h2, h3, h4⟩ := hk
    refine ⟨h1, h2.trans_le F.count_le, fun k hk => ?_, fun e he => ?_⟩
    · rcases hF.old F h hk with ⟨_, _, _, ht, -⟩ | ⟨hk, e, -⟩
      · exact absurd (by simp [Frame.holds])
          ((F.locked h hg hx (l := .pid) (by simp [Frame.holds]) (by simp)).2 _ ht rfl)
      · exact e ▸ h3 k hk
    · rcases F.mem_forks he with he | ⟨p, np, ht, rfl⟩
      · exact h4 e he
      · exact h3 np (by rw [F.phase_slot h ht rfl]; rintro ⟨⟩)
  | forkRel p np | forkParent p np => exact F.made_none h hg hx rfl hk
  | forkParentHeld p np | forkRun p np => exact F.made_some h hg hx rfl hk hhome
  | exit p status => exact hF.exiting F h hx hhome hk
  | reparent p status i | exitZombie p status =>
    exact ⟨hF.exiting F h hx hhome hk.1, fun k hp => hk.2 k (F.exit_parent h hx hhome hk.1.ne hp)⟩
  | exitRel p
  | exitEnd p => exact ⟨F.initproc ▸ hk.1, fun k hp => hk.2 k (F.exit_parent h hx hhome hk.1 hp)⟩
  | waitScan | waitNext | waitKilled
  | waitKilledHeld => exact F.noZombie h hg hx (by simp [Frame.holds]) hk
  | waitFound p addr i =>
    have hd : s.mem.phase i = .dead := by rw [Mem.phase, h.knows x _ hg i _ rfl]; rfl
    obtain ⟨-, hn⟩ := F.locked h hg hx (l := .wait) (by simp [Frame.holds]) (by simp)
    show (mv.mem.procs i).parent = some p
    cases F.change h i with
    | same e => exact e.parent.trans hk
    | alloc _ e | fail _ e | parent _ e | start _ e | zombie _ e => rw [hd] at e; cases e
    | reap ht | adopt ht => exact absurd (by simp [Frame.holds]) (hn _ ht rfl)
  | sleep p ch k | sleepRel p ch k =>
    cases k with
    | code n => trivial
    | wait q addr => exact ⟨hk.1, F.noZombie h hg hx (by simp [Frame.holds, Sleeper.claims]) hk.2⟩
  | sleepSet p ch k | sleepEnd p ch k =>
    cases k with
    | code n => trivial
    | wait q addr => exact hk
  | _ => trivial

end

/-! ## Every step: the points that are new -/

section

variable (F : Fired s c taken rest mv s') (h : Inv s) (hF : Family s)

include F h

theorem Fired.call_family {f : Call} (hm : f.move s c = some mv)
    (hr : f.handler = true ∨ taken = [] ∧ rest = []) (hg : g ∈ mv.frames) : g.Family mv.mem := by
  cases f with
  | exit status =>
    obtain ⟨p, hp, hm⟩ := bind_eq_some_iff.1 hm
    split at hm <;> cases hm
    next hi =>
      rcases hr with hr | hr
      · cases hr
      obtain rfl := mem_singleton.1 hg
      obtain ⟨hc, hl⟩ := F.live_exit h hr hp
      exact ⟨hi, hl, update_self ..⟩
  | acquire | release => cases hm; cases hg
  | wakeup | kill | setkilled =>
    cases hm
    obtain rfl := mem_singleton.1 hg
    trivial
  | sleep | fork | wait | yield =>
    obtain ⟨p, -, rfl⟩ := map_eq_some_iff.1 hm
    obtain rfl := mem_singleton.1 hg
    trivial

include hF

omit F h in
theorem Family.moves_reparent {status : Int}
    (hm : Frame.move s c ok (.reparent p status i) = some mv)
    (hk : Frame.Family s.mem (.reparent p status i)) (hg : g ∈ mv.frames) : g.Family mv.mem := by
  simp only [Frame.move] at hm
  split at hm
  next hi =>
    split at hm <;> cases hm
    next hp =>
      rcases mem_pair.1 hg with rfl | rfl
      · trivial
      · have he : Mem.Exiting (s.mem.upd i fun P => { P with parent := some s.mem.initproc }) p
            status := by
          refine ⟨hk.1.ne, ?_, ?_⟩ <;> by_cases e : p = i
          · subst e; simpa [Mem.phase] using hk.1.live
          · simpa [Mem.phase, e] using hk.1.live
          · subst e; rw [Mem.upd_self]; exact hk.1.exits
          · rw [Mem.upd_ne e]; exact hk.1.exits
        refine ⟨he, fun k e => ?_⟩
        dsimp only at e
        by_cases hki : k = i
        · rw [hki, Mem.upd_self] at e
          exact absurd (some.inj e).symm hk.1.ne
        · rw [Mem.upd_ne hki] at e
          exact Nat.lt_of_le_of_ne (hk.2 k e) (Ne.symm hki)
    next hp =>
      obtain rfl := mem_singleton.1 hg
      refine ⟨hk.1, fun k e => Nat.lt_of_le_of_ne (hk.2 k e) ?_⟩
      rintro rfl
      exact hp e
  next hi =>
    cases hm
    rcases mem_pair.1 hg with rfl | rfl
    · trivial
    · exact ⟨hk.1, fun k e => hi ((hk.2 k e).trans_lt (hF.tree.range k (hF.tree.nonfree e)))⟩

omit F h hF in
theorem family_wait {addr hv : Bool} (hm : Frame.move s c ok (.waitScan p addr i hv) = some mv)
    (hk : Frame.Family s.mem (.waitScan p addr i hv)) (hg : g ∈ mv.frames) : g.Family mv.mem := by
  simp only [Frame.move] at hm
  split at hm
  next hi =>
    split at hm <;> cases hm
    next hp =>
      dsimp only at hg
      split at hg <;> obtain rfl := mem_singleton.1 hg
      next => exact hp
      next hz =>
        intro k hki hkp
        rcases Nat.lt_succ_iff_lt_or_eq.1 hki with hki | rfl
        · exact hk k hki hkp
        · exact fun e => hz (phase_dead.1 e)
    next hp =>
      obtain rfl := mem_singleton.1 hg
      intro k hki hkp
      rcases Nat.lt_succ_iff_lt_or_eq.1 hki with hki | rfl
      · exact hk k hki hkp
      · exact absurd hkp hp
  next hi =>
    cases hm
    dsimp only at hg
    split at hg <;> obtain rfl := mem_singleton.1 hg
    · exact fun k hki => hk k (hki.trans_le (Nat.le_of_not_lt hi))
    · trivial

/-- **What a new point knows about the family.** -/
theorem Family.moves (hg : g ∈ mv.frames) : g.Family mv.mem := by
  cases F.fires with
  | code hm => exact F.call_family h hm (.inr ⟨rfl, rfl⟩) hg
  | handler hf hm => exact F.call_family h hm (.inl hf) hg
  | interrupt =>
    obtain rfl := mem_singleton.1 hg
    trivial
  | iret => cases hg
  | @frame f _ ok _ hm =>
    have hk := hF.top F rfl
    have hf := F.for_taken h f mem_cons_self
    cases f with
    | alloc p i =>
      simp only [Frame.move] at hm
      split at hm <;> cases hm
      next hi =>
        dsimp only at hg
        split at hg <;> obtain rfl := mem_singleton.1 hg
        exacts [hi, trivial]
      next => cases hg
    | allocFound p i =>
      cases hm
      obtain rfl := mem_singleton.1 hg
      refine ⟨hk, Nat.lt_succ_self _, fun k hk => ?_, fun e he => ?_⟩
      · exact (hF.serials.lt k hk).ne
      · exact (hF.serials.forks_lt e he).ne
    | allocPid p i pid sn =>
      have hi : s.mem.phase i = .free := F.phase_slot h rfl rfl
      simp only [Frame.move] at hm
      split at hm <;> cases hm <;> obtain rfl := mem_singleton.1 hg
      · simp [Frame.Family, hF.tree.free i hi]
      · trivial
    | forkParent p np =>
      cases hm
      obtain rfl := mem_singleton.1 hg
      simp [Frame.Family]
    | forkRel | forkParentHeld | waitNext | waitKilled =>
      cases hm
      obtain rfl := mem_singleton.1 hg
      exact hk
    | exit p status =>
      cases hm
      obtain rfl := mem_singleton.1 hg
      exact ⟨hk, fun k _ => Nat.zero_le k⟩
    | reparent p status i => exact hF.moves_reparent hm hk hg
    | exitZombie p status =>
      cases hm
      obtain rfl := mem_singleton.1 hg
      refine ⟨hk.1.ne, fun k hp => hk.2 k ?_⟩
      rcases F.parent h hp with e | ht | ⟨-, _, _, ht, -⟩
      · exact e
      · cases ht
      · cases ht
    | exitRel p =>
      cases hm
      rcases mem_pair.1 hg with rfl | rfl
      exacts [trivial, hk]
    | wait p addr =>
      cases hm
      obtain rfl := mem_singleton.1 hg
      rintro _ ⟨⟩
    | waitScan p addr i hv => exact family_wait hm hk hg
    | waitKilledHeld p addr kl =>
      obtain ⟨q, hq, rfl⟩ := Option.map_eq_some_iff.1 hm
      obtain rfl := Option.some.inj (hq.symm.trans ((h.cpu c).proc p hf))
      dsimp only at hg
      split at hg <;> obtain rfl := mem_singleton.1 hg
      exacts [trivial, ⟨rfl, hk⟩]
    | sleep p ch k =>
      cases hm
      obtain rfl := mem_singleton.1 hg
      cases k <;> exact hk
    | sleepRel p ch k =>
      cases hm
      obtain rfl := mem_singleton.1 hg
      cases k
      exacts [trivial, hk.1]
    | sleepSet p ch k =>
      cases hm
      rcases mem_pair.1 hg with rfl | rfl
      · trivial
      · cases k <;> exact hk
    | relock p k =>
      cases hm
      cases k with
      | code n => cases hg
      | wait q addr =>
        obtain rfl := mem_singleton.1 hg
        rintro _ ⟨⟩
    | _ =>
      refine (?_ : ∀ g ∈ Frame.next s c _, g.Family mv.mem) g (Frame.move_next hm hg)
      simp only [Frame.next, forall_mem_cons, not_mem_nil, false_implies, implies_true,
        Frame.Family, and_self]

/-- **Every step keeps the family.** -/
theorem Family.step : Family s' := by
  refine ⟨F.mem ▸ hF.tree_step F h, F.mem ▸ hF.serials_step F h, fun x g hg => ?_⟩
  rw [F.mem]
  rcases h.mem_stack F hg with ⟨rfl, hg'⟩ | ⟨hg', hx⟩ | ⟨np, -, -, rfl⟩
  exacts [hF.moves F h hg', hF.stays F h hg' hx, trivial]

end

theorem Family.start : Family initSys := by
  have h0 : ∀ k, k ≠ 0 → initSys.mem.procs k = {} := fun k hk => if_neg hk
  have hph : ∀ k, initSys.mem.phase k ≠ .free → k = 0 := by
    intro k hk
    by_contra e
    rw [Mem.phase, h0 k e] at hk
    exact hk rfl
  have hpar : ∀ k, (initSys.mem.procs k).parent = none := by
    intro k
    by_cases e : k = 0
    · rw [e]; rfl
    · rw [h0 k e]
  refine ⟨⟨fun k hk => ?_, rfl, fun k _ => hpar k, fun k hk hi => ?_, fun k q hq => ?_⟩,
    ⟨fun k hk => ?_, fun k k' hk hk' _ => ?_, fun k hk hi => ?_, fun _ _ => nofun, nofun, .nil,
      .nil, nofun, fun k hk => ?_⟩, fun x f hf => ?_⟩
  · rw [hph k hk]
    decide
  · exact absurd (hph k (by rcases hk with e | e <;> rw [e] <;> nofun)) hi
  · exact nomatch (hpar k).symm.trans hq
  · rw [hph k hk]
    decide
  · rw [hph k hk, hph k' hk']
  · exact absurd (hph k (by rcases hk with e | e <;> rw [e] <;> nofun)) hi
  · rw [hph k (by rw [hk]; nofun)] at hk
    cases hk
  · cases x with
    | proc p =>
      by_cases hp : p = 0 <;> simp [initSys, hp] at hf
      subst hf
      trivial
    | cpu c =>
      obtain rfl := mem_singleton.1 hf
      trivial

/-- **…and so does every run.** -/
theorem system_family (h : system.Reach s) : Family s := by
  refine h.invariant (I := Family) ?_ ?_
  · rintro _ rfl
    exact .start
  · intro s a s' hr h e
    obtain ⟨c, taken, rest, mv, F⟩ := exec_fired e
    exact h.step F (system_inv hr)

end Xv6.Sched
