import Xv6.Proc.Points

/-!
# Proc/OneCpu — one processor for each process

The steps of a process, of `sched` and of `scheduler` keep the invariant (`Inv.step`), so it holds
along every run.  `one_cpu` is what it says about `c->proc`, `p->state` and `p->lock`.
-/

namespace Xv6.Sched

open List

variable {s s' : Sys} {c d p q i : Nat} {taken rest st r : List Frame} {f g : Frame}
  {mv : Move} {ok : Bool}

/-! ## Every step -/

/-- **What moves**: the frame on top, or the processes and what each processor executes stay as they
are. -/
theorem Fired.frame_or (F : Fired s c taken rest mv s') :
    (∃ f ok, taken = [f] ∧ f.move s c ok = some mv) ∨ mv.mem.procs = s.mem.procs ∧
    mv.mem.proc = s.mem.proc ∧ mv.mem.cur = s.mem.cur ∧ mv.spawn = none := by
  have hcall : ∀ {f : Call}, f.move s c = some mv →
      mv.mem.procs = s.mem.procs ∧ mv.mem.proc = s.mem.proc ∧ mv.mem.cur = s.mem.cur ∧
      mv.spawn = none := by
    intro f hm
    obtain ⟨hsp, e | ⟨_, _, -, -, -, -, e⟩⟩ :=
      Call.move_mem hm <;> rw [e] <;> exact ⟨rfl, rfl, rfl, hsp⟩
  cases F.fires with
  | frame hm => exact .inl ⟨_, _, rfl, hm⟩
  | code hm | handler _ hm => exact .inr (hcall hm)
  | interrupt | iret => exact .inr ⟨rfl, rfl, rfl, rfl⟩

/-- The other processors execute what they did, and keep their processes. -/
def Elsewhere (c : Nat) (s s' : Sys) : Prop :=
  ∀ d ≠ c, s'.mem.cur d = s.mem.cur d ∧ s'.mem.proc d = s.mem.proc d

namespace Inv

section

variable (h : Inv s) (F : Fired s c taken rest mv s')

include h F

/-- A slot that is being filled is on no processor. -/
theorem spawn_off {np : Nat} (e : mv.spawn = some np) (d : Nat) : s.mem.cur d ≠ .proc np := by
  intro hd
  have hun : (s.mem.procs np).state = .unused := by
    rcases F.frame_or with ⟨f, ok, rfl, hm⟩ | ⟨-, -, -, hs⟩
    · have hk :=
        h.knows _ _ (show _ ∈ s.stack (s.mem.cur c) by rw [F.stack_eq]; exact mem_cons_self)
      cases Frame.move_effect hm with
      | quiet _ hs _ => rw [hs] at e; cases e
      | allocPid => cases e; exact hk _ _ rfl
      | _ => cases e
    · rw [hs] at e
      cases e
  rw [(h.on_of_cur hd).2.2.1] at hun
  unfold leftState at hun
  split at hun <;> cases hun

/-- **A frame of the new state** is new, or old and not the one that moved. -/
theorem mem_stack {y : Tid} (hg : g ∈ s'.stack y) :
    (y = s.mem.cur c ∧ g ∈ mv.frames) ∨ (g ∈ s.stack y ∧ (y = s.mem.cur c → g ∈ rest)) ∨
      ∃ np, mv.spawn = some np ∧ y = .proc np ∧ g = .forkret np := by
  by_cases hy : y = s.mem.cur c
  · subst hy
    rw [F.stack_cur fun np e => h.spawn_off F e c] at hg
    rcases mem_append.1 hg with hg | hg
    · exact .inl ⟨rfl, hg⟩
    · exact .inr (.inl ⟨by rw [F.stack_eq]; exact mem_append_right _ hg, fun _ => hg⟩)
  · by_cases hsp : ∃ np, mv.spawn = some np ∧ y = .proc np
    · obtain ⟨np, e, rfl⟩ := hsp
      rw [F.stack_spawn e] at hg
      exact .inr (.inr ⟨np, e, rfl, mem_singleton.1 hg⟩)
    · rw [F.stack_ne hy fun np e e' => hsp ⟨np, e, e'⟩] at hg
      exact .inr (.inl ⟨hg, fun e => absurd e hy⟩)

/-- …and so for whole stacks. -/
theorem all_stacks {P : List Frame → Prop}
    (h1 : P (mv.frames ++ rest)) (h2 : ∀ np, P [.forkret np]) (h3 : ∀ y, P (s.stack y)) (y : Tid) :
    P (s'.stack y) := by
  by_cases hy : y = s.mem.cur c
  · subst hy
    rw [F.stack_cur fun np e => h.spawn_off F e c]
    exact h1
  · by_cases hsp : ∃ np, mv.spawn = some np ∧ y = .proc np
    · obtain ⟨np, e, rfl⟩ := hsp
      rw [F.stack_spawn e]
      exact h2 np
    · rw [F.stack_ne hy fun np e e' => hsp ⟨np, e, e'⟩]
      exact h3 y

/-- **A step that is no switch** keeps the invariant, once it is known where each process is. -/
theorem keep (hcl : ∀ d, s'.spin.Claims d (Sched.claims (s'.stack (s'.mem.cur d))))
    (hcpu : ∀ d, CpuOk s' d) (hstatus : ∀ q, Status s' q) : Inv s' := by
  refine ⟨h.counted.step F.spin, hcl, fun x g hg => ?_,
    h.all_stacks F (F.nested h) (fun _ => ⟨nofun, .nil, trivial⟩) h.nested,
    h.all_stacks F (F.based h) (fun _ => ⟨fun _ => rfl, trivial⟩) h.based, hcpu, hstatus,
    fun x g hg => ?_, fun x y f' g i hf' hg hi hi' => ?_, fun q hq => ?_⟩
  · rcases h.mem_stack F hg with ⟨rfl, hg'⟩ | ⟨hg', -⟩ | ⟨np, -, rfl, rfl⟩
    exacts [F.home h (mem_append_left _ hg'), h.home x g hg', rfl]
  · intro i z hi
    rw [F.mem]
    rcases h.mem_stack F hg with ⟨rfl, hg'⟩ | ⟨hg', hr⟩ | ⟨np, -, rfl, rfl⟩
    · cases F.fires with
      | frame hm =>
        exact Frame.move_knows hm (h.knows _ _ (by rw [F.stack_eq]; exact mem_cons_self)) hg' i z hi
      | code hm | handler _ hm => rw [Call.move_slot hm hg'] at hi; cases hi
      | interrupt =>
        obtain rfl := mem_singleton.1 hg'
        cases hi
      | iret => cases hg'
    · rcases F.frame_or with ⟨f, ok, rfl, hm⟩ | ⟨e, -⟩
      · exact h.slot_stays F (Frame.move_effect hm) hg' hr hi
      · rw [e]
        exact h.knows x g hg' i z hi
    · cases hi
  · -- a new owner has just found the slot free
    have hnew : ∀ {y : Tid} {g' f' : Frame}, f' ∈ mv.frames → f'.owner = some i → g' ∈ s.stack y →
        g'.owner = some i → s.mem.cur c = y := by
      intro y g' f' hf' hi hg' hi'
      obtain ⟨z, hz, -⟩ := Frame.owner_slot hi
      cases F.fires with
      | code hm | handler _ hm => rw [Call.move_slot hm hf'] at hz; cases hz
      | interrupt =>
        obtain rfl := mem_singleton.1 hf'
        cases hz
      | iret => cases hf'
      | @frame f _ ok _ hm =>
        rcases Frame.move_owner hm hf' hi with e | ⟨ho, hun⟩
        · exact h.owner _ _ f g' i (by rw [F.stack_eq]; exact mem_cons_self) hg' e hi'
        · obtain ⟨z', hz', hne⟩ := Frame.owner_slot hi'
          have hk := h.knows y g' hg' i z' hz'
          rw [hun] at hk
          obtain ⟨d, -, hl⟩ := h.cur_of_slot hg' hz' (by rw [← hk]; exact nofun)
          have hstep := F.spin
          rw [ho] at hstep
          rw [(Spin.step_acquire hstep).1] at hl
          cases hl
    rcases h.mem_stack F hf' with ⟨rfl, hf1⟩ | ⟨hf1, -⟩ | ⟨np, -, rfl, rfl⟩
    · rcases h.mem_stack F hg with ⟨rfl, -⟩ | ⟨hg1, -⟩ | ⟨np, -, rfl, rfl⟩
      exacts [rfl, hnew hf1 hi hg1 hi', nomatch hi']
    · rcases h.mem_stack F hg with ⟨rfl, hg1⟩ | ⟨hg1, -⟩ | ⟨np, -, rfl, rfl⟩
      exacts [(hnew hg1 hi' hf1 hi).symm, h.owner x y f' g i hf1 hg1 hi hi', nomatch hi']
    · cases hi
  · rw [F.mem] at hq ⊢
    rcases F.frame_or with ⟨f, ok, rfl, hm⟩ | ⟨e, -⟩
    · refine (Frame.move_effect hm).chan (F.for_taken h f mem_cons_self) (r := rest)
        (fun p e => ?_) h.chan hq
      obtain ⟨-, -, hs, ha⟩ := h.on_of_cur e
      have hst := F.stack_eq
      rw [e] at hst
      rw [hst] at hs ha
      exact ⟨hs, ha⟩
    · rw [e] at hq ⊢
      exact h.chan q hq

/-- Claims of the other processors. -/
theorem claims_other (hd : d ≠ c) (hcur : mv.mem.cur d = s.mem.cur d) :
    s'.spin.Claims d (Sched.claims (s'.stack (s'.mem.cur d))) := by
  have hne : s.mem.cur d ≠ s.mem.cur c := fun e => hd (h.cur_eq rfl e)
  rw [F.mem, hcur, F.stack_ne hne fun np e => h.spawn_off F e d]
  exact (h.claims d).other F.spin hd

/-- The stack of another processor stays as it is. -/
theorem stack_cpu (hd : d ≠ c) : s'.stack (.cpu d) = s.stack (.cpu d) := by
  refine F.stack_ne (fun e => ?_) fun _ _ => nofun
  rcases (h.cpu c).cur with e' | ⟨p, e'⟩ <;> rw [e'] at e <;> cases e
  exact hd rfl

/-- …so that only the processor that moves and the processes are to be looked at. -/
theorem keep_at (hmem : Elsewhere c s s')
    (hcl : s'.spin.Claims c (Sched.claims (s'.stack (s'.mem.cur c)))) (hcpu : CpuOk s' c)
    (hstatus : ∀ q, Status s' q) : Inv s' := by
  refine h.keep F (fun d => ?_) (fun d => ?_) hstatus
  · by_cases hd : d = c
    · rwa [hd]
    · exact h.claims_other F hd (by rw [← F.mem]; exact (hmem d hd).1)
  · by_cases hd : d = c
    · rwa [hd]
    · obtain ⟨e1, e2⟩ := hmem d hd
      refine ⟨?_, ?_, ?_⟩
      · rw [e1]
        exact (h.cpu d).cur
      · rw [e1, e2]
        exact (h.cpu d).proc
      · rw [e2, h.stack_cpu F hd]
        exact (h.cpu d).idle

/-- A process that is not that of the processor that moves. -/
theorem status_other (hmem : Elsewhere c s s')
    (hP : s'.mem.procs q = s.mem.procs q) (hst : s'.stack (.proc q) = s.stack (.proc q))
    (hcq : s.mem.proc c ≠ some q) (hcq' : s'.mem.proc c ≠ some q) : Status s' q := by
  refine (h.status q).congr (by rw [hP]) (by rw [hP]) hst (fun d => ?_) fun d hd => ?_
  · by_cases e : d = c
    · rw [e]
      exact iff_of_false hcq' hcq
    · rw [(hmem d e).2]
  · have hdc : d ≠ c := fun e => hcq (e ▸ hd)
    exact ⟨(hmem d hdc).1, h.stack_cpu F hdc⟩

/-- …when that keeps its process. -/
theorem status_rest (hproc : mv.mem.proc = s.mem.proc)
    (hcur : mv.mem.cur = s.mem.cur) (hxq : s.mem.cur c ≠ .proc q) (hcq : s.mem.proc c ≠ some q)
    (hrun : taken = [.scheduler q] → q < NPROC → (s.mem.procs q).state ≠ .runnable) :
    Status s' q := by
  rcases F.frame_or with ⟨f, ok, rfl, hm⟩ | ⟨e, -, -, e'⟩
  · have hff := F.for_taken h f mem_cons_self
    exact ((Frame.move_effect hm).touch hff hxq fun e => hrun (by rw [e])).status h F hxq hcq
      (fun d => by rw [hproc]) fun d _ => by rw [hcur]
  · exact h.status_other F (fun d _ => by rw [F.mem, hcur, hproc]; exact ⟨rfl, rfl⟩)
      (by rw [F.mem, e]) (F.stack_ne hxq.symm fun np hnp => by rw [e'] at hnp; cases hnp) hcq
      (by rwa [F.mem, hproc])

/-- A step of a process that keeps its processor. -/
theorem step_proc (hc : s.mem.cur c = .proc p) (hns : ∀ q, taken ≠ [.sched q]) : Inv s' := by
  have hself := F.stack_cur fun np e => h.spawn_off F e c
  have hcpus : ∀ d, s'.stack (.cpu d) = s.stack (.cpu d) := fun d =>
    F.stack_ne (by rw [hc]; exact nofun) fun _ _ => nofun
  obtain ⟨hproc, hcur⟩ : mv.mem.proc = s.mem.proc ∧ mv.mem.cur = s.mem.cur := by
    rcases F.frame_or with ⟨f, ok, rfl, hm⟩ | ⟨-, e1, e2, -⟩
    · have hff := F.for_taken h f mem_cons_self
      rw [hc] at hff
      have e := Frame.move_effect hm
      exact ⟨e.mem_proc hff, e.mem_cur hff fun q hq => hns q (by rw [hq])⟩
    · exact ⟨e1, e2⟩
  have hpc := (h.cpu c).proc p hc
  refine h.keep_at F (fun d _ => by rw [F.mem, hcur, hproc]; exact ⟨rfl, rfl⟩) ?_ ?_ fun q => ?_
  · rw [F.mem, hcur, hself]
    exact F.claims h
  · refine ⟨?_, ?_, ?_⟩ <;> rw [F.mem]
    · rw [hcur]
      exact (h.cpu c).cur
    · rw [hcur, hproc]
      exact (h.cpu c).proc
    · rw [hproc, hcpus]
      exact (h.cpu c).idle
  · by_cases hq : q = p
    · subst hq
      obtain ⟨hd, hst, -, -⟩ := h.on_of_cur hc
      obtain ⟨hs, ha⟩ := F.left h hc hns
      rw [hc] at hself
      refine .on c (by rw [F.mem, hproc]; exact hd) (by rw [F.mem, hcur, hc])
        (by rw [hcpus, hst]) ?_ ?_
      · rw [F.mem, hself, hs]
      · rw [F.mem, hself, ha]
    · refine h.status_rest F hproc hcur (by rw [hc]; simpa using Ne.symm hq)
        (by rw [hpc]; simpa using Ne.symm hq) ?_
      rintro rfl
      have hff := F.for_taken h _ mem_cons_self
      rw [hc] at hff
      simp [Frame.For] at hff

end

section

variable (h : Inv s)

include h

/-- A process gives up its processor. -/
theorem step_sched (hc : s.mem.cur c = .proc p) (F : Fired s c [.sched p] rest mv s')
    (hl : s.spin.holder (.proc p) = some c) (hn : s.spin.noff c = 1)
    (hs : (s.mem.procs p).state ≠ .running)
    (hmv : mv = { mem := s.mem.swtch c (.cpu c), frames := [] }) : Inv s' := by
  subst hmv
  have hspin : s'.spin = s.spin := (Option.some.inj F.spin).symm
  have hself : s'.stack (.proc p) = rest := by
    rw [← hc]
    exact F.stack_cur (by simp)
  have hst : s.stack (.proc p) = .sched p :: rest := by
    rw [← hc]
    exact F.stack_eq
  have hcpus : ∀ d, s'.stack (.cpu d) = s.stack (.cpu d) := fun d =>
    F.stack_ne (by rw [hc]; simp) fun _ _ => (by simp)
  have hproc : s'.mem.proc = s.mem.proc := by rw [F.mem]; rfl
  have hcurc : s'.mem.cur c = .cpu c := by
    rw [F.mem]
    exact Function.update_self ..
  have hmem : Elsewhere c s s' := fun d hd => by
    rw [F.mem]
    exact ⟨Function.update_of_ne hd .., rfl⟩
  have hpc := (h.cpu c).proc p hc
  obtain ⟨hd, hcst, hleft, ha⟩ := h.on_of_cur hc
  rw [hst] at hleft ha
  -- the processor holds one lock
  have hcl : Sched.claims rest = [.proc p] := by
    have hcl := h.claims c
    rw [hc, hst] at hcl
    refine hcl.eq_singleton h.counted hn (l := .proc p) ?_
    have hfor : ∀ f ∈ Frame.sched p :: rest, f.For (.proc p) := fun f hf => by
      rw [← hst] at hf
      exact h.home _ f hf
    exact mem_claims_of_left hfor (by rw [← hleft]; exact hs)
  have hb := h.based (.proc p)
  rw [hst] at hb
  have hfor : ∀ f ∈ rest, f.For (.proc p) := fun f hf =>
    h.home _ f (by rw [hst]; exact mem_cons_of_mem _ hf)
  have hprocs : s'.mem.procs = s.mem.procs := by rw [F.mem]; rfl
  have hpark : Parked (s'.mem.procs p) p (s'.stack (.proc p)) := by
    rw [hself, hprocs]
    unfold Parked
    rw [hleft, ha]
    cases rest with
    | nil => exact absurd hleft hs
    | cons f r =>
      have hff := hfor f mem_cons_self
      cases f with
      | yieldEnd q =>
        cases hff
        exact ⟨⟨r, .inl rfl⟩, hcl, rfl⟩
      | sleepEnd q ch k =>
        cases hff.1
        exact ⟨ch, k, r, rfl, hcl, rfl⟩
      | exitEnd q =>
        cases hff
        have hr := hb.2.1 rfl
        subst hr
        exact ⟨rfl, rfl⟩
      | _ => exact absurd hleft hs
  refine h.keep_at F hmem ?_ ⟨.inl hcurc, fun q hq => ?_, fun hq => ?_⟩ fun q => ?_
  · rw [hcurc, hcpus, hcst, hspin]
    exact ⟨by simp [Frame.holds], by simpa [Frame.holds] using hl⟩
  · rw [hcurc] at hq
    cases hq
  · rw [hproc, hpc] at hq
    cases hq
  · by_cases hq : q = p
    · subst hq
      exact .back c (by rw [hproc]; exact hd) hcurc (by rw [hcpus, hcst])
        (by rw [hprocs]; exact hs) hpark
    · have hpq : s.mem.proc c ≠ some q := by simpa [hpc] using Ne.symm hq
      exact h.status_other F hmem (by rw [hprocs])
        (F.stack_ne (by rw [hc]; simpa using hq) (by simp)) hpq (by rwa [hproc])

section

variable (F : Fired s c taken rest mv s') (hc : s.mem.cur c = .cpu c) (hn : s.mem.proc c = none)
  (hrun : ∀ i, taken = [.scheduler i] → i < NPROC → (s.mem.procs i).state ≠ .runnable)

include F hc hn hrun

/-- A processor without a process goes through the table, or handles an interrupt. -/
theorem idle_move : Idle (mv.frames ++ rest) := by
  have hidle := (h.cpu c).idle hn
  have hst := F.stack_eq
  rw [hc] at hst
  rw [hst] at hidle
  have hcl := h.claims c
  rw [hc, hst] at hcl
  -- frames of a handler on top of what is below
  have hpush : ∀ {fs : List Frame}, (∀ f ∈ fs, f.handles = true) →
      (∃ h i, rest = h ++ [.scheduler i] ∧ ∀ f ∈ h, f.handles = true) → Idle (fs ++ rest) := by
    rintro fs hfs ⟨h', i, rfl, hh⟩
    refine .inr ⟨fs ++ h', i, by rw [append_assoc], fun f hf => ?_⟩
    exact (mem_append.1 hf).elim (hfs f) (hh f)
  rcases hidle with ⟨i, e⟩ | ⟨h', i, e, hh⟩
  · cases F.fires with
    | frame hm =>
      obtain ⟨rfl, rfl⟩ : _ = Frame.schedulerHeld i ∧ rest = [] := by simpa using e
      cases hm
      exact .inr ⟨[], i + 1, rfl, (by simp)⟩
    | code hm | handler _ hm | iret => simp at e
    | interrupt h0 =>
      have := hcl.eq_nil h.counted h0
      rw [e] at this
      simp [Frame.holds] at this
  · cases F.fires with
    | @frame f _ ok _ hm =>
      cases h' with
      | nil =>
        obtain ⟨rfl, rfl⟩ : f = Frame.scheduler i ∧ rest = [] := by simpa using e
        simp only [Frame.move] at hm
        split at hm
        next hi =>
          rw [if_neg (hrun i rfl hi)] at hm
          cases hm
          exact .inl ⟨i, rfl⟩
        next =>
          cases hm
          exact .inr ⟨[], 0, rfl, (by simp)⟩
      | cons f' h'' =>
        obtain ⟨rfl, rfl⟩ : f = f' ∧ rest = h'' ++ [Frame.scheduler i] := by simpa using e
        refine hpush ?_ ⟨h'', i, rfl, fun f hf => hh f (mem_cons_of_mem _ hf)⟩
        have hf := hh f mem_cons_self
        intro g hg
        have hg' := Frame.move_next hm hg
        cases f with
        | wakeup ch j =>
          simp only [Frame.next, mem_cons, not_mem_nil, or_false] at hg'
          rcases hg' with rfl | rfl <;> rfl
        | wakeupHeld ch j =>
          simp only [Frame.next, mem_singleton] at hg'
          rw [hg']
          rfl
        | intr => cases hg'
        | _ => cases hf
    | code hm => simp at e
    | @handler f r _ hf hm =>
      refine hpush ?_ ⟨h', i, e, hh⟩
      rcases Call.move_cpu hm hf hn with e' | ⟨ch, e'⟩ <;> rw [e'] <;> simp [Frame.handles]
    | interrupt => exact hpush (by simp [Frame.handles]) ⟨h', i, e, hh⟩
    | iret =>
      cases h' with
      | nil => simp at e
      | cons f' h'' =>
        obtain ⟨rfl, rfl⟩ : Frame.intr = f' ∧ rest = h'' ++ [Frame.scheduler i] := by simpa using e
        exact hpush (by simp) ⟨h'', i, rfl, fun f hf => hh f (mem_cons_of_mem _ hf)⟩

/-- A step of a processor without a process that does not choose one. -/
theorem step_idle : Inv s' := by
  have hself := F.stack_cur fun np e => h.spawn_off F e c
  have hidle := h.idle_move F hc hn hrun
  have hst := F.stack_eq
  rw [hc] at hst
  -- such a step neither switches nor sets `c->proc`
  have hscan : ∀ f, taken = [f] → (∀ i, f ≠ .schedulerSwtch i) ∧ ∀ i, f ≠ .schedulerBack i := by
    rintro f rfl
    have := (h.cpu c).idle hn
    rw [hst] at this
    rcases this with ⟨i, e⟩ | ⟨h', i, e, hh⟩
    · obtain ⟨rfl, -⟩ : f = .schedulerHeld i ∧ rest = [] := by simpa using e
      exact ⟨nofun, nofun⟩
    · cases h' with
      | nil =>
        obtain ⟨rfl, -⟩ : f = .scheduler i ∧ rest = [] := by simpa using e
        exact ⟨nofun, nofun⟩
      | cons f' h'' =>
        obtain ⟨rfl, -⟩ : f = f' ∧ rest = h'' ++ [.scheduler i] := by simpa using e
        have hf := hh f mem_cons_self
        constructor <;> rintro i rfl <;> cases hf
  obtain ⟨hproc, hcur⟩ : mv.mem.proc = s.mem.proc ∧ mv.mem.cur = s.mem.cur := by
    rcases F.frame_or with ⟨f, ok, rfl, hm⟩ | ⟨-, e1, e2, -⟩
    · have hff := F.for_taken h f mem_cons_self
      rw [hc] at hff
      cases Frame.move_effect hm with
      | quiet hm' _ _ => rw [hm']; exact ⟨rfl, rfl⟩
      | run hi hr => exact absurd hr (hrun _ rfl hi)
      | enter => exact absurd rfl ((hscan _ rfl).1 _)
      | back => exact absurd rfl ((hscan _ rfl).2 _)
      | sched => cases hff
      | _ => exact ⟨rfl, rfl⟩
    · exact ⟨e1, e2⟩
  refine h.keep_at F (fun d _ => by rw [F.mem, hcur, hproc]; exact ⟨rfl, rfl⟩) ?_
    ⟨?_, ?_, fun _ => by rw [← hc, hself]; exact hidle⟩ fun q =>
      h.status_rest F hproc hcur (by rw [hc]; exact nofun) (by rw [hn]; exact nofun) (hrun q)
  · rw [F.mem, hcur, hself]
    exact F.claims h
  · rw [F.mem, hcur]
    exact (h.cpu c).cur
  · rw [F.mem, hcur, hproc]
    exact (h.cpu c).proc

end

/-- The processor chooses a process. -/
theorem step_run (F : Fired s c [.scheduler i] rest mv s') (hc : s.mem.cur c = .cpu c)
    (hn : s.mem.proc c = none) (hr : (s.mem.procs i).state = .runnable)
    (hmv : mv = { op := .acquire (.proc i), mem := (s.mem.setState i .running).setCpu c (some i)
                  frames := [.schedulerSwtch i] }) : Inv s' := by
  subst hmv
  have hself : s'.stack (.cpu c) = .schedulerSwtch i :: rest := by
    rw [← hc]
    exact F.stack_cur nofun
  have hrest : rest = [] := by
    have hidle := (h.cpu c).idle hn
    have hst := F.stack_eq
    rw [hc] at hst
    rw [hst] at hidle
    rcases hidle with ⟨j, e⟩ | ⟨h', j, e, hh⟩
    · simp at e
    · cases h' with
      | nil => exact (by simpa using e : i = j ∧ rest = []).2
      | cons f r =>
        have hf := hh f mem_cons_self
        obtain ⟨rfl, -⟩ : Frame.scheduler i = f ∧ rest = r ++ [.scheduler j] := by simpa using e
        cases hf
  subst hrest
  have hcur : s'.mem.cur = s.mem.cur := by rw [F.mem]; rfl
  have hprocc : s'.mem.proc c = some i := by
    rw [F.mem]
    exact Function.update_self ..
  have hmem : Elsewhere c s s' := fun d hd => by
    rw [F.mem]
    exact ⟨rfl, Function.update_of_ne hd ..⟩
  obtain ⟨hoff, hk⟩ := h.off_of_free (Spin.step_acquire F.spin).1 (by rw [hr]; exact nofun)
  refine h.keep_at F hmem ?_ ⟨by rw [hcur]; exact (h.cpu c).cur, fun q hq => ?_,
    fun hd => ?_⟩ fun q => ?_
  · have := F.claims h
    rw [hcur, hc, hself]
    exact this
  · rw [hcur, hc] at hq
    cases hq
  · rw [hprocc] at hd
    cases hd
  · by_cases hq : q = i
    · subst hq
      have hP : s'.mem.procs q = { s.mem.procs q with state := .running } := by
        rw [F.mem]
        exact Mem.upd_self (h := fun P => { P with state := .running })
      refine .entering c (fun e => ?_) (by rw [hcur, hc]) hself (by rw [hP]) ?_
      · by_cases he : e = c
        · rw [he]
          exact iff_of_true hprocc rfl
        · rw [(hmem e he).2]
          exact iff_of_false (hoff e) he
      · rw [hP, F.stack_ne (by rw [hc]; exact nofun) nofun]
        unfold Parked at hk ⊢
        rw [hr] at hk
        exact hk
    · have hP : s'.mem.procs q = s.mem.procs q := by
        rw [F.mem]
        exact Mem.upd_ne (h := fun P => { P with state := .running }) hq
      exact h.status_other F hmem hP (F.stack_ne (by rw [hc]; exact nofun) nofun)
        (by rw [hn]; exact nofun) (by simpa [hprocc] using Ne.symm hq)

/-- A processor at its own thread that has a process. -/
theorem at_cpu (hc : s.mem.cur c = .cpu c) (hp : s.mem.proc c = some i) :
    (∀ e, s.mem.proc e = some i ↔ e = c) ∧ Parked (s.mem.procs i) i (s.stack (.proc i)) ∧
      (s.stack (.cpu c) = [.schedulerSwtch i] ∧ (s.mem.procs i).state = .running ∨
        s.stack (.cpu c) = [.schedulerBack i] ∧ (s.mem.procs i).state ≠ .running) := by
  cases h.status i with
  | off hd _ _ => exact absurd hp (hd c)
  | entering d hd _ e hs hk =>
    obtain rfl := (hd c).1 hp
    exact ⟨hd, hk, .inl ⟨e, hs⟩⟩
  | on d hd hcur _ _ _ =>
    obtain rfl := (hd c).1 hp
    rw [hc] at hcur
    cases hcur
  | back d hd _ e hs hk =>
    obtain rfl := (hd c).1 hp
    exact ⟨hd, hk, .inr ⟨e, hs⟩⟩

/-- The processor switches to its process. -/
theorem step_enter (F : Fired s c [.schedulerSwtch i] [] mv s') (hc : s.mem.cur c = .cpu c)
    (hp : s.mem.proc c = some i) (hs : (s.mem.procs i).state = .running)
    (hmv : mv = { mem := s.mem.swtch c (.proc i), frames := [.schedulerBack i] }) : Inv s' := by
  subst hmv
  have hspin : s'.spin = s.spin := (Option.some.inj F.spin).symm
  have hself : s'.stack (.cpu c) = [.schedulerBack i] := by
    rw [← hc]
    exact F.stack_cur nofun
  have hprocs : s'.mem.procs = s.mem.procs := by rw [F.mem]; rfl
  have hproc : s'.mem.proc = s.mem.proc := by rw [F.mem]; rfl
  have hcurc : s'.mem.cur c = .proc i := by
    rw [F.mem]
    exact Function.update_self ..
  have hmem : Elsewhere c s s' := fun d hd => by
    rw [F.mem]
    exact ⟨Function.update_of_ne hd .., rfl⟩
  have hstack : ∀ q, s'.stack (.proc q) = s.stack (.proc q) := fun q =>
    F.stack_ne (by rw [hc]; exact nofun) nofun
  obtain ⟨hd, hk, -⟩ := h.at_cpu hc hp
  unfold Parked at hk
  rw [hs] at hk
  obtain ⟨hres, hcl, hasleep⟩ := hk
  refine h.keep_at F hmem ?_ ⟨.inr ⟨i, hcurc⟩, fun q hq => ?_, fun hq => ?_⟩ fun q => ?_
  · have := h.claims c
    rw [F.stack_eq] at this
    rw [hcurc, hstack, hcl, hspin]
    exact this
  · rw [hcurc] at hq
    cases hq
    rw [hproc, hp]
  · rw [hproc, hp] at hq
    cases hq
  · by_cases hq : q = i
    · subst hq
      exact .on c (by rw [hproc]; exact hd) hcurc hself (by rw [hprocs, hstack, hs, hres.calm.1])
        (by rw [hprocs, hstack, hasleep, hres.calm.2])
    · have hpq : s.mem.proc c ≠ some q := by simpa [hp] using Ne.symm hq
      exact h.status_other F hmem (by rw [hprocs]) (hstack q) hpq (by rwa [hproc])

/-- The processor is done with its process. -/
theorem step_back (F : Fired s c [.schedulerBack i] [] mv s') (hc : s.mem.cur c = .cpu c)
    (hp : s.mem.proc c = some i) (hs : (s.mem.procs i).state ≠ .running)
    (hmv : mv = { op := .release (.proc i), mem := s.mem.setCpu c none
                  frames := [.scheduler (i + 1)] }) : Inv s' := by
  subst hmv
  have hself : s'.stack (.cpu c) = [.scheduler (i + 1)] := by
    rw [← hc]
    exact F.stack_cur nofun
  have hprocs : s'.mem.procs = s.mem.procs := by rw [F.mem]; rfl
  have hcur : s'.mem.cur = s.mem.cur := by rw [F.mem]; rfl
  have hprocc : s'.mem.proc c = none := by
    rw [F.mem]
    exact Function.update_self ..
  have hmem : Elsewhere c s s' := fun d hd => by
    rw [F.mem]
    exact ⟨rfl, Function.update_of_ne hd ..⟩
  have hstack : ∀ q, s'.stack (.proc q) = s.stack (.proc q) := fun q =>
    F.stack_ne (by rw [hc]; exact nofun) nofun
  obtain ⟨hd, hk, -⟩ := h.at_cpu hc hp
  refine h.keep_at F hmem ?_ ⟨by rw [hcur]; exact (h.cpu c).cur, fun q hq => ?_,
    fun _ => ?_⟩ fun q => ?_
  · rw [hcur, hc, hself]
    exact ⟨.nil, nofun⟩
  · rw [hcur, hc] at hq
    cases hq
  · rw [hself]
    exact .inr ⟨[], i + 1, rfl, nofun⟩
  · by_cases hq : q = i
    · subst hq
      refine .off (fun d hd' => ?_) (by rw [hprocs]; exact hs) (by rw [hprocs, hstack]; exact hk)
      by_cases hdc : d = c
      · rw [hdc, hprocc] at hd'
        cases hd'
      · rw [(hmem d hdc).2] at hd'
        exact hdc ((hd d).1 hd')
    · exact h.status_other F hmem (by rw [hprocs]) (hstack q) (by simpa [hp] using Ne.symm hq)
        (by rw [hprocc]; exact nofun)

/-- **Every step keeps the invariant.** -/
theorem step (F : Fired s c taken rest mv s') : Inv s' := by
  rcases (h.cpu c).cur with hc | ⟨p, hc⟩
  · cases hp : s.mem.proc c with
    | none =>
      by_cases hrun : ∃ i, taken = [.scheduler i] ∧ i < NPROC ∧ (s.mem.procs i).state = .runnable
      · obtain ⟨i, rfl, hi, hr⟩ := hrun
        cases F.fires with
        | frame hm =>
          simp only [Frame.move, if_pos hi, if_pos hr] at hm
          cases hm
          exact h.step_run F hc hp hr rfl
      · exact h.step_idle F hc hp fun i e hi hr => hrun ⟨i, e, hi, hr⟩
    | some i =>
      have hst := F.stack_eq
      rw [hc] at hst
      have hcl := h.claims c
      rw [hc] at hcl
      rcases (h.at_cpu hc hp).2.2 with ⟨e, hs⟩ | ⟨e, hs⟩ <;> rw [e] at hst hcl
      · cases F.fires with
        | frame hm =>
          obtain ⟨rfl, rfl⟩ : Frame.schedulerSwtch i = _ ∧ [] = rest := by simpa using hst
          cases hm
          exact h.step_enter F hc hp hs rfl
        | interrupt h0 => simpa [Frame.holds] using hcl.eq_nil h.counted h0
        | code | handler | iret => simp at hst
      · cases F.fires with
        | frame hm =>
          obtain ⟨rfl, rfl⟩ : Frame.schedulerBack i = _ ∧ [] = rest := by simpa using hst
          cases hm
          exact h.step_back F hc hp hs rfl
        | interrupt h0 => simpa [Frame.holds] using hcl.eq_nil h.counted h0
        | code | handler | iret => simp at hst
  · by_cases hs : ∃ q, taken = [.sched q]
    · obtain ⟨q, rfl⟩ := hs
      have hf := F.for_taken h _ mem_cons_self
      rw [hc] at hf
      cases hf
      cases F.fires with
      | frame hm =>
        simp only [Frame.move] at hm
        split at hm
        next hg =>
          cases hm
          exact h.step_sched hc F hg.1 hg.2.1 hg.2.2 rfl
        next => cases hm
    · exact h.step_proc F hc fun q e => hs ⟨q, e⟩

end

end Inv

/-! ## Every run -/

theorem Inv.start : Inv initSys where
  counted := Spin.counted_free
  claims _ := ⟨.nil, nofun⟩
  home x f hf := by
    cases x with
    | proc p =>
      by_cases hp : p = 0 <;> simp [initSys, hp] at hf
      subst hf
      rw [hp]
      rfl
    | cpu c =>
      obtain rfl := mem_singleton.1 hf
      exact ⟨c, rfl⟩
  nested x := by
    cases x with
    | proc p => by_cases hp : p = 0 <;> simp [initSys, hp, Nested, Calm.nil]
    | cpu c => exact ⟨nofun, .nil, trivial⟩
  based x := by
    cases x with
    | proc p => by_cases hp : p = 0 <;> simp [initSys, hp, Based]
    | cpu c => exact ⟨fun _ => rfl, trivial⟩
  cpu c := ⟨.inl rfl, nofun, fun _ => .inr ⟨[], 0, rfl, nofun⟩⟩
  status p := by
    by_cases hp : p = 0
    · subst hp
      exact .off nofun nofun ⟨⟨[], .inr (.inr rfl)⟩, rfl, rfl⟩
    · refine .off nofun ?_ ?_
      · simp [initSys, initMem, hp]
      · simp [initSys, initMem, hp, Parked]
  knows x f hf := by
    cases x with
    | proc p =>
      by_cases hp : p = 0 <;> simp [initSys, hp] at hf
      subst hf
      exact nofun
    | cpu c =>
      obtain rfl := mem_singleton.1 hf
      exact nofun
  owner x y f g i hf hg hi hi' := by
    cases x with
    | proc p =>
      by_cases hp : p = 0 <;> simp [initSys, hp] at hf
      subst hf
      cases hi
    | cpu c =>
      obtain rfl := mem_singleton.1 hf
      cases hi
  chan p hp := by by_cases h0 : p = 0 <;> simp [initSys, initMem, h0] at hp

/-- **The invariant holds along every run.** -/
theorem system_inv (h : system.Reach s) : Inv s := by
  refine h.invariant (I := Inv) ?_ ?_
  · rintro _ rfl
    exact .start
  · intro s a s' _ h e
    obtain ⟨c, taken, rest, mv, F⟩ := exec_fired e
    exact h.step F

/-- A process whose slot is emptied is on no processor, before and after. -/
theorem Inv.freed {a : Label} (h : Inv s) (e : exec s a = some s')
    (hp : (s.mem.procs p).state ≠ .unused) (hp' : (s'.mem.procs p).state = .unused) (d : Nat) :
    (s.mem.cur d ≠ .proc p ∧ s.mem.proc d ≠ some p) ∧
      s'.mem.cur d ≠ .proc p ∧ s'.mem.proc d ≠ some p := by
  obtain ⟨c, taken, rest, mv, F⟩ := exec_fired e
  have hoff : (∀ d, s.mem.proc d ≠ some p) → ∀ d, s.mem.cur d ≠ .proc p := fun ho d hd =>
    ho d ((h.cpu d).proc p hd)
  rw [F.mem] at hp' ⊢
  rcases F.frame_or with ⟨f, ok, rfl, hm⟩ | ⟨e, -⟩
  · have hff := F.for_taken h f mem_cons_self
    have hkf : f.Knows s.mem := h.knows _ f (by rw [F.stack_eq]; exact mem_cons_self)
    have he := Frame.move_effect hm
    by_cases hx : s.mem.cur c = .proc p
    · -- the process that moves does not empty its own slot
      exfalso
      by_cases hs : ∃ q, f = .sched q
      · obtain ⟨q, rfl⟩ := hs
        cases he with
        | quiet hm' => rw [hm'] at hp'; exact hp hp'
        | sched => exact hp hp'
      · have := (F.left h hx fun q e' => hs ⟨q, by simpa using e'⟩).1
        rw [hp'] at this
        unfold leftState at this
        split at this <;> cases this
    · by_cases hr : f = .scheduler p ∧ p < NPROC ∧ (s.mem.procs p).state = .runnable
      · exfalso
        obtain ⟨rfl, hlt, hr⟩ := hr
        simp only [Frame.move, if_pos hlt, if_pos hr] at hm
        cases hm
        simp [Mem.setCpu, Mem.setState] at hp'
      · cases he.touch hff hx fun e1 e2 e3 => hr ⟨e1, e2, e3⟩ with
        | same hs _ _ => exact absurd (hs.symm.trans hp') hp
        | wake _ hs' _ _ _ | use _ hs' _ _ | start _ hs' _ _ _ => rw [hp'] at hs'; cases hs'
        | free hf _ _ _ =>
          rcases hf with ⟨_, _, _, rfl⟩ | ⟨q, addr, rfl⟩
          · exact absurd (hkf _ _ rfl) hp
          · have hz : (s.mem.procs p).state = .zombie := hkf _ _ rfl
            have hl := (h.claims c).held (.proc p) (by
              rw [F.stack_eq]
              exact mem_append_left _ mem_cons_self)
            have hcur : s.mem.cur c = .proc q := hff
            -- the processor executes the parent
            have hne : s.mem.proc c ≠ some p := by
              intro e'
              obtain rfl := Option.some.inj (((h.cpu c).proc q hcur).symm.trans e')
              exact hx hcur
            obtain ⟨ho, -⟩ := h.off_of_held hl hne (by rw [hz]; simp)
            rw [he.mem_proc (p := q) rfl, he.mem_cur (p := q) rfl (by simp)]
            exact ⟨⟨hoff ho d, ho d⟩, hoff ho d, ho d⟩
  · rw [e] at hp'
    exact absurd hp' hp

/-- What holds for processors and processes in a state. -/
structure OneCpu (s : Sys) : Prop where
  /-- At most one processor has a process… -/
  unique : ∀ c d p, s.mem.proc c = some p → s.mem.proc d = some p → c = d
  /-- …and at most one executes on its kernel stack. -/
  stack : ∀ c d p, s.mem.cur c = .proc p → s.mem.cur d = .proc p → c = d
  /-- A process whose lock is free is `RUNNING` iff exactly one processor has it. -/
  running : ∀ p, s.spin.holder (.proc p) = none →
    ((s.mem.procs p).state = .running ↔ ∃! c, s.mem.proc c = some p)
  /-- `sched` is entered with the lock of the process held, and in another state than `RUNNING`. -/
  sched : ∀ c p rest, s.stack (s.mem.cur c) = .sched p :: rest → s.mem.proc c = some p ∧
    s.spin.holder (.proc p) = some c ∧ (s.mem.procs p).state ≠ .running
  /-- A slot is emptied when no processor executes on its kernel stack any more. -/
  freed : ∀ a s' p, exec s a = some s' → (s.mem.procs p).state ≠ .unused →
    (s'.mem.procs p).state = .unused → ∀ d, (s.mem.cur d ≠ .proc p ∧ s.mem.proc d ≠ some p) ∧
      s'.mem.cur d ≠ .proc p ∧ s'.mem.proc d ≠ some p

theorem Inv.proc_unique (h : Inv s) (hc : s.mem.proc c = some p) (hd : s.mem.proc d = some p) :
    c = d := by
  cases h.status p with
  | off ho _ _ => exact absurd hc (ho c)
  | entering e he _ _ _ _ | on e he _ _ _ _
  | back e he _ _ _ _ => exact ((he c).1 hc).trans ((he d).1 hd).symm

theorem Inv.running_iff (h : Inv s) (hl : s.spin.holder (.proc p) = none) :
    (s.mem.procs p).state = .running ↔ ∃ c, s.mem.proc c = some p := by
  constructor
  · intro hr
    cases h.status p with
    | off _ hs _ => exact absurd hr hs
    | entering e he _ _ _ _ | on e he _ _ _ _ | back e he _ _ _ _ => exact ⟨e, (he e).2 rfl⟩
  · rintro ⟨c, hc⟩
    by_contra hr
    exact (h.off_of_free hl hr).1 c hc

/-- **One processor for each process**, in every state of every run. -/
theorem one_cpu (h : system.Reach s) : OneCpu s := by
  have h := system_inv h
  refine ⟨fun c d p hc hd => h.proc_unique hc hd, fun c d p hc hd => (h.cur_unique hc hd).symm,
    fun p hl => ?_, fun c p rest hst => ?_, fun a s' p e hp hp' d => h.freed e hp hp' d⟩
  · rw [h.running_iff hl]
    refine ⟨fun ⟨c, hc⟩ => ⟨c, hc, fun d hd => h.proc_unique hd hc⟩, fun ⟨c, hc, _⟩ => ⟨c, hc⟩⟩
  · have hf : s.mem.cur c = .proc p := h.home _ (.sched p) (by rw [hst]; exact List.mem_cons_self)
    obtain ⟨-, -, hs, -⟩ := h.on_of_cur hf
    have hn := h.nested (s.mem.cur c)
    rw [hst] at hn
    have hleft := hn.1 p rfl
    rw [hf] at hst
    rw [← hst] at hleft
    refine ⟨(h.cpu c).proc p hf, ?_, by rw [hs]; exact hleft⟩
    exact (h.claims c).held _ (by rw [hf]; exact mem_claims_of_left (h.home _) hleft)

/-- …for instance when the second processor has switched to the first process. -/
theorem one_cpu_first : ∃ s, system.Reach s ∧ s.mem.cur 1 = .proc 0 ∧ OneCpu s := by
  have h : system.Reach initSys := .init rfl
  have hs := h.play (fun _ _ _ e => e) (l := [.run 1 true, .run 1 true]) rfl
  exact ⟨_, hs, rfl, one_cpu hs⟩

end Xv6.Sched
