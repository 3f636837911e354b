import Xv6.Proc.Effect

/-!
# Proc/Keep — every step keeps the invariant of the scheduler

A step of a thread changes the state of a process only while its processor holds the lock of that
process, so the process is then off every processor, or is the one that executes the step (`Touch`).
-/

namespace Xv6.Sched

open List

variable {s s' : Sys} {c d p q i : Nat} {taken rest st r : List Frame} {f g : Frame}
  {mv : Move} {ok : Bool}

/-! ## The thread that moves -/

/-- What `Inv` says about the thread of a processor, once it has moved. -/
theorem Spin.Claims.accounts {k k' : Spin Lk} {ls ls' : List Lk} {o : Spin.Op Lk}
    (h : k.Claims c ls) (ha : Accounts ls o ls') (hobj : ∀ n, Lk.obj n ∉ ls)
    (hs : k.step c o = some k') : k'.Claims c ls' := by
  cases ha with
  | skip hp =>
    obtain rfl := Option.some.inj hs
    exact h.perm hp.symm
  | acquire hp => exact (h.acquire hs).perm hp.symm
  | release hp => exact (h.perm hp).release hs
  | lock hp => exact (h.unclaimed hs fun _ _ => nofun).perm hp.symm
  | unlock hp =>
    refine (h.unclaimed hs fun l hl e => ?_).perm hp.symm
    cases e
    exact hobj _ hl

theorem Call.move_calm {f : Call} (h : f.move s c = some mv) (hr : Calm rest) :
    Calm (mv.frames ++ rest) := by
  obtain ⟨p, e, -⟩ := Call.move_first h
  rw [e]
  cases f with
  | acquire | release => exact hr
  | _ => exact ⟨rfl, rfl⟩

theorem Call.move_for {f : Call} (h : f.move s c = some mv) (hme : s.mem.proc c = some p)
    (hg : g ∈ mv.frames) : g.For (.proc p) := by
  obtain ⟨q, e, hq⟩ := Call.move_first h
  obtain rfl := hq p hme
  rw [e] at hg
  cases f with
  | acquire | release => cases hg
  | _ =>
    obtain rfl := mem_singleton.1 hg
    first
    | rfl
    | trivial
    | exact ⟨rfl, nofun⟩
    | exact ⟨p, rfl⟩

/-- On a processor without a process, a handler only uses locks and calls `wakeup`. -/
theorem Call.move_cpu {f : Call} (h : f.move s c = some mv) (hf : f.handler = true)
    (hn : s.mem.proc c = none) : mv.frames = [] ∨ ∃ ch, mv.frames = [.wakeup ch 0] := by
  cases f with
  | acquire | release => cases h; exact .inl rfl
  | wakeup ch => cases h; exact .inr ⟨ch, rfl⟩
  | yield => simp [Call.move, hn] at h
  | _ => cases hf

namespace Fired

section

variable (F : Fired s c taken rest mv s')

include F

theorem stack_ne {y : Tid} (hy : y ≠ s.mem.cur c)
    (hsp : ∀ np, mv.spawn = some np → y ≠ .proc np) : s'.stack y = s.stack y := by
  rw [F.stack, Move.spawned]
  cases e : mv.spawn with
  | none => exact Function.update_of_ne hy ..
  | some np => exact (Function.update_of_ne (hsp np e) ..).trans (Function.update_of_ne hy ..)

theorem stack_cur (hsp : ∀ np, mv.spawn = some np → s.mem.cur c ≠ .proc np) :
    s'.stack (s.mem.cur c) = mv.frames ++ rest := by
  rw [F.stack, Move.spawned]
  cases e : mv.spawn with
  | none => exact Function.update_self ..
  | some np => exact (Function.update_of_ne (hsp np e) ..).trans (Function.update_self ..)

theorem stack_spawn (hsp : mv.spawn = some q) : s'.stack (.proc q) = [.forkret q] := by
  rw [F.stack, Move.spawned, hsp]
  exact Function.update_self ..

end

theorem me (h : Inv s) : ∀ p, s.mem.cur c = .proc p → s.mem.proc c = some p := (h.cpu c).proc

theorem for_taken (F : Fired s c taken rest mv s') (h : Inv s) : ∀ f ∈ taken, f.For (s.mem.cur c) :=
  fun f hf => h.home _ f (by rw [F.stack_eq]; exact mem_append_left _ hf)

theorem for_rest (F : Fired s c taken rest mv s') (h : Inv s) : ∀ f ∈ rest, f.For (s.mem.cur c) :=
  fun f hf => h.home _ f (by rw [F.stack_eq]; exact mem_append_right _ hf)

/-- A processor's own thread never has left anything. -/
theorem calm_cpu (hst : ∀ f ∈ st, f.For (.cpu c)) : Calm st := by
  cases st with
  | nil => exact .nil
  | cons f r =>
    have hf := hst f mem_cons_self
    cases f with
    | sched | exitRel | sleepSet => simp [Frame.For] at hf
    | _ => exact ⟨rfl, rfl⟩

section

variable (F : Fired s c taken rest mv s') (h : Inv s)

include F h

/-- **What is below has left nothing.** -/
theorem calm : Calm rest := by
  have hn := h.nested (s.mem.cur c)
  rw [F.stack_eq] at hn
  cases F.fires with
  | frame _ => exact hn.2.1
  | code _ => exact .nil
  | handler _ _ => exact ⟨rfl, rfl⟩
  | iret _ => exact hn.2.1
  | interrupt h0 =>
    -- no lock is held, so none is claimed
    have hcl := (h.claims c).eq_nil h.counted h0
    rw [F.stack_eq] at hcl
    have hf := F.for_rest h
    rcases (h.cpu c).cur with e | ⟨p, e⟩ <;> rw [e] at hf
    · exact calm_cpu hf
    · constructor
      · by_contra hl
        have := mem_claims_of_left hf hl
        rw [show Sched.claims rest = [] from hcl] at this
        cases this
      · by_contra hl
        have := mem_claims_of_asleep hf hl
        rw [show Sched.claims rest = [] from hcl] at this
        cases this

/-- The claims of the thread after the move. -/
theorem claims : s'.spin.Claims c (Sched.claims (mv.frames ++ rest)) := by
  have hc := h.claims c
  rw [F.stack_eq] at hc
  exact Spin.Claims.accounts hc (F.fires.claims (F.for_taken h) (me h)) (fun _ => obj_notMem_claims)
    F.spin

theorem nested : Nested (mv.frames ++ rest) := by
  have hn := h.nested (s.mem.cur c)
  rw [F.stack_eq] at hn
  have hc := F.calm h
  cases F.fires with
  | frame hm => exact (Frame.move_shape hm).nested hc hn.2.2
  | code hm | handler _ hm => exact (Call.move_shape hm).nested hc hn
  | interrupt => exact ⟨nofun, hc, hn⟩
  | iret => exact hn.2.2

theorem based : Based (mv.frames ++ rest) := by
  have hb := h.based (s.mem.cur c)
  rw [F.stack_eq] at hb
  cases F.fires with
  | frame hm => exact (Frame.move_shape hm).based hb.1 hb.2
  | code hm => exact (Call.move_shape hm).based (fun _ => rfl) hb
  | handler hf hm =>
    refine (Call.move_shape hm).based (fun e => ?_) hb
    rw [hf] at e
    cases e
  | interrupt => exact ⟨nofun, hb⟩
  | iret => exact hb.2

/-- Frames of the moved thread belong to it. -/
theorem home (hg : g ∈ mv.frames ++ rest) : g.For (s.mem.cur c) := by
  rcases mem_append.1 hg with hm | hr
  · have hst := F.stack_eq
    cases F.fires with
    | frame h' =>
      exact Frame.next_for (F.for_taken h _ mem_cons_self) (me h) g (Frame.move_next h' hm)
    | interrupt =>
      obtain rfl := mem_singleton.1 hm
      trivial
    | iret => cases hm
    | code h' =>
      rcases (h.cpu c).cur with e | ⟨p, e⟩
      · rw [e] at hst
        exact absurd hst (h.cpu_none (.inl hst)).2
      · rw [e]
        exact Call.move_for h' (me h p e) hm
    | handler hf h' =>
      rcases (h.cpu c).cur with e | ⟨p, e⟩
      · rw [e] at hst
        rcases Call.move_cpu h' hf (h.cpu_none (.inr ⟨_, hst⟩)).1 with
          e' | ⟨ch, e'⟩ <;> rw [e'] at hm
        · cases hm
        · obtain rfl := mem_singleton.1 hm
          trivial
      · rw [e]
        exact Call.move_for h' (me h p e) hm
  · exact F.for_rest h g hr

end

end Fired

/-! ## Processes the step is not about -/

/-- Where a process is depends on its own thread and on the processor that has it. -/
theorem Status.congr (h : Status s q) (hs : (s'.mem.procs q).state = (s.mem.procs q).state)
    (ha : (s'.mem.procs q).asleep = (s.mem.procs q).asleep)
    (hst : s'.stack (.proc q) = s.stack (.proc q))
    (hp : ∀ d, s'.mem.proc d = some q ↔ s.mem.proc d = some q)
    (hc : ∀ d, s.mem.proc d = some q →
      s'.mem.cur d = s.mem.cur d ∧ s'.stack (.cpu d) = s.stack (.cpu d)) : Status s' q := by
  have hpark : Parked (s.mem.procs q) q (s.stack (.proc q)) →
      Parked (s'.mem.procs q) q (s'.stack (.proc q)) := by
    intro hk
    rw [hst]
    unfold Parked at hk ⊢
    rw [hs, ha]
    exact hk
  cases h with
  | off hd hs' hk => exact .off (fun d hd' => hd d ((hp d).1 hd')) (by rwa [hs]) (hpark hk)
  | entering d hd hcur hst' hs' hk =>
    obtain ⟨e1, e2⟩ := hc d ((hd d).2 rfl)
    exact .entering d (fun e => (hp e).trans (hd e)) (e1.trans hcur) (e2.trans hst') (by rwa [hs])
      (hpark hk)
  | on d hd hcur hst' hs' ha' =>
    obtain ⟨e1, e2⟩ := hc d ((hd d).2 rfl)
    exact .on d (fun e => (hp e).trans (hd e)) (e1.trans hcur) (e2.trans hst')
      (by rw [hs, hst, hs']) (by rw [ha, hst, ha'])
  | back d hd hcur hst' hs' hk =>
    obtain ⟨e1, e2⟩ := hc d ((hd d).2 rfl)
    exact .back d (fun e => (hp e).trans (hd e)) (e1.trans hcur) (e2.trans hst') (by rwa [hs])
      (hpark hk)

/-- What a program point does to a process other than its own. -/
inductive Touch (s : Sys) (f : Frame) (mv : Move) (q : Nat) : Prop
  | same (hs : (mv.mem.procs q).state = (s.mem.procs q).state)
      (ha : (mv.mem.procs q).asleep = (s.mem.procs q).asleep) (hsp : mv.spawn ≠ some q)
  | wake (hs : (s.mem.procs q).state = .sleeping) (hs' : (mv.mem.procs q).state = .runnable)
      (ha : (mv.mem.procs q).asleep = none) (ho : mv.op = .acquire (.proc q))
      (hsp : mv.spawn ≠ some q)
  | use {p sn : Nat} {pid : Int} (hf : f = .allocPid p q pid sn)
      (hs' : (mv.mem.procs q).state = .used)
      (ha : (mv.mem.procs q).asleep = (s.mem.procs q).asleep) (hsp : mv.spawn = some q)
  | free (hf : (∃ p pid sn, f = .allocPid p q pid sn) ∨ ∃ p a, f = .waitFound p a q)
      (hs' : (mv.mem.procs q).state = .unused) (ha : (mv.mem.procs q).asleep = none)
      (hsp : mv.spawn ≠ some q)
  | start {p : Nat} (hf : f = .forkRun p q) (hs' : (mv.mem.procs q).state = .runnable)
      (ha : (mv.mem.procs q).asleep = (s.mem.procs q).asleep) (ho : mv.op = .acquire (.proc q))
      (hsp : mv.spawn ≠ some q)

section

variable {m : Mem} {h : Proc → Proc}

@[simp] theorem Mem.upd_self : (m.upd p h).procs p = h (m.procs p) := Function.update_self ..

@[simp] theorem Mem.upd_ne (hq : q ≠ p) : (m.upd p h).procs q = m.procs q :=
  Function.update_of_ne hq ..

/-- A store that keeps the state of the slot and what it sleeps on. -/
theorem Touch.upd (hm : mv.mem.procs = (s.mem.upd i h).procs) (hsp : mv.spawn = none)
    (hh : ∀ P, (h P).state = P.state ∧ (h P).asleep = P.asleep) : Touch s f mv q := by
  have e : (mv.mem.procs q).state = (s.mem.procs q).state ∧
      (mv.mem.procs q).asleep = (s.mem.procs q).asleep := by
    rw [hm]
    by_cases hq : q = i
    · subst hq
      rw [Mem.upd_self]
      exact hh _
    · rw [Mem.upd_ne hq]
      exact ⟨rfl, rfl⟩
  exact .same e.1 e.2 (by rw [hsp]; exact nofun)

/-- A store to another slot. -/
theorem Touch.upd_ne (hm : mv.mem.procs = (s.mem.upd i h).procs) (hq : q ≠ i)
    (hsp : mv.spawn ≠ some q) : Touch s f mv q := by
  have e : mv.mem.procs q = s.mem.procs q := by rw [hm, Mem.upd_ne hq]
  exact .same (by rw [e]) (by rw [e]) hsp

end

/-- A store by a process to its own slot is not for others. -/
theorem Effect.touch {x : Tid} (e : Effect s c f mv) (hf : f.For x) (hq : x ≠ .proc q)
    (hr : f = .scheduler q → q < NPROC → (s.mem.procs q).state ≠ .runnable) : Touch s f mv q := by
  have hne : ∀ p, x = .proc p → q ≠ p := by
    rintro p rfl rfl
    exact hq rfl
  cases e with
  | quiet hm hs _ => exact .same (by rw [hm]) (by rw [hm]) (by rw [hs]; simp)
  | @run i hi hs =>
    have hqi : q ≠ i := by
      rintro rfl
      exact hr rfl hi hs
    exact .upd_ne (h := fun P => { P with state := .running }) rfl hqi (by simp)
  | enter | back | sched | allocFound => exact .same rfl rfl (by simp)
  | yield => exact .upd_ne rfl (hne _ hf) (by simp)
  | sleepRel | sleepSet => exact .upd_ne rfl (hne _ hf.1) (by simp)
  | zombie => exact .upd_ne rfl (hne _ hf) (by simp)
  | sleepEnd | setkilled | forkParent | adopt => exact .upd rfl rfl fun _ => ⟨rfl, rfl⟩
  | @wake ch i hi hc =>
    by_cases hqi : q = i
    · subst hqi
      by_cases hs : (s.mem.procs q).state = .sleeping ∧ (s.mem.procs q).chan = ch
      · exact .wake hs.1 (by simp [Proc.wake, hs]) (by simp [Proc.wake, hs]) rfl (by simp)
      · exact .same (by simp [Proc.wake, hs]) (by simp [Proc.wake, hs]) (by simp)
    · exact .upd_ne rfl hqi (by simp)
  | @kill pid i hi hp =>
    by_cases hqi : q = i
    · subst hqi
      by_cases hs : (s.mem.procs q).state = .sleeping
      · exact .wake hs (by simp [Proc.kill, hs]) (by simp [Proc.kill, hs]) rfl (by simp)
      · exact .same (by simp [Proc.kill, hs]) (by simp [Proc.kill, hs]) (by simp)
    · exact .upd_ne rfl hqi (by simp)
  | @allocPid p' i sn pid =>
    by_cases hqi : q = i
    · subst hqi
      exact .use rfl (by simp) (by simp) rfl
    · exact .upd_ne rfl hqi (by simpa using Ne.symm hqi)
  | @allocFail p' i sn pid =>
    by_cases hqi : q = i
    · subst hqi
      exact .free (.inl ⟨_, _, _, rfl⟩) (by simp [Mem.freeproc]) (by simp [Mem.freeproc]) (by simp)
    · exact .upd_ne rfl hqi (by simp)
  | @forkRun p' np =>
    by_cases hqi : q = np
    · subst hqi
      exact .start rfl (by simp [Mem.setState]) (by simp [Mem.setState]) rfl (by simp)
    · exact .upd_ne (h := fun P => { P with state := .runnable }) rfl hqi (by simp)
  | @reap p' i addr =>
    by_cases hqi : q = i
    · subst hqi
      exact .free (.inr ⟨_, _, rfl⟩) (by simp [Mem.freeproc]) (by simp [Mem.freeproc]) (by simp)
    · exact .upd_ne (h := fun _ => {}) rfl hqi (by simp)

theorem Effect.mem_proc (e : Effect s c f mv) (hf : f.For (.proc p)) :
    mv.mem.proc = s.mem.proc := by
  cases e with
  | quiet hm _ _ => rw [hm]
  | run | enter | back => simp [Frame.For] at hf
  | _ => rfl

theorem Effect.mem_cur (e : Effect s c f mv) (hf : f.For (.proc p)) (hns : ∀ q, f ≠ .sched q) :
    mv.mem.cur = s.mem.cur := by
  cases e with
  | quiet hm _ _ => rw [hm]
  | run | enter | back => simp [Frame.For] at hf
  | sched => exact absurd rfl (hns _)
  | _ => rfl

namespace Inv

/-- A process whose lock is held by a processor that does not have it, and that is not `RUNNING`, is
off every processor. -/
theorem off_of_held (h : Inv s) (hl : s.spin.holder (.proc q) = some c) (hc : s.mem.proc c ≠ some q)
    (hs : (s.mem.procs q).state ≠ .running) :
    (∀ d, s.mem.proc d ≠ some q) ∧ Parked (s.mem.procs q) q (s.stack (.proc q)) := by
  cases h.status q with
  | off hd _ hp => exact ⟨hd, hp⟩
  | entering d hd hcur hst hs' hp' => exact absurd hs' hs
  | on d hd hcur hst hs' ha =>
    rw [hs'] at hs
    have hm := mem_claims_of_left (h.home _) hs
    have := (h.claims d).held (.proc q) (by rw [hcur]; exact hm)
    rw [hl] at this
    cases this
    exact absurd ((hd c).2 rfl) hc
  | back d hd hcur hst hs' hp' =>
    have := (h.claims d).held (.proc q) (by rw [hcur, hst]; simp [Frame.holds])
    rw [hl] at this
    cases this
    exact absurd ((hd c).2 rfl) hc

end Inv

/-- **A process the step is not about** is where it was, or woken, or has been filled, emptied or
started in its slot. -/
theorem Touch.status (t : Touch s f mv q) (h : Inv s) (F : Fired s c [f] rest mv s')
    (hx : s.mem.cur c ≠ .proc q) (hc : s.mem.proc c ≠ some q)
    (hproc : ∀ d, mv.mem.proc d = some q ↔ s.mem.proc d = some q)
    (hcur : ∀ d, d ≠ c → mv.mem.cur d = s.mem.cur d) : Status s' q := by
  have hmem : ∀ g, g ∈ f.holds → s.spin.holder g = some c := fun g hg =>
    (h.claims c).held g (by rw [F.stack_eq]; exact mem_append_left _ hg)
  have hknows : f.Knows s.mem := h.knows _ f (by rw [F.stack_eq]; exact mem_cons_self)
  have hne : Tid.proc q ≠ s.mem.cur c := hx.symm
  have hstq : mv.spawn ≠ some q → s'.stack (.proc q) = s.stack (.proc q) := by
    intro hsp
    refine F.stack_ne hne fun np e e' => ?_
    cases e'
    exact hsp e
  have hoff : (∀ d, s.mem.proc d ≠ some q) → ∀ d, s'.mem.proc d ≠ some q := by
    intro hd d
    rw [F.mem, Ne, hproc]
    exact hd d
  cases t with
  | same hs ha hsp =>
    refine (h.status q).congr (by rw [F.mem, hs]) (by rw [F.mem, ha]) (hstq hsp)
      (fun d => by rw [F.mem, hproc]) fun d hd => ?_
    have hdc : d ≠ c := by
      rintro rfl
      exact hc hd
    refine ⟨by rw [F.mem, hcur d hdc], F.stack_ne (fun e => ?_) fun _ _ => (by simp)⟩
    rcases (h.cpu c).cur with e' | ⟨p, e'⟩ <;> rw [e'] at e <;> cases e
    exact hdc rfl
  | wake hs hs' ha ho hsp =>
    have hstep := F.spin
    rw [ho] at hstep
    obtain ⟨hfree, -⟩ := Spin.step_acquire hstep
    obtain ⟨hd, hk⟩ := h.off_of_free hfree (by rw [hs]; simp)
    refine .off (hoff hd) (by rw [F.mem, hs']; simp) ?_
    unfold Parked at hk ⊢
    rw [hs] at hk
    obtain ⟨ch, k, r, e1, e2, -⟩ := hk
    rw [F.mem, hs', hstq hsp]
    exact ⟨⟨r, .inr (.inl ⟨ch, k, e1⟩)⟩, e2, ha⟩
  | use hf hs' ha hsp =>
    subst hf
    have hun : (s.mem.procs q).state = .unused := hknows _ _ rfl
    obtain ⟨hd, hk⟩ := h.off_of_held (hmem (.proc q) (by simp [Frame.holds])) hc
      (by rw [hun]; simp)
    refine .off (hoff hd) (by rw [F.mem, hs']; simp) ?_
    unfold Parked at hk ⊢
    rw [hun] at hk
    rw [F.mem, hs']
    exact ⟨F.stack_spawn hsp, ha.trans hk.2⟩
  | free hf hs' ha hsp =>
    have hst : (s.mem.procs q).state = .unused ∨ (s.mem.procs q).state = .zombie := by
      rcases hf with ⟨_, _, _, rfl⟩ | ⟨_, _, rfl⟩
      exacts [.inl (hknows _ _ rfl), .inr (hknows _ _ rfl)]
    have hl : s.spin.holder (.proc q) = some c := by
      refine hmem _ ?_
      rcases hf with ⟨_, _, _, rfl⟩ | ⟨_, _, rfl⟩ <;> simp [Frame.holds]
    obtain ⟨hd, hk⟩ := h.off_of_held hl hc (by rcases hst with e | e <;> rw [e] <;> simp)
    refine .off (hoff hd) (by rw [F.mem, hs']; simp) ?_
    unfold Parked at hk ⊢
    rw [F.mem, hs', hstq hsp]
    refine ⟨?_, ha⟩
    rcases hst with e | e <;> rw [e] at hk
    exacts [hk.1, .inr hk.1]
  | start hf hs' ha ho hsp =>
    subst hf
    have hu : (s.mem.procs q).state = .used := hknows _ _ rfl
    have hstep := F.spin
    rw [ho] at hstep
    obtain ⟨hfree, -⟩ := Spin.step_acquire hstep
    obtain ⟨hd, hk⟩ := h.off_of_free hfree (by rw [hu]; simp)
    refine .off (hoff hd) (by rw [F.mem, hs']; simp) ?_
    unfold Parked at hk ⊢
    rw [hu] at hk
    rw [F.mem, hs', hstq hsp, hk.1]
    exact ⟨⟨[], .inr (.inr rfl)⟩, rfl, ha.trans hk.2⟩

end Xv6.Sched
