import Xv6.Proc.OneCpu

/-!
# Proc/Wakeup — no wakeup is lost

A process that calls `sleep(chan, lk)` holds `p->lock` from before it releases `lk` until it has
been switched out, so a `wakeup(chan)` that holds `lk` reaches it when it is asleep, and it cannot
fall asleep behind the scan (`Watch`).  `no_lost_wakeup` says this for every state of every run.
-/

namespace Xv6.Sched

open Option

variable {s s' : Sys} {c d p q i : Nat} {taken rest st r : List Frame} {f g : Frame} {mv : Move}
  {ok : Bool} {ch : Chan} {l : Lk}

/-! ## Scans -/

/-- How far a thread in `wakeup` has come: the channel, and the slots it is done with. -/
def scan : List Frame → Option (Chan × Nat)
  | .wakeup ch i :: _ => some (ch, i)
  | .wakeupHeld ch i :: _ => some (ch, i + 1)
  | _ => none

/-- Only an interrupt comes on top of a scan. -/
def Scans : List Frame → Prop
  | [] => True
  | f :: r => (f = .intr ∨ scan r = none) ∧ Scans r

/-- **A scan leaves no one asleep**: whoever sleeps on its channel with a lock its processor holds
is ahead of it. -/
def Watch (s : Sys) : Prop :=
  ∀ c ch i, scan (s.stack (s.mem.cur c)) = some (ch, i) → ∀ l p, s.spin.holder l = some c →
    (∀ j, l ≠ .proc j) → p < i → s.mem.proc c ≠ some p → (s.mem.procs p).asleep ≠ some (ch, l)

/-- The points that can follow are no scans, or start or continue one. -/
theorem Frame.next_scan (hf : ∀ ch i, f ≠ .wakeup ch i ∧ f ≠ .wakeupHeld ch i) :
    ∀ g ∈ f.next s c, scan [g] = none ∨ ∃ ch, g = .wakeup ch 0 := by
  cases f with
  | relock p k => cases k <;> simp [Frame.next, scan]
  | waitKilledHeld p addr k => cases s.mem.proc c <;> simp [Frame.next, scan]
  | wakeup ch i => exact absurd rfl (hf ch i).1
  | wakeupHeld ch i => exact absurd rfl (hf ch i).2
  | _ => simp [Frame.next, scan]

theorem scan_cons (h : scan [f] = none) : scan (f :: r) = none := by
  cases f <;> first | rfl | cases h

/-- The second of two points is no scan. -/
theorem Frame.move_second (h : f.move s c ok = some mv) {g' : Frame} (e : mv.frames = [g, g']) :
    scan [g'] = none := by
  cases f with
  | forkret | waitKilledHeld =>
    obtain ⟨q, -, rfl⟩ := map_eq_some_iff.1 h
    simp at e
    try split at e <;> cases e
  | relock p k => cases h; cases k <;> cases e
  | killHeld pid i found => cases h; cases found <;> cases e
  | alloc p i =>
    simp only [Frame.move] at h
    split at h <;> cases h <;> simp at e
    split at e <;> cases e
  | waitScan p addr i hk =>
    simp only [Frame.move] at h
    split at h <;> (try split at h) <;> cases h <;> simp at e
    split at e <;> cases e
  | scheduler | sched | wakeup | kill | reparent | allocPid | waitFound =>
    simp only [Frame.move] at h
    split at h <;> (try split at h) <;> cases h <;> cases e <;> rfl
  | _ => cases h <;> cases e <;> rfl

theorem Call.move_scan {f : Call} (h : f.move s c = some mv) :
    mv.frames = [] ∨ ∃ g, mv.frames = [g] ∧ (scan [g] = none ∨ ∃ ch, g = .wakeup ch 0) := by
  obtain ⟨p, e, -⟩ := Call.move_first h
  cases f with
  | acquire | release => exact .inl e
  | wakeup ch => exact .inr ⟨_, e, .inr ⟨ch, rfl⟩⟩
  | _ => exact .inr ⟨_, e, .inl rfl⟩

theorem Fired.scans (F : Fired s c taken rest mv s') (h : Scans (taken ++ rest)) :
    Scans (mv.frames ++ rest) := by
  cases F.fires with
  | interrupt => exact ⟨.inl rfl, h⟩
  | iret => exact h.2
  | code hm =>
    rcases Call.move_scan hm with e | ⟨g, e, -⟩ <;> rw [e]
    exacts [trivial, ⟨.inr rfl, trivial⟩]
  | handler _ hm =>
    rcases Call.move_scan hm with e | ⟨g, e, -⟩ <;> rw [e]
    exacts [h, ⟨.inr rfl, h⟩]
  | @frame f _ _ _ hm =>
    have hr : scan rest = none := by
      rcases h.1 with rfl | e
      · cases hm
      · exact e
    have hs := Frame.move_shape hm
    cases e : mv.frames with
    | nil => exact h.2
    | cons g fs =>
      cases fs with
      | nil => exact ⟨.inr hr, h.2⟩
      | cons g' fs' =>
        rw [e] at hs
        cases hs
        exact ⟨.inr (scan_cons (Frame.move_second hm e)), .inr hr, h.2⟩

/-! ## Who falls asleep -/

/-- A process falls asleep by itself, releasing the lock it passed. -/
theorem Effect.asleep (e : Effect s c f mv) (h : (mv.mem.procs q).asleep = some (ch, l)) :
    (s.mem.procs q).asleep = some (ch, l) ∨ ∃ k, f = .sleepRel q ch k ∧ k.lk = l ∧
    mv.op = .release l := by
  have hupd : ∀ {j : Nat} {g : Proc → Proc}, ((s.mem.upd j g).procs q).asleep = some (ch, l) →
      (∀ P, (g P).asleep = some (ch, l) → P.asleep = some (ch, l)) →
      (s.mem.procs q).asleep = some (ch, l) := by
    intro j g h1 h2
    by_cases hqj : q = j
    · subst hqj
      rw [Mem.upd_self] at h1
      exact h2 _ h1
    · rwa [Mem.upd_ne hqj] at h1
  cases e with
  | quiet hm _ _ => rw [hm] at h; exact .inl h
  | enter | back | sched | allocFound => exact .inl h
  | run | yield | forkRun => exact .inl (hupd (g := fun P => { P with state := _ }) h fun _ e => e)
  | allocFail | reap => exact .inl (hupd (g := fun _ => {}) h fun _ e => nomatch e)
  | @sleepRel p ch' k =>
    dsimp only at h
    by_cases hqp : q = p
    · subst hqp
      rw [Mem.upd_self] at h
      obtain ⟨rfl, rfl⟩ : ch' = ch ∧ k.lk = l := by simpa using h
      exact .inr ⟨k, rfl, rfl, rfl⟩
    · rw [Mem.upd_ne hqp] at h
      exact .inl h
  | wake =>
    refine .inl (hupd h fun P e => ?_)
    unfold Proc.wake at e
    split at e
    · cases e
    · exact e
  | kill =>
    refine .inl (hupd h fun P e => ?_)
    unfold Proc.kill at e
    split at e
    · cases e
    · exact e
  | sleepSet | sleepEnd | setkilled | allocPid | forkParent | adopt | zombie =>
    dsimp only at h
    exact .inl (hupd h fun _ e => e)

theorem Fired.asleep (F : Fired s c taken rest mv s') (h : (s'.mem.procs q).asleep = some (ch, l)) :
    (s.mem.procs q).asleep = some (ch, l) ∨
      ∃ k, taken = [.sleepRel q ch k] ∧ k.lk = l ∧ mv.op = .release l := by
  rw [F.mem] at h
  rcases F.frame_or with ⟨f, ok, rfl, hm⟩ | ⟨e, -⟩
  · refine ((Frame.move_effect hm).asleep h).imp_right fun ⟨k, e1, e2, e3⟩ => ?_
    exact ⟨k, by rw [e1], e2, e3⟩
  · exact .inl (by rwa [e] at h)

/-- A process whose lock is free and that is in `sleep` is `SLEEPING` on its channel. -/
theorem Inv.sleeping_of_free (h : Inv s) (hl : s.spin.holder (.proc p) = none)
    (ha : (s.mem.procs p).asleep = some (ch, l)) :
    (s.mem.procs p).state = .sleeping ∧ (s.mem.procs p).chan = ch := by
  have hpark : Parked (s.mem.procs p) p (s.stack (.proc p)) →
      (s.mem.procs p).state = .sleeping := by
    intro hk
    unfold Parked at hk
    split at hk
    next => rw [hk.2] at ha; cases ha
    next => rw [hk.2] at ha; cases ha
    next => rw [hk.2] at ha; cases ha
    next => rw [hk.2.2] at ha; cases ha
    next => rw [hk.2.2] at ha; cases ha
    next e => exact e
  have hs : (s.mem.procs p).state = .sleeping := by
    cases h.status p with
    | off _ _ hk | entering _ _ _ _ _ hk | back _ _ _ _ _ hk => exact hpark hk
    | on d hd hcur hst hs' ha' =>
      rw [ha] at ha'
      have hm := mem_claims_of_asleep (h.home _) (by rw [← ha']; exact nofun)
      have := (h.claims d).held (.proc p) (by rw [hcur]; exact hm)
      rw [hl] at this
      cases this
  obtain ⟨l', e⟩ := h.chan p hs
  rw [ha] at e
  simp only [Option.some.injEq, Prod.mk.injEq] at e
  exact ⟨hs, e.1.symm⟩

/-! ## Every step -/

/-- The processor that moves: how its scan goes on. -/
theorem Fired.watch_self (F : Fired s c taken rest mv s') (h : Inv s) (hsc : Scans (taken ++ rest))
    (hw : Watch s) {i : Nat} (hs : scan (mv.frames ++ rest) = some (ch, i))
    (hl : s'.spin.holder l = some c) (hlp : ∀ j, l ≠ .proc j) (hp : p < i)
    (hne : s.mem.proc c ≠ some p) (ha : (s'.mem.procs p).asleep = some (ch, l)) : False := by
  have hst := F.stack_eq
  -- what is newly on top is no scan, or one that has just begun
  have hnew : ∀ {g : Frame} {r : List Frame}, scan (g :: r) = some (ch, i) →
      (scan [g] = none ∨ ∃ ch, g = .wakeup ch 0) → False := by
    intro g r e hg
    rcases hg with hg | ⟨ch', rfl⟩
    · rw [scan_cons hg] at e
      cases e
    · cases e
      exact absurd hp (Nat.not_lt_zero p)
  cases F.fires with
  | interrupt => cases hs
  | iret h0 =>
    have e := some.inj F.spin
    rw [← e] at hl
    exact h.counted.zero h0 hl
  | code hm | handler _ hm =>
    rcases Call.move_scan hm with e | ⟨g, e, hg⟩ <;> rw [e] at hs
    · cases hs
    · exact hnew hs hg
  | @frame f _ ok _ hm =>
    have hr : scan rest = none := by
      rcases hsc.1 with rfl | e
      · cases hm
      · exact e
    by_cases hf : ∀ ch i, f ≠ .wakeup ch i ∧ f ≠ .wakeupHeld ch i
    · have hn := Frame.next_scan (s := s) (c := c) hf
      cases e : mv.frames with
      | nil =>
        rw [e, List.nil_append, hr] at hs
        cases hs
      | cons g fs =>
        rw [e] at hs
        exact hnew hs (hn g (Frame.move_next hm (by rw [e]; exact List.mem_cons_self)))
    · -- the scan was on before
      have hold : ∀ {j : Nat}, scan (s.stack (s.mem.cur c)) = some (ch, j) → p < j →
          s.spin.holder l = some c → (s.mem.procs p).asleep = some (ch, l) → False :=
        fun e1 e2 e3 e4 => hw c ch _ e1 l p e3 hlp e2 hne e4
      have hla : ∀ j, s.spin.step c (.acquire (.proc j)) = some s'.spin →
          s.spin.holder l = some c := by
        intro j hstep
        rwa [Spin.step_ne hstep (fun e => hlp j (Spin.Op.acquire.inj e).symm) (by simp)] at hl
      have hlr : ∀ j, s.spin.step c (.release (.proc j)) = some s'.spin →
          s.spin.holder l = some c := by
        intro j hstep
        rwa [Spin.step_ne hstep (by simp) (fun e => hlp j (Spin.Op.release.inj e).symm)] at hl
      have hasl : (s.mem.procs p).asleep = some (ch, l) := by
        rcases F.asleep ha with e | ⟨k, e, -⟩
        · exact e
        · obtain rfl := List.singleton_inj.1 e
          exact absurd (fun _ _ => ⟨(by simp), (by simp)⟩) hf
      cases f with
      | wakeup ch' j =>
        simp only [Frame.move] at hm
        split at hm
        next hj =>
          split at hm
          next hme =>
            cases hm
            cases hs
            -- the slot of the waker itself
            rcases Nat.lt_succ_iff_lt_or_eq.1 hp with hlt | rfl
            · have e := some.inj F.spin
              rw [← e] at hl
              exact hold (by rw [hst]; rfl) hlt hl hasl
            · exact hne hme
          next hme =>
            cases hm
            cases hs
            rcases Nat.lt_succ_iff_lt_or_eq.1 hp with hlt | rfl
            · exact hold (by rw [hst]; rfl) hlt (hla _ F.spin) hasl
            · -- the lock of this slot was free: who slept here is awake now
              obtain ⟨e1, e2⟩ := h.sleeping_of_free (Spin.step_acquire F.spin).1 hasl
              rw [F.mem] at ha
              simp [Proc.wake, e1, e2] at ha
        next =>
          cases hm
          rw [List.nil_append, hr] at hs
          cases hs
      | wakeupHeld ch' j =>
        cases hm
        cases hs
        exact hold (by rw [hst]; rfl) hp (hlr _ F.spin) hasl
      | _ => exact absurd (fun _ _ => ⟨(by simp), (by simp)⟩) hf

/-- A process is resumed outside of scans. -/
theorem Inv.scan_entering (h : Inv s) (hst : s.stack (.cpu c) = .schedulerSwtch p :: r) :
    scan (s.stack (.proc p)) = none := by
  have hp : s.mem.proc c = some p := by
    cases e : s.mem.proc c with
    | none =>
      rcases (h.cpu c).idle e with ⟨i, e'⟩ | ⟨st, i, e', hh⟩ <;> rw [e'] at hst
      · cases hst
      · cases st with
        | nil => cases hst
        | cons f st =>
          obtain rfl : f = .schedulerSwtch p := (List.cons.inj hst).1
          cases hh _ List.mem_cons_self
    | some q => rcases h.cpu_stack e with e' | e' <;> rw [e'] at hst <;> cases hst; rfl
  cases h.status p with
  | off hd _ _ => exact absurd hp (hd c)
  | entering d _ _ _ hs hk =>
    rw [Parked, hs] at hk
    obtain ⟨⟨r', e | ⟨ch, k, e⟩ | e⟩, -, -⟩ := hk <;> rw [e] <;> rfl
  | on d hd _ e _ _ | back d hd _ e _ _ =>
    obtain rfl := (hd c).1 hp
    rw [hst] at e
    cases e

/-- **The threads that are executed** are the same after the step, or a processor has switched to a
point that is no scan. -/
theorem Fired.place (F : Fired s c taken rest mv s') (h : Inv s) :
    (mv.mem.cur = s.mem.cur ∧ mv.mem.proc = s.mem.proc) ∨
      (∀ d, d ≠ c → mv.mem.cur d = s.mem.cur d ∧ mv.mem.proc d = s.mem.proc d) ∧
        scan (s'.stack (s'.mem.cur c)) = none := by
  have hother : ∀ (o : Option Nat) d, d ≠ c → (s.mem.setCpu c o).proc d = s.mem.proc d :=
    fun o d hd => Function.update_of_ne hd ..
  have hcur : ∀ x d, d ≠ c → (s.mem.swtch c x).cur d = s.mem.cur d :=
    fun x d hd => Function.update_of_ne hd ..
  have hself : ∀ x, (s.mem.swtch c x).cur c = x := fun x => Function.update_self ..
  rcases F.frame_or with ⟨f, ok, rfl, hm⟩ | ⟨-, e1, e2, -⟩
  swap
  · exact .inl ⟨e2, e1⟩
  · have hf := F.for_taken h _ List.mem_cons_self
    have hst := F.stack_eq
    cases Frame.move_effect hm with
    | quiet e _ _ => exact .inl (by rw [e]; exact ⟨rfl, rfl⟩)
    | run =>
      refine .inr ⟨fun d hd => ⟨rfl, hother _ d hd⟩, ?_⟩
      rw [F.mem, show (((s.mem.setState _ _).setCpu c _).cur c) = s.mem.cur c from rfl,
        F.stack_cur nofun]
      rfl
    | back =>
      refine .inr ⟨fun d hd => ⟨rfl, hother _ d hd⟩, ?_⟩
      rw [F.mem, show ((s.mem.setCpu c _).cur c) = s.mem.cur c from rfl, F.stack_cur nofun]
      rfl
    | @enter i =>
      have hc : s.mem.cur c = .cpu c := by
        rcases (h.cpu c).cur with e | ⟨q, e⟩
        · exact e
        · obtain ⟨d, hd⟩ := hf
          rw [e] at hd
          cases hd
      refine .inr ⟨fun d hd => ⟨hcur _ d hd, rfl⟩, ?_⟩
      rw [F.mem, hself, F.stack_ne (by rw [hc]; nofun) nofun]
      rw [hc] at hst
      exact h.scan_entering (c := c) (r := rest) hst
    | @sched p =>
      have hc : s.mem.cur c = .proc p := hf
      refine .inr ⟨fun d hd => ⟨hcur _ d hd, rfl⟩, ?_⟩
      rw [F.mem, hself, F.stack_ne (by rw [hc]; nofun) nofun, (h.on_of_cur hc).2.1]
      rfl
    | _ => exact .inl ⟨rfl, rfl⟩

/-- The other processors stay where they are. -/
theorem Fired.others (F : Fired s c taken rest mv s') (h : Inv s) (hd : d ≠ c) :
    s'.mem.cur d = s.mem.cur d ∧ s'.mem.proc d = s.mem.proc d ∧
      s'.stack (s.mem.cur d) = s.stack (s.mem.cur d) := by
  rw [F.mem, F.stack_ne (fun e => hd (h.cur_eq rfl e)) fun np e => h.spawn_off F e d]
  rcases F.place h with ⟨e1, e2⟩ | ⟨e, -⟩
  · rw [e1, e2]
    exact ⟨rfl, rfl, rfl⟩
  · exact ⟨(e d hd).1, (e d hd).2, rfl⟩

/-- What is kept about scans. -/
structure Scanning (s : Sys) : Prop where
  scans : ∀ x, Scans (s.stack x)
  watch : Watch s

/-- **Every step keeps it.** -/
theorem Scanning.step (hw : Scanning s) (h : Inv s) (F : Fired s c taken rest mv s') :
    Scanning s' := by
  have hsc : Scans (taken ++ rest) := F.stack_eq ▸ hw.scans _
  have hstk := F.stack_cur fun np e => h.spawn_off F e c
  refine ⟨h.all_stacks F (F.scans hsc) (fun np => ⟨.inr rfl, trivial⟩) hw.scans,
    fun d ch i hs l p hl hlp hp hne ha => ?_⟩
  by_cases hd : d = c
  · subst hd
    rcases F.place h with ⟨e1, e2⟩ | ⟨-, e⟩
    · rw [F.mem, e1, hstk] at hs
      rw [F.mem, e2] at hne
      exact F.watch_self h hsc hw.watch hs hl hlp hp hne ha
    · rw [e] at hs
      cases hs
  · obtain ⟨h1, h2, hst⟩ := F.others h hd
    rw [h1, hst] at hs
    rw [h2] at hne
    have hl' := (Spin.step_other F.spin hd).1 hl
    rcases F.asleep ha with e | ⟨k, -, -, e⟩
    · exact hw.watch d ch i hs l p hl' hlp hp hne e
    · -- whoever falls asleep held the lock
      have := (Spin.step_release (e ▸ F.spin)).1
      rw [hl'] at this
      exact hd (Option.some.inj this)

theorem Scanning.start : Scanning initSys := by
  refine ⟨fun x => ?_, fun c ch i hs => nomatch hs⟩
  cases x with
  | proc p => by_cases hp : p = 0 <;> simp [initSys, hp, Scans, scan]
  | cpu c => exact ⟨.inr rfl, trivial⟩

/-- **…and so does every run.** -/
theorem system_scanning (h : system.Reach s) : Scanning s := by
  refine h.invariant (I := Scanning) ?_ ?_
  · rintro _ rfl
    exact .start
  · intro s a s' hr h e
    obtain ⟨c, taken, rest, mv, F⟩ := exec_fired e
    exact h.step (system_inv hr) F

/-! ## Wakeups -/

/-- The process is in `sleep(ch, l)` and has released `l`: before it is marked, before it is
switched out, or to be resumed. -/
def InSleep (s : Sys) (p : Nat) (ch : Chan) (l : Lk) : Prop :=
  ∃ k r, Sleeper.lk k = l ∧ (s.stack (.proc p) = .sleepSet p ch k :: r ∨
    s.stack (.proc p) = .sched p :: .sleepEnd p ch k :: r ∨
    s.stack (.proc p) = .sleepEnd p ch k :: r)

/-- What a `wakeup(ch)` by processor `c`, holding the lock `l` that protects `ch`, does for a
process in `sleep(ch, l)`. -/
structure NoLostWakeup (s : Sys) : Prop where
  /-- A process in `sleep` holds its own lock from before it releases `l` until it is switched
  out… -/
  guarded : ∀ p ch k r,
    (s.stack (.proc p) = .sleepRel p ch k :: r ∨ s.stack (.proc p) = .sleepSet p ch k :: r ∨
      s.stack (.proc p) = .sched p :: .sleepEnd p ch k :: r) → ∃ d, s.mem.cur d = .proc p ∧
      s.spin.holder (.proc p) = some d
  /-- …and when its lock is free it is `SLEEPING` on the channel or has been woken. -/
  found : ∀ p ch l, InSleep s p ch l → s.spin.holder (.proc p) = none →
    ((s.mem.procs p).state = .sleeping ∧ (s.mem.procs p).chan = ch) ∨
      (s.mem.procs p).state = .runnable
  /-- The scan waits for the lock of each process, and makes one `RUNNABLE` that sleeps on the
  channel. -/
  wakes : ∀ c ok s' ch p r, s.stack (s.mem.cur c) = .wakeup ch p :: r → p < NPROC →
    s.mem.cur c ≠ .proc p → exec s (.run c ok) = some s' → s.spin.holder (.proc p) = none ∧
      ((s.mem.procs p).state = .sleeping → (s.mem.procs p).chan = ch →
        (s'.mem.procs p).state = .runnable)
  /-- It keeps the lock that protects the channel, and goes on to the end of the table. -/
  keeps : ∀ c ch i l r a s', (∀ j, l ≠ .proc j) → s.spin.holder l = some c →
    (s.stack (s.mem.cur c) = .wakeup ch i :: r ∨ s.stack (s.mem.cur c) = .wakeupHeld ch i :: r) →
    exec s a = some s' → s'.mem.cur c = s.mem.cur c ∧ s'.spin.holder l = some c ∧
      ((∃ j, i ≤ j ∧ (s'.stack (s.mem.cur c) = .wakeup ch j :: r ∨
        s'.stack (s.mem.cur c) = .wakeupHeld ch j :: r)) ∨
        NPROC ≤ i ∧ s'.stack (s.mem.cur c) = r)
  /-- No process it has gone past is `SLEEPING` on the channel, or going to be. -/
  passed : ∀ c ch i l p, (∀ j, l ≠ .proc j) → s.spin.holder l = some c →
    scan (s.stack (s.mem.cur c)) = some (ch, i) → p < i → InSleep s p ch l →
      (s.mem.procs p).state ≠ .sleeping ∧ ∃ k r, s.stack (.proc p) = .sleepEnd p ch k :: r
  /-- …so that it ends with none asleep. -/
  completes : ∀ c ok s' ch i l r, (∀ j, l ≠ .proc j) → s.spin.holder l = some c →
    s.stack (s.mem.cur c) = .wakeup ch i :: r → NPROC ≤ i → exec s (.run c ok) = some s' →
      ∀ p < NPROC, InSleep s' p ch l → (s'.mem.procs p).state ≠ .sleeping

/-- The points at which a thread that is not executed can be. -/
theorem Parked.top {P : Proc} (h : Parked P p (f :: r)) : f = .exitEnd p ∨ f = .yieldEnd p ∨
    (∃ ch k, f = .sleepEnd p ch k) ∨ f = .forkret p := by
  have hres : Resumes p (f :: r) → f = .exitEnd p ∨ f = .yieldEnd p ∨
      (∃ ch k, f = .sleepEnd p ch k) ∨ f = .forkret p := by
    rintro ⟨r', e | ⟨ch, k, e⟩ | e⟩ <;> obtain rfl := (List.cons.inj e).1 <;> simp
  unfold Parked at h
  split at h
  next =>
    rcases h.1 with e | e <;> cases e
    exact .inl rfl
  next => cases h.1; simp
  next => cases h.1; simp
  next => exact hres h.1
  next => exact hres h.1
  next =>
    obtain ⟨ch, k, r', e, -⟩ := h
    exact hres ⟨r', .inr (.inl ⟨ch, k, e⟩)⟩

namespace Inv

section

variable (h : Inv s)

include h

/-- A thread at any other point is executed. -/
theorem cur_of_top (hst : s.stack (.proc p) = f :: r) (h1 : f ≠ .exitEnd p)
    (h2 : f ≠ .yieldEnd p) (h3 : ∀ ch k, f ≠ .sleepEnd p ch k) (h4 : f ≠ .forkret p) :
    ∃ d, s.mem.cur d = .proc p := by
  by_contra hd
  have hp := h.parked (p := p) fun d e => hd ⟨d, e⟩
  rw [hst] at hp
  rcases hp.top with e | e | ⟨ch, k, e⟩ | e
  exacts [h1 e, h2 e, h3 ch k e, h4 e]

/-- A thread in `wakeup` on a processor that has a process is that of the process. -/
theorem cur_of_scan (hs : scan (s.stack (s.mem.cur c)) ≠ none) (hp : s.mem.proc c = some p) :
    s.mem.cur c = .proc p := by
  rcases (h.cpu c).cur with e | ⟨q, e⟩
  · rw [e] at hs
    rcases h.cpu_stack hp with e' | e' <;> rw [e'] at hs <;> exact absurd rfl hs
  · obtain rfl := some.inj (hp.symm.trans ((h.cpu c).proc q e))
    exact e

theorem sleep_guarded {k : Sleeper} (hst : s.stack (.proc p) = .sleepRel p ch k :: r ∨
    s.stack (.proc p) = .sleepSet p ch k :: r ∨ s.stack (.proc p) = .sched p :: .sleepEnd p ch k ::
    r) : ∃ d, s.mem.cur d = .proc p ∧ s.spin.holder (.proc p) = some d := by
  obtain ⟨d, hd⟩ : ∃ d, s.mem.cur d = .proc p := by
    rcases hst with e | e | e <;> exact h.cur_of_top e nofun nofun nofun nofun
  refine ⟨d, hd, (h.claims d).held _ ?_⟩
  rcases hst with e | e | e <;> rw [hd, e] <;> simp [Frame.holds]

theorem sleep_found (hp : InSleep s p ch l) (hl : s.spin.holder (.proc p) = none) :
    ((s.mem.procs p).state = .sleeping ∧ (s.mem.procs p).chan = ch) ∨
      (s.mem.procs p).state = .runnable := by
  obtain ⟨k, r, -, e⟩ := hp
  have hst : s.stack (.proc p) = .sleepEnd p ch k :: r := by
    rcases e with e | e | e
    · obtain ⟨d, -, e'⟩ := h.sleep_guarded (.inr (.inl e))
      rw [hl] at e'
      cases e'
    · obtain ⟨d, -, e'⟩ := h.sleep_guarded (.inr (.inr e))
      rw [hl] at e'
      cases e'
    · exact e
  have hheld : ∀ d, Lk.proc p ∈ Sched.claims (s.stack (s.mem.cur d)) → False := by
    intro d hd
    have e := (h.claims d).held _ hd
    rw [hl] at e
    cases e
  cases h.status p with
  | off hd hs hk =>
    rw [hst] at hk
    cases e : (s.mem.procs p).state with
    | running => exact absurd e hs
    | runnable => exact .inr rfl
    | sleeping =>
      refine .inl ⟨rfl, ?_⟩
      rw [Parked, e] at hk
      obtain ⟨ch', k', r', e', -, ha⟩ := hk
      obtain ⟨l', hc⟩ := h.chan p e
      cases e'
      rw [ha] at hc
      simp only [Option.some.injEq, Prod.mk.injEq] at hc
      exact hc.1.symm
    | unused =>
      rw [Parked, e] at hk
      rcases hk.1 with e | e <;> cases e
    | used | zombie =>
      rw [Parked, e] at hk
      cases hk.1
  | entering d _ hc e _ _ => exact (hheld d (by rw [hc, e]; simp [Frame.holds])).elim
  | on d _ hc _ _ _ => exact (hheld d (by rw [hc, hst]; simp [Frame.holds])).elim
  | back d _ hc e _ _ => exact (hheld d (by rw [hc, e]; simp [Frame.holds])).elim

/-- A process in `sleep` is asleep, or it has been woken and is to be resumed. -/
theorem sleep_asleep (hp : InSleep s p ch l) (ha : (s.mem.procs p).asleep ≠ some (ch, l)) :
    (s.mem.procs p).state ≠ .sleeping ∧ ∃ k r, s.stack (.proc p) = .sleepEnd p ch k :: r := by
  obtain ⟨k, r, rfl, e⟩ := hp
  have hon : ∀ {st : List Frame}, s.stack (.proc p) = st → (∃ d, s.mem.cur d = .proc p) →
      leftAsleep st = some (ch, k.lk) → False := by
    rintro st rfl ⟨d, hd⟩ e
    exact ha ((h.on_of_cur hd).2.2.2.trans e)
  rcases e with e | e | e
  · exact (hon e (h.cur_of_top e nofun nofun nofun nofun) rfl).elim
  · exact (hon e (h.cur_of_top e nofun nofun nofun nofun) rfl).elim
  · refine ⟨fun hs => ?_, k, r, e⟩
    by_cases hd : ∃ d, s.mem.cur d = .proc p
    · obtain ⟨d, hd⟩ := hd
      have := (h.on_of_cur hd).2.2.1
      rw [hs, e] at this
      cases this
    · have hk := h.parked (p := p) fun d e => hd ⟨d, e⟩
      rw [Parked, hs, e] at hk
      obtain ⟨ch', k', r', e', -, ha'⟩ := hk
      cases e'
      exact ha ha'

theorem wakeup_passed (hw : Scanning s) (hlp : ∀ j, l ≠ .proc j)
    (hl : s.spin.holder l = some c) (hs : scan (s.stack (s.mem.cur c)) = some (ch, i)) (hp : p < i)
    (hin : InSleep s p ch l) :
    (s.mem.procs p).state ≠ .sleeping ∧ ∃ k r, s.stack (.proc p) = .sleepEnd p ch k :: r := by
  have hne : s.mem.proc c ≠ some p := by
    intro e
    have hc := h.cur_of_scan (by rw [hs]; nofun) e
    rw [hc] at hs
    obtain ⟨k, r, -, e' | e' | e'⟩ := hin <;> rw [e'] at hs <;> cases hs
  exact h.sleep_asleep hin (hw.watch c ch i hs l p hl hlp hp hne)

theorem wakeup_wakes (hst : s.stack (s.mem.cur c) = .wakeup ch p :: r) (hp : p < NPROC)
    (hc : s.mem.cur c ≠ .proc p) (e : exec s (.run c ok) = some s') :
    s.spin.holder (.proc p) = none ∧ ((s.mem.procs p).state = .sleeping →
      (s.mem.procs p).chan = ch → (s'.mem.procs p).state = .runnable) := by
  have hme : s.mem.proc c ≠ some p := fun e => hc (h.cur_of_scan (by rw [hst]; nofun) e)
  simp only [exec, hst, Frame.move, if_pos hp, if_neg hme, bind_some] at e
  obtain ⟨k, hk, rfl⟩ := map_eq_some_iff.1 e
  refine ⟨(Spin.step_acquire hk).1, fun h1 h2 => ?_⟩
  simp [Proc.wake, h1, h2]

theorem wakeup_keeps (F : Fired s d taken rest mv s') (hlp : ∀ j, l ≠ .proc j)
    (hl : s.spin.holder l = some c)
    (hst : s.stack (s.mem.cur c) = .wakeup ch i :: r ∨
      s.stack (s.mem.cur c) = .wakeupHeld ch i :: r) :
    s'.mem.cur c = s.mem.cur c ∧ s'.spin.holder l = some c ∧
      ((∃ j, i ≤ j ∧ (s'.stack (s.mem.cur c) = .wakeup ch j :: r ∨
        s'.stack (s.mem.cur c) = .wakeupHeld ch j :: r)) ∨
        NPROC ≤ i ∧ s'.stack (s.mem.cur c) = r) := by
  by_cases hd : d = c
  · subst hd
    have hstk := F.stack_cur fun np e => h.spawn_off F e d
    have hst' := F.stack_eq
    cases F.fires with
    | code | handler | iret => rcases hst with e | e <;> rw [e] at hst' <;> cases hst'
    | interrupt h0 => exact absurd hl (h.counted.zero h0)
    | frame hm =>
      rcases hst with e | e <;> rw [e] at hst' <;> cases hst'
      · simp only [Frame.move] at hm
        split at hm
        next hi =>
          split at hm
          next =>
            cases hm
            refine ⟨by rw [F.mem], by rw [← some.inj F.spin]; exact hl, .inl ?_⟩
            exact ⟨i + 1, Nat.le_succ i, .inl hstk⟩
          next =>
            cases hm
            refine ⟨by rw [F.mem]; rfl, ?_, .inl ⟨i, le_rfl, .inr hstk⟩⟩
            rw [Spin.step_ne F.spin (fun e => hlp i (Spin.Op.acquire.inj e).symm) (by simp), hl]
        next hi =>
          cases hm
          refine ⟨by rw [F.mem], by rw [← some.inj F.spin]; exact hl, .inr ?_⟩
          exact ⟨Nat.le_of_not_lt hi, hstk⟩
      · cases hm
        refine ⟨by rw [F.mem], ?_, .inl ⟨i + 1, Nat.le_succ i, .inl hstk⟩⟩
        rw [Spin.step_ne F.spin (by simp) (fun e => hlp i (Spin.Op.release.inj e).symm), hl]
  · obtain ⟨h1, -, hst'⟩ := F.others h (Ne.symm hd)
    exact ⟨h1, (Spin.step_other F.spin (Ne.symm hd)).2 hl, .inl ⟨i, le_rfl, hst' ▸ hst⟩⟩

theorem wakeup_completes (hw : Scanning s) (hlp : ∀ j, l ≠ .proc j)
    (hl : s.spin.holder l = some c) (hst : s.stack (s.mem.cur c) = .wakeup ch i :: r)
    (hi : NPROC ≤ i) (e : exec s (.run c ok) = some s') (hp : p < NPROC) (hin : InSleep s' p ch l) :
    (s'.mem.procs p).state ≠ .sleeping := by
  simp only [exec, hst, Frame.move, if_neg (Nat.not_lt.2 hi), bind_some] at e
  obtain ⟨k, -, rfl⟩ := map_eq_some_iff.1 e
  have hs : scan (s.stack (s.mem.cur c)) = some (ch, i) := by rw [hst]; rfl
  by_cases hc : s.mem.cur c = .proc p
  · -- the process that calls `wakeup`
    have := (h.on_of_cur hc).2.2.1
    rw [← hc, hst] at this
    exact fun e => absurd (this.symm.trans e) (by rintro ⟨⟩)
  · refine (h.wakeup_passed hw hlp hl hs (hp.trans_le hi) ?_).1
    obtain ⟨k', r', hk, e⟩ := hin
    exact ⟨k', r', hk, by simpa [Move.spawned, Function.update_of_ne (Ne.symm hc)] using e⟩

end

end Inv

/-- **No wakeup is lost**, in any run. -/
theorem no_lost_wakeup (h : system.Reach s) : NoLostWakeup s := by
  have hi := system_inv h
  have hw := system_scanning h
  exact {
    guarded p ch k r := hi.sleep_guarded
    found p ch l := hi.sleep_found
    wakes c ok s' ch p r := hi.wakeup_wakes
    keeps c ch i l r a s' h1 h2 h3 e := by
      obtain ⟨d, taken, rest, mv, F⟩ := exec_fired e
      exact hi.wakeup_keeps F h1 h2 h3
    passed c ch i l p := hi.wakeup_passed hw
    completes c ok s' ch i l r h1 h2 h3 h4 e p := hi.wakeup_completes hw h1 h2 h3 h4 e }

/-- …for instance when the first process sleeps and an interrupt handler on another processor, with
the lock that protects the channel, is about to wake it. -/
theorem no_lost_wakeup_first : ∃ s, system.Reach s ∧ (s.mem.procs 0).state = .sleeping ∧
    s.spin.holder (.obj 5) = some 2 ∧ scan (s.stack (s.mem.cur 2)) = some (.obj 3, 0) ∧
    NoLostWakeup s := by
  have h : system.Reach initSys := .init rfl
  have hs := h.play (fun _ _ _ e => e) (l := [.run 1 true, .run 1 true, .run 1 true,
    .call 1 (.acquire 5), .call 1 (.sleep (.obj 3) 5), .run 1 true, .run 1 true, .run 1 true,
    .run 1 true, .run 1 true, .interrupt 2, .call 2 (.acquire 5), .call 2 (.wakeup (.obj 3))]) rfl
  exact ⟨_, hs, rfl, rfl, rfl, no_lost_wakeup hs⟩

end Xv6.Sched
