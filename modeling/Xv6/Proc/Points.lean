import Xv6.Proc.Keep

/-!
# Proc/Points — what program points know while others move

The state a process leaves itself in (`Fired.left`), what a point of `fork` or `wait` knows about
the slot it works on (`Inv.slot_stays`), and what a sleeping process sleeps on (`Effect.chan`).
-/

namespace Xv6.Sched

open List

variable {s s' : Sys} {c d p q i : Nat} {taken rest st r : List Frame} {f g : Frame}
  {mv : Move} {ok : Bool}

/-! ## The process that moves -/

/-- **The state a process leaves itself in**, unless it gives up the processor. -/
theorem Fired.left (F : Fired s c taken rest mv s') (h : Inv s) (hc : s.mem.cur c = .proc p)
    (hns : ∀ q, taken ≠ [.sched q]) :
    (mv.mem.procs p).state = leftState (mv.frames ++ rest) ∧
      (mv.mem.procs p).asleep = leftAsleep (mv.frames ++ rest) := by
  obtain ⟨-, -, hs, ha⟩ := h.on_of_cur hc
  have hst := F.stack_eq
  have hcalm := F.calm h
  have hfor := F.for_taken h
  have hk : ∀ f ∈ taken, f.Knows s.mem := fun f hf =>
    h.knows _ f (by rw [F.stack_eq]; exact mem_append_left _ hf)
  rw [hc] at hst hfor
  rw [hst] at hs ha
  cases F.fires with
  | code hm | handler _ hm =>
    have e : mv.mem.procs = s.mem.procs := by
      rcases (Call.move_mem hm).2 with e | ⟨_, _, -, -, -, -, e⟩ <;> rw [e]
    have hcalm' := Call.move_calm hm hcalm
    rw [e, hcalm'.1, hcalm'.2]
    exact ⟨hs, ha⟩
  | interrupt => exact ⟨hs.trans hcalm.1, ha.trans hcalm.2⟩
  | iret => exact ⟨hs.trans hcalm.1.symm, ha.trans hcalm.2.symm⟩
  | @frame f _ ok _ hm =>
    have hff := hfor f mem_cons_self
    have hkf := hk f mem_cons_self
    -- a store to a slot in another state is not to this one
    have hother : ∀ {i : Nat} {x : PState}, (s.mem.procs i).state = x → (s.mem.procs p).state =
        .running → x ≠ .running → p ≠ i := by
      rintro i x rfl e hx rfl
      exact hx e
    cases Frame.move_effect hm with
    | quiet hm' _ hl =>
      rw [hm', (hl rest hcalm).1, (hl rest hcalm).2]
      exact ⟨hs, ha⟩
    | run | enter | back => simp [Frame.For] at hff
    | sched => exact absurd rfl (hns _)
    | yield =>
      cases hff
      simp only [Mem.setState, Mem.upd_self]
      exact ⟨rfl, ha⟩
    | sleepRel =>
      cases hff.1
      simp only [Mem.upd_self]
      exact ⟨hs, rfl⟩
    | sleepSet =>
      cases hff.1
      simp only [Mem.upd_self]
      exact ⟨rfl, ha⟩
    | sleepEnd =>
      cases hff.1
      simp only [Mem.upd_self]
      exact ⟨hs, ha⟩
    | @wake _ i hi hne =>
      have hpi : p ≠ i := by
        rintro rfl
        exact hne ((h.cpu c).proc p hc)
      simp only [Mem.upd_ne hpi]
      exact ⟨hs, ha⟩
    | @kill _ i hi _ =>
      by_cases hpi : p = i
      · subst hpi
        have hrun : (s.mem.procs p).state ≠ .sleeping := by rw [hs]; rintro ⟨⟩
        simp only [Mem.upd_self, Proc.kill, if_neg hrun]
        exact ⟨hs, ha⟩
      · simp only [Mem.upd_ne hpi]
        exact ⟨hs, ha⟩
    | @setkilled i | @adopt _ i =>
      by_cases hpi : p = i
      · subst hpi
        simp only [Mem.upd_self]
        exact ⟨hs, ha⟩
      · simp only [Mem.upd_ne hpi]
        exact ⟨hs, ha⟩
    | allocFound => exact ⟨hs, ha⟩
    | allocPid | forkParent =>
      simp only [Mem.upd_ne (hother (hkf _ _ rfl) hs (by simp))]
      exact ⟨hs, ha⟩
    | allocFail | reap =>
      simp only [Mem.freeproc, Mem.upd_ne (hother (hkf _ _ rfl) hs (by simp))]
      exact ⟨hs, ha⟩
    | forkRun =>
      simp only [Mem.setState, Mem.upd_ne (hother (hkf _ _ rfl) hs (by simp))]
      exact ⟨hs, ha⟩
    | zombie =>
      cases hff
      simp only [Mem.upd_self]
      exact ⟨rfl, ha⟩

/-! ## What program points know -/

/-- A point that knows its slot to be `UNUSED` or `ZOMBIE` holds the lock of it. -/
theorem Frame.slot_holds {x : PState} (h : f.slot = some (i, x)) (hx : x ≠ .used) :
    Lk.proc i ∈ f.holds := by
  cases f <;> simp [Frame.slot] at h <;> obtain ⟨rfl, rfl⟩ := h <;> simp [Frame.holds] at hx ⊢

theorem Frame.slot_state {x : PState} (h : f.slot = some (i, x)) :
    x = .unused ∨ x = .used ∨ x = .zombie := by
  cases f <;> simp [Frame.slot] at h <;> obtain ⟨rfl, rfl⟩ := h <;> simp

theorem Frame.slot_base {x : PState} (h : f.slot = some (i, x)) : f.base = true := by
  cases f <;> simp [Frame.slot] at h <;> rfl

theorem Frame.slot_owner {x : PState} (h : f.slot = some (i, x)) (hx : x ≠ .zombie) :
    f.owner = some i := by
  cases f <;> simp [Frame.slot] at h <;> obtain ⟨rfl, rfl⟩ := h <;> simp [Frame.owner] at hx ⊢

theorem Frame.owner_slot (h : f.owner = some i) : ∃ x, f.slot = some (i, x) ∧ x ≠ .zombie := by
  cases f <;> simp [Frame.owner] at h <;> subst h <;> simp [Frame.slot]

/-- Only processes work on slots. -/
theorem Frame.slot_for {x : PState} {t : Tid} (h : f.slot = some (i, x)) (hf : f.For t) :
    ∃ p, t = .proc p := by
  cases f <;> simp [Frame.slot] at h <;> exact ⟨_, hf⟩

namespace Inv

/-- …and is executed. -/
theorem cur_of_slot (h : Inv s) {y : Tid} {x : PState} (hg : g ∈ s.stack y)
    (hi : g.slot = some (i, x)) (hx : x ≠ .used) :
    ∃ d, s.mem.cur d = y ∧ s.spin.holder (.proc i) = some d := by
  have hl := Frame.slot_holds hi hx
  have hm : Lk.proc i ∈ Sched.claims (s.stack y) := mem_flatMap.2 ⟨g, hg, hl⟩
  suffices hcur : ∃ d, s.mem.cur d = y by
    obtain ⟨d, rfl⟩ := hcur
    exact ⟨d, rfl, (h.claims d).held _ hm⟩
  obtain ⟨q, rfl⟩ := Frame.slot_for hi (h.home y g hg)
  by_contra hn
  have hk := h.parked (p := q) fun d hd => hn ⟨d, hd⟩
  have hknows := h.knows _ g hg i x hi
  -- a parked thread claims its own lock only, and its process is not in such a state
  unfold Parked at hk
  split at hk
  next =>
    rcases hk.1 with e | e <;> rw [e] at hg <;> simp at hg
    subst hg
    cases hi
  next => rw [hk.1] at hg; simp at hg; subst hg; cases hi
  next => rw [hk.1] at hg; simp at hg; subst hg; cases hi
  next e =>
    rw [hk.2.1] at hm
    simp at hm
    subst hm
    rw [hknows] at e
    rcases Frame.slot_state hi with rfl | rfl | rfl <;> cases e
  next e =>
    rw [hk.2.1] at hm
    simp at hm
    subst hm
    rw [hknows] at e
    rcases Frame.slot_state hi with rfl | rfl | rfl <;> cases e
  next e =>
    obtain ⟨_, _, _, -, e', -⟩ := hk
    rw [e'] at hm
    simp at hm
    subst hm
    rw [hknows] at e
    rcases Frame.slot_state hi with rfl | rfl | rfl <;> cases e

/-- Two points do not hold one slot. -/
theorem slot_unique (h : Inv s) {y : Tid} {x x' : PState} (hst : s.stack (s.mem.cur c) = f :: rest)
    (hg : g ∈ s.stack y) (hi : g.slot = some (i, x)) (hx : x ≠ .used) (hf : f.slot = some (i, x'))
    (hx' : x' ≠ .used) (hy : y = s.mem.cur c → g ∈ rest) : False := by
  obtain ⟨d, hd, hl⟩ := h.cur_of_slot hg hi hx
  have hl' := (h.claims c).held (.proc i) (by
    rw [hst, claims_cons]
    exact mem_append_left _ (Frame.slot_holds hf hx'))
  obtain rfl := Option.some.inj (hl.symm.trans hl')
  have hb := h.based (s.mem.cur d)
  rw [hst] at hb
  have hgr := hy hd.symm
  rw [hb.1 (Frame.slot_base hf)] at hgr
  cases hgr

/-- **What a point knows stays so** while others move. -/
theorem slot_stays (h : Inv s) (F : Fired s c [f] rest mv s') (e : Effect s c f mv) {y : Tid}
    {x : PState} (hg : g ∈ s.stack y) (hy : y = s.mem.cur c → g ∈ rest)
    (hi : g.slot = some (i, x)) : (mv.mem.procs i).state = x := by
  have hst : s.stack (s.mem.cur c) = f :: rest := F.stack_eq
  have hff := F.for_taken h f mem_cons_self
  have hkf : f.Knows s.mem := h.knows _ f (by rw [hst]; exact mem_cons_self)
  have hkg : (s.mem.procs i).state = x := h.knows _ g hg i x hi
  have hxs := Frame.slot_state hi
  by_cases hci : s.mem.cur c = .proc i
  · -- the slot of the process that moves: it is a zombie, and holds its own lock
    exfalso
    obtain ⟨-, -, hs, -⟩ := h.on_of_cur hci
    have hst' := hst
    rw [hci] at hst'
    have hb := h.based (.proc i)
    have hleft : leftState (s.stack (.proc i)) = x := hs.symm.trans hkg
    have hne : leftState (s.stack (.proc i)) ≠ .running := by
      rw [hleft]
      rcases hxs with rfl | rfl | rfl <;> exact nofun
    have hl := (h.claims c).held (.proc i) (by rw [hci]; exact mem_claims_of_left (h.home _) hne)
    rw [hst'] at hleft hb
    have hz : x = .zombie ∧ ∀ k ∈ rest, k.slot = none := by
      unfold leftState at hleft
      split at hleft
      · rcases hxs with rfl | rfl | rfl <;> cases hleft
      · rcases hxs with rfl | rfl | rfl <;> cases hleft
      next q r e' =>
        cases e'
        refine ⟨hleft.symm, fun k hk => ?_⟩
        rw [hb.2.1 rfl] at hk
        simp at hk
        subst hk
        rfl
      next q r e' =>
        cases e'
        refine ⟨hleft.symm, fun k hk => ?_⟩
        rw [hb.1 rfl] at hk
        cases hk
      · rcases hxs with rfl | rfl | rfl <;> cases hleft
    obtain ⟨rfl, hnone⟩ := hz
    obtain ⟨d, hd, hl'⟩ := h.cur_of_slot hg hi nofun
    obtain rfl := Option.some.inj (hl.symm.trans hl')
    have := hnone g (hy hd.symm)
    rw [hi] at this
    cases this
  · have hr : f = .scheduler i → i < NPROC → (s.mem.procs i).state ≠ .runnable := by
      rintro - -
      rw [hkg]
      rcases hxs with rfl | rfl | rfl <;> exact nofun
    cases e.touch hff hci hr with
    | same hs _ _ => rw [hs, hkg]
    | wake hs _ _ _ _ =>
      rw [hkg] at hs
      rcases hxs with rfl | rfl | rfl <;> cases hs
    | use hf _ _ _ =>
      subst hf
      have hun : (s.mem.procs i).state = .unused := hkf _ _ rfl
      rw [hkg] at hun
      subst hun
      exact (h.slot_unique hst hg hi nofun rfl nofun hy).elim
    | free hf _ _ _ =>
      rcases hf with ⟨_, _, _, rfl⟩ | ⟨_, _, rfl⟩
      · have hun : (s.mem.procs i).state = .unused := hkf _ _ rfl
        rw [hkg] at hun
        subst hun
        exact (h.slot_unique hst hg hi nofun rfl nofun hy).elim
      · have hz : (s.mem.procs i).state = .zombie := hkf _ _ rfl
        rw [hkg] at hz
        subst hz
        exact (h.slot_unique hst hg hi nofun rfl nofun hy).elim
    | start hf _ _ _ _ =>
      subst hf
      have hu : (s.mem.procs i).state = .used := hkf _ _ rfl
      rw [hkg] at hu
      subst hu
      have hyx := h.owner _ _ _ _ i hg (by rw [hst]; exact mem_cons_self)
        (Frame.slot_owner hi nofun) rfl
      have hb := h.based (s.mem.cur c)
      rw [hst] at hb
      have hgr := hy hyx
      rw [hb.1 rfl] at hgr
      cases hgr

end Inv

/-- Most points do not lead to one that works on a slot. -/
theorem Frame.next_slot (h : f.slot = none ∨ ∃ p a j, f = .waitFound p a j ∨ f = .forkRun p j)
    (h1 : ∀ p i, f ≠ .alloc p i) (h2 : ∀ p a i k, f ≠ .waitScan p a i k) :
    ∀ g ∈ f.next s c, g.slot = none := by
  cases f with
  | relock p k => cases k <;> simp [Frame.next, Frame.slot]
  | waitKilledHeld p addr k => cases s.mem.proc c <;> simp [Frame.next, Frame.slot]
  | alloc p i => exact absurd rfl (h1 p i)
  | waitScan p a i k => exact absurd rfl (h2 p a i k)
  | _ => simp [Frame.next, Frame.slot] at h ⊢

/-- A move knows the slot it works on. -/
theorem Frame.move_knows (h : f.move s c ok = some mv) (hk : f.Knows s.mem) (hg : g ∈ mv.frames) :
    g.Knows mv.mem := by
  intro i x hi
  have hn := Frame.move_next h hg
  cases f with
  | alloc p j =>
    simp only [Frame.move] at h
    split at h <;> cases h
    · simp only at hg
      split at hg <;> obtain rfl := mem_singleton.1 hg <;> cases hi
      assumption
    · cases hg
  | waitScan p addr j hkids =>
    simp only [Frame.move] at h
    split at h
    · split at h <;> cases h
      · simp only at hg
        split at hg <;> obtain rfl := mem_singleton.1 hg <;> cases hi
        assumption
      · obtain rfl := mem_singleton.1 hg
        cases hi
    · cases h
      cases hkids <;> simp at hg <;> subst hg <;> cases hi
  | allocFound | forkRel | forkParentHeld =>
    cases h
    obtain rfl := mem_singleton.1 hg
    cases hi
    exact hk _ _ rfl
  | forkParent p j =>
    cases h
    obtain rfl := mem_singleton.1 hg
    cases hi
    simpa using hk _ _ rfl
  | allocPid p j pid sn =>
    simp only [Frame.move] at h
    split at h <;> cases h <;> obtain rfl := mem_singleton.1 hg <;> cases hi
    simp
  | _ =>
    -- no other point leads to one that works on a slot
    exact absurd hi (by rw [Frame.next_slot (by simp [Frame.slot]) (by simp) (by simp) g hn]; simp)

theorem Call.move_slot {f : Call} (h : f.move s c = some mv) (hg : g ∈ mv.frames) :
    g.slot = none := by
  obtain ⟨p, e, -⟩ := Call.move_first h
  rw [e] at hg
  cases f with
  | acquire | release => cases hg
  | _ => obtain rfl := mem_singleton.1 hg; rfl

/-- A point that owns a slot has it from the point before it… -/
theorem Frame.next_owner (hf : ∀ p i, f ≠ .alloc p i) :
    ∀ g ∈ f.next s c, g.owner = some i → f.owner = some i := by
  cases f with
  | relock p k => cases k <;> simp [Frame.next, Frame.owner]
  | waitKilledHeld p addr k => cases s.mem.proc c <;> simp [Frame.next, Frame.owner]
  | alloc p i => exact absurd rfl (hf p i)
  | _ => simp [Frame.next, Frame.owner]

/-- …or has just found it. -/
theorem Frame.move_owner (h : f.move s c ok = some mv) (hg : g ∈ mv.frames)
    (hi : g.owner = some i) : f.owner = some i ∨ mv.op = .acquire (.proc i) ∧
    (s.mem.procs i).state = .unused := by
  by_cases hf : ∃ p j, f = .alloc p j
  · obtain ⟨p, j, rfl⟩ := hf
    simp only [Frame.move] at h
    split at h <;> cases h
    · simp only at hg
      split at hg <;> obtain rfl := mem_singleton.1 hg <;> cases hi
      exact .inr ⟨rfl, by assumption⟩
    · cases hg
  · exact .inl (Frame.next_owner (fun p j e => hf ⟨p, j, e⟩) g (Frame.move_next h hg) hi)

/-! ## What is asleep -/

/-- A process asleep sleeps on its channel. -/
theorem Effect.chan (e : Effect s c f mv) {x : Tid} (hf : f.For x)
    (hrun : ∀ p, x = .proc p → (s.mem.procs p).state = leftState (f :: r) ∧
      (s.mem.procs p).asleep = leftAsleep (f :: r))
    (h : ∀ q, (s.mem.procs q).state = .sleeping →
      ∃ l, (s.mem.procs q).asleep = some ((s.mem.procs q).chan, l))
    (hq : (mv.mem.procs q).state = .sleeping) :
    ∃ l, (mv.mem.procs q).asleep = some ((mv.mem.procs q).chan, l) := by
  -- a store to another slot, or one that keeps what matters
  have hupd : ∀ {j : Nat} {g : Proc → Proc}, ((s.mem.upd j g).procs q).state = .sleeping →
      ((g (s.mem.procs j)).state = .sleeping →
        ∃ l, (g (s.mem.procs j)).asleep = some ((g (s.mem.procs j)).chan, l)) →
      ∃ l, ((s.mem.upd j g).procs q).asleep = some (((s.mem.upd j g).procs q).chan, l) := by
    intro j g hs hg
    by_cases hqj : q = j
    · subst hqj
      rw [Mem.upd_self] at hs ⊢
      exact hg hs
    · rw [Mem.upd_ne hqj] at hs ⊢
      exact h q hs
  cases e with
  | quiet hm _ _ =>
    rw [hm] at hq ⊢
    exact h q hq
  | enter | back | sched | allocFound => exact h q hq
  | run => exact hupd (g := fun P => { P with state := .running }) hq (by simp)
  | yield | forkRun => exact hupd (g := fun P => { P with state := .runnable }) hq (by simp)
  | allocFail | reap => exact hupd (g := fun _ => {}) hq (by simp)
  | sleepRel | sleepEnd =>
    dsimp only at hq ⊢
    refine hupd hq fun hs => ?_
    have := (hrun _ hf.1).1
    rw [show (s.mem.procs _).state = _ from hs] at this
    cases this
  | sleepSet =>
    dsimp only at hq ⊢
    exact hupd hq fun _ => ⟨_, (hrun _ hf.1).2⟩
  | @wake ch i hi hc =>
    refine hupd hq fun hs => ?_
    by_cases hw : (s.mem.procs i).state = .sleeping ∧ (s.mem.procs i).chan = ch
    · simp [Proc.wake, hw] at hs
    · simp only [Proc.wake, if_neg hw] at hs ⊢
      exact h i hs
  | @kill pid i hi hp =>
    refine hupd hq fun hs => ?_
    by_cases hw : (s.mem.procs i).state = .sleeping
    · simp [Proc.kill, hw] at hs
    · simp only [Proc.kill, if_neg hw] at hs
      exact absurd hs hw
  | setkilled | forkParent | adopt =>
    dsimp only at hq ⊢
    exact hupd hq fun hs => h _ hs
  | allocPid | zombie =>
    dsimp only at hq ⊢
    exact hupd hq (by simp)

end Xv6.Sched
