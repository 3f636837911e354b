import Xv6.Proc.Family

/-!
# Proc/Reap — children are reaped exactly once

A process that is asleep in `wait` has no zombie child, but while a process in `exit` that holds
`wait_lock` is waking it (`Called`).  With the family of `Proc/Family` this gives `reaped_once`:
every process has a parent that will look for it, and each fork is answered by at most one `wait`,
with the status the child passed to `exit`.
-/

namespace Xv6.Sched

open List

variable {s s' : Sys} {c d p q i k : Nat} {taken rest st r pre : List Frame} {f g : Frame}
  {mv : Move} {ok : Bool} {ch : Chan} {l : Lk}

/-- The process sleeps in `wait`, or has released `wait_lock` to do so. -/
def Mem.Waiting (m : Mem) (p : Nat) : Prop := (m.procs p).asleep = some (.proc p, .wait)

/-- What a process in `exit` does for its parent before it becomes a zombie: it is waking it, or has
found that it does not sleep. -/
def Dying (m : Mem) (pre : List Frame) (q : Nat) : Prop :=
  (pre = [] ∧ ∀ p, (m.procs q).parent = some p → ¬ m.Waiting p) ∨
    ∃ g i, pre = [g] ∧ scan [g] = some (.ofParent (m.procs q).parent, i)

/-- **A parent that sleeps is called** when it has a zombie child. -/
structure Called (s : Sys) : Prop where
  dying : ∀ x pre q status, s.stack x = pre ++ [.exitZombie q status] → Dying s.mem pre q
  waking : ∀ p k, s.mem.Waiting p → (s.mem.procs k).parent = some p → s.mem.phase k = .dead →
    ∃ d i, s.spin.holder .wait = some d ∧ scan (s.stack (s.mem.cur d)) = some (.proc p, i)

/-! ## Every step -/

/-- A scan is at one of two points. -/
theorem scan_eq (h : scan st = some (ch, i)) :
    (∃ r, st = .wakeup ch i :: r) ∨ ∃ j r, st = .wakeupHeld ch j :: r ∧ i = j + 1 := by
  unfold scan at h
  split at h
  next => cases h; exact .inl ⟨_, rfl⟩
  next => cases h; exact .inr ⟨_, _, rfl, rfl⟩
  next => cases h

/-- A process that calls `wakeup` is not asleep, and who it has gone past neither. -/
theorem Scanning.not_waiting (hw : Scanning s) (h : Inv s)
    (hs : scan (s.stack (s.mem.cur c)) = some (.proc p, i)) (hl : s.spin.holder .wait = some c)
    (hp : p < i) : ¬ s.mem.Waiting p := by
  intro ha
  by_cases hc : s.mem.proc c = some p
  · have e := h.cur_of_scan (by rw [hs]; nofun) hc
    have := (h.on_of_cur e).2.2.2
    rw [← e, ha] at this
    rcases scan_eq hs with ⟨r, e'⟩ | ⟨_, r, e', -⟩ <;> rw [e'] at this <;> cases this
  · exact hw.watch c _ i hs .wait p hl nofun hp hc ha

section

variable (F : Fired s c taken rest mv s') (h : Inv s) (hw : Scanning s)
  (hF : Family s) (hz : Called s)

include F h

omit h in
/-- A process that falls asleep in `wait` holds `wait_lock`. -/
theorem Fired.waiting (ha : s'.mem.Waiting p) : s.mem.Waiting p ∨
    ∃ q addr, taken = [.sleepRel p (.proc p) (.wait q addr)] := by
  rcases F.asleep ha with e | ⟨k, ht, hk, -⟩
  · exact .inl e
  · cases k with
    | code n => cases hk
    | wait q addr => exact .inr ⟨q, addr, ht⟩

omit F h in
/-- A process that has no children left wakes its parent. -/
theorem exit_new {status : Int} (hm : Frame.move s c ok f = some mv)
    (he : mv.frames = pre ++ [.exitZombie q status]) :
    pre = [.wakeup (.ofParent (mv.mem.procs q).parent) 0] := by
  have hn := Frame.move_next hm (show .exitZombie q status ∈ mv.frames by rw [he]; simp)
  cases f with
  | reparent p st i =>
    simp only [Frame.move] at hm
    split at hm
    · split at hm <;> cases hm <;> simpa using congrArg List.getLast? he
    · cases hm
      obtain ⟨e, e'⟩ := append_inj' (show [_] ++ [_] = pre ++ _ from he) rfl
      cases e'
      exact e.symm
  | relock p k => cases k <;> simp [Frame.next] at hn
  | waitKilledHeld p addr kl => cases hp : s.mem.proc c <;> simp [Frame.next, hp] at hn
  | _ => simp [Frame.next] at hn

omit F h in
theorem Call.move_exit {f : Call} {status : Int} (h : f.move s c = some mv) :
    .exitZombie q status ∉ mv.frames := by
  intro he
  obtain ⟨p, e, -⟩ := Call.move_first h
  rw [e] at he
  cases f with
  | acquire | release => cases he
  | _ => cases mem_singleton.1 he

include hw hF hz

omit hw in
/-- A thread that does not move. -/
theorem Called.dying_other {x : Tid} {status : Int} (hx : s.stack x = pre ++ [.exitZombie q status])
    (hne : x ≠ s.mem.cur c) : Dying mv.mem pre q := by
  have hg : .exitZombie q status ∈ s.stack x := by rw [hx]; simp
  obtain ⟨-, hn⟩ := F.locked h hg (fun e => absurd e hne) (l := .wait) (by simp [Frame.holds]) nofun
  have hlive := (hF.points x _ hg).1.live
  have hpar : (mv.mem.procs q).parent = (s.mem.procs q).parent := by
    cases F.change h q with
    | same e => exact e.parent
    | alloc _ e | fail _ e | reap _ e | parent _ e | start _ e => rw [hlive] at e; cases e
    | adopt ht => exact absurd (by simp [Frame.holds]) (hn _ ht rfl)
    | zombie _ _ _ e => rw [e]
  rw [Dying, hpar]
  refine (hz.dying x pre q status hx).imp_left fun e => ⟨e.1, fun p hp ha => ?_⟩
  rcases F.waiting (by rwa [← F.mem] at ha) with ha | ⟨_, _, ht⟩
  · exact e.2 p hp ha
  · exact absurd (by simp [Frame.holds, Sleeper.claims]) (hn _ ht rfl)

omit h hw hF hz in
/-- What is on top when a thread moves. -/
theorem Fired.on_top : (∃ f ok, taken = [f] ∧ f.move s c ok = some mv) ∨ taken = [.intr] ∨
    taken = [] ∧ (rest = [] ∨ (∃ r, rest = .intr :: r) ∨ s.spin.noff c = 0) := by
  cases F.fires with
  | frame hm => exact .inl ⟨_, _, rfl, hm⟩
  | iret => exact .inr (.inl rfl)
  | code => exact .inr (.inr ⟨rfl, .inl rfl⟩)
  | handler => exact .inr (.inr ⟨rfl, .inr (.inl ⟨_, rfl⟩)⟩)
  | interrupt h0 => exact .inr (.inr ⟨rfl, .inr (.inr h0)⟩)

/-- The thread that moves: no interrupt comes on top of `exit` here, only the call of `wakeup`. -/
theorem Called.dying_rest {status : Int}
    (hst : s.stack (s.mem.cur c) = taken ++ st ++ [.exitZombie q status])
    (hr : rest = st ++ [.exitZombie q status]) : Dying mv.mem (mv.frames ++ st) q := by
  have hg : .exitZombie q status ∈ s.stack (s.mem.cur c) := by rw [hst]; simp
  have hl := (h.claims c).held .wait (mem_flatMap.2 ⟨_, hg, by simp [Frame.holds]⟩)
  have hoff : s.spin.noff c ≠ 0 := fun e => h.counted.zero e hl
  obtain ⟨f, ok, i, rfl, rfl, hm, hs⟩ : ∃ f ok i, taken = [f] ∧ st = [] ∧ f.move s c ok = some mv ∧
      scan [f] = some (.ofParent (s.mem.procs q).parent, i) := by
    rcases F.on_top with ⟨f, ok, rfl, hm⟩ | rfl | ⟨rfl, e⟩ <;>
      rcases hz.dying _ _ q status hst with ⟨e', -⟩ | ⟨g, i, e', hs⟩
    · cases e'
    · obtain ⟨rfl, rfl⟩ : f = g ∧ st = [] := by simpa using e'
      exact ⟨f, ok, i, rfl, rfl, hm, hs⟩
    · cases e'
    · obtain ⟨rfl, rfl⟩ : Frame.intr = g ∧ st = [] := by simpa using e'
      cases hs
    · obtain rfl : st = [] := e'
      rcases e with e | ⟨r, e⟩ | e
      · rw [hr] at e; cases e
      · rw [hr] at e; cases e
      · exact absurd e hoff
    · obtain rfl : st = [g] := e'
      rcases e with e | ⟨r, e⟩ | e
      · rw [hr] at e; cases e
      · rw [hr] at e; cases e; cases hs
      · exact absurd e hoff
  have hpar : (mv.mem.procs q).parent = (s.mem.procs q).parent := by
    cases F.change h q with
    | same e => exact e.parent
    | zombie ht | alloc ht | fail ht | reap ht | parent ht | start ht | adopt ht =>
      obtain rfl := singleton_inj.1 ht
      cases hs
  rw [Dying, hpar, append_nil]
  cases f with
  | wakeup ch j =>
    obtain ⟨rfl, rfl⟩ : ch = _ ∧ j = i := by simpa [scan] using hs
    simp only [Frame.move] at hm
    split at hm
    next => split at hm <;> cases hm <;> exact .inr ⟨_, _, rfl, rfl⟩
    next hj =>
      cases hm
      refine .inl ⟨rfl, fun p hp => ?_⟩
      have hps : p < NPROC := hF.tree.range p (by rw [hF.tree.cares q p hp]; simp)
      exact hw.not_waiting h (by rw [hst, hp]; rfl) hl (hps.trans_le (Nat.le_of_not_lt hj))
  | wakeupHeld ch j =>
    cases hm
    obtain ⟨rfl, rfl⟩ : ch = _ ∧ j + 1 = i := by simpa [scan] using hs
    exact .inr ⟨_, _, rfl, rfl⟩
  | _ => cases hs

theorem Called.dying_self {status : Int} (hx : mv.frames ++ rest = pre ++ [.exitZombie q status]) :
    Dying mv.mem pre q := by
  rcases rest.eq_nil_or_concat with hr | ⟨st, z, hr⟩
  · rw [hr, append_nil] at hx
    have hmem : .exitZombie q status ∈ mv.frames := by rw [hx]; simp
    cases F.fires with
    | frame hm => exact .inr ⟨_, 0, exit_new hm hx, rfl⟩
    | code hm | handler _ hm => exact absurd hmem (Call.move_exit hm)
    | interrupt | iret => simpa using congrArg List.getLast? hx
  · rw [hr, concat_eq_append, ← append_assoc] at hx
    obtain ⟨rfl, e⟩ := append_inj' hx rfl
    obtain rfl := singleton_inj.1 e
    have hst := F.stack_eq
    rw [hr, concat_eq_append, ← append_assoc] at hst
    exact hz.dying_rest F h hw hF hst (by rw [hr, concat_eq_append])

theorem Called.dying_step {x : Tid} {status : Int}
    (hx : s'.stack x = pre ++ [.exitZombie q status]) : Dying mv.mem pre q := by
  by_cases hc : x = s.mem.cur c
  · subst hc
    rw [F.stack_cur fun np e => h.spawn_off F e c] at hx
    exact hz.dying_self F h hw hF hx
  · by_cases hsp : ∃ np, mv.spawn = some np ∧ x = .proc np
    · obtain ⟨np, e, rfl⟩ := hsp
      rw [F.stack_spawn e] at hx
      simpa using congrArg List.getLast? hx
    · rw [F.stack_ne hc fun np e e' => hsp ⟨np, e, e'⟩] at hx
      exact hz.dying_other F h hF hx hc

theorem Called.waking_step (ha : s'.mem.Waiting p) (hp : (s'.mem.procs k).parent = some p)
    (hd : s'.mem.phase k = .dead) :
    ∃ d i, s'.spin.holder .wait = some d ∧ scan (s'.stack (s'.mem.cur d)) = some (.proc p, i) := by
  rw [F.mem] at hp hd
  -- a zombie of before, and a parent of before
  have hdead : s.mem.phase k = .dead ∨ ∃ status, taken = [.exitZombie k status] := by
    cases F.change h k with
    | same e => exact .inl (e.phase.symm.trans hd)
    | alloc _ _ e | fail _ _ e | reap _ _ e | parent _ _ e | start _ _ e => rw [e] at hd; cases hd
    | adopt _ _ e => exact .inl (e.symm.trans hd)
    | zombie ht => exact .inr ⟨_, ht⟩
  have hrange : ∀ {k p}, (s.mem.procs k).parent = some p → k < NPROC ∧ p < NPROC := fun e =>
    ⟨hF.tree.range _ (hF.tree.nonfree e), hF.tree.range _ (by rw [hF.tree.cares _ _ e]; nofun)⟩
  rcases F.parent h hp with hp' | ht | ⟨hi, p', status, ht, hp'⟩
  · rcases F.waiting ha with ha' | ⟨q, addr, ht⟩
    · rcases hdead with hd' | ⟨status, rfl⟩
      · -- the parent was being woken
        obtain ⟨d, i, hl, hs⟩ := hz.waking p k ha' hp' hd'
        have hend : ∀ {j}, NPROC ≤ j → j ≤ i → False := fun h1 h2 =>
          hw.not_waiting h hs hl ((hrange hp').2.trans_le (h1.trans h2)) ha'
        have hgo : ∀ {j r}, (s.stack (s.mem.cur d) = .wakeup (.proc p) j :: r ∨
            s.stack (s.mem.cur d) = .wakeupHeld (.proc p) j :: r) → j ≤ i →
            ∃ d i, s'.spin.holder .wait = some d ∧
              scan (s'.stack (s'.mem.cur d)) = some (.proc p, i) := by
          intro j r hst hj
          obtain ⟨h1, h2, ⟨j', -, e⟩ | ⟨e, -⟩⟩ := h.wakeup_keeps F (l := .wait) nofun hl hst
          · rcases e with e | e
            · exact ⟨d, j', h2, by rw [h1, e]; rfl⟩
            · exact ⟨d, j' + 1, h2, by rw [h1, e]; rfl⟩
          · exact (hend e hj).elim
        rcases scan_eq hs with ⟨r, e⟩ | ⟨j, r, e, rfl⟩
        exacts [hgo (.inl e) le_rfl, hgo (.inr e) (Nat.le_succ j)]
      · -- a child that has found it not asleep
        have hst := F.stack_eq
        rw [F.rest_nil h rfl] at hst
        rcases hz.dying _ [] k status hst with ⟨-, e⟩ | ⟨_, _, e, -⟩
        exacts [absurd ha' (e p hp'), nomatch e]
    · -- a parent that has just looked for zombies
      rcases hdead with hd' | ⟨status, e⟩
      · exact absurd hd' ((hF.top F ht).2 k (hrange hp').1 hp')
      · rw [ht] at e
        cases e
  · rcases hdead with hd' | ⟨status, e⟩
    · rw [F.phase_slot h ht rfl] at hd'
      cases hd'
    · rw [ht] at e
      cases e
  · -- a zombie that gets the first process as its parent
    subst ht
    have hl := (h.claims c).held .wait (mem_flatMap.2 ⟨_, F.mem_taken, by simp [Frame.holds]⟩)
    have hstk := F.stack_cur fun np e => h.spawn_off F e c
    cases F.fires with
    | frame hm =>
      simp only [Frame.move, if_pos (hrange hp').1, if_pos hp'] at hm
      cases hm
      refine ⟨c, 0, (Option.some.inj F.spin) ▸ hl, ?_⟩
      rw [F.mem, show (Mem.upd _ _ _).cur c = s.mem.cur c from rfl, hstk, hi]
      rfl

/-- **Every step keeps it.** -/
theorem Called.step : Called s' where
  dying _ _ _ _ hx := F.mem ▸ hz.dying_step F h hw hF hx
  waking _ _ := hz.waking_step F h hw hF

end

theorem Called.start : Called initSys where
  dying x pre q status hx := by
    cases x with
    | proc p =>
      by_cases hp : p = 0 <;> simp only [initSys, hp, if_true, if_false] at hx <;>
        simpa using congrArg List.getLast? hx
    | cpu c => simpa [initSys] using congrArg List.getLast? hx
  waking p k ha := by
    by_cases hp : p = 0 <;> simp [Mem.Waiting, initSys, initMem, hp] at ha

/-- **…and so does every run.** -/
theorem system_called (h : system.Reach s) : Called s := by
  refine h.invariant (I := Called) ?_ ?_
  · rintro _ rfl
    exact .start
  · intro s a s' hr h e
    obtain ⟨c, taken, rest, mv, F⟩ := exec_fired e
    exact h.step F (system_inv hr) (system_scanning hr) (system_family hr)

/-! ## Children -/

/-- The points of `exit` after `reparent`. -/
def Frame.reparented : Frame → Bool
  | .exitZombie .. | .exitRel _ | .exitEnd _ => true
  | _ => false

/-- What holds for parents and children. -/
structure ReapedOnce (s : Sys) : Prop where
  /-- A process other than the first has a parent, which is in use and not past `reparent` in
  `exit`. -/
  parent : ∀ k, k ≠ s.mem.initproc → (s.mem.procs k).state ≠ .unused → (s.mem.procs k).state ≠
    .used → ∃ q, (s.mem.procs k).parent = some q ∧ (s.mem.procs q).state ≠ .unused ∧
      ∀ f ∈ s.stack (.proc q), f.reparented = false
  /-- Each child is reaped at most once… -/
  once : (s.mem.reaps.map Reap.sn).Nodup
  /-- …under the pid that the fork which made it returned… -/
  forked : (s.mem.forks.map Prod.fst).Nodup ∧ ∀ r ∈ s.mem.reaps, (r.sn, r.pid) ∈ s.mem.forks
  /-- …so that no pid is returned by more waits than forks… -/
  pids : ∀ pid, s.mem.reaps.countP (·.pid == pid) ≤ s.mem.forks.countP (·.2 == pid)
  /-- …with the status it passed to `exit`… -/
  status : ∀ r ∈ s.mem.reaps, s.mem.exits r.sn = some r.status
  /-- …and by the process that is its parent then. -/
  reaper : ∀ a s', exec s a = some s' → s'.mem.reaps = s.mem.reaps ∨ ∃ c p i,
    s.mem.cur c = .proc p ∧ (s.mem.procs i).parent = some p ∧ (s.mem.procs i).state = .zombie ∧
      s'.mem.reaps = ⟨(s.mem.procs i).sn, (s.mem.procs i).pid, (s.mem.procs i).xstate,
        (s.mem.procs p).sn⟩ :: s.mem.reaps
  /-- A `wait` that cannot copy the status out changes nothing… -/
  failed : ∀ c s' p i rest, s.stack (s.mem.cur c) = .waitFound p true i :: rest →
    exec s (.run c false) = some s' → s'.mem = s.mem ∧ (s'.mem.procs i).state = .zombie ∧
      (s'.mem.procs i).parent = some p
  /-- …and a zombie stays what it is until it is reaped. -/
  lasts : ∀ a s' k, exec s a = some s' → (s.mem.procs k).state = .zombie →
    ((s'.mem.procs k).state = .zombie ∧ (s'.mem.procs k).sn = (s.mem.procs k).sn ∧
      (s'.mem.procs k).pid = (s.mem.procs k).pid ∧ (s'.mem.procs k).xstate =
        (s.mem.procs k).xstate) ∨
    ∃ n, s'.mem.reaps = ⟨(s.mem.procs k).sn, (s.mem.procs k).pid, (s.mem.procs k).xstate, n⟩ ::
      s.mem.reaps
  /-- While `wait_lock` is free, a process asleep in `wait` has no zombie child. -/
  asleep : s.spin.holder .wait = none → ∀ p ch addr, (s.mem.procs p).state = .sleeping →
    .sleepEnd p ch (.wait p addr) ∈ s.stack (.proc p) →
      ∀ k, (s.mem.procs k).parent = some p → (s.mem.procs k).state ≠ .zombie

/-- A process asleep in `wait` waits for its children. -/
theorem Inv.waiting (h : Inv s) (hF : Family s) {addr : Bool}
    (hs : (s.mem.procs p).state = .sleeping)
    (hf : .sleepEnd p ch (.wait p addr) ∈ s.stack (.proc p)) : s.mem.Waiting p := by
  have hch : ch = .proc p := hF.points _ _ hf
  have hb := h.based (.proc p)
  -- the one call of `sleep` on the stack
  have hone : ∀ {ch' : Chan} {k : Sleeper} {r : List Frame}, Based (.sleepEnd p ch' k :: r) →
      .sleepEnd p ch (.wait p addr) ∈ Frame.sleepEnd p ch' k :: r →
      (s.mem.procs p).asleep = some (ch', k.lk) → s.mem.Waiting p := by
    intro ch' k r hb hm ha
    rw [hb.1 rfl] at hm
    cases mem_singleton.1 hm
    rw [Mem.Waiting, ha, hch]
    rfl
  have hparked : Parked (s.mem.procs p) p (s.stack (.proc p)) → s.mem.Waiting p := by
    intro hk
    rw [Parked, hs] at hk
    obtain ⟨ch', k, r, e, -, ha⟩ := hk
    rw [e] at hb hf
    exact hone hb hf ha
  by_cases hd : ∃ d, s.mem.cur d = .proc p
  · obtain ⟨d, hd⟩ := hd
    obtain ⟨-, -, e, ha⟩ := h.on_of_cur hd
    have hh := h.home (.proc p)
    rw [hs] at e
    generalize s.stack (.proc p) = st at *
    unfold leftState at e
    split at e <;> cases e
    next q q' ch' k r =>
      obtain rfl : p = q' := by cases (hh (.sleepEnd q' ch' k) (by simp)).1; rfl
      refine hone hb.2 ?_ ha
      simpa using hf
  · exact hparked (h.parked fun d e => hd ⟨d, e⟩)

theorem Family.has_parent (h : Inv s) (hF : Family s) (hk : k ≠ s.mem.initproc)
    (h1 : (s.mem.procs k).state ≠ .unused) (h2 : (s.mem.procs k).state ≠ .used) :
    ∃ q, (s.mem.procs k).parent = some q ∧ (s.mem.procs q).state ≠ .unused ∧
      ∀ f ∈ s.stack (.proc q), f.reparented = false := by
  have hph : s.mem.phase k = .live ∨ s.mem.phase k = .dead := by
    rw [Mem.phase]
    cases e : (s.mem.procs k).state <;> simp_all [PState.phase]
  obtain ⟨q, hq⟩ := Option.ne_none_iff_exists'.1 (hF.tree.orphan k hph hk)
  refine ⟨q, hq, fun e => ?_, fun f hf => ?_⟩
  · have := hF.tree.cares k q hq
    rw [Mem.phase, e] at this
    cases this
  · have hp := hF.points _ f hf
    have hh := h.home _ f hf
    cases f with
    | exitZombie p st | exitRel p | exitEnd p => cases hh; exact absurd hq (hp.2 k)
    | _ => rfl

theorem Serials.pids {m : Mem} (h : Serials m) (pid : Int) :
    m.reaps.countP (·.pid == pid) ≤ m.forks.countP (·.2 == pid) := by
  have hsub : (m.reaps.map fun r => (r.sn, r.pid)).Subperm m.forks := by
    refine subperm_of_subset (List.Nodup.of_map Prod.fst ?_) fun e he => ?_
    · rw [map_map]
      exact h.reaps_nodup
    · obtain ⟨r, hr, rfl⟩ := mem_map.1 he
      exact (h.reaped r hr).1
  have := hsub.countP_le (fun e => e.2 == pid)
  rwa [countP_map] at this

theorem Family.reaper (h : Inv s) (hF : Family s) (F : Fired s c taken rest mv s') :
    s'.mem.reaps = s.mem.reaps ∨ ∃ c p i,
      s.mem.cur c = .proc p ∧ (s.mem.procs i).parent = some p ∧ (s.mem.procs i).state = .zombie ∧
        s'.mem.reaps = ⟨(s.mem.procs i).sn, (s.mem.procs i).pid, (s.mem.procs i).xstate,
          (s.mem.procs p).sn⟩ :: s.mem.reaps := by
  rw [F.mem]
  cases F.book with
  | none _ _ e | alloc _ _ _ _ e | fork _ _ _ e | exit _ _ _ _ _ _ _ e => exact .inl e
  | @reap p i addr ht _ _ _ e =>
    refine .inr ⟨c, p, i, ?_, hF.top F ht, phase_dead.1 (F.phase_slot h ht rfl), e⟩
    subst ht
    exact F.for_taken h _ mem_cons_self

theorem Family.failed (h : Inv s) (hF : Family s)
    (hst : s.stack (s.mem.cur c) = .waitFound p true i :: rest)
    (e : exec s (.run c false) = some s') : s'.mem = s.mem ∧ (s'.mem.procs i).state = .zombie ∧
      (s'.mem.procs i).parent = some p := by
  have hf : .waitFound p true i ∈ s.stack (s.mem.cur c) := by rw [hst]; exact mem_cons_self
  simp only [exec, hst, Frame.move, if_pos, and_self, Option.bind_some] at e
  obtain ⟨k, -, rfl⟩ := Option.map_eq_some_iff.1 e
  exact ⟨rfl, h.knows _ _ hf i _ rfl, hF.points _ _ hf⟩

theorem Inv.lasts (h : Inv s) (F : Fired s c taken rest mv s')
    (hk : (s.mem.procs k).state = .zombie) :
    ((s'.mem.procs k).state = .zombie ∧ (s'.mem.procs k).sn = (s.mem.procs k).sn ∧
      (s'.mem.procs k).pid = (s.mem.procs k).pid ∧ (s'.mem.procs k).xstate =
        (s.mem.procs k).xstate) ∨
    ∃ n, s'.mem.reaps = ⟨(s.mem.procs k).sn, (s.mem.procs k).pid, (s.mem.procs k).xstate, n⟩ ::
      s.mem.reaps := by
  have hd := phase_dead.2 hk
  rw [F.mem]
  cases F.change h k with
  | same e => exact .inl ⟨phase_dead.1 (e.phase.trans hd), e.sn, e.pid, e.xstate⟩
  | alloc _ e | fail _ e | parent _ e | start _ e | zombie _ e => rw [hd] at e; cases e
  | adopt _ _ _ e => rw [e]; exact .inl ⟨hk, rfl, rfl, rfl⟩
  | reap ht _ _ e =>
    subst ht
    cases F.fires with
    | frame hm =>
      simp only [Frame.move] at hm
      split at hm <;> cases hm
      · rw [e] at hk
        cases hk
      · exact .inr ⟨_, rfl⟩

/-- **Children are reaped exactly once**, in every run. -/
theorem reaped_once (h : system.Reach s) : ReapedOnce s := by
  have hi := system_inv h
  have hF := system_family h
  have hz := system_called h
  refine ⟨fun k => hF.has_parent hi, hF.serials.reaps_nodup, ⟨hF.serials.forks_nodup,
    fun r hr => (hF.serials.reaped r hr).1⟩, hF.serials.pids,
    fun r hr => (hF.serials.reaped r hr).2.1, fun a s' e => ?_, fun c s' p i rest => hF.failed hi,
    fun a s' k e hk => ?_, fun hl p ch addr hs hf k hp hk => ?_⟩
  · obtain ⟨c, taken, rest, mv, F⟩ := exec_fired e
    exact hF.reaper hi F
  · obtain ⟨c, taken, rest, mv, F⟩ := exec_fired e
    exact hi.lasts F hk
  · obtain ⟨d, i, hd, -⟩ := hz.waking p k (hi.waiting hF hs hf) hp (phase_dead.2 hk)
    rw [hl] at hd
    cases hd

/-- …for instance when the first process has forked, and waits for the child, which has exited with
status 7. -/
theorem reaped_once_first :
    ∃ s, system.Reach s ∧ (s.mem.forks = [(2, 2)] ∧ s.mem.reaps = [⟨2, 2, 7, 1⟩]) ∧
    ReapedOnce s := by
  have h : system.Reach initSys := .init rfl
  obtain ⟨s, hs, hP⟩ := h.play_any (f := exec) (fun _ _ _ e => e)
    (l := List.replicate 3 (.run 1 true) ++ .call 1 .fork :: List.replicate 10 (.run 1 true) ++
      List.replicate 5 (.run 0 true) ++ .call 0 (.exit 7) :: List.replicate 198 (.run 0 true) ++
      .call 1 (.wait false) :: List.replicate 4 (.run 1 true))
    (P := fun s => decide (s.mem.forks = [(2, 2)] ∧ s.mem.reaps = [⟨2, 2, 7, 1⟩]))
    (by decide +kernel)
  exact ⟨s, hs, of_decide_eq_true hP, reaped_once hs⟩

end Xv6.Sched
