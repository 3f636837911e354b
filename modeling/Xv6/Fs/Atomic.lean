import Xv6.Fs.Durable

/-!
# Fs/Atomic — operations are atomic across crashes

Groups are made of whole operations, and after a crash and a recovery — or several, with crashes in
between — the blocks are what the first so many groups have made of them, where operations log what
they have changed before they release it.  One that does not is torn by a crash (`crash_torn`).
-/

namespace Xv6.Fs

open Function

/-! ## Groups of whole operations -/

/-- The process of an event. -/
def Ev.proc : Ev → Nat
  | .start p | .store p .. | .finish p => p

/-- Is the process in an operation after the event, if it was before?  `none` is an event out of
place. -/
def Ev.track (p : Nat) (o : Option Bool) (e : Ev) : Option Bool :=
  if e.proc = p then
    match o, e with
    | some false, .start _ => some true
    | some true, .store .. => some true
    | some true, .finish _ => some false
    | _, _ => none
  else o

/-- …and after these events? -/
def track (p : Nat) (l : List Ev) : Option Bool := l.foldl (Ev.track p) (some false)

/-- **Whole operations**: the events of each process are operations, from start to finish. -/
def Whole (l : List Ev) : Prop := ∀ p, track p l = some false

theorem track_append (p : Nat) (l : List Ev) (e : Ev) :
    track p (l ++ [e]) = Ev.track p (track p l) e :=
  List.foldl_append ..

/-- Closed groups are whole, and the open one is up to now. -/
structure Grouped (cf : Conf) (s : Sys) : Prop where
  groups : ∀ g ∈ s.groups, Whole g
  cur : ∀ p, track p s.cur = some (s.procs p).inOp
  bound : ∀ p, (s.procs p).inOp = true → p < cf.nproc

variable {cf : Conf} {s s' : Sys} {p q b n : Nat} {Q : Proc} {a : Label} {pc : Pc} {e : Ev}

section

variable (h : Grouped cf s)

include h

theorem Grouped.congr (hg : s'.groups = s.groups) (hc : s'.cur = s.cur)
    (ho : ∀ q, (s'.procs q).inOp = (s.procs q).inOp) : Grouped cf s' := by
  refine ⟨hg ▸ h.groups, fun q => ?_, fun q hq => h.bound q (ho q ▸ hq)⟩
  rw [hc, ho]
  exact h.cur q

theorem Grouped.turn (hprocs : s'.procs = update s.procs p Q)
    (hQ : Q.inOp = (s.procs p).inOp) (hg : s'.groups = s.groups) (hc : s'.cur = s.cur) :
    Grouped cf s' := by
  refine h.congr hg hc ?_
  rw [hprocs]
  exact forall_update (F := fun q Q => Q.inOp = (s.procs q).inOp) (fun _ => rfl) hQ

theorem Grouped.wakeup : Grouped cf s.wakeup := by
  refine h.congr rfl rfl fun q => ?_
  show (if _ then _ else _ : Proc).inOp = _
  split <;> rfl

/-- An event of one process. -/
theorem Grouped.event (hp : p < cf.nproc) (he : e.proc = p)
    (ht : Ev.track p (some (s.procs p).inOp) e = some Q.inOp) (q : Nat) :
    track q (s.cur ++ [e]) = some (update s.procs p Q q).inOp ∧
      ((update s.procs p Q q).inOp = true → q < cf.nproc) := by
  rw [track_append, h.cur q]
  by_cases hq : q = p
  · subst hq
    rw [update_self]
    exact ⟨ht, fun _ => hp⟩
  · rw [update_of_ne hq]
    exact ⟨if_neg (he ▸ fun e => hq e.symm), h.bound q⟩

theorem Grouped.quiet (hq : Quiet s s' p) : Grouped cf s' :=
  h.congr (congrArg Core.groups hq.core) (congrArg Core.cur hq.core) fun q => (hq.stays q).inOp

end

theorem Grouped.boot {disk base : Nat → Block} {groups : List (List Ev)} {returned : Nat}
    (h : ∀ g ∈ groups, Whole g) : Grouped cf (boot disk base groups returned) := by
  have hproc : ∀ q, ((Fs.boot disk base groups returned).procs q).inOp = false := by
    intro q
    show (if _ then _ else _ : Proc).inOp = _
    split <;> rfl
  exact ⟨h, fun q => congrArg some (hproc q).symm,
    fun q hq => absurd ((hproc q).symm.trans hq) (by simp)⟩

theorem Grouped.run (h : Grouped cf s) (hi : Inv False cf s) (hp : p < cf.nproc)
    (hpc : (s.procs p).pc = pc) (e : run cf s p pc = some s') : Grouped cf s' := by
  by_cases hl : pc.loud = false
  · exact h.quiet (.run hl e)
  cases pc with
  | beginOp =>
    obtain ⟨ho, -⟩ := hi.admits.begins p (by rw [hpc]; rfl)
    simp only [Fs.run] at e
    split at e
    · cases e
      exact h.turn rfl rfl rfl rfl
    split at e <;> cases e
    · exact h.turn rfl rfl rfl rfl
    · have hev :=
        h.event (e := .start p) (Q := { s.procs p with pc := .user, inOp := true, logged := [] }) hp
        rfl (by rw [ho]; exact if_pos rfl)
      exact ⟨h.groups, fun q => (hev q).1, fun q => (hev q).2⟩
  | commit =>
    simp only [Fs.run] at e
    split at e <;> cases e <;> exact h.turn rfl rfl rfl rfl
  | logCopy | headFill | instCopy | clear | headRead | recovered =>
    cases e
    exact h.turn rfl rfl rfl rfl
  | endOp =>
    cases e
    exact Grouped.wakeup (h.turn rfl rfl rfl rfl)
  | _ => exact absurd rfl hl

theorem Grouped.exec (h : Grouped cf s) (hi : Inv False cf s) (hi' : Inv False cf s')
    (e : exec cf s a = some s') : Grouped cf s' := by
  cases exec_cases e with
  | run hp e => exact h.run hi hp rfl e
  | bread => exact h.quiet .bread
  | @store p b d hc =>
    by_cases ho : (s.procs p).inOp = true
    · have hev := h.event (e := .store p (s.cache.buf b).blockno d)
        (Q := (s.procs p).mark b true) hc.2.2.1 rfl
        (by
          rw [show ((s.procs p).mark b true).inOp = (s.procs p).inOp from rfl, ho]
          exact if_pos rfl)
      simp only [store, if_pos ho]
      exact ⟨h.groups, fun q => (hev q).1, fun q => (hev q).2⟩
    · simp only [store, if_neg ho]
      exact h.turn rfl rfl rfl rfl
  | logWrite _ _ e =>
    cases e with
    | tooBig | outside => exact ⟨h.groups, h.cur, h.bound⟩
    | new | old => exact h.turn rfl rfl rfl rfl
  | bwrite | brelse | beginOp | wake => exact h.turn rfl rfl rfl rfl
  | @endOp p hc ho =>
    obtain ⟨-, -, hp, -⟩ := hc
    have hev : ∀ Q : Proc, Q.inOp = false → _ := fun Q hQ =>
      h.event (e := .finish p) (Q := Q) hp rfl (by rw [ho, hQ]; exact if_pos rfl)
    have hcom := hi.admits.inOp hp ho
    simp only [endOp] at hi' ⊢
    rw [if_neg (by rw [hcom]; simp)] at hi' ⊢
    split at hi'
    next h0 =>
      rw [if_pos h0]
      -- the last one out closes the group
      have hnone : ∀ q, (update s.procs p { s.procs p with pc := .commit, inOp := false } q).inOp =
          false := by
        intro q
        by_cases hq : q < cf.nproc
        · by_contra hne
          exact absurd (hi'.admits.inOp hq (Bool.eq_true_of_not_eq_false hne)) (by rintro ⟨⟩)
        · by_contra hne
          exact hq ((hev _ rfl q).2 (by simpa using hne))
      refine ⟨fun g hg q => ?_, fun q => ?_, fun q hq => absurd ((hnone q).symm.trans hq) (by simp)⟩
      · rcases List.mem_append.1 hg with hg | hg
        · exact h.groups g hg q
        · rw [List.mem_singleton.1 hg]
          exact (hev _ rfl q).1.trans (congrArg some (hnone q))
      · exact congrArg some (hnone q).symm
    next h0 =>
      rw [if_neg h0]
      exact Grouped.wakeup ⟨h.groups, fun q => (hev _ rfl q).1, fun q => (hev _ rfl q).2⟩
  | crash => exact .boot fun g hg => h.groups g (List.mem_of_mem_take hg)

theorem system_grouped (hdev : cf.dev ≠ 0) (h : (system cf).Reach s) : Grouped cf s := by
  refine h.invariant (I := Grouped cf) ?_ ?_
  · rintro s ⟨disk, -, rfl⟩
    exact .boot nofun
  · intro s a s' hr h e
    exact h.exec (system_order hdev hr) (system_order hdev (hr.step e)) e

/-! ## Recovery -/

/-- **A crash and the recovery after it**, with more crashes before it is done. -/
inductive Recovery (cf : Conf) (s : Sys) : Sys → Prop
  | crash {t : Sys} (e : exec cf s .crash = some t) : Recovery cf s t
  | again {t u : Sys} (h : Recovery cf s t) (hd : t.up = false)
      (e : exec cf t .crash = some u) : Recovery cf s u
  | run {t u : Sys} {p : Nat} (h : Recovery cf s t) (hd : t.up = false)
      (e : exec cf t (.run p) = some u) :
    Recovery cf s u

theorem Recovery.reach {t : Sys} (h : Recovery cf s t)
    (hs : ((system cf).restrict (Sys.Disciplined cf)).Reach s) :
    ((system cf).restrict (Sys.Disciplined cf)).Reach t := by
  induction h with
  | crash e => exact hs.step (a := .crash) ⟨⟨trivial, trivial⟩, e⟩
  | again _ _ e ih => exact ih.step (a := .crash) ⟨⟨trivial, trivial⟩, e⟩
  | run _ _ e ih => exact ih.step (a := .run _) ⟨⟨trivial, trivial⟩, e⟩

/-- No group is closed while the machine recovers. -/
theorem run_down (hi : Inv False cf s) (hd : s.up = false) (hpc : (s.procs p).pc = pc)
    (e : run cf s p pc = some s') : s'.base = s.base ∧ s'.groups = s.groups ∧
    s'.log.committing = s.log.committing := by
  by_cases hl : pc.loud = false
  · have hq := Quiet.run hl e
    exact ⟨congrArg Core.base hq.core, congrArg Core.groups hq.core,
      congrArg Core.committing hq.core⟩
  cases pc with
  | beginOp => exact absurd ((hi.admits.begins p (by rw [hpc]; rfl)).2.symm.trans hd) nofun
  | commit | endOp => exact absurd ((hi.admits.commits p (by rw [hpc]; rfl)).2.symm.trans hd) nofun
  | logCopy | headFill | instCopy | clear | headRead | recovered =>
    cases e
    exact ⟨rfl, rfl, rfl⟩
  | _ => exact absurd rfl hl

/-- **What is left after a crash**: the groups that counted. -/
theorem Recovery.groups {t : Sys} (h : Recovery cf s t) (hdev : cf.dev ≠ 0) (hsize : 0 < cf.size)
    (hs : ((system cf).restrict (Sys.Disciplined cf)).Reach s) :
    t.base = s.base ∧ t.groups = s.groups.take s.durable ∧ t.log.committing = false := by
  induction h with
  | crash e =>
    cases e
    exact ⟨rfl, rfl, rfl⟩
  | @again t u h hd e ih =>
    cases e
    obtain ⟨h1, h2, -⟩ := ih
    have hdur := ((system_durable hdev hsize (h.reach hs)).ok.down hd).1
    refine ⟨h1, ?_, rfl⟩
    show t.groups.take t.durable = _
    rw [show t.durable = t.groups.length from hdur, List.take_length, h2]
  | @run t u p h hd e ih =>
    obtain ⟨h1, h2, h3⟩ := ih
    obtain ⟨-, e⟩ := Option.ite_none_right_eq_some.1 e
    obtain ⟨e1, e2, e3⟩ := run_down (system_order hdev (h.reach hs).of_restrict) hd rfl e
    exact ⟨e1.trans h1, e2.trans h2, e3.trans h3⟩

/-- **Operations are atomic across crashes.**  Groups are made of whole operations; and however a
run that uses the log as it should is cut short, once recovery is done the blocks outside of the log
are what the first so many groups have made of them, and those for which `end_op` has returned are
among them. -/
theorem crash_atomic (cf : Conf) (hdev : cf.dev ≠ 0) (hsize : 0 < cf.size) (s : Sys)
    (h : ((system cf).restrict (Sys.Disciplined cf)).Reach s) :
    (∀ g ∈ s.groups, Whole g) ∧ ∀ t, Recovery cf s t → t.up = true →
      ∃ k, s.returned ≤ k ∧ k ≤ s.groups.length ∧
        ∀ n, cf.Home n → t.cache.disk n = replay s.base (s.groups.take k).flatten n := by
  refine ⟨(system_grouped hdev h.of_restrict).groups, fun t ht hup => ?_⟩
  have hs := system_durable hdev hsize h
  have hd := system_durable hdev hsize (ht.reach h)
  obtain ⟨h1, h2, h3⟩ := ht.groups hdev hsize h
  obtain ⟨h0, hdur⟩ := hd.ok.idle hup h3
  refine ⟨s.durable, hs.ok.returned, hs.ok.durable, fun n hn => ?_⟩
  have hv := hd.ok.view n hn
  rw [Journal.view_empty h0, hdur, List.take_length] at hv
  rw [← h1, ← h2]
  exact hv

instance {cf : Conf} {n : Nat} : Decidable (cf.Home n) := inferInstanceAs (Decidable (_ ∨ _))

instance {cf : Conf} {s : Sys} : DecidablePred (s.Operates cf)
  | .store .. | .logWrite .. => inferInstanceAs (Decidable (_ ∧ _))
  | .bwrite .. => .isFalse id
  | .endOp p => inferInstanceAs (Decidable (∀ x ∈ (s.procs p).held, x.dirty = false))
  | .run _ | .bread .. | .brelse .. | .beginOp _ | .wake _ | .crash => .isTrue trivial

instance {cf : Conf} {s : Sys} : DecidablePred (s.Disciplined cf) :=
  fun _ => inferInstanceAs (Decidable (_ ∧ _))

theorem crash_atomic_commit :
    ∃ s, ((system sampleConf).restrict (Sys.Disciplined sampleConf)).Reach s ∧
    (s.durable == 1 && s.returned == 0) = true ∧ ∀ t, Recovery sampleConf s t → t.up = true →
      ∃ k, s.returned ≤ k ∧ k ≤ s.groups.length ∧
        ∀ n, sampleConf.Home n → t.cache.disk n = replay s.base (s.groups.take k).flatten n := by
  have h : ((system sampleConf).restrict (Sys.Disciplined sampleConf)).Reach sampleBoot :=
    .init ⟨_, rfl, rfl⟩
  -- an operation that changes a block, until the header has been written
  obtain ⟨s, hs, hP⟩ := h.play_guarded (f := exec sampleConf) (fun _ _ _ e => e)
    (l := sampleOp ++ [.run 0, .store 0 1 fun _ => 7, .logWrite 0 1, .brelse 0 1, .run 0,
      .endOp 0] ++ List.replicate 17 (.run 0))
    (P := fun s : Sys => s.durable == 1 && s.returned == 0) (by decide +kernel)
  exact ⟨s, hs, hP, (crash_atomic sampleConf nofun (by decide) s hs).2⟩

/-- Recovery by the first process, in so many steps. -/
def recover (cf : Conf) : Nat → Sys → Option Sys
  | 0, s => some s
  | n + 1, s => if s.up then some s else (exec cf s (.run 0)).bind (recover cf n)

theorem Recovery.recover {t u : Sys} {n : Nat} (h : Recovery cf s t) (e : recover cf n t = some u) :
    Recovery cf s u := by
  induction n generalizing t with
  | zero =>
    cases e
    exact h
  | succ n ih =>
    rw [Fs.recover] at e
    split at e
    · cases e
      exact h
    next hd =>
      obtain ⟨v, hv, e⟩ := Option.bind_eq_some_iff.1 e
      exact ih (h.run (Bool.eq_false_of_not_eq_true hd) hv) e

/-- An operation that changes and logs a block, and then changes the next one, which it releases
without logging it: so does `writei` when `either_copyin` fails halfway through a block.  It is
committed, until the header has been written. -/
def tornOp : List Label :=
  sampleOp ++ [.run 0, .store 0 1 fun _ => 7, .logWrite 0 1, .brelse 0 1, .run 0,
    .bread 0 41, .run 0, .run 0, .run 0, .store 0 2 fun _ => 7, .brelse 0 2, .run 0, .endOp 0] ++
    List.replicate 17 (.run 0)

/-- What it comes to: recovery finds one of the blocks changed and the other not. -/
def Torn (s t : Sys) : Bool :=
  t.up && s.groups.length == 1 && t.cache.disk 40 0 == 7 && t.cache.disk 41 0 == 0 && s.base 40 0 ==
    0 && replay s.base (s.groups.take 1).flatten 41 0 == 7

/-- **An operation that releases what it has changed without logging it is not atomic**: after a
crash and recovery, the block that it logged is changed and the other is not. -/
theorem crash_torn : ∃ s, ((system sampleConf).restrict (Sys.Operates sampleConf)).Reach s ∧
    ∃ t, Recovery sampleConf s t ∧ t.up = true ∧ ¬ ∃ k, s.returned ≤ k ∧ k ≤ s.groups.length ∧
      ∀ n, sampleConf.Home n → t.cache.disk n = replay s.base (s.groups.take k).flatten n := by
  have h : ((system sampleConf).restrict (Sys.Operates sampleConf)).Reach sampleBoot :=
    .init ⟨_, rfl, rfl⟩
  obtain ⟨s, hs, hP⟩ := h.play_guarded (f := exec sampleConf) (fun _ _ _ e => e) (l := tornOp)
    (P := fun s : Sys => ((exec sampleConf s .crash).bind (recover sampleConf 40)).any (Torn s))
    (by decide +kernel)
  obtain ⟨t, ht, hP⟩ := (Option.any_eq_true ..).1 hP
  obtain ⟨u, hu, ht⟩ := Option.bind_eq_some_iff.1 ht
  simp only [Torn, Bool.and_eq_true, beq_iff_eq] at hP
  obtain ⟨⟨⟨⟨⟨hup, hlen⟩, h40⟩, h41⟩, hb⟩, hr⟩ := hP
  refine ⟨s, hs, t, (Recovery.crash hu).recover ht, hup, ?_⟩
  rintro ⟨k, -, hk, hd⟩
  obtain rfl | rfl : k = 0 ∨ k = 1 := by omega
  · have := congrFun (hd 40 (by decide)) 0
    rw [h40] at this
    exact absurd (this.trans hb) (by decide)
  · have := congrFun (hd 41 (by decide)) 0
    rw [h41, hr] at this
    exact absurd this (by decide)

end Xv6.Fs
