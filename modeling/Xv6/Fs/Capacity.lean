import Xv6.Fs.Quiet
import Mathlib.Algebra.BigOperators.Ring.Finset

/-!
# Fs/Capacity — how much an operation may log

`begin_op` reserves `MAXOPBLOCKS` blocks of the log for each operation, and the log has `LOGSIZE` of
them. But one is the header, and `log_write` panics at the last of them already: an operation may
use all but one of the blocks that are reserved for it.
-/

namespace Xv6.Fs

open Function Finset

/-- Every operation logs `k` different blocks at most. -/
def Sys.Within (k : Nat) (s : Sys) : Label → Prop
  | .logWrite p b => (s.procs p).inOp = true ∧
    (insert (s.cache.buf b).blockno (s.procs p).logged.toFinset).card ≤ k
  | _ => True

instance {k : Nat} {s : Sys} : DecidablePred (s.Within k)
  | .logWrite .. => inferInstanceAs (Decidable (_ ∧ _))
  | .run _ | .bread .. | .store .. | .bwrite .. | .brelse .. | .beginOp _ | .endOp _ | .wake _
  | .crash =>
    .isTrue trivial

/-- What a process may still log. -/
def Proc.budget (k : Nat) (P : Proc) : Nat := if P.inOp then k - P.logged.toFinset.card else 0

/-- **The log has room for what is admitted.** -/
structure Fits (k : Nat) (cf : Conf) (s : Sys) : Prop where
  listed : s.up = true → ∀ p < cf.nproc, (s.procs p).inOp = true → ∀ m ∈ (s.procs p).logged,
    ∃ i, i < s.log.lh.n ∧ s.log.lh.block i = m
  room : s.up = true → s.log.lh.n + ∑ p ∈ Finset.range cf.nproc, (s.procs p).budget k ≤ LOGSIZE - 2
  sound : s.panicked ≠ some .tooBig

variable {cf : Conf} {s s' : Sys} {p q b n k : Nat} {Q : Proc} {a : Label} {pc : Pc}

/-- Steps that do not log. -/
theorem Fits.congr (h : Fits k cf s) (hlh : s'.log.lh = s.log.lh) (hup : s'.up = s.up)
    (hops : ∀ q, (s'.procs q).inOp = (s.procs q).inOp ∧ (s'.procs q).logged = (s.procs q).logged)
    (hpan : s'.panicked ≠ some .tooBig) : Fits k cf s' := by
  refine ⟨fun h1 q hq => ?_, fun h1 => ?_, hpan⟩
  · rw [(hops q).1, (hops q).2, hlh]
    exact h.listed (hup ▸ h1) q hq
  · rw [hlh, sum_congr rfl fun q _ => show (s'.procs q).budget k = (s.procs q).budget k by
      rw [Proc.budget, Proc.budget, (hops q).1, (hops q).2]]
    exact h.room (hup ▸ h1)

theorem Fits.quiet (h : Fits k cf s) (hq : Quiet s s' p) : Fits k cf s' := by
  refine h.congr (congrArg Core.lh hq.core) (congrArg Core.up hq.core)
    (fun q => ⟨(hq.stays q).inOp, (hq.stays q).logged⟩) ?_
  rcases hq.panicked with e | e <;> rw [e]
  exacts [h.sound, nofun]

/-- Nothing is admitted and nothing is in the log. -/
theorem Fits.idle (hn : s.log.lh.n = 0) (ho : inOps cf.nproc s.procs = 0)
    (hpan : s.panicked ≠ some .tooBig) : Fits k cf s := by
  have hin : ∀ q < cf.nproc, (s.procs q).inOp = false := by
    intro q hq
    have := sum_eq_zero_iff.1 ho q (mem_range.2 hq)
    cases h : (s.procs q).inOp
    · rfl
    · rw [h] at this
      cases this
  refine ⟨fun _ q hq h1 => absurd ((hin q hq).symm.trans h1) (by simp), fun _ => ?_, hpan⟩
  rw [hn, sum_eq_zero fun q hq => by rw [Proc.budget, hin q (mem_range.1 hq)]; rfl]
  exact Nat.zero_le _

theorem Fits.turn (h : Fits k cf s) (hprocs : s'.procs = update s.procs p Q)
    (hQ : Q.inOp = (s.procs p).inOp ∧ Q.logged = (s.procs p).logged) (hlh : s'.log.lh = s.log.lh)
    (hup : s'.up = s.up) (hpan : s'.panicked = s.panicked) : Fits k cf s' := by
  refine h.congr hlh hup ?_ (hpan ▸ h.sound)
  rw [hprocs]
  exact forall_update (F := fun q Q => Q.inOp = (s.procs q).inOp ∧ Q.logged = (s.procs q).logged)
    (fun _ => ⟨rfl, rfl⟩) hQ

theorem Fits.wakeup (h : Fits k cf s) : Fits k cf s.wakeup := by
  refine h.congr rfl rfl (fun q => ?_) h.sound
  show (if _ then _ else _ : Proc).inOp = _ ∧ (if _ then _ else _ : Proc).logged = _
  split <;> exact ⟨rfl, rfl⟩

theorem budget_le (k : Nat) (P : Proc) : P.budget k ≤ k * P.inOp.toNat := by
  rw [Proc.budget]
  cases P.inOp
  · exact Nat.zero_le _
  · rw [if_pos rfl, Bool.toNat_true, Nat.mul_one]
    exact Nat.sub_le ..

/-- **The reservation of one more operation.** -/
theorem Fits.beginOp (hi : Inv False cf s) (hi' : Inv False cf s') (h : Fits (MAXOPBLOCKS - 1) cf s)
    (hpc : (s.procs p).pc = .beginOp) (e : run cf s p .beginOp = some s') :
    Fits (MAXOPBLOCKS - 1) cf s' := by
  obtain ⟨ho, hup⟩ := hi.admits.begins p (by rw [hpc]; rfl)
  simp only [run] at e
  split at e
  · cases e
    exact h.turn rfl ⟨rfl, rfl⟩ rfl rfl rfl
  next hc =>
  split at e <;> cases e
  · exact h.turn rfl ⟨rfl, rfl⟩ rfl rfl rfl
  next hn =>
  refine ⟨fun h1 q hq => ?_, fun _ => ?_, h.sound⟩
  · refine forall_update (F := fun q Q => q < cf.nproc → Q.inOp = true → ∀ m ∈ Q.logged,
      ∃ i, i < s.log.lh.n ∧ s.log.lh.block i = m) (fun q hq => h.listed hup q hq) ?_ q hq
    rintro _ _ _ ⟨⟩
  · have hcount := hi'.admits.count
    have hsum := sum_le_sum fun q (_ : q ∈ Finset.range cf.nproc) =>
      budget_le (MAXOPBLOCKS - 1) ((({ s with
        log := { s.log with outstanding := s.log.outstanding + 1 }, cur := s.cur ++ [Ev.start p] } :
          Sys).setProc p fun P => { P with pc := .user, inOp := true, logged := [] }).procs q)
    rw [← mul_sum] at hsum
    refine (Nat.add_le_add_left hsum _).trans ?_
    rw [← inOps, ← hcount]
    show s.log.lh.n + (MAXOPBLOCKS - 1) * (s.log.outstanding + 1) ≤ LOGSIZE - 2
    -- an empty log has more room than `begin_op` asks for
    have h0 : s.log.outstanding = 0 → s.log.lh.n = 0 := hi.admits.empty hup (by simpa using hc)
    simp only [MAXOPBLOCKS, LOGSIZE] at hn ⊢
    omega

/-- A block more in the log is one less in the budget. -/
theorem room_mono {A B x y d m : Nat} (hxy : y + d ≤ x) (h : A + x = B + y) :
    m + d + A ≤ m + B := by
  omega

/-- `log_write` finds room. -/
theorem Fits.logWrite (h : Fits k cf s) (hsize : cf.size = LOGSIZE) (hc : s.Calls cf p)
    (hw : s.Within k (.logWrite p b)) (e : LogWrites cf s p b s') : Fits k cf s' := by
  obtain ⟨-, hup, hp, -⟩ := hc
  obtain ⟨ho, hk⟩ := hw
  have hroom := h.room hup
  have hbudget := sum_update (Proc.budget k) s.procs
    { (s.procs p).mark b false with logged := (s.cache.buf b).blockno :: (s.procs p).logged } hp
  have hold : (s.procs p).budget k = k - (s.procs p).logged.toFinset.card := if_pos ho
  have hnew : Proc.budget k { (s.procs p).mark b false with
      logged := (s.cache.buf b).blockno :: (s.procs p).logged } =
        k - (insert (s.cache.buf b).blockno (s.procs p).logged.toFinset).card := by
    rw [Proc.budget, if_pos (show ((s.procs p).mark b false).inOp = true from ho),
      List.toFinset_cons]
  have hle := card_le_card (subset_insert (s.cache.buf b).blockno (s.procs p).logged.toFinset)
  cases e with
  | tooBig hbig =>
    rw [hsize] at hbig
    simp only [LOGSIZE, MAXOPBLOCKS] at hroom hbig
    omega
  | outside => exact ⟨h.listed, h.room, nofun⟩
  | new _ _ hfresh =>
    have hnot : (s.cache.buf b).blockno ∉ (s.procs p).logged.toFinset := by
      intro hm
      obtain ⟨i, hi, e⟩ := h.listed hup p hp ho _ (List.mem_toFinset.1 hm)
      exact hfresh i hi e
    rw [card_insert_of_notMem hnot] at hnew hk
    refine ⟨fun _ q hq => ?_, fun _ => ?_, h.sound⟩
    · refine forall_update (F := fun q Q => q < cf.nproc → Q.inOp = true → ∀ m ∈ Q.logged,
        ∃ i, i < (s.log.lh.add (s.cache.buf b).blockno).n ∧
        (s.log.lh.add (s.cache.buf b).blockno).block i = m)
        (fun q hq h1 m hm => LogHeader.mem_add.2 (.inl (h.listed hup q hq h1 m hm))) ?_ q hq
      rintro - - m hm
      rcases List.mem_cons.1 hm with rfl | hm
      · exact LogHeader.mem_add.2 (.inr rfl)
      · exact LogHeader.mem_add.2 (.inl (h.listed hup p hp ho m hm))
    · refine le_trans (room_mono (d := 1) ?_ hbudget) hroom
      omega
  | old _ hlt hblk =>
    refine ⟨fun _ q hq => ?_, fun _ => ?_, h.sound⟩
    · refine forall_update (F := fun q Q => q < cf.nproc → Q.inOp = true → ∀ m ∈ Q.logged,
        ∃ i, i < s.log.lh.n ∧ s.log.lh.block i = m) (h.listed hup) ?_ q hq
      rintro - - m hm
      rcases List.mem_cons.1 hm with rfl | hm
      exacts [⟨_, hlt, hblk⟩, h.listed hup p hp ho m hm]
    · refine le_trans (room_mono (d := 0) ?_ hbudget) hroom
      omega

theorem Fits.run (hi : Inv False cf s) (hi' : Inv False cf s') (h : Fits (MAXOPBLOCKS - 1) cf s)
    (hpc : (s.procs p).pc = pc) (e : run cf s p pc = some s') : Fits (MAXOPBLOCKS - 1) cf s' := by
  by_cases hl : pc.loud = false
  · exact h.quiet (.run hl e)
  have hs := hi.stage p
  rw [hpc] at hs
  cases pc with
  | beginOp => exact h.beginOp hi hi' hpc e
  | commit =>
    simp only [Fs.run] at e
    split at e <;> cases e <;> exact h.turn rfl ⟨rfl, rfl⟩ rfl rfl rfl
  | logCopy | headFill | instCopy =>
    cases e
    exact h.turn rfl ⟨rfl, rfl⟩ rfl rfl rfl
  | endOp =>
    cases e
    exact Fits.wakeup (h.turn rfl ⟨rfl, rfl⟩ rfl rfl rfl)
  | clear r =>
    cases e
    have hm : (s.procs p).pc.mode = .ofRecovering r := by rw [hpc]; rfl
    refine .idle rfl (hi'.admits.count.symm.trans (hi.admits.closed ?_)) h.sound
    cases r with
    | true => exact .inr (hi.admits.recovers p hm).2
    | false => exact .inl (hi.admits.commits p hm).1
  | headRead b =>
    cases e
    have hup := (hi.admits.recovers p (by rw [hpc]; rfl)).2
    exact ⟨fun h1 => absurd (hup.symm.trans h1) (by simp), fun h1 => absurd (hup.symm.trans h1)
      (by simp), h.sound⟩
  | recovered =>
    cases e
    have hup := (hi.admits.recovers p (by rw [hpc]; rfl)).2
    exact .idle hs.1 (hi'.admits.count.symm.trans (hi.admits.closed (.inr hup))) h.sound
  | _ => exact absurd rfl hl

/-- **One step within the limit.** -/
theorem Fits.exec (hi : Inv False cf s) (hi' : Inv False cf s') (h : Fits (MAXOPBLOCKS - 1) cf s)
    (hsize : cf.size = LOGSIZE) (hw : s.Within (MAXOPBLOCKS - 1) a) (e : exec cf s a = some s') :
    Fits (MAXOPBLOCKS - 1) cf s' := by
  cases exec_cases e with
  | run _ e => exact h.run hi hi' rfl e
  | bread => exact h.quiet .bread
  | logWrite hc _ e => exact h.logWrite hsize hc hw e
  | store | bwrite | brelse | beginOp | wake => exact h.turn rfl ⟨rfl, rfl⟩ rfl rfl rfl
  | @endOp p hc ho =>
    obtain ⟨-, hup, hp, -⟩ := hc
    have hlisted : ∀ Q : Proc, Q.inOp = false → ∀ q < cf.nproc, (update s.procs p Q q).inOp = true →
        ∀ m ∈ (update s.procs p Q q).logged, ∃ i, i < s.log.lh.n ∧ s.log.lh.block i = m := by
      intro Q hQ q hq
      refine forall_update (F := fun q Q => q < cf.nproc → Q.inOp = true → ∀ m ∈ Q.logged,
        ∃ i, i < s.log.lh.n ∧ s.log.lh.block i = m) (h.listed hup) ?_ q hq
      exact fun _ h1 => absurd (hQ.symm.trans h1) (by simp)
    have hroom : ∀ Q : Proc, Q.inOp = false →
        s.log.lh.n + ∑ q ∈ Finset.range cf.nproc, (update s.procs p Q q).budget (MAXOPBLOCKS - 1) ≤
          LOGSIZE - 2 := by
      intro Q hQ
      have hQ0 : Q.budget (MAXOPBLOCKS - 1) = 0 := by rw [Proc.budget, hQ]; rfl
      refine le_trans (room_mono (d := 0) ?_ (sum_update (Proc.budget (MAXOPBLOCKS - 1)) s.procs Q
        hp)) (h.room hup)
      rw [hQ0]
      exact Nat.zero_le _
    simp only [endOp]
    rw [if_neg (by rw [hi.admits.inOp hp ho]; simp)]
    split
    · exact ⟨fun _ => hlisted _ rfl, fun _ => hroom _ rfl, h.sound⟩
    · exact Fits.wakeup ⟨fun _ => hlisted _ rfl, fun _ => hroom _ rfl, h.sound⟩
  | crash => exact ⟨(by rintro ⟨⟩), (by rintro ⟨⟩), (by rintro ⟨⟩)⟩

/-- **`log_write` never panics for want of room**, while every operation logs less than what
`begin_op` reserves for it. -/
theorem log_fits (cf : Conf) (hdev : cf.dev ≠ 0) (hsize : cf.size = LOGSIZE) (s : Sys)
    (h : ((system cf).restrict (Sys.Within (MAXOPBLOCKS - 1))).Reach s) :
    s.panicked ≠ some .tooBig := by
  have hfits : Fits (MAXOPBLOCKS - 1) cf s := by
    refine h.invariant (I := Fits (MAXOPBLOCKS - 1) cf) ?_ ?_
    · rintro s ⟨disk, -, rfl⟩
      exact ⟨nofun, nofun, nofun⟩
    · rintro s a s' hr h ⟨hw, e⟩
      exact h.exec (system_order hdev hr.of_restrict)
        (system_order hdev (hr.of_restrict.step e)) hsize hw e
  exact hfits.sound

/-- Steps within the limit, as a function. -/
def execWithin (k : Nat) (cf : Conf) (s : Sys) (a : Label) : Option Sys :=
  if s.Within k a then exec cf s a else none

theorem step_execWithin (s : Sys) (a : Label) (s' : Sys) (e : execWithin k cf s a = some s') :
    ((system cf).restrict (Sys.Within k)).step s a s' := Option.ite_none_right_eq_some.1 e

/-- A process reads a block, into this buffer, and logs it. -/
def readLog (p n b : Nat) : List Label := [.bread p n, .run p, .run p, .run p, .logWrite p b]

/-- Three operations begin, and log so many blocks each. -/
def threeOps (k : Nat) : List Label :=
  List.replicate 15 (.run 0) ++ [.beginOp 0, .run 0, .beginOp 1, .run 1, .beginOp 2, .run 2] ++
    (List.range (3 * k)).flatMap fun i => readLog (i / k) (40 + i) ((i + 1) % NBUF)

/-- Three operations log nine blocks each. -/
theorem log_fits_nine : ∃ s, ((system sampleConf).restrict (Sys.Within (MAXOPBLOCKS - 1))).Reach s ∧
    (s.log.lh.n = 27 ∧ s.log.outstanding = 3) ∧ s.panicked ≠ some .tooBig := by
  have h : ((system sampleConf).restrict (Sys.Within (MAXOPBLOCKS - 1))).Reach sampleBoot :=
    .init ⟨_, rfl, rfl⟩
  obtain ⟨s, hs, hP⟩ := h.play_any step_execWithin (l := threeOps 9)
    (P := fun s : Sys => decide (s.log.lh.n = 27 ∧ s.log.outstanding = 3)) (by decide +kernel)
  exact ⟨s, hs, of_decide_eq_true hP, log_fits sampleConf nofun rfl s hs⟩

/-- **`begin_op` reserves too little**: the last of three operations panics, though each of them
logs no more than `MAXOPBLOCKS` blocks. -/
theorem log_overflows : ∃ s, ((system sampleConf).restrict (Sys.Within MAXOPBLOCKS)).Reach s ∧
    s.panicked = some .tooBig := by
  have h : ((system sampleConf).restrict (Sys.Within MAXOPBLOCKS)).Reach sampleBoot :=
    .init ⟨_, rfl, rfl⟩
  obtain ⟨s, hs, hP⟩ := h.play_any step_execWithin (l := threeOps MAXOPBLOCKS)
    (P := fun s : Sys => decide (s.panicked = some .tooBig)) (by decide +kernel)
  exact ⟨s, hs, of_decide_eq_true hP⟩

end Xv6.Fs
