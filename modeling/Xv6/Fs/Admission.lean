import Xv6.Fs.Admit

/-!
# Fs/Admission — what the log and the cache guarantee

The invariant in every state that is reached, read as what users of `log.c` and `bio.c` rely on: who
may be in the log when, and that `bread` returns what was last stored.
-/

namespace Xv6.Fs

open Function List

variable {W : Prop} {cf : Conf} {s s' : Sys} {p q b n : Nat} {Q : Proc} {a : Label}

/-- **The invariant holds in every state**, and what it says of contents does in the runs for which
it says so. -/
theorem system_inv (hdev : cf.dev ≠ 0)
    (h : ((system cf).restrict fun s a => W → s.Settles a).Reach s) : Inv W cf s := by
  refine h.invariant (I := Inv W cf) ?_ ?_
  · rintro s ⟨disk, -, rfl⟩
    exact .boot hdev
  · intro s a s' _ h e
    exact h.exec hdev e.1 e.2

/-- …that is, but for contents, in every run. -/
theorem system_order (hdev : cf.dev ≠ 0) (h : (system cf).Reach s) : Inv False cf s :=
  system_inv hdev (h.restrict fun _ _ => False.elim)

/-! ## Sleeping in `begin_op` -/

/-- A process that sleeps in `begin_op` has somebody to wake it. -/
def Waits (s : Sys) : Prop :=
  ∀ p, (s.procs p).pc = .asleep → s.log.committing = true ∨ 1 ≤ s.log.outstanding

/-- A turn that does not end asleep, and does not close the log. -/
theorem Waits.turn (h : Waits s) (hprocs : s'.procs = update s.procs p Q) (hQ : Q.pc ≠ .asleep)
    (hc : s'.log.committing = s.log.committing)
    (ho : s.log.outstanding ≤ s'.log.outstanding) : Waits s' := by
  intro q hq
  rw [hprocs] at hq
  rw [hc]
  by_cases hqp : q = p
  · rw [hqp, update_self] at hq
    exact absurd hq hQ
  · rw [update_of_ne hqp] at hq
    exact (h q hq).imp_right fun h1 => h1.trans ho

theorem Waits.bread {next : Nat → Pc} (h : Waits s) : Waits (bread cf s p n next) := by
  unfold Fs.bread
  split
  · exact h.turn rfl nofun rfl le_rfl
  · exact h

theorem Pc.plain_ne {pc : Pc} (h : pc.plain = true) : pc ≠ .asleep := by
  rintro rfl
  cases h

/-- Nobody sleeps after `wakeup(&log)`. -/
theorem waits_wakeup (s : Sys) : Waits s.wakeup := by
  intro q hq
  by_cases he : (s.procs q).pc = .asleep
  · rw [show s.wakeup.procs q = { s.procs q with pc := .beginOp } from if_pos he] at hq
    cases hq
  · rw [show s.wakeup.procs q = s.procs q from if_neg he] at hq
    exact absurd hq he

theorem Waits.run {pc : Pc} (h : Waits s) (hi : Inv W cf s) (hpc : (s.procs p).pc = pc)
    (e : run cf s p pc = some s') : Waits s' := by
  have hs := hi.stage p
  rw [hpc] at hs
  cases pc with
  | user | asleep => cases e
  | lock b next =>
    obtain ⟨c, -, rfl⟩ := Option.map_eq_some_iff.1 e
    exact h.turn rfl (by simp) rfl le_rfl
  | fill b next =>
    cases e
    exact h.turn rfl (Pc.plain_ne hs.2.1) rfl le_rfl
  | rel b next =>
    cases e
    exact h.turn rfl (Pc.plain_ne hs.1) rfl le_rfl
  | beginOp =>
    simp only [Fs.run] at e
    have hsleep : s.log.committing = true ∨ 1 ≤ s.log.outstanding → Waits (s.setPc p .asleep) := by
      intro hw q hq
      exact hw
    split at e
    next hc =>
      cases e
      exact hsleep (.inl hc)
    next hc =>
      split at e <;> cases e
      next hn =>
        -- an empty log has room
        refine hsleep (.inr (Nat.pos_of_ne_zero fun h0 => ?_))
        have hup := (hi.admits.begins p (by rw [hpc]; rfl)).2
        rw [h0, hi.admits.empty hup (by simpa using hc) h0] at hn
        exact absurd hn (by decide)
      · exact h.turn rfl (by simp) rfl (Nat.le_succ _)
  | writeLog | install | commit =>
    simp only [Fs.run] at e
    split at e <;> cases e
    all_goals first | exact h.bread | exact h.turn rfl (by simp) rfl le_rfl
  | endOp =>
    cases e
    exact waits_wakeup _
  | instCopy r =>
    cases e
    exact h.turn rfl (by cases r <;> simp) rfl le_rfl
  | logFrom | writeHead | instHome | readHead =>
    cases e
    exact h.bread
  | _ =>
    cases e
    exact h.turn rfl (by simp) rfl le_rfl

theorem Waits.boot {disk base : Nat → Block} {groups : List (List Ev)} {returned : Nat} :
    Waits (boot disk base groups returned) := by
  intro q hq
  rw [show (Fs.boot _ _ _ _).procs q = if q = 0 then { pc := .readHead } else {} from rfl] at hq
  split at hq <;> cases hq

theorem Waits.exec (h : Waits s) (hi : Inv W cf s) (e : exec cf s a = some s') : Waits s' := by
  cases exec_cases e with
  | run _ e => exact h.run hi rfl e
  | bread => exact h.bread
  | store hc
  | bwrite hc => exact h.turn rfl (fun e => absurd (hc.2.2.2.symm.trans e) (by simp)) rfl le_rfl
  | logWrite hc _ e =>
    cases e with
    | tooBig | outside => exact h
    | new | old => exact h.turn rfl (fun e => absurd (hc.2.2.2.symm.trans e) (by simp)) rfl le_rfl
  | brelse | beginOp | wake => exact h.turn rfl (by simp) rfl le_rfl
  | endOp hc ho =>
    simp only [Fs.endOp]
    rw [if_neg (by rw [hi.admits.inOp hc.2.2.1 ho]; simp)]
    split
    · exact fun _ _ => .inl rfl
    · exact waits_wakeup _
  | crash => exact .boot

theorem system_waits (hdev : cf.dev ≠ 0) (h : (system cf).Reach s) : Waits s := by
  refine h.invariant (I := Waits) ?_ ?_
  · rintro s ⟨disk, -, rfl⟩
    exact .boot
  · intro s a s' hr h e
    exact h.exec (system_order hdev hr) e

/-! ## Who may be in the log when -/

/-- The block with this index has been installed. -/
def Pc.Installed (i : Nat) : Pc → Prop
  | .lock _ next | .fill _ next | .rel _ next | .writeHead next | .headFill _ next
  | .headRel _ next =>
    next.Installed i
  | .install false tail | .instHome false tail _ | .instCopy false tail ..
  | .instPin tail .. => i < tail
  | .instRel false tail .. | .instRelD false tail _ => i ≤ tail
  | .clear false => True
  | _ => False

theorem Pc.Stage.installed {L : Log} {i : Nat} {pc : Pc} (h : pc.Stage L) (hm : pc.mode = .commit)
    (hi : i < L.installed) (hn : i < L.lh.n) : pc.Installed i := by
  induction pc with
  | lock _ next ih | fill _ next ih | writeHead next ih | headFill _ next ih | headRel _ next ih =>
    exact ih h.2.2 hm
  | rel _ next ih => exact ih h.2 hm
  | install r | instHome r | instCopy r =>
    cases r with
    | true => cases hm
    | false => exact hi.trans_eq h.2
  | instPin => exact hi.trans_eq h.2
  | instRel r | instRelD r =>
    cases r with
    | true => cases hm
    | false => exact Nat.le_of_lt_succ (hi.trans_eq h.2)
  | clear r =>
    cases r with
    | true => cases hm
    | false => trivial
  | commit => exact absurd (hi.trans_eq h) (Nat.not_lt_zero i)
  | writeLog | logFrom | logCopy | logRel
  | logTo => exact absurd (hi.trans_eq h.2) (Nat.not_lt_zero i)
  | endOp => exact absurd (hn.trans_eq h.1) (Nat.not_lt_zero i)
  | _ => cases hm

/-- **What `begin_op`, `log_write` and `end_op` guarantee.** -/
structure Admission (cf : Conf) (s : Sys) : Prop where
  /-- While somebody commits, nobody is in an operation… -/
  quiet : s.log.committing = true → s.log.outstanding = 0 ∧ ∀ p < cf.nproc, (s.procs p).inOp = false
  /-- …`log_write` panics, if it is called all the same… -/
  noWrite : s.log.committing = true → ∀ p b s', exec cf s (.logWrite p b) = some s' →
    s'.log = s.log ∧ s'.panicked ≠ none
  /-- …and `end_op` does not find it so. -/
  noPanic : s.panicked ≠ some .committing
  /-- A log that nobody uses is empty. -/
  empty : s.up = true → s.log.outstanding = 0 → s.log.committing = false → s.log.lh.n = 0
  /-- No block is in the log twice. -/
  distinct : s.up = true → ∀ i < s.log.lh.n, ∀ j < s.log.lh.n,
    s.log.lh.block i = s.log.lh.block j → i = j
  /-- Each of them is in the cache to stay, until it is installed. -/
  pinned : s.up = true → ∀ i < s.log.lh.n,
    (∃ b, s.cache.Caches cf.dev b (s.log.lh.block i) ∧ 0 < (s.cache.buf b).refcnt) ∨
      ∃ p, (s.procs p).pc.Installed i
  /-- A process that sleeps in `begin_op` has somebody to wake it. -/
  waits : ∀ p, (s.procs p).pc = .asleep → s.log.committing = true ∨ 1 ≤ s.log.outstanding

/-- A block that is pinned stays in the cache. -/
theorem Inv.pinned_cached (h : Inv W cf s) (hn : pinned s.log n) :
    ∃ b, s.cache.Caches cf.dev b n ∧ 0 < (s.cache.buf b).refcnt := by
  obtain ⟨b, hb, -⟩ := h.users.ok.holds.pinned n hn
  refine ⟨b, hb, ?_⟩
  rw [h.users.ok.counted.pinned b n hb hn]
  exact Nat.succ_pos _

/-- **The log admits operations as it should**, in every state that is reached. -/
theorem log_admission (cf : Conf) (hdev : cf.dev ≠ 0) (s : Sys) (h : (system cf).Reach s) :
    Admission cf s := by
  have hi := system_order hdev h
  refine ⟨fun hc => ⟨hi.admits.closed (.inl hc), fun p hp => ?_⟩, fun hc p b s' e => ?_,
    hi.admits.sound, fun hup ho hc => hi.admits.empty hup hc ho, hi.admits.distinct,
    fun hup i hn => ?_, system_waits hdev h⟩
  · by_contra ho
    exact absurd ((hi.admits.inOp hp (by simpa using ho)).symm.trans hc) (by simp)
  · have h0 := hi.admits.closed (.inl hc)
    cases exec_cases e with | logWrite _ _ e =>
    cases e with
    | tooBig | outside => exact ⟨rfl, (by simp)⟩
    | new _ ho | old ho => omega
  · by_cases hin : s.log.installed ≤ i
    · exact .inl (hi.pinned_cached ⟨i, hin, hn, rfl⟩)
    · -- only a process that commits lets go of blocks
      have hc : s.log.committing = true := by
        by_contra hc
        have := hi.admits.fresh hup (by simpa using hc)
        omega
      obtain ⟨p, hp⟩ := hi.admits.commit hc
      exact .inr ⟨p, (hi.stage p).installed hp (Nat.lt_of_not_le hin) hn⟩

/-- A disk with an empty log, as `mkfs` makes it, and three processes. -/
def sampleConf : Conf := ⟨1, 2, LOGSIZE, 3⟩

/-- The machine starts there. -/
def sampleBoot : Sys := boot (fun _ _ => 0) (fun _ _ => 0) [] 0

theorem reach_sampleBoot : (system sampleConf).Reach sampleBoot := .init ⟨_, rfl, rfl⟩

/-- Recovery, and an operation that gets a buffer. -/
def sampleOp : List Label :=
  List.replicate 15 (.run 0) ++ [.beginOp 0, .run 0, .bread 0 40, .run 0, .run 0]

theorem log_admission_commit : ∃ s, (system sampleConf).Reach s ∧
    (s.up && s.log.committing && s.log.lh.n == 1) = true ∧ Admission sampleConf s := by
  obtain ⟨s, hs, hP⟩ := reach_sampleBoot.play_any (fun _ _ _ e => e)
    (l := sampleOp ++ [.run 0, .logWrite 0 1, .endOp 0])
    (P := fun s => s.up && s.log.committing && s.log.lh.n == 1) (by decide +kernel)
  exact ⟨s, hs, hP, log_admission sampleConf nofun s hs⟩

/-! ## What `bread` returns -/

/-- What a step may do to the names of buffers. -/
def Renames (cf : Conf) (c c' : Cache) : Prop :=
  c.SameNames c' ∨ ∃ n b, c.bget cf.dev n = some (b, c')

theorem renames_bread {next : Nat → Pc} : Renames cf s.cache (bread cf s p n next).cache := by
  unfold bread
  split
  next b c e => exact .inr ⟨n, b, e⟩
  next => exact .inl fun _ => ⟨rfl, rfl⟩

theorem renames_upd {c c' : Cache} {B : Buf} (hc : c'.buf = update c.buf b B)
    (hd : B.dev = (c.buf b).dev) (hn : B.blockno = (c.buf b).blockno) : Renames cf c c' := by
  refine .inl fun x => ?_
  rw [hc]
  by_cases e : x = b
  · rw [e, update_self]
    exact ⟨hd, hn⟩
  · rw [update_of_ne e]
    exact ⟨rfl, rfl⟩

theorem renames_run {pc : Pc} (e : run cf s p pc = some s') : Renames cf s.cache s'.cache := by
  cases pc with
  | user | asleep => cases e
  | lock b next =>
    obtain ⟨c, hc, rfl⟩ := Option.map_eq_some_iff.1 e
    rw [Cache.acquiresleep] at hc
    split at hc <;> cases hc
    exact renames_upd rfl rfl rfl
  | fill b next =>
    cases e
    show Renames cf s.cache (s.cache.fill b)
    rw [Cache.fill]
    split
    · exact .inl fun _ => ⟨rfl, rfl⟩
    · exact renames_upd rfl rfl rfl
  | beginOp =>
    simp only [Fs.run] at e
    split at e
    · cases e
      exact .inl fun _ => ⟨rfl, rfl⟩
    · split at e <;> cases e <;> exact .inl fun _ => ⟨rfl, rfl⟩
  | writeLog | install | commit =>
    simp only [Fs.run] at e
    split at e <;> cases e
    all_goals first | exact renames_bread | exact .inl fun _ => ⟨rfl, rfl⟩
  | logFrom | writeHead | instHome | readHead =>
    cases e
    exact renames_bread
  | rel | logRel | logTo | headRel | instRel | instRelD | logCopy | instCopy | headFill | instPin =>
    cases e
    exact renames_upd rfl rfl rfl
  | ret | clear | endOp | headRead | recovered =>
    cases e
    exact .inl fun _ => ⟨rfl, rfl⟩

/-- **Names change in `bget` only.** -/
theorem renames_exec (ha : a ≠ .crash) (e : exec cf s a = some s') :
    Renames cf s.cache s'.cache := by
  cases exec_cases e with
  | crash => exact absurd rfl ha
  | run _ e => exact renames_run e
  | bread => exact renames_bread
  | @store _ _ d => exact renames_upd rfl rfl rfl
  | brelse => exact renames_upd rfl rfl rfl
  | logWrite _ _ e =>
    cases e with
    | new => exact renames_upd rfl rfl rfl
    | tooBig | outside | old => exact .inl fun _ => ⟨rfl, rfl⟩
  | endOp =>
    simp only [endOp]
    split
    · exact .inl fun _ => ⟨rfl, rfl⟩
    split <;> exact .inl fun _ => ⟨rfl, rfl⟩
  | bwrite | beginOp | wake => exact .inl fun _ => ⟨rfl, rfl⟩

/-- **What `bio.c` guarantees.** -/
structure Coherence (cf : Conf) (s : Sys) : Prop where
  /-- The list has every buffer once… -/
  ring : ∃ l, s.cache.links.Linked NBUF l NBUF ∧ (NBUF :: l).Perm (List.range (NBUF + 1))
  /-- …and its links are inverse. -/
  inverse : ∀ b ≤ NBUF, s.cache.links.prev (s.cache.links.next b) = b ∧
    s.cache.links.next (s.cache.links.prev b) = b
  /-- A block is in one buffer at most. -/
  unique : ∀ a < NBUF, ∀ b < NBUF, (s.cache.buf a).dev ≠ 0 → (s.cache.buf a).dev =
    (s.cache.buf b).dev → (s.cache.buf a).blockno = (s.cache.buf b).blockno → a = b
  /-- A buffer that is recycled has no users, and was released before all others that have none. -/
  recycled : ∀ a s', a ≠ .crash → exec cf s a = some s' → ∀ b < NBUF,
    (s'.cache.buf b).dev ≠ (s.cache.buf b).dev ∨ (s'.cache.buf b).blockno ≠
    (s.cache.buf b).blockno →
      (s.cache.buf b).refcnt = 0 ∧
        ∀ a < NBUF, (s.cache.buf a).refcnt = 0 → s.cache.stamp b ≤ s.cache.stamp a
  /-- `bread` returns a buffer of the block, with what was last stored there… -/
  returns : ∀ p n b, (s.procs p).pc = .ret n b →
    s.cache.Caches cf.dev b n ∧ (s.cache.buf b).data = s.cache.val n
  /-- …and that is what its user sees until it is released. -/
  holds : ∀ p, ∀ x ∈ (s.procs p).held, (s.cache.buf x.b).data =
    s.cache.val (s.cache.buf x.b).blockno

/-- A buffer that is locked and has been read has what was last stored to its block. -/
theorem Inv.coherent (h : Inv W cf s) (hW : W) (hb : b ∈ (s.procs p).ready) :
    s.cache.Caches cf.dev b (s.cache.buf b).blockno ∧
      (s.cache.buf b).data = s.cache.val (s.cache.buf b).blockno := by
  have hc := h.users.cached ((s.procs p).locked_subset ((s.procs p).ready_subset hb))
  exact ⟨hc, h.users.ok.holds.coherent hW b _ hc (h.users.valid p b hb)⟩

/-- **The cache is coherent**, in every state that is reached by users who log or write what they
change. -/
theorem cache_coherent (cf : Conf) (hdev : cf.dev ≠ 0) (s : Sys)
    (h : ((system cf).restrict Sys.Settles).Reach s) : Coherence cf s := by
  have hi : Inv True cf s := system_inv hdev (h.mono fun _ _ e _ => e)
  obtain ⟨l, hr, hp, -⟩ := hi.users.ok.listed.ring
  have hmem : ∀ b ≤ NBUF, b ∈ NBUF :: l := by
    intro b hb
    rcases Nat.lt_or_eq_of_le hb with hb | rfl
    exacts [List.mem_cons_of_mem _ (hp.mem_iff.2 (List.mem_range.2 hb)), List.mem_cons_self ..]
  refine ⟨⟨l, hr.linked, ?_⟩, fun b hb => ⟨hr.linked.inverse.1 b (hmem b hb), ?_⟩,
    fun x hx y hy h0 hd hn => ?_, fun a s' ha e b hb hne => ?_, fun p n b hpc => ?_,
    fun p x hx => ?_⟩
  · rw [List.range_succ]
    exact (hp.cons NBUF).trans (List.perm_append_singleton ..).symm
  · exact hr.linked.inverse.2 b ((List.mem_cons.1 (hmem b hb)).symm)
  · have hcx : (s.cache.buf x).dev = cf.dev := by
      by_contra hne
      exact h0 (hi.users.ok.named.other x hx hne).1
    exact hi.users.ok.named.unique x y _ ⟨hx, hcx, rfl⟩ ⟨hy, hd.symm.trans hcx, hn.symm⟩
  · have hsame : ∀ {c' : Cache}, s.cache.SameNames c' →
        ¬ ((c'.buf b).dev ≠ (s.cache.buf b).dev ∨ (c'.buf b).blockno ≠ (s.cache.buf b).blockno) :=
      fun hs hne => hne.elim (fun hne => hne (hs b).1) fun hne => hne (hs b).2
    rcases renames_exec ha e with hs | ⟨n, x, e⟩
    · exact absurd hne (hsame hs)
    · rcases hi.users.ok.listed.bget e with ⟨-, hc⟩ | ⟨-, -, h0, hmin, hc⟩
      · exact absurd hne (hc ▸ hsame (s.cache.setRefcnt_names x _))
      · by_cases hbx : b = x
        · exact ⟨hbx ▸ h0, hbx ▸ hmin⟩
        · rw [hc, Cache.recycle_ne hbx] at hne
          exact absurd hne (hsame fun _ => ⟨rfl, rfl⟩)
  · have hb : b ∈ (s.procs p).ready := by
      rw [Proc.ready, hpc]
      exact List.mem_append_right _ (List.mem_cons_self ..)
    have hn : (s.cache.buf b).blockno = n :=
      hi.names p (b, n) (by rw [hpc]; exact List.mem_cons_self ..)
    exact hn ▸ hi.coherent trivial hb
  · exact (hi.coherent trivial (List.mem_append_left _ (List.mem_map_of_mem hx))).2

instance {s : Sys} : DecidablePred s.Settles
  | .brelse .. => inferInstanceAs (Decidable (_ ∉ _))
  | .run _ | .bread .. | .store .. | .logWrite .. | .bwrite .. | .beginOp _ | .endOp _ | .wake _
  | .crash =>
    .isTrue trivial

/-- A block that was changed, logged and released is read again. -/
theorem cache_coherent_read : ∃ s, ((system sampleConf).restrict Sys.Settles).Reach s ∧
    ((s.procs 0).pc = .ret 40 1 ∧ s.cache.val 40 0 = 7) ∧ Coherence sampleConf s := by
  have h : ((system sampleConf).restrict Sys.Settles).Reach sampleBoot := .init ⟨_, rfl, rfl⟩
  obtain ⟨s, hs, hP⟩ := h.play_guarded (f := exec sampleConf) (fun _ _ _ e => e)
    (l := sampleOp ++ [.run 0, .store 0 1 fun _ => 7, .logWrite 0 1, .brelse 0 1, .run 0,
      .bread 0 40, .run 0, .run 0])
    (P := fun s : Sys => decide ((s.procs 0).pc = .ret 40 1 ∧ s.cache.val 40 0 = 7))
    (by decide +kernel)
  exact ⟨s, hs, of_decide_eq_true hP, cache_coherent sampleConf nofun s hs⟩

end Xv6.Fs
