import Xv6.Fs.Users

/-!
# Fs/Admit — who is in the log

A process is about its own business, commits, or recovers (`Pc.mode`); program points in `log.c`
know the blocks of their buffers (`Pc.names`) and how far the log is (`Pc.Stage`).  `Inv` says so of
all processes, and that the counters of the log are right: it holds in every state that is reached.
-/

namespace Xv6.Fs

open Function List

/-! ## Program points -/

/-- What a process is about. -/
inductive Mode
  | user
  | commit
  | recover
  deriving DecidableEq

/-- `install_trans` is called by `commit` and by `recover_from_log`. -/
def Mode.ofRecovering (recovering : Bool) : Mode := if recovering then .recover else .commit

theorem Mode.ofRecovering_ne (r : Bool) : Mode.ofRecovering r ≠ .user := by cases r <;> nofun

namespace Pc

/-- What a process at this point is about. -/
def mode : Pc → Mode
  | .user | .ret .. | .beginOp | .asleep => .user
  | .lock _ next | .fill _ next | .rel _ next | .writeHead next | .headFill _ next
  | .headRel _ next =>
    next.mode
  | .commit | .writeLog _ | .logFrom .. | .logCopy .. | .logRel .. | .logTo .. | .instPin ..
  | .endOp => .commit
  | .install r _ | .instHome r .. | .instCopy r .. | .instRel r .. | .instRelD r .. | .clear r =>
    .ofRecovering r
  | .readHead | .headRead _ | .recovered => .recover

/-- Which buffer is for which block. -/
def names (cf : Conf) (lh : LogHeader) : Pc → List (Nat × Nat)
  | .ret n b => [(b, n)]
  | .logFrom tail b | .logTo tail b | .instHome _ tail b => [(b, cf.start + tail + 1)]
  | .logCopy tail a b | .logRel tail a b | .instCopy _ tail a b | .instPin tail a b
  | .instRel _ tail a b =>
    [(a, cf.start + tail + 1), (b, lh.block tail)]
  | .instRelD _ tail b => [(b, lh.block tail)]
  | .headFill b _ | .headRel b _ | .headRead b => [(b, cf.start)]
  | .lock _ next | .fill _ next | .rel _ next => next.names cf lh
  | _ => []

/-- The process is in `begin_op`. -/
def begins : Pc → Bool
  | .beginOp | .asleep => true
  | _ => false

/-- All buffers are locked here and have been read, and no more is known of them. -/
def plain : Pc → Bool
  | .lock .. | .fill .. | .rel .. | .instPin .. | .beginOp | .asleep => false
  | _ => true

/-- The points that go on after `write_head`. -/
def headed : Pc → Bool
  | .install _ 0 | .endOp | .recovered => true
  | _ => false

/-- How far the log is. -/
def Stage (L : Log) : Pc → Prop
  | .lock b next | .fill b next => b ∈ next.bufs ∧ next.plain = true ∧ next.Stage L
  | .rel _ next => next.plain = true ∧ next.Stage L
  | .writeHead next | .headFill _ next | .headRel _ next =>
    next.headed = true ∧ next.plain = true ∧ next.Stage L
  | .commit => L.installed = 0
  | .writeLog tail => tail ≤ L.lh.n ∧ L.installed = 0
  | .logFrom tail _ | .logCopy tail .. | .logRel tail ..
  | .logTo tail _ => tail < L.lh.n ∧ L.installed = 0
  | .install r tail => tail ≤ L.lh.n ∧ L.installed = if r then L.lh.n else tail
  | .instHome r tail _
  | .instCopy r tail .. => tail < L.lh.n ∧ L.installed = if r then L.lh.n else tail
  | .instPin tail .. => tail < L.lh.n ∧ L.installed = tail
  | .instRel r tail .. | .instRelD r tail _ =>
    tail < L.lh.n ∧ L.installed = if r then L.lh.n else tail + 1
  | .clear _ => L.installed = L.lh.n
  | .endOp | .readHead | .headRead _ | .recovered => L.lh.n = 0 ∧ L.installed = 0
  | .user | .ret .. | .beginOp | .asleep => True

/-- The block that `commit` is about to let go is on the disk. -/
def Copied (c : Cache) : Pc → Prop
  | .instPin _ _ b => (c.buf b).data = c.disk (c.buf b).blockno
  | _ => True

variable {cf : Conf} {L L' : Log} {lh lh' : LogHeader} {c c' : Cache} {pc : Pc}

section

variable (h : pc.plain = true)

include h

theorem locked_plain : pc.locked = pc.bufs := by
  cases pc <;> first | rfl | cases h

theorem ready_plain : pc.ready = pc.bufs := by
  cases pc <;> first | rfl | cases h

theorem copied_plain : pc.Copied c := by
  cases pc <;> trivial

theorem begins_plain : pc.begins ≠ true := by
  cases pc <;> simp_all [plain, begins]

end

theorem headed_bufs (h : pc.headed = true) : pc.bufs = [] := by
  cases pc <;> first | rfl | cases h

theorem names_bufs : ∀ pc : Pc, ∀ x ∈ pc.names cf lh, x.1 ∈ pc.bufs
  | .lock _ next, x, hx | .fill _ next, x, hx => names_bufs next x hx
  | .rel _ next, x, hx => mem_cons_of_mem _ (names_bufs next x hx)
  | .ret .., x, hx | .logFrom .., x, hx | .logTo .., x, hx | .instHome .., x, hx
  | .instRelD .., x, hx
  | .headFill .., x, hx | .headRel .., x, hx | .headRead .., x, hx | .logCopy .., x, hx
  | .logRel .., x, hx
  | .instCopy .., x, hx | .instPin .., x, hx | .instRel .., x, hx => by
    simp only [names, mem_cons, not_mem_nil, or_false] at hx
    simp only [bufs, mem_cons, not_mem_nil, or_false]
    rcases hx with rfl | rfl <;> simp

/-- Users know nothing of the log. -/
theorem names_user (h : pc.mode = .user) : pc.names cf lh' = pc.names cf lh := by
  induction pc with
  | lock _ next ih | fill _ next ih | rel _ next ih => exact ih h
  | instCopy r | instRel r | instRelD r => exact absurd h (Mode.ofRecovering_ne r)
  | _ => first | rfl | cases h

theorem stage_user (h : pc.mode = .user) (hs : pc.Stage L) : pc.Stage L' := by
  induction pc with
  | lock _ next ih | fill _ next ih | writeHead next ih | headFill _ next ih | headRel _ next ih =>
    exact ⟨hs.1, hs.2.1, ih h hs.2.2⟩
  | rel _ next ih => exact ⟨hs.1, ih h hs.2⟩
  | install r | instHome r | instCopy r | instRel r | instRelD r | clear r =>
    exact absurd h (Mode.ofRecovering_ne r)
  | _ => trivial

/-- The stage depends on how many blocks there are, and how many of them are let go. -/
theorem Stage.congr (hs : pc.Stage L) (hn : L'.lh.n = L.lh.n) (hi : L'.installed = L.installed) :
    pc.Stage L' := by
  induction pc with
  | lock _ next ih | fill _ next ih | writeHead next ih | headFill _ next ih | headRel _ next ih =>
    exact ⟨hs.1, hs.2.1, ih hs.2.2⟩
  | rel _ next ih => exact ⟨hs.1, ih hs.2⟩
  | user | ret | beginOp | asleep => trivial
  | _ => simpa only [Stage, hn, hi] using hs

theorem Copied.congr (h : pc.Copied c)
    (hd : ∀ b ∈ pc.locked, (c'.buf b).data = (c.buf b).data ∧
      c'.disk (c.buf b).blockno = c.disk (c.buf b).blockno)
    (hn : ∀ b ∈ pc.bufs, (c'.buf b).blockno = (c.buf b).blockno) : pc.Copied c' := by
  cases pc with
  | instPin tail a b =>
    have hb : b ∈ (Pc.instPin tail a b).locked := by simp [locked, bufs]
    have hd := hd b hb
    rw [Copied, hd.1, hn b hb, hd.2]
    exact h
  | _ => trivial

end Pc

/-! ## The invariant -/

/-- The blocks that the log has pinned. -/
def pinned (L : Log) (n : Nat) : Prop := ∃ i, L.installed ≤ i ∧ i < L.lh.n ∧ L.lh.block i = n

theorem pinned_empty {L : Log} (h : L.installed = L.lh.n) : pinned L = fun _ => False := by
  funext n
  refine propext (iff_of_false ?_ id)
  rintro ⟨i, h1, h2, -⟩
  omega

/-- How many processes are in an operation. -/
def inOps (N : Nat) (procs : Nat → Proc) : Nat := ∑ p ∈ Finset.range N, (procs p).inOp.toNat

theorem inOps_update {N p : Nat} {procs : Nat → Proc} {Q : Proc} (hp : p < N)
    (ho : Q.inOp = (procs p).inOp) : inOps N (update procs p Q) = inOps N procs := by
  have := sum_update (fun P => P.inOp.toNat) procs Q hp
  rw [ho] at this
  exact Nat.add_right_cancel this

/-- **The counters of the log are right.** -/
structure Admit (cf : Conf) (s : Sys) : Prop where
  count : s.log.outstanding = inOps cf.nproc s.procs
  closed : s.log.committing = true ∨ s.up = false → s.log.outstanding = 0
  begins : ∀ p, (s.procs p).pc.begins = true → (s.procs p).inOp = false ∧ s.up = true
  commits : ∀ p, (s.procs p).pc.mode = .commit → s.log.committing = true ∧ s.up = true
  unique : ∀ p q, (s.procs p).pc.mode = .commit → (s.procs q).pc.mode = .commit → p = q
  commit : s.log.committing = true → ∃ p, (s.procs p).pc.mode = .commit
  recovers : ∀ p, (s.procs p).pc.mode = .recover → p = 0 ∧ s.up = false
  empty : s.up = true → s.log.committing = false → s.log.outstanding = 0 → s.log.lh.n = 0
  fresh : s.up = true → s.log.committing = false → s.log.installed = 0
  distinct : s.up = true → ∀ i < s.log.lh.n, ∀ j < s.log.lh.n,
    s.log.lh.block i = s.log.lh.block j → i = j
  sound : s.panicked ≠ some .committing

/-- **What holds in every state.** -/
structure Inv (W : Prop) (cf : Conf) (s : Sys) : Prop where
  users : Users W cf (pinned s.log) s.cache s.procs
  names : ∀ p, ∀ x ∈ (s.procs p).pc.names cf s.log.lh, (s.cache.buf x.1).blockno = x.2
  copied : ∀ p, (s.procs p).pc.Copied s.cache
  stage : ∀ p, (s.procs p).pc.Stage s.log
  admits : Admit cf s

variable {W : Prop} {cf : Conf} {s s' : Sys} {p q b n : Nat} {Q : Proc} {a : Label}

/-- While one process is in the log, the others are about their own business. -/
theorem Admit.others (h : Admit cf s) (hp : (s.procs p).pc.mode ≠ .user) (hq : q ≠ p) :
    (s.procs q).pc.mode = .user := by
  cases hm : (s.procs q).pc.mode with
  | user => rfl
  | commit =>
    cases hm' : (s.procs p).pc.mode with
    | user => exact absurd hm' hp
    | commit => exact absurd (h.unique q p hm hm') hq
    | recover => exact absurd ((h.recovers p hm').2.symm.trans (h.commits q hm).2) (by simp)
  | recover =>
    cases hm' : (s.procs p).pc.mode with
    | user => exact absurd hm' hp
    | commit => exact absurd ((h.recovers q hm).2.symm.trans (h.commits p hm').2) (by simp)
    | recover => exact absurd ((h.recovers q hm).1.trans (h.recovers p hm').1.symm) hq

/-- …and so is it, once it leaves. -/
theorem Admit.leave (h : Admit cf s) (hp : (s.procs p).pc.mode ≠ .user) (q : Nat) :
    ((update s.procs p { s.procs p with pc := .user }) q).pc.mode = .user := by
  by_cases hq : q = p
  · rw [hq, update_self]
    rfl
  · rw [update_of_ne hq]
    exact h.others hp hq

/-- A process that is not in the log now. -/
theorem mode_update {procs : Nat → Proc} {m : Mode} (h : (update procs p Q q).pc.mode = m)
    (hQ : Q.pc.mode ≠ m) : (procs q).pc.mode = m := by
  by_cases hq : q = p
  · rw [hq, update_self] at h
    exact absurd h hQ
  · rwa [update_of_ne hq] at h

/-- While the log is open, all processes are. -/
theorem Admit.allUser (h : Admit cf s) (hup : s.up = true) (hcom : s.log.committing = false)
    (q : Nat) : (s.procs q).pc.mode = .user := by
  cases hm : (s.procs q).pc.mode with
  | user => rfl
  | commit => exact absurd ((h.commits q hm).1.symm.trans hcom) (by simp)
  | recover => exact absurd ((h.recovers q hm).2.symm.trans hup) (by simp)

/-- While a process is in an operation, nobody commits. -/
theorem Admit.inOp (h : Admit cf s) (hp : p < cf.nproc) (ho : (s.procs p).inOp = true) :
    s.log.committing = false := by
  by_contra e
  have h0 := h.count.symm.trans (h.closed (.inl (by simpa using e)))
  have := Finset.sum_eq_zero_iff.1 h0 p (Finset.mem_range.2 hp)
  rw [ho] at this
  cases this

/-- **A turn keeps the invariant**, if the process ends up where it should and the counters do. -/
theorem Inv.turn (h : Inv W cf s) (hprocs : s'.procs = update s.procs p Q)
    (T : Turn W cf (pinned s'.log) s.cache s'.cache s.procs p Q)
    (hother : ∀ q, q ≠ p → (s.procs q).pc.mode = .user ∨
      s'.log.lh = s.log.lh ∧ s'.log.installed = s.log.installed)
    (hn : ∀ x ∈ Q.pc.names cf s'.log.lh, (s'.cache.buf x.1).blockno = x.2)
    (hc : Q.pc.Copied s'.cache) (hs : Q.pc.Stage s'.log) (ha : Admit cf s') : Inv W cf s' := by
  have hbufs : ∀ q, ∀ b ∈ (s.procs q).pc.bufs, (s'.cache.buf b).blockno = (s.cache.buf b).blockno :=
    fun q b hb => T.names q b (mem_append_right _ hb)
  refine ⟨hprocs ▸ T.users, fun q => ?_, fun q => ?_, fun q => ?_, ha⟩
  all_goals
    rw [hprocs]
    by_cases hq : q = p
  · subst hq
    rwa [update_self]
  · rw [update_of_ne hq]
    have hl : (s.procs q).pc.names cf s'.log.lh = (s.procs q).pc.names cf s.log.lh := by
      rcases hother q hq with hm | hl
      exacts [Pc.names_user hm, by rw [hl.1]]
    rw [hl]
    intro x hx
    rw [hbufs q x.1 (Pc.names_bufs _ x hx)]
    exact h.names q x hx
  · subst hq
    rwa [update_self]
  · rw [update_of_ne hq]
    exact (h.copied q).congr (fun b hb => T.data q b (mem_append_right _ hb) hq) (hbufs q)
  · subst hq
    rwa [update_self]
  · rw [update_of_ne hq]
    rcases hother q hq with hm | hl
    exacts [Pc.stage_user hm (h.stage q), (h.stage q).congr (by rw [hl.1]) hl.2]

theorem Admit.begins_update (h : Admit cf s)
    (hQ : Q.pc.begins = true → Q.inOp = false ∧ s.up = true) (q : Nat) :
    (update s.procs p Q q).pc.begins = true →
      (update s.procs p Q q).inOp = false ∧ s.up = true :=
  forall_update (F := fun _ Q => Q.pc.begins = true → Q.inOp = false ∧ s.up = true) h.begins hQ q

/-- The counters after a turn of a process that stays what it is about. -/
theorem Admit.turn (h : Admit cf s) (hp : p < cf.nproc) (hprocs : s'.procs = update s.procs p Q)
    (hup : s'.up = s.up) (hpan : s'.panicked = s.panicked) (hm : Q.pc.mode = (s.procs p).pc.mode)
    (ho : Q.inOp = (s.procs p).inOp) (hbeg : Q.pc.begins = true → Q.inOp = false ∧ s.up = true)
    (hout : s'.log.outstanding = s.log.outstanding)
    (hcom : s'.log.committing = s.log.committing)
    (hlog : s'.log = s.log ∨ (s.procs p).pc.mode = .recover ∨ (s.procs p).pc.mode = .commit ∧
      s'.log.lh.n ≤ s.log.lh.n ∧ s'.log.lh.block = s.log.lh.block) : Admit cf s' := by
  have hmode : ∀ q, (s'.procs q).pc.mode = (s.procs q).pc.mode := by
    rw [hprocs]
    exact forall_update (F := fun q Q => Q.pc.mode = (s.procs q).pc.mode) (fun _ => rfl) hm
  have hcount : inOps cf.nproc s'.procs = inOps cf.nproc s.procs := by
    rw [hprocs]
    exact inOps_update hp ho
  -- only recovery and a commit write the log
  have hsame : s.up = true → s.log.committing = false → s'.log = s.log := by
    intro h1 h2
    rcases hlog with e | hr | ⟨hc, -⟩
    · exact e
    · exact absurd (h1.symm.trans (h.recovers p hr).2) nofun
    · exact absurd ((h.commits p hc).1.symm.trans h2) nofun
  refine ⟨by rw [hout, hcount, h.count], by rw [hcom, hout, hup]; exact h.closed, ?_,
    fun q hq => ?_, fun q r hq hr => h.unique q r (hmode q ▸ hq) (hmode r ▸ hr), fun hc => ?_,
    fun q hq => ?_, fun h1 h2 h3 => ?_, fun h1 h2 => ?_, fun h1 i hi j hj e => ?_, hpan ▸ h.sound⟩
  · rw [hprocs, hup]
    exact h.begins_update hbeg
  · rw [hcom, hup]
    exact h.commits q (hmode q ▸ hq)
  · obtain ⟨q, hq⟩ := h.commit (hcom ▸ hc)
    exact ⟨q, (hmode q).trans hq⟩
  · rw [hup]
    exact h.recovers q (hmode q ▸ hq)
  · rw [hup] at h1
    rw [hcom] at h2
    rw [hout] at h3
    rw [hsame h1 h2]
    exact h.empty h1 h2 h3
  · rw [hup] at h1
    rw [hcom] at h2
    rw [hsame h1 h2]
    exact h.fresh h1 h2
  · rw [hup] at h1
    rcases hlog with he | hr | ⟨-, hn, hb⟩
    · rw [he] at hi hj e
      exact h.distinct h1 i hi j hj e
    · exact absurd (h1.symm.trans (h.recovers p hr).2) nofun
    · rw [hb] at e
      exact h.distinct h1 i (hi.trans_le hn) j (hj.trans_le hn) e

/-! ## Processes on their way -/

section

variable {pc pc' : Pc} {c' : Cache}

/-- A process goes from one program point to the next. -/
def Proc.goto (P : Proc) (pc : Pc) : Proc := { P with pc := pc }

section

variable (h : Inv W cf s)

include h

/-- **On the way through `log.c`**: the log stays as it is. -/
theorem Inv.goto (hp : p < cf.nproc) (hpc : (s.procs p).pc = pc)
    (hprocs : s'.procs = update s.procs p ((s.procs p).goto pc'))
    (T : Turn W cf (pinned s.log) s.cache s'.cache s.procs p ((s.procs p).goto pc'))
    (hlog : s'.log = s.log) (hup : s'.up = s.up) (hpan : s'.panicked = s.panicked)
    (hm : pc'.mode = pc.mode) (hbeg : pc'.begins = true → (s.procs p).inOp = false ∧ s.up = true)
    (hn : pc'.names cf s.log.lh ⊆ pc.names cf s.log.lh) (hc : pc'.Copied s'.cache)
    (hs : pc'.Stage s.log) : Inv W cf s' := by
  subst hpc
  refine h.turn hprocs (hlog ▸ T) (fun q _ => .inr (by rw [hlog]; exact ⟨rfl, rfl⟩))
    (fun x hx => ?_) hc (hlog ▸ hs) (h.admits.turn hp hprocs hup hpan hm rfl hbeg (by rw [hlog])
    (by rw [hlog]) (.inl hlog))
  rw [hlog] at hx
  rw [T.names p x.1 (mem_append_right _ (Pc.names_bufs _ x (hn hx)))]
  exact h.names p x (hn hx)

/-- A panic but one. -/
theorem Inv.panic {x : Panic} (hx : x ≠ .committing) : Inv W cf { s with panicked := some x } :=
  { h with admits := { h.admits with sound := fun e => hx (Option.some.inj e) } }

/-- `bread` in `log.c`. -/
theorem Inv.bread {next : Nat → Pc} (hp : p < cf.nproc) (hpc : (s.procs p).pc = pc)
    (hs : ∀ b, (next b).Stage s.log) (hpl : pc.plain = true) (hnp : ∀ b, (next b).plain = true)
    (hm : ∀ b, (next b).mode = pc.mode) (hb : ∀ b, (next b).bufs.Perm (b :: pc.bufs))
    (hn : ∀ b, ∀ x ∈ (next b).names cf s.log.lh, x = (b, n) ∨ x ∈ pc.names cf s.log.lh) :
    Inv W cf (bread cf s p n next) := by
  subst hpc
  unfold Fs.bread
  split
  next b c e =>
    have hlock : (Pc.lock b (next b)).locked.Perm (s.procs p).pc.bufs := by
      have := (hb b).erase b
      rwa [erase_cons_head] at this
    obtain ⟨T, G⟩ := h.users.bget (Q := (s.procs p).goto (.lock b (next b))) hp e
      (((hb b).append_left _).trans perm_middle)
      (by rw [Proc.locked, Proc.locked, Pc.locked_plain hpl]; exact hlock.append_left _)
      (by rw [Proc.ready, Proc.ready, Pc.ready_plain hpl]; exact (hlock.append_left _).subset) rfl
    refine h.turn rfl T (fun q _ => .inr ⟨rfl, rfl⟩) (fun x hx => ?_) trivial
      ⟨(hb b).mem_iff.2 (mem_cons_self ..), hnp b, hs b⟩
      (h.admits.turn hp rfl rfl rfl (hm b) rfl (by rintro ⟨⟩) rfl rfl (.inl rfl))
    rcases hn b x hx with rfl | hx
    · exact G.caches.2.2
    · exact (T.names p x.1 (mem_append_right _ (Pc.names_bufs _ x hx))).trans (h.names p x hx)
  next => exact h.panic (by simp)

/-- …without a look at the cache. -/
theorem Inv.pass (hpc : (s.procs p).pc = pc) (hb : Q.pc.bufs = pc.bufs)
    (hl : Q.pc.locked = pc.locked) (hr : Q.pc.ready = pc.ready) (hh : Q.held = (s.procs p).held) :
    Turn W cf (pinned s.log) s.cache s.cache s.procs p Q := by
  subst hpc
  refine h.users.stay ?_ ?_ ?_ fun a => by rw [changed_update hh]
  · rw [Proc.refs, Proc.refs, hb, hh]
  · rw [Proc.locked, Proc.locked, hl, hh]
  · rw [Proc.ready, Proc.ready, hr, hh]
    exact List.Subset.refl _

section

variable (hp : p < cf.nproc)

include hp

/-- …and with the log as it is. -/
theorem Inv.skip {d : Nat} (hpc : (s.procs p).pc = pc) (hs : pc'.Stage s.log)
    (hbeg : pc'.begins = true → (s.procs p).inOp = false ∧ s.up = true)
    (hb : pc'.bufs = pc.bufs) (hl : pc'.locked = pc.locked) (hr : pc'.ready = pc.ready)
    (hm : pc'.mode = pc.mode) (hn : pc'.names cf s.log.lh = []) (hc : pc'.Copied s.cache) :
    Inv W cf ({ s with durable := d }.setPc p pc') :=
  h.goto hp hpc rfl (h.pass (Q := (s.procs p).goto pc') hpc hb hl hr rfl) rfl rfl rfl hm hbeg
    (by rw [hn]; nofun) hc hs

/-- `acquiresleep` in `bget`. -/
theorem Inv.lock {next : Pc} (hpc : (s.procs p).pc = .lock b next)
    (e : s.cache.acquiresleep b p = some c') :
    Inv W cf ({ s with cache := c' }.setPc p (.fill b next)) := by
  have hs := h.stage p
  rw [hpc] at hs
  have hl : next.bufs.Perm (b :: next.bufs.erase b) := perm_cons_erase hs.1
  refine h.goto hp hpc rfl (h.users.acquiresleep hp e ?_ ?_ ?_ rfl) rfl rfl rfl rfl nofun
    (List.Subset.refl _) trivial hs
  · rw [Proc.refs, Proc.refs, hpc]
    exact .refl _
  · rw [Proc.locked, Proc.locked, hpc]
    exact (hl.append_left _).trans perm_middle
  · rw [Proc.ready, Proc.ready, hpc]
    exact List.Subset.refl _

/-- `virtio_disk_rw` in `bread`. -/
theorem Inv.fill {next : Pc} (hpc : (s.procs p).pc = .fill b next) :
    Inv W cf ({ s with cache := s.cache.fill b }.setPc p next) := by
  have hs := h.stage p
  rw [hpc] at hs
  obtain ⟨hb, hpl, hs⟩ := hs
  refine h.goto hp hpc rfl (h.users.fill ?_ ?_ ?_ (fun a ha => ?_) rfl) rfl rfl rfl rfl
    (fun e => absurd e (Pc.begins_plain hpl)) (List.Subset.refl _) (Pc.copied_plain hpl) hs
  · rw [Proc.locked, hpc]
    exact mem_append_right _ hb
  · rw [Proc.refs, Proc.refs, hpc]
    exact .refl _
  · rw [Proc.locked, Proc.locked, hpc]
    exact .of_eq (congrArg _ (Pc.locked_plain hpl))
  · rw [Proc.ready, hpc, mem_append]
    rcases mem_append.1 ha with ha | ha
    · exact .inl (.inl ha)
    · have ha : a ∈ next.bufs := by rw [← Pc.ready_plain hpl]; exact ha
      by_cases hab : a = b
      · exact .inr hab
      · exact .inl (.inr ((mem_erase_of_ne hab).2 ha))

/-- The end of `brelse`. -/
theorem Inv.rel {next : Pc} (hpc : (s.procs p).pc = .rel b next) :
    Inv W cf ({ s with cache := s.cache.brelse b }.setPc p next) := by
  have hs := h.stage p
  rw [hpc] at hs
  refine h.goto hp hpc rfl (h.users.brelse ?_ ?_ ?_ rfl) rfl rfl rfl rfl
    (fun e => absurd e (Pc.begins_plain hs.1)) (List.Subset.refl _) (Pc.copied_plain hs.1) hs.2
  · rw [Proc.refs, Proc.refs, hpc]
    exact perm_middle
  · rw [Proc.locked, Proc.locked, hpc]
    exact .of_eq (congrArg _ (Pc.locked_plain hs.1))
  · rw [Proc.ready, Proc.ready, hpc]
    exact (List.Perm.of_eq (congrArg _ (Pc.ready_plain hs.1))).subset

/-- `releasesleep` in `brelse`, called in `log.c`. -/
theorem Inv.unlock {next : Pc} (hpc : (s.procs p).pc = pc)
    (hpl : pc.plain = true) (hb : pc.bufs.Perm (b :: next.bufs)) (hnp : next.plain = true)
    (hm : next.mode = pc.mode) (hn : next.names cf s.log.lh ⊆ pc.names cf s.log.lh)
    (hs : next.Stage s.log) :
    Inv W cf ({ s with cache := s.cache.releasesleep b }.setPc p (.rel b next)) := by
  subst hpc
  refine h.goto hp rfl rfl (h.users.releasesleep hp (hb.symm.append_left _) ?_ ?_ (fun _ => id)
    fun _ _ => id) rfl rfl rfl hm nofun hn trivial ⟨hnp, hs⟩
  · rw [Proc.locked, Pc.locked_plain hpl]
    exact (hb.append_left _).trans perm_middle
  · rw [Proc.ready, Proc.ready, Pc.ready_plain hpl]
    refine (append_subset.2 ⟨subset_append_left _ _, fun a ha => ?_⟩)
    exact mem_append_right _ (hb.mem_iff.2 (mem_cons_of_mem _ ha))

/-- `memmove` and `bwrite` in `log.c`. -/
theorem Inv.copy {d : Block} (hpc : (s.procs p).pc = pc)
    (hb : b ∈ pc.bufs) (hcache : s'.cache = (s.cache.store b d).bwrite b)
    (hprocs : s'.procs = update s.procs p ((s.procs p).goto pc')) (hs : pc'.Stage s.log)
    (hc : pc'.Copied ((s.cache.store b d).bwrite b)) (hlog : s'.log = s.log) (hup : s'.up = s.up)
    (hpan : s'.panicked = s.panicked) (hpl : pc.plain = true) (hbufs : pc'.bufs = pc.bufs)
    (hpl' : pc'.locked = pc'.bufs ∧ pc'.ready = pc'.bufs) (hm : pc'.mode = pc.mode)
    (hbeg : pc'.begins ≠ true) (hn : pc'.names cf s.log.lh = pc.names cf s.log.lh) :
    Inv W cf s' := by
  subst hpc
  refine h.goto hp rfl hprocs (hcache ▸ h.users.copy ?_ ⟨congrArg (_ ++ ·) hbufs, ?_, ?_⟩ rfl) hlog
    hup hpan hm (fun e => absurd e hbeg) (by rw [hn]; exact List.Subset.refl _) (hcache ▸ hc) hs
  · rw [Proc.ready, Pc.ready_plain hpl]
    exact mem_append_right _ hb
  · rw [Proc.locked, Proc.locked, Pc.locked_plain hpl]
    exact congrArg _ (hpl'.1.trans hbufs)
  · rw [Proc.ready, Proc.ready, Pc.ready_plain hpl]
    exact congrArg _ (hpl'.2.trans hbufs)

end

end

end

/-! ## The steps -/

/-- Processes wake up. -/
theorem Inv.rouse {procs : Nat → Proc} (h : Inv W cf s) (hq : ∀ q, procs q = s.procs q ∨
    (s.procs q).pc = .asleep ∧ procs q = (s.procs q).goto .beginOp) :
    Inv W cf { s with procs := procs } := by
  have hheld : ∀ q, (procs q).held = (s.procs q).held ∧
      (procs q).inOp = (s.procs q).inOp := by
    intro q
    rcases hq q with e | ⟨-, e⟩ <;> rw [e] <;> exact ⟨rfl, rfl⟩
  have hpc : ∀ q, (procs q).pc.bufs = (s.procs q).pc.bufs ∧
      (procs q).pc.locked = (s.procs q).pc.locked ∧
      (procs q).pc.ready = (s.procs q).pc.ready ∧
      (procs q).pc.mode = (s.procs q).pc.mode ∧
      (procs q).pc.begins = (s.procs q).pc.begins := by
    intro q
    rcases hq q with e | ⟨he, e⟩ <;> rw [e]
    · exact ⟨rfl, rfl, rfl, rfl, rfl⟩
    · rw [he]
      exact ⟨rfl, rfl, rfl, rfl, rfl⟩
  refine ⟨h.users.move (fun q => ?_) (fun q => ?_) (fun q => ?_) fun b => ?_, fun q => ?_,
    fun q => ?_, fun q => ?_, { h.admits with
      count := ?_
      begins := fun q hb => ?_
      commits := fun q hm => h.admits.commits q ((hpc q).2.2.2.1 ▸ hm)
      unique := fun q r hm hr => h.admits.unique q r ((hpc q).2.2.2.1 ▸ hm) ((hpc r).2.2.2.1 ▸ hr)
      commit := fun hc => (h.admits.commit hc).imp fun q hm => (hpc q).2.2.2.1.trans hm
      recovers := fun q hm => h.admits.recovers q ((hpc q).2.2.2.1 ▸ hm) }⟩
  · rw [Proc.refs, Proc.refs, (hheld q).1, (hpc q).1]
  · rw [Proc.locked, Proc.locked, (hheld q).1, (hpc q).2.1]
  · rw [Proc.ready, Proc.ready, (hheld q).1, (hpc q).2.2.1]
    exact List.Subset.refl _
  · exact exists_congr fun q => by rw [(hheld q).1]
  · dsimp only
    rcases hq q with e | ⟨-, e⟩ <;> rw [e]
    exacts [h.names q, (by rintro _ ⟨⟩)]
  · dsimp only
    rcases hq q with e | ⟨-, e⟩ <;> rw [e]
    exacts [h.copied q, trivial]
  · dsimp only
    rcases hq q with e | ⟨-, e⟩ <;> rw [e]
    exacts [h.stage q, trivial]
  · refine h.admits.count.trans (Finset.sum_congr rfl fun q _ => ?_)
    rw [(hheld q).2]
  · rw [(hheld q).2]
    exact h.admits.begins q ((hpc q).2.2.2.2 ▸ hb)

/-- `wakeup(&log)` is of no consequence. -/
theorem Inv.wakeup (h : Inv W cf s) : Inv W cf s.wakeup := by
  refine h.rouse fun q => ?_
  by_cases he : (s.procs q).pc = .asleep
  · exact .inr ⟨he, if_pos he⟩
  · exact .inl (if_neg he)

/-- **One step in `log.c` or `bio.c`.** -/
theorem Inv.run {pc : Pc} (h : Inv W cf s) (hp : p < cf.nproc) (hpc : (s.procs p).pc = pc)
    (e : run cf s p pc = some s') : Inv W cf s' := by
  have hs := h.stage p
  rw [hpc] at hs
  cases pc with
  | user | asleep => cases e
  | ret n b =>
    cases e
    have T : Turn W cf (pinned s.log) s.cache s.cache s.procs p
        { s.procs p with pc := .user, held := ⟨b, false⟩ :: (s.procs p).held } := by
      have hperm : ((b :: (s.procs p).held.map Hold.b) ++ []).Perm
          ((s.procs p).held.map Hold.b ++ [b]) := by
        rw [append_nil]
        exact (perm_append_singleton ..).symm
      refine h.users.stay ?_ ?_ ?_ fun a => changed_iff ?_
      · rw [Proc.refs, Proc.refs, hpc]
        exact hperm
      · rw [Proc.locked, Proc.locked, hpc]
        exact hperm
      · rw [Proc.ready, Proc.ready, hpc]
        exact hperm.subset
      · simp
    exact h.turn rfl T (fun q _ => .inr ⟨rfl, rfl⟩) (by rintro _ ⟨⟩) trivial trivial
      (h.admits.turn hp rfl rfl rfl (by rw [hpc]; rfl) rfl (by rintro ⟨⟩) rfl rfl (.inl rfl))
  | lock b next =>
    obtain ⟨c, hc, rfl⟩ := Option.map_eq_some_iff.1 e
    exact h.lock hp hpc hc
  | fill b next =>
    cases e
    exact h.fill hp hpc
  | rel b next =>
    cases e
    exact h.rel hp hpc
  | beginOp =>
    have ho := h.admits.begins p (by rw [hpc]; rfl)
    simp only [Fs.run] at e
    split at e
    · cases e
      exact h.skip hp hpc trivial (fun _ => ho) rfl rfl rfl rfl rfl trivial
    split at e <;> cases e
    · exact h.skip hp hpc trivial (fun _ => ho) rfl rfl rfl rfl rfl trivial
    next hc hn =>
      refine h.turn rfl (h.pass hpc rfl rfl rfl rfl) (fun q _ => .inr ⟨rfl, rfl⟩)
        (by rintro _ ⟨⟩) trivial trivial { h.admits with
          count := ?_
          closed := fun e => ?_
          begins := h.admits.begins_update (by rintro ⟨⟩)
          commits := fun q hq => h.admits.commits q (mode_update hq (by rintro ⟨⟩))
          unique := fun q r hq hr => h.admits.unique q r (mode_update hq (by rintro ⟨⟩))
            (mode_update hr (by rintro ⟨⟩))
          commit := fun e => absurd e hc
          recovers := fun q hq => h.admits.recovers q (mode_update hq (by rintro ⟨⟩))
          empty := by rintro _ _ ⟨⟩ }
      · have := sum_update (fun P => P.inOp.toNat) s.procs
          { s.procs p with pc := .user, inOp := true, logged := [] } hp
        rw [ho.1] at this
        show s.log.outstanding + 1 = _
        rw [h.admits.count]
        exact this.symm
      · exact absurd (ho.2.symm.trans (e.resolve_left hc)) (by simp)
  | commit =>
    simp only [Fs.run] at e
    split at e <;> cases e
    · exact h.skip hp hpc ⟨Nat.zero_le _, hs⟩ (by rintro ⟨⟩) rfl rfl rfl rfl rfl trivial
    next hn => exact h.skip hp hpc ⟨by omega, hs⟩ (by rintro ⟨⟩) rfl rfl rfl rfl rfl trivial
  | writeLog tail =>
    simp only [Fs.run] at e
    split at e <;> cases e
    next ht =>
      exact h.bread hp hpc (fun _ => ⟨ht, hs.2⟩) rfl (fun _ => rfl) (fun _ => rfl)
        (fun _ => .refl _) fun _ _ hx => .inl (mem_singleton.1 hx)
    · exact h.skip hp hpc ⟨rfl, rfl, Nat.zero_le _, hs.2⟩ (by rintro ⟨⟩) rfl rfl rfl rfl rfl trivial
  | logFrom | instHome =>
    cases e
    refine h.bread hp hpc (fun _ => hs) rfl (fun _ => rfl) (fun _ => rfl)
      (fun _ => .swap ..) fun b x hx => ?_
    exact (mem_pair.1 hx).symm.imp_right fun e => by rw [e]; exact mem_cons_self ..
  | logCopy | headFill =>
    cases e
    exact h.copy hp hpc (mem_cons_self ..) rfl rfl hs trivial rfl rfl rfl rfl rfl ⟨rfl, rfl⟩ rfl
      (by rintro ⟨⟩) rfl
  | logRel tail tb fb =>
    cases e
    exact h.unlock hp hpc rfl (.swap ..) rfl rfl (by simp [Pc.names]) hs
  | logTo | instRelD =>
    cases e
    exact h.unlock hp hpc rfl (.refl _) rfl rfl (by rintro _ ⟨⟩) ⟨hs.1, hs.2⟩
  | writeHead | readHead =>
    cases e
    exact h.bread hp hpc (fun _ => hs) rfl (fun _ => rfl) (fun _ => rfl) (fun _ => .refl _)
      fun _ _ hx => .inl (mem_singleton.1 hx)
  | headRel b next =>
    cases e
    refine h.unlock hp hpc rfl (by rw [Pc.headed_bufs hs.1]; exact .refl _) hs.2.1 rfl
      (fun x hx => ?_) hs.2.2
    have := Pc.names_bufs _ x hx
    rw [Pc.headed_bufs hs.1] at this
    cases this
  | install r tail =>
    simp only [Fs.run] at e
    split at e <;> cases e
    next ht =>
      exact h.bread hp hpc (fun _ => ⟨ht, hs.2⟩) rfl (fun _ => rfl) (fun _ => rfl)
        (fun _ => .refl _) fun _ _ hx => .inl (mem_singleton.1 hx)
    next ht =>
      refine h.skip hp hpc ?_ (by rintro ⟨⟩) rfl rfl rfl rfl rfl trivial
      have h2 := hs.2
      split at h2
      · exact h2
      · exact h2.trans (le_antisymm hs.1 (Nat.le_of_not_lt ht))
  | instCopy r tail lbuf dbuf =>
    cases e
    have hd : dbuf ∈ (Pc.instCopy r tail lbuf dbuf).bufs := mem_cons_of_mem _ (mem_cons_self ..)
    cases r with
    | true =>
      exact h.copy hp hpc hd rfl rfl hs trivial rfl rfl rfl rfl rfl ⟨rfl, rfl⟩ rfl
        (by rintro ⟨⟩) rfl
    | false =>
      exact h.copy hp hpc hd rfl rfl hs (by simp [Pc.Copied, Cache.bwrite]) rfl rfl rfl rfl rfl
        ⟨rfl, rfl⟩ rfl (by rintro ⟨⟩) rfl
  | instPin tail lbuf dbuf =>
    cases e
    have hup := (h.admits.commits p (by rw [hpc]; rfl)).2
    have hd : (s.cache.buf dbuf).blockno = s.log.lh.block tail :=
      h.names p (dbuf, _) (by rw [hpc]; exact mem_cons_of_mem _ (mem_cons_self ..))
    have hc := h.copied p
    rw [hpc] at hc
    have hpin : ∀ m, pinned { s.log with installed := s.log.installed + 1 } m ↔
        pinned s.log m ∧ m ≠ (s.cache.buf dbuf).blockno := by
      intro m
      rw [hd]
      constructor
      · rintro ⟨i, h1, h2, rfl⟩
        refine ⟨⟨i, Nat.le_of_succ_le h1, h2, rfl⟩, fun e => ?_⟩
        have := h.admits.distinct hup i h2 tail hs.1 e
        have := hs.2
        simp only at h1
        omega
      · rintro ⟨⟨i, h1, h2, rfl⟩, hne⟩
        refine ⟨i, Nat.lt_of_le_of_ne h1 fun e => hne ?_, h2, rfl⟩
        rw [← e, hs.2]
    have T : Turn W cf (pinned { s.log with installed := s.log.installed + 1 }) s.cache
        (s.cache.bunpin dbuf) s.procs p ((s.procs p).goto (.instRel false tail lbuf dbuf)) := by
      refine h.users.bunpin ?_ ⟨tail, hs.2.le, hs.1, hd.symm⟩ hpin hc ?_ rfl
      · rw [Proc.ready, hpc]
        exact mem_append_right _ (mem_cons_of_mem _ (mem_cons_self ..))
      · constructor <;> simp only [Proc.refs, Proc.locked, Proc.ready, hpc] <;> rfl
    refine h.turn rfl T (fun q hq => .inl (h.admits.others (by rw [hpc]; rintro ⟨⟩) hq))
      (fun x hx => ?_) trivial ⟨hs.1, congrArg (· + 1) hs.2⟩ (h.admits.turn hp rfl rfl rfl
      (by rw [hpc]; rfl) rfl (by rintro ⟨⟩) rfl rfl
        (.inr (.inr ⟨by rw [hpc]; rfl, le_rfl, rfl⟩)))
    have hx : x ∈ (s.procs p).pc.names cf s.log.lh := by rw [hpc]; exact hx
    exact (T.names p x.1 (mem_append_right _ (Pc.names_bufs _ x hx))).trans (h.names p x hx)
  | instRel r tail lbuf dbuf =>
    cases e
    exact h.unlock hp hpc rfl (.refl _) rfl rfl (by simp [Pc.names]) hs
  | clear r =>
    cases e
    have hm : (s.procs p).pc.mode = .ofRecovering r := by rw [hpc]; rfl
    have hL : pinned { s.log with lh := { s.log.lh with n := 0 }, installed := 0 } =
        pinned s.log := by
      rw [pinned_empty hs, pinned_empty rfl]
    refine h.turn rfl (hL ▸ h.pass hpc rfl rfl rfl rfl)
      (fun q hq => .inl (h.admits.others (by rw [hm]; exact Mode.ofRecovering_ne r) hq))
      (by rintro _ ⟨⟩) trivial (by cases r <;> exact ⟨rfl, rfl, rfl, rfl⟩)
      (h.admits.turn hp rfl rfl rfl (by rw [hm]; cases r <;> rfl) rfl (by rintro ⟨⟩)
        rfl rfl (.inr ?_))
    cases r with
    | true => exact .inl hm
    | false => exact .inr ⟨hm, Nat.zero_le _, rfl⟩
  | endOp =>
    cases e
    have hm : (s.procs p).pc.mode = .commit := by rw [hpc]; rfl
    have hmode := h.admits.leave (by rw [hm]; simp)
    have hcount := inOps_update (Q := (s.procs p).goto .user) hp rfl
    refine Inv.wakeup (h.turn rfl (h.pass hpc rfl rfl rfl rfl) (fun q _ => .inr ⟨rfl, rfl⟩)
      (by rintro _ ⟨⟩) trivial trivial ⟨h.admits.count.trans hcount.symm, fun e => h.admits.closed
      (.inr (e.resolve_left (by rintro ⟨⟩))), ?_,
        fun q hq => absurd ((hmode q).symm.trans hq) (by simp),
        fun q r hq => absurd ((hmode q).symm.trans hq) (by simp), (by rintro ⟨⟩),
        fun q hq => absurd ((hmode q).symm.trans hq) (by simp), fun _ _ _ => hs.1, fun _ _ => hs.2,
        h.admits.distinct, h.admits.sound⟩)
    exact h.admits.begins_update (by rintro ⟨⟩)
  | headRead b =>
    cases e
    have hm : (s.procs p).pc.mode = .recover := by rw [hpc]; rfl
    have hL : pinned { s.log with
        lh := s.log.lh.get (s.cache.buf b).data, installed :=
          (s.log.lh.get (s.cache.buf b).data).n } = pinned s.log := by
      rw [pinned_empty (hs.2.trans hs.1.symm), pinned_empty rfl]
    refine h.turn rfl (hL ▸ h.pass hpc rfl rfl rfl rfl)
      (fun q hq => .inl (h.admits.others (by rw [hm]; simp) hq)) (fun x hx => ?_) trivial
      ⟨rfl, rfl, Nat.zero_le _, rfl⟩
      (h.admits.turn hp rfl rfl rfl (by rw [hm]; rfl) rfl (by rintro ⟨⟩) rfl rfl (.inr (.inl hm)))
    exact h.names p x (by rw [hpc]; exact hx)
  | recovered =>
    cases e
    have hm : (s.procs p).pc.mode = .recover := by rw [hpc]; rfl
    have hmode := h.admits.leave (by rw [hm]; simp)
    have hcount := inOps_update (Q := (s.procs p).goto .user) hp rfl
    refine h.turn rfl (h.pass hpc rfl rfl rfl rfl) (fun q _ => .inr ⟨rfl, rfl⟩)
      (by rintro _ ⟨⟩) trivial trivial ⟨h.admits.count.trans hcount.symm, fun e => h.admits.closed
      (.inl (e.resolve_right (by rintro ⟨⟩))), ?_,
        fun q hq => absurd ((hmode q).symm.trans hq) (by simp),
        fun q r hq => absurd ((hmode q).symm.trans hq) (by simp), fun hc => ?_,
        fun q hq => absurd ((hmode q).symm.trans hq) (by simp), fun _ _ _ => hs.1, fun _ _ => hs.2,
        fun _ i hi => absurd (hi.trans_eq hs.1) (Nat.not_lt_zero i), h.admits.sound⟩
    · have := h.admits.begins_update (p := p) (Q := (s.procs p).goto .user) (by rintro ⟨⟩)
      exact fun q hq => ⟨(this q hq).1, rfl⟩
    · obtain ⟨q, hq⟩ := h.admits.commit hc
      exact absurd ((h.admits.commits q hq).2.symm.trans (h.admits.recovers p hm).2) (by simp)

/-- A process that is about its own business, with the buffers it had. -/
theorem Inv.user (h : Inv W cf s) (hp : p < cf.nproc) (hpc : (s.procs p).pc = .user)
    (hprocs : s'.procs = update s.procs p Q)
    (T : Turn W cf (pinned s.log) s.cache s'.cache s.procs p Q) (hlog : s'.log = s.log)
    (hup : s'.up = s.up) (hpan : s'.panicked = s.panicked)
    (hQ : Q.pc = .user ∨ ∃ b, Q.pc = .rel b .user) (ho : Q.inOp = (s.procs p).inOp) :
    Inv W cf s' := by
  obtain ⟨hn, hc, hs, hm, hb⟩ : Q.pc.names cf s'.log.lh = [] ∧ Q.pc.Copied s'.cache ∧
    Q.pc.Stage s'.log ∧
      Q.pc.mode = .user ∧ Q.pc.begins = false := by
    rcases hQ with e | ⟨b, e⟩ <;> rw [e]
    · exact ⟨rfl, trivial, trivial, rfl, rfl⟩
    · exact ⟨rfl, trivial, ⟨rfl, trivial⟩, rfl, rfl⟩
  refine h.turn hprocs (hlog ▸ T) (fun q _ => .inr (by rw [hlog]; exact ⟨rfl, rfl⟩))
    (by rw [hn]; nofun) hc hs (h.admits.turn hp hprocs hup hpan (by rw [hpc]; exact hm) ho
    (fun e => ?_) (by rw [hlog]) (by rw [hlog])
      (.inl hlog))
  rw [hb] at e
  cases e

theorem LogHeader.mem_add {lh : LogHeader} {m : Nat} :
    (∃ i, i < (lh.add n).n ∧ (lh.add n).block i = m) ↔
    (∃ i, i < lh.n ∧ lh.block i = m) ∨ m = n := by
  constructor
  · rintro ⟨i, hi, rfl⟩
    rcases Nat.lt_succ_iff_lt_or_eq.1 hi with hi | rfl
    · exact .inl ⟨i, hi, (update_of_ne hi.ne ..).symm⟩
    · exact .inr (update_self ..)
  · rintro (⟨i, hi, rfl⟩ | rfl)
    · exact ⟨i, Nat.lt_succ_of_lt hi, update_of_ne hi.ne ..⟩
    · exact ⟨lh.n, Nat.lt_succ_self _, update_self ..⟩

theorem LogHeader.distinct_add {lh : LogHeader}
    (h : ∀ i < lh.n, ∀ j < lh.n, lh.block i = lh.block j → i = j)
    (hn : ∀ i < lh.n, lh.block i ≠ n) : ∀ i < (lh.add n).n, ∀ j < (lh.add n).n, (lh.add n).block i =
      (lh.add n).block j → i = j := by
  have hlast : (lh.add n).block lh.n = n := update_self ..
  have hold : ∀ i < lh.n, (lh.add n).block i = lh.block i := fun i hi => update_of_ne hi.ne ..
  intro i hi j hj e
  rcases Nat.lt_succ_iff_lt_or_eq.1 hi with hi | rfl <;>
    rcases Nat.lt_succ_iff_lt_or_eq.1 hj with hj | rfl
  · rw [hold i hi, hold j hj] at e
    exact h i hi j hj e
  · rw [hold i hi, hlast] at e
    exact absurd e (hn i hi)
  · rw [hold j hj, hlast] at e
    exact absurd e.symm (hn j hj)
  · rfl

/-- `log_write`. -/
theorem Inv.logWrite (h : Inv W cf s) (hc : s.Calls cf p) (hb : b ∈ (s.procs p).held.map Hold.b)
    (e : LogWrites cf s p b s') : Inv W cf s' := by
  obtain ⟨-, hup, hp, hpc⟩ := hc
  have hmark := (s.procs p).mark_alike b false ((s.cache.buf b).blockno :: (s.procs p).logged)
  have hbl : b ∈ (s.procs p).ready := mem_append_left _ hb
  have hopen : ¬ s.log.outstanding < 1 → s.log.committing = false ∧ s.log.installed = 0 := by
    intro hout
    have hcom : s.log.committing = false := by
      by_contra e
      have := h.admits.closed (.inl (by simpa using e))
      omega
    exact ⟨hcom, h.admits.fresh hup hcom⟩
  cases e with
  | tooBig | outside => exact h.panic (by simp)
  | new _ hout hnew =>
    obtain ⟨hcom, hin⟩ := hopen hout
    have T : Turn W cf (pinned { s.log with lh := s.log.lh.add (s.cache.buf b).blockno }) s.cache
        (s.cache.bpin b) s.procs p
        { (s.procs p).mark b false with
          logged := (s.cache.buf b).blockno :: (s.procs p).logged } := by
      refine h.users.bpin hbl ?_ (fun m => ?_) hmark fun a => changed_mark rfl
      · rintro ⟨i, -, hlt, e⟩
        exact hnew i hlt e
      · simp only [pinned, hin, Nat.zero_le, true_and]
        exact LogHeader.mem_add
    have hm : ((s.procs p).mark b false).pc.mode = .user := by
      show (s.procs p).pc.mode = _
      rw [hpc]
      rfl
    have hmode : ∀ {q : Nat} {m : Mode}, m ≠ .user → (update s.procs p
        { (s.procs p).mark b false with logged := (s.cache.buf b).blockno :: (s.procs p).logged }
        q).pc.mode = m →
          (s.procs q).pc.mode = m := fun hne hq => mode_update hq fun e => hne (e.symm.trans hm)
    refine h.turn rfl T (fun q _ => .inl (h.admits.allUser hup hcom q)) ?_ ?_ ?_ { h.admits with
      count := ?_
      begins := h.admits.begins_update (h.admits.begins p)
      commits := fun q hq => h.admits.commits q (hmode (by simp) hq)
      unique := fun q r hq hr => h.admits.unique q r (hmode (by simp) hq) (hmode (by simp) hr)
      commit := fun e => absurd (hcom.symm.trans e) (by simp)
      recovers := fun q hq => h.admits.recovers q (hmode (by simp) hq)
      empty := fun _ _ e => absurd (Nat.lt_one_iff.2 e) hout
      distinct := fun _ => LogHeader.distinct_add (h.admits.distinct hup) hnew }
    · show ∀ x ∈ (s.procs p).pc.names cf _, _
      rw [hpc]
      rintro _ ⟨⟩
    · show (s.procs p).pc.Copied _
      rw [hpc]
      trivial
    · show (s.procs p).pc.Stage _
      rw [hpc]
      trivial
    · refine h.admits.count.trans (Eq.symm ?_)
      exact inOps_update hp rfl
  | old hout hlt hblk =>
    exact h.user hp hpc rfl (h.users.absorb (mem_append_left _ hb)
      ⟨_, (hopen hout).2.trans_le (Nat.zero_le _), hlt, hblk⟩ hmark fun a => changed_mark rfl) rfl
      rfl rfl (.inl hpc) rfl

/-- `end_op`, until `commit`. -/
theorem Inv.endOp (h : Inv W cf s) (hc : s.Calls cf p) (ho : (s.procs p).inOp = true) :
    Inv W cf (endOp s p) := by
  obtain ⟨-, hup, hp, hpc⟩ := hc
  have hsum : ∀ Q : Proc, Q.inOp = false →
      inOps cf.nproc (update s.procs p Q) + 1 = inOps cf.nproc s.procs := by
    intro Q hQ
    have := sum_update (fun P => P.inOp.toNat) s.procs Q hp
    rwa [hQ, ho] at this
  have hout : ∀ Q : Proc, Q.inOp = false →
      s.log.outstanding - 1 = inOps cf.nproc (update s.procs p Q) := by
    intro Q hQ
    rw [h.admits.count, ← hsum Q hQ, Nat.add_sub_cancel]
  have hcom := h.admits.inOp hp ho
  have hnone : ∀ q, (s.procs q).pc.mode ≠ .commit := fun q hq =>
    absurd ((h.admits.commits q hq).1.symm.trans hcom) (by simp)
  simp only [Fs.endOp]
  rw [if_neg (by rw [hcom]; simp)]
  split
  next h0 =>
    have hself : ∀ q, (update s.procs p { s.procs p with pc := .commit, inOp := false } q).pc.mode =
        .commit → q = p := by
      intro q hq
      by_contra hne
      rw [update_of_ne hne] at hq
      exact hnone q hq
    exact h.turn rfl (h.pass hpc rfl rfl rfl rfl) (fun q _ => .inr ⟨rfl, rfl⟩)
      (by rintro _ ⟨⟩) trivial (h.admits.fresh hup hcom) { h.admits with
        count := hout _ rfl
        closed := fun _ => h0
        begins := h.admits.begins_update (by rintro ⟨⟩)
        commits := fun q _ => ⟨rfl, hup⟩
        unique := fun q r hq hr => (hself q hq).trans (hself r hr).symm
        commit := fun _ => ⟨p, congrArg (fun P : Proc => P.pc.mode) (update_self p _ s.procs)⟩
        recovers := fun q hq => h.admits.recovers q (mode_update hq (by rintro ⟨⟩))
        empty := by rintro _ ⟨⟩
        fresh := by rintro _ ⟨⟩ }
  next h0 =>
    have hmode : ∀ q, (update s.procs p { s.procs p with inOp := false } q).pc.mode =
        (s.procs q).pc.mode :=
      forall_update (F := fun q Q => Q.pc.mode = (s.procs q).pc.mode) (fun _ => rfl) rfl
    refine Inv.wakeup (h.turn rfl (h.pass rfl rfl rfl rfl rfl) (fun q _ => .inr ⟨rfl, rfl⟩)
      (h.names p) (h.copied p) ((h.stage p).congr rfl rfl) { h.admits with
        count := hout _ rfl
        closed := fun e => ?_
        begins := h.admits.begins_update fun _ => ⟨rfl, hup⟩
        commits := fun q hq => absurd ((hmode q).symm.trans hq) (hnone q)
        unique := fun q r hq => absurd ((hmode q).symm.trans hq) (hnone q)
        recovers := fun q hq => h.admits.recovers q ((hmode q).symm.trans hq)
        commit := fun e => absurd (hcom.symm.trans e) (by simp)
        empty := fun _ _ e => absurd e h0 })
    rcases e with e | e
    · exact absurd (hcom.symm.trans e) (by simp)
    · exact absurd (hup.symm.trans e) (by simp)

/-- **The machine starts.** -/
theorem Inv.boot {disk base : Nat → Block} {groups : List (List Ev)} {returned : Nat}
    (hdev : cf.dev ≠ 0) : Inv W cf (boot disk base groups returned) := by
  set s := Fs.boot disk base groups returned
  have hproc : ∀ p, s.procs p = {} ∨
      p = 0 ∧ s.procs p = { pc := .readHead } := by
    intro p
    by_cases hp : p = 0
    · exact .inr ⟨hp, if_pos hp⟩
    · exact .inl (if_neg hp)
  have hrefs : ∀ p, (s.procs p).refs = [] ∧
      (s.procs p).locked = [] ∧
      (s.procs p).ready = [] ∧
      (s.procs p).inOp = false ∧
      (s.procs p).held = [] := by
    intro p
    rcases hproc p with e | ⟨-, e⟩ <;> rw [e] <;> exact ⟨rfl, rfl, rfl, rfl, rfl⟩
  have huses : uses cf.nproc s.procs = fun _ => 0 := by
    funext b
    refine Finset.sum_eq_zero fun p _ => ?_
    rw [(hrefs p).1]
    rfl
  have hchanged : Changed s.procs = fun _ => False := by
    funext b
    refine propext (iff_of_false ?_ id)
    rintro ⟨p, hp⟩
    rw [(hrefs p).2.2.2.2] at hp
    cases hp
  have hmode : ∀ p, (s.procs p).pc.mode ≠ .commit := by
    intro p
    rcases hproc p with e | ⟨-, e⟩ <;> rw [e] <;> nofun
  have hbeg : ∀ p, (s.procs p).pc.begins ≠ true := by
    intro p
    rcases hproc p with e | ⟨-, e⟩ <;> rw [e] <;> nofun
  refine ⟨⟨?_, fun p _ => (hrefs p).1, fun p => ?_, fun p b => ?_, fun p b hb => ?_,
    fun p b hb => ?_⟩, fun p => ?_, fun p => ?_, fun p => ?_, ?_, fun _ => rfl,
    fun p hp => absurd hp (hbeg p), fun p hp => absurd hp (hmode p), fun p q hp => absurd hp
    (hmode p), nofun, fun p hp => ?_, nofun, nofun, nofun, nofun⟩
  · rw [huses, hchanged, pinned_empty rfl]
    exact .binit hdev
  · rw [(hrefs p).2.1]
    exact nodup_nil
  · rw [(hrefs p).2.1]
    exact iff_of_false nofun nofun
  · rw [(hrefs p).1] at hb
    cases hb
  · rw [(hrefs p).2.2.1] at hb
    cases hb
  · rcases hproc p with e | ⟨-, e⟩ <;> rw [e] <;> nofun
  · rcases hproc p with e | ⟨-, e⟩ <;> rw [e] <;> trivial
  · rcases hproc p with e | ⟨-, e⟩ <;> rw [e]
    exacts [trivial, ⟨rfl, rfl⟩]
  · refine (Finset.sum_eq_zero fun p _ => ?_).symm
    rw [(hrefs p).2.2.2.1]
    rfl
  · rcases hproc p with e | ⟨h0, -⟩
    · rw [e] at hp
      cases hp
    · exact ⟨h0, rfl⟩

/-- **One step.** -/
theorem Inv.exec (h : Inv W cf s) (hdev : cf.dev ≠ 0) (hW : W → s.Settles a)
    (e : exec cf s a = some s') : Inv W cf s' := by
  cases exec_cases e with
  | run hp e => exact h.run hp rfl e
  | bread hc =>
    exact h.bread hc.2.2.1 hc.2.2.2 (fun _ => trivial) rfl (fun _ => rfl) (fun _ => rfl)
      (fun _ => .refl _) fun _ _ hx => .inl (mem_singleton.1 hx)
  | @store p b d hc hb =>
    obtain ⟨-, -, hp, hpc⟩ := hc
    have hD : Changed (update s.procs p ((s.procs p).mark b true)) b :=
      ⟨p, by rw [update_self]; exact Proc.mark_mem hb⟩
    refine h.user hp hpc rfl (h.users.store (mem_append_left _ hb) (Proc.mark_alike ..) hD
      fun a ha => ?_) rfl rfl rfl (.inl hpc) rfl
    by_cases hab : a = b
    exacts [hab ▸ hD, changed_mark rfl hab ha]
  | logWrite hc hb e => exact h.logWrite hc hb e
  | bwrite hc hb =>
    exact h.user hc.2.2.1 hc.2.2.2 rfl
      (h.users.bwrite (mem_append_left _ hb) (Proc.mark_alike ..) fun a =>
      changed_mark rfl) rfl rfl rfl (.inl hc.2.2.2) rfl
  | @brelse p b hc hb =>
    obtain ⟨-, -, hp, hpc⟩ := hc
    have hnd : ((s.procs p).held.map Hold.b).Nodup := (nodup_append.1 (h.users.nodup p)).1
    have hperm : ((s.procs p).held.map Hold.b).Perm
        (b :: ((s.procs p).held.filter fun x => x.b ≠ b).map Hold.b) := by
      have := perm_cons_erase hb
      rw [hnd.erase_eq_filter, filter_map] at this
      refine this.trans (.of_eq ?_)
      congr 3
      funext x
      rw [Bool.eq_iff_iff]
      simp
    refine h.user hp hpc rfl (h.users.releasesleep hp ?_ ?_ ?_ (fun a ha => (mem_filter.1 ha).1)
      fun hw a ha => ?_) rfl rfl rfl (.inr ⟨b, rfl⟩) rfl
    · rw [Proc.refs, Proc.refs, hpc]
      refine .trans (perm_append_singleton ..) (hperm.symm.trans (.of_eq ?_))
      exact (append_nil _).symm
    · rw [Proc.locked, Proc.locked, hpc]
      exact hperm.append_right _
    · rw [Proc.ready, Proc.ready, hpc]
      refine fun a ha => mem_append_left _ ?_
      rcases mem_append.1 ha with ha | ha
      · exact hperm.mem_iff.2 (mem_cons_of_mem _ ha)
      · cases ha
    · rw [mem_filter, decide_eq_true_eq]
      refine ⟨ha, ?_⟩
      rintro rfl
      exact hW hw ha
  | beginOp hc ho =>
    exact h.skip hc.2.2.1 hc.2.2.2 trivial (fun _ => ⟨ho, hc.2.1⟩) rfl rfl rfl rfl rfl trivial
  | endOp hc ho => exact h.endOp hc ho
  | @wake p hpc =>
    refine h.rouse fun q => ?_
    by_cases hq : q = p
    · subst hq
      exact .inr ⟨hpc, update_self ..⟩
    · exact .inl (update_of_ne hq ..)
  | crash => exact .boot hdev

end Xv6.Fs
