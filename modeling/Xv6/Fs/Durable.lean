import Xv6.Fs.Quiet
import Xv6.Lib.Journal

/-!
# Fs/Durable — what survives a crash

A disk with a log is a journal, and what it is worth is what recovery makes of it.  `Durable` says
that this is always what a number of whole groups of operations have made of the first disk, and
what `commit` and `recover_from_log` have reached at each program point.
-/

namespace Xv6.Fs

open Function List

/-! ## The header block -/

section

variable {lh : LogHeader} {d : Block} {i j v : Nat}

theorem Block.word_setWord (hi : i < 256) :
    (d.setWord j v).word i = if i = j then v else d.word i := by
  rw [Block.word, Block.word, dif_pos hi, dif_pos hi]
  rfl

theorem LogHeader.put_word (hi : i < 256) : (lh.put d).word i =
    if i = 0 then lh.n else if i ≤ lh.n then lh.block (i - 1) else d.word i := by
  have key : ∀ m, ((List.range m).foldl (fun d i => d.setWord (i + 1) (lh.block i))
      (d.setWord 0 lh.n)).word i =
      if i = 0 then lh.n else if i ≤ m then lh.block (i - 1) else d.word i := by
    intro m
    induction m with
    | zero =>
      rw [range_zero, foldl_nil, Block.word_setWord hi]
      by_cases h0 : i = 0
      · rw [if_pos h0, if_pos h0]
      · rw [if_neg h0, if_neg h0, if_neg (by omega)]
    | succ m ih =>
      rw [range_succ, foldl_append, foldl_cons, foldl_nil, Block.word_setWord hi, ih]
      by_cases h0 : i = 0
      · rw [if_neg (by omega), if_pos h0, if_pos h0]
      · rw [if_neg h0, if_neg h0]
        by_cases h1 : i = m + 1
        · rw [if_pos h1, if_pos (by omega), h1, Nat.add_sub_cancel]
        · rw [if_neg h1]
          by_cases h2 : i ≤ m
          · rw [if_pos h2, if_pos (by omega)]
          · rw [if_neg h2, if_neg (by omega)]
  exact key lh.n

theorem LogHeader.get_block (h : i < d.word 0) : (lh.get d).block i = d.word (i + 1) := by
  have key : ∀ m, i < m → ((List.range m).foldl (fun f i => update f i (d.word (i + 1))) lh.block)
      i = d.word (i + 1) := by
    intro m
    induction m with
    | zero => exact fun h => absurd h (Nat.not_lt_zero i)
    | succ m ih =>
      intro hm
      rw [range_succ, foldl_append, foldl_cons, foldl_nil]
      by_cases he : i = m
      · rw [he, update_self]
      · rw [update_of_ne he]
        exact ih (by omega)
  exact key _ h

end

/-! ## The disk as a journal -/

/-- Blocks outside of the log. -/
def Conf.Home (cf : Conf) (n : Nat) : Prop := n < cf.start ∨ cf.start + cf.size ≤ n

/-- What is on the disk, as a journal. -/
def journal (cf : Conf) (disk : Nat → Block) : Journal Nat Block where
  home := disk
  copy i := disk (cf.start + i + 1)
  n := (disk cf.start).word 0
  entry i := (disk cf.start).word (i + 1)

/-- The header is one that `log.c` writes. -/
structure HeaderOk (cf : Conf) (J : Journal Nat Block) : Prop where
  distinct : J.Distinct
  size : J.n + 1 ≤ cf.size ∨ J.n = 0
  limit : J.n ≤ LOGSIZE
  home : ∀ i < J.n, cf.Home (J.entry i)

/-! ## Operations and groups -/

/-- What an event does to the blocks. -/
def Ev.apply (f : Nat → Block) : Ev → Nat → Block
  | .store _ n d => update f n d
  | .start _ | .finish _ => f

/-- What a list of events does to the blocks. -/
def replay (f : Nat → Block) (l : List Ev) : Nat → Block := l.foldl Ev.apply f

theorem replay_append (f : Nat → Block) (l l' : List Ev) :
    replay f (l ++ l') = replay (replay f l) l' :=
  foldl_append ..

/-- How operations use the log: they change blocks outside of it, and end with nothing in hand that
they have still to log; blocks are written by `log.c`. -/
def Sys.Operates (cf : Conf) (s : Sys) : Label → Prop
  | .store p b _ | .logWrite p b => (s.procs p).inOp = true ∧ cf.Home (s.cache.buf b).blockno
  | .bwrite .. => False
  | .endOp p => ∀ x ∈ (s.procs p).held, x.dirty = false
  | _ => True

/-- …and log what they have changed before they release it. -/
def Sys.Disciplined (cf : Conf) (s : Sys) (a : Label) : Prop := s.Operates cf a ∧ s.Settles a

/-! ## The invariant -/

section

variable (cf : Conf) (k : Core)

/-- The first blocks of the log have been copied… -/
def Core.CopiedTo (t : Nat) : Prop := ∀ i < t, (journal cf k.disk).copy i = k.val (k.lh.block i)

/-- …and installed. -/
def Core.InstalledTo (t : Nat) : Prop := ∀ i < t, k.disk (k.lh.block i) = (journal cf k.disk).copy i

/-- The header on the disk is the one in memory, and the transaction counts. -/
structure Core.Listed : Prop where
  n : (journal cf k.disk).n = k.lh.n
  entry : ∀ i < k.lh.n, (journal cf k.disk).entry i = k.lh.block i
  durable : k.durable = k.groups.length

/-- What `commit` and `recover_from_log` have reached, before `write_head` goes on to this point. -/
def Pc.Before : Pc → Prop
  | .install true _ => False
  | .install false _ => (journal cf k.disk).n = 0 ∧ k.CopiedTo cf k.lh.n
  | _ => (journal cf k.disk).Settled ∧ k.durable = k.groups.length

/-- What they have reached at each point. -/
def Pc.Disk : Pc → Prop
  | .lock _ next | .fill _ next | .rel _ next | .headRel _ next => next.Disk
  | .commit => (journal cf k.disk).n = 0
  | .writeLog t | .logFrom t _ | .logCopy t .. => (journal cf k.disk).n = 0 ∧ k.CopiedTo cf t
  | .logRel t .. | .logTo t _ => (journal cf k.disk).n = 0 ∧ k.CopiedTo cf (t + 1)
  | .writeHead next | .headFill _ next => next.Before cf k
  | .install r t | .instHome r t _ | .instCopy r t .. =>
    k.Listed cf ∧ (r = false → k.CopiedTo cf k.lh.n) ∧ k.InstalledTo cf t
  | .instPin t .. => k.Listed cf ∧ k.CopiedTo cf k.lh.n ∧ k.InstalledTo cf (t + 1)
  | .instRel r t .. | .instRelD r t _ =>
    k.Listed cf ∧ (r = false → k.CopiedTo cf k.lh.n) ∧ k.InstalledTo cf (t + 1)
  | .clear r => k.Listed cf ∧ (r = false → k.CopiedTo cf k.lh.n) ∧ k.InstalledTo cf k.lh.n
  | .endOp | .recovered => (journal cf k.disk).n = 0 ∧ k.durable = k.groups.length
  | .readHead | .headRead _ | .user | .ret .. | .beginOp | .asleep => True

/-- **What is on the disk counts**, and what was last stored is what all operations have made of
it. -/
structure Core.Ok : Prop where
  header : HeaderOk cf (journal cf k.disk)
  view : ∀ n, cf.Home n → (journal cf k.disk).view n =
    replay k.base (k.groups.take k.durable).flatten n
  log : ∀ n, ¬ cf.Home n → k.val n = k.disk n
  lh : k.up = true → (k.lh.n + 1 ≤ cf.size ∨ k.lh.n = 0) ∧ k.lh.n ≤ LOGSIZE ∧
    ∀ i < k.lh.n, cf.Home (k.lh.block i)
  val : k.up = true → ∀ n, cf.Home n → k.val n = replay k.base (k.groups.flatten ++ k.cur) n
  closed : k.committing = true → k.cur = []
  down : k.up = false → k.durable = k.groups.length ∧ k.cur = [] ∧ k.val = k.disk
  idle : k.up = true → k.committing = false → (journal cf k.disk).n = 0 ∧
    k.durable = k.groups.length
  returned : k.returned ≤ k.durable
  durable : k.durable ≤ k.groups.length

end

/-- **What survives.** -/
structure Durable (cf : Conf) (s : Sys) : Prop where
  ok : s.core.Ok cf
  disk : ∀ p, (s.procs p).pc.Disk cf s.core
  dirty : ∀ p b, ⟨b, true⟩ ∈ (s.procs p).held → (s.procs p).inOp = true

variable {cf : Conf} {s s' : Sys} {p q b n : Nat} {Q : Proc} {a : Label} {pc : Pc} {k k' : Core}

theorem Pc.headed_mode (h : pc.headed = true) : pc.mode ≠ .user := by
  cases pc with
  | install r => exact Mode.ofRecovering_ne r
  | endOp | recovered => nofun
  | _ => cases h

/-- Users know nothing of the disk. -/
theorem Pc.disk_user {L : Log} (h : pc.mode = .user) (hs : pc.Stage L) : pc.Disk cf k := by
  induction pc with
  | lock _ next ih | fill _ next ih => exact ih h hs.2.2
  | rel _ next ih => exact ih h hs.2
  | writeHead next | headFill _ next | headRel _ next =>
    exact absurd (show next.mode = .user from h) (Pc.headed_mode hs.1)
  | install r | instHome r | instCopy r | instRel r | instRelD r | clear r =>
    exact absurd h (Mode.ofRecovering_ne r)
  | _ => trivial

/-- **A turn keeps what survives**, if it does so on the disk. -/
theorem Durable.turn (h : Durable cf s) (hi : Inv True cf s)
    (hprocs : s'.procs = update s.procs p Q) (hcore : s'.core = k) (hok : k.Ok cf)
    (hother : k = s.core ∨ ∀ q, q ≠ p → (s.procs q).pc.mode = .user) (hQ : Q.pc.Disk cf k)
    (hd : ∀ b, ⟨b, true⟩ ∈ Q.held → Q.inOp = true) : Durable cf s' := by
  subst hcore
  refine ⟨hok, fun q => ?_, ?_⟩
  · rw [hprocs]
    by_cases hq : q = p
    · rw [hq, update_self]
      exact hQ
    · rw [update_of_ne hq]
      rcases hother with e | e
      · rw [e]
        exact h.disk q
      · exact Pc.disk_user (e q hq) (hi.stage q)
  · rw [hprocs]
    exact forall_update (F := fun _ Q => ∀ b, ⟨b, true⟩ ∈ Q.held → Q.inOp = true) h.dirty hd

/-- A quiet step. -/
theorem Durable.quiet (h : Durable cf s) (hq : Quiet s s' p) (hd : (s'.procs p).pc.Disk cf s.core) :
    Durable cf s' := by
  refine ⟨hq.core ▸ h.ok, fun q => ?_, fun q b hb => ?_⟩
  · rw [hq.core]
    by_cases hqp : q = p
    · exact hqp ▸ hd
    · rw [hq.others q hqp]
      exact h.disk q
  · rw [(hq.stays q).inOp]
    exact h.dirty q b (((hq.stays q).dirty b).1 hb)

/-- A block that is neither logged nor about to be is on the disk. -/
theorem Inv.disk_val (h : Inv True cf s) (hP : ¬ pinned s.log n) (hD : ∀ b, ¬ Changed s.procs b) :
    s.cache.disk n = s.cache.val n := by
  by_cases hc : ∃ b, s.cache.Caches cf.dev b n ∧ (s.cache.buf b).valid = true
  · obtain ⟨b, hb, hv⟩ := hc
    have hclean :=
      (h.users.ok.holds.clean trivial b n hb hv).resolve_right fun e => e.elim hP (hD b)
    rw [← hclean, h.users.ok.holds.coherent trivial b n hb hv]
  · refine h.users.ok.holds.disk trivial n fun b hb => ?_
    by_contra hv
    exact hc ⟨b, hb, by simpa using hv⟩

theorem bread_pc {next : Nat → Pc} (hn : ∀ b, (next b).Disk cf k) (h : (s.procs p).pc.Disk cf k) :
    ((bread cf s p n next).procs p).pc.Disk cf k := by
  unfold bread
  split
  next b c e =>
    show (update s.procs p _ p).pc.Disk cf k
    rw [update_self]
    exact hn b
  next => exact h

theorem setPc_pc : ((s.setPc p pc).procs p).pc = pc := by
  show (update s.procs p _ p).pc = pc
  rw [update_self]

/-- **On the way from one point to the next.** -/
theorem Durable.run_quiet (h : Durable cf s) (hi : Inv True cf s) (hpc : (s.procs p).pc = pc)
    (hl : pc.loud = false) (e : run cf s p pc = some s') : Durable cf s' := by
  refine h.quiet (.run hl e) ?_
  have hd := h.disk p
  have hs := hi.stage p
  have hd' := hd
  rw [hpc] at hd hs
  cases pc with
  | user | asleep => cases e
  | beginOp | commit | logCopy | headFill | instCopy | clear | endOp | headRead
  | recovered => cases hl
  | ret n b =>
    cases e
    show (update s.procs p _ p).pc.Disk cf _
    rw [update_self]
    trivial
  | lock b next =>
    obtain ⟨c, -, rfl⟩ := Option.map_eq_some_iff.1 e
    rw [setPc_pc]
    exact hd
  | fill b next | rel b next | headRel b next | logRel t tb fb | instRel r t l d | logTo t tb
  | instRelD r t d =>
    cases e
    rw [setPc_pc]
    exact hd
  | instPin t l d =>
    cases e
    rw [setPc_pc]
    exact ⟨hd.1, fun _ => hd.2.1, hd.2.2⟩
  | writeLog t =>
    simp only [Fs.run] at e
    split at e <;> cases e
    · exact bread_pc (fun _ => hd) hd'
    next ht =>
      rw [setPc_pc]
      have : t = s.log.lh.n := le_antisymm hs.1 (Nat.le_of_not_lt ht)
      exact ⟨hd.1, this ▸ hd.2⟩
  | install r t =>
    simp only [Fs.run] at e
    split at e <;> cases e
    · exact bread_pc (fun _ => hd) hd'
    next ht =>
      rw [setPc_pc]
      have : t = s.log.lh.n := le_antisymm hs.1 (Nat.le_of_not_lt ht)
      exact ⟨hd.1, hd.2.1, this ▸ hd.2.2⟩
  | logFrom t tb | instHome r t l | writeHead next | readHead =>
    cases e
    exact bread_pc (fun _ => hd) hd'

/-! ## Writing blocks -/

/-- A block is written, and read back. -/
def Core.write (k : Core) (m : Nat) (d : Block) : Core :=
  { k with disk := update k.disk m d, val := update k.val m d }

section

variable {m i t : Nat} {d : Block}

theorem Conf.not_home_start (hs : 0 < cf.size) : ¬ cf.Home cf.start := by
  rintro (h | h) <;> omega

theorem Conf.not_home_log (hi : i + 1 < cf.size) : ¬ cf.Home (cf.start + i + 1) := by
  rintro (h | h) <;> omega

theorem Conf.Home.ne_start (h : cf.Home n) (hs : 0 < cf.size) : n ≠ cf.start := fun e =>
  cf.not_home_start hs (e ▸ h)

theorem Conf.Home.ne_log (h : cf.Home n) (hi : i + 1 < cf.size) : n ≠ cf.start + i + 1 := fun e =>
  cf.not_home_log hi (e ▸ h)

/-- What a write leaves of the journal. -/
theorem journal_write_ne (hm : m ≠ cf.start) :
    (journal cf (k.write m d).disk).n = (journal cf k.disk).n ∧ ∀ i,
    (journal cf (k.write m d).disk).entry i = (journal cf k.disk).entry i := by
  have : (k.write m d).disk cf.start = k.disk cf.start := update_of_ne hm.symm ..
  exact ⟨congrArg (Block.word · 0) this, fun i => congrArg (Block.word · (i + 1)) this⟩

theorem journal_write_copy (hm : m ≠ cf.start + i + 1) :
    (journal cf (k.write m d).disk).copy i = (journal cf k.disk).copy i := update_of_ne hm.symm ..

/-- **A write keeps what counts**, if it does not change what recovery makes of the disk. -/
theorem Core.Ok.write (h : k.Ok cf) (hh : HeaderOk cf (journal cf (k.write m d).disk))
    (hv : ∀ n, cf.Home n → (journal cf (k.write m d).disk).view n = (journal cf k.disk).view n)
    (hval : k.up = true → cf.Home m → d = k.val m)
    (hidle : k.up = true → k.committing = false → (journal cf (k.write m d).disk).n = 0) :
    (k.write m d).Ok cf := by
  refine ⟨hh, fun n hn => (hv n hn).trans (h.view n hn), fun n hn => ?_, h.lh, fun hup n hn => ?_,
    h.closed, fun hd => ?_, fun hu hc => ⟨hidle hu hc, (h.idle hu hc).2⟩, h.returned, h.durable⟩
  · show update k.val m d n = update k.disk m d n
    by_cases e : n = m
    · rw [e, update_self, update_self]
    · rw [update_of_ne e, update_of_ne e, h.log n hn]
  · have : (k.write m d).val n = k.val n := by
      show update k.val m d n = k.val n
      by_cases e : n = m
      · rw [e, update_self]
        exact hval hup (e ▸ hn)
      · rw [update_of_ne e]
    rw [this]
    exact h.val hup n hn
  · obtain ⟨h1, h2, h3⟩ := h.down hd
    refine ⟨h1, h2, ?_⟩
    show update k.val m d = update k.disk m d
    rw [h3]

theorem headerOk_empty {J : Journal Nat Block} (h : J.n = 0) : HeaderOk cf J :=
  ⟨fun i hi => absurd (h ▸ hi) (Nat.not_lt_zero i), .inr h, h ▸ Nat.zero_le _,
    fun i hi => absurd (h ▸ hi) (Nat.not_lt_zero i)⟩

/-- **A copy is written**, while the header is empty. -/
theorem Core.Ok.writeCopy (h : k.Ok cf) (h0 : (journal cf k.disk).n = 0) (hi : i + 1 < cf.size) :
    (k.write (cf.start + i + 1) d).Ok cf := by
  have hn :=
    (journal_write_ne (k := k) (d := d) (m := cf.start + i + 1) (by omega : _ ≠ cf.start)).1.trans
    h0
  refine h.write (headerOk_empty hn) (fun n hh => ?_)
    (fun _ hh => absurd hh (cf.not_home_log hi)) fun _ _ => hn
  rw [Journal.view_empty hn, Journal.view_empty h0]
  exact update_of_ne (hh.ne_log hi) ..

/-- The copy of the block that entry `t` names is installed. -/
def Core.installed (k : Core) (cf : Conf) (t : Nat) : Core :=
  k.write (k.lh.block t) ((journal cf k.disk).copy t)

/-- **A copy is installed.** -/
theorem Core.Ok.install (h : k.Ok cf) (hl : k.Listed cf) (ht : t < k.lh.n)
    (hc : k.up = true → k.CopiedTo cf k.lh.n) (hcom : k.up = true → k.committing = true) :
    (k.installed cf t).Ok cf := by
  have hhome : cf.Home (k.lh.block t) := hl.entry t ht ▸ h.header.home t (hl.n ▸ ht)
  have hsize : k.lh.n + 1 ≤ cf.size := by
    have := h.header.size
    rw [hl.n] at this
    exact this.resolve_right (by omega)
  have hstart : k.lh.block t ≠ cf.start := hhome.ne_start (by omega)
  obtain ⟨hn, he⟩ := journal_write_ne (k := k) (d := (journal cf k.disk).copy t) hstart
  have hcopy : ∀ i < (journal cf k.disk).n,
      (journal cf (k.installed cf t).disk).copy i = (journal cf k.disk).copy i := by
    intro i hi
    rw [hl.n] at hi
    exact journal_write_copy (hhome.ne_log (by omega))
  refine h.write ⟨fun i hi j hj e => ?_, ?_, hn ▸ h.header.limit, fun i hi => ?_⟩ (fun n _ => ?_)
    (fun hup _ => hc hup t ht) fun hup hc => absurd ((hcom hup).symm.trans hc) nofun
  · rw [he, he] at e
    exact h.header.distinct i (hn ▸ hi) j (hn ▸ hj) e
  · rw [hn]
    exact h.header.size
  · rw [he]
    exact h.header.home i (hn ▸ hi)
  · refine Journal.view_congr h.header.distinct hn (fun i _ => he i) hcopy fun ho => ?_
    exact update_of_ne (fun e => ho t (hl.n ▸ ht) (by rw [hl.entry t ht, e])) ..

/-- What `write_head` writes. -/
theorem journal_put (hlim : k.lh.n ≤ LOGSIZE) :
    (journal cf (k.write cf.start (k.lh.put d)).disk).n = k.lh.n ∧
      ∀ i < k.lh.n, (journal cf (k.write cf.start (k.lh.put d)).disk).entry i = k.lh.block i := by
  have hb : (k.write cf.start (k.lh.put d)).disk cf.start = k.lh.put d := update_self ..
  have h30 : LOGSIZE = 30 := rfl
  refine ⟨?_, fun i hi => ?_⟩
  · rw [journal, hb, LogHeader.put_word (by omega), if_pos rfl]
  · refine (congrArg (Block.word · (i + 1)) hb).trans ?_
    rw [LogHeader.put_word (by omega), if_neg (by omega), if_pos (by omega), Nat.add_sub_cancel]

/-- **The header is dropped**, once all copies are installed. -/
theorem Core.Ok.dropHead (h : k.Ok cf) (h0 : k.lh.n = 0) (hs : (journal cf k.disk).Settled)
    (hsize : 0 < cf.size) : (k.write cf.start (k.lh.put d)).Ok cf := by
  have hn : (journal cf (k.write cf.start (k.lh.put d)).disk).n = 0 :=
    (journal_put (h0 ▸ Nat.zero_le _)).1.trans h0
  refine h.write (headerOk_empty hn) (fun n hh => ?_)
    (fun _ hh => absurd hh (cf.not_home_start hsize)) fun _ _ => hn
  rw [Journal.view_empty hn, hs.view h.header.distinct]
  exact update_of_ne (hh.ne_start hsize) ..

/-- **The header is written, and the transaction counts.** -/
theorem Core.Ok.writeHead (h : k.Ok cf) (hup : k.up = true) (hcom : k.committing = true)
    (hdis : ∀ i < k.lh.n, ∀ j < k.lh.n, k.lh.block i = k.lh.block j → i = j)
    (hc : k.CopiedTo cf k.lh.n) (hother : ∀ n, cf.Home n → (∀ i < k.lh.n, k.lh.block i ≠ n) →
    k.disk n = k.val n) (hsize : 0 < cf.size) :
    ({ k.write cf.start (k.lh.put d) with durable := k.groups.length } : Core).Ok cf := by
  obtain ⟨hlhs, hlim, hhome⟩ := h.lh hup
  obtain ⟨hn, he⟩ : (journal cf (k.write cf.start (k.lh.put d)).disk).n = k.lh.n ∧ _ :=
    journal_put hlim
  have hH : HeaderOk cf (journal cf (k.write cf.start (k.lh.put d)).disk) := by
    refine ⟨fun i hi j hj e => ?_, hn ▸ hlhs, hn ▸ hlim, fun i hi => ?_⟩
    · rw [hn] at hi hj
      rw [he i hi, he j hj] at e
      exact hdis i hi j hj e
    · rw [hn] at hi
      rw [he i hi]
      exact hhome i hi
  have hval : ∀ n, cf.Home n → (k.write cf.start (k.lh.put d)).val n = k.val n := fun n hn =>
    update_of_ne (hn.ne_start hsize) ..
  refine ⟨hH, fun n hh => ?_, fun n hn => ?_, h.lh, fun hup n hh => (hval n hh).trans
    (h.val hup n hh), h.closed, fun hd => absurd (hup.symm.trans hd) nofun,
    fun _ hc => absurd (hcom.symm.trans hc) nofun, h.returned.trans h.durable, le_rfl⟩
  · have hview : (journal cf (k.write cf.start (k.lh.put d)).disk).view n = k.val n := by
      refine Journal.view_eq hH.distinct (fun i hi => ?_) fun ho => ?_
      · rw [hn] at hi
        rw [he i hi, journal_write_copy (by omega)]
        exact hc i hi
      · refine Eq.trans (update_of_ne (hh.ne_start hsize) ..) (hother n hh ?_)
        intro i hi e
        exact ho i (hn ▸ hi) ((he i hi).trans e)
    refine hview.trans ((h.val hup n hh).trans ?_)
    rw [h.closed hcom, append_nil]
    show _ = replay k.base (k.groups.take k.groups.length).flatten n
    rw [take_length]
  · show update k.val _ _ n = update k.disk _ _ n
    by_cases e : n = cf.start
    · rw [e, update_self, update_self]
    · rw [update_of_ne e, update_of_ne e, h.log n hn]

end

/-! ## The steps -/

theorem core_copy (s : Sys) (p b : Nat) (d : Block) (pc : Pc) :
    ({ s with cache := (s.cache.store b d).bwrite b }.setPc p pc).core =
      s.core.write (s.cache.buf b).blockno d := by
  simp only [Sys.core, Core.write, Cache.bwrite, Cache.store_self]
  rfl

/-- Nobody has changed a buffer while nobody is in an operation. -/
theorem Durable.unchanged (h : Durable cf s) (hi : Inv True cf s) (hc : s.log.committing = true)
    (b : Nat) : ¬ Changed s.procs b := by
  rintro ⟨q, hq⟩
  have hq' : b ∈ (s.procs q).refs := mem_append_left _ (mem_map_of_mem hq)
  exact absurd ((hi.admits.inOp (hi.users.lt hq') (h.dirty q b hq)).symm.trans hc) (by simp)

/-- What a buffer holds that was read from the log. -/
theorem Durable.log_data (h : Durable cf s) (hi : Inv True cf s) (hb : b ∈ (s.procs p).ready)
    (hn : (s.cache.buf b).blockno = n) (hh : ¬ cf.Home n) :
    (s.cache.buf b).data = s.cache.disk n := by
  have := (hi.coherent trivial hb).2
  rw [hn] at this
  exact this.trans (h.ok.log n hh)

theorem Durable.wakeup (h : Durable cf s) : Durable cf s.wakeup := by
  refine ⟨h.ok, fun q => ?_, fun q b => ?_⟩
  all_goals
    by_cases he : (s.procs q).pc = .asleep
  · rw [show s.wakeup.procs q = { s.procs q with pc := .beginOp } from if_pos he]
    trivial
  · rw [show s.wakeup.procs q = s.procs q from if_neg he]
    exact h.disk q
  · rw [show s.wakeup.procs q = { s.procs q with pc := .beginOp } from if_pos he]
    exact h.dirty q b
  · rw [show s.wakeup.procs q = s.procs q from if_neg he]
    exact h.dirty q b

section

variable (h : Durable cf s) (hi : Inv True cf s)

include h hi

/-- What is known at a point. -/
theorem Durable.at (hpc : (s.procs p).pc = pc) : pc.Disk cf s.core ∧ pc.Stage s.log ∧
    ∀ x ∈ pc.names cf s.log.lh, (s.cache.buf x.1).blockno = x.2 :=
  hpc ▸ ⟨h.disk p, hi.stage p, hi.names p⟩

/-- A process in the log goes from one point to the next: the others are about their own
business. -/
theorem Durable.goto {pc' : Pc} (hpc : (s.procs p).pc = pc) (hm : pc.mode ≠ .user)
    (hprocs : s'.procs = update s.procs p ((s.procs p).goto pc')) (hcore : s'.core = k)
    (hok : k.Ok cf) (hQ : pc'.Disk cf k) : Durable cf s' :=
  h.turn hi hprocs hcore hok (.inr fun _ => hi.admits.others (hpc ▸ hm)) hQ (h.dirty p)

theorem Durable.beginOp (hpc : (s.procs p).pc = .beginOp) (e : run cf s p .beginOp = some s') :
    Durable cf s' := by
  obtain ⟨ho, hup⟩ := hi.admits.begins p (by rw [hpc]; rfl)
  simp only [run] at e
  split at e
  · cases e
    exact h.turn hi rfl rfl h.ok (.inl rfl) trivial (h.dirty p)
  next hc =>
  split at e <;> cases e
  · exact h.turn hi rfl rfl h.ok (.inl rfl) trivial (h.dirty p)
  have hcom : s.log.committing = false := by simpa using hc
  refine h.turn hi rfl rfl { h.ok with
      val := fun hu n hn => ?_
      closed := fun e => absurd e hc
      down := fun e => absurd (hup.symm.trans e) (by simp) }
        (.inr fun q _ => hi.admits.allUser hup hcom q) trivial fun _ _ => rfl
  refine (h.ok.val hu n hn).trans ?_
  show _ = replay s.base (s.groups.flatten ++ (s.cur ++ [Ev.start p])) n
  rw [← append_assoc, replay_append _ (s.groups.flatten ++ s.cur)]
  rfl

/-- An empty transaction. -/
theorem Durable.commit (hpc : (s.procs p).pc = .commit) (e : run cf s p .commit = some s') :
    Durable cf s' := by
  obtain ⟨hd, -⟩ := h.at hi hpc
  obtain ⟨hcom, hup⟩ := hi.admits.commits p (by rw [hpc]; rfl)
  simp only [run] at e
  split at e <;> cases e
  · exact h.goto hi hpc (by rintro ⟨⟩) rfl rfl h.ok ⟨hd, (by rintro _ ⟨⟩)⟩
  next hn =>
  refine h.goto hi hpc (by rintro ⟨⟩) rfl rfl { h.ok with
      view := fun n hh => ?_
      down := fun e => absurd (hup.symm.trans e) (by simp)
      idle := fun _ e => absurd (hcom.symm.trans e) (by simp)
      returned := h.ok.returned.trans h.ok.durable
      durable := le_rfl } ⟨hd, rfl⟩
  have hpin : ¬ pinned s.log n := by
    rintro ⟨i, -, h2, -⟩
    omega
  refine (Journal.view_empty hd).trans ?_
  refine (hi.disk_val hpin (h.unchanged hi hcom)).trans ((h.ok.val hup n hh).trans ?_)
  rw [h.ok.closed hcom, append_nil]
  show _ = replay s.base (s.groups.take s.groups.length).flatten n
  rw [take_length]
  rfl

theorem Durable.logCopy {t tb fb : Nat} (hpc : (s.procs p).pc = .logCopy t tb fb)
    (e : run cf s p (.logCopy t tb fb) = some s') : Durable cf s' := by
  obtain ⟨hd, hs, hn⟩ := h.at hi hpc
  obtain ⟨-, hup⟩ := hi.admits.commits p (by rw [hpc]; rfl)
  cases e
  have htb : (s.cache.buf tb).blockno = cf.start + t + 1 := hn (tb, _) (by simp [Pc.names])
  have hfb : (s.cache.buf fb).blockno = s.log.lh.block t := hn (fb, _) (by simp [Pc.names])
  have hdata : (s.cache.buf fb).data = s.cache.val (s.log.lh.block t) := by
    have := (hi.coherent (p := p) (b := fb) trivial
      (by rw [Proc.ready, hpc]; simp [Pc.ready, Pc.bufs])).2
    rwa [hfb] at this
  obtain ⟨hlhs, -, hhome⟩ := h.ok.lh hup
  have hsize : t + 1 < cf.size := by
    have h1 : t < s.core.lh.n := hs.1
    omega
  have hcore := core_copy s p tb (s.cache.buf fb).data (.logRel t tb fb)
  rw [htb] at hcore
  refine h.goto hi hpc (by rintro ⟨⟩) rfl hcore (h.ok.writeCopy hd.1 hsize)
    ⟨(journal_write_ne (by omega)).1.trans hd.1, fun i hit => ?_⟩
  have hval : (s.core.write (cf.start + t + 1) (s.cache.buf fb).data).val (s.log.lh.block i) =
      s.cache.val (s.log.lh.block i) :=
    update_of_ne ((hhome i (by show i < s.log.lh.n; have := hs.1; omega)).ne_log hsize) ..
  refine Eq.trans ?_ hval.symm
  by_cases hi : i = t
  · rw [hi, ← hdata]
    exact update_self ..
  · rw [journal_write_copy (by omega)]
    exact hd.2 i (by omega)

theorem Durable.headFill {next : Pc} (hsize : 0 < cf.size) (hpc : (s.procs p).pc = .headFill b next)
    (e : run cf s p (.headFill b next) = some s') : Durable cf s' := by
  obtain ⟨hd, hs, hn⟩ := h.at hi hpc
  cases e
  have hb : (s.cache.buf b).blockno = cf.start := hn (b, _) (by simp [Pc.names])
  have hcore := core_copy s p b (s.log.lh.put (s.cache.buf b).data) (.headRel b next)
  rw [hb] at hcore
  cases next with
  | install r t =>
    cases r with
    | true => exact hd.elim
    | false =>
      obtain rfl : t = 0 := by
        cases t with
        | zero => rfl
        | succ t => cases hs.1
      obtain ⟨hcom, hup⟩ := hi.admits.commits p (by rw [hpc]; rfl)
      obtain ⟨hlhs, hlim, hhome⟩ := h.ok.lh hup
      have hin : s.log.installed = 0 := hs.2.2.2
      refine h.goto hi hpc (by rintro ⟨⟩) rfl
        (k := { s.core.write cf.start (s.log.lh.put (s.cache.buf b).data) with
        durable := s.groups.length }) ?_
          (h.ok.writeHead hup hcom (hi.admits.distinct hup) hd.2 ?_ hsize)
        ⟨⟨?_, ?_, rfl⟩, fun _ i hil => ?_, (by rintro _ ⟨⟩)⟩
      · rw [if_pos rfl]
        exact congrArg (fun k : Core => { k with durable := s.groups.length }) hcore
      · intro n hh hnot
        refine hi.disk_val ?_ (h.unchanged hi hcom)
        rintro ⟨i, -, hil, e⟩
        exact hnot i hil e
      · exact (journal_put hlim).1
      · exact (journal_put hlim).2
      · have hval : (s.core.write cf.start (s.log.lh.put (s.cache.buf b).data)).val
            (s.log.lh.block i) = s.cache.val (s.log.lh.block i) :=
            update_of_ne ((hhome i hil).ne_start hsize) ..
        refine Eq.trans ?_ hval.symm
        exact (journal_write_copy (by omega)).trans (hd.2 i hil)
  | endOp | recovered =>
    refine h.goto hi hpc (by rintro ⟨⟩) rfl
      (k := s.core.write cf.start (s.log.lh.put (s.cache.buf b).data)) ?_
      (h.ok.dropHead hs.2.2.1 hd.1 hsize)
      ⟨(journal_put (hs.2.2.1.symm ▸ Nat.zero_le _ : s.log.lh.n ≤ LOGSIZE)).1.trans hs.2.2.1, hd.2⟩
    rw [← hcore]
    rfl
  | _ => cases hs.1

theorem Durable.instCopy {r : Bool} {t l d : Nat} (hpc : (s.procs p).pc = .instCopy r t l d)
    (e : run cf s p (.instCopy r t l d) = some s') : Durable cf s' := by
  obtain ⟨⟨hl, hc, hin⟩, hs, hn⟩ := h.at hi hpc
  have ht : t < s.core.lh.n := hs.1
  have hlb : (s.cache.buf l).blockno = cf.start + t + 1 := hn (l, _) (by simp [Pc.names])
  have hdb : (s.cache.buf d).blockno = s.log.lh.block t := hn (d, _) (by simp [Pc.names])
  have hsize : s.core.lh.n + 1 ≤ cf.size := by
    have := h.ok.header.size
    rw [hl.n] at this
    exact this.resolve_right (by omega)
  have hdata : (s.cache.buf l).data = (journal cf s.core.disk).copy t :=
    h.log_data hi (p := p) (by rw [Proc.ready, hpc]; simp [Pc.ready, Pc.bufs]) hlb
      (cf.not_home_log (by omega))
  have hcom : s.core.up = true → r = false ∧ s.core.committing = true := by
    intro hup
    cases r with
    | true => exact absurd ((hi.admits.recovers p (by rw [hpc]; rfl)).2.symm.trans hup) (by simp)
    | false => exact ⟨rfl, (hi.admits.commits p (by rw [hpc]; rfl)).1⟩
  have hok := h.ok.install hl ht (fun hup => hc (hcom hup).1) fun hup => (hcom hup).2
  have hhome : cf.Home (s.core.lh.block t) := hl.entry t ht ▸ h.ok.header.home t (hl.n ▸ ht)
  obtain ⟨hn', he⟩ := journal_write_ne (k := s.core) (d := (journal cf s.core.disk).copy t)
    (hhome.ne_start (by omega))
  have hcopy : ∀ i < s.core.lh.n,
      (journal cf (s.core.installed cf t).disk).copy i = (journal cf s.core.disk).copy i :=
      fun i hi => journal_write_copy (hhome.ne_log (by omega))
  have hlisted : (s.core.installed cf t).Listed cf :=
    ⟨hn'.trans hl.n, fun i hi => (he i).trans (hl.entry i hi), hl.durable⟩
  have hcopied : r = false → (s.core.installed cf t).CopiedTo cf s.core.lh.n := by
    intro hr i hi
    rw [hcopy i hi]
    show _ = update s.core.val (s.core.lh.block t) _ (s.core.lh.block i)
    by_cases e : s.core.lh.block i = s.core.lh.block t
    · rw [e, update_self]
      rw [hc hr i hi, hc hr t ht, e]
    · rw [update_of_ne e]
      exact hc hr i hi
  have hinst : (s.core.installed cf t).InstalledTo cf (t + 1) := by
    intro i hit
    rw [hcopy i (by omega)]
    show update s.core.disk (s.core.lh.block t) _ (s.core.lh.block i) = _
    by_cases e : i = t
    · rw [e, update_self]
    · have hne : s.core.lh.block i ≠ s.core.lh.block t := by
        rw [← hl.entry i (by omega), ← hl.entry t ht]
        exact fun e' => e (h.ok.header.distinct i (by rw [hl.n]; omega) t (hl.n ▸ ht) e')
      rw [update_of_ne hne]
      exact hin i (by omega)
  cases e
  have hcore := core_copy s p d (s.cache.buf l).data
    (if r then .instRel r t l d else .instPin t l d)
  rw [hdb, hdata] at hcore
  refine h.goto hi hpc (Mode.ofRecovering_ne r) rfl (hdata ▸ hcore) hok ?_
  cases r with
  | true => exact ⟨hlisted, hcopied, hinst⟩
  | false => exact ⟨hlisted, hcopied rfl, hinst⟩

theorem Durable.clear {r : Bool} (hpc : (s.procs p).pc = .clear r)
    (e : run cf s p (.clear r) = some s') : Durable cf s' := by
  obtain ⟨⟨hl, -, hin⟩, -⟩ := h.at hi hpc
  cases e
  have hsettled : (journal cf s.core.disk).Settled := by
    intro i hi
    rw [hl.n] at hi
    rw [hl.entry i hi]
    exact hin i hi
  refine h.goto hi hpc (Mode.ofRecovering_ne r) rfl rfl
    { h.ok with lh := fun _ => ⟨.inr rfl, Nat.zero_le _, nofun⟩ } ?_
  cases r <;> exact ⟨hsettled, hl.durable⟩

theorem Durable.endCommit (hpc : (s.procs p).pc = .endOp) (e : run cf s p .endOp = some s') :
    Durable cf s' := by
  obtain ⟨hd, -⟩ := h.at hi hpc
  cases e
  exact Durable.wakeup (h.goto hi hpc nofun rfl rfl
    { h.ok with closed := nofun, idle := fun _ _ => hd, returned := hd.2.ge } trivial)

theorem Durable.headRead (hsize : 0 < cf.size) (hpc : (s.procs p).pc = .headRead b)
    (e : run cf s p (.headRead b) = some s') : Durable cf s' := by
  obtain ⟨-, -, hn⟩ := h.at hi hpc
  have hup := (hi.admits.recovers p (by rw [hpc]; rfl)).2
  have hdata : (s.cache.buf b).data = s.cache.disk cf.start :=
    h.log_data hi (p := p) (by rw [Proc.ready, hpc]; simp [Pc.ready, Pc.bufs])
      (hn (b, _) (by simp [Pc.names])) (cf.not_home_start hsize)
  cases e
  rw [hdata]
  exact h.goto hi hpc (by rintro ⟨⟩) rfl rfl
    { h.ok with lh := fun e => absurd (hup.symm.trans e) (by simp) }
    ⟨⟨rfl, fun i hi => (LogHeader.get_block hi).symm, (h.ok.down hup).1⟩, (by simp),
      (by rintro _ ⟨⟩)⟩

theorem Durable.recovered (hpc : (s.procs p).pc = .recovered)
    (e : run cf s p .recovered = some s') : Durable cf s' := by
  obtain ⟨hd, hs, -⟩ := h.at hi hpc
  have hup := (hi.admits.recovers p (by rw [hpc]; rfl)).2
  obtain ⟨hdur, hcur, hval⟩ := h.ok.down hup
  cases e
  refine h.goto hi hpc nofun rfl rfl { h.ok with
      lh := fun _ => ⟨.inr hs.1, hs.1 ▸ Nat.zero_le _, fun i hi => absurd (hs.1 ▸ hi)
        (Nat.not_lt_zero i)⟩
      val := fun _ n hn => ?_
      down := nofun
      idle := fun _ _ => hd } trivial
  have hv := h.ok.view n hn
  rw [Journal.view_empty hd.1, hdur, take_length] at hv
  show s.core.val n = replay s.core.base (s.core.groups.flatten ++ s.core.cur) n
  rw [hval, hcur, append_nil]
  exact hv

/-- **One step in `log.c` or `bio.c`.** -/
theorem Durable.run (hsize : 0 < cf.size) (hpc : (s.procs p).pc = pc)
    (e : run cf s p pc = some s') : Durable cf s' := by
  by_cases hl : pc.loud = false
  · exact h.run_quiet hi hpc hl e
  cases pc with
  | beginOp => exact h.beginOp hi hpc e
  | commit => exact h.commit hi hpc e
  | logCopy => exact h.logCopy hi hpc e
  | headFill => exact h.headFill hi hsize hpc e
  | instCopy => exact h.instCopy hi hpc e
  | clear => exact h.clear hi hpc e
  | endOp => exact h.endCommit hi hpc e
  | headRead => exact h.headRead hi hsize hpc e
  | recovered => exact h.recovered hi hpc e
  | _ => exact absurd rfl hl

/-- A change to a block. -/
theorem Durable.store {d : Block} (hc : s.Calls cf p)
    (hw : s.Operates cf (.store p b d)) : Durable cf (store s p b d) := by
  obtain ⟨-, hup, hp, hpc⟩ := hc
  obtain ⟨ho, hhome⟩ := hw
  have hcom := hi.admits.inOp hp ho
  refine h.turn hi (k := { s.core with
      val := update s.core.val (s.cache.buf b).blockno d
      cur := s.core.cur ++ [Ev.store p (s.cache.buf b).blockno d] }) rfl ?_
    { h.ok with
      log := fun n hn => ?_
      val := fun hu n hn => ?_
      closed := fun e => absurd (hcom.symm.trans e) (by simp)
      down := fun e => absurd (hup.symm.trans e) (by simp) }
        (.inr fun q _ => hi.admits.allUser hup hcom q) ?_ fun _ _ => ho
  · simp only [Fs.store, if_pos ho]
    rfl
  · have hne : n ≠ (s.cache.buf b).blockno := fun e => hn (e ▸ hhome)
    exact (update_of_ne hne ..).trans (h.ok.log n hn)
  · have hold : s.core.val n = _ := h.ok.val hu n hn
    show update s.core.val _ d n =
        replay s.core.base (s.core.groups.flatten ++ (s.core.cur ++ [_])) n
    rw [← append_assoc, replay_append _ (s.core.groups.flatten ++ s.core.cur)]
    show _ = update (replay s.core.base (s.core.groups.flatten ++ s.core.cur)) _ d n
    by_cases e : n = (s.cache.buf b).blockno
    · rw [e, update_self, update_self]
    · rw [update_of_ne e, update_of_ne e, hold]
  · show (s.procs p).pc.Disk cf _
    rw [hpc]
    trivial

/-- `log_write`. -/
theorem Durable.logWrite (hc : s.Calls cf p)
    (hw : s.Operates cf (.logWrite p b)) (e : LogWrites cf s p b s') : Durable cf s' := by
  obtain ⟨-, hup, hp, hpc⟩ := hc
  obtain ⟨ho, hhome⟩ := hw
  have hcom := hi.admits.inOp hp ho
  obtain ⟨hlhs, hlim, hh⟩ := h.ok.lh hup
  have hQ : ∀ k, ((s.procs p).mark b false).pc.Disk cf k := by
    intro k
    show (s.procs p).pc.Disk cf k
    rw [hpc]
    trivial
  cases e with
  | tooBig | outside => exact ⟨h.ok, h.disk, h.dirty⟩
  | new hroom =>
    refine h.turn hi (k := { s.core with lh := s.log.lh.add (s.cache.buf b).blockno }) rfl rfl
      { h.ok with lh := fun _ => ⟨.inl ?_, ?_, fun i hi => ?_⟩ }
      (.inr fun q _ => hi.admits.allUser hup hcom q) (hQ _) fun _ _ => ho
    · show s.log.lh.n + 1 + 1 ≤ cf.size
      omega
    · show s.log.lh.n + 1 ≤ LOGSIZE
      omega
    · show cf.Home ((s.log.lh.add (s.cache.buf b).blockno).block i)
      rcases LogHeader.mem_add.1 ⟨i, hi, rfl⟩ with ⟨j, hj, e⟩ | e
      · rw [← e]
        exact hh j hj
      · rw [e]
        exact hhome
  | old => exact h.turn hi rfl rfl h.ok (.inl rfl) (hQ _) fun _ _ => ho

/-- `end_op`, until `commit`. -/
theorem Durable.endOp (hc : s.Calls cf p) (ho : (s.procs p).inOp = true)
    (hw : s.Operates cf (.endOp p)) : Durable cf (endOp s p) := by
  obtain ⟨-, hup, hp, hpc⟩ := hc
  have hcom := hi.admits.inOp hp ho
  obtain ⟨h0, hdur⟩ := h.ok.idle hup hcom
  have hclean : ∀ b, ⟨b, true⟩ ∉ (s.procs p).held := fun b hb => absurd (hw _ hb) (by simp)
  have hval : ∀ n, cf.Home n →
      s.core.val n =
        replay s.core.base (s.core.groups.flatten ++ (s.core.cur ++ [Ev.finish p])) n := by
    intro n hn
    rw [← append_assoc, replay_append _ (s.core.groups.flatten ++ s.core.cur)]
    exact h.ok.val hup n hn
  have hother : ∀ q, q ≠ p → (s.procs q).pc.mode = .user := fun q _ => hi.admits.allUser hup hcom q
  simp only [Fs.endOp]
  rw [if_neg (by rw [hcom]; simp)]
  split
  · refine h.turn hi rfl rfl ⟨h.ok.header, fun n hn => ?_, h.ok.log, h.ok.lh, fun _ n hn => ?_,
      fun _ => rfl, fun e => absurd (hup.symm.trans e) (by simp), (by rintro _ ⟨⟩), h.ok.returned,
      ?_⟩ (.inr hother) h0 fun b hb => absurd hb (hclean b)
    · refine (h.ok.view n hn).trans ?_
      show replay s.core.base (s.core.groups.take s.core.durable).flatten n =
        replay s.core.base ((s.core.groups ++ [_]).take s.core.durable).flatten n
      rw [take_append_of_le_length h.ok.durable]
    · refine (hval n hn).trans ?_
      show _ = replay s.core.base ((s.core.groups ++ [s.core.cur ++ [Ev.finish p]]).flatten ++ []) n
      rw [append_nil, flatten_append, flatten_singleton]
    · show s.core.durable ≤ (s.core.groups ++ [_]).length
      rw [length_append]
      exact h.ok.durable.trans (Nat.le_add_right ..)
  · refine Durable.wakeup (h.turn hi rfl rfl ⟨h.ok.header, h.ok.view, h.ok.log, h.ok.lh,
      fun _ => hval, fun e => absurd (hcom.symm.trans e) (by simp),
      fun e => absurd (hup.symm.trans e) (by simp), h.ok.idle, h.ok.returned, h.ok.durable⟩
      (.inr hother) ?_ fun b hb => absurd hb (hclean b))
    show (s.procs p).pc.Disk cf _
    rw [hpc]
    trivial

end

/-- **The machine starts.** -/
theorem Durable.boot {disk base : Nat → Block} {groups : List (List Ev)} {returned : Nat}
    (hh : HeaderOk cf (journal cf disk))
    (hv : ∀ n, cf.Home n → (journal cf disk).view n = replay base groups.flatten n)
    (hr : returned ≤ groups.length) : Durable cf (boot disk base groups returned) := by
  have hproc : ∀ p (k : Core), ((Fs.boot disk base groups returned).procs p).held = [] ∧
      ((Fs.boot disk base groups returned).procs p).pc.Disk cf k := by
    intro p k
    show (if p = 0 then _ else _ : Proc).held = [] ∧ (if p = 0 then _ else _ : Proc).pc.Disk cf k
    split <;> exact ⟨rfl, trivial⟩
  refine ⟨⟨hh, fun n hn => (hv n hn).trans ?_, fun _ _ => rfl, nofun, nofun, nofun,
    fun _ => ⟨rfl, rfl, rfl⟩, nofun, hr, le_rfl⟩, fun p => (hproc p _).2, fun p b hb => ?_⟩
  · show _ = replay base (groups.take groups.length).flatten n
    rw [take_length]
  · rw [(hproc p (Fs.boot disk base groups returned).core).1] at hb
    cases hb

/-- **One step of a run that uses the log as it should.** -/
theorem Durable.exec (h : Durable cf s) (hi : Inv True cf s) (hsize : 0 < cf.size)
    (hw : s.Operates cf a) (e : exec cf s a = some s') : Durable cf s' := by
  cases exec_cases e with
  | run _ e => exact h.run hi hsize rfl e
  | bread => exact h.quiet .bread (bread_pc (fun _ => trivial) (h.disk _))
  | store hc => exact h.store hi hc hw
  | logWrite hc _ e => exact h.logWrite hi hc hw e
  | bwrite => exact hw.elim
  | @brelse p =>
    exact h.turn hi rfl rfl h.ok (.inl rfl) trivial fun a ha => h.dirty p a (mem_filter.1 ha).1
  | @beginOp p | @wake p => exact h.turn hi rfl rfl h.ok (.inl rfl) trivial (h.dirty p)
  | endOp hc ho => exact h.endOp hi hc ho hw
  | crash =>
    refine .boot h.ok.header h.ok.view ?_
    rw [length_take]
    exact Nat.le_min.2 ⟨h.ok.returned, h.ok.returned.trans h.ok.durable⟩

/-- **What survives is right in every state.** -/
theorem system_durable (hdev : cf.dev ≠ 0) (hsize : 0 < cf.size)
    (h : ((system cf).restrict (Sys.Disciplined cf)).Reach s) : Durable cf s := by
  refine h.invariant (I := Durable cf) ?_ ?_
  · rintro s ⟨disk, h0, rfl⟩
    exact .boot (headerOk_empty h0) (fun n _ => Journal.view_empty h0) le_rfl
  · rintro s a s' hr h ⟨hw, e⟩
    exact h.exec (system_inv hdev (hr.mono fun _ _ e _ => e.2)) hsize hw.1 e

end Xv6.Fs
