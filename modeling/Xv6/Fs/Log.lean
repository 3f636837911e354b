import Xv6.Fs.Bio
import Xv6.Lib.LTS

/-!
# Fs/Log — file-system transactions

`log.c` and the processes that use it: `begin_op` and `end_op` around an operation, `bread`,
changes, `log_write`, `bwrite` and `brelse` in it, `commit` by whoever ends last, and
`recover_from_log` after a crash.  What a process does between two program points is under
`log.lock` or `bcache.lock`, or on buffers it has locked, or is one transfer of a block; so
processes take turns at program points.
-/

namespace Xv6.Fs

open Function

/-- What an operation may write. -/
def MAXOPBLOCKS : Nat := 10

/-- What a transaction may write. -/
def LOGSIZE : Nat := MAXOPBLOCKS * 3

/-! ## The header block -/

/-- `struct logheader`. -/
structure LogHeader where
  n : Nat := 0
  block : Nat → Nat := fun _ => 0

/-- A load from a block. -/
def Block.word (d : Block) (i : Nat) : Nat := if h : i < 256 then d ⟨i, h⟩ else 0

/-- A store to a block. -/
def Block.setWord (d : Block) (i v : Nat) : Block := fun j => if j.val = i then v else d j

/-- What `write_head` does to the header block. -/
def LogHeader.put (lh : LogHeader) (d : Block) : Block :=
  (List.range lh.n).foldl (fun d i => d.setWord (i + 1) (lh.block i)) (d.setWord 0 lh.n)

/-- What `read_head` does with it. -/
def LogHeader.get (lh : LogHeader) (d : Block) : LogHeader where
  n := d.word 0
  block := (List.range (d.word 0)).foldl (fun f i => update f i (d.word (i + 1))) lh.block

/-! ## State -/

/-- `struct log`, but for what never changes.  Nothing reads `installed`: how many of the blocks
`commit` has let go. -/
structure Log where
  outstanding : Nat := 0
  committing : Bool := false
  lh : LogHeader := {}
  installed : Nat := 0

/-- Program points, with the local variables that are live there.  `lock`, `fill` and `rel` are in
`bget`, `bread` and `brelse`, with the point to go on from. -/
inductive Pc
  | user
  | ret (n b : Nat)
  | lock (b : Nat) (next : Pc)
  | fill (b : Nat) (next : Pc)
  | rel (b : Nat) (next : Pc)
  | beginOp
  | asleep
  | commit
  | writeLog (tail : Nat)
  | logFrom (tail tb : Nat)
  | logCopy (tail tb fb : Nat)
  | logRel (tail tb fb : Nat)
  | logTo (tail tb : Nat)
  | writeHead (next : Pc)
  | headFill (b : Nat) (next : Pc)
  | headRel (b : Nat) (next : Pc)
  | install (recovering : Bool) (tail : Nat)
  | instHome (recovering : Bool) (tail lbuf : Nat)
  | instCopy (recovering : Bool) (tail lbuf dbuf : Nat)
  | instPin (tail lbuf dbuf : Nat)
  | instRel (recovering : Bool) (tail lbuf dbuf : Nat)
  | instRelD (recovering : Bool) (tail dbuf : Nat)
  | clear (recovering : Bool)
  | endOp
  | readHead
  | headRead (b : Nat)
  | recovered
  deriving DecidableEq

/-- A buffer that a process has locked, and whether it has changed it since it last logged or wrote
it. -/
structure Hold where
  b : Nat
  dirty : Bool
  deriving DecidableEq

/-- A process: where it is, whether it is between `begin_op` and `end_op`, the buffers it holds, and
(read by nothing) the blocks it has logged in its operation. -/
structure Proc where
  pc : Pc := .user
  inOp : Bool := false
  held : List Hold := []
  logged : List Nat := []

/-- A buffer that is held is changed, logged or written. -/
def Proc.mark (P : Proc) (b : Nat) (dirty : Bool) : Proc :=
  { P with held := P.held.map fun h => if h.b = b then ⟨b, dirty⟩ else h }

/-- What happens in a transaction. -/
inductive Ev
  | start (p : Nat)
  | store (p n : Nat) (d : Block)
  | finish (p : Nat)

/-- The panics of `log.c`, and that of `bget`. -/
inductive Panic
  | tooBig
  | outside
  | committing
  | noBuffers
  deriving DecidableEq

/-- The machine.  Nothing reads the last five: what was on the disk at first, the events of the
transaction that is open, those of the transactions that were closed, how many of these are on the
disk, and for how many `end_op` has returned. -/
structure Sys where
  cache : Cache
  log : Log
  procs : Nat → Proc
  up : Bool
  panicked : Option Panic
  base : Nat → Block
  cur : List Ev
  groups : List (List Ev)
  durable : Nat
  returned : Nat

/-- The device, where its log is, and how many processes there are. -/
structure Conf where
  dev : Nat
  start : Nat
  size : Nat
  nproc : Nat

namespace Sys

/-- Change one process. -/
def setProc (s : Sys) (p : Nat) (f : Proc → Proc) : Sys :=
  { s with procs := update s.procs p (f (s.procs p)) }

/-- A process goes on. -/
def setPc (s : Sys) (p : Nat) (pc : Pc) : Sys := s.setProc p fun P => { P with pc := pc }

/-- `wakeup(&log)`. -/
def wakeup (s : Sys) : Sys :=
  { s with procs := fun p =>
      if (s.procs p).pc = .asleep then { s.procs p with pc := .beginOp } else s.procs p }

end Sys

/-! ## The code -/

section

variable (cf : Conf) (s : Sys) (p : Nat)

/-- `bread(log.dev, n)`, to go on with the buffer. -/
def bread (n : Nat) (next : Nat → Pc) : Sys :=
  match s.cache.bget cf.dev n with
  | some (b, c) => { s with cache := c }.setPc p (.lock b (next b))
  | none => { s with panicked := some .noBuffers }

/-- Program points on the way through `log.c` and `bio.c`. -/
def run : Pc → Option Sys
  | .user => none
  | .ret _ b => some (s.setProc p fun P => { P with pc := .user, held := ⟨b, false⟩ :: P.held })
  -- bget(), bread() and brelse()
  | .lock b next =>
    (s.cache.acquiresleep b p).map fun c => { s with cache := c }.setPc p (.fill b next)
  | .fill b next => some ({ s with cache := s.cache.fill b }.setPc p next)
  | .rel b next => some ({ s with cache := s.cache.brelse b }.setPc p next)
  -- begin_op()
  | .beginOp =>
    if s.log.committing then some (s.setPc p .asleep)
    else if s.log.lh.n + (s.log.outstanding + 1) * MAXOPBLOCKS > LOGSIZE then some
      (s.setPc p .asleep)
    else some ({ s with
      log := { s.log with outstanding := s.log.outstanding + 1 }, cur :=
        s.cur ++ [Ev.start p] }.setProc p fun P =>
          { P with pc := .user, inOp := true, logged := [] })
  | .asleep => none
  -- commit()
  | .commit =>
    if s.log.lh.n > 0 then some (s.setPc p (.writeLog 0))
    else some ({ s with durable := s.groups.length }.setPc p .endOp)
  -- write_log()
  | .writeLog tail =>
    if tail < s.log.lh.n then some (bread cf s p (cf.start + tail + 1) (.logFrom tail))
    else some (s.setPc p (.writeHead (.install false 0)))
  | .logFrom tail tb => some (bread cf s p (s.log.lh.block tail) (.logCopy tail tb))
  | .logCopy tail tb fb => some ({ s with
      cache := (s.cache.store tb (s.cache.buf fb).data).bwrite tb }.setPc p (.logRel tail tb fb))
  | .logRel tail tb fb =>
    some ({ s with cache := s.cache.releasesleep fb }.setPc p (.rel fb (.logTo tail tb)))
  | .logTo tail tb =>
    some ({ s with cache := s.cache.releasesleep tb }.setPc p (.rel tb (.writeLog (tail + 1))))
  -- write_head()
  | .writeHead next => some (bread cf s p cf.start fun b => .headFill b next)
  | .headFill b next => some ({ s with
      cache := (s.cache.store b (s.log.lh.put (s.cache.buf b).data)).bwrite b
      durable := if next = Pc.install false 0 then s.groups.length else s.durable }.setPc p
        (.headRel b next))
  | .headRel b next => some ({ s with cache := s.cache.releasesleep b }.setPc p (.rel b next))
  -- install_trans()
  | .install recovering tail =>
    if tail < s.log.lh.n then some (bread cf s p (cf.start + tail + 1) (.instHome recovering tail))
    else some (s.setPc p (.clear recovering))
  | .instHome recovering tail lbuf =>
    some (bread cf s p (s.log.lh.block tail) (.instCopy recovering tail lbuf))
  | .instCopy recovering tail lbuf dbuf => some ({ s with
      cache := (s.cache.store dbuf (s.cache.buf lbuf).data).bwrite dbuf }.setPc p
        (if recovering then .instRel recovering tail lbuf dbuf else .instPin tail lbuf dbuf))
  | .instPin tail lbuf dbuf => some ({ s with
      cache := s.cache.bunpin dbuf, log := { s.log with installed := s.log.installed + 1 } }.setPc p
        (.instRel false tail lbuf dbuf))
  | .instRel recovering tail lbuf dbuf =>
    some ({ s with cache := s.cache.releasesleep lbuf }.setPc p
      (.rel lbuf (.instRelD recovering tail dbuf)))
  | .instRelD recovering tail dbuf =>
    some ({ s with cache := s.cache.releasesleep dbuf }.setPc p
      (.rel dbuf (.install recovering (tail + 1))))
  | .clear recovering => some ({ s with
      log := { s.log with lh := { s.log.lh with n := 0 }, installed := 0 } }.setPc p
        (.writeHead (if recovering then .recovered else .endOp)))
  -- the end of end_op()
  | .endOp => some (({ s with
      log := { s.log with committing := false }, returned := s.groups.length }.setPc p
        .user).wakeup)
  -- recover_from_log() and read_head()
  | .readHead => some (bread cf s p cf.start .headRead)
  | .headRead b => some ({ s with
      log := { s.log with
        lh := s.log.lh.get (s.cache.buf b).data, installed :=
          (s.log.lh.get (s.cache.buf b).data).n } }.setPc p
        (.headRel b (.install true 0)))
  | .recovered => some ({ s with up := true }.setPc p .user)

/-- `log_write(b)`. -/
def logWrite (b : Nat) : Sys :=
  let lh := s.log.lh
  let n := (s.cache.buf b).blockno
  if lh.n ≥ LOGSIZE ∨ lh.n ≥ cf.size - 1 then { s with panicked := some .tooBig }
  else if s.log.outstanding < 1 then { s with panicked := some .outside }
  else
    let i := (List.range lh.n).findIdx fun i => lh.block i = n
    let s := { s with log := { s.log with lh := { lh with block := update lh.block i n } } }
    let s := if i = lh.n then { s with
        cache := s.cache.bpin b
        log := { s.log with lh := { s.log.lh with n := lh.n + 1 } } }
      else s
    s.setProc p fun P => { P.mark b false with logged := n :: P.logged }

/-- `end_op()`, until `commit`. -/
def endOp : Sys :=
  let s :=
    { s with
      log := { s.log with outstanding := s.log.outstanding - 1 }, cur := s.cur ++ [Ev.finish p] }
  if s.log.committing then { s with panicked := some .committing }
  else if s.log.outstanding = 0 then
    { s with
      log := { s.log with committing := true }, groups := s.groups ++ [s.cur], cur := [] }.setProc p
      fun P => { P with pc := .commit, inOp := false }
  else (s.setProc p fun P => { P with inOp := false }).wakeup

/-- A change to a buffer that is held. -/
def store (b : Nat) (d : Block) : Sys :=
  { s with
    cache := s.cache.store b d
    cur := if (s.procs p).inOp then s.cur ++ [Ev.store p (s.cache.buf b).blockno d] else s.cur
      }.setProc p fun P => P.mark b true

/-- `bwrite(b)`. -/
def bwrite (b : Nat) : Sys :=
  { s with cache := s.cache.bwrite b }.setProc p fun P => P.mark b false

/-- `brelse(b)`, until `bcache.lock` is acquired. -/
def brelse (b : Nat) : Sys :=
  { s with cache := s.cache.releasesleep b }.setProc p
    fun P => { P with pc := .rel b .user, held := P.held.filter fun h => h.b ≠ b }

end

/-! ## The system -/

/-- What can happen next. -/
inductive Label
  | run (p : Nat)
  | bread (p n : Nat)
  | store (p b : Nat) (d : Block)
  | logWrite (p b : Nat)
  | bwrite (p b : Nat)
  | brelse (p b : Nat)
  | beginOp (p : Nat)
  | endOp (p : Nat)
  | wake (p : Nat)
  | crash

/-- The machine starts, with what is on the disk: the first process recovers. -/
def boot (disk base : Nat → Block) (groups : List (List Ev)) (returned : Nat) : Sys where
  cache := .binit disk
  log := {}
  procs p := if p = 0 then { pc := .readHead } else {}
  up := false
  panicked := none
  base := base
  cur := []
  groups := groups
  durable := groups.length
  returned := returned

/-- A process that can make a call. -/
def Sys.Calls (cf : Conf) (s : Sys) (p : Nat) : Prop :=
  s.panicked = none ∧ s.up = true ∧ p < cf.nproc ∧ (s.procs p).pc = .user

instance {cf : Conf} {s : Sys} {p : Nat} : Decidable (s.Calls cf p) :=
  inferInstanceAs (Decidable (_ ∧ _))

/-- **One step.** -/
def exec (cf : Conf) (s : Sys) : Label → Option Sys
  | .run p => if s.panicked = none ∧ p < cf.nproc then run cf s p (s.procs p).pc else none
  | .bread p n => if s.Calls cf p then some (bread cf s p n (.ret n)) else none
  | .store p b d =>
    if s.Calls cf p ∧ b ∈ (s.procs p).held.map Hold.b then some (store s p b d) else none
  | .logWrite p b =>
    if s.Calls cf p ∧ b ∈ (s.procs p).held.map Hold.b then some (logWrite cf s p b) else none
  | .bwrite p b =>
    if s.Calls cf p ∧ b ∈ (s.procs p).held.map Hold.b then some (bwrite s p b) else none
  | .brelse p b =>
    if s.Calls cf p ∧ b ∈ (s.procs p).held.map Hold.b then some (brelse s p b) else none
  | .beginOp p =>
    if s.Calls cf p ∧ (s.procs p).inOp = false then some (s.setPc p .beginOp) else none
  | .endOp p => if s.Calls cf p ∧ (s.procs p).inOp = true then some (endOp s p) else none
  | .wake p =>
    -- kill() ends any sleep
    if s.panicked = none ∧ (s.procs p).pc = .asleep then some (s.setPc p .beginOp) else none
  | .crash => some (boot s.cache.disk s.base (s.groups.take s.durable) s.returned)

/-- **The log and the processes that use it**, from a disk whose log is empty. -/
def system (cf : Conf) : LTS Sys Label where
  init s := ∃ disk : Nat → Block, (disk cf.start).word 0 = 0 ∧ s = boot disk disk [] 0
  step s a s' := exec cf s a = some s'

/-- A buffer that was changed is logged or written before it is released. -/
def Sys.Settles (s : Sys) : Label → Prop
  | .brelse p b => ⟨b, true⟩ ∉ (s.procs p).held
  | _ => True

/-! ## What a step can be -/

/-- One more block in the log. -/
def LogHeader.add (lh : LogHeader) (n : Nat) : LogHeader :=
  { lh with n := lh.n + 1, block := update lh.block lh.n n }

section

variable {cf : Conf} {s s' : Sys} {a : Label} {p b : Nat}

/-- **What `log_write` can do**: it panics, or the block is new in the log, or it is there. -/
inductive LogWrites (cf : Conf) (s : Sys) (p b : Nat) : Sys → Prop
  | tooBig : LOGSIZE ≤ s.log.lh.n ∨ cf.size - 1 ≤ s.log.lh.n →
      LogWrites cf s p b { s with panicked := some .tooBig }
  | outside (h : s.log.outstanding < 1) : LogWrites cf s p b { s with panicked := some .outside }
  | new (hroom : ¬ (LOGSIZE ≤ s.log.lh.n ∨ cf.size - 1 ≤ s.log.lh.n))
      (hout : ¬ s.log.outstanding < 1)
    (hnew : ∀ i < s.log.lh.n, s.log.lh.block i ≠ (s.cache.buf b).blockno) :
    LogWrites cf s p b ({ s with
      cache := s.cache.bpin b
      log := { s.log with lh := s.log.lh.add (s.cache.buf b).blockno } }.setProc p
        fun P => { P.mark b false with logged := (s.cache.buf b).blockno :: P.logged })
  | old {i : Nat} (hout : ¬ s.log.outstanding < 1) (hi : i < s.log.lh.n)
      (hb : s.log.lh.block i = (s.cache.buf b).blockno) :
    LogWrites cf s p b
    (s.setProc p fun P => { P.mark b false with logged := (s.cache.buf b).blockno :: P.logged })

theorem logWrite_cases : LogWrites cf s p b (logWrite cf s p b) := by
  simp only [logWrite]
  split
  next h => exact .tooBig h
  next hroom =>
  split
  next h => exact .outside h
  next hout =>
  -- the loop of `log_write` ends at the end, or at the block
  split
  next hidx =>
    rw [hidx]
    refine .new hroom hout fun i hi => ?_
    have := List.not_of_lt_findIdx (hidx.symm ▸ hi)
    simpa using this
  next hidx =>
    have hlt := Nat.lt_of_le_of_ne (List.findIdx_le_length.trans_eq List.length_range) hidx
    have hblk := List.findIdx_getElem (w := hlt.trans_eq List.length_range.symm)
    rw [List.getElem_range, decide_eq_true_eq] at hblk
    rw [update_eq_self_iff.2 hblk.symm]
    exact .old hout hlt hblk

/-- **A step, by its label.** -/
inductive Exec (cf : Conf) (s : Sys) : Label → Sys → Prop
  | run {p : Nat} {s' : Sys} (hp : p < cf.nproc) (e : run cf s p (s.procs p).pc = some s') :
      Exec cf s (.run p) s'
  | bread {p n : Nat} (hc : s.Calls cf p) : Exec cf s (.bread p n) (bread cf s p n (.ret n))
  | store {p b : Nat} {d : Block} (hc : s.Calls cf p) (hb : b ∈ (s.procs p).held.map Hold.b) :
    Exec cf s (.store p b d) (store s p b d)
  | logWrite {p b : Nat} {s' : Sys} (hc : s.Calls cf p) (hb : b ∈ (s.procs p).held.map Hold.b)
      (e : LogWrites cf s p b s') :
    Exec cf s (.logWrite p b) s'
  | bwrite {p b : Nat} (hc : s.Calls cf p) (hb : b ∈ (s.procs p).held.map Hold.b) :
    Exec cf s (.bwrite p b) (bwrite s p b)
  | brelse {p b : Nat} (hc : s.Calls cf p) (hb : b ∈ (s.procs p).held.map Hold.b) :
    Exec cf s (.brelse p b) (brelse s p b)
  | beginOp {p : Nat} (hc : s.Calls cf p) (ho : (s.procs p).inOp = false) : Exec cf s (.beginOp p)
      (s.setPc p .beginOp)
  | endOp {p : Nat} (hc : s.Calls cf p) (ho : (s.procs p).inOp = true) :
      Exec cf s (.endOp p) (endOp s p)
  | wake {p : Nat} (hpc : (s.procs p).pc = .asleep) : Exec cf s (.wake p) (s.setPc p .beginOp)
  | crash : Exec cf s .crash (boot s.cache.disk s.base (s.groups.take s.durable) s.returned)

theorem exec_cases (e : exec cf s a = some s') : Exec cf s a s' := by
  cases a <;> first | (cases e; exact .crash) | obtain ⟨h, e⟩ := Option.ite_none_right_eq_some.1 e
  case run => exact .run h.2 e
  all_goals cases e
  case bread => exact .bread h
  case store => exact .store h.1 h.2
  case logWrite => exact .logWrite h.1 h.2 logWrite_cases
  case bwrite => exact .bwrite h.1 h.2
  case brelse => exact .brelse h.1 h.2
  case beginOp => exact .beginOp h.1 h.2
  case endOp => exact .endOp h.1 h.2
  case wake => exact .wake h.2

end

end Xv6.Fs
