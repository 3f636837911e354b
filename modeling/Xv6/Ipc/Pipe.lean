import Mathlib.Algebra.Group.Nat.Defs
import Xv6.Lib.Bytes
import Xv6.Lib.Monitor
import Xv6.Lib.Ring

/-!
# Ipc/Pipe — pipes

`pipewrite`, `piperead` and `pipeclose` on one pipe, by any number of processes, with `kill` at any
time.  A step is one turn of a loop under `pi->lock`, or one `killed` check.  Whether the page is
still the pipe's is the business of the file table: here it stays as it is when the pipe is freed.

`accepted` and `delivered` record the bytes that writers have stored and readers have copied out.  A
pipe is a queue between the two (`pipe_fifo`).
-/

namespace Xv6.Pipe

open Function

/-- The size of the buffer. -/
def PIPESIZE : Nat := 512

/-- The addresses processes sleep on: `&pi->nread` and `&pi->nwrite`. -/
inductive Chan
  | nread
  | nwrite
  deriving DecidableEq

/-- The points of `pipewrite`, `piperead` and `pipeclose`, with the local variables that are live
there. -/
inductive Point
  | write (n i : Int)
  | writeKilled (n i : Int)
  | writeFull (n i : Int)
  | read (n : Int)
  | readKilled (n : Int)
  | copy (n i : Int)
  | close (writable : Bool)
  | closeFree

/-- The functions, with their arguments. -/
inductive Func
  | pipewrite (n : Int)
  | piperead (n : Int)
  | pipeclose (writable : Bool)

/-- `struct pipe`, whether it has been freed, and what has gone in and come out. -/
structure State where
  data : Nat → UInt8
  nread : Nat
  nwrite : Nat
  readopen : Bool
  writeopen : Bool
  freed : Bool
  accepted : List UInt8
  delivered : List UInt8

/-- `pipealloc`: the page is as `kalloc` returns it. -/
def pipealloc (data : Nat → UInt8) : State := ⟨data, 0, 0, true, true, false, [], []⟩

namespace State

/-- `pi->nwrite == pi->nread + PIPESIZE`. -/
def full (x : State) : Prop := x.nwrite = (x.nread + PIPESIZE) % UINT

/-- `pi->nread == pi->nwrite`. -/
def empty (x : State) : Prop := x.nread = x.nwrite

instance (x : State) : Decidable x.full := inferInstanceAs (Decidable (_ = _))

instance (x : State) : Decidable x.empty := inferInstanceAs (Decidable (_ = _))

/-- `pi->data[pi->nwrite++ % PIPESIZE] = ch`. -/
def store (x : State) (ch : UInt8) : State :=
  { x with
    data := update x.data (x.nwrite % PIPESIZE) ch
    nwrite := (x.nwrite + 1) % UINT
    accepted := x.accepted ++ [ch] }

/-- `ch = pi->data[pi->nread++ % PIPESIZE]`, of which the reader gets a copy unless `copyout`
fails. -/
def take (x : State) (copied : Bool) : State :=
  { x with
    nread := (x.nread + 1) % UINT
    delivered := if copied then x.delivered ++ [x.data (x.nread % PIPESIZE)] else x.delivered }

/-- The slots of `data` from `nread` up to `nwrite`. -/
def pending (x : State) : List UInt8 :=
  (List.range ((x.nwrite + UINT - x.nread) % UINT)).map fun k => x.data
    ((x.nread + k) % UINT % PIPESIZE)

end State

/-- The end of `pipewrite`. -/
def writeEnd (i : Int) : Code Point Chan := .wakeup .nread 0 (.release i)

/-- The end of `piperead`. -/
def readEnd (i : Int) : Code Point Chan := .wakeup .nwrite 0 (.release i)

/-- **The code of `pipe.c`**, point by point.  Where a byte is copied from or to the user, `user` is
that byte, or `none` if the copy fails. -/
def body (x : State) (killed : Bool) (user : Option UInt8) : Point → State × Code Point Chan
  | .write n i =>
    (x, if ¬i < n then writeEnd i else if x.readopen = false then .release (-1) else .body
      (.writeKilled n i))
  | .writeKilled n i => (x, if killed then .release (-1) else .body (.writeFull n i))
  | .writeFull n i =>
    if x.full then (x, .wakeup .nread 0 (.sleep .nwrite (.write n i)))
    else match user with
      | none => (x, writeEnd i)
      | some ch => (x.store ch, .body (.write n (i + 1)))
  | .read n =>
    (x, if x.empty ∧ x.writeopen = true then .body (.readKilled n) else .body (.copy n 0))
  | .readKilled n => (x, if killed then .release (-1) else .sleep .nread (.read n))
  | .copy n i =>
    if i < n ∧ ¬x.empty then
      (x.take user.isSome, if user.isSome then .body (.copy n (i + 1)) else readEnd i)
    else (x, readEnd i)
  | .close true => ({ x with writeopen := false }, .wakeup .nread 0 (.body .closeFree))
  | .close false => ({ x with readopen := false }, .wakeup .nwrite 0 (.body .closeFree))
  | .closeFree => ({ x with freed := x.freed || (!x.readopen && !x.writeopen) }, .release 0)

/-- Where the functions start, once they have the lock. -/
def Func.entry : Func → Point
  | .pipewrite n => .write n 0
  | .piperead n => .read n
  | .pipeclose writable => .close writable

/-- A pipe behind `pi->lock`. -/
def monitor : Monitor State (Option UInt8) Point Chan Func where
  body := body
  start x f := (x, f.entry)
  handler _ := false

/-- A pipe as `pipealloc` leaves it. -/
def New (x : State) : Prop := ∃ data, x = pipealloc data

abbrev Sys := Monitor.Sys State Point Chan

abbrev Label := Monitor.Label (Option UInt8) Func

/-- A pipe in a system with `N` processes, from `pipealloc` on. -/
def system (N : Nat) : LTS Sys Label := monitor.system N New

/-! ## A pipe is a queue -/

variable {x : State} {user : Option UInt8} {b : Point} {k : Bool}

/-- The buffer holds what was accepted and has not been delivered. -/
def Fifo (x : State) : Prop :=
  ∃ l, Queue UINT PIPESIZE x.data x.nread x.nwrite l ∧ x.accepted = x.delivered ++ l

theorem PIPESIZE_lt : PIPESIZE < UINT := by decide

theorem PIPESIZE_dvd : PIPESIZE ∣ UINT := by decide

theorem Fifo.store (h : Fifo x) (hroom : ¬x.full) (ch : UInt8) : Fifo (x.store ch) := by
  obtain ⟨l, hq, e⟩ := h
  have hlt : l.length < PIPESIZE :=
    Nat.lt_of_le_of_ne hq.fits fun hl => hroom ((hq.full_iff PIPESIZE_lt).2 hl)
  refine ⟨l ++ [ch], (hq.set_free PIPESIZE_dvd hlt ch).push hlt (update_self ..), ?_⟩
  change x.accepted ++ [ch] = x.delivered ++ (l ++ [ch])
  rw [e, List.append_assoc]

theorem Fifo.take (h : Fifo x) (hthere : ¬x.empty) : Fifo (x.take true) := by
  obtain ⟨l, hq, e⟩ := h
  match l with
  | [] => exact absurd ((hq.eq_iff PIPESIZE_lt).2 rfl) hthere
  | b :: l =>
    obtain ⟨hb, hq⟩ := hq.pop
    refine ⟨l, hq, ?_⟩
    change x.accepted = x.delivered ++ [x.data (x.nread % PIPESIZE)] ++ l
    rw [hb, e, List.append_assoc]
    rfl

/-- **A step stores a byte where there is room, takes one that is there**, or leaves the buffer
alone. -/
theorem Fifo.body (h : Fifo x) (hu : user ≠ none) : Fifo (body x k user b).1 := by
  cases b with
  | writeFull n i =>
    simp only [Pipe.body]
    split
    · exact h
    next hroom =>
      cases user with
      | none => exact h
      | some ch => exact h.store hroom ch
  | copy n i =>
    rw [Pipe.body]
    split
    next hc =>
      rw [Option.isSome_iff_ne_none.2 hu]
      exact h.take hc.2
    next => exact h
  | close writable => cases writable <;> exact h
  | write | writeKilled | read | readKilled | closeFree => exact h

/-- The copies from and to the user succeed. -/
def Copies (_ : Sys) (l : Label) : Prop := ∀ p user, l = .run p user → user ≠ none

/-- **A pipe is a first-in first-out channel.**  There are never more than `PIPESIZE` bytes in it;
what readers have got is a prefix of what writers have put in, and the rest is in the slots between
the two indices. -/
theorem pipe_fifo (N : Nat) (s : Sys) (h : ((system N).restrict Copies).Reach s) :
    (s.obj.nwrite + UINT - s.obj.nread) % UINT ≤ PIPESIZE ∧
      s.obj.accepted = s.obj.delivered ++ s.obj.pending := by
  have hnew : ∀ x, New x → Fifo x := by
    rintro _ ⟨data, rfl⟩
    exact ⟨[], .empty (Nat.two_pow_pos 32), rfl⟩
  obtain ⟨l, hq, e⟩ : Fifo s.obj :=
    Monitor.obj_invariant (Q := (· ≠ none)) hnew (fun _ _ _ _ hx hu => hx.body hu)
      (fun _ _ hx => hx) h
  have hlen := hq.length_eq PIPESIZE_lt
  refine ⟨hlen ▸ hq.fits, ?_⟩
  rw [e, State.pending, hlen, ← hq.eq_map]

instance {s : Sys} : DecidablePred (Copies s)
  | .run _ none => .isFalse fun h => h _ _ rfl rfl
  | .run _ (some _) => .isTrue fun _ _ e => by cases e; nofun
  | .call .. | .kill _ => .isTrue nofun

/-- Process `p` takes so many steps, in which the user's byte is `b`. -/
def steps (p n : Nat) (b : UInt8) : List Label := List.replicate n (.run p (some b))

theorem pipe_fifo_two : ∃ s, ((system 2).restrict Copies).Reach s ∧
    (s.obj.accepted == [7, 7] && s.obj.delivered == [7]) = true ∧
    (s.obj.nwrite + UINT - s.obj.nread) % UINT ≤ PIPESIZE ∧
    s.obj.accepted = s.obj.delivered ++ s.obj.pending := by
  have h : ((system 2).restrict Copies).Reach (.start (pipealloc fun _ => 0)) :=
    .init ⟨_, ⟨_, rfl⟩, rfl⟩
  -- two bytes are written, and one is read
  obtain ⟨s, hs, hP⟩ := h.play_guarded (f := monitor.exec 2) (fun _ _ _ e => e)
    (l := .call 0 (.pipewrite 2) :: steps 0 12 7 ++ .call 1 (.piperead 1) :: steps 1 4 7)
    (P := fun s : Sys => s.obj.accepted == [7, 7] && s.obj.delivered == [7]) (by decide +kernel)
  exact ⟨s, hs, hP, pipe_fifo 2 s hs⟩

end Xv6.Pipe
