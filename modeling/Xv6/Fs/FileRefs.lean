import Xv6.Fs.File
import Xv6.Lib.Tally

/-!
# Fs/FileRefs — references to files are accounted for

A reference to a file is a descriptor or a local variable of a call in progress (`Proc.own`), and
`ref` counts them (`Ledger`).  A descriptor that has no reference of its own — in `dup` before
`filedup`, in `exit` after `fileclose` — is `dead`.  Likewise each open end of a pipe is a file, or
a call of `pipeclose` that has not got to it; and a pipe with both ends closed is one call of
`kfree`.
-/

namespace Xv6.Files

open Tally Function Option

/-! ## What a process has -/

/-- The references in the local variables. -/
def Cont.held : Cont → List Nat
  | .close f => [f]
  | .ret | .exitClear _ => []

@[inherit_doc Cont.held]
def Point.held : Point → List Nat
  | .openFd f _ _ _ | .pipe1 f => [f]
  | .pipe2 f g | .pipeFd0 f g => [f, g]
  | .pipeFd1 _ wf _ => [wf]
  | .fileclose f k => f :: k.held
  | .pipeclose _ _ k | .kfree _ k | .iput k => k.held
  | _ => []

/-- The descriptor that has no reference of its own. -/
def Cont.dead : Cont → Option Nat
  | .exitClear fd => some fd
  | .ret | .close _ => none

@[inherit_doc Cont.dead]
def Point.dead : Point → Option Nat
  | .dupInc fd _ | .exitClear fd => some fd
  | .fileclose _ k | .pipeclose _ _ k | .kfree _ k | .iput k => k.dead
  | _ => none

/-- Files that have been allocated and not set up. -/
def Point.fresh : Point → List Nat
  | .openFd f _ _ _ | .openSet f _ _ _ | .pipe1 f => [f]
  | .pipe2 f g => [f, g]
  | _ => []

/-- Calls of `pipeclose` for an end of a pipe. -/
def Point.closes (pi : Nat) (w : Bool) : Point → Nat
  | .pipeclose pi' w' _ => if pi' = pi ∧ w' = w then 1 else 0
  | _ => 0

/-- Calls of `kfree` for a pipe. -/
def Point.frees (pi : Nat) : Point → Nat
  | .kfree pi' _ => if pi' = pi then 1 else 0
  | _ => 0

/-- Neither `pipeclose` nor `kfree` comes next. -/
def Point.Still : Point → Prop
  | .pipeclose .. | .kfree .. => False
  | _ => True

/-- The descriptors of a file that have a reference. -/
def slots (ofile : Nat → Option Nat) (dead : Option Nat) (f : Nat) : Nat :=
  total NOFILE fun fd => if ofile fd = some f ∧ dead ≠ some fd then 1 else 0

/-- The references of a process to a file. -/
def Proc.own (P : Proc) (f : Nat) : Nat := slots P.ofile P.pc.dead f + P.pc.held.count f

/-- Whether a file is an end of a pipe. -/
def File.isEnd (F : File) (pi : Nat) (w : Bool) : Nat :=
  if 0 < F.ref ∧ F.type = .FD_PIPE ∧ F.pipe = pi ∧ F.writable = w then 1 else 0

/-- Whether an end of a pipe is open. -/
def isOpen (pages : Nat → Option Ends) (pi : Nat) (w : Bool) : Nat :=
  match pages pi with
  | some e => if (if w then e.writeopen else e.readopen) then 1 else 0
  | none => 0

/-- Whether both ends of a pipe are closed. -/
def isShut (pages : Nat → Option Ends) (pi : Nat) : Nat :=
  if pages pi = some ⟨false, false⟩ then 1 else 0

theorem Point.Still.closes {x : Point} (h : x.Still) (pi : Nat) (w : Bool) : x.closes pi w = 0 := by
  cases x <;> first | rfl | exact h.elim

theorem Point.Still.frees {x : Point} (h : x.Still) (pi : Nat) : x.frees pi = 0 := by
  cases x <;> first | rfl | exact h.elim

/-! ## The ledger -/

variable {N p q f g fd : Nat} {s s' : Sys} {P : Proc}

/-- **References and open ends are accounted for.** -/
structure Ledger (N : Nat) (s : Sys) : Prop where
  refs : ∀ f, (s.ftable f).ref = total N fun p => (s.procs p).own f
  untyped : ∀ f, (s.ftable f).ref = 0 → (s.ftable f).type = .FD_NONE
  bound : ∀ f, 0 < (s.ftable f).ref → f < NFILE
  ends : ∀ pi w, (total NFILE fun f => (s.ftable f).isEnd pi w) +
    (total N fun p => (s.procs p).pc.closes pi w) = isOpen s.pages pi w
  frees : ∀ pi, (total N fun p => (s.procs p).pc.frees pi) = isShut s.pages pi
  fresh : ∀ p < N, ∀ f ∈ (s.procs p).pc.fresh,
    (s.ftable f).ref = 1 ∧ (s.ftable f).type = .FD_NONE ∧ 0 < (s.procs p).own f

/-- **What one process may do to the ledger.** -/
structure Entry (N : Nat) (s s' : Sys) (p : Nat) (P : Proc) : Prop where
  procs : s'.procs = update s.procs p P
  refs : ∀ f, (s'.ftable f).ref + (s.procs p).own f = (s.ftable f).ref + P.own f
  untyped : ∀ f, (s'.ftable f).ref = 0 → (s'.ftable f).type = .FD_NONE
  bound : ∀ f, 0 < (s'.ftable f).ref → f < NFILE
  ends : ∀ pi w, (total NFILE fun f => (s'.ftable f).isEnd pi w) + P.pc.closes pi w + isOpen s.pages
    pi w = (total NFILE fun f => (s.ftable f).isEnd pi w) + (s.procs p).pc.closes pi w +
    isOpen s'.pages pi w
  frees : ∀ pi, P.pc.frees pi + isShut s.pages pi = (s.procs p).pc.frees pi + isShut s'.pages pi
  fresh : ∀ f ∈ P.pc.fresh, (s'.ftable f).ref = 1 ∧ (s'.ftable f).type = .FD_NONE ∧ 0 < P.own f
  keep : ∀ f, s'.ftable f ≠ s.ftable f →
    (s.ftable f).ref = 0 ∨ ∃ q < N, 0 < (s.procs q).own f ∧ (q = p ∨ f ∉ (s.procs q).pc.fresh)

namespace Ledger

section

variable (h : Ledger N s) (hp : p < N)

include h hp

theorem own_le (f : Nat) : (s.procs p).own f ≤ (s.ftable f).ref :=
  h.refs f ▸ le_total (f := fun q => (s.procs q).own f) hp

theorem post (e : Entry N s s' p P) : Ledger N s' := by
  have hself : s'.procs p = P := by rw [e.procs, update_self]
  have hother : ∀ q, q ≠ p → s'.procs q = s.procs q := fun q hq => by rw [e.procs, update_of_ne hq]
  refine ⟨fun f => ?_, e.untyped, e.bound, fun pi w => ?_, fun pi => ?_, fun q hq f hf => ?_⟩
  · have h1 := total_change (f := fun q => (s.procs q).own f) (g := fun q => (s'.procs q).own f) hp
      fun q hq => by rw [hother q hq]
    have h2 := e.refs f
    have h3 := h.refs f
    simp only [hself] at h1
    omega
  · have h1 := total_change (f := fun q => (s.procs q).pc.closes pi w)
      (g := fun q => (s'.procs q).pc.closes pi w) hp fun q hq => by rw [hother q hq]
    have h2 := e.ends pi w
    have h3 := h.ends pi w
    simp only [hself] at h1
    omega
  · have h1 := total_change (f := fun q => (s.procs q).pc.frees pi)
      (g := fun q => (s'.procs q).pc.frees pi) hp fun q hq => by rw [hother q hq]
    have h2 := e.frees pi
    have h3 := h.frees pi
    simp only [hself] at h1
    omega
  · by_cases hqp : q = p
    · subst hqp
      rw [hself] at hf ⊢
      exact e.fresh f hf
    · rw [hother q hqp] at hf ⊢
      obtain ⟨h1, h2, h3⟩ := h.fresh q hq f hf
      -- a file that another process has set aside for itself is not touched
      have hsame : s'.ftable f = s.ftable f := by
        by_contra hne
        rcases e.keep f hne with h4 | ⟨r, hr, h4, h5⟩
        · omega
        · have hrq : r ≠ q := by
            rintro rfl
            exact h5.elim hqp fun h5 => h5 hf
          have h6 := add_le_total (f := fun q => (s.procs q).own f) hr hq hrq
          have h7 := h.refs f
          omega
      rw [hsame]
      exact ⟨h1, h2, h3⟩

/-- **A pipe changes**, and references move within a process. -/
theorem page (ht : s'.ftable = s.ftable) (hP : s'.procs = update s.procs p P)
    (hown : ∀ f, P.own f = (s.procs p).own f)
    (hends : ∀ pi w, P.pc.closes pi w + isOpen s.pages pi w = (s.procs p).pc.closes pi w +
      isOpen s'.pages pi w)
    (hfr : ∀ pi, P.pc.frees pi + isShut s.pages pi = (s.procs p).pc.frees pi + isShut s'.pages pi)
    (hfresh : P.pc.fresh ⊆ (s.procs p).pc.fresh) : Ledger N s' := by
  refine h.post hp ⟨hP, fun f => ?_, fun f => ?_, fun f => ?_, fun pi w => ?_, hfr, fun f hf => ?_,
    fun f hne => ?_⟩
  · rw [ht, hown]
  · rw [ht]
    exact h.untyped f
  · rw [ht]
    exact h.bound f
  · rw [ht]
    have := hends pi w
    omega
  · rw [ht, hown]
    exact h.fresh p hp f (hfresh hf)
  · exact absurd (by rw [ht]) hne

/-- …or nothing happens to the pipes. -/
theorem stay (ht : s'.ftable = s.ftable) (hg : s'.pages = s.pages)
    (hP : s'.procs = update s.procs p P) (hown : ∀ f, P.own f = (s.procs p).own f)
    (hx : (s.procs p).pc.Still) (hy : P.pc.Still)
    (hfresh : P.pc.fresh ⊆ (s.procs p).pc.fresh) : Ledger N s' :=
  h.page hp ht hP hown (fun pi w => by rw [hg, hx.closes, hy.closes])
    (fun pi => by rw [hg, hx.frees, hy.frees]) hfresh

end

end Ledger

/-! ## Descriptors -/

/-- **One descriptor changes.** -/
theorem slots_change {ofile : Nat → Option Nat} (ofile' : Nat → Option Nat)
    (dead dead' : Option Nat) (hfd : fd < NOFILE) (ho : ∀ i, i ≠ fd → ofile' i = ofile i)
    (hd : ∀ i, i ≠ fd → dead ≠ some i) (hd' : ∀ i, i ≠ fd → dead' ≠ some i) (g : Nat) :
    slots ofile' dead' g + (if ofile fd = some g ∧ dead ≠ some fd then 1 else 0) =
      slots ofile dead g + if ofile' fd = some g ∧ dead' ≠ some fd then 1 else 0 := by
  have h := total_change (f := fun i => if ofile i = some g ∧ dead ≠ some i then 1 else 0)
    (g := fun i => if ofile' i = some g ∧ dead' ≠ some i then 1 else 0) hfd fun i hi => by
      simp [ho i hi, hd i hi, hd' i hi]
  exact h

section

variable {ofile : Nat → Option Nat}

section

variable (hfd : fd < NOFILE)

include hfd

/-- A descriptor for a reference… -/
theorem slots_set (h : ofile fd = none) (g : Nat) :
    slots (update ofile fd (some f)) none g = slots ofile none g + [f].count g := by
  have := slots_change (update ofile fd (some f)) none none hfd
    (fun i hi => update_of_ne hi ..) (by simp) (by simp) g
  simpa [h, List.count_cons] using this

/-- …and one without. -/
theorem slots_setDead (h : ofile fd = none) (g : Nat) :
    slots (update ofile fd (some f)) (some fd) g = slots ofile none g := by
  have := slots_change (update ofile fd (some f)) none (some fd) hfd
    (fun i hi => update_of_ne hi ..) (by simp) (fun i hi e => hi (some.inj e).symm) g
  simpa [h] using this

/-- A reference is taken out of its descriptor… -/
theorem slots_clear (h : ofile fd = some f) (g : Nat) :
    slots (update ofile fd none) none g + [f].count g = slots ofile none g := by
  have := slots_change (update ofile fd none) none none hfd
    (fun i hi => update_of_ne hi ..) (by simp) (by simp) g
  simpa [h, List.count_cons] using this

/-- …which may stay for a while… -/
theorem slots_kill (h : ofile fd = some f) (g : Nat) :
    slots ofile (some fd) g + [f].count g = slots ofile none g := by
  have := slots_change ofile none (some fd) hfd (fun i hi => rfl) (by simp)
    (fun i hi e => hi (some.inj e).symm) g
  simpa [h, List.count_cons] using this

/-- …before it is cleared. -/
theorem slots_clearDead (g : Nat) :
    slots (update ofile fd none) none g = slots ofile (some fd) g := by
  have := slots_change (update ofile fd none) (some fd) none hfd
    (fun i hi => update_of_ne hi ..) (fun i hi e => hi (some.inj e).symm) (by simp) g
  simpa using this

theorem slots_pos (h : ofile fd = some f) {dead : Option Nat} (hd : dead ≠ some fd) :
    0 < slots ofile dead f := by
  have := le_total (f := fun i => if ofile i = some f ∧ dead ≠ some i then 1 else 0) hfd
  simp only [h, hd, ne_eq, not_false_eq_true, and_self, if_true] at this
  exact this

end

theorem fdalloc_some (h : fdalloc ofile = some fd) : fd < NOFILE ∧ ofile fd = none := by
  have h1 := List.find?_some h
  have h2 := List.mem_of_find?_eq_some h
  exact ⟨List.mem_range.1 h2, of_decide_eq_true h1⟩

theorem argfd_some (h : argfd ofile fd = some f) : fd < NOFILE ∧ ofile fd = some f := by
  unfold argfd at h
  split at h
  · exact ⟨‹_›, h⟩
  · cases h

theorem filealloc_some {t : Nat → File} (h : filealloc t = some f) : f < NFILE ∧ (t f).ref = 0 := by
  have h1 := List.find?_some h
  have h2 := List.mem_of_find?_eq_some h
  exact ⟨List.mem_range.1 h2, of_decide_eq_true h1⟩

end

attribute [irreducible] slots

/-! ## Files and pipes -/

section

variable {k : Cont}

@[simp] theorem Cont.resume_held : k.resume.held = k.held := by cases k <;> rfl

@[simp] theorem Cont.resume_dead : k.resume.dead = k.dead := by cases k <;> rfl

theorem Cont.resume_still : k.resume.Still := by cases k <;> trivial

@[simp] theorem Cont.resume_fresh : k.resume.fresh = [] := by cases k <;> rfl

end

/-- One file changes. -/
theorem ends_update (t : Nat → File) (hf : f < NFILE) (F : File) (pi : Nat) (w : Bool) :
    (total NFILE fun g => (update t f F g).isEnd pi w) + (t f).isEnd pi w =
      (total NFILE fun g => (t g).isEnd pi w) + F.isEnd pi w := by
  have := total_change (f := fun g => (t g).isEnd pi w) (g := fun g => (update t f F g).isEnd pi w)
    hf fun i hi => by rw [update_of_ne hi]
  simpa using this

namespace Ledger

section

variable (h : Ledger N s) (hp : p < N)

include h hp

/-- **One file and one process change.** -/
theorem file {F : File} (hlt : f < NFILE) (ht : s'.ftable = update s.ftable f F)
    (hg : s'.pages = s.pages) (hP : s'.procs = update s.procs p P)
    (href : F.ref + (s.procs p).own f = (s.ftable f).ref + P.own f)
    (hown : ∀ g, g ≠ f → P.own g = (s.procs p).own g) (hnone : F.ref = 0 → F.type = .FD_NONE)
    (hends : ∀ pi w, F.isEnd pi w + P.pc.closes pi w = (s.ftable f).isEnd pi w +
      (s.procs p).pc.closes pi w)
    (hfr : ∀ pi, P.pc.frees pi = (s.procs p).pc.frees pi)
    (hfresh : ∀ g ∈ P.pc.fresh, (g = f → F.ref = 1 ∧ F.type = .FD_NONE ∧ 0 < P.own f) ∧
      (g ≠ f → g ∈ (s.procs p).pc.fresh))
    (hkeep : (s.ftable f).ref = 0 ∨ ∃ q < N, 0 < (s.procs q).own f ∧
      (q = p ∨ f ∉ (s.procs q).pc.fresh)) :
    Ledger N s' := by
  have hsame : ∀ g, g ≠ f → s'.ftable g = s.ftable g := fun g hg => by rw [ht, update_of_ne hg]
  have hself : s'.ftable f = F := by rw [ht, update_self]
  refine h.post hp ⟨hP, fun g => ?_, fun g hz => ?_, fun g hz => ?_, fun pi w => ?_,
    fun pi => by rw [hg, hfr], fun g hgf => ?_, fun g hne => ?_⟩
  · by_cases e : g = f
    · rw [e, hself, href]
    · rw [hsame g e, hown g e]
  · by_cases e : g = f
    · rw [e, hself] at hz ⊢
      exact hnone hz
    · rw [hsame g e] at hz ⊢
      exact h.untyped g hz
  · by_cases e : g = f
    · exact e ▸ hlt
    · rw [hsame g e] at hz
      exact h.bound g hz
  · have h1 := ends_update s.ftable hlt F pi w
    have h2 := hends pi w
    rw [← ht] at h1
    rw [hg]
    omega
  · by_cases e : g = f
    · rw [e, hself]
      exact (hfresh g hgf).1 e
    · rw [hsame g e, hown g e]
      exact h.fresh p hp g ((hfresh g hgf).2 e)
  · by_cases e : g = f
    · exact e ▸ hkeep
    · exact absurd (hsame g e) hne

/-- **`filealloc`.** -/
theorem alloc (hf : filealloc s.ftable = some f)
    (ht : s'.ftable = update s.ftable f { s.ftable f with ref := 1 }) (hg : s'.pages = s.pages)
    (hP : s'.procs = update s.procs p P) (hown : ∀ g, P.own g = (s.procs p).own g + [f].count g)
    (hx : (s.procs p).pc.Still) (hy : P.pc.Still)
    (hfresh : ∀ g ∈ P.pc.fresh, g = f ∨ g ∈ (s.procs p).pc.fresh) : Ledger N s' := by
  obtain ⟨hlt, h0⟩ := filealloc_some hf
  have hn := h.untyped f h0
  have hf1 : P.own f = (s.procs p).own f + 1 := by simp [hown]
  refine h.file hp hlt ht hg hP ?_ (fun g e => by simp [hown, Ne.symm e]) nofun (fun pi w => ?_)
    (fun pi => by rw [hx.frees, hy.frees])
    (fun g hgf => ⟨fun _ => ⟨rfl, hn, by omega⟩, (hfresh g hgf).resolve_left⟩) (.inl h0)
  · rw [h0, hf1]
    dsimp only
    omega
  · rw [hx.closes, hy.closes]
    simp [File.isEnd, hn, h0]

/-- **A file that the process has a reference to changes.** -/
theorem touch {F : File} (hpos : 0 < (s.procs p).own f)
    (ht : s'.ftable = update s.ftable f F) (hg : s'.pages = s.pages)
    (hP : s'.procs = update s.procs p P)
    (hown : ∀ g, (if g = f then F.ref else 0) + (s.procs p).own g =
      (if g = f then (s.ftable f).ref else 0) + P.own g)
    (hnone : F.ref = 0 → F.type = .FD_NONE)
    (hends : ∀ pi w, F.isEnd pi w + P.pc.closes pi w = (s.ftable f).isEnd pi w +
      (s.procs p).pc.closes pi w)
    (hfr : ∀ pi, P.pc.frees pi = (s.procs p).pc.frees pi)
    (hfresh : P.pc.fresh = []) : Ledger N s' :=
  h.file hp (h.bound f (hpos.trans_le (h.own_le hp f))) ht hg hP (by simpa using hown f)
    (fun g e => by simpa [e] using (hown g).symm) hnone hends hfr (by simp [hfresh])
    (.inr ⟨p, hp, hpos, .inl rfl⟩)

/-- **A descriptor of another process gets a reference** to a file that this one has. -/
theorem share (hq : q < N) (hpos : 0 < (s.procs p).own f)
    (hpf : (s.procs p).pc.fresh = []) (hqf : (s.procs q).pc.fresh = [])
    (ht : s'.ftable = update s.ftable f { s.ftable f with ref := (s.ftable f).ref + 1 })
    (hg : s'.pages = s.pages) (hP : s'.procs = update s.procs q P) (hpc : P.pc = (s.procs q).pc)
    (hown : ∀ g, P.own g = (s.procs q).own g + [f].count g) : Ledger N s' := by
  have href : 0 < (s.ftable f).ref := hpos.trans_le (h.own_le hp f)
  refine h.file hq (h.bound f href) ht hg hP ?_ (fun g e => by simp [hown, Ne.symm e]) nofun
    (fun pi w => ?_) (fun pi => by rw [hpc]) (by simp [hpc, hqf])
    (.inr ⟨p, hp, hpos, .inr (by simp [hpf])⟩)
  · have : P.own f = (s.procs q).own f + 1 := by simp [hown]
    dsimp only
    omega
  · rw [hpc]
    simp [File.isEnd, href]

end

end Ledger

/-! ## Control -/

/-- What is known where `fileclose` returns. -/
def Cont.Ok (ofile : Nat → Option Nat) : Cont → Prop
  | .exitClear fd => fd < NOFILE ∧ ∀ i < fd, ofile i = none
  | .ret | .close _ => True

/-- What is known about the descriptors of a process at a point. -/
def Point.Ok (ofile : Nat → Option Nat) : Point → Prop
  | .dupInc fd f => fd < NOFILE ∧ ofile fd = some f ∧ ∃ fd' < NOFILE, fd' ≠ fd ∧ ofile fd' = some f
  | .pipeFd1 rf _ fd0 => fd0 < NOFILE ∧ ofile fd0 = some rf
  | .pipeOut rf wf fd0 fd1 =>
    fd0 < NOFILE ∧ fd1 < NOFILE ∧ fd0 ≠ fd1 ∧ ofile fd0 = some rf ∧ ofile fd1 = some wf
  | .fileclose _ k | .pipeclose _ _ k | .kfree _ k | .iput k => k.Ok ofile
  | .exitLoop fd => fd ≤ NOFILE ∧ ∀ i < fd, ofile i = none
  | .exitClear fd => fd < NOFILE ∧ ∀ i < fd, ofile i = none
  | _ => True

/-- The child that `fork` is making, and the first descriptor that it has not got. -/
def Point.child : Point → Option (Nat × Nat)
  | .forkCopy np => some (np, 0)
  | .forkLoop np i => some (np, i)
  | _ => none

theorem setState_pc (r : Nat) {st : ProcState} :
    ((s.setState q st).procs r).pc = (s.procs r).pc := by
  by_cases e : r = q
  · subst e
    simp [Sys.setState]
  · simp [Sys.setState, e]

theorem setFd_pc (r : Nat) {o : Option Nat} : ((s.setFd q fd o).procs r).pc = (s.procs r).pc := by
  by_cases e : r = q
  · subst e
    simp [Sys.setFd]
  · simp [Sys.setFd, e]

structure Control (N : Nat) (s : Sys) : Prop where
  ok : ∀ p, (s.procs p).pc.Ok (s.procs p).ofile
  idle : ∀ p, (s.procs p).state ≠ .live → (s.procs p).pc = .idle
  empty : ∀ p, (s.procs p).state = .unused ∨ (s.procs p).state = .zombie → ∀ fd < NOFILE,
    (s.procs p).ofile fd = none
  child : ∀ p np i, (s.procs p).pc.child = some (np, i) →
    np < N ∧ (s.procs np).state = .used ∧ ∀ j, i ≤ j → j < NOFILE → (s.procs np).ofile j = none
  uniq : ∀ p q np i j, (s.procs p).pc.child = some (np, i) →
    (s.procs q).pc.child = some (np, j) → p = q

/-- The child that a step leaves `P` making is the one it was making, or a fresh one that nobody is
making. -/
def Makes (N : Nat) (s : Sys) (p : Nat) (P : Proc) : Prop :=
  ∀ np i, P.pc.child = some (np, i) → (∃ j ≤ i, (s.procs p).pc.child = some (np, j)) ∨
    (np < N ∧ (s.procs np).state = .used ∧ (∀ j < NOFILE, (s.procs np).ofile j = none) ∧
      ∀ q j, (s.procs q).pc.child ≠ some (np, j))

theorem Makes.none (h : P.pc.child = none) : Makes N s p P := by simp [Makes, h]

namespace Control

section

variable (h : Control N s)

include h

theorem live (hp : (s.procs p).pc ≠ .idle) : (s.procs p).state = .live :=
  not_not.1 fun hl => hp (h.idle p hl)

/-- **One process changes.** -/
theorem change (hP : s'.procs = update s.procs p P) (hok : P.pc.Ok P.ofile)
    (hidle : P.state ≠ .live → P.pc = .idle)
    (hempty : P.state = .unused ∨ P.state = .zombie → ∀ fd < NOFILE, P.ofile fd = none)
    (hself : ∀ q i, (s'.procs q).pc.child = some (p, i) → (s.procs p).state = .used →
      (∀ j, i ≤ j → j < NOFILE → (s.procs p).ofile j = none) →
      P.state = .used ∧ ∀ j, i ≤ j → j < NOFILE → P.ofile j = none)
    (hch : Makes N s p P) : Control N s' := by
  have heq : s'.procs p = P := by rw [hP, update_self]
  have hother : ∀ q, q ≠ p → s'.procs q = s.procs q := fun q hq => by rw [hP, update_of_ne hq]
  refine ⟨fun q => ?_, fun q hq => ?_, fun q hq => ?_, fun q np i hq => ?_,
    fun q q' np i j hq hq' => ?_⟩
  · by_cases e : q = p
    · rw [e, heq]
      exact hok
    · rw [hother q e]
      exact h.ok q
  · by_cases e : q = p
    · rw [e, heq] at hq ⊢
      exact hidle hq
    · rw [hother q e] at hq ⊢
      exact h.idle q hq
  · by_cases e : q = p
    · rw [e, heq] at hq ⊢
      exact hempty hq
    · rw [hother q e] at hq ⊢
      exact h.empty q hq
  · have hchild : np < N ∧ (s.procs np).state = .used ∧ ∀ j, i ≤ j → j < NOFILE →
        (s.procs np).ofile j = none := by
      by_cases e : q = p
      · rw [e, heq] at hq
        rcases hch np i hq with ⟨j, hj, hq⟩ | ⟨h1, h2, h3, -⟩
        · obtain ⟨h1, h2, h3⟩ := h.child p np j hq
          exact ⟨h1, h2, fun l hl => h3 l (hj.trans hl)⟩
        · exact ⟨h1, h2, fun l _ => h3 l⟩
      · rw [hother q e] at hq
        exact h.child q np i hq
    by_cases e : np = p
    · subst e
      rw [heq]
      exact ⟨hchild.1, hself q i hq hchild.2.1 hchild.2.2⟩
    · rwa [hother np e]
  · -- a child that others are making is not made anew
    have hnew : ∀ q i j, q ≠ p → (s.procs q).pc.child = some (np, i) →
        P.pc.child = some (np, j) → False := by
      intro q i j hqp hq hp
      rcases hch np j hp with ⟨l, -, hl⟩ | ⟨-, -, -, h4⟩
      · exact hqp (h.uniq q p np i l hq hl)
      · exact h4 q i hq
    by_cases e : q = p
    · by_cases e' : q' = p
      · rw [e, e']
      · rw [e, heq] at hq
        rw [hother q' e'] at hq'
        exact (hnew q' j i e' hq' hq).elim
    · rw [hother q e] at hq
      by_cases e' : q' = p
      · rw [e', heq] at hq'
        exact (hnew q i j e hq hq').elim
      · rw [hother q' e'] at hq'
        exact h.uniq q q' np i j hq hq'

/-- A step of a process in a call. -/
theorem turn (hl : (s.procs p).state = .live) (hP : s'.procs = update s.procs p P)
    (hst : P.state = .live) (hok : P.pc.Ok P.ofile) (hch : Makes N s p P) : Control N s' := by
  refine h.change hP hok (absurd hst) (fun hq => ?_) (fun q i _ hu => ?_) hch
  · rcases hq with hq | hq <;> cases hst.symm.trans hq
  · cases hl.symm.trans hu

/-- The state of a process that no `fork` is making changes. -/
theorem setState {st : ProcState} (hq : ∀ p i, (s.procs p).pc.child ≠ some (q, i))
    (hidle : st ≠ .live → (s.procs q).pc = .idle)
    (hempty : st = .unused ∨ st = .zombie → ∀ fd < NOFILE, (s.procs q).ofile fd = none) :
    Control N (s.setState q st) := by
  refine h.change rfl (h.ok q) hidle hempty (fun r i hr => ?_) fun np i hi => .inl ⟨i, le_rfl, hi⟩
  rw [setState_pc] at hr
  exact absurd hr (hq r i)

/-- A child in the making gets a descriptor. -/
theorem setFd {np i : Nat} {o : Option Nat} (hst : (s.procs np).state = .used)
    (hlt : ∀ p j, (s.procs p).pc.child = some (np, j) → i < j) : Control N (s.setFd np i o) := by
  have hidle : (s.procs np).pc = .idle := h.idle np (by simp [hst])
  refine h.change rfl ?_ (fun _ => hidle) (fun hr => ?_)
    (fun r j hr hu hnone => ?_) fun q j hq => ?_
  · change (s.procs np).pc.Ok _
    rw [hidle]
    trivial
  · rcases hr with hr | hr <;> cases hst.symm.trans hr
  · rw [setFd_pc] at hr
    have := hlt r j hr
    exact ⟨hst, fun l hl hlt' => (update_of_ne (by omega) ..).trans (hnone l hl hlt')⟩
  · change (s.procs np).pc.child = _ at hq
    rw [hidle] at hq
    cases hq

end

end Control

end Xv6.Files
