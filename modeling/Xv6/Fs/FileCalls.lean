import Xv6.Fs.FileRefs

/-!
# Fs/FileCalls — the calls keep the ledger

One lemma for each kind of step: references that move within a process (`At.shift`), a file that is
allocated, one that gains or loses a reference or is set up, a pipe that is made, shut or freed, and
a child that is made.
-/

namespace Xv6.Files

open Tally Function List Option

/-- **What holds between steps.** -/
structure Inv (N : Nat) (s : Sys) : Prop where
  ledger : Ledger N s
  control : Control N s
  calm : s.panicked = none
  pages : ∀ pi, s.allocs pi = s.frees pi + if s.pages pi = none then 0 else 1

variable {N p f fd : Nat} {s s' : Sys} {x y : Point} {ofile : Nat → Option Nat} {k : Cont}

theorem own_eq {P : Proc} (h : P.pc = x) (f : Nat) :
    P.own f = slots P.ofile x.dead f + x.held.count f := by
  rw [Proc.own, h]

theorem setFd_goto (o : Option Nat) : (s.setFd p fd o).goto p y =
    { s with
      procs := update s.procs p
        { s.procs p with ofile := update (s.procs p).ofile fd o, pc := y } } := by
  simp [Sys.setFd, Sys.goto, update_idem]

theorem goto_ne {q : Nat} (h : q ≠ p) : (s.goto p y).procs q = s.procs q := by simp [Sys.goto, h]

theorem setState_goto {q : Nat} {st : ProcState} :
    (s.setState q st).goto p y = (s.goto p y).setState q st := by
  simp only [Sys.setState, Sys.goto]
  congr 1
  funext r
  by_cases e : r = p
  · subst e
    by_cases e' : r = q
    · subst e'
      simp
    · simp [e', Ne.symm e']
  · by_cases e' : r = q
    · subst e'
      simp [e]
    · simp [e, e']

theorem setFd_goto_ne {q : Nat} {o : Option Nat} (h : q ≠ p) :
    (s.setFd q fd o).goto p y = (s.goto p y).setFd q fd o := by
  simp only [Sys.setFd, Sys.goto]
  congr 1
  rw [update_of_ne h.symm, update_of_ne h, update_comm h]

theorem Cont.Ok.resume (h : k.Ok ofile) : k.resume.Ok ofile := by cases k <;> exact h

@[simp] theorem Cont.resume_child : k.resume.child = none := by cases k <;> rfl

/-- **A process that runs**, and where it is. -/
structure At (N : Nat) (s : Sys) (p : Nat) (x : Point) : Prop where
  inv : Inv N s
  lt : p < N
  pc : (s.procs p).pc = x
  live : (s.procs p).state = .live

namespace At

section

variable (c : At N s p x)

include c

theorem ok : x.Ok (s.procs p).ofile := c.pc ▸ c.inv.control.ok p

theorem own (f : Nat) : (s.procs p).own f = slots (s.procs p).ofile x.dead f + x.held.count f :=
  own_eq c.pc f

theorem fresh (hf : f ∈ x.fresh) : (s.ftable f).ref = 1 ∧ (s.ftable f).type = .FD_NONE ∧
    0 < (s.procs p).own f :=
  c.inv.ledger.fresh p c.lt f (c.pc.symm ▸ hf)

theorem ref_pos (hpos : 0 < (s.procs p).own f) : ¬ (s.ftable f).ref < 1 := by
  have := c.inv.ledger.own_le c.lt f
  omega

/-- **References move within a process.** -/
theorem shift
    (hs : s' = { s with procs := update s.procs p { s.procs p with ofile := ofile, pc := y } })
    (hown : ∀ f, slots ofile y.dead f + y.held.count f =
      slots (s.procs p).ofile x.dead f + x.held.count f)
    (hx : x.Still) (hy : y.Still) (hfresh : y.fresh ⊆ x.fresh) (hok : y.Ok ofile)
    (hch : ∀ np i, y.child = some (np, i) → ∃ j ≤ i, x.child = some (np, j)) : Inv N s' := by
  obtain ⟨h, hp, rfl, hl⟩ := c
  subst hs
  exact ⟨h.ledger.stay hp rfl rfl rfl hown hx hy hfresh, h.control.turn hl rfl hl hok fun np i hi =>
    .inl (hch np i hi), h.calm, h.pages⟩

/-- …from or to a descriptor… -/
theorem setFd {o : Option Nat} (hs : some ((s.setFd p fd o).goto p y) = some s')
    (hown : ∀ f, slots (update (s.procs p).ofile fd o) y.dead f + y.held.count f =
      slots (s.procs p).ofile x.dead f + x.held.count f) (hx : x.Still) (hy : y.Still)
      (hfresh : y.fresh ⊆ x.fresh)
    (hok : y.Ok (update (s.procs p).ofile fd o)) (hch : y.child = none) : Inv N s' :=
  c.shift ((some.inj hs).symm.trans (setFd_goto o)) hown hx hy hfresh hok (by simp [hch])

/-- …or stay where they are. -/
theorem go (hs : some (s.goto p y) = some s') (hd : y.dead = x.dead) (hh : y.held = x.held)
    (hx : x.Still) (hy : y.Still) (hfresh : y.fresh ⊆ x.fresh) (hok : y.Ok (s.procs p).ofile)
    (hch : ∀ np i, y.child = some (np, i) → ∃ j ≤ i, x.child = some (np, j)) : Inv N s' :=
  c.shift (Option.some.inj hs).symm (fun f => by rw [hd, hh]) hx hy hfresh hok hch

/-- A call returns, with nothing left to give back. -/
theorem ret (hs : some (s.goto p .idle) = some s') (hd : x.dead = none) (hh : x.held = [])
    (hx : x.Still) : Inv N s' :=
  c.go hs hd.symm hh.symm hx trivial (nil_subset _) trivial nofun

/-- **A file is allocated.** -/
theorem alloc (hf : filealloc s.ftable = some f)
    (hs : some ((s.setFile f { s.ftable f with ref := 1 }).goto p y) = some s')
    (hd : y.dead = x.dead) (hh : ∀ g, y.held.count g = x.held.count g + [f].count g) (hx : x.Still)
    (hy : y.Still) (hfresh : ∀ g ∈ y.fresh, g = f ∨ g ∈ x.fresh) (hok : y.Ok (s.procs p).ofile)
    (hch : y.child = none) : Inv N s' := by
  obtain ⟨h, hp, rfl, hl⟩ := c
  cases hs
  refine ⟨h.ledger.alloc hp hf rfl rfl rfl (fun g => ?_) hx hy hfresh, h.control.turn hl rfl hl hok
    (.none hch), h.calm, h.pages⟩
  change slots (s.procs p).ofile y.dead g + y.held.count g = _
  rw [hd, hh, ← Nat.add_assoc]
  rfl

/-- **A file that the process has a reference to changes.** -/
theorem touch {F : File} (hs : some ((s.setFile f F).goto p y) = some s')
    (hpos : 0 < (s.procs p).own f)
    (hown : ∀ g, (if g = f then F.ref else 0) +
      (slots (s.procs p).ofile x.dead g + x.held.count g) =
        (if g = f then (s.ftable f).ref else 0) +
        (slots (s.procs p).ofile y.dead g + y.held.count g))
    (hnone : F.ref = 0 → F.type = .FD_NONE)
    (hends : ∀ pi w, F.isEnd pi w + y.closes pi w = (s.ftable f).isEnd pi w + x.closes pi w)
    (hfr : ∀ pi, y.frees pi = x.frees pi) (hfresh : y.fresh = []) (hok : y.Ok (s.procs p).ofile)
    (hch : y.child = none) : Inv N s' := by
  obtain ⟨h, hp, rfl, hl⟩ := c
  cases hs
  exact ⟨h.ledger.touch hp hpos rfl rfl rfl hown hnone hends hfr hfresh, h.control.turn hl rfl hl
    hok (.none hch), h.calm, h.pages⟩

end

/-- **`fileclose`.** -/
theorem fileclose (c : At N s p (.fileclose f k)) : Inv N (s.fileclose p f k) := by
  have hok : k.Ok (s.procs p).ofile := c.ok
  have hpos : 0 < (s.procs p).own f := by
    rw [c.own]
    simp [Point.held]
  have href := c.ref_pos hpos
  have hown : ∀ (n : Nat) (y : Point), n + 1 = (s.ftable f).ref → y.dead = k.dead →
      y.held = k.held → ∀ g, (if g = f then n else 0) +
      (slots (s.procs p).ofile (Point.fileclose f k).dead g + (Point.fileclose f k).held.count g) =
        (if g = f then (s.ftable f).ref else 0) +
        (slots (s.procs p).ofile y.dead g + y.held.count g) := by
    intro n y hn hd hh g
    rw [hd, hh, ← hn]
    simp only [Point.dead, Point.held, count_cons]
    by_cases e : g = f
    · simp [e]
      omega
    · simp [e, Ne.symm e]
  rw [Sys.fileclose, if_neg href]
  split
  next hgt =>
    -- there are other references
    refine c.touch rfl hpos (hown ((s.ftable f).ref - 1) _ (by omega) (by simp) (by simp))
      (fun e => ?_) (fun pi w => ?_) (Cont.resume_still.frees ·) (by simp) hok.resume (by simp)
    · simp only at e
      omega
    · have : 0 < (s.ftable f).ref - 1 ↔ 0 < (s.ftable f).ref := by omega
      rw [Cont.resume_still.closes]
      simp [File.isEnd, this, Point.closes]
  next hle =>
    -- this was the last one: what the file was decides what is left to do
    have h1 : (s.ftable f).ref = 1 := by omega
    cases ht : (s.ftable f).type with
    | FD_PIPE =>
      refine c.touch rfl hpos (hown 0 _ h1.symm rfl rfl) (fun _ => rfl) (fun pi w => ?_)
        (fun pi => rfl) rfl hok rfl
      simp [File.isEnd, Point.closes, ht, h1]
    | FD_INODE | FD_DEVICE =>
      refine c.touch rfl hpos (hown 0 _ h1.symm rfl rfl) (fun _ => rfl) (fun pi w => ?_)
        (fun pi => rfl) rfl hok rfl
      simp [File.isEnd, Point.closes, ht]
    | FD_NONE =>
      refine c.touch rfl hpos (hown 0 _ h1.symm (by simp) (by simp)) (fun _ => rfl) (fun pi w => ?_)
        (Cont.resume_still.frees ·) (by simp) hok.resume (by simp)
      rw [Cont.resume_still.closes]
      simp [File.isEnd, ht, Point.closes]

/-- **A pipe changes.** -/
theorem pipe {pi : Nat} {o : Option Ends} {fr : Nat → Nat} (c : At N s p x) (hd : y.dead = x.dead)
    (hh : y.held = x.held) (hx : ∀ pi' ≠ pi, (∀ w, x.closes pi' w = 0) ∧ x.frees pi' = 0)
    (hy : ∀ pi' ≠ pi, (∀ w, y.closes pi' w = 0) ∧ y.frees pi' = 0)
    (hfr' : ∀ pi' ≠ pi, fr pi' = s.frees pi')
    (hcl : ∀ w, y.closes pi w + isOpen s.pages pi w = x.closes pi w + isOpen (fun _ => o) pi w)
    (hfr : y.frees pi + isShut s.pages pi = x.frees pi + isShut (fun _ => o) pi)
    (hpg : fr pi + (if o = none then 0 else 1) = s.frees pi + if s.pages pi = none then 0 else 1)
    (hfresh : y.fresh = []) (hok : y.Ok (s.procs p).ofile) (hch : y.child = none) :
    Inv N ({ s with pages := update s.pages pi o, frees := fr }.goto p y) := by
  obtain ⟨h, hp, rfl, hl⟩ := c
  refine ⟨h.ledger.page hp rfl rfl (fun f => ?_) (fun pi' w => ?_) (fun pi' => ?_)
    (by simp [hfresh]), h.control.turn hl rfl hl hok (.none hch), h.calm, fun pi' => ?_⟩
  · change slots (s.procs p).ofile y.dead f + y.held.count f = _
    rw [hd, hh]
    rfl
  · by_cases e : pi' = pi
    · subst e
      simpa [isOpen, Sys.goto] using hcl w
    · simp [isOpen, Sys.goto, e, (hx pi' e).1 w, (hy pi' e).1 w]
  · by_cases e : pi' = pi
    · subst e
      simpa [isShut, Sys.goto] using hfr
    · simp [isShut, Sys.goto, e, hx pi' e, hy pi' e]
  · have := h.pages pi'
    by_cases e : pi' = pi
    · subst e
      simp only [Sys.goto, update_self]
      omega
    · simpa [Sys.goto, e, hfr' pi' e] using this

/-- **`pipeclose`** finds the pipe, with the end open that it closes. -/
theorem pipeclose {pi : Nat} {w : Bool} (c : At N s p (.pipeclose pi w k)) :
    ∃ e, s.pages pi = some e ∧ (if w then e.writeopen else e.readopen) = true ∧
      Inv N ({ s with pages := update s.pages pi (some (e.shut w)) }.goto p
        (if e.shut w = (⟨false, false⟩ : Ends) then .kfree pi k else k.resume)) := by
  have hok : k.Ok (s.procs p).ofile := c.ok
  have hcl : (s.procs p).pc.closes pi w = 1 := by
    rw [c.pc]
    simp [Point.closes]
  have hopen : 0 < isOpen s.pages pi w := by
    have h1 := c.inv.ledger.ends pi w
    have h2 := le_total (f := fun q => (s.procs q).pc.closes pi w) c.lt
    omega
  cases hpi : s.pages pi with
  | none => simp [isOpen, hpi] at hopen
  | some e =>
    have ho : (if w then e.writeopen else e.readopen) = true := by
      by_contra hno
      simp [isOpen, hpi, hno] at hopen
    have hns : e ≠ ⟨false, false⟩ := by
      rintro rfl
      cases w <;> simp at ho
    refine ⟨e, rfl, ho, ?_⟩
    have hx : ∀ pi' ≠ pi, (∀ w', (Point.pipeclose pi w k).closes pi' w' = 0) ∧
        (Point.pipeclose pi w k).frees pi' = 0 :=
      fun pi' hne => by simp [Point.closes, Point.frees, Ne.symm hne]
    split
    next hs =>
      refine c.pipe rfl rfl hx (fun pi' hne => ?_) (fun _ _ => rfl)
        (fun w' => ?_) ?_ (by simp [hpi]) rfl hok rfl
      · simp [Point.closes, Point.frees, Ne.symm hne]
      · cases w <;> cases w' <;> simp_all [isOpen, Point.closes, Ends.shut]
      · simp [isShut, Point.frees, hpi, hns, hs]
    next hs =>
      refine c.pipe Cont.resume_dead Cont.resume_held hx
        (fun pi' _ => ⟨Cont.resume_still.closes pi', Cont.resume_still.frees pi'⟩) (fun _ _ => rfl)
        (fun w' => ?_) ?_ (by simp [hpi]) (by simp) hok.resume (by simp)
      · rw [Cont.resume_still.closes]
        cases w <;> cases w' <;> simp_all [isOpen, Point.closes, Ends.shut]
      · rw [Cont.resume_still.frees]
        simp [isShut, Point.frees, hpi, hns, hs]

/-- **`kfree`** of a pipe with both ends closed. -/
theorem kfree {pi : Nat} (c : At N s p (.kfree pi k)) :
    s.pages pi = some ⟨false, false⟩ ∧
      Inv N ({ s with
        pages := update s.pages pi none
        frees := update s.frees pi (s.frees pi + 1) }.goto p k.resume) := by
  have hfr : (s.procs p).pc.frees pi = 1 := by
    rw [c.pc]
    simp [Point.frees]
  have hpi : s.pages pi = some ⟨false, false⟩ := by
    by_contra hno
    have h1 := c.inv.ledger.frees pi
    have h2 := le_total (f := fun q => (s.procs q).pc.frees pi) c.lt
    simp only [isShut, hno, if_false] at h1
    omega
  refine ⟨hpi, c.pipe Cont.resume_dead Cont.resume_held (fun pi' hne => ?_)
    (fun pi' _ => ⟨Cont.resume_still.closes pi', Cont.resume_still.frees pi'⟩)
    (fun pi' hne => update_of_ne hne ..) (fun w => ?_) ?_ (by simp [hpi]) (by simp)
    (Cont.Ok.resume (k := k) c.ok) (by simp)⟩
  · simp [Point.closes, Point.frees, Ne.symm hne]
  · rw [Cont.resume_still.closes]
    simp [isOpen, Point.closes, hpi]
  · rw [Cont.resume_still.frees]
    simp [isShut, Point.frees, hpi]

/-- **`pipealloc`** sets up both files and the pipe. -/
theorem pipealloc {f0 f1 pi : Nat} (c : At N s p (.pipe2 f0 f1)) (hpi : s.pages pi = none) :
    Inv N ((s.pipealloc f0 f1 pi).goto p (.pipeFd0 f0 f1)) := by
  set t := (s.pipealloc f0 f1 pi).goto p (.pipeFd0 f0 f1)
  obtain ⟨hr0, ht0, ho0⟩ := c.fresh (f := f0) (by simp [Point.fresh])
  obtain ⟨hr1, ht1, ho1⟩ := c.fresh (f := f1) (by simp [Point.fresh])
  obtain ⟨h, hp, hpc, hl⟩ := c
  have hne : f1 ≠ f0 := by
    rintro rfl
    have := h.ledger.own_le hp f1
    rw [own_eq hpc] at this
    simp [Point.held] at this
    omega
  have hlt0 := h.ledger.bound f0 (by omega)
  have hlt1 := h.ledger.bound f1 (by omega)
  have hsame : ∀ g, g ≠ f0 → g ≠ f1 → t.ftable g = s.ftable g :=
    fun g h0 h1 => by simp [t, Sys.pipealloc, Sys.goto, Sys.setFile, h0, h1]
  have hself0 : t.ftable f0 = pipeEnd (s.ftable f0) pi false := by
    simp [t, Sys.pipealloc, Sys.goto, Sys.setFile, hne.symm]
  have hself1 : t.ftable f1 = pipeEnd (s.ftable f1) pi true := by
    simp [t, Sys.pipealloc, Sys.goto, Sys.setFile]
  have href : ∀ g, (t.ftable g).ref = (s.ftable g).ref := by
    intro g
    by_cases e0 : g = f0
    · rw [e0, hself0]
      rfl
    · by_cases e1 : g = f1
      · rw [e1, hself1]
        rfl
      · rw [hsame g e0 e1]
  have hends : ∀ pi' w, (total NFILE fun g => (t.ftable g).isEnd pi' w) =
      (total NFILE fun g => (s.ftable g).isEnd pi' w) + if pi' = pi then 1 else 0 := by
    intro pi' w
    have h1 := ends_update s.ftable hlt0 (pipeEnd (s.ftable f0) pi false) pi' w
    have h2 := ends_update (update s.ftable f0 (pipeEnd (s.ftable f0) pi false)) hlt1
      (pipeEnd (s.ftable f1) pi true) pi' w
    rw [update_of_ne hne] at h2
    change (total NFILE fun g => (update (update s.ftable f0 (pipeEnd (s.ftable f0) pi false)) f1
      (pipeEnd (s.ftable f1) pi true) g).isEnd pi' w) = _
    have h3 : (s.ftable f0).isEnd pi' w = 0 := by simp [File.isEnd, ht0]
    have h4 : (s.ftable f1).isEnd pi' w = 0 := by simp [File.isEnd, ht1]
    have h5 : (pipeEnd (s.ftable f0) pi false).isEnd pi' w +
        (pipeEnd (s.ftable f1) pi true).isEnd pi' w =
        if pi' = pi then 1 else 0 := by
      by_cases e : pi' = pi
      · subst e
        cases w <;> simp [File.isEnd, pipeEnd, hr0, hr1]
      · simp [File.isEnd, pipeEnd, e, Ne.symm e]
    omega
  refine ⟨h.ledger.post hp ⟨rfl, fun g => ?_, fun g hz => ?_, fun g hz => ?_, fun pi' w => ?_,
    fun pi' => ?_, (by rintro _ ⟨⟩), fun g hg => ?_⟩, h.control.turn hl rfl hl trivial
    (by rintro _ _ ⟨⟩), h.calm, fun pi' => ?_⟩
  · rw [href, own_eq hpc]
    rfl
  · rw [href] at hz
    rw [hsame g (by rintro rfl; omega) (by rintro rfl; omega)]
    exact h.ledger.untyped g hz
  · rw [href] at hz
    exact h.ledger.bound g hz
  · rw [hends, hpc]
    by_cases e : pi' = pi
    · subst e
      simp [t, isOpen, Sys.pipealloc, Sys.goto, hpi, Point.closes]
    · simp [t, isOpen, Sys.pipealloc, Sys.goto, e, Point.closes]
  · rw [hpc]
    by_cases e : pi' = pi
    · subst e
      simp [t, isShut, Sys.pipealloc, Sys.goto, hpi, Point.frees]
    · simp [t, isShut, Sys.pipealloc, Sys.goto, e, Point.frees]
  · by_cases e0 : g = f0
    · exact .inr ⟨p, hp, e0 ▸ ho0, .inl rfl⟩
    · by_cases e1 : g = f1
      · exact .inr ⟨p, hp, e1 ▸ ho1, .inl rfl⟩
      · exact absurd (hsame g e0 e1) hg
  · have := h.pages pi'
    by_cases e : pi' = pi
    · subst e
      simp only [hpi, if_true] at this
      simp [t, Sys.pipealloc, Sys.goto, Sys.setFile, this]
    · simpa [t, Sys.pipealloc, Sys.goto, Sys.setFile, e] using this

end At

/-! ## Making and ending processes -/

theorem Inv.setState {q : Nat} {st : ProcState} (h : Inv N s)
    (hq : ∀ p i, (s.procs p).pc.child ≠ some (q, i)) (hidle : st ≠ .live → (s.procs q).pc = .idle)
    (hempty : st = .unused ∨ st = .zombie → ∀ fd < NOFILE, (s.procs q).ofile fd = none) :
    Inv N (s.setState q st) := by
  have hown : ∀ r f, ((s.setState q st).procs r).own f = (s.procs r).own f := fun r f => by
    by_cases e : r = q
    · subst e
      simp [Sys.setState, Proc.own]
    · simp [Sys.setState, e]
  have hl := h.ledger
  refine ⟨⟨fun f => ?_, hl.untyped, hl.bound, fun pi w => ?_, fun pi => ?_, fun r hr f hf => ?_⟩,
    h.control.setState hq hidle hempty, h.calm, h.pages⟩
  · simp only [hown]
    exact hl.refs f
  · simp only [setState_pc]
    exact hl.ends pi w
  · simp only [setState_pc]
    exact hl.frees pi
  · rw [setState_pc] at hf
    rw [hown]
    exact hl.fresh r hr f hf

namespace At

/-- The child that `fork` is making. -/
theorem child {np i : Nat} (c : At N s p x) (hx : x.child = some (np, i)) :
    (np < N ∧ (s.procs np).state = .used ∧ ∀ j, i ≤ j → j < NOFILE → (s.procs np).ofile j = none) ∧
      (s.procs np).pc = .idle ∧ np ≠ p := by
  have hc := c.inv.control.child p np i (by rw [c.pc, hx])
  refine ⟨hc, c.inv.control.idle np (by simp [hc.2.1]), ?_⟩
  rintro rfl
  cases c.live.symm.trans hc.2.1

/-- No other `fork` makes this child. -/
theorem alone {np i q j : Nat} (c : At N s p x) (hx : x.child = some (np, i))
    (hq : ((s.goto p y).procs q).pc.child = some (np, j)) : q = p ∧ y.child = some (np, j) := by
  by_cases e : q = p
  · subst e
    exact ⟨rfl, by simpa [Sys.goto] using hq⟩
  · rw [goto_ne e] at hq
    exact absurd (c.inv.control.uniq q p np j i hq (by rw [c.pc, hx])) e

/-- **`allocproc`** in `fork`. -/
theorem fork {np : Nat} (c : At N s p .fork) (hnp : np < N) (hu : (s.procs np).state = .unused) :
    Inv N ((s.setState np .used).goto p (.forkCopy np)) := by
  obtain ⟨h, hp, hpc, hl⟩ := c
  have hne : p ≠ np := by
    rintro rfl
    cases hl.symm.trans hu
  have hno : ∀ q j, (s.procs q).pc.child ≠ some (np, j) := fun q j hq => by
    cases hu.symm.trans (h.control.child q np j hq).2.1
  have h1 : Inv N (s.setState np .used) :=
    h.setState hno (fun _ => h.control.idle np (by simp [hu])) (by simp)
  have hp1 : (s.setState np .used).procs p = s.procs p := by simp [Sys.setState, hne]
  have hnp1 : ((s.setState np .used).procs np).state = .used ∧
      ((s.setState np .used).procs np).ofile = (s.procs np).ofile := by
    simp [Sys.setState]
  refine ⟨h1.ledger.stay hp rfl rfl rfl (fun f => ?_) ?_ trivial (nil_subset _),
    h1.control.turn (hp1 ▸ hl) rfl (hp1 ▸ hl) trivial fun np' i hi => ?_, h1.calm, h1.pages⟩
  · rw [hp1, own_eq hpc]
    rfl
  · rw [hp1, hpc]
    trivial
  · obtain ⟨rfl, rfl⟩ := Prod.mk.inj (Option.some.inj hi)
    refine .inr ⟨hnp, hnp1.1, fun j hj => ?_, fun q j hq => ?_⟩
    · rw [hnp1.2]
      exact h.control.empty np (.inl hu) j hj
    · rw [setState_pc] at hq
      exact hno q j hq

/-- **`fork` ends**: the child is given up, or runs. -/
theorem forkEnd {np i : Nat} {st : ProcState} (c : At N s p x) (hx : x.child = some (np, i))
    (hd : x.dead = none) (hh : x.held = []) (hy : x.Still)
    (hst : st = .live ∨ st = .unused ∧ i = 0) : Inv N ((s.setState np st).goto p .idle) := by
  obtain ⟨⟨-, -, hnone⟩, hidle, hne⟩ := c.child hx
  rw [setState_goto]
  have h1 : Inv N (s.goto p .idle) := c.ret rfl hd hh hy
  refine h1.setState (fun q j hq => ?_) (fun _ => ?_) fun hst' fd hfd => ?_
  · cases (c.alone hx hq).2
  · rw [goto_ne hne, hidle]
  · rw [goto_ne hne]
    rcases hst with rfl | ⟨rfl, rfl⟩
    · rcases hst' with e | e <;> cases e
    · exact hnone fd (Nat.zero_le fd) hfd

/-- `fork` goes on to the next descriptor. -/
theorem forkNext {np i j : Nat} (c : At N s p x) (hs : some (s.goto p (.forkLoop np j)) = some s')
    (hd : x.dead = none) (hh : x.held = []) (hx : x.Still) (hch : x.child = some (np, i))
    (hij : i ≤ j) : Inv N s' :=
  c.go hs hd.symm hh.symm hx trivial (nil_subset _) trivial fun np' j' hj => by
    obtain ⟨rfl, rfl⟩ := Prod.mk.inj (some.inj hj)
    exact ⟨i, hij, hch⟩

/-- **`fork` copies a descriptor.** -/
theorem forkDup {np i : Nat} (c : At N s p (.forkLoop np i)) (hi : i < NOFILE)
    (hf : (s.procs p).ofile i = some f) :
    Inv N (((s.filedup f).setFd np i (some f)).goto p (.forkLoop np (i + 1))) := by
  obtain ⟨⟨hnp, hused, hnone⟩, hidle, hne⟩ := c.child rfl
  have hpos : 0 < (s.procs p).own f := by
    rw [c.own]
    exact Nat.add_pos_left (slots_pos hi hf (by simp [Point.dead])) _
  -- the parent goes on first, and then the child gets its descriptor
  have h1 : Inv N (s.goto p (.forkLoop np (i + 1))) :=
    c.forkNext rfl rfl rfl trivial rfl (Nat.le_succ i)
  have hnp1 : (s.goto p (.forkLoop np (i + 1))).procs np = s.procs np := goto_ne hne
  rw [Sys.filedup, if_neg (c.ref_pos hpos)]
  have hs : ((s.setFile f { s.ftable f with ref := (s.ftable f).ref + 1 }).setFd np i (some f)).goto
      p (.forkLoop np (i + 1)) = ((s.goto p (.forkLoop np (i + 1))).setFd np i (some f)).setFile f
      { s.ftable f with ref := (s.ftable f).ref + 1 } := by
    rw [setFd_goto_ne hne]
    rfl
  rw [hs]
  have hctl : Control N ((s.goto p (.forkLoop np (i + 1))).setFd np i (some f)) :=
    h1.control.setFd (hnp1 ▸ hused) fun q j hq => by
      obtain ⟨-, rfl⟩ := Prod.mk.inj (some.inj (c.alone rfl hq).2)
      exact Nat.lt_succ_self i
  refine ⟨h1.ledger.share c.lt hnp (f := f)
    (P := { s.procs np with ofile := update (s.procs np).ofile i (some f) }) ?_ ?_ ?_ rfl rfl ?_ ?_
    fun g => ?_, ⟨hctl.ok, hctl.idle, hctl.empty, hctl.child, hctl.uniq⟩, h1.calm, h1.pages⟩
  · simpa [Sys.goto, Proc.own, c.pc, Point.dead, Point.held] using hpos
  · simp [Sys.goto, Point.fresh]
  · rw [hnp1, hidle]
    rfl
  · change update _ np _ = _
    rw [hnp1]
  · rw [hnp1]
  · rw [hnp1]
    simp only [Proc.own, hidle, Point.dead, Point.held, count_nil, Nat.add_zero]
    exact slots_set hi (hnone i le_rfl hi) g

/-- **`exit` ends.** -/
theorem exitEnd (c : At N s p (.exitLoop fd)) (hfd : ¬ fd < NOFILE) :
    Inv N ((s.setState p .zombie).goto p .idle) := by
  rw [setState_goto]
  have h1 : Inv N (s.goto p .idle) := c.ret rfl rfl rfl trivial
  refine h1.setState (fun q i hq => ?_) (fun _ => by simp [Sys.goto]) fun _ i hi => ?_
  · have := (h1.control.child q p i hq).2.1
    simp [Sys.goto, c.live] at this
  · simp only [Sys.goto, update_self]
    exact c.ok.2 i (by omega)

/-! ## Every step -/

variable {o : Outcome}

theorem runOpen {omode : Nat} (c : At N s p (.openLookup omode)) (hs : run N s p o = some s') :
    Inv N s' := by
  cases o with
  | fail =>
    simp only [run, c.pc] at hs
    exact c.ret hs rfl rfl trivial
  | found ip dev =>
    simp only [run, c.pc] at hs
    split at hs
    · exact c.ret hs rfl rfl trivial
    · exact c.go hs rfl rfl trivial trivial (nil_subset _) trivial nofun
  | ok | page pi | slot np => simp [run, c.pc] at hs

theorem runOpenSet {f omode ip : Nat} {dev : Option Int} (c : At N s p (.openSet f omode ip dev)) :
    Inv N ((s.setFile f (opened (s.ftable f) omode ip dev)).goto p .idle) := by
  obtain ⟨h1, h2, h3⟩ := c.fresh (f := f) (by simp [Point.fresh])
  have href : (opened (s.ftable f) omode ip dev).ref = (s.ftable f).ref := by cases dev <;> rfl
  have htype : (opened (s.ftable f) omode ip dev).type ≠ .FD_PIPE := by cases dev <;> simp [opened]
  refine c.touch rfl h3 (fun g => by rw [href]; rfl) (fun e => by omega) (fun pi w => ?_)
    (fun _ => rfl) rfl trivial rfl
  simp [File.isEnd, htype, h2, Point.closes]

/-- A descriptor is free, and another is not. -/
theorem ne_of_free {fd' : Nat} (h : ofile fd = some f) (h' : ofile fd' = none) : fd ≠ fd' := by
  rintro rfl
  cases h.symm.trans h'

theorem runDup (c : At N s p (.dup fd)) (hs : run N s p o = some s') : Inv N s' := by
  simp only [run, c.pc] at hs
  split at hs
  next => exact c.ret hs rfl rfl trivial
  next f hf =>
    split at hs
    next => exact c.ret hs rfl rfl trivial
    next fd' hfd =>
      obtain ⟨h1, h2⟩ := argfd_some hf
      obtain ⟨h3, h4⟩ := fdalloc_some hfd
      have hne := ne_of_free h2 h4
      exact c.setFd hs (slots_setDead h3 h4) trivial trivial (nil_subset _)
        ⟨h3, update_self .., fd, h1, hne, by rw [update_of_ne hne, h2]⟩ rfl

theorem runDupInc (c : At N s p (.dupInc fd f)) : Inv N ((s.filedup f).goto p .idle) := by
  obtain ⟨h1, h2, fd', h3, hne, h4⟩ := c.ok
  -- the reference to duplicate is in another descriptor
  have hpos : 0 < (s.procs p).own f := by
    rw [c.own]
    exact Nat.add_pos_left (slots_pos h3 h4 fun e => hne (some.inj e).symm) _
  have href := c.ref_pos hpos
  rw [Sys.filedup, if_neg href]
  refine c.touch rfl hpos (fun g => ?_) (fun e => by simp at e) (fun pi w => ?_)
    (fun _ => rfl) rfl trivial rfl
  · have hk := slots_kill h1 h2 g
    simp only [Point.dead, Point.held, count_nil, count_cons] at hk ⊢
    by_cases e : g = f
    · subst e
      simp at hk ⊢
      omega
    · simp [e, Ne.symm e] at hk ⊢
      omega
  · have : 0 < (s.ftable f).ref := by omega
    simp [File.isEnd, this, Point.closes]

theorem runPipe2 {f0 f1 : Nat} (c : At N s p (.pipe2 f0 f1)) (hs : run N s p o = some s') :
    Inv N s' := by
  cases o with
  | fail =>
    simp only [run, c.pc] at hs
    exact c.go hs rfl rfl trivial trivial (nil_subset _) trivial nofun
  | page pi =>
    simp only [run, c.pc] at hs
    split at hs
    next hpi => exact some.inj hs ▸ c.pipealloc hpi
    next => cases hs
  | ok | found ip dev | slot np => simp [run, c.pc] at hs

theorem runPipeFd1 {rf wf fd0 : Nat} (c : At N s p (.pipeFd1 rf wf fd0))
    (hs : run N s p o = some s') : Inv N s' := by
  obtain ⟨h1, h2⟩ := c.ok
  simp only [run, c.pc] at hs
  split at hs
  next =>
    refine c.setFd hs (fun g => ?_) trivial trivial (nil_subset _) trivial rfl
    have hc := slots_clear h1 h2 g
    simp only [Cont.dead, Cont.held, Point.dead, Point.held, count_cons, count_nil] at hc ⊢
    omega
  next fd1 hfd =>
    obtain ⟨h3, h4⟩ := fdalloc_some hfd
    have hne := ne_of_free h2 h4
    exact c.setFd hs (slots_set h3 h4) trivial trivial (nil_subset _)
      ⟨h1, h3, hne, by rw [update_of_ne hne, h2], update_self ..⟩ rfl

theorem runPipeOut {rf wf fd0 fd1 : Nat} (c : At N s p (.pipeOut rf wf fd0 fd1))
    (hs : run N s p o = some s') : Inv N s' := by
  obtain ⟨h1, h2, hne, h3, h4⟩ := c.ok
  cases o with
  | ok =>
    simp only [run, c.pc] at hs
    exact c.ret hs rfl rfl trivial
  | fail =>
    simp only [run, c.pc, Option.some.injEq] at hs
    have hs' : s' = { s with
        procs := update s.procs p
          { s.procs p with
            ofile := update (update (s.procs p).ofile fd0 none) fd1 none
            pc := .fileclose rf (.close wf) } } := by
      rw [← hs, setFd_goto]
      simp [Sys.setFd, update_idem]
    refine c.shift hs' (fun g => ?_) trivial trivial (nil_subset _) trivial (by rintro _ _ ⟨⟩)
    have hc1 := slots_clear h1 h3 g
    have hc2 := slots_clear h2 (show update (s.procs p).ofile fd0 none fd1 = some wf by
      rw [update_of_ne hne.symm, h4]) g
    simp only [Cont.dead, Cont.held, Point.dead, Point.held, count_cons, count_nil] at hc1 hc2 ⊢
    omega
  | found ip dev | page pi | slot np => simp [run, c.pc] at hs

theorem runFork (c : At N s p .fork) (hs : run N s p o = some s') : Inv N s' := by
  cases o with
  | fail =>
    simp only [run, c.pc] at hs
    exact c.ret hs rfl rfl trivial
  | slot np =>
    simp only [run, c.pc] at hs
    split at hs
    next hnp => exact some.inj hs ▸ c.fork hnp.1 hnp.2
    next => cases hs
  | ok | found ip dev | page pi => simp [run, c.pc] at hs

theorem runForkCopy {np : Nat} (c : At N s p (.forkCopy np)) (hs : run N s p o = some s') :
    Inv N s' := by
  cases o with
  | fail =>
    simp only [run, c.pc] at hs
    exact some.inj hs ▸ c.forkEnd rfl rfl rfl trivial (.inr ⟨rfl, rfl⟩)
  | ok =>
    simp only [run, c.pc] at hs
    exact c.forkNext hs rfl rfl trivial rfl le_rfl
  | found ip dev | page pi | slot np => simp [run, c.pc] at hs

theorem runForkLoop {np i : Nat} (c : At N s p (.forkLoop np i)) (hs : run N s p o = some s') :
    Inv N s' := by
  simp only [run, c.pc] at hs
  split at hs
  next hi =>
    split at hs
    next => exact c.forkNext hs rfl rfl trivial rfl (Nat.le_succ i)
    next f hf => exact some.inj hs ▸ c.forkDup hi hf
  next => exact some.inj hs ▸ c.forkEnd rfl rfl rfl trivial (.inl rfl)

theorem runExitLoop (c : At N s p (.exitLoop fd)) (hs : run N s p o = some s') : Inv N s' := by
  simp only [run, c.pc] at hs
  split at hs
  next hfd =>
    split at hs
    next hnone =>
      refine c.go hs rfl rfl trivial trivial (nil_subset _) ⟨hfd, fun i hi => ?_⟩ nofun
      rcases Nat.lt_succ_iff_lt_or_eq.1 hi with hi | rfl
      · exact c.ok.2 i hi
      · exact hnone
    next f hf =>
      have hs' : s' = { s with
          procs := update s.procs p
            { s.procs p with ofile := (s.procs p).ofile, pc := .fileclose f (.exitClear fd) } } :=
        (some.inj hs).symm
      exact c.shift hs' (slots_kill hfd hf) trivial trivial (nil_subset _) ⟨hfd, c.ok.2⟩ nofun
  next hfd => exact some.inj hs ▸ c.exitEnd hfd

theorem runExitClear (c : At N s p (.exitClear fd)) (hs : run N s p o = some s') : Inv N s' := by
  simp only [run, c.pc] at hs
  refine c.setFd hs (slots_clearDead c.ok.1) trivial trivial (nil_subset _)
    ⟨c.ok.1, fun i hi => ?_⟩ rfl
  rcases Nat.lt_succ_iff_lt_or_eq.1 hi with hi | rfl
  · rw [update_of_ne hi.ne]
    exact c.ok.2 i hi
  · exact update_self ..

end At

theorem Inv.call (h : Inv N s) (hp : p < N) (hpc : (s.procs p).pc = x) (hx : x ≠ .idle) :
    At N s p x :=
  ⟨h, hp, hpc, h.control.live (hpc ▸ hx)⟩

/-- **A step of a process in a call.** -/
theorem Inv.run {o : Outcome} (h : Inv N s) (hp : p < N) (hs : Files.run N s p o = some s') :
    Inv N s' := by
  rcases eq_or_ne (s.procs p).pc .idle with hpc | hpc
  · simp [Files.run, hpc] at hs
  obtain ⟨x, hx, c⟩ : ∃ x, x ≠ .idle ∧ At N s p x := ⟨_, hpc, h.call hp rfl hpc⟩
  cases x with
  | idle => exact absurd rfl hx
  | openLookup omode => exact c.runOpen hs
  | openAlloc | pipe0 =>
    simp only [Files.run, c.pc] at hs
    split at hs
    next => exact c.ret hs rfl rfl trivial
    next f hf =>
      exact c.alloc hf hs rfl (by simp [Point.held]) trivial trivial
        (by simp [Point.fresh]) trivial rfl
  | openFd f omode ip dev =>
    simp only [Files.run, c.pc] at hs
    split at hs
    next => exact c.go hs rfl rfl trivial trivial (nil_subset _) trivial nofun
    next fd hfd =>
      obtain ⟨h1, h2⟩ := fdalloc_some hfd
      exact c.setFd hs (slots_set h1 h2) trivial trivial (List.Subset.refl _) trivial rfl
  | openSet f omode ip dev =>
    simp only [Files.run, c.pc, Option.some.injEq] at hs
    exact hs ▸ c.runOpenSet
  | dup fd => exact c.runDup hs
  | dupInc fd f =>
    simp only [Files.run, c.pc, Option.some.injEq] at hs
    exact hs ▸ c.runDupInc
  | pipe1 f0 =>
    simp only [Files.run, c.pc] at hs
    split at hs
    next => exact c.go hs rfl rfl trivial trivial (nil_subset _) trivial nofun
    next f1 hf =>
      refine c.alloc hf hs rfl (fun g => ?_) trivial trivial
        (by simp [Point.fresh, or_comm]) trivial rfl
      simp only [Point.held, count_cons, count_nil]
      omega
  | pipe2 f0 f1 => exact c.runPipe2 hs
  | pipeFd0 rf wf =>
    simp only [Files.run, c.pc] at hs
    split at hs
    next => exact c.go hs rfl rfl trivial trivial (nil_subset _) trivial nofun
    next fd0 hfd =>
      obtain ⟨h1, h2⟩ := fdalloc_some hfd
      refine c.setFd hs (fun g => ?_) trivial trivial (nil_subset _) ⟨h1, update_self ..⟩ rfl
      have hc := slots_set (f := rf) h1 h2 g
      simp only [Point.dead, Point.held, count_cons, count_nil] at hc ⊢
      omega
  | pipeFd1 rf wf fd0 => exact c.runPipeFd1 hs
  | pipeOut rf wf fd0 fd1 => exact c.runPipeOut hs
  | close fd =>
    simp only [Files.run, c.pc] at hs
    split at hs
    next => exact c.ret hs rfl rfl trivial
    next f hf =>
      obtain ⟨h1, h2⟩ := argfd_some hf
      exact c.setFd hs (slots_clear h1 h2) trivial trivial (nil_subset _) trivial rfl
  | fileclose f k =>
    simp only [Files.run, c.pc, Option.some.injEq] at hs
    exact hs ▸ c.fileclose
  | pipeclose pi w k =>
    obtain ⟨e, he, -, h'⟩ := c.pipeclose
    simp only [Files.run, c.pc, Sys.pipeclose, he, Option.map_some, Option.some.injEq] at hs
    exact hs ▸ h'
  | kfree pi k =>
    simp only [Files.run, c.pc, Option.some.injEq] at hs
    exact hs ▸ c.kfree.2
  | iput k =>
    simp only [Files.run, c.pc] at hs
    exact c.go hs Cont.resume_dead Cont.resume_held trivial Cont.resume_still (by simp)
      (Cont.Ok.resume (k := k) c.ok) (by simp)
  | fork => exact c.runFork hs
  | forkCopy np => exact c.runForkCopy hs
  | forkLoop np i => exact c.runForkLoop hs
  | exitLoop fd => exact c.runExitLoop hs
  | exitClear fd => exact c.runExitClear hs

end Xv6.Files
