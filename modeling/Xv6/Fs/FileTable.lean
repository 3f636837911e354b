import Xv6.Fs.FileCalls

/-!
# Fs/FileTable — a file's count is the number of its descriptors

The ledger along every run: between calls `ref` counts the descriptors, nothing panics, and a pipe
is freed once, when neither of its files is left.
-/

namespace Xv6.Files

open Tally Function Option Finset

variable {N p f pi : Nat} {s s' : Sys} {o : Outcome}

/-! ## Runs -/

theorem inv_init (N : Nat) : Inv N initSys := by
  have hpc : ∀ p, (initSys.procs p).pc = .idle := fun p => by
    unfold initSys
    simp only
    split <;> rfl
  have hof : ∀ p fd, (initSys.procs p).ofile fd = none := fun p fd => by
    unfold initSys
    simp only
    split <;> rfl
  have hown : ∀ p f, (initSys.procs p).own f = 0 := fun p f => by
    rw [own_eq (hpc p)]
    simp [slots, hof, total_zero, Point.held]
  refine ⟨⟨fun f => ?_, fun _ _ => rfl, fun f hf => ?_, fun pi w => ?_, fun pi => ?_,
    fun p _ f hf => ?_⟩, ⟨fun p => ?_, fun p _ => hpc p, fun p _ fd _ => hof p fd,
    fun p np i hi => ?_, fun p q np i j hi => ?_⟩, rfl, fun _ => rfl⟩
  · exact (total_zero fun p _ => hown p f).symm
  · exact absurd hf (lt_irrefl 0)
  · rw [total_zero fun f _ => ?_, total_zero fun p _ => ?_]
    · rfl
    · rw [hpc]
      rfl
    · simp [initSys, File.isEnd]
  · rw [total_zero fun p _ => ?_]
    · rfl
    · rw [hpc]
      rfl
  · rw [hpc] at hf
    cases hf
  · rw [hpc]
    trivial
  · rw [hpc] at hi
    cases hi
  · rw [hpc] at hi
    cases hi

theorem Inv.exec {a : Label} (h : Inv N s) (hs : exec N s a = some s') : Inv N s' := by
  cases a with
  | call p c =>
    obtain ⟨⟨-, hp, hl, hpc⟩, hs⟩ := Option.ite_none_right_eq_some.1 hs
    have ha : At N s p .idle := ⟨h, hp, hpc, hl⟩
    cases c with
    | exit =>
      exact ha.go hs rfl rfl trivial trivial (List.nil_subset _) ⟨Nat.zero_le _, nofun⟩ nofun
    | _ => exact ha.go hs rfl rfl trivial trivial (List.nil_subset _) trivial nofun
  | run p o =>
    obtain ⟨⟨-, hp⟩, hs⟩ := Option.ite_none_right_eq_some.1 hs
    exact h.run hp hs
  | reap p =>
    obtain ⟨⟨-, hp, hz⟩, hs⟩ := Option.ite_none_right_eq_some.1 hs
    rw [← Option.some.inj hs]
    refine h.setState (fun q i hq => ?_) (fun _ => h.control.idle p (by simp [hz])) fun _ =>
      h.control.empty p (.inr hz)
    have := (h.control.child q p i hq).2.1
    rw [hz] at this
    cases this

theorem system_inv (h : (system N).Reach s) : Inv N s :=
  h.invariant (fun _ e => e ▸ inv_init N) fun _ _ _ _ hi hs => hi.exec hs

/-! ## What is freed -/

@[simp] theorem filedup_frees : (s.filedup f).frees = s.frees := by
  unfold Sys.filedup
  split <;> rfl

@[simp] theorem fileclose_frees {k : Cont} : (s.fileclose p f k).frees = s.frees := by
  unfold Sys.fileclose
  split
  · rfl
  · split <;> rfl

/-- Only `kfree` frees. -/
theorem run_frees (hs : run N s p o = some s') :
    s'.frees = s.frees ∨ ∃ pi k, (s.procs p).pc = .kfree pi k ∧
    s'.frees = update s.frees pi (s.frees pi + 1) := by
  cases hpc : (s.procs p).pc with
  | kfree pi k =>
    simp only [run, hpc, Option.some.injEq] at hs
    exact .inr ⟨pi, k, rfl, hs ▸ rfl⟩
  | pipeclose pi w k =>
    simp only [run, hpc, Sys.pipeclose, map_eq_some_iff] at hs
    obtain ⟨e, -, rfl⟩ := hs
    exact .inl rfl
  | fileclose f k =>
    simp only [run, hpc, Option.some.injEq] at hs
    exact .inl (hs ▸ fileclose_frees)
  | dupInc fd f =>
    simp only [run, hpc, Option.some.injEq] at hs
    exact .inl (hs ▸ filedup_frees)
  | forkLoop np i =>
    simp only [run, hpc] at hs
    repeat' split at hs
    all_goals exact .inl (some.inj hs ▸ by first | rfl | exact filedup_frees)
  | _ =>
    simp only [run, hpc] at hs
    repeat' split at hs
    all_goals first
      | exact .inl (some.inj hs ▸ rfl)
      | cases hs

/-- Whether a file is an end of a pipe. -/
def File.Refers (F : File) (pi : Nat) : Prop := 0 < F.ref ∧ F.type = .FD_PIPE ∧ F.pipe = pi

/-- Whether a call that closes an end of the pipe is in progress. -/
def Point.Closing (pi : Nat) (pc : Point) : Prop := (∃ w, 0 < pc.closes pi w) ∨ 0 < pc.frees pi

/-- No call is in progress. -/
def Quiet (N : Nat) (s : Sys) : Prop := ∀ p < N, (s.procs p).pc = .idle

namespace Ledger

section

variable (h : Ledger N s)

include h

theorem refs_quiet (hq : Quiet N s) (f : Nat) : (s.ftable f).ref =
    ((Finset.range N ×ˢ Finset.range NOFILE).filter fun x => (s.procs x.1).ofile x.2 =
      some f).card := by
  have hown : ∀ p < N, (s.procs p).own f = total NOFILE fun fd => if (s.procs p).ofile fd =
      some f then 1 else 0 := by
    intro p hp
    rw [own_eq (hq p hp)]
    simp [slots, Point.dead, Point.held]
  rw [h.refs, total_congr hown, card_filter, sum_product]
  simp only [total]

/-- A file refers to a pipe that is there, with its end open. -/
theorem refers_open (hf : (s.ftable f).Refers pi) :
    0 < isOpen s.pages pi (s.ftable f).writable := by
  have h1 := h.ends pi (s.ftable f).writable
  have h2 := le_total (f := fun g => (s.ftable g).isEnd pi (s.ftable f).writable) (h.bound f hf.1)
  have h3 : (s.ftable f).isEnd pi (s.ftable f).writable = 1 := by
    simp [File.isEnd, hf.1, hf.2.1, hf.2.2]
  omega

theorem refers_page (hf : (s.ftable f).Refers pi) : s.pages pi ≠ none := by
  intro hno
  have := h.refers_open hf
  simp [isOpen, hno] at this

/-- **An end of a pipe is one file.** -/
theorem refers_unique {g : Nat} (hf : (s.ftable f).Refers pi) (hg : (s.ftable g).Refers pi)
    (hw : (s.ftable f).writable = (s.ftable g).writable) : f = g := by
  by_contra hne
  have h1 := h.ends pi (s.ftable f).writable
  have h2 := add_le_total (f := fun i => (s.ftable i).isEnd pi (s.ftable f).writable)
    (h.bound f hf.1) (h.bound g hg.1) hne
  have h3 : (s.ftable f).isEnd pi (s.ftable f).writable = 1 := by
    simp [File.isEnd, hf.1, hf.2.1, hf.2.2]
  have h4 : (s.ftable g).isEnd pi (s.ftable f).writable = 1 := by
    simp [File.isEnd, hg.1, hg.2.1, hg.2.2, hw]
  have h5 : isOpen s.pages pi (s.ftable f).writable ≤ 1 := by
    unfold isOpen
    split
    · split_ifs <;> omega
    · omega
  omega

/-- **A pipe that no file is an end of is being closed.** -/
theorem page_refers (hpi : s.pages pi ≠ none) :
    (∃ f, (s.ftable f).Refers pi) ∨ ∃ p < N, (s.procs p).pc.Closing pi := by
  obtain ⟨e, he⟩ := ne_none_iff_exists'.1 hpi
  by_cases hshut : e = ⟨false, false⟩
  · have h1 := h.frees pi
    simp only [isShut, he, hshut, if_true] at h1
    obtain ⟨p, hp, h2⟩ := total_pos (n := N) (f := fun p => (s.procs p).pc.frees pi) (by omega)
    exact .inr ⟨p, hp, .inr h2⟩
  · obtain ⟨w, hw⟩ : ∃ w : Bool, (if w then e.writeopen else e.readopen) = true := by
      by_contra hno
      refine hshut ?_
      have h1 := not_exists.1 hno true
      have h2 := not_exists.1 hno false
      cases e
      simp_all
    have h1 := h.ends pi w
    simp only [isOpen, he, hw, if_true] at h1
    rcases Nat.eq_zero_or_pos (total NFILE fun f => (s.ftable f).isEnd pi w) with h0 | h0
    · obtain ⟨p, hp, h2⟩ := total_pos (n := N) (f := fun p => (s.procs p).pc.closes pi w) (by omega)
      exact .inr ⟨p, hp, .inl ⟨w, h2⟩⟩
    · obtain ⟨f, -, h2⟩ := total_pos h0
      refine .inl ⟨f, ?_⟩
      unfold File.isEnd at h2
      split at h2
      next hf => exact ⟨hf.1, hf.2.1, hf.2.2.1⟩
      next => exact absurd h2 (lt_irrefl 0)

end

end Ledger

/-- **Closing goes through**: dropping the last reference to an end of a pipe leads to `pipeclose`,
which finds the end open and shuts it, and if it is the second one to `kfree`, which frees the
page. -/
def Shuts (N : Nat) (s : Sys) : Prop :=
  ∀ p < N, ∀ k o,
    (∀ f, (s.procs p).pc = .fileclose f k → (s.ftable f).ref = 1 → (s.ftable f).type = .FD_PIPE →
      ∃ s', (system N).step s (.run p o) s' ∧ (s'.ftable f).ref = 0 ∧
        (s'.procs p).pc = .pipeclose (s.ftable f).pipe (s.ftable f).writable k) ∧
    (∀ pi w, (s.procs p).pc = .pipeclose pi w k → ∃ e s', (system N).step s (.run p o) s' ∧
      s.pages pi = some e ∧ (if w then e.writeopen else e.readopen) = true ∧
      s'.pages pi = some (e.shut w) ∧
        (s'.procs p).pc = if e.shut w = (⟨false, false⟩ : Ends) then .kfree pi k else k.resume) ∧
    ∀ pi, (s.procs p).pc = .kfree pi k →
      ∃ s', (system N).step s (.run p o) s' ∧ s'.pages pi = none ∧ s'.frees pi = s.frees pi + 1

theorem Inv.shuts (h : Inv N s) : Shuts N s := by
  intro p hp k o
  have hstep : Files.exec N s (.run p o) = Files.run N s p o := if_pos ⟨h.calm, hp⟩
  have hrun : ∀ {s'}, Files.run N s p o = some s' → (system N).step s (.run p o) s' := hstep.trans
  refine ⟨fun f hpc href hty => ⟨s.fileclose p f k, hrun (by simp only [Files.run, hpc]), ?_, ?_⟩,
    fun pi w hpc => ?_, fun pi hpc => ⟨_, hrun (by simp only [Files.run, hpc]; rfl), ?_, ?_⟩⟩
  · simp [Sys.fileclose, href, Sys.goto, Sys.setFile]
  · simp [Sys.fileclose, href, hty, Sys.goto, Sys.setFile]
  · obtain ⟨e, hpi, ho, -⟩ := (h.call hp hpc (by simp)).pipeclose
    refine ⟨e, _, hrun (by simp only [Files.run, hpc, Sys.pipeclose, hpi]; rfl), hpi, ho, ?_, ?_⟩
    · simp [Sys.goto]
    · simp [Sys.goto]
  · simp [Sys.goto]
  · simp [Sys.goto]

/-- **References to files.**  Whatever calls of `open`, `dup`, `pipe`, `close`, `fork` and `exit`
any number of processes make, and whichever of them fail: neither `filedup` nor `fileclose` panics,
a file without references has no type, and between calls `ref` is the number of descriptors.  Each
page that has been taken for a pipe has been freed once or is still the pipe's; it is freed when no
file refers to it, and while it is there some file does, or a call is about to close it; and such a
call goes through and frees it. -/
theorem file_refs (h : (system N).Reach s) :
    s.panicked = none ∧ (∀ f, (s.ftable f).ref = 0 → (s.ftable f).type = .FD_NONE) ∧
    (Quiet N s → ∀ f, (s.ftable f).ref =
      ((Finset.range N ×ˢ Finset.range NOFILE).filter fun x =>
        (s.procs x.1).ofile x.2 = some f).card) ∧
    (∀ pi, s.allocs pi = s.frees pi + if s.pages pi = none then 0 else 1) ∧
    (∀ a s' pi, (system N).step s a s' → s'.frees pi ≠ s.frees pi →
      s'.frees pi = s.frees pi + 1 ∧ s.pages pi ≠ none ∧ ∀ f, ¬ (s.ftable f).Refers pi) ∧
    (∀ pi, s.pages pi ≠ none → (∃ f, (s.ftable f).Refers pi) ∨ ∃ p < N, (s.procs p).pc.Closing pi) ∧
    Shuts N s ∧ ∀ f pi, (s.ftable f).Refers pi → s.pages pi ≠ none ∧
      ∀ g, (s.ftable g).Refers pi → (s.ftable g).writable = (s.ftable f).writable → g = f := by
  have hi := system_inv h
  refine ⟨hi.calm, hi.ledger.untyped, hi.ledger.refs_quiet, hi.pages, fun a s' pi hs hne => ?_,
    fun pi => hi.ledger.page_refers, hi.shuts, fun f pi hf => ⟨hi.ledger.refers_page hf,
    fun g hg hw => hi.ledger.refers_unique hg hf hw⟩⟩
  cases a with
  | call p c | reap p =>
    obtain ⟨-, hs⟩ := Option.ite_none_right_eq_some.1 hs
    exact absurd (by rw [← Option.some.inj hs]; rfl) hne
  | run p o =>
    obtain ⟨⟨-, hp⟩, hs⟩ := Option.ite_none_right_eq_some.1 hs
    rcases run_frees hs with e | ⟨pi', k, hpc, e⟩
    · exact absurd (by rw [e]) hne
    · obtain ⟨hshut, -⟩ := (hi.call hp hpc nofun).kfree
      have hpi : pi = pi' := by
        by_contra hpi
        exact hne (by rw [e, Function.update_of_ne hpi])
      subst hpi
      refine ⟨by rw [e, Function.update_self], by simp [hshut], fun f hf => ?_⟩
      have := hi.ledger.refers_open hf
      simp [isOpen, hshut] at this

/-- The first process makes a pipe and forks. -/
def pipeFork : List Label :=
  [.call 0 .pipe, .run 0 .ok, .run 0 .ok, .run 0 (.page 7), .run 0 .ok, .run 0 .ok, .run 0 .ok,
    .call 0 .fork, .run 0 (.slot 1), .run 0 .ok] ++ List.replicate 17 (.run 0 .ok)

/-- Both close both ends; the last call is about to free the page. -/
def pipeGone : List Label :=
  pipeFork ++ [.call 1 (.close 0), .run 1 .ok, .run 1 .ok, .call 0 (.close 0), .run 0 .ok,
    .run 0 .ok, .run 0 .ok, .call 1 (.close 1), .run 1 .ok, .run 1 .ok, .call 0 (.close 1),
    .run 0 .ok, .run 0 .ok, .run 0 .ok]

theorem file_refs_pipe : ∃ s s', (system 2).Reach s ∧ (system 2).step s (.run 0 .ok) s' ∧
    s.allocs 7 = 1 ∧ s.frees 7 = 0 ∧ s'.frees 7 = 1 ∧ s'.pages 7 = none := by
  have h : (system 2).Reach initSys := .init rfl
  obtain ⟨s, hs, hP⟩ := h.play_any (f := exec 2) (fun _ _ _ e => e) (l := pipeGone)
    (P := fun s : Sys => decide ((s.procs 0).pc = .kfree 7 .ret ∧ s.pages 7 ≠ none ∧
      s.allocs 7 = 1)) (by decide +kernel)
  obtain ⟨hpc, hpage, halloc⟩ := of_decide_eq_true hP
  obtain ⟨-, -, -, hfreed, -, -, hshut, -⟩ := file_refs hs
  have hzero := hfreed 7
  rw [halloc, if_neg hpage] at hzero
  obtain ⟨s', hstep, hnone, hone⟩ := (hshut 0 (by decide) .ret .ok).2.2 7 hpc
  exact ⟨s, s', hs, hstep, halloc, by omega, by omega, hnone⟩

end Xv6.Files
