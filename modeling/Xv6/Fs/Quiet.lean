import Xv6.Fs.Admission

/-!
# Fs/Quiet — steps that leave the file system alone

Most steps move a process on, or a buffer in the cache, and nothing else: not what is on the disk or
was last stored, not the log, not who is in an operation.  `Quiet` says so once, for all of them.
-/

namespace Xv6.Fs

open Function

/-- What most steps leave alone. -/
structure Core where
  disk : Nat → Block
  val : Nat → Block
  lh : LogHeader
  outstanding : Nat
  committing : Bool
  up : Bool
  base : Nat → Block
  cur : List Ev
  groups : List (List Ev)
  durable : Nat
  returned : Nat

def Sys.core (s : Sys) : Core where
  disk := s.cache.disk
  val := s.cache.val
  lh := s.log.lh
  outstanding := s.log.outstanding
  committing := s.log.committing
  up := s.up
  base := s.base
  cur := s.cur
  groups := s.groups
  durable := s.durable
  returned := s.returned

/-- What stays of a process. -/
structure Proc.Stays (P P' : Proc) : Prop where
  inOp : P'.inOp = P.inOp
  logged : P'.logged = P.logged
  dirty : ∀ b, ⟨b, true⟩ ∈ P'.held ↔ ⟨b, true⟩ ∈ P.held

theorem Proc.Stays.refl (P : Proc) : P.Stays P := ⟨rfl, rfl, fun _ => Iff.rfl⟩

/-- **A quiet step** of a process. -/
structure Quiet (s s' : Sys) (p : Nat) : Prop where
  core : s'.core = s.core
  stays : ∀ q, (s.procs q).Stays (s'.procs q)
  others : ∀ q, q ≠ p → s'.procs q = s.procs q
  panicked : s'.panicked = s.panicked ∨ s'.panicked = some .noBuffers

variable {cf : Conf} {s s' : Sys} {p q b n : Nat} {Q : Proc} {a : Label} {pc : Pc}

theorem Quiet.turn (hcore : s'.core = s.core) (hprocs : s'.procs = update s.procs p Q)
    (hQ : (s.procs p).Stays Q) (hpan : s'.panicked = s.panicked) : Quiet s s' p := by
  refine ⟨hcore, fun q => ?_, fun q hq => ?_, .inl hpan⟩
  · rw [hprocs]
    exact forall_update (F := fun q Q => (s.procs q).Stays Q) (fun q => .refl _) hQ q
  · rw [hprocs, update_of_ne hq]

theorem Quiet.bread {next : Nat → Pc} : Quiet s (bread cf s p n next) p := by
  unfold Fs.bread
  split
  next b c e =>
    have hc : c.disk = s.cache.disk ∧ c.val = s.cache.val := by
      unfold Cache.bget at e
      split at e
      · cases e
        exact ⟨rfl, rfl⟩
      · obtain ⟨b', -, e⟩ := Option.map_eq_some_iff.1 e
        cases e
        exact ⟨rfl, rfl⟩
    refine .turn ?_ rfl ⟨rfl, rfl, fun _ => Iff.rfl⟩ rfl
    show ({ s with cache := c } : Sys).core = s.core
    simp only [Sys.core, hc.1, hc.2]
  next => exact ⟨rfl, fun q => .refl _, fun _ _ => rfl, .inr rfl⟩

/-- The program points where more happens. -/
def Pc.loud : Pc → Bool
  | .beginOp | .commit | .logCopy .. | .headFill .. | .instCopy .. | .clear _ | .endOp | .headRead _
  | .recovered => true
  | _ => false

/-- **All other program points are quiet.** -/
theorem Quiet.run (hpc : pc.loud = false) (e : run cf s p pc = some s') : Quiet s s' p := by
  cases pc with
  | user | asleep => cases e
  | beginOp | commit | logCopy | headFill | instCopy | clear | endOp | headRead
  | recovered => cases hpc
  | ret n b =>
    cases e
    refine .turn rfl rfl ⟨rfl, rfl, fun a => ?_⟩ rfl
    simp
  | lock b next =>
    obtain ⟨c, hc, rfl⟩ := Option.map_eq_some_iff.1 e
    rw [Cache.acquiresleep] at hc
    split at hc <;> cases hc
    exact .turn rfl rfl ⟨rfl, rfl, fun _ => Iff.rfl⟩ rfl
  | fill b next =>
    cases e
    refine .turn ?_ rfl ⟨rfl, rfl, fun _ => Iff.rfl⟩ rfl
    show ({ s with cache := s.cache.fill b } : Sys).core = s.core
    rw [Cache.fill]
    split <;> rfl
  | writeLog | install =>
    simp only [Fs.run] at e
    split at e <;> cases e
    · exact .bread
    · exact .turn rfl rfl ⟨rfl, rfl, fun _ => Iff.rfl⟩ rfl
  | logFrom | writeHead | instHome | readHead =>
    cases e
    exact .bread
  | rel | logRel | logTo | headRel | instPin | instRel | instRelD =>
    cases e
    exact .turn rfl rfl ⟨rfl, rfl, fun _ => Iff.rfl⟩ rfl

end Xv6.Fs
