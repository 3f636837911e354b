import Xv6.Proc.Kill

/-!
# Proc/Awake — `wait` and kills

`wait` checks the `killed` flag with `p->lock` held, and releases that before `sleep` takes it
again.  A kill in between finds a process that is not `SLEEPING` yet, and leaves it to fall asleep.
Where no kill comes there, no process sleeps in `wait` with its flag set (`wait_awake`).
-/

namespace Xv6.Sched

open List

variable {s s' : Sys} {c p q i : Nat} {taken rest : List Frame} {f g : Frame} {mv : Move}
  {ok : Bool} {a : Label}

/-- `wait` has found the flag clear, and is on its way to sleep. -/
def Frame.naps : Frame → Bool
  | .waitKilledHeld _ _ killed => !killed
  | .sleep _ _ (.wait ..) | .sleepRel _ _ (.wait ..) | .sleepSet _ _ (.wait ..) => true
  | _ => false

/-- `wait` is in `sched`, or back from it. -/
def Frame.slept : Frame → Bool
  | .sleepEnd _ _ (.wait ..) => true
  | _ => false

/-- The process whose flag the code at a program point sets. -/
def Frame.hits (m : Mem) : Frame → Option Nat
  | .kill pid i => if i < NPROC ∧ (m.procs i).pid = pid then some i else none
  | .setkilled i => some i
  | _ => none

/-- What a processor executes next does not set the flag of a process that is on its way to
sleep. -/
def Spares (s : Sys) : Label → Prop
  | .run c _ =>
    ∀ f ∈ (s.stack (s.mem.cur c)).head?, ∀ i ∈ f.hits s.mem, ∀ g ∈ s.stack (.proc i), g.naps = false
  | _ => True

instance {s : Sys} : DecidablePred (Spares s)
  | .run c _ => inferInstanceAs (Decidable (∀ f ∈ (s.stack (s.mem.cur c)).head?, ∀ i ∈ f.hits s.mem,
      ∀ g ∈ s.stack (.proc i), g.naps = false))
  | .call .. | .interrupt _ | .iret _ => .isTrue trivial

/-- The process sleeps in `wait`. -/
def SleepsInWait (s : Sys) (p : Nat) : Prop :=
  (s.mem.procs p).state = .sleeping ∧ ∃ g ∈ s.stack (.proc p), g.slept = true

instance {s : Sys} : Decidable (SleepsInWait s p) := inferInstanceAs (Decidable (_ ∧ _))

/-- A process that has been killed neither sleeps in `wait` nor is on its way to that. -/
structure Awake (s : Sys) (p : Nat) : Prop where
  naps : ∀ g ∈ s.stack (.proc p), g.naps = false
  sleeps : ¬SleepsInWait s p

/-! ## What a step can do -/

/-- **Only a process that finds its flag clear** goes on to sleep… -/
theorem Frame.move_naps (hm : f.move s c ok = some mv) (hf : f.For (.proc p))
    (hk : (s.mem.procs p).killed = true) (hg : g ∈ mv.frames) (hn : g.naps = true) :
    f.naps = true := by
  have hnext := Frame.move_next hm hg
  cases f <;> simp only [Frame.next, mem_cons, not_mem_nil, or_false] at hnext
  case waitKilled q addr =>
    cases hm
    obtain rfl := mem_singleton.1 hg
    cases hf
    rw [Frame.naps, hk] at hn
    cases hn
  case waitKilledHeld q addr killed =>
    obtain ⟨r, -, rfl⟩ := Option.map_eq_some_iff.1 hm
    cases killed with
    | true =>
      obtain rfl := mem_singleton.1 hg
      cases hn
    | false => rfl
  case relock q k =>
    cases k with
    | code => cases hnext
    | wait =>
      obtain rfl := mem_singleton.1 hnext
      cases hn
  case sleep q ch k | sleepRel q ch k =>
    subst hnext
    cases k with
    | code => cases hn
    | wait => rfl
  all_goals
    rcases hnext with rfl | rfl | rfl | rfl | rfl <;> cases hn

/-- …and only from there it falls asleep. -/
theorem Frame.move_slept (hm : f.move s c ok = some mv) (hg : g ∈ mv.frames) (hs : g.slept = true) :
    f.naps = true := by
  have hnext := Frame.move_next hm hg
  cases f <;> simp only [Frame.next, mem_cons, not_mem_nil, or_false] at hnext
  case relock q k =>
    cases k with
    | code => cases hnext
    | wait =>
      obtain rfl := mem_singleton.1 hnext
      cases hs
  case sleepSet q ch k =>
    rcases hnext with rfl | rfl
    · cases hs
    · cases k with
      | code => cases hs
      | wait => rfl
  case waitKilledHeld q addr killed =>
    rcases hnext with rfl | hnext
    · cases hs
    · obtain ⟨r, -, rfl⟩ := mem_map.1 hnext
      cases hs
  all_goals
    rcases hnext with rfl | rfl | rfl | rfl | rfl <;> cases hs

theorem Call.move_napless {f : Call} (hm : f.move s c = some mv) (hg : g ∈ mv.frames) :
    g.naps = false ∧ g.slept = false := by
  obtain ⟨p, e, -⟩ := Call.move_first hm
  rw [e] at hg
  cases f with
  | acquire | release => cases hg
  | _ => obtain rfl := mem_singleton.1 hg; exact ⟨rfl, rfl⟩

/-- **What a step leaves to do** does not lead a process to sleep whose flag is set, unless it was
on its way. -/
theorem Fired.napless (F : Fired s c taken rest mv s') (h : Inv s) (hc : s.mem.cur c = .proc p)
    (hk : (s.mem.procs p).killed = true) (hnaps : ∀ g ∈ s.stack (.proc p), g.naps = false)
    (hg : g ∈ mv.frames) : g.naps = false ∧ g.slept = false := by
  cases F.fires with
  | code hm | handler _ hm => exact Call.move_napless hm hg
  | interrupt =>
    obtain rfl := mem_singleton.1 hg
    exact ⟨rfl, rfl⟩
  | iret => cases hg
  | @frame f _ ok _ hm =>
    have hf : f ∈ s.stack (.proc p) := hc ▸ F.mem_taken
    have hn := hnaps f hf
    constructor
    · by_contra hg'
      rw [Frame.move_naps hm (h.home _ f hf) hk hg (by simpa using hg')] at hn
      cases hn
    · by_contra hg'
      rw [Frame.move_slept hm hg (by simpa using hg')] at hn
      cases hn

/-- A process falls asleep by its own doing. -/
theorem Fired.falls (F : Fired s c taken rest mv s') (hp : (mv.mem.procs p).state = .sleeping) :
    (s.mem.procs p).state = .sleeping ∨ ∃ ch k, taken = [.sleepSet p ch k] := by
  have hupd : ∀ {i : Nat} {h : Proc → Proc}, mv.mem.procs = (s.mem.upd i h).procs →
      ((h (s.mem.procs i)).state = .sleeping → (s.mem.procs i).state = .sleeping) →
      (s.mem.procs p).state = .sleeping := by
    intro i h hm hi
    rw [hm] at hp
    by_cases e : p = i
    · subst e
      rw [Mem.upd_self] at hp
      exact hi hp
    · rwa [Mem.upd_ne e] at hp
  rcases F.frame_or with ⟨f, ok, rfl, hm⟩ | ⟨e, -⟩
  swap
  · exact .inl (by rwa [e] at hp)
  · cases Frame.move_effect hm with
    | quiet e _ _ => exact .inl (e ▸ hp)
    | enter | back | sched | allocFound => exact .inl hp
    | @sleepSet q ch k =>
      by_cases e : p = q
      · exact .inr ⟨ch, k, e ▸ rfl⟩
      · dsimp only at hp
        rw [Mem.upd_ne e] at hp
        exact .inl hp
    | @run i => exact .inl (hupd (i := i) (h := fun P => { P with state := .running }) rfl nofun)
    | @forkRun _ i =>
      exact .inl (hupd (i := i) (h := fun P => { P with state := .runnable }) rfl nofun)
    | @allocFail _ i | @reap _ i => exact .inl (hupd (i := i) (h := fun _ => {}) rfl nofun)
    | yield | allocPid | zombie => exact .inl (hupd rfl nofun)
    | sleepRel | sleepEnd | forkParent | adopt | setkilled => exact .inl (hupd rfl id)
    | wake =>
      refine .inl (hupd rfl fun e => ?_)
      unfold Proc.wake at e
      split at e
      · cases e
      · exact e
    | kill =>
      refine .inl (hupd rfl fun e => ?_)
      unfold Proc.kill at e
      split at e
      · cases e
      · exact e

/-! ## The invariant -/

namespace Awake

/-- A process that had its flag set before a step. -/
theorem keep (h : Inv s) (F : Fired s c taken rest mv s') (hk : (s.mem.procs p).killed = true)
    (A : Awake s p) : Awake s' p := by
  refine ⟨fun g hg => ?_, fun ⟨hs, g, hg, hg'⟩ => ?_⟩ <;>
    rcases h.mem_stack F hg with ⟨e, hnew⟩ | ⟨hold, hrest⟩ | ⟨np, -, -, rfl⟩
  · exact (F.napless h e.symm hk A.naps hnew).1
  · exact A.naps g hold
  · rfl
  · rw [(F.napless h e.symm hk A.naps hnew).2] at hg'
    cases hg'
  · rw [F.mem] at hs
    rcases F.falls hs with hs | ⟨ch, k, rfl⟩
    · exact A.sleeps ⟨hs, g, hold, hg'⟩
    · -- nothing is below a call of `sleep`
      have hst := F.stack_eq
      have hhome := h.home _ _ F.mem_taken
      have hb := h.based (s.mem.cur c)
      rw [hst] at hb
      have hnil : rest = [] := hb.1 rfl
      have := hrest hhome.1.symm
      rw [hnil] at this
      cases this
  · cases hg'

/-- A process whose flag is set. -/
theorem set (h : Inv s) (F : Fired s c taken rest mv s')
    (hne : mv.frames.all (fun g => !g.naps && !g.slept)) (hs : (mv.mem.procs p).state ≠ .sleeping)
    (hnaps : ∀ g ∈ s.stack (.proc p), g.naps = false) : Awake s' p := by
  refine ⟨fun g hg => ?_, fun ⟨hs', _⟩ => hs (F.mem ▸ hs')⟩
  rcases h.mem_stack F hg with ⟨e, hnew⟩ | ⟨hold, -⟩ | ⟨np, -, -, rfl⟩
  · have := all_eq_true.1 hne g hnew
    simp at this
    exact this.1
  · exact hnaps g hold
  · rfl

/-- **A step sets no flag of a process that sleeps in `wait`, or is on its way to.** -/
theorem step (h : Inv s) (haim : ∀ x, ∀ f ∈ s.stack x, f.Aimed (fun _ => True) (fun _ => True) x)
    (F : Fired s c taken rest mv s') (hR : Recorded s a c taken mv) (hsp : Spares s a)
    (hi : ∀ p, (s.mem.procs p).killed = true → Awake s p) (p : Nat)
    (hk : (s'.mem.procs p).killed = true) : Awake s' p := by
  -- the process that a step hits is not on its way to sleep
  have hhit : ∀ f, taken = [f] → f ≠ .intr → f.hits s.mem = some p → ∀ g ∈ s.stack (.proc p),
      g.naps = false := by
    rintro f rfl hne hp
    obtain ⟨ok, rfl⟩ := hR.ran f rfl hne
    exact hsp f (by rw [F.stack_eq]; rfl) p hp
  rw [F.mem] at hk
  rcases F.flag p with e | e | ⟨rfl, hp, hpid⟩ | rfl
  · exact keep h F (e ▸ hk) (hi p (e ▸ hk))
  · rw [e] at hk
    cases hk
  · have hnaps := hhit _ rfl (by simp) (if_pos ⟨hp, hpid⟩)
    cases F.fires with
    | frame hm =>
      simp only [Frame.move, if_pos hp, if_pos hpid] at hm
      cases hm
      refine set h F rfl ?_ hnaps
      rw [Mem.upd_self]
      unfold Proc.kill
      split
      · simp
      next hs => exact hs
  · have hnaps := hhit _ rfl (by simp) rfl
    -- the process is executed, and has left nothing
    have hc : s.mem.cur c = .proc p := (haim _ _ F.mem_taken).1
    have hs := (h.on_of_cur hc).2.2.1
    rw [← hc, F.stack_eq] at hs
    cases F.fires with
    | frame hm =>
      cases hm
      refine set h F rfl ?_ hnaps
      rw [Mem.upd_self]
      exact hs ▸ (by rintro ⟨⟩)

end Awake

/-- **A kill that does not come between the check and the sleep wakes a process in `wait`**, or is
seen by it: no process sleeps in `wait` with its flag set. -/
theorem wait_awake (h : (system.restrict fun s a => Traps s a ∧ Spares s a).Reach s) (p : Nat)
    (hk : (s.mem.procs p).killed = true) : Awake s p := by
  refine (h.invariant (I := fun s => (∀ x, ∀ f ∈ s.stack x, f.Aimed (fun _ => True) (fun _ => True)
    x) ∧ ∀ p, (s.mem.procs p).killed = true → Awake s p) ?_ fun s a s' hr hi hs => ?_).2 p hk
  · rintro _ rfl
    refine ⟨aimed_start, fun p hk => ?_⟩
    simp only [initSys, initMem] at hk
    split at hk <;> cases hk
  · have hinv := system_inv hr.of_restrict
    obtain ⟨c, taken, rest, mv, F, hR⟩ := exec_recorded hinv hs.1.1 hs.2
    exact ⟨hR.step hinv F (fun x f hf _ => hi.1 x f hf) (fun _ _ _ => trivial) fun _ _ _ => trivial,
      Awake.step hinv hi.1 F hR hs.1.2 hi.2⟩

end Xv6.Sched
