import Xv6.Ipc.Pipe

/-!
# Ipc/Sleepers — who sleeps on a pipe, and why

A reader sleeps while the pipe is empty and may still be written, a writer while it is full and may
still be read.  Whoever holds `pi->lock` may have changed that and not woken the sleepers yet;
`Duty` says, program point by program point, what it still owes them.  The debt is paid when the
lock is released, with one exception: `pipewrite` returns at once when it finds itself killed, also
if it has stored bytes since it took the lock, and then a reader sleeps on with bytes in the pipe
(`reader_forgotten`).  Without a kill at that moment nobody is forgotten (`no_sleeper_forgotten`).
-/

namespace Xv6.Pipe

open Monitor Option

variable {N p q k : Nat} {s s' t : Sys} {a : Label} {user : Option UInt8} {b : Point} {c d : Chan}
  {pc next : Code Point Chan}

/-- What a process that sleeps on a channel waits for has not happened. -/
def Chan.Waits (x : State) : Chan → Prop
  | .nread => x.empty ∧ x.writeopen = true
  | .nwrite => x.full ∧ x.readopen = true

/-- Whoever sleeps on `c` has a reason to. -/
def Sound (s : Sys) (c : Chan) : Prop := ∀ q, (s.procs q).chan = some c → c.Waits s.obj

/-- …on either channel. -/
def AllSound (s : Sys) : Prop := Sound s .nread ∧ Sound s .nwrite

/-- Where a function goes on once it has `pi->lock`. -/
def Point.entry : Point → Prop
  | .write .. | .read _ | .close _ => True
  | _ => False

/-- The loop of `pipewrite`. -/
def Point.writing : Point → Prop
  | .write .. | .writeKilled .. | .writeFull .. => True
  | _ => False

/-- Where a process is when it does not hold `pi->lock`. -/
def Outside : Code Point Chan → Prop
  | .done _ => True
  | .acquire b => b.entry
  | _ => False

/-- The process is in the loop, and holds the lock. -/
def Writing : Code Point Chan → Prop
  | .body b => b.writing
  | _ => False

/-- What comes after a wakeup. -/
def After (x : State) : Code Point Chan → Prop
  | .release _ | .body .closeFree => True
  | .sleep c b => c.Waits x ∧ b.entry
  | _ => False

/-- The channel whose sleepers a wakeup does not wake. -/
def Chan.other : Chan → Chan
  | .nread => .nwrite
  | .nwrite => .nread

/-- **What the holder of the lock knows, and owes to those who sleep**, at the points of its
function… -/
def Point.Duty (s : Sys) (p : Nat) : Point → Prop
  | .read _ | .close _ | .closeFree => AllSound s
  | .write .. =>
    Sound s .nwrite ∧ (Sound s .nread ∨ (s.procs p).killed = false ∧ s.obj.readopen = true)
  | .writeKilled .. =>
    s.obj.readopen = true ∧ Sound s .nwrite ∧ (Sound s .nread ∨ (s.procs p).killed = false)
  | .writeFull .. => s.obj.readopen = true ∧ Sound s .nwrite ∧ (s.procs p).killed = false
  | .readKilled _ => AllSound s ∧ Chan.nread.Waits s.obj
  | .copy .. => ∀ q, (s.procs q).chan ≠ some .nread

/-- …and at those all functions share. -/
def Duty (s : Sys) (p : Nat) : Code Point Chan → Prop
  | .done _ | .acquire _ => False
  | .release _ => AllSound s
  | .sleep c b => AllSound s ∧ c.Waits s.obj ∧ b.entry
  | .wakeup c k next => Sound s c.other ∧ (∀ q < k, (s.procs q).chan ≠ some c) ∧ After s.obj next
  | .body b => b.Duty s p

/-- The processes are where the lock says, and nobody sleeps without a reason while it is free. -/
structure Inv (N : Nat) (s : Sys) : Prop where
  lt : ∀ q, (∀ r, (s.procs q).pc ≠ .done r) → q < N
  asleep : ∀ q, (s.procs q).chan ≠ none → ∃ b, (s.procs q).pc = .acquire b
  out : ∀ q, s.lock ≠ some q → Outside (s.procs q).pc
  free : s.lock = none → AllSound s
  held : ∀ q, s.lock = some q → Duty s q (s.procs q).pc

/-! ## Small steps -/

/-- Sleepers have their reasons from the pipe, whatever the program points are. -/
theorem Sound.congr (h : Sound s c)
    (hch : ∀ q, (t.procs q).chan = some c → (s.procs q).chan = some c)
    (hw : c.Waits s.obj → c.Waits t.obj) : Sound t c :=
  fun q hq => hw (h q (hch q hq))

theorem sound_goto : Sound (s.goto p pc) c ↔ Sound s c := by
  unfold Sound
  simp only [goto_chan]
  rfl

theorem allSound_goto : AllSound (s.goto p pc) ↔ AllSound s := by
  unfold AllSound
  rw [sound_goto, sound_goto]

/-- A duty does not depend on program points. -/
theorem duty_goto {pc' : Code Point Chan} : Duty (s.goto p pc) q pc' ↔ Duty s q pc' := by
  cases pc' with
  | done | acquire => exact Iff.rfl
  | release => exact allSound_goto
  | sleep => exact and_congr allSound_goto Iff.rfl
  | wakeup => simp only [Duty, sound_goto, goto_chan]; rfl
  | body b =>
    cases b <;> simp only [Duty, Point.Duty, allSound_goto, sound_goto, goto_chan, goto_killed] <;>
      rfl

/-- Once everybody has been woken, what comes after the wakeup is as it should be. -/
theorem After.duty (h : After s.obj next) (hs : AllSound s) : Duty s p next := by
  cases next with
  | release => exact hs
  | sleep => exact ⟨hs, h⟩
  | body b =>
    cases b with
    | closeFree => exact hs
    | _ => exact h.elim
  | _ => exact h.elim

/-- With the lock just taken, a function starts with everything in order. -/
theorem Point.entry.duty (h : b.entry) (hs : AllSound s) : b.Duty s p := by
  cases b with
  | write => exact ⟨hs.2, .inl hs.1⟩
  | read | close => exact hs
  | _ => exact h.elim

namespace Inv

section

variable (h : Inv N s) (hl : s.lock = some p)

include h hl

theorem holder_lt : p < N := by
  refine h.lt p fun r e => ?_
  have hd := h.held p hl
  rw [e] at hd
  exact hd

/-- **The holder of the lock moves on**, perhaps after it has woken others or changed the pipe. -/
theorem goto (ht : Calms s t) (hd : Duty t p pc) : Inv N (t.goto p pc) where
  lt q hq := by
    by_cases e : q = p
    · exact e ▸ h.holder_lt hl
    · refine h.lt q fun r hr => hq r ?_
      rw [goto_pc_ne e, ht.pc, hr]
  asleep q hq := by
    obtain ⟨c, hc⟩ := ne_none_iff_exists'.1 hq
    rw [goto_chan] at hc
    have hs := ht.chan q c hc
    obtain ⟨b, e⟩ := h.asleep q (hs ▸ nofun)
    have hne : q ≠ p := by
      rintro rfl
      have hd := h.held q hl
      rw [e] at hd
      exact hd
    exact ⟨b, by rw [goto_pc_ne hne, ht.pc, e]⟩
  out q hq := by
    have hq' : s.lock ≠ some q := ht.lock ▸ hq
    have hne : q ≠ p := fun e => hq' (e ▸ hl)
    rw [goto_pc_ne hne, ht.pc]
    exact h.out q hq'
  free e := by
    have : s.lock = none := ht.lock ▸ e
    rw [hl] at this
    cases this
  held q hq := by
    have : s.lock = some q := ht.lock ▸ hq
    obtain rfl : p = q := some.inj (hl.symm.trans this)
    rw [goto_pc]
    exact duty_goto.2 hd

/-- **The holder lets go of the lock**, and may fall asleep with that. -/
theorem leave (hs : AllSound s) {w : Waiter Point Chan}
    (hout : Outside w.pc) (hw : ∀ c, w.chan = some c → c.Waits s.obj ∧ ∃ b, w.pc = .acquire b) :
    Inv N { s.upd p w with lock := none } := by
  have hsound : ∀ c, Sound s c → Sound { s.upd p w with lock := none } c := by
    intro c hc q hq
    change ((s.upd p w).procs q).chan = some c at hq
    by_cases e : q = p
    · subst e
      rw [upd_self] at hq
      exact (hw c hq).1
    · rw [upd_ne e] at hq
      exact hc q hq
  refine ⟨fun q hq => ?_, fun q hq => ?_, fun q _ => ?_, fun _ => ⟨hsound _ hs.1, hsound _ hs.2⟩,
    nofun⟩ <;> by_cases e : q = p
  · exact e ▸ h.holder_lt hl
  · exact h.lt q fun r hr => hq r ((congrArg Waiter.pc (upd_ne e)).trans hr)
  · subst e
    change ((s.upd q w).procs q).chan ≠ none at hq
    change ∃ b, ((s.upd q w).procs q).pc = _
    rw [upd_self] at hq ⊢
    obtain ⟨c, hc⟩ := Option.ne_none_iff_exists'.1 hq
    exact (hw c hc).2
  · change ((s.upd p w).procs q).chan ≠ none at hq
    change ∃ b, ((s.upd p w).procs q).pc = _
    rw [upd_ne e] at hq ⊢
    exact h.asleep q hq
  · subst e
    change Outside ((s.upd q w).procs q).pc
    rwa [upd_self]
  · change Outside ((s.upd p w).procs q).pc
    rw [upd_ne e]
    exact h.out q fun hq => e (Option.some.inj (hq.symm.trans hl))

end

/-- **A process outside moves on outside**, by a call. -/
theorem moveOut (h : Inv N s) (hl : s.lock ≠ some p) (hp : p < N) (hc : (s.procs p).chan = none)
    (hout : Outside pc) : Inv N (s.goto p pc) where
  lt q hq := by
    by_cases e : q = p
    · exact e ▸ hp
    · rw [goto_pc_ne e] at hq
      exact h.lt q hq
  asleep q hq := by
    rw [goto_chan] at hq
    have e : q ≠ p := fun e => hq (e ▸ hc)
    rw [goto_pc_ne e]
    exact h.asleep q hq
  out q hq := by
    by_cases e : q = p
    · subst e
      rw [goto_pc]
      exact hout
    · rw [goto_pc_ne e]
      exact h.out q hq
  free hq := allSound_goto.2 (h.free hq)
  held q hq := by
    have e : q ≠ p := fun e => hl (e ▸ hq)
    rw [goto_pc_ne e]
    exact duty_goto.2 (h.held q hq)

/-- **A process takes the lock.** -/
theorem enter (h : Inv N s) (hl : s.lock = none) (hpc : (s.procs p).pc = .acquire b)
    (hc : (s.procs p).chan = none) : Inv N { s.goto p (.body b) with lock := some p } := by
  have hb : b.entry := by
    have := h.out p (hl ▸ nofun)
    rwa [hpc] at this
  have hd : Duty s p (.body b) := hb.duty (h.free hl)
  refine ⟨fun q hq => ?_, fun q hq => ?_, fun q hq => ?_, nofun, fun q hq => ?_⟩
  · by_cases e : q = p
    · exact h.lt q (e ▸ hpc ▸ nofun)
    · exact h.lt q fun r hr => hq r ((goto_pc_ne e).trans hr)
  · have hq' : (s.procs q).chan ≠ none := fun e => hq (goto_chan.trans e)
    have e : q ≠ p := fun e => hq' (e ▸ hc)
    obtain ⟨b', hb'⟩ := h.asleep q hq'
    exact ⟨b', (goto_pc_ne e).trans hb'⟩
  · have e : q ≠ p := fun e => hq (e ▸ rfl)
    change Outside ((s.goto p (.body b)).procs q).pc
    rw [goto_pc_ne e]
    exact h.out q (hl ▸ nofun)
  · obtain rfl : p = q := some.inj hq
    have hd' : Duty (s.goto p (.body b)) p (.body b) := duty_goto.2 hd
    change Duty _ p ((s.goto p (.body b)).procs p).pc
    rw [goto_pc]
    cases b <;> exact hd'

end Inv

/-! ## What each step pays -/

/-- Nobody sleeps for room while there is some… -/
theorem Sound.none_nwrite (h : Sound s .nwrite) (hroom : ¬s.obj.full) (q : Nat) :
    (s.procs q).chan ≠ some .nwrite :=
  fun hq => hroom (h q hq).1

/-- …nor for bytes while there are some, or there will be none. -/
theorem Sound.none_nread (h : Sound s .nread) (hthere : ¬(s.obj.empty ∧ s.obj.writeopen = true))
    (q : Nat) : (s.procs q).chan ≠ some .nread :=
  fun hq => hthere (h q hq)

theorem sound_of_none (h : ∀ q, (s.procs q).chan ≠ some c) : Sound s c :=
  fun q hq => absurd hq (h q)

theorem Sound.both (h : Sound s c.other) (h' : Sound s c) : AllSound s := by
  cases c
  · exact ⟨h', h⟩
  · exact ⟨h, h'⟩

/-- The pipe after the code at a point, everything else as it was. -/
def paid (s : Sys) (p : Nat) (user : Option UInt8) (b : Point) : Sys :=
  { s with obj := (body s.obj (s.procs p).killed user b).1 }

/-- **The code of the pipe does what it owes**, or leaves it to the wakeup that follows. -/
theorem Point.Duty.body (hd : b.Duty s p) :
    Pipe.Duty (paid s p user b) p (body s.obj (s.procs p).killed user b).2 := by
  cases b with
  | write n i =>
    obtain ⟨hw, hr⟩ := hd
    simp only [paid, Pipe.body]
    split
    · exact ⟨hw, (by simp), trivial⟩
    · split
      next hro =>
        have : Sound s .nread := hr.resolve_right fun e => by simp [hro] at e
        exact ⟨this, hw⟩
      next hro => exact ⟨by simpa using hro, hw, hr.imp_right And.left⟩
  | writeKilled n i =>
    obtain ⟨hro, hw, hr⟩ := hd
    simp only [paid, Pipe.body]
    split
    next hk => exact ⟨hr.resolve_right (by simp [hk]), hw⟩
    next hk => exact ⟨hro, hw, Bool.eq_false_iff.2 hk⟩
  | writeFull n i =>
    obtain ⟨hro, hw, hk⟩ := hd
    simp only [paid, Pipe.body]
    split
    next hfull => exact ⟨hw, (by simp), ⟨hfull, hro⟩, trivial⟩
    next hroom =>
      cases user with
      | none => exact ⟨hw, (by simp), trivial⟩
      | some ch =>
        refine ⟨sound_of_none fun q => ?_, .inr ⟨hk, hro⟩⟩
        exact hw.none_nwrite hroom q
  | read n =>
    simp only [paid, Pipe.body]
    split
    next hw => exact ⟨hd, hw⟩
    next hw => exact Sound.none_nread hd.1 hw
  | readKilled n =>
    simp only [paid, Pipe.body]
    split
    · exact hd.1
    · exact ⟨hd.1, hd.2, trivial⟩
  | copy n i =>
    have hend : ∀ x : State, Pipe.Duty { s with obj := x } p (readEnd i) := fun x =>
      ⟨sound_of_none (c := .nread) hd, (by simp), trivial⟩
    simp only [paid, Pipe.body]
    split
    · split
      · exact hd
      · exact hend _
    · exact hend _
  | close writable =>
    cases writable with
    | true => exact ⟨hd.2, (by simp), trivial⟩
    | false => exact ⟨hd.1, (by simp), trivial⟩
  | closeFree => exact hd

/-- **A step of the holder of the lock.** -/
theorem Inv.step (h : Inv N s) (hl : s.lock = some p) (hc : (s.procs p).chan = none)
    (hd : Duty s p pc) (he : monitor.step N s p user pc = some s') : Inv N s' := by
  cases pc with
  | done | acquire => exact hd.elim
  | release r =>
    obtain rfl := Option.some.inj he
    exact h.leave hl hd trivial fun c e => by simp [hc] at e
  | sleep c b =>
    obtain rfl := Option.some.inj he
    refine h.leave hl hd.1 hd.2.2 fun d e => ?_
    obtain rfl : c = d := Option.some.inj e
    exact ⟨hd.2.1, b, rfl⟩
  | wakeup c k next =>
    obtain ⟨ho, hk, ha⟩ := hd
    rw [Monitor.step] at he
    split at he
    · obtain rfl := Option.some.inj he
      have hobj : (s.pass p k c).obj = s.obj := pass_obj
      exact h.goto hl pass_calms
        ⟨ho.congr (fun q => pass_calms.chan q _) fun hw => hobj ▸ hw, pass_chan hc hk, hobj ▸ ha⟩
    next hN =>
      obtain rfl := Option.some.inj he
      -- all processes have been passed, and only those below `N` ever sleep
      have hnone : ∀ q, (s.procs q).chan ≠ some c := by
        intro q e
        obtain ⟨m, hm⟩ := h.asleep q (e ▸ (by simp))
        exact hk q (Nat.lt_of_lt_of_le (h.lt q (hm ▸ (by simp))) (Nat.le_of_not_lt hN)) e
      exact h.goto hl .refl (ha.duty (ho.both (sound_of_none hnone)))
  | body b =>
    obtain rfl := Option.some.inj he
    exact h.goto (t := paid s p user b) hl ⟨fun _ => rfl, fun _ _ e => e, rfl⟩ (Point.Duty.body hd)

/-! ## The system -/

/-- No kill hits a process in the loop of `pipewrite`. -/
def Spared (s : Sys) : Label → Prop
  | .kill p => ¬Writing (s.procs p).pc
  | _ => True

theorem Sound.kill (h : Sound s c) : Sound (s.kill p) c := h.congr (fun q => kill_calms.chan q c) id

theorem AllSound.kill (h : AllSound s) : AllSound (s.kill p) := ⟨h.1.kill, h.2.kill⟩

/-- A duty survives a kill, unless it rests on the flag. -/
theorem Point.Duty.kill (hd : b.Duty s q) (hp : q = p → ¬b.writing) : b.Duty (s.kill p) q := by
  have hK : b.writing → ((s.kill p).procs q).killed = (s.procs q).killed :=
    fun hw => kill_killed_ne fun e => hp e hw
  cases b with
  | read | close | closeFree => exact AllSound.kill hd
  | write =>
    refine ⟨hd.1.kill, hd.2.imp Sound.kill ?_⟩
    rw [hK trivial]
    exact id
  | writeKilled =>
    refine ⟨hd.1, hd.2.1.kill, hd.2.2.imp Sound.kill ?_⟩
    rw [hK trivial]
    exact id
  | writeFull => exact ⟨hd.1, hd.2.1.kill, (hK trivial).trans hd.2.2⟩
  | readKilled => exact ⟨hd.1.kill, hd.2⟩
  | copy => exact fun q e => hd q (kill_calms.chan q _ e)

theorem Duty.kill (hd : Duty s q pc) (hp : q = p → ¬Writing pc) : Duty (s.kill p) q pc := by
  cases pc with
  | done | acquire => exact hd
  | release => exact AllSound.kill hd
  | sleep => exact ⟨hd.1.kill, hd.2⟩
  | wakeup c k next => exact ⟨hd.1.kill, fun q hq e => hd.2.1 q hq (kill_calms.chan q c e), hd.2.2⟩
  | body b => exact Point.Duty.kill hd hp

theorem Inv.kill (h : Inv N s) (hp : ¬Writing (s.procs p).pc) : Inv N (s.kill p) := by
  refine ⟨fun q hq => ?_, fun q hq => ?_, fun q hq => ?_,
    fun hl => (h.free hl).kill, fun q hq => ?_⟩
  · rw [kill_calms.pc] at hq
    exact h.lt q hq
  · obtain ⟨c, e⟩ := Option.ne_none_iff_exists'.1 hq
    rw [kill_calms.pc]
    exact h.asleep q (kill_calms.chan q c e ▸ nofun)
  · rw [kill_calms.pc]
    exact h.out q hq
  · rw [kill_calms.pc]
    exact (h.held q hq).kill fun e => e ▸ hp

theorem Inv.exec (h : Inv N s) (hk : Spared s a) (he : monitor.exec N s a = some s') :
    Inv N s' := by
  cases a with
  | run p user =>
    obtain ⟨hc, he⟩ := Option.ite_none_right_eq_some.1 he
    by_cases hl : s.lock = some p
    · exact h.step hl hc (h.held p hl) he
    · have ho := h.out p hl
      generalize hpc : (s.procs p).pc = pc at ho he
      cases pc with
      | done => cases he
      | acquire b =>
        obtain ⟨hn, he⟩ := Option.ite_none_right_eq_some.1 he
        obtain rfl := Option.some.inj he
        exact h.enter hn hpc hc
      | _ => exact ho.elim
  | call p f =>
    obtain ⟨⟨r, hr⟩, hp, hc, rfl⟩ := call_eq he
    have hf : f.entry.entry := by cases f <;> trivial
    refine h.moveOut (fun hl => ?_) (hp rfl) hc hf
    have hd := h.held p hl
    rwa [hr] at hd
  | kill p =>
    obtain rfl := Option.some.inj he
    exact h.kill hk

theorem system_inv (h : ((system N).restrict Spared).Reach s) : Inv N s := by
  refine h.invariant ?_ fun _ _ _ _ hi hs => hi.exec hs.1 hs.2
  rintro _ ⟨_, ⟨data, rfl⟩, rfl⟩
  exact ⟨fun q hq => absurd rfl (hq 0), fun q hq => absurd rfl hq, fun _ _ => trivial,
    fun _ => ⟨nofun, nofun⟩, nofun⟩

/-- **No sleeper is forgotten**, in a run in which no process is killed in the loop of `pipewrite`:
whenever the lock is free, who sleeps on `nread` finds the pipe empty and its write end open, and
who sleeps on `nwrite` finds it full and its read end open. -/
theorem no_sleeper_forgotten (N : Nat) (s : Sys) (h : ((system N).restrict Spared).Reach s)
    (hl : s.lock = none) (q : Nat) :
    ((s.procs q).chan = some .nread → s.obj.empty ∧ s.obj.writeopen = true) ∧
      ((s.procs q).chan = some .nwrite → s.obj.full ∧ s.obj.readopen = true) :=
  ⟨((system_inv h).free hl).1 q, ((system_inv h).free hl).2 q⟩

instance : DecidablePred Point.writing
  | .write .. | .writeKilled .. | .writeFull .. => .isTrue trivial
  | .read _ | .readKilled _ | .copy .. | .close _ | .closeFree => .isFalse id

instance : DecidablePred Writing
  | .body b => inferInstanceAs (Decidable b.writing)
  | .done _ | .acquire _ | .release _ | .sleep .. | .wakeup .. => .isFalse id

instance {s : Sys} : DecidablePred (Spared s)
  | .kill p => inferInstanceAs (Decidable (¬Writing (s.procs p).pc))
  | .run .. | .call .. => .isTrue trivial

/-- Process 0 reads from the new pipe, and falls asleep. -/
def readerSleeps : List Label := .call 0 (.piperead 1) :: steps 0 4 7

theorem no_sleeper_forgotten_reader : ∃ s, ((system 2).restrict Spared).Reach s ∧
    (s.lock == none && (s.procs 0).chan == some .nread) = true ∧
    ((s.procs 0).chan = some .nread → s.obj.empty ∧ s.obj.writeopen = true) := by
  have h : ((system 2).restrict Spared).Reach (.start (pipealloc fun _ => 0)) :=
    .init ⟨_, ⟨_, rfl⟩, rfl⟩
  obtain ⟨s, hs, hP⟩ := h.play_guarded (f := monitor.exec 2) (fun _ _ _ e => e) (l := readerSleeps)
    (P := fun s : Sys => s.lock == none && (s.procs 0).chan == some .nread) (by decide +kernel)
  have hl : s.lock = none := by simpa using (Bool.and_eq_true_iff.1 hP).1
  exact ⟨s, hs, hP, (no_sleeper_forgotten 2 s hs hl 0).1⟩

/-- **A reader is forgotten**: process 1 writes two bytes and is killed after the first.  It returns
without a wakeup, and process 0 sleeps on although there is a byte for it. -/
theorem reader_forgotten : ∃ s, (system 2).Reach s ∧ s.lock = none ∧
    (s.procs 0).chan = some .nread ∧ s.obj.writeopen = true ∧ ¬s.obj.empty := by
  have h : (system 2).Reach (.start (pipealloc fun _ => 0)) := .init ⟨_, ⟨_, rfl⟩, rfl⟩
  obtain ⟨s, hs, hP⟩ := h.play_any (f := monitor.exec 2) (fun _ _ _ e => e)
    (l := readerSleeps ++ .call 1 (.pipewrite 2) :: steps 1 4 7 ++ .kill 1 :: steps 1 3 7)
    (P := fun s : Sys =>
      decide (s.lock = none ∧ (s.procs 0).chan = some .nread ∧
        s.obj.writeopen = true ∧ ¬s.obj.empty))
    (by decide +kernel)
  exact ⟨s, hs, of_decide_eq_true hP⟩

end Xv6.Pipe
