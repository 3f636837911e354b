import Xv6.Fs.Log
import Xv6.Lib.Tally
import Mathlib.Algebra.Order.BigOperators.Group.Finset

/-!
# Fs/Users — who uses which buffer

Each program point says which buffers its process refers to, which of them it has locked, and which
have been read (`Pc.bufs`, `Pc.locked`, `Pc.ready`).  `Users` is that the cache agrees: reference
counts add up, and locks are held by whom they say.  There is one lemma for each operation on the
cache.
-/

namespace Xv6.Fs

open Function List

/-! ## The buffers of a process -/

/-- The buffers a program point refers to. -/
def Pc.bufs : Pc → List Nat
  | .ret _ b | .logFrom _ b | .logTo _ b | .headFill b _ | .headRel b _ | .headRead b
  | .instHome _ _ b
  | .instRelD _ _ b => [b]
  | .lock _ next | .fill _ next => next.bufs
  | .rel b next => b :: next.bufs
  | .logCopy _ a b | .logRel _ a b | .instCopy _ _ a b | .instPin _ a b | .instRel _ _ a b => [a, b]
  | _ => []

/-- …those it has locked… -/
def Pc.locked : Pc → List Nat
  | .lock b next => next.bufs.erase b
  | .rel _ next => next.bufs
  | pc => pc.bufs

/-- …and those of them that have been read. -/
def Pc.ready : Pc → List Nat
  | .lock b next | .fill b next => next.bufs.erase b
  | .rel _ next => next.bufs
  | pc => pc.bufs

namespace Proc

variable (P : Proc)

/-- The buffers a process refers to. -/
def refs : List Nat := P.held.map Hold.b ++ P.pc.bufs

/-- The buffers it has locked. -/
def locked : List Nat := P.held.map Hold.b ++ P.pc.locked

/-- The buffers it has locked and that have been read. -/
def ready : List Nat := P.held.map Hold.b ++ P.pc.ready

end Proc

theorem Pc.locked_subset (pc : Pc) : pc.locked ⊆ pc.bufs := by
  cases pc <;> first | exact List.Subset.refl _ | exact erase_subset | exact subset_cons_self ..

theorem Pc.ready_subset (pc : Pc) : pc.ready ⊆ pc.locked := by
  cases pc <;> first | exact List.Subset.refl _ | exact erase_subset

theorem Proc.locked_subset (P : Proc) : P.locked ⊆ P.refs := fun b hb => by
  rcases mem_append.1 hb with hb | hb
  · exact mem_append_left _ hb
  · exact mem_append_right _ (P.pc.locked_subset hb)

theorem Proc.ready_subset (P : Proc) : P.ready ⊆ P.locked := fun b hb => by
  rcases mem_append.1 hb with hb | hb
  · exact mem_append_left _ hb
  · exact mem_append_right _ (P.pc.ready_subset hb)

/-- A process that has the buffers of another. -/
structure Proc.Alike (Q P : Proc) : Prop where
  refs : Q.refs = P.refs
  locked : Q.locked = P.locked
  ready : Q.ready = P.ready

/-- How many uses of a buffer there are. -/
def uses (N : Nat) (procs : Nat → Proc) (b : Nat) : Nat :=
  ∑ p ∈ Finset.range N, (procs p).refs.count b

/-- Some process has changed the buffer, and neither logged nor written it. -/
def Changed (procs : Nat → Proc) (b : Nat) : Prop := ∃ p, ⟨b, true⟩ ∈ (procs p).held

/-- **The cache agrees with the processes.** -/
structure Users (W : Prop) (cf : Conf) (P : Nat → Prop) (c : Cache) (procs : Nat → Proc) :
    Prop where
  ok : c.Ok W cf.dev (uses cf.nproc procs) P (Changed procs)
  idle : ∀ p, cf.nproc ≤ p → (procs p).refs = []
  nodup : ∀ p, (procs p).locked.Nodup
  lock : ∀ p b, b ∈ (procs p).locked ↔ (c.buf b).lock = some p
  caches : ∀ p, ∀ b ∈ (procs p).refs, b < NBUF ∧ (c.buf b).dev = cf.dev
  valid : ∀ p, ∀ b ∈ (procs p).ready, (c.buf b).valid = true

variable {W : Prop} {cf : Conf} {P P' : Nat → Prop} {c c' : Cache} {procs procs' : Nat → Proc}
  {p q a b n : Nat} {Q : Proc}

/-! ## Counting uses -/

/-- A sum over all processes, where one has changed. -/
theorem sum_update (f : Proc → Nat) (procs : Nat → Proc) (Q : Proc) (hp : p < n) :
    (∑ q ∈ Finset.range n, f (update procs p Q q)) + f (procs p) =
      (∑ q ∈ Finset.range n, f (procs q)) + f Q := by
  have h := Tally.total_change (f := fun q => f (procs q)) (g := fun q => f (update procs p Q q)) hp
    fun q hq => by rw [update_of_ne hq]
  simpa [total] using h

theorem uses_update (procs : Nat → Proc) (Q : Proc) (hp : p < cf.nproc) (b : Nat) :
    uses cf.nproc (update procs p Q) b + (procs p).refs.count b =
      uses cf.nproc procs b + Q.refs.count b := sum_update (fun P => P.refs.count b) procs Q hp

theorem uses_congr (h : ∀ q, (procs' q).refs.Perm (procs q).refs) :
    uses n procs' = uses n procs := by
  funext b
  exact Finset.sum_congr rfl fun q _ => (h q).count_eq b

theorem uses_same (hr : Q.refs.Perm (procs p).refs) : uses n (update procs p Q) = uses n procs := by
  refine uses_congr fun q => ?_
  by_cases hq : q = p
  · subst hq
    rwa [update_self]
  · rw [update_of_ne hq]

theorem uses_pos (hp : p < n) (hb : b ∈ (procs p).refs) : 0 < uses n procs b := by
  have h1 : 0 < (procs p).refs.count b := count_pos_iff.2 hb
  have h2 := Finset.single_le_sum (f := fun p => (procs p).refs.count b) (fun _ _ => Nat.zero_le _)
    (Finset.mem_range.2 hp)
  exact h1.trans_le h2

theorem Users.lt (h : Users W cf P c procs) (hb : b ∈ (procs p).refs) : p < cf.nproc := by
  by_contra hp
  rw [h.idle p (Nat.le_of_not_lt hp)] at hb
  cases hb

theorem changed_uses (hi : ∀ q, n ≤ q → (procs q).refs = []) (hb : Changed procs b) :
    0 < uses n procs b := by
  obtain ⟨q, hq⟩ := hb
  have hr : b ∈ (procs q).refs := mem_append_left _ (mem_map_of_mem hq)
  refine uses_pos (Nat.lt_of_not_le fun hn => ?_) hr
  rw [hi q hn] at hr
  cases hr

section

variable (h : Users W cf P c procs)

include h

/-- What a process refers to is in the cache. -/
theorem Users.refcnt (hb : b ∈ (procs p).refs) : 0 < (c.buf b).refcnt :=
  h.ok.counted.refcnt_pos ⟨(h.caches p b hb).1, (h.caches p b hb).2, rfl⟩ (uses_pos (h.lt hb) hb)

/-- What a process refers to is cached. -/
theorem Users.cached (hb : b ∈ (procs p).refs) :
    c.Caches cf.dev b (c.buf b).blockno := ⟨(h.caches p b hb).1, (h.caches p b hb).2, rfl⟩

/-- A locked buffer has one owner. -/
theorem Users.owner (hp : b ∈ (procs p).locked) (hq : b ∈ (procs q).locked) : p = q := by
  rw [h.lock] at hp hq
  exact Option.some.inj (hp.symm.trans hq)

theorem Users.idle_update (hp : p < cf.nproc) (q : Nat) (hq : cf.nproc ≤ q) :
    (update procs p Q q).refs = [] := by
  rw [update_of_ne (hp.trans_le hq).ne']
  exact h.idle q hq

/-! ## The operations -/

/-- **Nobody uses other buffers.** -/
theorem Users.move (hr : ∀ q, (procs' q).refs.Perm (procs q).refs)
    (hl : ∀ q, (procs' q).locked.Perm (procs q).locked)
    (hv : ∀ q, (procs' q).ready ⊆ (procs q).ready) (hd : ∀ b, Changed procs' b ↔ Changed procs b) :
    Users W cf P c procs' := by
  have hD : Changed procs' = Changed procs := funext fun b => propext (hd b)
  refine ⟨by rw [uses_congr hr, hD]; exact h.ok, fun q hq => ?_, fun q => (hl q).nodup_iff.2
    (h.nodup q), fun q b => (hl q).mem_iff.trans (h.lock q b), fun q b hb => h.caches q b
    ((hr q).mem_iff.1 hb), fun q b hb => h.valid q b (hv q hb)⟩
  have := hr q
  rw [h.idle q hq] at this
  exact this.eq_nil

end

theorem changed_le (hh : ⟨b, true⟩ ∈ Q.held → ⟨b, true⟩ ∈ (procs p).held)
    (hb : Changed (update procs p Q) b) : Changed procs b := by
  obtain ⟨q, hq⟩ := hb
  by_cases hqp : q = p
  · subst hqp
    rw [update_self] at hq
    exact ⟨q, hh hq⟩
  · rw [update_of_ne hqp] at hq
    exact ⟨q, hq⟩

theorem changed_ge (hh : ⟨b, true⟩ ∈ (procs p).held → ⟨b, true⟩ ∈ Q.held) (hb : Changed procs b) :
    Changed (update procs p Q) b := by
  obtain ⟨q, hq⟩ := hb
  refine ⟨q, ?_⟩
  by_cases hqp : q = p
  · subst hqp
    rw [update_self]
    exact hh hq
  · rwa [update_of_ne hqp]

theorem changed_iff (hh : ⟨b, true⟩ ∈ Q.held ↔ ⟨b, true⟩ ∈ (procs p).held) :
    Changed (update procs p Q) b ↔ Changed procs b := ⟨changed_le hh.1, changed_ge hh.2⟩

theorem changed_update (hh : Q.held = (procs p).held) :
    Changed (update procs p Q) = Changed procs :=
  funext fun _ => propext (changed_iff (by rw [hh]))

/-- A property of all processes, where one has changed. -/
theorem forall_update {F : Nat → Proc → Prop} (h : ∀ q, F q (procs q)) (hp : F p Q) (q : Nat) :
    F q (update procs p Q q) := by
  by_cases hq : q = p
  · subst hq
    rwa [update_self]
  · rw [update_of_ne hq]
    exact h q

/-- A process that uses one more buffer. -/
theorem uses_cons (hp : p < cf.nproc) (hr : Q.refs.Perm (b :: (procs p).refs)) :
    uses cf.nproc (update procs p Q) b = uses cf.nproc procs b + 1 ∧
      ∀ a, a ≠ b → uses cf.nproc (update procs p Q) a = uses cf.nproc procs a := by
  refine ⟨?_, fun a ha => ?_⟩
  · have := uses_update procs Q hp b
    rw [hr.count_eq, count_cons_self] at this
    omega
  · have := uses_update procs Q hp a
    rw [hr.count_eq, count_cons_of_ne ha.symm] at this
    omega

/-- **A turn of one process**: it is `Q` then, and the others find the buffers they use as they
were. -/
structure Turn (W : Prop) (cf : Conf) (P : Nat → Prop) (c c' : Cache) (procs : Nat → Proc) (p : Nat)
    (Q : Proc) : Prop where
  users : Users W cf P c' (update procs p Q)
  names : ∀ q, ∀ a ∈ (procs q).refs, (c'.buf a).blockno = (c.buf a).blockno
  data : ∀ q, ∀ a ∈ (procs q).locked, q ≠ p →
    (c'.buf a).data = (c.buf a).data ∧ c'.disk (c.buf a).blockno = c.disk (c.buf a).blockno

section

variable (h : Users W cf P c procs)

include h

/-- A process gets a buffer. -/
theorem Users.bget (hp : p < cf.nproc) (e : c.bget cf.dev n = some (b, c'))
    (hr : Q.refs.Perm (b :: (procs p).refs)) (hl : Q.locked.Perm (procs p).locked)
    (hv : Q.ready ⊆ (procs p).ready) (hh : Q.held = (procs p).held) :
    Turn W cf P c c' procs p Q ∧ Cache.Got cf.dev n b c c' := by
  obtain ⟨hRb, hRa⟩ := uses_cons hp hr
  obtain ⟨hok, G⟩ := h.ok.bget e hRb hRa
  have hcaches : ∀ {a}, a < NBUF ∧ (c.buf a).dev = cf.dev → a < NBUF ∧ (c'.buf a).dev = cf.dev := by
    rintro a ⟨h1, h2⟩
    by_cases hab : a = b
    · exact ⟨h1, hab ▸ G.caches.2.1⟩
    · exact ⟨h1, G.others a hab ▸ h2⟩
  have hlock : ∀ a, (c'.buf a).lock = (c.buf a).lock := by
    intro a
    by_cases hab : a = b
    · rw [hab, G.lock]
    · rw [G.others a hab]
  have hvalid : ∀ {q a}, a ∈ (procs q).ready → (c'.buf a).valid = true := by
    intro q a ha
    by_cases hab : a = b
    · subst hab
      have hpos := h.refcnt ((procs q).locked_subset ((procs q).ready_subset ha))
      rw [(G.kept hpos).2.1, h.valid q a ha]
    · rw [G.others a hab, h.valid q a ha]
  refine ⟨⟨⟨by rw [changed_update hh]; exact hok, fun q => ?_, ?_, fun q a => ?_, ?_, ?_⟩,
    fun q a ha => ?_, fun q a ha _ => ?_⟩, G⟩
  · intro hq
    rw [update_of_ne (hp.trans_le hq).ne']
    exact h.idle q hq
  · exact forall_update (F := fun _ Q => Q.locked.Nodup) h.nodup (hl.nodup_iff.2 (h.nodup p))
  · rw [hlock]
    revert q
    exact forall_update (F := fun q Q => a ∈ Q.locked ↔ (c.buf a).lock = some q)
      (fun q => h.lock q a) (hl.mem_iff.trans (h.lock p a))
  · refine forall_update (F := fun _ Q => ∀ a ∈ Q.refs, a < NBUF ∧ (c'.buf a).dev = cf.dev)
      (fun q a ha => hcaches (h.caches q a ha)) ?_
    intro a ha
    rcases mem_cons.1 (hr.mem_iff.1 ha) with rfl | ha
    exacts [⟨G.caches.1, G.caches.2.1⟩, hcaches (h.caches p a ha)]
  · exact forall_update (F := fun _ Q => ∀ a ∈ Q.ready, (c'.buf a).valid = true) (fun q a => hvalid)
      fun a ha => hvalid (hv ha)
  · by_cases hab : a = b
    · subst hab
      rw [G.caches.2.2, (G.kept (h.refcnt ha)).1.2.2]
    · rw [G.others a hab]
  · rw [G.disk]
    by_cases hab : a = b
    · subst hab
      exact ⟨(G.kept (h.refcnt ((procs q).locked_subset ha))).2.2, rfl⟩
    · rw [G.others a hab]
      exact ⟨rfl, rfl⟩

/-- A process goes on, and leaves the cache alone. -/
theorem Users.stay (hr : Q.refs.Perm (procs p).refs)
    (hl : Q.locked.Perm (procs p).locked) (hv : Q.ready ⊆ (procs p).ready)
    (hd : ∀ a, Changed (update procs p Q) a ↔ Changed procs a) : Turn W cf P c c procs p Q :=
  ⟨h.move (forall_update (F := fun q Q => Q.refs.Perm (procs q).refs) (fun _ => .refl _) hr)
    (forall_update (F := fun q Q => Q.locked.Perm (procs q).locked) (fun _ => .refl _) hl)
    (forall_update (F := fun q Q => Q.ready ⊆ (procs q).ready) (fun _ => List.Subset.refl _) hv) hd,
    fun _ _ _ => rfl, fun _ _ _ _ => ⟨rfl, rfl⟩⟩

section

variable (hp : p < cf.nproc)

include hp

/-- What the process and the cache must be after a turn that gets no buffer. -/
theorem Users.put
    (hok : c'.Ok W cf.dev (uses cf.nproc (update procs p Q)) P' (Changed (update procs p Q)))
    (hn : c.SameNames c') (hval : ∀ a, (c.buf a).valid = true → (c'.buf a).valid = true)
    (hother : ∀ q, q ≠ p → ∀ a, (c'.buf a).lock = some q ↔ (c.buf a).lock = some q)
    (hnd : Q.locked.Nodup) (hl : ∀ a, a ∈ Q.locked ↔ (c'.buf a).lock = some p)
    (hr : Q.refs ⊆ (procs p).refs)
    (hv : ∀ a ∈ Q.ready, a ∈ (procs p).ready ∨ (c'.buf a).valid = true) :
    Users W cf P' c' (update procs p Q) := by
  refine ⟨hok, fun q hq => ?_, ?_, fun q a => ?_, ?_, ?_⟩
  · rw [update_of_ne (hp.trans_le hq).ne']
    exact h.idle q hq
  · exact forall_update (F := fun _ Q => Q.locked.Nodup) h.nodup hnd
  · by_cases hq : q = p
    · subst hq
      rw [update_self]
      exact hl a
    · rw [update_of_ne hq, hother q hq]
      exact h.lock q a
  · refine forall_update (F := fun _ Q => ∀ a ∈ Q.refs, a < NBUF ∧ (c'.buf a).dev = cf.dev)
      (fun q a ha => ?_) fun a ha => ?_
    · rw [(hn a).1]; exact h.caches q a ha
    · rw [(hn a).1]; exact h.caches p a (hr ha)
  · refine forall_update (F := fun _ Q => ∀ a ∈ Q.ready, (c'.buf a).valid = true)
      (fun q a ha => hval a (h.valid q a ha)) fun a ha => ?_
    rcases hv a ha with ha | ha
    exacts [hval a (h.valid p a ha), ha]

/-- …and where it uses and locks what it did. -/
theorem Users.same (hok : c'.Ok W cf.dev (uses cf.nproc procs) P' (Changed (update procs p Q)))
    (hn : c.SameNames c') (hval : ∀ a, (c.buf a).valid = true → (c'.buf a).valid = true)
    (hlock : ∀ a, (c'.buf a).lock = (c.buf a).lock) (hr : Q.refs.Perm (procs p).refs)
    (hl : Q.locked.Perm (procs p).locked)
    (hv : ∀ a ∈ Q.ready, a ∈ (procs p).ready ∨ (c'.buf a).valid = true) :
    Users W cf P' c' (update procs p Q) := by
  have hu := uses_same (n := cf.nproc) hr
  refine h.put hp (by rw [hu]; exact hok) hn hval (fun q _ a => by rw [hlock])
    (hl.nodup_iff.2 (h.nodup p)) (fun a => ?_) hr.subset hv
  rw [hlock]
  exact hl.mem_iff.trans (h.lock p a)

/-- A turn that changes locks. -/
theorem Users.setLock {x : Option Nat} (hr : Q.refs.Perm (procs p).refs) (hnd : Q.locked.Nodup)
    (hl : ∀ a, a ∈ Q.locked ↔ ((c.upd b fun B => { B with lock := x }).buf a).lock = some p)
    (hx : ∀ q, q ≠ p → x ≠ some q ∧ (c.buf b).lock ≠ some q)
    (hv : Q.ready ⊆ (procs p).ready) (hd : ∀ a, Changed (update procs p Q) a → Changed procs a)
    (hW : W → ∀ a, Changed procs a → Changed (update procs p Q) a) :
    Turn W cf P c (c.upd b fun B => { B with lock := x }) procs p Q := by
  have hu := uses_same (n := cf.nproc) hr
  have hn : c.SameNames (c.upd b fun B => { B with lock := x }) := .upd fun _ => ⟨rfl, rfl⟩
  refine ⟨h.put hp ?_ hn (fun a ha => ?_) (fun q hq a => ?_) hnd hl hr.subset fun a ha => .inl
    (hv ha), fun _ a _ => (hn a).2, fun _ a _ _ => ⟨Cache.upd_keeps Buf.data rfl a, rfl⟩⟩
  · rw [hu]
    exact (h.ok.setLock x).forget hd hW
  · rw [Cache.upd_keeps Buf.valid rfl a]
    exact ha
  · by_cases hab : a = b
    · subst hab
      rw [Cache.upd_self]
      exact iff_of_false (hx q hq).1 (hx q hq).2
    · rw [Cache.upd_ne hab]

/-- A process locks a buffer. -/
theorem Users.acquiresleep (e : c.acquiresleep b p = some c')
    (hr : Q.refs.Perm (procs p).refs) (hl : Q.locked.Perm (b :: (procs p).locked))
    (hv : Q.ready ⊆ (procs p).ready) (hh : Q.held = (procs p).held) :
    Turn W cf P c c' procs p Q := by
  rw [Cache.acquiresleep] at e
  split at e <;> cases e
  next hb =>
  have hbl : b ∉ (procs p).locked := by
    rw [h.lock, hb]
    nofun
  refine h.setLock hp hr (hl.nodup_iff.2 (nodup_cons.2 ⟨hbl, h.nodup p⟩)) (fun a => ?_)
    (fun q hq => ⟨fun e => hq (Option.some.inj e).symm, by rw [hb]; nofun⟩) hv
    (fun a => changed_le (hh ▸ id)) fun _ a => changed_ge (hh ▸ id)
  rw [hl.mem_iff, mem_cons, h.lock]
  by_cases hab : a = b
  · subst hab
    rw [Cache.upd_self]
    exact iff_of_true (.inl rfl) rfl
  · rw [Cache.upd_ne hab, or_iff_right hab]

/-- It unlocks a buffer. -/
theorem Users.releasesleep (hr : Q.refs.Perm (procs p).refs)
    (hl : (procs p).locked.Perm (b :: Q.locked)) (hv : Q.ready ⊆ (procs p).ready)
    (hd : ∀ a, ⟨a, true⟩ ∈ Q.held → ⟨a, true⟩ ∈ (procs p).held)
    (hW : W → ∀ a, ⟨a, true⟩ ∈ (procs p).held → ⟨a, true⟩ ∈ Q.held) :
    Turn W cf P c (c.releasesleep b) procs p Q := by
  have hnd := nodup_cons.1 (hl.nodup_iff.1 (h.nodup p))
  have hb : (c.buf b).lock = some p := (h.lock p b).1 (hl.mem_iff.2 (mem_cons_self ..))
  refine h.setLock hp hr hnd.2 (fun a => ?_) (fun q hq => ⟨nofun, fun e => ?_⟩) hv
    (fun a => changed_le (hd a)) fun hw a => changed_ge (hW hw a)
  · by_cases hab : a = b
    · subst hab
      rw [Cache.upd_self]
      exact iff_of_false hnd.1 nofun
    · rw [Cache.upd_ne hab, ← h.lock, hl.mem_iff, mem_cons, or_iff_right hab]
  · rw [hb] at e
    exact hq (Option.some.inj e).symm

end

/-- It reads the block of a buffer it has locked. -/
theorem Users.fill (hb : b ∈ (procs p).locked) (hr : Q.refs.Perm (procs p).refs)
    (hl : Q.locked.Perm (procs p).locked) (hv : ∀ a ∈ Q.ready, a ∈ (procs p).ready ∨ a = b)
    (hh : Q.held = (procs p).held) : Turn W cf P c (c.fill b) procs p Q := by
  have hbr := (procs p).locked_subset hb
  obtain ⟨hok, hvb⟩ := h.ok.fill ⟨(h.caches p b hbr).1, (h.caches p b hbr).2, rfl⟩
  have hne : ∀ a, a ≠ b → (c.fill b).buf a = c.buf a := by
    intro a ha
    rw [Cache.fill]
    split
    · rfl
    · exact Cache.upd_ne ha
  have hself : (c.fill b).buf b =
      { c.buf b with data := ((c.fill b).buf b).data, valid := true } := by
    rw [Cache.fill]
    split
    next hv => rw [← hv]
    next => rw [Cache.upd_self]
  have hdisk : (c.fill b).disk = c.disk := by
    rw [Cache.fill]
    split <;> rfl
  have hn : c.SameNames (c.fill b) := by
    intro a
    by_cases hab : a = b
    · rw [hab, hself]
      exact ⟨rfl, rfl⟩
    · rw [hne a hab]
      exact ⟨rfl, rfl⟩
  refine ⟨h.same (h.lt hbr) (by rw [changed_update hh]; exact hok) hn (fun a ha => ?_) (fun a => ?_)
    hr hl fun a ha => (hv a ha).imp_right fun e => by rw [e, hvb], fun _ a _ => (hn a).2,
    fun q a ha hq => ?_⟩
  · by_cases hab : a = b
    · rw [hab, hvb]
    · rw [hne a hab, ha]
  · by_cases hab : a = b
    · rw [hab, hself]
    · rw [hne a hab]
  · rw [hne a fun e => hq (h.owner ha (e ▸ hb)), hdisk]
    exact ⟨rfl, rfl⟩

/-- It is done with a buffer. -/
theorem Users.brelse (hr : (procs p).refs.Perm (b :: Q.refs))
    (hl : Q.locked.Perm (procs p).locked) (hv : Q.ready ⊆ (procs p).ready)
    (hh : Q.held = (procs p).held) : Turn W cf P c (c.brelse b) procs p Q := by
  have hbr : b ∈ (procs p).refs := hr.mem_iff.2 (mem_cons_self ..)
  have hp := h.lt hbr
  have hR : ∀ a, uses cf.nproc procs a = uses cf.nproc (update procs p Q) a + [b].count a := by
    intro a
    have := uses_update procs Q hp a
    rw [hr.count_eq, ← singleton_append, count_append] at this
    omega
  have hRb := hR b
  rw [count_singleton_self] at hRb
  have hRa : ∀ a, a ≠ b → uses cf.nproc (update procs p Q) a = uses cf.nproc procs a := by
    intro a ha
    rw [hR a, count_singleton, if_neg (by simpa using ha.symm), Nat.add_zero]
  have hn : c.SameNames (c.brelse b) := c.setRefcnt_names b ((c.buf b).refcnt - 1)
  have hbuf := c.brelse_buf b
  have hD : ∀ a, Changed procs a → 0 < uses cf.nproc (update procs p Q) a := by
    intro a ha
    rw [← changed_update hh] at ha
    exact changed_uses (h.idle_update hp) ha
  refine ⟨h.put hp ?_ hn (fun a ha => ?_) (fun q _ a => ?_) (hl.nodup_iff.2 (h.nodup p))
    (fun a => ?_) (fun a ha => hr.mem_iff.2 (mem_cons_of_mem _ ha)) fun a ha => .inl (hv ha),
    fun _ a _ => (hn a).2,
    fun _ a _ _ => ⟨by rw [hbuf, Cache.setRefcnt, Cache.upd_keeps Buf.data rfl a], rfl⟩⟩
  · rw [changed_update hh]
    exact h.ok.brelse ⟨(h.caches p b hbr).1, (h.caches p b hbr).2, rfl⟩ hRb hRa hD
  · rw [hbuf, Cache.setRefcnt, Cache.upd_keeps Buf.valid rfl a, ha]
  · rw [hbuf, Cache.setRefcnt, Cache.upd_keeps Buf.lock rfl a]
  · rw [hbuf, Cache.setRefcnt, Cache.upd_keeps Buf.lock rfl a, ← h.lock, hl.mem_iff]

section

variable (hb : b ∈ (procs p).ready)

include hb

/-- A turn that changes what is in a buffer and on the disk. -/
theorem Users.write (hr : Q.refs.Perm (procs p).refs)
    (hl : Q.locked.Perm (procs p).locked) (hv : Q.ready ⊆ (procs p).ready)
    (hok : c'.Ok W cf.dev (uses cf.nproc procs) P (Changed (update procs p Q)))
    (hne : ∀ a, a ≠ b → c'.buf a = c.buf a)
    (hself : c'.buf b = { c.buf b with data := (c'.buf b).data })
    (hdisk : ∀ m, m ≠ (c.buf b).blockno → c'.disk m = c.disk m) : Turn W cf P c c' procs p Q := by
  have hbl := (procs p).ready_subset hb
  have hbr := (procs p).locked_subset hbl
  have hkeep : ∀ {γ : Type} (g : Buf → γ), (∀ B d, g { B with data := d } = g B) →
      ∀ a, g (c'.buf a) = g (c.buf a) := by
    intro γ g hg a
    by_cases hab : a = b
    · rw [hab, hself, hg]
    · rw [hne a hab]
  have hn : c.SameNames c' :=
    fun a => ⟨hkeep Buf.dev (fun _ _ => rfl) a, hkeep Buf.blockno (fun _ _ => rfl) a⟩
  refine ⟨h.same (h.lt hbr) hok hn (fun a ha => ?_) (hkeep Buf.lock fun _ _ => rfl) hr hl
    fun a ha => .inl (hv ha), fun _ a _ => (hn a).2, fun q a ha hq => ?_⟩
  · rw [hkeep Buf.valid fun _ _ => rfl, ha]
  · have hab : a ≠ b := fun e => hq (h.owner ha (e ▸ hbl))
    refine ⟨by rw [hne a hab], hdisk _ ?_⟩
    exact h.ok.named.ne (h.cached hbr) (h.cached ((procs q).locked_subset ha)) hab

/-- A process changes a buffer… -/
theorem Users.store {d : Block} (hQ : Q.Alike (procs p)) (hd : Changed (update procs p Q) b)
    (hD : ∀ a, Changed procs a → Changed (update procs p Q) a) :
    Turn W cf P c (c.store b d) procs p Q := by
  have hbr := (procs p).locked_subset ((procs p).ready_subset hb)
  refine h.write hb (.of_eq hQ.refs) (.of_eq hQ.locked) (hQ.ready ▸ List.Subset.refl _) ?_
    (fun a ha => Cache.store_ne ha) (by rw [Cache.store_self]) fun _ _ => rfl
  refine h.ok.store (h.cached hbr) (h.valid p b hb) (fun a ha => ?_) hd hD
  rw [← uses_same (.of_eq hQ.refs)]
  exact changed_uses (h.idle_update (h.lt hbr)) ha

/-- …writes it… -/
theorem Users.bwrite (hQ : Q.Alike (procs p))
    (hD : ∀ a, a ≠ b → Changed procs a → Changed (update procs p Q) a) :
    Turn W cf P c (c.bwrite b) procs p Q := by
  have hbr := (procs p).locked_subset ((procs p).ready_subset hb)
  refine h.write hb (.of_eq hQ.refs) (.of_eq hQ.locked) (hQ.ready ▸ List.Subset.refl _) ?_
    (fun a _ => rfl) rfl fun m hm => update_of_ne hm ..
  refine h.ok.bwrite (h.cached hbr) (h.valid p b hb) (fun a ha => ?_) hD
  rw [← uses_same (.of_eq hQ.refs)]
  exact changed_uses (h.idle_update (h.lt hbr)) ha

/-- …or both. -/
theorem Users.copy {d : Block} (hQ : Q.Alike (procs p))
    (hh : Q.held = (procs p).held) : Turn W cf P c ((c.store b d).bwrite b) procs p Q := by
  have hbr := (procs p).locked_subset ((procs p).ready_subset hb)
  have hpos := uses_pos (h.lt hbr) hbr
  have hstore : (c.store b d).Ok W cf.dev (uses cf.nproc procs) P fun a =>
      Changed procs a ∨ a = b := by
    refine h.ok.store (h.cached hbr) (h.valid p b hb) (fun a ha => ?_) (.inr rfl) fun _ => .inl
    rcases ha with ha | rfl
    exacts [changed_uses h.idle ha, hpos]
  have hcb : (c.store b d).Caches cf.dev b (c.buf b).blockno := by
    rw [Cache.Caches, Cache.store_self]
    exact h.cached hbr
  refine h.write hb (.of_eq hQ.refs) (.of_eq hQ.locked) (hQ.ready ▸ List.Subset.refl _) ?_
    (fun a ha => Cache.store_ne ha) (by rw [Cache.bwrite, Cache.store_self]) fun m hm => ?_
  · rw [changed_update hh]
    refine hstore.bwrite hcb (by rw [Cache.store_self]; exact h.valid p b hb)
      (fun a ha => changed_uses h.idle ha) fun a hab ha => ha.resolve_right hab
  · rw [Cache.bwrite, Cache.store_self]
    exact update_of_ne hm ..

end

/-- Another number of users of a buffer, or pins of its block. -/
theorem Users.setRefcnt {r : Nat} (hp : p < cf.nproc)
    (hok : (c.setRefcnt b r).Ok W cf.dev (uses cf.nproc procs) P' (Changed (update procs p Q)))
    (hQ : Q.Alike (procs p)) :
    Turn W cf P' c (c.setRefcnt b r) procs p Q := by
  have hn := c.setRefcnt_names b r
  refine ⟨h.same hp hok hn (fun a ha => ?_) (Cache.upd_keeps Buf.lock rfl) (.of_eq hQ.refs)
    (.of_eq hQ.locked) fun a ha => .inl (hQ.ready ▸ ha), fun _ a _ => (hn a).2,
    fun _ a _ _ => ⟨Cache.upd_keeps Buf.data rfl a, rfl⟩⟩
  rw [Cache.setRefcnt, Cache.upd_keeps Buf.valid rfl a, ha]

/-- A process logs a buffer, whose block was not in the log. -/
theorem Users.bpin (hb : b ∈ (procs p).ready) (hn : ¬ P (c.buf b).blockno)
    (hP : ∀ m, P' m ↔ P m ∨ m = (c.buf b).blockno)
    (hQ : Q.Alike (procs p))
    (hD : ∀ a, a ≠ b → Changed procs a → Changed (update procs p Q) a) :
    Turn W cf P' c (c.bpin b) procs p Q := by
  have hbr := (procs p).locked_subset ((procs p).ready_subset hb)
  refine h.setRefcnt (h.lt hbr)
    (h.ok.bpin (h.cached hbr) (h.valid p b hb) hn hP hD fun a ha => ?_) hQ
  rw [← uses_same (.of_eq hQ.refs)]
  exact changed_uses (h.idle_update (h.lt hbr)) ha

/-- A block that is logged is on the disk. -/
theorem Users.bunpin (hb : b ∈ (procs p).ready) (hn : P (c.buf b).blockno)
    (hP : ∀ m, P' m ↔ P m ∧ m ≠ (c.buf b).blockno) (hd : (c.buf b).data = c.disk (c.buf b).blockno)
    (hQ : Q.Alike (procs p))
    (hh : Q.held = (procs p).held) : Turn W cf P' c (c.bunpin b) procs p Q := by
  have hbr := (procs p).locked_subset ((procs p).ready_subset hb)
  refine h.setRefcnt (h.lt hbr) ?_ hQ
  rw [changed_update hh]
  exact h.ok.bunpin (h.cached hbr) hn (uses_pos (h.lt hbr) hbr) hP hd

/-- A process logs a buffer, whose block was in the log. -/
theorem Users.absorb (hb : b ∈ (procs p).refs) (hn : P (c.buf b).blockno) (hQ : Q.Alike (procs p))
    (hD : ∀ a, a ≠ b → Changed procs a → Changed (update procs p Q) a) :
    Turn W cf P c c procs p Q := by
  refine ⟨h.same (h.lt hb) ⟨h.ok.listed, h.ok.named, h.ok.counted, h.ok.holds.mono (fun _ => .inl)
    fun _ => ?_, ?_⟩ (fun _ => ⟨rfl, rfl⟩) (fun _ => id) (fun _ => rfl) (.of_eq hQ.refs)
    (.of_eq hQ.locked) fun a ha => .inl (hQ.ready ▸ ha),
    fun _ _ _ => rfl, fun _ _ _ _ => ⟨rfl, rfl⟩⟩
  · intro a m ha _
    refine .inr ⟨id, fun e => ?_⟩
    by_cases hab : a = b
    · exact .inl (ha.2.2 ▸ hab ▸ hn)
    · exact .inr (hD a hab e)
  · intro a ha
    rw [← uses_same (.of_eq hQ.refs)]
    exact changed_uses (h.idle_update (h.lt hb)) ha

end

/-! ## Changed buffers -/

theorem Proc.mark_bufs (P : Proc) (b : Nat) (d : Bool) :
    (P.mark b d).held.map Hold.b = P.held.map Hold.b := by
  rw [Proc.mark, map_map]
  refine map_congr_left fun x _ => ?_
  rw [Function.comp]
  split
  next e => exact e.symm
  next => rfl

theorem Proc.mark_alike (P : Proc) (b : Nat) (d : Bool) (l : List Nat) :
    { P.mark b d with logged := l }.Alike P := by
  constructor <;> simp only [Proc.refs, Proc.locked, Proc.ready, P.mark_bufs] <;> rfl

theorem Proc.mem_mark {P : Proc} {d : Bool} {x : Hold} (hx : x ∈ P.held) (h : x.b ≠ b) :
    x ∈ (P.mark b d).held :=
  mem_map.2 ⟨x, hx, if_neg h⟩

theorem Proc.mark_mem {P : Proc} {d : Bool} (hb : b ∈ P.held.map Hold.b) :
    ⟨b, d⟩ ∈ (P.mark b d).held := by
  obtain ⟨x, hx, rfl⟩ := mem_map.1 hb
  exact mem_map.2 ⟨x, hx, if_pos rfl⟩

/-- Marking a buffer leaves the others changed. -/
theorem changed_mark {d : Bool} (hQ : Q.held = ((procs p).mark b d).held) (hab : a ≠ b)
    (ha : Changed procs a) : Changed (update procs p Q) a :=
    changed_ge (fun h => hQ ▸ Proc.mem_mark h hab) ha

end Xv6.Fs
