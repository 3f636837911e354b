import Xv6.Lib.DList
import Mathlib.Data.List.Perm.Basic
import Mathlib.Data.List.Range
import Mathlib.Tactic.Common

/-!
# Fs/Bio — the buffer cache

The buffers of `bio.c`, linked through `prev` and `next` in the order of their last use, and the
disk behind them.  Each critical section under `bcache.lock` is one operation, and so is each
transfer by `virtio_disk_rw`.  All calls name one device: `virtio_disk_rw` has one disk, and the
kernel one file system, on `ROOTDEV`.
-/

namespace Xv6.Fs

open Function List

/-- Number of buffers. -/
def NBUF : Nat := 30

/-- The contents of a block: `BSIZE` bytes, as 32-bit integers.  None of them overflows here. -/
abbrev Block : Type := Fin 256 → Nat

/-- `struct buf`, but for its links.  `lock` is the process that holds the sleep-lock. -/
structure Buf where
  valid : Bool := false
  dev : Nat := 0
  blockno : Nat := 0
  lock : Option Nat := none
  refcnt : Nat := 0
  data : Block := fun _ => 0

/-- The cache and the disk.  `NBUF` is the head of the list.  Nothing reads the last three: what was
last stored to each block, when each buffer was last released, and how often that has happened. -/
structure Cache where
  buf : Nat → Buf
  links : DList Nat
  disk : Nat → Block
  val : Nat → Block
  stamp : Nat → Nat
  clock : Nat

namespace Cache

variable (c : Cache)

/-- Store to a buffer. -/
def upd (b : Nat) (f : Buf → Buf) : Cache := { c with buf := update c.buf b (f (c.buf b)) }

/-- `binit`. -/
def binit (disk : Nat → Block) : Cache where
  buf _ := {}
  links := (List.range NBUF).foldl (fun L b => L.push NBUF b) ⟨fun _ => NBUF, fun _ => NBUF⟩
  disk := disk
  val := disk
  stamp _ := 0
  clock := 0

/-- The first loop of `bget`: is the block already cached? -/
def cached (dev blockno : Nat) : Option Nat :=
  DList.scan c.links.next NBUF (fun b => (c.buf b).dev = dev ∧ (c.buf b).blockno = blockno)
    (NBUF + 1) (c.links.next NBUF)

/-- The second loop: the least recently used unused buffer. -/
def unused : Option Nat :=
  DList.scan c.links.prev NBUF (fun b => (c.buf b).refcnt = 0) (NBUF + 1) (c.links.prev NBUF)

/-- `bget`, until `acquiresleep`; `none` is `panic("bget: no buffers")`. -/
def bget (dev blockno : Nat) : Option (Nat × Cache) :=
  match c.cached dev blockno with
  | some b => some (b, c.upd b fun B => { B with refcnt := B.refcnt + 1 })
  | none => c.unused.map fun b =>
    (b, c.upd b fun B => { B with dev := dev, blockno := blockno, valid := false, refcnt := 1 })

/-- `acquiresleep(&b->lock)`. -/
def acquiresleep (b p : Nat) : Option Cache :=
  if (c.buf b).lock = none then some (c.upd b fun B => { B with lock := some p }) else none

/-- `releasesleep(&b->lock)`. -/
def releasesleep (b : Nat) : Cache := c.upd b fun B => { B with lock := none }

/-- `bread`, once the buffer is locked: read the block if that has not been done. -/
def fill (b : Nat) : Cache :=
  if (c.buf b).valid then c
  else c.upd b fun B => { B with data := c.disk B.blockno, valid := true }

/-- A change to a locked buffer. -/
def store (b : Nat) (d : Block) : Cache :=
  { c.upd b fun B => { B with data := d } with val := update c.val (c.buf b).blockno d }

/-- `bwrite`. -/
def bwrite (b : Nat) : Cache :=
  { c with disk := update c.disk (c.buf b).blockno (c.buf b).data }

/-- `brelse`, after `releasesleep`. -/
def brelse (b : Nat) : Cache :=
  let c' := c.upd b fun B => { B with refcnt := B.refcnt - 1 }
  { c' with
    links := if (c'.buf b).refcnt = 0 then (c.links.unlink b).push NBUF b else c.links
    stamp := update c.stamp b (c.clock + 1)
    clock := c.clock + 1 }

/-- `bpin`. -/
def bpin (b : Nat) : Cache := c.upd b fun B => { B with refcnt := B.refcnt + 1 }

/-- `bunpin`. -/
def bunpin (b : Nat) : Cache := c.upd b fun B => { B with refcnt := B.refcnt - 1 }

end Cache

/-! ## The invariant -/

namespace Cache

/-- The list has every buffer once, and those without users in the order of their release. -/
structure Listed (c : Cache) : Prop where
  ring : ∃ l, c.links.Ring NBUF l ∧ l.Perm (List.range NBUF) ∧
    l.Pairwise fun a b => (c.buf a).refcnt = 0 → (c.buf b).refcnt = 0 → c.stamp b ≤ c.stamp a
  stamp : ∀ b, c.stamp b ≤ c.clock

/-- The buffer caches the block, of this device. -/
def Caches (dev : Nat) (c : Cache) (b n : Nat) : Prop :=
  b < NBUF ∧ (c.buf b).dev = dev ∧ (c.buf b).blockno = n

/-- A block is in one buffer at most; the others have never been used. -/
structure Named (dev : Nat) (c : Cache) : Prop where
  unique : ∀ a b n, c.Caches dev a n → c.Caches dev b n → a = b
  other : ∀ b < NBUF, (c.buf b).dev ≠ dev →
    (c.buf b).dev = 0 ∧ (c.buf b).valid = false ∧ (c.buf b).refcnt = 0

/-- Each buffer has `R` users, and one more if its block is in `P`. -/
structure Counted (dev : Nat) (R : Nat → Nat) (P : Nat → Prop) (c : Cache) : Prop where
  pinned : ∀ b n, c.Caches dev b n → P n → (c.buf b).refcnt = R b + 1
  users : ∀ b n, c.Caches dev b n → ¬ P n → (c.buf b).refcnt = R b
  other : ∀ b < NBUF, (c.buf b).dev ≠ dev → R b = 0

/-- **What is where**: a buffer that has been read has what was last stored to its block, and where
there is none the disk has it.  Disk and buffer differ only for blocks in `P` and buffers in `D`.
All this is so where users log or write what they have changed, which is what `W` says. -/
structure Holds (W : Prop) (dev : Nat) (P D : Nat → Prop) (c : Cache) : Prop where
  pinned : ∀ n, P n → ∃ b, c.Caches dev b n ∧ (c.buf b).valid = true
  coherent : W → ∀ b n, c.Caches dev b n → (c.buf b).valid = true → (c.buf b).data = c.val n
  disk : W → ∀ n, (∀ b, c.Caches dev b n → (c.buf b).valid = false) → c.disk n = c.val n
  clean : W → ∀ b n, c.Caches dev b n → (c.buf b).valid = true →
    (c.buf b).data = c.disk n ∨ P n ∨ D b

/-- **The cache is in order**, when each buffer has `R` users, the blocks in `P` are pinned, and the
buffers in `D` have been changed by their users and neither logged nor written yet. -/
structure Ok (W : Prop) (dev : Nat) (R : Nat → Nat) (P D : Nat → Prop) (c : Cache) : Prop where
  listed : c.Listed
  named : c.Named dev
  counted : c.Counted dev R P
  holds : c.Holds W dev P D
  dirty : ∀ b, D b → 0 < R b

variable {W : Prop} {c c' : Cache} {dev a b n : Nat} {R R' : Nat → Nat}
  {P P' D D' : Nat → Prop} {f : Buf → Buf}

@[simp] theorem upd_self : (c.upd b f).buf b = f (c.buf b) := update_self ..

@[simp] theorem upd_ne (h : a ≠ b) : (c.upd b f).buf a = c.buf a := update_of_ne h ..

/-- A field that the store keeps. -/
theorem upd_keeps {γ : Type} (g : Buf → γ) (hg : g (f (c.buf b)) = g (c.buf b)) (a : Nat) :
    g ((c.upd b f).buf a) = g (c.buf a) := by
  by_cases e : a = b
  · subst e
    rwa [upd_self]
  · rw [upd_ne e]

/-! ## Searching -/

/-- **The first loop of `bget` finds the buffer of a block.** -/
theorem Listed.cached (h : c.Listed) (e : c.cached dev n = some b) : c.Caches dev b n := by
  obtain ⟨l, hr, hp, -⟩ := h.ring
  have hl : l.length < NBUF + 1 := by rw [hp.length_eq, length_range]; exact Nat.lt_succ_self _
  rw [Cache.cached, hr.linked.scan_next (nodup_cons.1 hr.nodup).1 hl] at e
  have hb := mem_of_find?_eq_some e
  have := find?_some e
  simp only [decide_eq_true_eq] at this
  exact ⟨mem_range.1 (hp.mem_iff.1 hb), this⟩

/-- …if there is one. -/
theorem Listed.uncached (h : c.Listed) (e : c.cached dev n = none) (b : Nat) :
    ¬ c.Caches dev b n := by
  obtain ⟨l, hr, hp, -⟩ := h.ring
  have hl : l.length < NBUF + 1 := by rw [hp.length_eq, length_range]; exact Nat.lt_succ_self _
  rw [Cache.cached, hr.linked.scan_next (nodup_cons.1 hr.nodup).1 hl, find?_eq_none] at e
  rintro ⟨hb, hd⟩
  simpa [hd] using e b (hp.mem_iff.2 (mem_range.2 hb))

/-- **The second loop finds the buffer without users that was released first.** -/
theorem Listed.unused (h : c.Listed) (e : c.unused = some b) : b < NBUF ∧ (c.buf b).refcnt = 0 ∧
    ∀ a < NBUF, (c.buf a).refcnt = 0 → c.stamp b ≤ c.stamp a := by
  obtain ⟨l, hr, hp, hs⟩ := h.ring
  have hl : l.length < NBUF + 1 := by rw [hp.length_eq, length_range]; exact Nat.lt_succ_self _
  rw [Cache.unused, hr.linked.scan_prev (nodup_cons.1 hr.nodup).1 hl] at e
  obtain ⟨hb, l₁, l₂, he, hn⟩ := find?_eq_some_iff_append.1 e
  have hlist : l = l₂.reverse ++ b :: l₁.reverse := by
    rw [← reverse_reverse l, he]
    simp
  have hb0 : (c.buf b).refcnt = 0 := by simpa using hb
  refine ⟨mem_range.1 (hp.mem_iff.1 (by rw [hlist]; simp)), hb0, fun a ha ha0 => ?_⟩
  have hal : a ∈ l := hp.mem_iff.2 (mem_range.2 ha)
  rw [hlist] at hal hs
  rcases mem_append.1 hal with hal | hal
  · exact (pairwise_append.1 hs).2.2 a hal b (by simp) ha0 hb0
  · rcases mem_cons.1 hal with rfl | hal
    · exact le_rfl
    · -- the loop has passed over what was released before
      have := hn a (mem_reverse.1 hal)
      simp [ha0] at this

/-! ## What depends on what -/

theorem Listed.congr (h : c.Listed) (hl : c'.links = c.links) (hs : c'.stamp = c.stamp)
    (hc : c'.clock = c.clock) (hr : ∀ a < NBUF, (c'.buf a).refcnt = 0 → (c.buf a).refcnt = 0) :
    c'.Listed := by
  obtain ⟨l, h1, hp, h2⟩ := h.ring
  refine ⟨⟨l, hl ▸ h1, hp, ?_⟩, fun b => by rw [hs, hc]; exact h.stamp b⟩
  have hlt : ∀ a ∈ l, a < NBUF := fun a ha => mem_range.1 (hp.mem_iff.1 ha)
  rw [hs]
  exact h2.imp_of_mem fun ha hb h ha0 hb0 => h (hr _ (hlt _ ha) ha0) (hr _ (hlt _ hb) hb0)

/-- The buffers cache what they did. -/
def SameNames (c c' : Cache) : Prop :=
  ∀ a, (c'.buf a).dev = (c.buf a).dev ∧ (c'.buf a).blockno = (c.buf a).blockno

theorem SameNames.caches (h : c.SameNames c') : c'.Caches dev b n ↔ c.Caches dev b n := by
  rw [Caches, Caches, (h b).1, (h b).2]

theorem SameNames.upd (hf : ∀ B, (f B).dev = B.dev ∧ (f B).blockno = B.blockno) :
    c.SameNames (c.upd b f) := by
  exact fun a => ⟨upd_keeps Buf.dev (hf _).1 a, upd_keeps Buf.blockno (hf _).2 a⟩

theorem Named.congr (h : c.Named dev) (hn : c.SameNames c')
    (hv : ∀ a < NBUF, (c.buf a).dev ≠ dev → (c'.buf a).valid = (c.buf a).valid ∧
      (c'.buf a).refcnt = (c.buf a).refcnt) : c'.Named dev := by
  refine ⟨fun a b n ha hb => h.unique a b n (hn.caches.1 ha) (hn.caches.1 hb), fun b hb hd => ?_⟩
  rw [(hn b).1] at hd ⊢
  rw [(hv b hb hd).1, (hv b hb hd).2]
  exact h.other b hb hd

theorem Counted.congr (h : c.Counted dev R P) (hn : c.SameNames c')
    (hr : ∀ a < NBUF, (c'.buf a).refcnt = (c.buf a).refcnt) : c'.Counted dev R P := by
  refine ⟨fun b n hb hp => ?_, fun b n hb hp => ?_, fun b hb hd => ?_⟩
  · rw [hr b hb.1]
    exact h.pinned b n (hn.caches.1 hb) hp
  · rw [hr b hb.1]
    exact h.users b n (hn.caches.1 hb) hp
  · exact h.other b hb ((hn b).1 ▸ hd)

theorem Holds.congr (h : c.Holds W dev P D) (hn : c.SameNames c')
    (hv : ∀ a < NBUF, (c'.buf a).valid = (c.buf a).valid ∧ (c'.buf a).data = (c.buf a).data)
    (hd : c'.disk = c.disk) (hx : c'.val = c.val) : c'.Holds W dev P D := by
  refine ⟨fun n hp => ?_, fun hW b n hb e => ?_, fun hW n hb => ?_, fun hW b n hb e => ?_⟩
  · obtain ⟨b, hb, e⟩ := h.pinned n hp
    exact ⟨b, hn.caches.2 hb, (hv b hb.1).1.trans e⟩
  · rw [(hv b hb.1).2, hx]
    exact h.coherent hW b n (hn.caches.1 hb) ((hv b hb.1).1 ▸ e)
  · rw [hd, hx]
    exact h.disk hW n fun b hb' => (hv b hb'.1).1 ▸ hb b (hn.caches.2 hb')
  · rw [(hv b hb.1).2, hd]
    exact h.clean hW b n (hn.caches.1 hb) ((hv b hb.1).1 ▸ e)

/-- A user, a pin or a change more or less, where contents stay. -/
theorem Holds.mono (h : c.Holds W dev P D)
    (hP : ∀ n, P' n → P n ∨ ∃ b, c.Caches dev b n ∧ (c.buf b).valid = true)
    (hPD : W → ∀ b n, c.Caches dev b n → (c.buf b).valid = true → (c.buf b).data = c.disk n ∨
      (P n → P' n) ∧ (D b → P' n ∨ D' b)) : c.Holds W dev P' D' := by
  refine ⟨fun n hn => ?_, h.coherent, h.disk, fun hW b n hb e => ?_⟩
  · rcases hP n hn with hn | hn
    exacts [h.pinned n hn, hn]
  · rcases hPD hW b n hb e with e' | ⟨h1, h2⟩
    · exact .inl e'
    · rcases h.clean hW b n hb e with e' | e' | e'
      exacts [.inl e', .inr (.inl (h1 e')), .inr (h2 e')]

/-! ## The operations -/

/-- Locks are not the business of the cache. -/
theorem Ok.setLock (h : c.Ok W dev R P D) (x : Option Nat) :
    (c.upd b fun B => { B with lock := x }).Ok W dev R P D := by
  have hn : c.SameNames (c.upd b fun B => { B with lock := x }) := .upd fun _ => ⟨rfl, rfl⟩
  have hr := upd_keeps (c := c) (b := b) (f := fun B => { B with lock := x }) Buf.refcnt rfl
  have hv := upd_keeps (c := c) (b := b) (f := fun B => { B with lock := x }) Buf.valid rfl
  have hd := upd_keeps (c := c) (b := b) (f := fun B => { B with lock := x }) Buf.data rfl
  exact ⟨h.listed.congr rfl rfl rfl fun a _ e => hr a ▸ e,
    h.named.congr hn fun a _ _ => ⟨hv a, hr a⟩, h.counted.congr hn fun a _ => hr a,
    h.holds.congr hn (fun a _ => ⟨hv a, hd a⟩) rfl rfl, h.dirty⟩

/-- Buffers are no longer counted as changed. -/
theorem Ok.forget (h : c.Ok W dev R P D) (hD : ∀ b, D' b → D b) (hW : W → ∀ b, D b → D' b) :
    c.Ok W dev R P D' :=
  ⟨h.listed, h.named, h.counted,
    h.holds.mono (fun _ => .inl) fun hw b _ _ _ => .inr ⟨id, fun e => .inr (hW hw b e)⟩,
    fun b e => h.dirty b (hD b e)⟩

/-- A store that keeps users and names. -/
theorem Ok.upd_data (h : c.Ok W dev R P D) (hb : c.Caches dev b n)
    (hf : ∀ B, (f B).dev = B.dev ∧ (f B).blockno = B.blockno ∧ (f B).refcnt = B.refcnt)
    (hbuf : c'.buf = (c.upd b f).buf) (hl : c'.links = c.links) (hs : c'.stamp = c.stamp)
    (hc : c'.clock = c.clock) (hD : ∀ b, D' b → 0 < R b) (hh : c'.Holds W dev P D') :
    c'.Ok W dev R P D' := by
  have hn : c.SameNames c' := fun a => by
    rw [hbuf]
    exact SameNames.upd (fun B => ⟨(hf B).1, (hf B).2.1⟩) a
  have hr : ∀ a, (c'.buf a).refcnt = (c.buf a).refcnt := by
    rw [hbuf]
    exact upd_keeps Buf.refcnt (hf _).2.2
  refine ⟨h.listed.congr hl hs hc fun a _ e => hr a ▸ e, h.named.congr hn fun a _ hd => ⟨?_, hr a⟩,
    h.counted.congr hn fun a _ => hr a, hh, hD⟩
  have hne : a ≠ b := fun e => hd (e ▸ hb.2.1)
  rw [hbuf, upd_ne hne]

/-- The other buffers cache other blocks. -/
theorem Named.ne (h : c.Named dev) {m : Nat} (hb : c.Caches dev b n) (ha : c.Caches dev a m)
    (hne : a ≠ b) : m ≠ n := fun e => hne (h.unique a b n (e ▸ ha) hb)

/-- **What is where after a change of one buffer**, that has been read then, and of its block on
disk and as it was last stored. -/
theorem Holds.upd (h : c.Holds W dev P D) (hnm : c.Named dev) (hb : c.Caches dev b n)
    (hn : c.SameNames c') (hne : ∀ a, a ≠ b → c'.buf a = c.buf a)
    (hdisk : ∀ m, m ≠ n → c'.disk m = c.disk m) (hval : ∀ m, m ≠ n → c'.val m = c.val m)
    (hv : (c'.buf b).valid = true) (hx : W → (c'.buf b).data = c'.val n)
    (hcl : (c'.buf b).data = c'.disk n ∨ P n ∨ D' b) (hD : ∀ a, a ≠ b → D a → D' a) :
    c'.Holds W dev P D' := by
  refine ⟨fun m hp => ?_, fun hW a m ha e => ?_, fun hW m hm => ?_, fun hW a m ha e => ?_⟩
  · obtain ⟨a, ha, e⟩ := h.pinned m hp
    refine ⟨a, hn.caches.2 ha, ?_⟩
    by_cases hab : a = b
    · rw [hab, hv]
    · rw [hne a hab, e]
  · rw [hn.caches] at ha
    by_cases hab : a = b
    · subst hab
      rw [hx hW, ← ha.2.2, hb.2.2]
    · rw [hne a hab] at e ⊢
      rw [hval m (hnm.ne hb ha hab), h.coherent hW a m ha e]
  · by_cases hmn : m = n
    · subst hmn
      have := hm b (hn.caches.2 hb)
      rw [hv] at this
      cases this
    · rw [hdisk m hmn, hval m hmn]
      refine h.disk hW m fun a ha => ?_
      have hab : a ≠ b := fun e => hmn (by rw [← ha.2.2, e, hb.2.2])
      rw [← hne a hab]
      exact hm a (hn.caches.2 ha)
  · rw [hn.caches] at ha
    by_cases hab : a = b
    · subst hab
      rwa [← ha.2.2, hb.2.2]
    · rw [hne a hab] at e ⊢
      rw [hdisk m (hnm.ne hb ha hab)]
      exact (h.clean hW a m ha e).imp_right fun e => e.imp_right (hD a hab)

/-- Reading the block of a buffer. -/
theorem Ok.fill (h : c.Ok W dev R P D) (hb : c.Caches dev b n) :
    (c.fill b).Ok W dev R P D ∧ ((c.fill b).buf b).valid = true := by
  rw [Cache.fill]
  split
  next hv => exact ⟨h, hv⟩
  next hv =>
    have hn : ∀ B : Buf, B.dev = B.dev ∧ B.blockno = B.blockno := fun _ => ⟨rfl, rfl⟩
    refine ⟨h.upd_data (f := fun B => { B with data := c.disk B.blockno, valid := true }) hb
      (fun B => ⟨rfl, rfl, rfl⟩) rfl rfl rfl rfl h.dirty ?_, by rw [upd_self]⟩
    refine h.holds.upd h.named hb (.upd hn) (fun a ha => upd_ne ha) (fun _ _ => rfl)
      (fun _ _ => rfl) (by rw [upd_self]) (fun hW => ?_) (.inl ?_) fun _ _ e => e
    · rw [upd_self]
      dsimp only
      rw [hb.2.2]
      refine h.holds.disk hW n fun a ha => ?_
      rw [h.named.unique a b n ha hb]
      simpa using hv
    · rw [upd_self]
      dsimp only
      rw [hb.2.2]
      rfl

@[simp] theorem store_self {d : Block} : (c.store b d).buf b = { c.buf b with data := d } :=
  update_self ..

@[simp] theorem store_ne {d : Block} (h : a ≠ b) : (c.store b d).buf a = c.buf a :=
  update_of_ne h ..

section

variable (h : c.Ok W dev R P D) (hb : c.Caches dev b n) (hv : (c.buf b).valid = true)
  (hD : ∀ a, D' a → 0 < R a)

include h hb hv hD

/-- A change to a buffer. -/
theorem Ok.store {d : Block} (hDb : D' b) (hDa : ∀ a, D a → D' a) :
    (c.store b d).Ok W dev R P D' := by
  refine h.upd_data (f := fun B => { B with data := d }) hb (fun B => ⟨rfl, rfl, rfl⟩) rfl rfl rfl
    rfl hD ?_
  have hn : c.SameNames (c.store b d) :=
    SameNames.upd (f := fun B => { B with data := d }) fun _ => ⟨rfl, rfl⟩
  refine h.holds.upd h.named hb hn (fun a ha => store_ne ha) (fun _ _ => rfl)
    (fun m hm => ?_) ?_ (fun _ => ?_) (.inr (.inr hDb)) fun a _ => hDa a
  · exact update_of_ne (hb.2.2 ▸ hm) ..
  · rw [store_self, hv]
  · simp [Cache.store, hb.2.2]

/-- Writing a buffer to the disk. -/
theorem Ok.bwrite (hDa : ∀ a, a ≠ b → D a → D' a) : (c.bwrite b).Ok W dev R P D' := by
  have hn : c.SameNames (c.bwrite b) := fun _ => ⟨rfl, rfl⟩
  refine ⟨h.listed.congr rfl rfl rfl fun _ _ e => e, h.named.congr hn fun _ _ _ => ⟨rfl, rfl⟩,
    h.counted.congr hn fun _ _ => rfl, ?_, hD⟩
  refine h.holds.upd h.named hb hn (fun _ _ => rfl) (fun m hm => ?_) (fun _ _ => rfl) hv
    (fun hW => h.holds.coherent hW b n hb hv) (.inl ?_) hDa
  · exact update_of_ne (hb.2.2 ▸ hm) ..
  · simp [Cache.bwrite, hb.2.2]

end

/-- Another number of users. -/
def setRefcnt (c : Cache) (b r : Nat) : Cache := c.upd b fun B => { B with refcnt := r }

theorem setRefcnt_names (c : Cache) (b r : Nat) : c.SameNames (c.setRefcnt b r) :=
  .upd fun _ => ⟨rfl, rfl⟩

theorem setRefcnt_refcnt (c : Cache) (b r : Nat) : ((c.setRefcnt b r).buf b).refcnt = r :=
  congrArg Buf.refcnt upd_self

theorem setRefcnt_ne {r : Nat} (h : a ≠ b) : (c.setRefcnt b r).buf a = c.buf a := upd_ne h

/-- Counts, where one buffer has other users or pins. -/
theorem Counted.set {r : Nat} (h : c.Counted dev R P) (hnm : c.Named dev) (hb : c.Caches dev b n)
    (hR : ∀ a, a ≠ b → R' a = R a) (hP : ∀ m, m ≠ n → (P' m ↔ P m)) (h1 : P' n → r = R' b + 1)
    (h2 : ¬ P' n → r = R' b) : (c.setRefcnt b r).Counted dev R' P' := by
  have hn := c.setRefcnt_names b r
  refine ⟨fun a m ha hp => ?_, fun a m ha hp => ?_, fun a ha hd => ?_⟩
  · rw [hn.caches] at ha
    by_cases hab : a = b
    · subst hab
      rw [setRefcnt_refcnt]
      exact h1 (by rwa [← hb.2.2, ha.2.2])
    · rw [setRefcnt_ne hab, hR a hab]
      exact h.pinned a m ha ((hP m (hnm.ne hb ha hab)).1 hp)
  · rw [hn.caches] at ha
    by_cases hab : a = b
    · subst hab
      rw [setRefcnt_refcnt]
      exact h2 (by rwa [← hb.2.2, ha.2.2])
    · rw [setRefcnt_ne hab, hR a hab]
      exact h.users a m ha fun e => hp ((hP m (hnm.ne hb ha hab)).2 e)
  · rw [(hn a).1] at hd
    have hab : a ≠ b := fun e => hd (e ▸ hb.2.1)
    rw [hR a hab]
    exact h.other a ha hd

theorem Named.setRefcnt {r : Nat} (h : c.Named dev) (hb : c.Caches dev b n) :
    (c.setRefcnt b r).Named dev := by
  refine h.congr (c.setRefcnt_names b r) fun a _ hd => ?_
  have hab : a ≠ b := fun e => hd (e ▸ hb.2.1)
  rw [setRefcnt_ne hab]
  exact ⟨rfl, rfl⟩

theorem Holds.setRefcnt {r : Nat} (h : c.Holds W dev P D) : (c.setRefcnt b r).Holds W dev P D :=
  h.congr (c.setRefcnt_names b r)
    (fun a _ => ⟨upd_keeps Buf.valid rfl a, upd_keeps Buf.data rfl a⟩) rfl rfl

theorem Listed.setRefcnt {r : Nat} (h : c.Listed) (hr : r ≠ 0) : (c.setRefcnt b r).Listed := by
  refine h.congr rfl rfl rfl fun a _ e => ?_
  by_cases hab : a = b
  · rw [hab, setRefcnt_refcnt] at e
    exact absurd e hr
  · rwa [setRefcnt_ne hab] at e

/-- The users of a buffer. -/
theorem Counted.refcnt_pos (h : c.Counted dev R P) (hb : c.Caches dev b n) (hR : 0 < R b) :
    0 < (c.buf b).refcnt := by
  by_cases hp : P n
  · rw [h.pinned b n hb hp]
    exact Nat.succ_pos _
  · rwa [h.users b n hb hp]

/-- The log takes a hold of a block that has been read. -/
theorem Ok.bpin (h : c.Ok W dev R P D) (hb : c.Caches dev b n) (hv : (c.buf b).valid = true)
    (hp : ¬ P n) (hP : ∀ m, P' m ↔ P m ∨ m = n) (hDa : ∀ a, a ≠ b → D a → D' a)
    (hD : ∀ a, D' a → 0 < R a) : (c.bpin b).Ok W dev R P' D' := by
  have hr : (c.buf b).refcnt + 1 = R b + 1 := by rw [h.counted.users b n hb hp]
  refine ⟨h.listed.setRefcnt (Nat.succ_ne_zero _), h.named.setRefcnt hb,
    h.counted.set h.named hb (fun _ _ => rfl) (fun m hm => ?_) (fun _ => hr) fun e => ?_,
    h.holds.mono (fun m hm => ?_) (fun _ a m ha e => ?_) |>.setRefcnt, hD⟩
  · rw [hP, or_iff_left hm]
  · exact absurd ((hP n).2 (.inr rfl)) e
  · rcases (hP m).1 hm with hm | rfl
    exacts [.inl hm, .inr ⟨b, hb, hv⟩]
  · refine .inr ⟨fun e => (hP m).2 (.inl e), fun e => ?_⟩
    by_cases hab : a = b
    · subst hab
      exact .inl ((hP m).2 (.inr (ha.2.2.symm.trans hb.2.2)))
    · exact .inr (hDa a hab e)

/-- …and lets it go, once it is on the disk. -/
theorem Ok.bunpin (h : c.Ok W dev R P D) (hb : c.Caches dev b n) (hp : P n) (hR : 0 < R b)
    (hP : ∀ m, P' m ↔ P m ∧ m ≠ n) (hd : (c.buf b).data = c.disk n) :
    (c.bunpin b).Ok W dev R P' D := by
  have hr : (c.buf b).refcnt - 1 = R b := by rw [h.counted.pinned b n hb hp, Nat.add_sub_cancel]
  refine ⟨h.listed.setRefcnt (by rw [hr]; exact hR.ne'), h.named.setRefcnt hb,
    h.counted.set h.named hb (fun _ _ => rfl) (fun m hm => ?_) (fun e => ?_) fun _ => hr,
    h.holds.mono (fun m hm => .inl ((hP m).1 hm).1) (fun _ a m ha e => ?_) |>.setRefcnt, h.dirty⟩
  · rw [hP, and_iff_left hm]
  · exact absurd rfl ((hP n).1 e).2
  · by_cases hab : a = b
    · subst hab
      rw [hd, ← hb.2.2, ha.2.2]
      exact .inl rfl
    · exact .inr ⟨fun e => (hP m).2 ⟨e, h.named.ne hb ha hab⟩, .inr⟩

theorem brelse_buf (c : Cache) (b : Nat) :
    (c.brelse b).buf = (c.setRefcnt b ((c.buf b).refcnt - 1)).buf := rfl

/-- **The list after a release**: a buffer without users left is put first. -/
theorem Listed.brelse (h : c.Listed) (hb : b < NBUF) : (c.brelse b).Listed := by
  obtain ⟨l, hr, hp, hs⟩ := h.ring
  have hstamp : ∀ a, (c.brelse b).stamp a ≤ (c.brelse b).clock := by
    intro a
    show update c.stamp b (c.clock + 1) a ≤ c.clock + 1
    by_cases hab : a = b
    · rw [hab, update_self]
    · rw [update_of_ne hab]
      exact (h.stamp a).trans (Nat.le_succ _)
  have hother : ∀ a, a ≠ b → (c.brelse b).buf a = c.buf a ∧ (c.brelse b).stamp a = c.stamp a :=
    fun a hab => ⟨by rw [brelse_buf, setRefcnt_ne hab], update_of_ne hab ..⟩
  have hself : ((c.brelse b).buf b).refcnt = (c.buf b).refcnt - 1 := by
    rw [brelse_buf, setRefcnt_refcnt]
  refine ⟨?_, hstamp⟩
  by_cases h0 : (c.buf b).refcnt - 1 = 0
  · obtain ⟨l₁, l₂, rfl⟩ := append_of_mem (hp.mem_iff.2 (mem_range.2 hb))
    have hd := (nodup_cons.1 hr.nodup).2
    have hbl : b ∉ l₁ ++ l₂ := (nodup_cons.1 (perm_middle.nodup_iff.1 hd)).1
    have hlinks : (c.brelse b).links = (c.links.unlink b).push NBUF b := by
      rw [Cache.brelse]
      exact if_pos (by rw [upd_self]; exact h0)
    refine ⟨b :: (l₁ ++ l₂), ?_, perm_middle.symm.trans hp, ?_⟩
    · rw [hlinks]
      refine hr.unlink.push ?_
      rw [mem_cons, not_or]
      exact ⟨hb.ne, hbl⟩
    · rw [pairwise_cons]
      refine ⟨fun a ha _ _ => ?_, ?_⟩
      · rw [show (c.brelse b).stamp b = (c.brelse b).clock from update_self ..]
        exact hstamp a
      · refine (hs.sublist (by simp)).imp_of_mem fun {x y} hx hy hxy => ?_
        have hxb : x ≠ b := fun e => hbl (e ▸ hx)
        have hyb : y ≠ b := fun e => hbl (e ▸ hy)
        rwa [(hother x hxb).1, (hother x hxb).2, (hother y hyb).1, (hother y hyb).2]
  · have hlinks : (c.brelse b).links = c.links := by
      rw [Cache.brelse]
      exact if_neg (by rw [upd_self]; exact h0)
    refine ⟨l, hlinks ▸ hr, hp, hs.imp fun {x y} hxy hx hy => ?_⟩
    have hxb : x ≠ b := fun e => h0 (by rw [← hself]; exact e ▸ hx)
    have hyb : y ≠ b := fun e => h0 (by rw [← hself]; exact e ▸ hy)
    rw [(hother x hxb).1] at hx
    rw [(hother y hyb).1] at hy
    rw [(hother x hxb).2, (hother y hyb).2]
    exact hxy hx hy

/-- A user is done with a buffer. -/
theorem Ok.brelse (h : c.Ok W dev R P D) (hb : c.Caches dev b n) (hR : R b = R' b + 1)
    (hRa : ∀ a, a ≠ b → R' a = R a) (hD : ∀ a, D a → 0 < R' a) : (c.brelse b).Ok W dev R' P D := by
  have hcount := h.counted.set (r := (c.buf b).refcnt - 1) h.named hb hRa (fun m _ => Iff.rfl)
    (fun e => by rw [h.counted.pinned b n hb e, hR, Nat.add_sub_cancel])
    fun e => by rw [h.counted.users b n hb e, hR, Nat.add_sub_cancel]
  have hn : (c.setRefcnt b ((c.buf b).refcnt - 1)).SameNames (c.brelse b) := fun _ => ⟨rfl, rfl⟩
  exact ⟨h.listed.brelse hb.1, (h.named.setRefcnt hb).congr hn fun _ _ _ => ⟨rfl, rfl⟩,
    hcount.congr hn fun _ _ => rfl, h.holds.setRefcnt.congr hn (fun _ _ => ⟨rfl, rfl⟩) rfl rfl, hD⟩

/-- What `bget` does to the buffer it recycles. -/
def recycle (c : Cache) (dev b n : Nat) : Cache :=
  c.upd b fun B => { B with dev := dev, blockno := n, valid := false, refcnt := 1 }

/-- **`bget` finds the buffer of the block, or recycles the one without users that was released
first.** -/
theorem Listed.bget (h : c.Listed) (e : c.bget dev n = some (b, c')) :
    (c.Caches dev b n ∧ c' = c.setRefcnt b ((c.buf b).refcnt + 1)) ∨
      (∀ a, ¬ c.Caches dev a n) ∧ b < NBUF ∧ (c.buf b).refcnt = 0 ∧
        (∀ a < NBUF, (c.buf a).refcnt = 0 → c.stamp b ≤ c.stamp a) ∧ c' = c.recycle dev b n := by
  unfold Cache.bget at e
  split at e
  next b' hb =>
    cases e
    exact .inl ⟨h.cached hb, rfl⟩
  next hn =>
    obtain ⟨b', hb, e⟩ := Option.map_eq_some_iff.1 e
    cases e
    obtain ⟨h1, h2, h3⟩ := h.unused hb
    exact .inr ⟨h.uncached hn, h1, h2, h3, rfl⟩

/-- What `bget` has done. -/
structure Got (dev n b : Nat) (c c' : Cache) : Prop where
  caches : c'.Caches dev b n
  others : ∀ a, a ≠ b → c'.buf a = c.buf a
  lock : (c'.buf b).lock = (c.buf b).lock
  kept : 0 < (c.buf b).refcnt → c.Caches dev b n ∧ (c'.buf b).valid = (c.buf b).valid ∧
    (c'.buf b).data = (c.buf b).data
  disk : c'.disk = c.disk
  val : c'.val = c.val

/-- A buffer without users is not pinned or changed. -/
theorem Ok.unused (h : c.Ok W dev R P D) (hb : b < NBUF) (h0 : (c.buf b).refcnt = 0) :
    R b = 0 ∧ ¬ D b ∧ ∀ m, c.Caches dev b m → ¬ P m := by
  have hP : ∀ m, c.Caches dev b m → ¬ P m := by
    intro m hm hp
    have := h.counted.pinned b m hm hp
    omega
  have hR : R b = 0 := by
    by_cases hd : (c.buf b).dev = dev
    · have := h.counted.users b _ ⟨hb, hd, rfl⟩ (hP _ ⟨hb, hd, rfl⟩)
      omega
    · exact h.counted.other b hb hd
  exact ⟨hR, fun e => absurd (h.dirty b e) (by omega), hP⟩

theorem recycle_self : (c.recycle dev b n).buf b =
    { c.buf b with dev := dev, blockno := n, valid := false, refcnt := 1 } := update_self ..

theorem recycle_ne (h : a ≠ b) : (c.recycle dev b n).buf a = c.buf a := update_of_ne h ..

theorem caches_ne (h : c'.buf a = c.buf a) {m : Nat} : c'.Caches dev a m ↔ c.Caches dev a m := by
  rw [Caches, Caches, h]

/-- A buffer for another block. -/
theorem Ok.recycle (h : c.Ok W dev R P D) (hn : ∀ a, ¬ c.Caches dev a n) (hb : b < NBUF)
    (h0 : (c.buf b).refcnt = 0) (hRb : R' b = 1) (hRa : ∀ a, a ≠ b → R' a = R a) :
    (c.recycle dev b n).Ok W dev R' P D := by
  obtain ⟨hR, hD, hP⟩ := h.unused hb h0
  have hself : ∀ {m}, (c.recycle dev b n).Caches dev b m → m = n := by
    rintro m ⟨-, -, e⟩
    rw [recycle_self] at e
    exact e.symm
  have hne : ∀ {a m}, a ≠ b → ((c.recycle dev b n).Caches dev a m ↔ c.Caches dev a m) :=
    fun hab => caches_ne (recycle_ne hab)
  refine ⟨h.listed.congr rfl rfl rfl fun a _ e => ?_, ⟨fun x y m hx hy => ?_, fun a ha hd => ?_⟩,
    ⟨fun a m ha hp => ?_, fun a m ha hp => ?_, fun a ha hd => ?_⟩,
    ⟨fun m hp => ?_, fun hW a m ha e => ?_, fun hW m hm => ?_, fun hW a m ha e => ?_⟩,
    fun a ha => ?_⟩
  · by_cases hab : a = b
    · rw [hab]; exact h0
    · rwa [recycle_ne hab] at e
  · by_cases hxb : x = b <;> by_cases hyb : y = b
    · rw [hxb, hyb]
    · subst hxb
      exact absurd ((hne hyb).1 hy) (hself hx ▸ hn y)
    · subst hyb
      exact absurd ((hne hxb).1 hx) (hself hy ▸ hn x)
    · exact h.named.unique x y m ((hne hxb).1 hx) ((hne hyb).1 hy)
  · have hab : a ≠ b := fun e => hd (by rw [e, recycle_self])
    rw [recycle_ne hab] at hd ⊢
    exact h.named.other a ha hd
  · by_cases hab : a = b
    · subst hab
      rw [hself ha] at hp
      obtain ⟨x, hx, -⟩ := h.holds.pinned n hp
      exact absurd hx (hn x)
    · rw [recycle_ne hab, hRa a hab]
      exact h.counted.pinned a m ((hne hab).1 ha) hp
  · by_cases hab : a = b
    · subst hab
      rw [recycle_self, hRb]
    · rw [recycle_ne hab, hRa a hab]
      exact h.counted.users a m ((hne hab).1 ha) hp
  · have hab : a ≠ b := fun e => hd (by rw [e, recycle_self])
    rw [recycle_ne hab] at hd
    rw [hRa a hab]
    exact h.counted.other a ha hd
  · obtain ⟨a, ha, e⟩ := h.holds.pinned m hp
    have hab : a ≠ b := fun e => hP m (e ▸ ha) hp
    exact ⟨a, (hne hab).2 ha, by rw [recycle_ne hab, e]⟩
  · by_cases hab : a = b
    · rw [hab, recycle_self] at e
      cases e
    · rw [recycle_ne hab] at e ⊢
      exact h.holds.coherent hW a m ((hne hab).1 ha) e
  · -- the block that was in the buffer is on the disk
    show c.disk m = c.val m
    by_cases hbm : c.Caches dev b m ∧ (c.buf b).valid = true
    · rcases h.holds.clean hW b m hbm.1 hbm.2 with e | e | e
      · rw [← e, h.holds.coherent hW b m hbm.1 hbm.2]
      · exact absurd e (hP m hbm.1)
      · exact absurd e hD
    · refine h.holds.disk hW m fun a ha => ?_
      by_cases hab : a = b
      · subst hab
        simpa using fun e => hbm ⟨ha, e⟩
      · have e := recycle_ne (c := c) (n := n) hab ▸ hm a ((hne hab).2 ha)
        exact e
  · by_cases hab : a = b
    · rw [hab, recycle_self] at e
      cases e
    · rw [recycle_ne hab] at e ⊢
      exact h.holds.clean hW a m ((hne hab).1 ha) e
  · have hab : a ≠ b := fun e => hD (e ▸ ha)
    rw [hRa a hab]
    exact h.dirty a ha

/-- **`bget` gives a buffer of the block to one more user.** -/
theorem Ok.bget (h : c.Ok W dev R P D) (e : c.bget dev n = some (b, c')) (hRb : R' b = R b + 1)
    (hRa : ∀ a, a ≠ b → R' a = R a) : c'.Ok W dev R' P D ∧ Got dev n b c c' := by
  rcases h.listed.bget e with ⟨hb, rfl⟩ | ⟨hn, hb, h0, -, rfl⟩
  · have hn := c.setRefcnt_names b ((c.buf b).refcnt + 1)
    refine ⟨⟨h.listed.setRefcnt (Nat.succ_ne_zero _), h.named.setRefcnt hb,
      h.counted.set h.named hb hRa (fun m _ => Iff.rfl) (fun hp => ?_) (fun hp => ?_),
      h.holds.setRefcnt, fun a ha => ?_⟩, hn.caches.2 hb, fun a hab => setRefcnt_ne hab,
      upd_keeps Buf.lock rfl b, fun _ => ⟨hb, upd_keeps Buf.valid rfl b, upd_keeps Buf.data rfl b⟩,
      rfl, rfl⟩
    · rw [h.counted.pinned b n hb hp, hRb]
    · rw [h.counted.users b n hb hp, hRb]
    · by_cases hab : a = b
      · rw [hab, hRb]; exact Nat.succ_pos _
      · rw [hRa a hab]; exact h.dirty a ha
  · have hR := (h.unused hb h0).1
    refine ⟨h.recycle hn hb h0 (by rw [hRb, hR]) hRa, ⟨hb, ?_, ?_⟩, fun a hab => recycle_ne hab, ?_,
      fun hp => ?_, rfl, rfl⟩
    · rw [recycle_self]
    · rw [recycle_self]
    · rw [recycle_self]
    · rw [h0] at hp
      exact absurd hp (Nat.lt_irrefl 0)

/-- **The cache after `binit`.** -/
theorem Ok.binit {disk : Nat → Block} (hdev : dev ≠ 0) :
    (binit disk).Ok W dev (fun _ => 0) (fun _ => False) fun _ => False := by
  have hno : ∀ a m, ¬ (Cache.binit disk).Caches dev a m := fun a m h => hdev h.2.1.symm
  refine ⟨⟨⟨(List.range NBUF).reverse, ?_, reverse_perm _, ?_⟩, fun _ => le_rfl⟩,
    ⟨fun a b m ha => absurd ha (hno a m), fun _ _ _ => ⟨rfl, rfl, rfl⟩⟩,
    ⟨fun b m hb => absurd hb (hno b m), fun b m hb => absurd hb (hno b m), fun _ _ _ => rfl⟩,
    ⟨nofun, fun _ b m hb => absurd hb (hno b m), fun _ _ _ => rfl, fun _ b m hb => absurd hb
      (hno b m)⟩, nofun⟩
  · have hring : ∀ n ≤ NBUF, ((List.range n).foldl (fun L b => L.push NBUF b)
        (⟨fun _ => NBUF, fun _ => NBUF⟩ : DList Nat)).Ring NBUF (List.range n).reverse := by
      intro n
      induction n with
      | zero => exact fun _ => DList.ring_nil
      | succ n ih =>
        intro hn
        rw [range_succ, foldl_append, reverse_append]
        refine (ih (Nat.le_of_succ_le hn)).push ?_
        simp
        omega
    exact hring NBUF le_rfl
  · exact pairwise_iff_forall_sublist.2 fun _ _ _ => le_rfl

end Cache

end Xv6.Fs
