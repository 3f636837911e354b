import Mathlib.Data.List.Perm.Subperm
import Xv6.Dev.Virtio
import Xv6.Lib.Ring

/-!
# Dev/VirtioInv — the protocol between driver and device

At any time a head descriptor that has been submitted is in exactly one of four places: in the
available ring, at the device, about to be posted, or in the used ring.  `Inv` ties these places to
the processes that wait in `virtio_disk_rw`: each in-flight head belongs to one process, whose
buffer is marked busy for exactly as long.  From that follow the driver's guarantees
(`virtio_protocol`).
-/

namespace Xv6.Virtio

open Act Function List

variable {d d' : Disk} {i i0 i1 i2 k : Nat}

/-! ## The driver's functions -/

theorem allocDescFrom_spec :
    (allocDescFrom k i d = .ok (none, d)) ∨
    ∃ j, i ≤ j ∧ j < i + k ∧ d.free j = true ∧
      allocDescFrom k i d = .ok (some j, { d with free := update d.free j false }) := by
  induction k generalizing i with
  | zero => exact .inl rfl
  | succ k ih =>
    rw [allocDescFrom, bind_ok (gets_apply _ d)]
    by_cases hf : d.free i = true
    · rw [if_pos hf]
      exact .inr ⟨i, Nat.le_refl i, by omega, hf, rfl⟩
    · rw [if_neg hf]
      rcases ih (i := i + 1) with e | ⟨j, h1, h2, h3, e⟩
      · exact .inl e
      · exact .inr ⟨j, by omega, by omega, h3, e⟩

theorem allocDesc_spec :
    (allocDesc d = .ok (none, d)) ∨
    ∃ j < NUM, d.free j = true ∧
      allocDesc d = .ok (some j, { d with free := update d.free j false }) := by
  rcases allocDescFrom_spec (d := d) (k := NUM) (i := 0) with e | ⟨j, -, h2, h3, e⟩
  · exact .inl e
  · exact .inr ⟨j, by omega, h3, e⟩

theorem freeDesc_ok (hi : i < NUM) (hf : d.free i = false) :
    freeDesc i d = .ok ((), { d with
      desc := update d.desc i {}, free := update d.free i true }) := by
  rw [freeDesc, if_neg (by omega), bind_ok (gets_apply _ d), hf]
  rfl

/-- Freeing a descriptor that was free before it was allocated. -/
theorem freeDesc_undo (hi : i < NUM) (hf : d.free i = true) :
    freeDesc i { d with free := update d.free i false } =
      .ok ((), { d with desc := update d.desc i {} }) := by
  rw [freeDesc_ok hi (update_self ..), update_idem, ← hf, update_eq_self]

/-- Three descriptors are marked. -/
def mark3 (f : Nat → Bool) (i0 i1 i2 : Nat) (x : Bool) : Nat → Bool :=
  update (update (update f i0 x) i1 x) i2 x

/-- **`alloc3_desc`** takes three free descriptors, or leaves the free ones as they were. -/
theorem alloc3Desc_spec :
    (∃ desc, alloc3Desc d = .ok (none, { d with desc := desc }) ∧
      ∀ i, d.free i = false → desc i = d.desc i) ∨
    ∃ i0 i1 i2, i0 < NUM ∧ i1 < NUM ∧ i2 < NUM ∧ i0 ≠ i1 ∧ i0 ≠ i2 ∧ i1 ≠ i2 ∧ d.free i0 = true ∧
      d.free i1 = true ∧ d.free i2 = true ∧
      alloc3Desc d = .ok (some (i0, i1, i2), { d with free := mark3 d.free i0 i1 i2 false }) := by
  unfold alloc3Desc
  rcases allocDesc_spec (d := d) with e | ⟨i0, l0, f0, e⟩ <;> rw [bind_ok e]
  · exact .inl ⟨d.desc, rfl, fun _ _ => rfl⟩
  let d1 : Disk := { d with free := update d.free i0 false }
  rcases allocDesc_spec (d := d1) with e | ⟨i1, l1, f1, e⟩ <;> simp only <;> rw [bind_ok e]
  · simp only
    rw [bind_ok (freeDesc_undo l0 f0)]
    refine .inl ⟨_, rfl, fun i hi => update_of_ne ?_ ..⟩
    rintro rfl
    simp [f0] at hi
  have h10 : i1 ≠ i0 := by
    rintro rfl
    simp [d1] at f1
  have f1' : d.free i1 = true := by simpa [d1, h10] using f1
  let d2 : Disk := { d1 with free := update d1.free i1 false }
  rcases allocDesc_spec (d := d2) with e | ⟨i2, l2, f2, e⟩ <;> simp only <;> rw [bind_ok e]
  · -- the two that were taken go back in the order they came
    have e0 : freeDesc i0 d2 = .ok ((), { d with
        desc := update d.desc i0 {}, free := update d.free i1 false }) := by
      rw [freeDesc_ok l0 (by simp [d2, d1, h10.symm])]
      refine congrArg (fun f => Except.ok ((), { d with desc := update d.desc i0 {}, free := f }))
        ?_
      show update (update (update d.free i0 false) i1 false) i0 true = _
      rw [update_comm h10.symm, update_idem]
      exact update_eq_self_iff.2 (by rw [update_of_ne h10.symm, f0])
    simp only
    rw [bind_ok e0, bind_ok (freeDesc_undo (d := { d with desc := update d.desc i0 {} }) l1 f1')]
    refine .inl ⟨_, rfl, fun i hi => ?_⟩
    show update (update d.desc i0 {}) i1 {} i = _
    rw [update_of_ne (by rintro rfl; simp [f1'] at hi),
      update_of_ne (by rintro rfl; simp [f0] at hi)]
  · have h2 : i2 ≠ i0 ∧ i2 ≠ i1 := by
      constructor <;> rintro rfl
      · simp [d2, d1, h10.symm] at f2
      · simp [d2, d1] at f2
    have f2' : d.free i2 = true := by simpa [d2, d1, h2.1, h2.2] using f2
    exact .inr ⟨i0, i1, i2, l0, l1, l2, h10.symm, h2.1.symm, h2.2.symm, f0, f1', f2', rfl⟩

/-! ## Chains -/

/-- `i` is one of the descriptors of the chain. -/
def Chain.Mem (i : Nat) (c : Chain) : Prop := i = c.i0 ∨ i = c.i1 ∨ i = c.i2

/-- Three different descriptors that have been allocated. -/
structure Chain.Taken (d : Disk) (c : Chain) : Prop where
  lt : ∀ i, c.Mem i → i < NUM
  ne : c.i0 ≠ c.i1 ∧ c.i0 ≠ c.i2 ∧ c.i1 ≠ c.i2
  taken : ∀ i, c.Mem i → d.free i = false

/-- They form the chain of a request for buffer `b`: two links and an end. -/
structure Chain.Linked (d : Disk) (b : Nat) (c : Chain) : Prop where
  first : (d.desc c.i0).flags &&& VRING_DESC_F_NEXT ≠ 0 ∧ (d.desc c.i0).next = c.i1
  second : (d.desc c.i1).flags &&& VRING_DESC_F_NEXT ≠ 0 ∧ (d.desc c.i1).next = c.i2
  last : (d.desc c.i2).flags &&& VRING_DESC_F_NEXT = 0 ∧ (d.desc c.i2).addr = .status c.i0
  buf : (d.info c.i0).b = some b

section

variable {b : Nat} {c : Chain} {write : Bool}

theorem Chain.mem0 : c.Mem c.i0 := .inl rfl
theorem Chain.mem1 : c.Mem c.i1 := .inr (.inl rfl)
theorem Chain.mem2 : c.Mem c.i2 := .inr (.inr rfl)

theorem Chain.mark3_ne {f : Nat → Bool} {i : Nat} {x : Bool} (h : ¬ c.Mem i) :
    mark3 f c.i0 c.i1 c.i2 x i = f i := by
  unfold Chain.Mem at h
  rw [mark3, update_of_ne (by tauto), update_of_ne (by tauto), update_of_ne (by tauto)]

theorem Chain.Taken.congr (h : c.Taken d) (hf : ∀ i, c.Mem i → d'.free i = d.free i) : c.Taken d' :=
  ⟨h.lt, h.ne, fun i hi => by rw [hf i hi]; exact h.taken i hi⟩

theorem Chain.Linked.congr (h : c.Linked d b) (hd : ∀ i, c.Mem i → d'.desc i = d.desc i)
    (hi : (d'.info c.i0).b = (d.info c.i0).b) : c.Linked d' b :=
  ⟨by rw [hd _ mem0]; exact h.first, by rw [hd _ mem1]; exact h.second,
    by rw [hd _ mem2]; exact h.last, by rw [hi]; exact h.buf⟩

/-- The descriptors of a formatted request. -/
def Chain.descs (c : Chain) (b : Nat) (write : Bool) (f : Nat → Desc) : Nat → Desc :=
  update (update (update f c.i0 ⟨.op c.i0, 16, VRING_DESC_F_NEXT, c.i1⟩)
    c.i1 ⟨.data b, BSIZE, (if write then 0 else VRING_DESC_F_WRITE) ||| VRING_DESC_F_NEXT, c.i2⟩)
    c.i2 ⟨.status c.i0, 1, VRING_DESC_F_WRITE, 0⟩

theorem format_eq : ∃ ops, format b write c.i0 c.i1 c.i2 d = .ok ((), { d with
    ops := ops, desc := c.descs b write d.desc, info := update d.info c.i0 ⟨some b, 0xff⟩
    busy := update d.busy b true }) := by
  refine ⟨update d.ops c.i0 ⟨if write then VIRTIO_BLK_T_OUT else VIRTIO_BLK_T_IN, 0,
    d.blockno b * (BSIZE / 512) % UINT⟩, ?_⟩
  simp [format, setOp, setDesc, setInfo, setBusy, bind_apply, Chain.descs]

theorem Chain.descs_ne {f : Nat → Desc} (hi : ¬ c.Mem i) : c.descs b write f i = f i := by
  unfold Chain.Mem at hi
  rw [Chain.descs, update_of_ne (by tauto), update_of_ne (by tauto),
    update_of_ne (by tauto)]

/-- **A formatted request is linked.** -/
theorem Chain.linked_descs (hne : c.i0 ≠ c.i1 ∧ c.i0 ≠ c.i2 ∧ c.i1 ≠ c.i2)
    (hd : d'.desc = c.descs b write d.desc) (hb : (d'.info c.i0).b = some b) : c.Linked d' b := by
  obtain ⟨h01, h02, h12⟩ := hne
  have e0 : d'.desc c.i0 = ⟨.op c.i0, 16, VRING_DESC_F_NEXT, c.i1⟩ := by
    rw [hd, Chain.descs, update_of_ne h02, update_of_ne h01, update_self]
  have e1 : d'.desc c.i1 =
      ⟨.data b, BSIZE, (if write then 0 else VRING_DESC_F_WRITE) ||| VRING_DESC_F_NEXT, c.i2⟩ := by
    rw [hd, Chain.descs, update_of_ne h12, update_self]
  have e2 : d'.desc c.i2 = ⟨.status c.i0, 1, VRING_DESC_F_WRITE, 0⟩ := by
    rw [hd, Chain.descs, update_self]
  have hflag : ((if write then 0 else VRING_DESC_F_WRITE) ||| VRING_DESC_F_NEXT) &&&
      VRING_DESC_F_NEXT ≠ 0 := by cases write <;> decide
  refine ⟨?_, ?_, ?_, hb⟩
  · rw [e0]
    exact ⟨(by decide : VRING_DESC_F_NEXT &&& VRING_DESC_F_NEXT ≠ 0), rfl⟩
  · rw [e1]
    exact ⟨hflag, rfl⟩
  · rw [e2]
    exact ⟨(by decide : VRING_DESC_F_WRITE &&& VRING_DESC_F_NEXT = 0), rfl⟩

/-- **The end of a request** frees its three descriptors. -/
theorem finish_eq (ht : c.Taken d) (hl : c.Linked d b) :
    ∃ desc, finish c.i0 d = .ok ((), { d with
        desc := desc, free := mark3 d.free c.i0 c.i1 c.i2 true
        info := update d.info c.i0 { d.info c.i0 with b := none } }) ∧
      ∀ i, ¬ c.Mem i → desc i = d.desc i := by
  obtain ⟨h01, h02, h12⟩ := ht.ne
  let d0 : Disk := { d with info := update d.info c.i0 { d.info c.i0 with b := none } }
  let d1 : Disk := { d0 with
    desc := update d0.desc c.i0 {}, free := update d0.free c.i0 true }
  let d2 : Disk := { d1 with
    desc := update d1.desc c.i1 {}, free := update d1.free c.i1 true }
  have e0 : freeDesc c.i0 d0 = .ok ((), d1) := freeDesc_ok (ht.lt _ Chain.mem0)
    (ht.taken _ Chain.mem0)
  have e1 : freeDesc c.i1 d1 = .ok ((), d2) := freeDesc_ok (ht.lt _ Chain.mem1) (by
    show update d.free c.i0 true c.i1 = false
    rw [update_of_ne h01.symm, ht.taken _ Chain.mem1])
  have e2 := freeDesc_ok (d := d2) (ht.lt _ Chain.mem2) (by
    show update (update d.free c.i0 true) c.i1 true c.i2 = false
    rw [update_of_ne h12.symm, update_of_ne h02.symm, ht.taken _ Chain.mem2])
  have x1 : d1.desc c.i1 = d.desc c.i1 := update_of_ne h01.symm ..
  have x2 : d2.desc c.i2 = d.desc c.i2 := by
    show update (update d.desc c.i0 {}) c.i1 {} c.i2 = _
    rw [update_of_ne h12.symm, update_of_ne h02.symm]
  refine ⟨update d2.desc c.i2 {}, ?_, fun i hi => ?_⟩
  · rw [finish, bind_ok (show setInfo c.i0 _ d = .ok ((), d0) from rfl), freeChain, NUM]
    rw [freeChainFrom, bind_ok (gets_apply _ d0), bind_ok (gets_apply _ d0), bind_ok e0,
      if_pos hl.first.1, show (d0.desc c.i0).next = c.i1 from hl.first.2]
    rw [freeChainFrom, bind_ok (gets_apply _ d1), bind_ok (gets_apply _ d1), bind_ok e1, x1,
      if_pos hl.second.1, hl.second.2]
    rw [freeChainFrom, bind_ok (gets_apply _ d2), bind_ok (gets_apply _ d2), bind_ok e2, x2,
      if_neg (by rw [hl.last.1]; simp)]
    rfl
  · unfold Chain.Mem at hi
    show update (update (update d.desc c.i0 {}) c.i1 {}) c.i2 {} i = _
    rw [update_of_ne (by tauto), update_of_ne (by tauto),
      update_of_ne (by tauto)]

end

/-! ## The invariant -/

/-- The buffer a process is called with. -/
def Pc.buf : Pc → Option Nat
  | .out => none
  | .enter b _ | .alloc b _ | .format b _ _ | .ring b _ | .bump b _ | .check b _ | .asleep b _
  | .finish b _ => some b

/-- The descriptors it has. -/
def Pc.chain : Pc → Option Chain
  | .out | .enter .. | .alloc .. => none
  | .format _ _ c | .ring _ c | .bump _ c | .check _ c | .asleep _ c | .finish _ c => some c

/-- The request it has formatted. -/
def Pc.request : Pc → Option (Nat × Chain)
  | .ring b c | .bump b c | .check b c | .asleep b c | .finish b c => some (b, c)
  | _ => none

/-- The request it has submitted and waits for. -/
def Pc.waits : Pc → Option (Nat × Chain)
  | .check b c | .asleep b c => some (b, c)
  | _ => none

/-- It is about to submit. -/
def Pc.Ready : Pc → Prop
  | .ring .. | .bump .. => True
  | _ => False

/-- The heads in flight: in the available ring, at the device, being posted, in the used ring. -/
def flight (A U : List Nat) (s : Sys) : List Nat := A ++ (s.work ++ (s.posting.toList ++ U))

/-- What holds for a process, with heads `D` in flight. -/
structure Local (D : List Nat) (s : Sys) (p : Nat) : Prop where
  owner : ∀ b, (s.pc p).buf = some b → s.owner b = some p
  taken : ∀ c, (s.pc p).chain = some c → c.Taken s.disk
  linked : ∀ b c, (s.pc p).request = some (b, c) → c.Linked s.disk b
  busy : ∀ b c, (s.pc p).request = some (b, c) →
    (s.disk.busy b = true ↔ (s.pc p).Ready ∨ c.i0 ∈ D)
  fresh : ∀ c, (s.pc p).chain = some c → (s.pc p).waits = none → c.i0 ∉ D
  slot : ∀ b c, s.pc p = .bump b c → s.disk.availRing (s.disk.availIdx % NUM) = c.i0

/-- `vdisk_lock` is held by whoever is at a place where it must be. -/
structure Locks (pc : Nat → Pc) (intr : Nat → IntrPc) (lock : Option Agent) : Prop where
  proc : ∀ p, (pc p).holds = true ↔ lock = some (.proc p)
  intr : ∀ c, intr c ≠ .idle ↔ lock = some (.intr c)

/-- The descriptors of different processes are different. -/
def Apart (pc : Nat → Pc) : Prop :=
  ∀ p q c c', p ≠ q → (pc p).chain = some c → (pc q).chain = some c' → ∀ i, c.Mem i → ¬ c'.Mem i

/-- Someone waits for each head of `D`. -/
def Awaited (pc : Nat → Pc) (D : List Nat) : Prop :=
  ∀ id ∈ D, ∃ p b c, (pc p).waits = some (b, c) ∧ c.i0 = id

/-- **The invariant**, with `A` in the available ring and `U` in the used ring. -/
structure Inv (A U : List Nat) (s : Sys) : Prop where
  locks : Locks s.pc s.intr s.lock
  procs : ∀ p, Local (flight A U s) s p
  apart : Apart s.pc
  avail : Queue (2 ^ 16) NUM s.disk.availRing s.lastAvail s.disk.availIdx A
  used : Queue (2 ^ 16) NUM s.disk.usedRing s.disk.seen s.disk.usedIdx U
  post : ∀ id, s.posting = some id → s.disk.usedRing (s.disk.usedIdx % NUM) = id
  nodup : (flight A U s).Nodup
  awaited : Awaited s.pc (flight A U s)
  status : ∀ id, s.posting = some id ∨ id ∈ U → (s.disk.info id).status = 0
  count : ∀ id, s.subs id = s.comps id + if id ∈ A ++ s.work then 1 else 0
  body : ∀ c, s.intr c = .body → s.disk.seen ≠ s.disk.usedIdx

section

variable {A U A' U' D D' : List Nat} {s s' : Sys} {p q b : Nat} {c : Chain} {x : Pc}

theorem Pc.buf_of_request (h : x.request = some (b, c)) : x.buf = some b := by
  cases x <;> simp_all [Pc.request, Pc.buf]

theorem Pc.chain_of_request (h : x.request = some (b, c)) : x.chain = some c := by
  cases x <;> simp_all [Pc.request, Pc.chain]

theorem Pc.request_of_waits (h : x.waits = some (b, c)) : x.request = some (b, c) := by
  cases x <;> simp_all [Pc.request, Pc.waits]

theorem Pc.not_ready_of_waits (h : x.waits = some (b, c)) : ¬ x.Ready := by
  cases x <;> simp_all [Pc.Ready, Pc.waits]

/-- **What a process at its place relies on** is as it was: its buffer, its descriptors, and the
slot it fills. -/
structure Rests (D D' : List Nat) (s s' : Sys) (p : Nat) : Prop where
  pc : s'.pc p = s.pc p
  owner : ∀ b, (s.pc p).buf = some b → s'.owner b = s.owner b
  free : ∀ c, (s.pc p).chain = some c → ∀ i, c.Mem i → s'.disk.free i = s.disk.free i
  desc : ∀ c, (s.pc p).chain = some c → ∀ i, c.Mem i → s'.disk.desc i = s.disk.desc i
  info : ∀ c, (s.pc p).chain = some c → (s'.disk.info c.i0).b = (s.disk.info c.i0).b
  busy : ∀ b, (s.pc p).buf = some b → s'.disk.busy b = s.disk.busy b
  mem : ∀ c, (s.pc p).chain = some c → (c.i0 ∈ D' ↔ c.i0 ∈ D)
  slot : ∀ b c, s.pc p = .bump b c →
    s'.disk.availRing (s'.disk.availIdx % NUM) = s.disk.availRing (s.disk.availIdx % NUM)

theorem Rests.refl (D : List Nat) (s : Sys) (p : Nat) : Rests D D s s p :=
  ⟨rfl, fun _ _ => rfl, fun _ _ _ _ => rfl, fun _ _ _ _ => rfl, fun _ _ => rfl, fun _ _ => rfl,
    fun _ _ => Iff.rfl, fun _ _ _ => rfl⟩

theorem Local.congr (h : Local D s p) (k : Rests D D' s s' p) : Local D' s' p where
  owner b hb := by
    rw [k.pc] at hb
    rw [k.owner b hb]
    exact h.owner b hb
  taken c hc := by
    rw [k.pc] at hc
    exact (h.taken c hc).congr (k.free c hc)
  linked b c hr := by
    rw [k.pc] at hr
    have hc := Pc.chain_of_request hr
    exact (h.linked b c hr).congr (k.desc c hc) (k.info c hc)
  busy b c hr := by
    rw [k.pc] at hr ⊢
    rw [k.busy b (Pc.buf_of_request hr), k.mem c (Pc.chain_of_request hr)]
    exact h.busy b c hr
  fresh c hc hw := by
    rw [k.pc] at hc hw
    rw [k.mem c hc]
    exact h.fresh c hc hw
  slot b c hc := by
    rw [k.pc] at hc
    rw [k.slot b c hc]
    exact h.slot b c hc

/-- What is to be shown for a process that has formatted a request. -/
theorem Local.of_request (hx : (s.pc p).request = some (b, c)) (howner : s.owner b = some p)
    (htaken : c.Taken s.disk) (hlinked : c.Linked s.disk b)
    (hbusy : s.disk.busy b = true ↔ (s.pc p).Ready ∨ c.i0 ∈ D)
    (hfresh : (s.pc p).waits = none → c.i0 ∉ D)
    (hslot : s.pc p = .bump b c → s.disk.availRing (s.disk.availIdx % NUM) = c.i0) :
    Local D s p := by
  have hb := Pc.buf_of_request hx
  have hc := Pc.chain_of_request hx
  constructor
  · intro b' hb'
    obtain rfl := Option.some.inj (hb.symm.trans hb')
    exact howner
  · intro c' hc'
    obtain rfl := Option.some.inj (hc.symm.trans hc')
    exact htaken
  · intro b' c' hr
    cases hx.symm.trans hr
    exact hlinked
  · intro b' c' hr
    cases hx.symm.trans hr
    exact hbusy
  · intro c' hc' hw
    obtain rfl := Option.some.inj (hc.symm.trans hc')
    exact hfresh hw
  · intro b' c' hp
    have hr : (s.pc p).request = some (b', c') := by rw [hp]; rfl
    cases hx.symm.trans hr
    exact hslot hp

/-- …and one that moves on with its request, while its buffer and its descriptors stay as they
are. -/
theorem Local.advance (h : Local D s p) (hr : (s.pc p).request = some (b, c))
    (hx : (s'.pc p).request = some (b, c)) (hs : s'.owner = s.owner ∧ s'.disk.free = s.disk.free ∧
    s'.disk.desc = s.disk.desc ∧ s'.disk.info = s.disk.info)
    (hbusy : s'.disk.busy b = true ↔ (s'.pc p).Ready ∨ c.i0 ∈ D')
    (hfresh : (s'.pc p).waits = none → c.i0 ∉ D')
    (hslot : s'.pc p = .bump b c → s'.disk.availRing (s'.disk.availIdx % NUM) = c.i0) :
    Local D' s' p := by
  obtain ⟨e1, e2, e3, e4⟩ := hs
  refine .of_request hx ?_ ((h.taken c (Pc.chain_of_request hr)).congr fun _ _ => by rw [e2])
    ((h.linked b c hr).congr (fun _ _ => by rw [e3]) (by rw [e4])) hbusy hfresh hslot
  rw [e1]
  exact h.owner b (Pc.buf_of_request hr)

/-! ### Moving one process -/

variable {pc : Nat → Pc} {intr : Nat → IntrPc} {lock : Option Agent} {y : IntrPc}

/-- A process moves without touching the lock. -/
theorem Locks.move (h : Locks pc intr lock) (hx : x.holds = (pc p).holds) :
    Locks (update pc p x) intr lock where
  proc q := by
    by_cases hq : q = p
    · rw [hq, update_self, hx]
      exact h.proc p
    · rw [update_of_ne hq]
      exact h.proc q
  intr := h.intr

/-- It takes the lock… -/
theorem Locks.take (h : Locks pc intr none) (hx : x.holds = true) :
    Locks (update pc p x) intr (some (.proc p)) where
  proc q := by
    by_cases hq : q = p
    · simp [hq, hx]
    · rw [update_of_ne hq]
      exact iff_of_false (fun hh => nomatch (h.proc q).1 hh) (by simpa using fun e => hq e.symm)
  intr c := iff_of_false (fun hh => nomatch (h.intr c).1 hh) nofun

/-- …or leaves it. -/
theorem Locks.leave (h : Locks pc intr lock) (hp : (pc p).holds = true) (hx : x.holds = false) :
    Locks (update pc p x) intr none where
  proc q := by
    by_cases hq : q = p
    · simp [hq, hx]
    · rw [update_of_ne hq]
      refine iff_of_false (fun hh => hq ?_) nofun
      cases ((h.proc q).1 hh).symm.trans ((h.proc p).1 hp)
      rfl
  intr c := iff_of_false (fun hh => nomatch ((h.intr c).1 hh).symm.trans ((h.proc p).1 hp)) nofun

/-- An interrupt handler moves… -/
theorem Locks.moveIntr {k : Nat} (h : Locks pc intr lock) (hk : intr k ≠ .idle) (hy : y ≠ .idle) :
    Locks pc (update intr k y) lock where
  proc := h.proc
  intr c := by
    by_cases hc : c = k
    · rw [hc, update_self]
      exact iff_of_true hy ((h.intr k).1 hk)
    · rw [update_of_ne hc]
      exact h.intr c

/-- …takes the lock… -/
theorem Locks.takeIntr {k : Nat} (h : Locks pc intr none) (hy : y ≠ .idle) :
    Locks pc (update intr k y) (some (.intr k)) where
  proc p := iff_of_false (fun hh => nomatch (h.proc p).1 hh) nofun
  intr c := by
    by_cases hc : c = k
    · simp [hc, hy]
    · rw [update_of_ne hc]
      exact iff_of_false (fun hh => nomatch (h.intr c).1 hh) (by simpa using fun e => hc e.symm)

/-- …or leaves it. -/
theorem Locks.leaveIntr {k : Nat} (h : Locks pc intr lock) (hk : intr k ≠ .idle) :
    Locks pc (update intr k .idle) none where
  proc p := iff_of_false (fun hh => nomatch ((h.proc p).1 hh).symm.trans ((h.intr k).1 hk)) nofun
  intr c := by
    by_cases hc : c = k
    · simp [hc]
    · rw [update_of_ne hc]
      refine iff_of_false (fun hh => hc ?_) nofun
      cases ((h.intr c).1 hh).symm.trans ((h.intr k).1 hk)
      rfl

/-- A process that gets no descriptors. -/
theorem Apart.move (h : Apart pc) (hx : ∀ c, x.chain = some c → (pc p).chain = some c) :
    Apart (update pc p x) := by
  have key : ∀ q c, (update pc p x q).chain = some c → (pc q).chain = some c := by
    intro q c hc
    by_cases hq : q = p
    · rw [hq, update_self] at hc
      rw [hq]
      exact hx c hc
    · rwa [update_of_ne hq] at hc
  exact fun q q' c c' hne hc hc' => h q q' c c' hne (key q c hc) (key q' c' hc')

/-- A process that gets some no one else has. -/
theorem Apart.alloc (h : Apart pc) (hx : x.chain = some c)
    (hnew : ∀ q c', (pc q).chain = some c' → ∀ i, c.Mem i → ¬ c'.Mem i) :
    Apart (update pc p x) := by
  intro q q' d d' hne hd hd' i hi
  by_cases hq : q = p
  · rw [hq, update_self, hx] at hd
    obtain rfl := Option.some.inj hd
    rw [update_of_ne fun e => hne (hq.trans e.symm)] at hd'
    exact hnew q' d' hd' i hi
  · rw [update_of_ne hq] at hd
    by_cases hq' : q' = p
    · rw [hq', update_self, hx] at hd'
      obtain rfl := Option.some.inj hd'
      exact fun hi' => hnew q d hd i hi' hi
    · rw [update_of_ne hq'] at hd'
      exact h q q' d d' hne hd hd' i hi

/-- A process still waits for what it did, unless that is over. -/
theorem Awaited.move (h : Awaited pc D)
    (hx : ∀ b c, (pc p).waits = some (b, c) → c.i0 ∈ D → x.waits = some (b, c)) :
    Awaited (update pc p x) D := by
  intro id hid
  obtain ⟨q, b, c, hw, rfl⟩ := h id hid
  by_cases hq : q = p
  · subst hq
    exact ⟨q, b, c, by rw [update_self]; exact hx b c hw hid, rfl⟩
  · exact ⟨q, b, c, by rwa [update_of_ne hq], rfl⟩

namespace Inv

/-- Two processes have different buffers. -/
theorem buf_ne (h : Inv A U s) (hne : p ≠ q) (hp : (s.pc p).buf = some b) :
    (s.pc q).buf ≠ some b := fun hq => by
  have e1 := (h.procs p).owner b hp
  rw [(h.procs q).owner b hq] at e1
  exact hne (Option.some.inj e1).symm

/-- A head in flight is a descriptor of the waiting process. -/
theorem flight_lt (h : Inv A U s) {id : Nat} (hid : id ∈ flight A U s) : id < NUM := by
  obtain ⟨p, b, c, hw, rfl⟩ := h.awaited id hid
  exact ((h.procs p).taken c (Pc.chain_of_request (Pc.request_of_waits hw))).lt _ Chain.mem0

/-- **There is room in a ring** for a head that is not in it. -/
theorem room {l : List Nat} {id : Nat} (hl : l.Nodup) (hlt : ∀ x ∈ l, x < NUM) (hid : id < NUM)
    (hn : id ∉ l) : l.length < NUM := by
  have hsub : (id :: l).Subperm (List.range NUM) := by
    refine subperm_of_subset (nodup_cons.2 ⟨hn, hl⟩) fun x hx => mem_range.2 ?_
    rcases mem_cons.1 hx with rfl | hx
    exacts [hid, hlt x hx]
  have := hsub.length_le
  rwa [length_cons, length_range] at this

theorem nodup_avail (h : Inv A U s) : A.Nodup := (nodup_append.1 h.nodup).1

theorem nodup_used (h : Inv A U s) : U.Nodup :=
  (nodup_append.1 (nodup_append.1 (nodup_append.1 h.nodup).2.1).2.1).2.1

theorem mem_avail {id : Nat} (hid : id ∈ A) : id ∈ flight A U s := mem_append_left _ hid

theorem mem_work {id : Nat} (hid : id ∈ s.work) : id ∈ flight A U s :=
  mem_append_right _ (mem_append_left _ hid)

theorem mem_post {id : Nat} (hid : s.posting = some id) : id ∈ flight A U s :=
  mem_append_right _ (mem_append_right _ (mem_append_left _ (by simp [hid])))

theorem mem_used {id : Nat} (hid : id ∈ U) : id ∈ flight A U s :=
  mem_append_right _ (mem_append_right _ (mem_append_right _ hid))

end Inv

end

end Xv6.Virtio
