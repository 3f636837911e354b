import Xv6.User.Alloc

/-!
# User/Break — `malloc` and the break of its process

The allocator on top of the machine: `sbrk` is answered by `sys_sbrk` and `growproc`, while other
processes run. The number of units passes through an `int` on its way; as long as it fits (`Fits`),
what `morecore` records in a header is what the break has moved by, and every block a program has
lies below the break (`malloc_below_break`).  From `2 ^ 27` units on `sbrk` may succeed with less
than was asked for (`malloc_past_break`).
-/

namespace Xv6.Umalloc

open Function

variable [Layout]

/-! ## The kernel's side -/

/-- `sys_sbrk`. -/
def sysSbrk (p : Nat) (n : Int) : Kern Int := do
  let addr := (← getProc p).sz
  if (← growproc p n) < 0 then return -1 else return addr

/-- What `sbrk` gives the program. -/
def answer (ret : Int) : Option Nat := if ret = -1 then none else some ret.toNat

/-- The kernel serves calls of `sbrk`, all with the same argument. -/
inductive Serves (p : Nat) (n : Int) : KState → List (Option Nat) → KState → Prop
  | nil {k : KState} : Serves p n k [] k
  | cons {k k1 k' : KState} {ret : Int} {as : List (Option Nat)} (e : sysSbrk p n k = .ok (ret, k1))
      (h : Serves p n k1 as k') : Serves p n k (answer ret :: as) k'

variable {p n : Nat} {k k' : KState} {as : List (Option Nat)}

/-- **A positive `int`** moves the break by just that, or not at all. -/
theorem sysSbrk_spec {ret : Int} (h : machine.Reach k) (hp : Runs k p) (h0 : 0 < n)
    (hn : n < 2 ^ 31) (e : sysSbrk p n k = .ok (ret, k')) : machine.Reach k' ∧ Runs k' p ∧
      (answer ret = none ∧ (k'.procs p).sz = (k.procs p).sz ∨
        answer ret = some (k.procs p).sz ∧ (k'.procs p).sz = (k.procs p).sz + n) := by
  obtain ⟨G, hG⟩ := machine_inv h
  have hne := (hG.runs hp).1
  have hle := hG.own.spans_le (hG.spans p hp.1 hne)
  obtain ⟨r, sz, k1, G', e1, -, hps, -, -, -, -, -, hres⟩ := growproc_spec hG hp.1 hp.2.1 rfl hne n
  have hk1 : machine.Reach k1 :=
    h.step (a := .sbrk p n) ⟨⟨fun q hq => by cases hq; exact hp, trivial⟩, ignore_ok e1⟩
  have hsz : (k1.procs p).sz = sz := by rw [hps, update_self]
  have hst : (k1.procs p).state = (k.procs p).state := by rw [hps, update_self]
  have hrun : Runs k1 p := ⟨hp.1, hst ▸ hp.2.1, hst ▸ hp.2.2⟩
  unfold sysSbrk at e
  rw [getProc_bind, Act.bind_ok e1] at e
  rcases hres with ⟨rfl, hg, -⟩ | ⟨rfl, hg, -⟩
  · rw [if_neg (by decide)] at e
    obtain ⟨rfl, rfl⟩ := Act.ok_inj e
    refine ⟨hk1, hrun, .inr ⟨?_, ?_⟩⟩
    · rw [answer, if_neg (by omega)]
      rfl
    · rw [hsz, hg]
      unfold grown
      unfold npages at hle
      split_ifs <;> omega
  · rw [if_pos (by decide)] at e
    obtain ⟨rfl, rfl⟩ := Act.ok_inj e
    exact ⟨hk1, hrun, .inl ⟨rfl, hsz.trans hg⟩⟩

/-- **The break moves once for every call that succeeds**, and the first of them answers with the
old one. -/
theorem Serves.spec (hs : Serves p n k as k') (h : machine.Reach k) (hp : Runs k p) (h0 : 0 < n)
    (hn : n < 2 ^ 31) : machine.Reach k' ∧ Runs k' p ∧ ∃ m, (k'.procs p).sz = (k.procs p).sz + m *
    n ∧
      (∀ a, some a ∈ as → 0 < m) ∧ ∀ a rest, as = some a :: rest → a = (k.procs p).sz := by
  induction hs with
  | nil => exact ⟨h, hp, 0, by omega, nofun, nofun⟩
  | cons e _ ih =>
    obtain ⟨h1, hp1, hres⟩ := sysSbrk_spec h hp h0 hn e
    obtain ⟨h', hp', m, hm, hpos, -⟩ := ih h1 hp1
    rcases hres with ⟨ha, hsz⟩ | ⟨ha, hsz⟩
    · refine ⟨h', hp', m, by omega, fun a hmem => hpos a ?_, fun a rest hrest => ?_⟩
      · rw [ha] at hmem
        simpa using hmem
      · rw [ha] at hrest
        cases hrest
    · refine ⟨h', hp', m + 1, by rw [hm, hsz, Nat.add_mul]; omega, fun _ _ => Nat.succ_pos m,
        fun a rest hrest => ?_⟩
      rw [ha] at hrest
      exact (Option.some.inj (List.cons.inj hrest).1).symm

/-! ## The two together -/

/-- The machine, and the heap of the program that the process runs. -/
structure Session where
  kernel : KState
  user : State

/-- The break of the process. -/
def Session.brk (σ : Session) (p : Nat) : Nat := (σ.kernel.procs p).sz

/-- What happens: a step of the machine, or a use of the heap; with a call of `malloc` comes what
`sbrk` answered meanwhile. -/
inductive Event
  | kernel (o : Xv6.Op)
  | user (o : Op)

/-- The bytes that `morecore` asks for in a call of `malloc`. -/
def request (nbytes : Nat) : Nat := coreUnits (units nbytes) * UNIT

/-- The headers that were stored lie in pages of a process of size `sz`.  A store anywhere else is a
fault that ends the process. -/
def Mapped (h t : Heap) (sz : Nat) : Prop := ∀ a, t.hdr a ≠ h.hdr a → a + UNIT ≤ PGROUNDUP sz

/-- **Steps**: other processes do what they like, and so does this one as long as it leaves its
break alone; `malloc` consumes the answers that the kernel gives to its calls of `sbrk`, and no
more. -/
inductive SessionStep (base p : Nat) : Session → Event → Session → Prop
  | kernel {σ : Session} {o : Xv6.Op} {k' : KState} (hs : machine.step σ.kernel o k')
      (hr : Runs k' p) (hb : (k'.procs p).sz = σ.brk p) :
      SessionStep base p σ (.kernel o) { σ with kernel := k' }
  | malloc {σ : Session} {nbytes r : Nat} {as : List (Option Nat)} {k' : KState} {t : Heap}
      (hn : nbytes < UINT) (hk : Serves p (toInt (request nbytes)) σ.kernel as k')
      (hr : ∀ rest, Returns (fun fuel => malloc base fuel nbytes)
        { σ.user.heap with answers := as ++ rest } r { t with answers := rest })
        (hm : Mapped σ.user.heap t (k'.procs p).sz) :
      SessionStep base p σ (.user (.malloc nbytes as))
        ⟨k', { t with answers := [] }, if r = 0 then σ.user.live else (r, nbytes) :: σ.user.live⟩
  | user {σ : Session} {o : Op} {s' : State} (ho : ∀ nbytes as, o ≠ .malloc nbytes as)
      (hs : Step base σ.user o s') (hm : Mapped σ.user.heap s'.heap (σ.brk p)) :
      SessionStep base p σ (.user o) { σ with user := s' }

/-- A program starts as `exec` leaves it: its memory is a number of pages, with the static header in
them. -/
def session (base p : Nat) : LTS Session Event where
  init σ := machine.Reach σ.kernel ∧ Runs σ.kernel p ∧ base + UNIT ≤ σ.brk p ∧ PGSIZE ∣ σ.brk p ∧
    (allocator base).init σ.user
  step := SessionStep base p

/-- The units of a request are counted by an `int` when they are bytes. -/
def Fits (_ : Session) : Event → Prop
  | .user (.malloc nbytes _) => units nbytes < 2 ^ 27
  | _ => True

/-! ## What holds along a run -/

/-- **The heap lies below the break.** -/
structure Within (base p : Nat) (σ : Session) : Prop where
  reach : machine.Reach σ.kernel
  runs : Runs σ.kernel p
  heap : Inv base σ.user
  above_base : base + UNIT ≤ σ.brk p
  aligned : σ.brk p % UNIT = 0
  below : ∀ t ∈ σ.user.heap.obtained, t.1 + t.2 ≤ σ.brk p

variable {base : Nat} {σ σ' : Session} {o : Event}

/-- A block is made of what was obtained, so it is below the break. -/
theorem Within.block (h : Within base p σ) {b : Nat × Nat} (hb : b ∈ σ.user.live) :
    b.1 + b.2 ≤ σ.brk p := by
  obtain ⟨L, hL⟩ := h.heap.exists_integrity
  obtain ⟨hhead, hlarge⟩ := hL.large b hb
  rw [UNIT_eq] at hhead
  -- the last byte of the block
  have hin : InTile (σ.user.heap.past (headOf b) - 1) (σ.user.block b) := by
    unfold InTile State.block Heap.tile
    unfold Heap.past at hlarge ⊢
    simp only
    omega
  have hcov := hL.partition (σ.user.heap.past (headOf b) - 1)
  have hpos :=
    cover_pos (List.mem_append_right (L.map σ.user.heap.tile) (List.mem_map_of_mem hb)) hin
  split at hcov
  next hex =>
    obtain ⟨t, ht, hxt⟩ := hex
    have h1 := h.below t ht
    have h2 := hxt.2
    omega
  next => omega

/-- A call of `malloc` keeps the heap below the break, and the break has moved by what was asked
for. -/
theorem Within.malloc (h : Within base p σ) {nbytes : Nat} (hf : units nbytes < 2 ^ 27)
    (hs : SessionStep base p σ (.user (.malloc nbytes as)) σ') : Within base p σ' ∧
      ∀ a, some a ∈ as → σ.brk p + UNIT * coreUnits (units nbytes) ≤ σ'.brk p := by
  cases hs with
  | user ho => exact absurd rfl (ho _ _)
  | @malloc _ r _ k' t hn hk hr hm =>
    have hcore : coreUnits (units nbytes) < 2 ^ 27 := by
      unfold coreUnits
      split <;> omega
    have hasked : toInt (request nbytes) = (request nbytes : Nat) := toInt_eq_iff.2 hcore
    have hreq : request nbytes = UNIT * coreUnits (units nbytes) := Nat.mul_comm ..
    have hpos := (le_coreUnits (n := units nbytes)).2
    rw [hasked, hreq] at hk
    obtain ⟨hreach, hruns, m, hm, hgrow, hfirst⟩ :=
      hk.spec h.reach h.runs (by rw [UNIT_eq]; omega) (by rw [UNIT_eq]; omega)
    have hmoved : ∀ a, some a ∈ as → σ.brk p + UNIT * coreUnits (units nbytes) ≤ (k'.procs p).sz :=
      fun a ha => by
      rw [hm]
      exact Nat.add_le_add_left (Nat.le_mul_of_pos_left _ (hgrow a ha)) _
    have hle : σ.brk p ≤ (k'.procs p).sz := hm ▸ Nat.le_add_right ..
    have hassumed : Assumed base σ.user nbytes as := fun a rest e => by
      obtain rfl := hfirst a rest e
      refine ⟨hasked, h.aligned, h.above_base, h.below,
        (hmoved _ (e ▸ List.mem_cons_self ..)).trans ?_⟩
      exact size_le_TOP hreach hruns.1 hruns.2.1
    obtain ⟨r', t', hr', hi, hobt⟩ := h.heap.malloc hn hassumed
    have hr0 := hr []
    rw [List.append_nil] at hr0
    obtain ⟨rfl, rfl⟩ := hr'.unique hr0
    refine ⟨⟨hreach, hruns, hi, h.above_base.trans hle, ?_, fun t ht => ?_⟩, hmoved⟩
    · show (k'.procs p).sz % UNIT = 0
      rw [hm, Nat.mul_left_comm, Nat.add_mul_mod_self_left]
      exact h.aligned
    · rcases hobt with e | ⟨a, rest, e, e'⟩
      · exact (h.below t (e ▸ ht)).trans hle
      · rw [e'] at ht
        rcases List.mem_cons.1 ht with rfl | ht
        · obtain rfl := hfirst a rest e
          exact hmoved _ (e ▸ List.mem_cons_self ..)
        · exact (h.below t ht).trans hle

theorem Within.step (h : Within base p σ) (hf : Fits σ o) (hs : SessionStep base p σ o σ') :
    Within base p σ' := by
  cases hs with
  | kernel hs hr hb =>
    exact ⟨h.reach.step hs, hr, h.heap, h.above_base.trans_eq hb.symm,
      (congrArg (· % UNIT) hb).trans h.aligned, fun t ht => (h.below t ht).trans_eq hb.symm⟩
  | malloc hn hk hr hm => exact (h.malloc hf (.malloc hn hk hr hm)).1
  | user ho hs =>
    exact ⟨h.reach, h.runs, h.heap.step hs, h.above_base, h.aligned, hs.obtained ho ▸ h.below⟩

theorem Within.of_reach (h : ((session base p).restrict Fits).Reach σ) : Within base p σ := by
  refine h.invariant ?_ fun σ o σ' _ hi hs => hi.step hs.1 hs.2
  rintro σ ⟨hk, hp, hb, ⟨m, hm⟩, hu⟩
  refine ⟨hk, hp, .of_reach (.init hu), hb, ?_, ?_⟩
  · rw [hm]
    exact Nat.mod_eq_zero_of_dvd (Dvd.dvd.mul_right (by decide) m)
  · rw [hu.2.2.1]
    exact nofun

/-- **`malloc` hands out what it got**: in a run whose requests fit, every block that the program
has lies below the break, and the break grows by the units that go into the new header. -/
theorem malloc_below_break (h : ((session base p).restrict Fits).Reach σ) :
    (∀ b ∈ σ.user.live, b.1 + b.2 ≤ σ.brk p) ∧
    ∀ nbytes as σ', units nbytes < 2 ^ 27 → (session base p).step σ (.user (.malloc nbytes as)) σ' →
      (∀ b ∈ σ'.user.live, b.1 + b.2 ≤ σ'.brk p) ∧
      ∀ a, some a ∈ as → σ.brk p + UNIT * coreUnits (units nbytes) ≤ σ'.brk p := by
  have hi := Within.of_reach h
  refine ⟨fun b hb => hi.block hb, fun nbytes as σ' hf hs => ?_⟩
  obtain ⟨hi', hgrow⟩ := hi.malloc hf hs
  exact ⟨fun b hb => hi'.block hb, hgrow⟩

/-! ## The first call -/

omit [Layout]

/-- The heap of a program that starts. -/
def start : State := ⟨⟨fun _ => ⟨0, 0⟩, 0, [], []⟩, []⟩

/-- …and after a call that took all of the `nu` units it obtained, for `n` bytes at the old
break. -/
def taken (nu n : Nat) : Heap :=
  { ((((start.heap.put 256 ⟨256, 0⟩).put 4096 ⟨0, nu⟩).put 4096 ⟨256, nu⟩).put 256 ⟨4096, 0⟩).put
    256 ⟨256, 0⟩ with
    freep := 256
    obtained := [(4096, n)] }

/-- Its stores are to the static header and to the one at the old break. -/
theorem taken_mapped {nu n sz : Nat} (h : 4112 ≤ PGROUNDUP sz) :
    Mapped start.heap (taken nu n) sz := by
  intro a ha
  have hmem : a = 256 ∨ a = 4096 := by
    by_contra hc
    rw [not_or] at hc
    refine ha ?_
    simp only [taken, Heap.put]
    rw [update_of_ne hc.1, update_of_ne hc.1, update_of_ne hc.2, update_of_ne hc.2,
      update_of_ne hc.1]
  rw [UNIT_eq]
  omega

/-- The first process, with its answer to one call of `sbrk`. -/
theorem exists_sbrk {n : Int} (hroom : 3 * (npages (grown PGSIZE n) - 1) < 30000) :
    let _ : Layout := sampleLayout
    ∃ k p k', (session 256 p).init ⟨k, start⟩ ∧ (k.procs p).sz = PGSIZE ∧
    Serves p n k [some 4096] k' ∧
      (k'.procs p).sz = grown PGSIZE n := by
  intro _
  obtain ⟨_, _, k, p, h0, hs, ha, hfree⟩ := exists_alone (by decide)
  have hpages : 30009 ≤ (PHYSTOP - PGROUNDUP kend) / PGSIZE := by decide
  obtain ⟨k', -, e, -, -, -, hps, -⟩ := ha.grow (.step (.init h0) hs) (n := n) (by omega)
  refine ⟨k, p, k', ⟨.step (.init h0) hs, ha.runs, ?_, ?_, ?_⟩, ha.size,
    ?_, by rw [hps, update_self]⟩
  · rw [Session.brk, ha.size]
    decide
  · rw [Session.brk, ha.size]
  · exact ⟨by decide, rfl, rfl, rfl⟩
  · have hs : sysSbrk p n k = .ok (4096, k') := by
      unfold sysSbrk
      rw [getProc_bind, Act.bind_ok e, ha.size]
      rfl
    exact .cons hs .nil

/-- A run that needs three turns of a loop. -/
theorem returns_of_three {m : Nat → Act Heap Fault Nat} {s t : Heap} {r : Nat}
    (h : ∀ fuel, m (fuel + 3) s = .ok (r, t)) :
    Returns m s r t :=
  ⟨3, fun fuel hf => by
    obtain ⟨k, rfl⟩ := Nat.exists_eq_add_of_le' hf
    exact h k⟩

/-- …for instance after a first call for 65520 bytes, which takes all that `morecore` asks for. -/
theorem malloc_below_break_first :
    ∃ (p : Nat) (σ : Session), ((@session sampleLayout 256 p).restrict Fits).Reach σ ∧
    σ.user.live = [(4112, 65520)] ∧ 4112 + 65520 ≤ σ.brk p := by
  let _ : Layout := sampleLayout
  obtain ⟨k, p, k', h0, -, hs, hsz⟩ := exists_sbrk (n := toInt (request 65520)) (by decide)
  have hstep : (session 256 p).step ⟨k, start⟩ (.user (.malloc 65520 [some 4096]))
      ⟨k', { taken 4096 65536 with answers := [] }, [(4112, 65520)]⟩ :=
    SessionStep.malloc (r := 4112) (t := taken 4096 65536) (by decide) hs
      (fun rest => returns_of_three fun fuel => rfl) (taken_mapped (by rw [hsz]; decide))
  have hfits : Fits ⟨k, start⟩ (.user (.malloc 65520 [some 4096])) :=
    show units 65520 < 2 ^ 27 by decide
  have hr : ((session 256 p).restrict Fits).Reach _ := .step (.init h0) ⟨hfits, hstep⟩
  exact ⟨p, _, hr, rfl, (malloc_below_break hr).1 _ (List.mem_singleton_self _)⟩

/-- **A request of almost 4 GB gets sixteen bytes**: `nu * sizeof(Header)` is 16 as an `int`, and
`sbrk(16)` succeeds; the header that `morecore` stores in the new page counts all units, so the
block is handed out, and nothing of it lies below the break. -/
theorem malloc_past_break : ∃ (p : Nat) (σ σ' : Session), (@session sampleLayout 256 p).Reach σ ∧
    (@session sampleLayout 256 p).step σ (.user (.malloc (2 ^ 32 - 1) [some 4096])) σ' ∧
    σ.brk p = 4096 ∧ σ'.brk p = 4112 ∧ σ'.user.live = [(4112, 2 ^ 32 - 1)] := by
  let _ : Layout := sampleLayout
  obtain ⟨k, p, k', h0, hsz, hs, hsz'⟩ :=
    exists_sbrk (n := toInt (request (2 ^ 32 - 1))) (by decide)
  have hgrow : grown PGSIZE (toInt (request (2 ^ 32 - 1))) = 4112 := by decide
  have hstep : (session 256 p).step ⟨k, start⟩ (.user (.malloc (2 ^ 32 - 1) [some 4096]))
      ⟨k', { taken 268435457 16 with answers := [] }, [(4112, 2 ^ 32 - 1)]⟩ :=
    SessionStep.malloc (r := 4112) (t := taken 268435457 16) (by decide) hs
      (fun rest => returns_of_three fun fuel => rfl) (taken_mapped (by rw [hsz', hgrow]; decide))
  exact ⟨p, _, _, .init h0, hstep, hsz, hsz'.trans hgrow, rfl⟩

end Xv6.Umalloc
