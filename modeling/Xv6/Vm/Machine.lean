import Xv6.Lib.LTS
import Xv6.Vm.SysExec

/-!
# Vm/Machine — the kernel's operations on memory, in any order

Processes enter the kernel in any order with any arguments; the rest of the kernel takes and returns
pages; user code stores to memory and faults.  Each operation is one step.
-/

namespace Xv6

open Act Bytes Function

variable [Layout]

/-! ## Operations -/

/-- The hardware lets user code store to `va`. -/
def Writable (m : Nat → UInt8) (r va : Nat) : Prop :=
  va < MAXVA ∧ (leaf m r (va / 4096)).has PTE_V = true ∧ (leaf m r (va / 4096)).has PTE_U = true ∧
    (leaf m r (va / 4096)).has PTE_W = true

instance {m : Nat → UInt8} {r va : Nat} : Decidable (Writable m r va) :=
  inferInstanceAs (Decidable (_ ∧ _ ∧ _ ∧ _))

/-- The physical address of user address `va`. -/
def userAddr (m : Nat → UInt8) (r va : Nat) : Nat := PTE2PA (leaf m r (va / 4096)) + va % 4096

/-- A user-mode store of one byte: it goes through, or the process traps.  After a resolved fault
the instruction is retried, as a store of its own. -/
def userStore (p va : Nat) (b : UInt8) : Kern Unit := do
  let pr ← getProc p
  if ← gets fun s => decide (Writable s.mem pr.pagetable va) then do
    let a ← gets fun s => userAddr s.mem pr.pagetable va
    memput a [b]
  else do
    storeFault p va
    exitIfKilled p

/-- What can happen next. -/
inductive Op
  | kalloc
  | kfree (pa : Nat)
  | userinit
  | fork (p : Nat)
  | exit (p : Nat) (status : Int)
  | wait (p addr : Nat)
  | sbrk (p : Nat) (n : Int)
  | exec (p upath uargv : Nat) (namei : List UInt8 → Option ExecFile)
  | copyout (p dstva : Nat) (src : List UInt8)
  | store (p va : Nat) (b : UInt8)
  | kill (p : Nat)

/-- The process that performs an operation. -/
def Op.proc : Op → Option Nat
  | .kalloc | .kfree _ | .userinit | .kill _ => none
  | .fork p | .exit p _ | .wait p _ | .sbrk p _ | .exec p .. | .copyout p .. | .store p .. => some p

/-- Discard a result. -/
def ignore {α : Type} (m : Kern α) : Kern Unit := do
  let _ ← m
  pure ()

/-- The code of an operation. -/
def Op.run : Op → Kern Unit
  | .kalloc => kernAlloc
  | .kfree pa => kernFree pa
  | .userinit => Xv6.userinit
  | .fork p => ignore (Xv6.fork p)
  | .exit p status => Xv6.exit p status
  | .wait p addr => ignore (Xv6.wait p addr)
  | .sbrk p n => ignore (growproc p n)
  | .exec p upath uargv namei => ignore (sysExec p upath uargv namei)
  | .copyout p dstva src => do
    let pr ← getProc p
    ignore (Xv6.copyout pr.pagetable dstva src)
  | .store p va b => userStore p va b
  | .kill p => setkilled p

/-- A slot with a process that runs. -/
def Runs (s : KState) (p : Nat) : Prop :=
  p < NPROC ∧ (s.procs p).state ≠ .unused ∧ (s.procs p).state ≠ .zombie

/-- When an operation can start: processes act for themselves, other kernel code frees what it
holds, `userinit` comes before every process, with memory at hand, and `kill` finds a process. -/
def Op.Enabled (s : KState) (o : Op) : Prop :=
  (∀ p, o.proc = some p → Runs s p) ∧
    match o with
    | .kfree pa => pa ∈ s.kheld
    | .userinit => (∀ p < NPROC, (s.procs p).state = .unused) ∧ 10 ≤ s.freelist.length
    | .kill p => Runs s p
    | _ => True

/-- **The machine**: from `kinit` on, any operations in any order. -/
def machine : LTS KState Op where
  init s := ∃ m, kinit (bootState m) = .ok ((), s)
  step s o s' := o.Enabled s ∧ o.run s = .ok ((), s')

/-! ## Every step keeps the invariant -/

section

variable {G G' : Ghost} {s s' : KState} {p : Nat}

omit [Layout] in
theorem ignore_ok {α : Type} {m : Kern α} {a : α} (h : m s = .ok (a, s')) :
    ignore m s = .ok ((), s') := by
  unfold ignore
  rw [bind_ok h]
  rfl

/-- A process that runs has a page table and a trapframe. -/
theorem KInv.runs (h : KInv .none G s) (hp : Runs s p) :
    (s.procs p).pagetable ≠ 0 ∧ (s.procs p).trapframe ≠ 0 :=
  h.live p hp.1 (Set.notMem_empty p) hp.2.1

/-- The errors an operation can end in: `init` exits, or the kernel dereferences a null entry. -/
def Stuck (e : Panic) : Prop := e = .initExiting ∨ e = .kerneltrap

/-- An operation that runs through and keeps the invariant, or stops the machine. -/
def Op.Ok (o : Op) (s : KState) : Prop :=
  (∃ e, o.run s = .error e ∧ Stuck e) ∨ ∃ s' G', o.run s = .ok ((), s') ∧ KInv .none G' s'

/-- The user page behind a writable address. -/
theorem Own.writable {r va : Nat} (h : Own G s) (hr : G.use r = .root) (hw : Writable s.mem r va) :
    (r, va / 4096) ∈ G.maps := by
  obtain ⟨h1, h2, h3, -⟩ := hw
  rw [MAXVA_eq] at h1
  refine (h.leaves.only r _ hr (by omega) (Pte.ne_zero_of_has h2)).resolve_right fun hc => ?_
  rw [h.leaves.spec_U r _ hc] at h3
  exact absurd h3 (by simp)

/-- A user-mode store changes a byte and no entry. -/
theorem Own.storeUser {r va : Nat} (h : Own G s) (hm : (r, va / 4096) ∈ G.maps) (b : UInt8) :
    Own G { s with mem := put s.mem (userAddr s.mem r va) [b] } ∧
      Shape ∅ ∅ G G s { s with mem := put s.mem (userAddr s.mem r va) [b] } := by
  have hu := h.leaves.map_user r _ hm
  have hlen : userAddr s.mem r va + [b].length ≤ PTE2PA (leaf s.mem r (va / 4096)) + 4096 := by
    rw [List.length_singleton, userAddr]
    omega
  exact ⟨h.overlay (h.mapped hm) (by simp [hu, Use.IsTable]) (Nat.le_add_right _ _) hlen,
    Shape.overlay h (h.mapped hm) (by simp [hu, Use.IsTable]) (Nat.le_add_right _ _) hlen
      fun hs => by rcases hs with e | ⟨_, e⟩ <;> simp [hu] at e⟩

/-- `cow_alloc` keeps the mappings. -/
theorem CowEnd.maps_eq {r v ret : Nat} (h : CowEnd G s r v ret G' s') : G'.maps = G.maps := by
  cases h with
  | sole | full => rfl
  | copied _ _ _ _ maps => exact maps

/-- `cow_alloc` keeps the invariant. -/
theorem CowEnd.inv {T : Transit} {r v ret : Nat} (hc : CowEnd G s r v ret G' s') (h : KInv T G s)
    (hm : (r, v) ∈ G.maps) (ho : Own G' s') (hF : Frame {(r, v)} ∅ G G' s s') : KInv T G' s' := by
  refine h.keepSize ho hF.toShape (fun r' w hw => ?_) hc.maps_eq
  obtain ⟨-, e⟩ := Prod.mk.inj (Set.mem_singleton_iff.1 hw)
  exact e ▸ h.own.leaves.map_lt r v hm

/-- `killed` is no part of the invariant. -/
theorem KInv.kill {T : Transit} (h : KInv T G s) (hl : (s.procs p).state ≠ .unused) :
    KInv T G (s.setProc p { s.procs p with killed := true }) := by
  have hself : ∀ {q}, q ≠ p →
      update s.procs p { s.procs p with killed := true } q = s.procs q :=
    fun hq => update_of_ne hq ..
  have hp : update s.procs p { s.procs p with killed := true } p =
      { s.procs p with killed := true } := update_self ..
  refine h.setProcs (fun q _ => ?_) (fun q _ => ?_) (fun q _ _ => ?_) fun q _ _ => ?_
  all_goals by_cases hqp : q = p
  all_goals first | rw [hqp, hp] | rw [hself hqp]
  · exact .inr ⟨hl, hl⟩
  · exact .inl rfl

omit [Layout] in
/-- A killed process that is not `init` exits. -/
theorem exitIfKilled_killed (hk : (s.procs p).killed = true) (hp : p ≠ s.initproc) :
    exitIfKilled p s = .ok ((), { s with procs := exited s p (-1) }) := by
  unfold exitIfKilled
  rw [getProc_bind, if_pos hk]
  exact exit_eq hp (-1)

omit [Layout] in
theorem exitIfKilled_init (hk : (s.procs p).killed = true) (hp : p = s.initproc) :
    exitIfKilled p s = .error .initExiting := by
  unfold exitIfKilled
  rw [getProc_bind, if_pos hk, exit]
  rw [bind_ok (show gets (fun s => s.initproc) s = .ok (s.initproc, s) from rfl), if_pos hp]
  rfl

/-! ### One lemma for each operation -/

/-- A store goes through, or traps. -/
theorem Op.run_store (va : Nat) (b : UInt8) : (Op.store p va b).run s =
    if Writable s.mem (s.procs p).pagetable va then
      .ok ((), { s with mem := put s.mem (userAddr s.mem (s.procs p).pagetable va) [b] })
    else (storeFault p va >>= fun _ => exitIfKilled p) s := by
  show userStore p va b s = _
  unfold userStore
  rw [getProc_bind]
  by_cases hw : Writable s.mem (s.procs p).pagetable va
  · rw [if_pos hw, bind_ok (gets_apply _ s), if_pos (by simpa using hw)]
    rfl
  · rw [if_neg hw, bind_ok (gets_apply _ s), if_neg (by simpa using hw)]

theorem Op.ok_store (h : KInv .none G s) (hp : Runs s p) (va : Nat) (b : UInt8) :
    (Op.store p va b).Ok s := by
  obtain ⟨hpt, -⟩ := h.runs hp
  have hroot := h.use_pagetable hp.1 hpt
  have hrun := Op.run_store (s := s) (p := p) va b
  by_cases hw : Writable s.mem (s.procs p).pagetable va
  · rw [if_pos hw] at hrun
    exact .inr ⟨_, G, hrun, { h with own := (h.own.storeUser (h.own.writable hroot hw) b).1 }⟩
  rw [if_neg hw] at hrun
  -- a process that the fault handler has killed, or that had been killed before, exits
  have hdead : ∀ {s1 G1}, storeFault p va s = .ok ((), s1) → (s1.procs p).killed = true →
      KInv .none G1 s1 → (s1.procs p).state ≠ .unused → (Op.store p va b).Ok s := by
    intro s1 G1 e hk h1 hl
    rw [bind_ok e] at hrun
    by_cases hi : p = s1.initproc
    · exact .inl ⟨_, hrun.trans (exitIfKilled_init hk hi), .inl rfl⟩
    · exact .inr ⟨_, G1, hrun.trans (exitIfKilled_killed hk hi), h1.exit hl (-1)⟩
  rcases storeFault_cases h hp.1 rfl hpt va with ⟨-, -, e⟩ | ⟨-, e⟩ |
    ⟨ret, s1, G1, -, hm, hcow, ho, hF, hc, e⟩
  · exact .inl ⟨_, by rw [hrun, bind_apply, e], .inr rfl⟩
  · exact hdead e (by simp) (h.kill hp.2.1) (by simpa using hp.2.1)
  · have h1 := hc.inv h hm ho hF
    have hl1 : (s1.procs p).state ≠ .unused := by
      rw [hF.procs]
      exact hp.2.1
    by_cases h0 : ret = 0
    · rw [if_pos h0] at e
      exact hdead e (by simp) (by have := h1.kill hl1; rwa [hF.procs] at this)
        (by simpa using hp.2.1)
    rw [if_neg h0] at e
    by_cases hk : (s1.procs p).killed = true
    · exact hdead e hk h1 hl1
    · refine .inr ⟨s1, G1, ?_, h1⟩
      rw [hrun, bind_ok e, exitIfKilled, getProc_bind, if_neg hk]
      rfl

/-- **Every operation of a reachable state runs through or stops the machine for one of two
reasons.** -/
theorem Op.ok (h : KInv .none G s) (o : Op) (he : o.Enabled s) : o.Ok s := by
  obtain ⟨hrun, hen⟩ := he
  cases o with
  | kalloc =>
    rcases kernAlloc_spec h with ⟨-, e⟩ | ⟨pa, s', G', e, h', -⟩
    exacts [.inr ⟨s, G, e, h⟩, .inr ⟨s', G', e, h'⟩]
  | kfree pa =>
    obtain ⟨s', G', e, h', -⟩ := kernFree_spec h hen
    exact .inr ⟨s', G', e, h'⟩
  | userinit =>
    obtain ⟨p, r, tf, s', G', e, h', -⟩ :=
      userinit_spec h rfl hen.2 ⟨0, by decide, hen.1 0 (by decide)⟩
    exact .inr ⟨s', G', e, h'⟩
  | fork p =>
    have hp := hrun p rfl
    obtain ⟨ret, s', G', e, h', -⟩ := fork_spec h rfl rfl hp.1 hp.2.1
    exact .inr ⟨s', G', ignore_ok e, h'⟩
  | exit p status =>
    by_cases hi : p = s.initproc
    · refine .inl ⟨.initExiting, ?_, .inl rfl⟩
      show Xv6.exit p status s = _
      rw [Xv6.exit, bind_ok (gets_apply _ s), if_pos hi]
      rfl
    · exact .inr ⟨_, G, exit_eq hi status, h.exit (hrun p rfl).2.1 status⟩
  | wait p addr =>
    have hp := hrun p rfl
    rcases wait_cases h rfl hp.1 hp.2.1 (fun _ _ _ => Finset.notMem_empty _) addr with
      ⟨ret, -, e⟩ | ⟨pp, ret, s1, G1, -, -, -, -, -, h1, ⟨-, e⟩ | ⟨s', G', -, e, h', -⟩⟩
    exacts [.inr ⟨s, G, ignore_ok e, h⟩, .inr ⟨s1, G1, ignore_ok e, h1⟩,
      .inr ⟨s', G', ignore_ok e, h'⟩]
  | sbrk p n =>
    have hp := hrun p rfl
    obtain ⟨ret, sz, s', G', e, h', -⟩ := growproc_spec h hp.1 hp.2.1 rfl (h.runs hp).1 n
    exact .inr ⟨s', G', ignore_ok e, h'⟩
  | exec p upath uargv namei =>
    have hp := hrun p rfl
    obtain ⟨ret, s', G', e, ⟨-, hR⟩ | ⟨c, sz, -, h', -⟩⟩ := sysExec_spec h rfl rfl hp.1
      (Set.notMem_empty p) hp.2.1 (fun _ => Finset.notMem_empty _) upath uargv namei
    exacts [.inr ⟨s', G', ignore_ok e, hR.inv⟩, .inr ⟨s', G', ignore_ok e, h'⟩]
  | copyout p dstva src =>
    have hp := hrun p rfl
    have hroot := h.use_pagetable hp.1 (h.runs hp).1
    obtain ⟨ret, s', G', e, hR⟩ := copyout_run dstva src h.own hroot
    refine .inr ⟨s', G', ?_, hR.inv h⟩
    show (getProc p >>= fun pr => ignore (Xv6.copyout pr.pagetable dstva src)) s = _
    rw [getProc_bind, ignore_ok e]
  | store p va b => exact ok_store h (hrun p rfl) va b
  | kill p => exact .inr ⟨_, G, rfl, h.kill hen.2.1⟩

end

/-! ## Runs -/

/-- One step of the machine. -/
theorem machine_step {G : Ghost} {s s' : KState} {o : Op} (h : KInv .none G s)
    (hs : machine.step s o s') : ∃ G', KInv .none G' s' := by
  obtain ⟨he, hr⟩ := hs
  rcases Op.ok h o he with ⟨e, hc, -⟩ | ⟨s1, G1, hr1, h1⟩
  · rw [hr] at hc
    exact absurd hc (by simp)
  · rw [hr] at hr1
    cases hr1
    exact ⟨G1, h1⟩

/-- **The invariant holds in every reachable state.** -/
theorem machine_inv {s : KState} (h : machine.Reach s) : ∃ G, KInv .none G s := by
  refine h.invariant (I := fun s => ∃ G, KInv .none G s) (fun s ⟨m, hm⟩ => ?_)
    fun s o s' _ ⟨G, hG⟩ hs => ?_
  · obtain ⟨s0, e, h0, -⟩ := kinit_spec m
    rw [hm] at e
    cases e
    exact ⟨_, h0⟩
  · exact machine_step hG hs

/-! ## The first process -/

/-- One process `p` runs, alone, with one private writable page at 0 that holds `initcode`. -/
structure Alone (G : Ghost) (s : KState) (p : Nat) : Prop where
  inv : KInv .none G s
  runs : Runs s p
  size : (s.procs p).sz = PGSIZE
  killed : (s.procs p).killed = false
  others : ∀ q, q ≠ p → s.procs q = {}
  write : (leaf s.mem (s.procs p).pagetable 0).has PTE_W = true
  user : (leaf s.mem (s.procs p).pagetable 0).has PTE_U = true
  plain : (leaf s.mem (s.procs p).pagetable 0).has PTE_RSW_COW = false
  bytes : ∀ o < 4096, s.mem (PTE2PA (leaf s.mem (s.procs p).pagetable 0) + o) = initcode.getD o 0
  lows : ∀ c q, G.use c = .low (s.procs p).pagetable q → q = 0 ∨ q = topLow

/-- **The machine comes up** when there are ten pages: `kinit`, then `userinit`. -/
theorem exists_alone (hmem : 10 ≤ (PHYSTOP - PGROUNDUP kend) / PGSIZE) :
    ∃ G s0 s p, machine.init s0 ∧ machine.step s0 .userinit s ∧ Alone G s p ∧
      (PHYSTOP - PGROUNDUP kend) / PGSIZE ≤ s.freelist.length + 9 := by
  obtain ⟨s0, e0, h0, hps0, -, -, hlen⟩ := kinit_spec fun _ => 0
  obtain ⟨p, r, tf, s, G, e, h, hp, -, hr, -, hps, -, hW, hU, hC, -, hB, hT, hf⟩ :=
    userinit_spec h0 rfl (by rwa [hlen]) ⟨0, by decide, by rw [hps0]⟩
  have hpp := (congrFun hps p).trans (update_self ..)
  refine ⟨G, s0, s, p, ⟨_, e0⟩, ⟨⟨nofun, fun q _ => by rw [hps0], by rwa [hlen]⟩, e⟩,
    ⟨h, ⟨hp, ?_⟩, ?_, ?_, fun q hq => ?_, ?_, ?_, ?_, ?_, ?_⟩, by omega⟩
  · rw [hpp]
    exact ⟨nofun, nofun⟩
  · rw [hpp]
  · rw [hpp]
  · rw [hps, update_of_ne hq, hps0]
  all_goals rw [hpp]
  · exact hW
  · exact hU
  · exact hC
  · exact hB
  · intro c q hc
    by_contra hq
    rw [not_or] at hq
    have hc0 := (hT.low_iff (by simp [hq.1, hq.2])).1 hc
    have hroot := h0.own.tables.low_root hc0
    rw [hr] at hroot
    cases hroot

/-! ## Growing, other kernel code, and `fork` -/

variable {G : Ghost} {s : KState} {p : Nat}

/-- **The first process grows** while there is memory. -/
theorem Alone.grow {n : Int} (ha : Alone G s p) (h : machine.Reach s)
    (hmem : 3 * (npages (grown PGSIZE n) - 1) < s.freelist.length) :
    ∃ s' G', growproc p n s = .ok (0, s') ∧ machine.Reach s' ∧ KInv .none G' s' ∧ Runs s' p ∧
      s'.procs = update s.procs p { s.procs p with sz := grown PGSIZE n } ∧
      View (userOf (s.procs p).pagetable (min 1 (npages (grown PGSIZE n)))) ∅ G G' s.mem s'.mem ∧
      Growth (lowsOf (s.procs p).pagetable 1 (npages (grown PGSIZE n))) G G' ∧
      (∀ v, 1 ≤ v → v < npages (grown PGSIZE n) → Fresh G' s' (s.procs p).pagetable v PTE_W) ∧
      (0 < n → s.freelist.length ≤ s'.freelist.length + 3 * (npages (grown PGSIZE n) - 1)) := by
  have hp := ha.runs
  obtain ⟨ret, sz, s', G', e, h', hps, -, -, hV, hT, hfresh, hres⟩ :=
    growproc_spec ha.inv hp.1 hp.2.1 rfl (ha.inv.runs hp).1 n
  rw [ha.size, npages_one] at hV hT hfresh hres
  obtain ⟨rfl, rfl, hf⟩ := hres.resolve_right fun ⟨_, hsz, hfew⟩ => by
    rw [hsz, npages_one, PGSIZE_eq] at hfew
    rw [PGSIZE_eq] at hmem
    omega
  refine ⟨s', G', e, .step (a := .sbrk p n) h ⟨⟨?_, trivial⟩, ignore_ok e⟩, h', ?_, hps,
    hV, hT, hfresh, hf⟩
  · rintro q ⟨⟩
    exact hp
  · unfold Runs
    rw [hps, update_self]
    exact hp

/-- **Other kernel code can take the free pages but `k`**, and no process notices. -/
theorem exists_drained {k : Nat} (h : machine.Reach s) (hG : KInv .none G s)
    (hk : k ≤ s.freelist.length) : ∃ s' G', machine.Reach s' ∧ KInv .none G' s' ∧
    s'.freelist.length = k ∧ s'.procs = s.procs ∧
      View ∅ ∅ G G' s.mem s'.mem := by
  obtain ⟨n, hn⟩ := Nat.exists_eq_add_of_le' hk
  induction n generalizing s G with
  | zero => exact ⟨s, G, h, hG, by omega, rfl, View.refl ..⟩
  | succ n ih =>
    rcases kernAlloc_spec hG with ⟨hnil, -⟩ | ⟨pa, s1, G1, e, h1, hps, -, -, -, hV, hl⟩
    · rw [hnil, List.length_nil] at hn
      omega
    · have hlen : s.freelist.length = s1.freelist.length + 1 := by rw [hl]; rfl
      obtain ⟨s', G', hr, h', hk', hps', hV'⟩ :=
        ih (.step (a := .kalloc) h ⟨⟨nofun, trivial⟩, e⟩) h1 (by omega) (by omega)
      exact ⟨s', G', hr, h', hk', hps'.trans hps, hV.trans hG.own.leaves hV'⟩

/-- **`fork` of a one-page process** when there are nine pages and a slot. -/
theorem exists_fork (h : machine.Reach s) (hG : KInv .none G s) (hp : Runs s p)
    (hsz : (s.procs p).sz = PGSIZE) (hmem : 8 < s.freelist.length)
    (hslot : ∃ q < NPROC, (s.procs q).state = .unused) :
    ∃ s' G' np b, machine.Reach s' ∧ KInv .none G' s' ∧ np < NPROC ∧ s.procs np = {} ∧
      s'.procs = update s.procs np b ∧ b.state = .runnable ∧ b.sz = PGSIZE ∧
      Forked (s.procs p).pagetable b.pagetable 1 G G' s.mem s'.mem ∧
      s.freelist.length ≤ s'.freelist.length + 8 := by
  obtain ⟨ret, s', G', e, h', -, -, ⟨-, -, -, j, hj, -, hfew | hfull⟩ |
    ⟨np, rn, tf, -, hnp, h0, -, hps, hF, -, hl⟩⟩ := fork_spec hG rfl rfl hp.1 hp.2.1
  · rw [hsz, npages_one] at hj
    omega
  · obtain ⟨q, hq, hu⟩ := hslot
    exact absurd hu (hfull q hq)
  · rw [hsz, npages_one] at hF hl
    refine ⟨s', G', np, _, .step (a := .fork p) h ⟨⟨?_, trivial⟩, ignore_ok e⟩, h', hnp, h0, hps,
      rfl, hsz, hF, hl⟩
    rintro q ⟨⟩
    exact hp

/-- There is a slot for a second process. -/
theorem Alone.slot (ha : Alone G s p) : ∃ q < NPROC, (s.procs q).state = .unused := by
  by_cases h0 : p = 0
  · exact ⟨1, by decide, by rw [ha.others 1 (by omega)]⟩
  · exact ⟨0, by decide, by rw [ha.others 0 (Ne.symm h0)]⟩

/-- The first process has forked, and its page is shared with the child. -/
structure Forks (G : Ghost) (s : KState) (p : Nat) : Prop where
  inv : KInv .none G s
  runs : Runs s p
  killed : (s.procs p).killed = false
  mem : s.freelist ≠ []
  size : (s.procs p).sz = PGSIZE
  ro : (leaf s.mem (s.procs p).pagetable 0).has PTE_W = false
  cow : (leaf s.mem (s.procs p).pagetable 0).has PTE_RSW_COW = true
  many : s.referCount (refIdx (PTE2PA (leaf s.mem (s.procs p).pagetable 0))) ≠ 1

theorem exists_forks (hmem : 20 ≤ (PHYSTOP - PGROUNDUP kend) / PGSIZE) :
    ∃ G s p, machine.Reach s ∧ Forks G s p := by
  obtain ⟨G0, sb, s0, p, hb, hs0, ha, hl0⟩ := exists_alone (by omega)
  obtain ⟨s, G, z, b, hr, hG, hz, hz0, hps, hst, hsz, hF, hl⟩ :=
    exists_fork (.step (.init hb) hs0) ha.inv ha.runs ha.size (by omega) ha.slot
  have hzp : z ≠ p := by
    rintro rfl
    exact ha.runs.2.1 (by rw [hz0])
  have ep : s.procs p = s0.procs p := by rw [hps, update_of_ne hzp.symm]
  have ez : s.procs z = b := by rw [hps, update_self]
  have hp : Runs s p := by
    unfold Runs
    rw [ep]
    exact ha.runs
  have hzr : Runs s z := ⟨hz, by rw [ez, hst]; simp, by rw [ez, hst]; simp⟩
  have hparent := hF.parent 0 (by decide)
  have hne := (hG.runs hp).1
  have hm : ((s.procs p).pagetable, 0) ∈ G.maps :=
    (hG.spans p hp.1 hne 0).2 (by rw [ep, ha.size]; decide)
  have hmz : ((s.procs z).pagetable, 0) ∈ G.maps :=
    (hG.spans z hz (hG.runs hzr).1 0).2 (by rw [ez, hsz]; decide)
  have hpage : IsPage (PTE2PA (leaf s0.mem (s0.procs p).pagetable 0)) := by
    have := hG.own.mapped hm
    rwa [ep, hparent, PTE2PA_cowMark] at this
  refine ⟨G, s, p, hr, ⟨hG, hp, by rw [ep]; exact ha.killed, ?_, by rw [ep]; exact ha.size, ?_, ?_,
    fun hone => ?_⟩⟩
  · intro hnil
    rw [hnil] at hl
    simp only [List.length_nil] at hl
    omega
  · rw [ep, hparent, cowMark_W]
  · rw [ep, hparent, cowMark_COW, ha.write, Bool.true_or]
  · -- the child maps the same page
    obtain ⟨e, -⟩ := hG.own.sole hm hone hmz (by
      rw [ez, ep, hparent, hF.child 0 (by decide), PTE2PA_cowMark, PTE2PA_childPte hpage])
    exact hzp (hG.inj z p hz hp.1 e (hG.runs hzr).1)

/-! ## No panic -/

/-- **No panic**: in every reachable state, an operation runs through unless `init` exits or the
kernel faults. -/
theorem no_panic {s : KState} {o : Op} (h : machine.Reach s) (he : o.Enabled s) :
    (∃ s', o.run s = .ok ((), s')) ∨ ∃ e, o.run s = .error e ∧ Stuck e := by
  obtain ⟨G, hG⟩ := machine_inv h
  rcases Op.ok hG o he with hs | ⟨s', -, e, -⟩
  exacts [.inr hs, .inl ⟨s', e⟩]

omit [Layout] in
/-- …for instance `copyout` to a page that the first process shares with its child. -/
theorem no_panic_copyout : ∃ s p, (@machine sampleLayout).Reach s ∧
    (leaf s.mem (s.procs p).pagetable 0).has PTE_RSW_COW = true ∧
    ((∃ s', @Op.run sampleLayout (.copyout p 0 [1]) s = .ok ((), s')) ∨
      ∃ e, @Op.run sampleLayout (.copyout p 0 [1]) s = .error e ∧ Stuck e) := by
  let _ : Layout := sampleLayout
  obtain ⟨G, s, p, hr, h⟩ := exists_forks (by decide)
  refine ⟨s, p, hr, h.cow, no_panic hr ⟨?_, trivial⟩⟩
  rintro q ⟨⟩
  exact h.runs

end Xv6
