import Xv6.Ipc.Pipe
import Xv6.Lib.Call
import Xv6.Vm.CopyOut

/-!
# Ipc/PipeRead — `piperead` and the memory of the reader

Each turn of the loop of `piperead` takes a byte out of the pipe and then copies it to the user.
Where the copy succeeds the two add up to a move of bytes from the front of the pipe to the buffer;
a byte whose copy fails has left the pipe all the same and is nowhere.
-/

namespace Xv6

open Act Bytes List

variable [Layout] {G G' G1 : Ghost} {s s' s1 : KState} {r v a n pa : Nat} {b : UInt8}

/-! ## Copies of one byte -/

/-- `copyout` of a byte to an address, where there is one to copy: that byte, or `none` if it
fails. -/
def copyByte (r : Nat) : Option (Nat × UInt8) → Kern (Option UInt8)
  | none => pure none
  | some (a, c) => do
    let ret ← copyout r a [c]
    pure (if ret = -1 then none else some c)

theorem CopyRun.nil {ret : Int} (h : CopyRun r G s a [] ret G' s') : ret = 0 ∧ G' = G ∧ s' = s := by
  cases h with
  | done => exact ⟨rfl, rfl, rfl⟩
  | stop hne | full hne | page hne => exact absurd rfl hne

omit [Layout] in
theorem drop_chunk : [b].drop (chunk a [b]) = [] := drop_eq_nil_of_le (by
  unfold chunk
  rw [length_singleton]
  omega)

/-- A copy to a page that is not copy-on-write leaves its entry as it is. -/
theorem CopyRun.leaf_plain {ret : Int} (h : CopyRun r G s a [b] ret G' s')
    (hp : (leaf s.mem r (a / 4096)).has PTE_RSW_COW = false) :
    leaf s'.mem r (a / 4096) = leaf s.mem r (a / 4096) := by
  cases h with
  | stop => rfl
  | full _ _ _ need => exact absurd need.1 (by simp [hp])
  | page _ map _ opened _ rest =>
    rw [drop_chunk] at rest
    obtain ⟨-, -, rfl⟩ := rest.nil
    have hstore := (opened.store a [b] (X := ∅) map).2
    obtain ⟨rfl, rfl⟩ := opened.plain hp
    exact hstore.leaf_map opened.own map (Set.notMem_empty _)

/-- A byte can be copied to address `a`: user mode has access to it, and there is a page for the
copy if one has to be made. -/
def CanCopy (s : KState) (r a : Nat) : Prop :=
  userPa s.mem r (4096 * (a / 4096)) ≠ 0 ∧ (NeedsCopy s r (a / 4096) → s.freelist ≠ [])

/-- **A copy of one byte succeeds just when it can be made.** -/
theorem CopyRun.one_iff {ret : Int} (h : CopyRun r G s a [b] ret G' s') (ho : Own G s)
    (hr : G.use r = .root) : ret ≠ -1 ↔ CanCopy s r a := by
  cases h with
  | stop _ no => exact iff_of_false (fun hc => hc rfl) fun hc => hc.1 no
  | full _ _ _ need empty => exact iff_of_false (fun hc => hc rfl) fun hc => hc.2 need empty
  | page _ map user _ memory rest =>
    rw [drop_chunk] at rest
    rw [rest.nil.1]
    refine iff_of_true (by decide) ⟨(ho.userPa_ne hr).2 ?_, memory⟩
    rw [Nat.mul_div_cancel_left _ (by decide)]
    exact ⟨map, user⟩

theorem copyByte_run (ho : Own G s) (hr : G.use r = .root) (a : Nat) (c : UInt8) :
    ∃ ret s' G', copyByte r (some (a, c)) s = .ok (if ret = -1 then none else some c, s') ∧
      CopyRun r G s a [c] ret G' s' := by
  obtain ⟨ret, s', G', e, hR⟩ := copyout_run a [c] ho hr
  exact ⟨ret, s', G', by rw [copyByte, bind_ok e]; rfl, hR⟩

/-! ## What happens elsewhere -/

variable {G2 : Ghost} {s2 : KState} {R R' : Set Nat}

/-- **Table `r` has its mappings, and the bytes outside `R` are as before**; whatever else has
happened. -/
structure UserKept (r : Nat) (R : Set Nat) (G G' : Ghost) (s s' : KState) : Prop where
  own : Own G' s'
  root : G'.use r = .root
  maps : ∀ v, (r, v) ∈ G'.maps ↔ (r, v) ∈ G.maps
  bytes : ∀ va, (r, va / 4096) ∈ G.maps → va ∉ R → byteAt s'.mem r va = byteAt s.mem r va

theorem Edited.userKept (h : Edited r R G G1 s s1) (hr : G.use r = .root) :
    UserKept r R G G1 s s1 :=
  ⟨h.own, h.root hr, fun _ => by rw [h.maps], h.bytes⟩

theorem UserKept.refl (h : Own G s) (hr : G.use r = .root) : UserKept r R G G s s :=
  ⟨h, hr, fun _ => Iff.rfl, fun _ _ _ => rfl⟩

theorem UserKept.mono (h : UserKept r R G G1 s s1) (hR : R ⊆ R') : UserKept r R' G G1 s s1 :=
  { h with bytes := fun va hm hx => h.bytes va hm fun hc => hx (hR hc) }

theorem UserKept.trans (h : UserKept r R G G1 s s1) (h' : UserKept r R' G1 G2 s1 s2) (hR : R' ⊆ R) :
    UserKept r R G G2 s s2 where
  own := h'.own
  root := h'.root
  maps v := (h'.maps v).trans (h.maps v)
  bytes va hm hx := (h'.bytes va ((h.maps _).2 hm) fun hc => hx (hR hc)).trans (h.bytes va hm hx)

/-- Other processes, on other CPUs or while this one sleeps, leave its memory alone.  The free
pages, and how often its own are shared, may be different afterwards. -/
def Elsewhere (r : Nat) (s s' : KState) : Prop := ∀ G, Own G s → G.use r = .root → ∃ G',
    UserKept r ∅ G G' s s'

theorem Elsewhere.refl : Elsewhere r s s := fun G ho hr => ⟨G, .refl ho hr⟩

namespace Pipe

/-! ## The turns of `piperead` on user memory -/

/-- The byte that a turn is to copy, and where to. -/
def want (addr : Nat) (x : State) : Point → Option (Nat × UInt8)
  | .copy n i =>
    if i < n ∧ ¬x.empty then some (((addr + i) % 2 ^ 64).toNat, x.data (x.nread % PIPESIZE)) else
      none
  | _ => none

/-- A turn of a process with page table `r`, which reads to `addr`. -/
def turnAt (r addr : Nat) (b : Point) (x : State) (k : KState) (y : State × Code Point Chan)
    (k' : KState) : Prop :=
  ∃ killed user, copyByte r (want addr x b) k = .ok (user, k') ∧ y = body x killed user b

/-- …and what has happened elsewhere by the time it copies. -/
def userTurn (r addr : Nat) (b : Point) (x : State) (k : KState) (y : State × Code Point Chan)
    (k' : KState) : Prop :=
  ∃ k1, Elsewhere r k k1 ∧ turnAt r addr b x k1 y k'

/-- A turn whose copy, if it makes one, can be made. -/
def deliveringTurn (r addr : Nat) (b : Point) (x : State) (k : KState)
    (y : State × Code Point Chan) (k' : KState) :
    Prop :=
  ∃ k1, Elsewhere r k k1 ∧ turnAt r addr b x k1 y k' ∧ ∀ a c,
    want addr x b = some (a, c) → CanCopy k1 r a

/-- **`piperead(pi, addr, n)`**, with the lock: it returns `ret` and leaves the pipe and the memory
as `x'` and `k'`. -/
def Piperead (r addr : Nat) (others : State → KState → State → KState → Prop) (n : Int) (x : State)
    (k : KState) (ret : Int) (x' : State) (k' : KState) : Prop :=
  Call (userTurn r addr) others (.body (.read n)) x k ret x' k'

/-- **…each of whose copies can be made.** -/
def Delivers (r addr : Nat) (others : State → KState → State → KState → Prop) (n : Int) (x : State)
    (k : KState) (ret : Int) (x' : State) (k' : KState) : Prop :=
  Call (deliveringTurn r addr) others (.body (.read n)) x k ret x' k'

theorem deliveringTurn.userTurn {r addr : Nat} {b : Point} {x : State} {k k' : KState}
    {y : State × Code Point Chan} (h : deliveringTurn r addr b x k y k') :
    userTurn r addr b x k y k' := by
  obtain ⟨k1, hel, ht, -⟩ := h
  exact ⟨k1, hel, ht⟩

variable {N : Nat} {ps : Sys} {x x' : State} {k k' : KState} {l : List UInt8} {p addr : Nat}
  {ret n : Int} {others : State → KState → State → KState → Prop}

/-- The ring of a pipe holds `l`. -/
def Holds (x : State) (l : List UInt8) : Prop := Queue UINT PIPESIZE x.data x.nread x.nwrite l

omit [Layout] in
theorem Holds.pending (h : Holds x l) : x.pending = l := by
  rw [State.pending, h.length_eq PIPESIZE_lt, ← h.eq_map]

omit [Layout] in
theorem Holds.empty_iff (h : Holds x l) : x.empty ↔ l = [] := h.eq_iff PIPESIZE_lt

omit [Layout] in
/-- **A step keeps the ring in order**, whether copies fail or not. -/
theorem Holds.body (h : Holds x l) (killed : Bool) (user : Option UInt8) (b : Point) :
    ∃ l', Holds (body x killed user b).1 l' := by
  cases b with
  | writeFull n i =>
    simp only [Pipe.body]
    split
    · exact ⟨l, h⟩
    next hroom =>
      cases user with
      | none => exact ⟨l, h⟩
      | some ch =>
        have hlt : l.length < PIPESIZE :=
          Nat.lt_of_le_of_ne h.fits fun hl => hroom ((h.full_iff PIPESIZE_lt).2 hl)
        exact ⟨l ++ [ch], (h.set_free PIPESIZE_dvd hlt ch).push hlt (Function.update_self ..)⟩
  | copy n i =>
    rw [Pipe.body]
    split
    next hc =>
      cases l with
      | nil => exact absurd (h.empty_iff.2 rfl) hc.2
      | cons _ l => exact ⟨l, h.pop.2⟩
    next => exact ⟨l, h⟩
  | close writable => cases writable <;> exact ⟨l, h⟩
  | write | writeKilled | read | readKilled | closeFree => exact ⟨l, h⟩

omit [Layout] in
theorem exists_holds (h : (system N).Reach ps) : ∃ l, Holds ps.obj l := by
  refine h.invariant (I := fun s : Sys => ∃ l, Holds s.obj l) ?_ fun s _ s' _ ⟨l, hl⟩ hs => ?_
  · rintro _ ⟨_, ⟨data, rfl⟩, rfl⟩
    exact ⟨[], .empty (Nat.two_pow_pos 32)⟩
  · rcases Monitor.exec_obj hs with e | ⟨p, a, b, -, -, e⟩ | ⟨p, f, -, e⟩
    · exact ⟨l, e ▸ hl⟩
    · rw [e]
      exact hl.body _ a b
    · exact ⟨l, e ▸ hl⟩

/-- A turn that has nothing left to copy ends the loop. -/
theorem turn_end {r : Nat} {i : Int} (h : ¬ (i < n ∧ ¬x.empty)) :
    deliveringTurn r addr (.copy n i) x k (x, readEnd i) k := by
  have hw : want addr x (.copy n i) = none := by rw [want, if_neg h]
  refine ⟨k, .refl, ⟨false, none, by rw [hw]; rfl, by rw [body, if_neg h]⟩, fun a c hac => ?_⟩
  rw [hw] at hac
  cases hac

/-- **The loop of `piperead` returns**, whatever becomes of its copies. -/
theorem exists_copies {r : Nat} (addr : Nat) (others : State → KState → State → KState → Prop)
    (ho : Own G k) (hr : G.use r = .root) (n i : Int) (x : State) :
    ∃ ret x' k', Call (userTurn r addr) others (.body (.copy n i)) x k ret x' k' := by
  generalize hd : (n - i).toNat = d
  induction d generalizing i x k G with
  | zero =>
    have hcond : ¬ (i < n ∧ ¬x.empty) := fun hc => by omega
    exact ⟨i, x, k, .body (turn_end hcond).userTurn (.wakeup .release)⟩
  | succ d ih =>
    by_cases hcond : i < n ∧ ¬x.empty
    · obtain ⟨ret, k1, G1, e, hR⟩ :=
        copyByte_run ho hr ((addr + i) % 2 ^ 64).toNat (x.data (x.nread % PIPESIZE))
      have hE := hR.edited ho
      have hturn : userTurn r addr (.copy n i) x k _ k1 :=
        ⟨k, .refl, false, _, by rw [want, if_pos hcond]; exact e, rfl⟩
      rw [body, if_pos hcond] at hturn
      by_cases hret : ret = -1
      · rw [if_pos hret] at hturn
        exact ⟨i, _, k1, .body hturn (.wakeup .release)⟩
      · rw [if_neg hret] at hturn
        obtain ⟨v, x', k', hrest⟩ := ih hE.own (hE.root hr) (i + 1) (x.take true) (by omega)
        exact ⟨v, x', k', .body hturn hrest⟩
    · exact ⟨i, x, k, .body (turn_end hcond).userTurn (.wakeup .release)⟩

theorem exists_piperead {r : Nat} (addr : Nat) (others : State → KState → State → KState → Prop)
    (ho : Own G k) (hr : G.use r = .root) (n : Int) (hgo : ¬ (x.empty ∧ x.writeopen = true)) :
    ∃ ret x' k', Piperead r addr others n x k ret x' k' := by
  obtain ⟨ret, x', k', h⟩ := exists_copies addr others ho hr n 0 x
  refine ⟨ret, x', k', .body (y := (x, .body (.copy n 0))) ⟨k, .refl, false, none, rfl, ?_⟩ h⟩
  rw [body, if_neg hgo]

/-- What `piperead` has moved after `j` turns. -/
structure Moved (r addr : Nat) (l : List UInt8) (G : Ghost) (k₀ : KState) (j : Nat) (x : State)
    (k : KState) : Prop where
  le : j ≤ l.length
  lt : addr + j < 2 ^ 64
  holds : Holds x (l.drop j)
  mapped : ∀ i < j, (r, (addr + i) / 4096) ∈ G.maps
  kept : ∃ G', UserKept r (span addr j) G G' k₀ k
  stored : userTake k.mem r addr j = l.take j

/-- **One turn more**: the byte that was next is gone from the pipe, and if it could be copied out
it has been. -/
theorem Moved.turn {r j : Nat} {k1 k2 : KState} {user : Option UInt8}
    (h : Moved r addr l G k j x k') (hel : Elsewhere r k' k1) (hne : ¬ x.empty)
    (e : copyByte r (some (((addr + (j : Int)) % 2 ^ 64).toNat, x.data (x.nread % PIPESIZE))) k1 =
      .ok (user, k2)) :
    j < l.length ∧ Holds (x.take user.isSome) (l.drop (j + 1)) ∧
      (user.isSome = true ↔ CanCopy k1 r ((addr + (j : Int)) % 2 ^ 64).toNat) ∧
      (user.isSome = true → Moved r addr l G k (j + 1) (x.take true) k2) := by
  obtain ⟨G0, h0⟩ := h.kept
  obtain ⟨G1, h1⟩ := hel G0 h0.own h0.root
  have haddr : ((addr + (j : Int)) % 2 ^ 64).toNat = addr + j := by
    have := h.lt
    omega
  rw [haddr] at e ⊢
  have hj : j < l.length := by
    by_contra hc
    exact hne (h.holds.empty_iff.2 (drop_eq_nil_of_le (by omega)))
  have hholds := h.holds
  rw [drop_eq_getElem_cons hj] at hholds
  obtain ⟨hb, hpop⟩ := hholds.pop
  rw [hb] at e
  obtain ⟨ret, k3, G2, e', hR⟩ := copyByte_run h1.own h1.root (addr + j) l[j]
  obtain ⟨rfl, rfl⟩ := ok_inj (e'.symm.trans e)
  have hiff : (if ret = -1 then none else some l[j]).isSome = true ↔ ret ≠ -1 := by
    split <;> simp_all
  refine ⟨hj, hpop, hiff.trans (hR.one_iff h1.own h1.root), fun hs => ?_⟩
  have hret : ret = 0 := hR.ret_cases.resolve_right (hiff.1 hs)
  obtain ⟨hm, -, hbyte⟩ := hR.bytes h1.own hret (i := 0) Nat.zero_lt_one
  have hnew : (r, (addr + j) / 4096) ∈ G.maps := (h0.maps _).1 ((h1.maps _).1 hm)
  have hmax := h1.own.leaves.map_lt r _ hm
  have h2 := (hR.edited h1.own).userKept h1.root
  refine ⟨hj, by omega, hpop, fun i hi => ?_, ⟨G2, ?_⟩, ?_⟩
  · rcases Nat.lt_succ_iff_lt_or_eq.1 hi with hi | rfl
    exacts [h.mapped i hi, hnew]
  · refine ((h0.trans h1 (Set.empty_subset _)).mono ?_).trans h2 ?_ <;> rintro a ⟨ha1, ha2⟩
    · exact ⟨ha1, by omega⟩
    · exact ⟨by omega, by rw [length_singleton] at ha2; omega⟩
  · -- what was there stays, and the new byte comes behind it
    have hold : userTake k3.mem r addr j = userTake k'.mem r addr j := map_congr_left fun i hi => by
      have hi := mem_range.1 hi
      have hmi := (h0.maps _).2 (h.mapped i hi)
      refine (h2.bytes _ ((h1.maps _).2 hmi) fun hx => ?_).trans
        (h1.bytes _ hmi (Set.notMem_empty _))
      have := hx.1
      omega
    rw [userTake_add, hold, h.stored, userTake_one, take_succ_eq_append_getElem hj]
    exact congrArg (fun b => l.take j ++ [b]) hbyte

/-- The `i` bytes returned are those at the front of the pipe, and the others are still in it. -/
def Exact (r addr : Nat) (l : List UInt8) (ret : Int) (x' : State) (k' : KState) : Prop :=
  ∃ i : Nat, ret = i ∧ l = l.take i ++ x'.pending ∧ userTake k'.mem r addr i = l.take i

theorem Moved.exact {r j : Nat} (h : Moved r addr l G k j x k') : Exact r addr l j x k' :=
  ⟨j, rfl, by rw [h.holds.pending, take_append_drop], h.stored⟩

/-- The points of a call that does not have to wait, with what has been moved so far. -/
def Moving (r addr : Nat) (l : List UInt8) (G : Ghost) (n : Int) (x₀ : State) (k₀ : KState)
    (b : Point) (x : State) (k : KState) : Prop :=
  b = .read n ∧ x = x₀ ∧ k = k₀ ∨ ∃ j : Nat, b = .copy n j ∧ Moved r addr l G k₀ j x k

/-- **One turn of a call**: it goes on, or returns what it has moved, or its copy cannot be made and
it returns after the byte has been taken. -/
theorem Moving.turn {r : Nat} {x₀ : State} {k₀ k1 k2 : KState} {b : Point}
    {y : State × Code Point Chan} (h : Moving r addr l G n x₀ k₀ b x k) (ho : Own G k₀)
    (hr : G.use r = .root) (ha : addr < 2 ^ 64) (hl : Holds x₀ l)
    (hgo : ¬ (x₀.empty ∧ x₀.writeopen = true)) (hel : Elsewhere r k k1)
    (ht : turnAt r addr b x k1 y k2) : (∀ a c, want addr x b = some (a, c) → CanCopy k1 r a) ∧
      ((∃ b', y.2 = .body b' ∧ Moving r addr l G n x₀ k₀ b' y.1 k2) ∨
        ∃ j : Nat, y.2 = readEnd j ∧ Exact r addr l j y.1 k2) ∨
    ∃ j : Nat, j < l.length ∧ y.2 = readEnd j ∧ y.1.pending = l.drop (j + 1) ∧
      ¬ ∀ a c, want addr x b = some (a, c) → CanCopy k1 r a := by
  obtain ⟨killed, user, e, rfl⟩ := ht
  rcases h with ⟨rfl, rfl, rfl⟩ | ⟨j, rfl, hm⟩
  · -- there is no need to wait
    obtain ⟨-, rfl⟩ := ok_inj e
    obtain ⟨G1, h1⟩ := hel G ho hr
    refine .inl ⟨fun a c hw => (by cases hw), ?_⟩
    rw [body, if_neg hgo]
    exact .inl ⟨_, rfl, .inr ⟨0, rfl, Nat.zero_le _, ha, hl, by simp,
      ⟨G1, h1.mono (Set.empty_subset _)⟩, rfl⟩⟩
  have hw : want addr x (.copy n j) = if (j : Int) < n ∧ ¬x.empty then _ else none := rfl
  rw [hw] at e ⊢
  by_cases hcond : (j : Int) < n ∧ ¬x.empty
  · rw [if_pos hcond] at e ⊢
    obtain ⟨hj, hpop, hiff, hmoved⟩ := hm.turn hel hcond.2 e
    rw [body, if_pos hcond]
    cases hu : user.isSome with
    | true =>
      rw [hu] at hiff hmoved
      refine .inl ⟨fun a c hac => ?_, .inl ⟨_, rfl, .inr ⟨j + 1, rfl, hmoved rfl⟩⟩⟩
      obtain ⟨rfl, -⟩ := Prod.mk.inj (Option.some.inj hac)
      exact hiff.1 rfl
    | false =>
      rw [hu] at hiff hpop
      exact .inr ⟨j, hj, rfl, hpop.pending, fun hc => Bool.false_ne_true (hiff.2 (hc _ _ rfl))⟩
  · rw [if_neg hcond] at e ⊢
    obtain ⟨-, rfl⟩ := ok_inj e
    obtain ⟨G0, h0⟩ := hm.kept
    obtain ⟨G1, h1⟩ := hel G0 h0.own h0.root
    refine .inl ⟨fun a c hac => (by cases hac), ?_⟩
    rw [body, if_neg hcond]
    refine .inr ⟨j, rfl, Moved.exact ⟨hm.le, hm.lt, hm.holds, hm.mapped,
      ⟨G1, h0.trans h1 (Set.empty_subset _)⟩, ?_⟩⟩
    rw [← hm.stored]
    exact map_congr_left fun i hi =>
      h1.bytes _ ((h0.maps _).2 (hm.mapped i (mem_range.1 hi))) (Set.notMem_empty _)

/-- **A read loses nothing just when it can copy out what it takes**: `piperead`, once it does not
have to wait, returns the number of bytes it has moved from the front of the pipe to the buffer,
with the others still in the pipe, if and only if at each of its copies user mode has access to the
address, and there is a free page if the copy needs one. -/
theorem piperead_exact (hx : (system N).Reach ps) (hk : machine.Reach k) (hp : Runs k p)
    (ha : addr < 2 ^ 64) (hgo : ¬ (ps.obj.empty ∧ ps.obj.writeopen = true))
    (h : Piperead (k.procs p).pagetable addr others n ps.obj k ret x' k') :
    (∃ i : Nat, ret = i ∧ ps.obj.pending = ps.obj.pending.take i ++ x'.pending ∧
      userTake k'.mem (k.procs p).pagetable addr i = ps.obj.pending.take i) ↔
    Delivers (k.procs p).pagetable addr others n ps.obj k ret x' k' := by
  obtain ⟨G, hG⟩ := machine_inv hk
  obtain ⟨l, hl⟩ := exists_holds hx
  have hroot := hG.use_pagetable hp.1 (hG.runs hp).1
  rw [hl.pending]
  generalize (k.procs p).pagetable = r at *
  have hturn : ∀ {b x k1 k2 k3 y}, Moving r addr l G n ps.obj k b x k1 → Elsewhere r k1 k2 →
      turnAt r addr b x k2 y k3 → _ := fun hm => hm.turn hG.own hroot ha hl hgo
  constructor
  · -- a run is delivering up to the point it has reached, or has lost a byte
    intro hexact
    have hres := h.rule (I := fun b x k1 => Moving r addr l G n ps.obj k b x k1 ∧ ∀ ret x' k',
        Call (deliveringTurn r addr) others (.body b) x k1 ret x' k' → Delivers r addr others n
        ps.obj k ret x' k')
      (J := fun _ _ _ => False)
      (R := fun ret x' k' => Delivers r addr others n ps.obj k ret x' k' ∨
        ∃ j : Nat, j < l.length ∧ ret = j ∧ x'.pending = l.drop (j + 1))
      ⟨.inl ⟨rfl, rfl, rfl⟩, fun _ _ _ hd => hd⟩ ?_ fun _ _ _ _ _ => False.elim
    · obtain ⟨i, rfl, hpend, -⟩ := hexact
      refine hres.resolve_right ?_
      rintro ⟨j, hj, hij, hdrop⟩
      obtain rfl : i = j := by omega
      have := congrArg length hpend
      rw [hdrop, length_append, List.length_take, length_drop] at this
      omega
    · rintro b x k1 y k2 ⟨hm, hd⟩ ⟨k3, hel, ht⟩
      rcases hturn hm hel ht with ⟨hcan, ⟨b', hb', hm'⟩ | ⟨j, hend, -⟩⟩ | ⟨j, hj, hend, hpend, -⟩
      · rw [hb']
        exact ⟨hm', fun ret x' k' hc => hd ret x' k' (.body ⟨k3, hel, ht, hcan⟩ (hb' ▸ hc))⟩
      · rw [hend]
        exact .inl (hd j y.1 k2 (.body ⟨k3, hel, ht, hcan⟩ (hend ▸ .wakeup .release)))
      · rw [hend]
        exact .inr ⟨j, hj, rfl, hpend⟩
  · intro hd
    refine Call.rule (I := Moving r addr l G n ps.obj k) (J := fun _ _ _ => False)
      (R := Exact r addr l) hd (.inl ⟨rfl, rfl, rfl⟩) ?_ fun _ _ _ _ _ => False.elim
    rintro b x k1 y k2 hm ⟨k3, hel, ht, hcan⟩
    rcases hturn hm hel ht with ⟨-, ⟨b', hb', hm'⟩ | ⟨j, hend, hex⟩⟩ | ⟨j, -, -, -, hno⟩
    · rw [hb']
      exact hm'
    · rw [hend]
      exact hex
    · exact absurd hcan hno

omit [Layout] in
/-- A pipe that somebody has written to. -/
theorem exists_written {l : List Label} {b : List UInt8}
    (h : (LTS.play (monitor.exec 1) (.start (pipealloc fun _ => 0)) l).any
      (·.obj.pending == b) = true) :
    ∃ ps : Sys, (system 1).Reach ps ∧ ps.obj.pending = b := by
  have h0 : (system 1).Reach (.start (pipealloc fun _ => 0)) := .init ⟨_, ⟨_, rfl⟩, rfl⟩
  obtain ⟨ps, hps, hP⟩ := h0.play_any (fun _ _ _ e => e) h
  exact ⟨ps, hps, eq_of_beq hP⟩

/-- A turn that copies to a page that is not copy-on-write. -/
theorem exists_delivered {r : Nat} {i : Int} (ho : Own G k) (hr : G.use r = .root)
    (hcond : i < n ∧ ¬x.empty) (ha : addr + i = a) (hacc : userPa k.mem r (4096 * (a / 4096)) ≠ 0)
    (hlt : a < 2 ^ 64) (hplain : (leaf k.mem r (a / 4096)).has PTE_RSW_COW = false) :
    ∃ k' G', deliveringTurn r addr (.copy n i) x k (x.take true, .body (.copy n (i + 1))) k' ∧
      Edited r (span a 1) G G' k k' ∧ leaf k'.mem r (a / 4096) = leaf k.mem r (a / 4096) := by
  have hcan : CanCopy k r a := ⟨hacc, fun hn => absurd hn.1 (by simp [hplain])⟩
  obtain ⟨ret, k', G', e, hR⟩ := copyByte_run ho hr a (x.data (x.nread % PIPESIZE))
  rw [if_neg ((hR.one_iff ho hr).2 hcan)] at e
  have haddr : ((addr + i) % 2 ^ 64).toNat = a := by omega
  have hw : want addr x (.copy n i) = some (a, x.data (x.nread % PIPESIZE)) := by
    rw [want, if_pos hcond, haddr]
  refine ⟨k', G', ⟨k, .refl, ⟨false, _, by rw [hw]; exact e, ?_⟩, fun a' c hac => ?_⟩, hR.edited ho,
    hR.leaf_plain hplain⟩
  · rw [body, if_pos hcond]
    rfl
  · rw [hw] at hac
    obtain ⟨rfl, -⟩ := Prod.mk.inj (Option.some.inj hac)
    exact hcan

omit [Layout] in
/-- …for instance two bytes of three to the page of the first process. -/
theorem piperead_exact_two : ∃ (ps : Sys) (k k' : KState) (p : Nat) (x' : State),
    (system 1).Reach ps ∧ (@machine sampleLayout).Reach k ∧ ps.obj.pending = [7, 8, 9] ∧
    @Piperead sampleLayout (k.procs p).pagetable 0 (fun _ _ _ _ => False) 2 ps.obj k 2 x' k' ∧
    x'.pending = [9] ∧ userTake k'.mem (k.procs p).pagetable 0 2 = [7, 8] := by
  let _ : Layout := sampleLayout
  obtain ⟨ps, hps, hthree⟩ := exists_written (b := [7, 8, 9])
    (l := .call 0 (.pipewrite 3) :: steps 0 4 7 ++ steps 0 3 8 ++ steps 0 3 9) (by decide +kernel)
  obtain ⟨G, _, k, p, h0, hs, ha, -⟩ := exists_alone (by decide)
  have hroot := ha.inv.use_pagetable ha.runs.1 (ha.inv.runs ha.runs).1
  obtain ⟨l, hl⟩ := exists_holds hps
  obtain rfl := hl.pending.symm.trans hthree
  have hne : ∀ {x : State} {b : UInt8} {l : List UInt8}, Holds x (b :: l) → ¬ x.empty :=
    fun hx hc => by
    cases hx.empty_iff.1 hc
  have hl1 : Holds (ps.obj.take true) [8, 9] := hl.pop.2
  have hl2 : Holds ((ps.obj.take true).take true) [9] := hl1.pop.2
  have hgo : ¬ (ps.obj.empty ∧ ps.obj.writeopen = true) := fun hc => hne hl hc.1
  have hacc : Accessible k.mem (k.procs p).pagetable 0 2 := ha.accessible (by decide)
  obtain ⟨k1, G1, ht1, hE, hleaf⟩ := exists_delivered (n := 2) ha.inv.own hroot
    ⟨by decide, hne hl⟩ (show ((0 : Nat) : Int) + 0 = (0 : Nat) from rfl) (hacc 0 (by decide))
    (by decide) ha.plain
  obtain ⟨k2, -, ht2, -⟩ := exists_delivered (n := 2) hE.own (hE.root hroot)
    ⟨by decide, hne hl1⟩ (show ((0 : Nat) : Int) + 1 = (1 : Nat) from rfl)
    ((hE.access ha.inv.own hroot _).2 (hacc 0 (by decide))) (by decide) (hleaf.symm ▸ ha.plain)
  have hread : deliveringTurn (k.procs p).pagetable 0 (.read 2) ps.obj k
      (ps.obj, .body (.copy 2 0)) k :=
    ⟨k, .refl, ⟨false, none, rfl, by rw [body, if_neg hgo]⟩, fun a c hac => (by cases hac)⟩
  have hd : Delivers (k.procs p).pagetable 0 (fun _ _ _ _ => False) 2 ps.obj k 2
      ((ps.obj.take true).take true) k2 :=
    .body hread
      (.body ht1 (.body ht2 (.body (turn_end fun hc => absurd hc.1 (by decide))
        (.wakeup .release))))
  have hk : machine.Reach k := .step (.init h0) hs
  have hp := hd.mono fun _ _ _ _ _ => deliveringTurn.userTurn
  obtain ⟨i, hi, -, hstored⟩ := (piperead_exact hps hk ha.runs (by decide) hgo hp).2 hd
  obtain rfl : i = 2 := by omega
  rw [hthree] at hstored
  exact ⟨ps, k, k2, p, _, hps, hk, hthree, hp, hl2.pending, hstored⟩

omit [Layout] in
/-- **A byte is lost when it cannot be copied out**: `piperead` to an address without access returns
0 and the pipe is empty. -/
theorem piperead_loses : ∃ (ps : Sys) (k k' : KState) (p : Nat) (x' : State), (system 1).Reach ps ∧
    (@machine sampleLayout).Reach k ∧ Runs k p ∧ ps.obj.pending = [7] ∧
    @Piperead sampleLayout (k.procs p).pagetable MAXVA (fun _ _ _ _ => False) 1 ps.obj k 0 x' k' ∧
    x'.pending = [] := by
  let _ : Layout := sampleLayout
  obtain ⟨ps, hps, hone⟩ :=
    exists_written (b := [7]) (l := .call 0 (.pipewrite 1) :: steps 0 4 7) (by decide +kernel)
  obtain ⟨G, _, k, p, h0, hs, ha, -⟩ := exists_alone (by decide)
  have hroot := ha.inv.use_pagetable ha.runs.1 (ha.inv.runs ha.runs).1
  obtain ⟨l, hl⟩ := exists_holds hps
  obtain rfl := hl.pending.symm.trans hone
  have hfull : ¬ ps.obj.empty := fun hc => by cases hl.empty_iff.1 hc
  obtain ⟨ret, k', G', e, hR⟩ :=
    copyByte_run ha.inv.own hroot MAXVA (ps.obj.data (ps.obj.nread % PIPESIZE))
  have hret : ret = -1 := hR.ret_cases.resolve_left fun hz => by
    have hU := (ha.inv.own.userPa_ne hroot).2
      ((hR.bytes ha.inv.own hz (i := 0) (by simp)).imp_right And.left)
    exact absurd (userMapped_iff.2 hU).1 (by decide)
  rw [hret, if_pos rfl] at e
  have hcond : (0 : Int) < 1 ∧ ¬ ps.obj.empty := ⟨by decide, hfull⟩
  refine ⟨ps, k, k', p, ps.obj.take false, hps, .step (.init h0) hs, ha.runs, hone, ?_,
    Holds.pending hl.pop.2⟩
  refine .body (y := (ps.obj, .body (.copy 1 0))) ⟨k, .refl, false, none, rfl, ?_⟩
    (.body (y := (ps.obj.take false, readEnd 0)) ⟨k, .refl, false, none, ?_, ?_⟩ (.wakeup .release))
  · rw [body, if_neg fun hc => hfull hc.1]
  · rw [want, if_pos hcond]
    exact e
  · rw [body, if_pos hcond]
    rfl

end Pipe

end Xv6
