import Xv6.Vm.Account

/-!
# Vm/CopyIn — user memory as the kernel reads and writes it

`copyin`, `copyinstr` and `copyout` go through a range page by page.  What they come to is said byte
by byte: which addresses user mode has access to (`Accessible`), which byte is at each (`byteAt`),
and what a copy makes of both.  Every address is below `MAXVA` once its page has been found, so the
64-bit sums of the loops do not wrap, and a range that does wrap holds an address without access.
-/

namespace Xv6

open Act Bytes List

variable {m m' : Nat → UInt8} {r va n a b : Nat}

/-! ## Ranges of user memory -/

/-- The byte at user address `va`. -/
def byteAt (m : Nat → UInt8) (r va : Nat) : UInt8 := m (userAddr m r va)

/-- The `n` bytes from user address `va` on. -/
def userTake (m : Nat → UInt8) (r va n : Nat) : List UInt8 :=
  (List.range n).map fun i => byteAt m r (va + i)

/-- User mode has access to the `n` addresses from `va` on. -/
def Accessible (m : Nat → UInt8) (r va n : Nat) : Prop := ∀ i < n, userPa m r (va + i) ≠ 0

instance : Decidable (Accessible m r va n) := inferInstanceAs (Decidable (∀ i < n, _))

@[simp] theorem length_userTake : (userTake m r va n).length = n := by simp [userTake]

@[simp] theorem getElem_userTake {i : Nat} (h : i < (userTake m r va n).length) :
    (userTake m r va n)[i] = byteAt m r (va + i) := by simp [userTake]

@[simp] theorem userTake_zero : userTake m r va 0 = [] := rfl

@[simp] theorem accessible_zero : Accessible m r va 0 := nofun

theorem accessible_add : Accessible m r va (a + b) ↔ Accessible m r va a ∧
    Accessible m r (va + a) b := by
  constructor
  · intro h
    refine ⟨fun i hi => h i (by omega), fun i hi => ?_⟩
    rw [Nat.add_assoc]
    exact h (a + i) (by omega)
  · rintro ⟨h1, h2⟩ i hi
    by_cases hia : i < a
    · exact h1 i hia
    · have := h2 (i - a) (by omega)
      rwa [show va + a + (i - a) = va + i by omega] at this

theorem userTake_add : userTake m r va (a + b) = userTake m r va a ++ userTake m r (va + a) b := by
  unfold userTake
  rw [range_add, map_append, map_map]
  exact congrArg _ (map_congr_left fun i _ => by rw [Function.comp, Nat.add_assoc])

/-- All addresses of a page have the same access. -/
theorem userPa_congr (h : a / 4096 = b / 4096) : userPa m r a = userPa m r b := by
  have hlt : a < MAXVA ↔ b < MAXVA := by rw [MAXVA_eq]; omega
  unfold userPa
  simp only [h, hlt]

theorem byteAt_eq (h : userPa m r va ≠ 0) : byteAt m r va = m (userPa m r va + va % 4096) := by
  unfold userPa at h ⊢
  split
  · rfl
  · next hc => rw [if_neg hc] at h; exact absurd rfl h

/-- A range within one page has the access of its first address… -/
theorem accessible_page (hn : 0 < n) (h : n ≤ 4096 - va % 4096) :
    Accessible m r va n ↔ userPa m r va ≠ 0 := by
  constructor
  · exact fun ha => ha 0 hn
  · intro ha i hi
    rwa [userPa_congr (show (va + i) / 4096 = va / 4096 by omega)]

/-- …and its bytes lie together in memory. -/
theorem userTake_page (h : n ≤ 4096 - va % 4096) (ha : userPa m r va ≠ 0) :
    userTake m r va n = take m (userPa m r va + va % 4096) n := by
  refine map_congr_left fun i hi => ?_
  have hi := mem_range.1 hi
  have e := userPa_congr (m := m) (r := r) (show (va + i) / 4096 = va / 4096 by omega)
  rw [byteAt_eq (by rwa [e]), e]
  exact congrArg m (by omega)

/-- **A range that wraps has an address without access.** -/
theorem accessible_wrap (hva : va < 2 ^ 64) :
    (∀ i < n, userPa m r ((va + i) % 2 ^ 64) ≠ 0) ↔ Accessible m r va n := by
  have hlt : ∀ {x}, userPa m r x ≠ 0 → x < 274877906944 := fun {x} hx => by
    by_contra hc
    exact hx (if_neg fun h => hc (MAXVA_eq ▸ h.1))
  constructor
  · intro h
    have hlen : va + n ≤ 2 ^ 64 := by
      by_contra hc
      have := hlt (h (2 ^ 64 - 1 - va) (by omega))
      rw [Nat.mod_eq_of_lt (by omega)] at this
      omega
    intro i hi
    have := h i hi
    rwa [Nat.mod_eq_of_lt (by omega)] at this
  · intro h i hi
    have := hlt (h i hi)
    rw [Nat.mod_eq_of_lt (by omega)]
    exact h i hi

/-! ## `copyin` -/

variable {s : KState} {len k : Nat} {dst : List UInt8}

/-- The page that a loop over a range looks up, and the part of the range on it. -/
theorem page_step (m : Nat → UInt8) (r va : Nat) (hlen : 0 < len) :
    ∃ c, min (PGSIZE - (va - PGROUNDDOWN va)) len = c ∧ 0 < c ∧ c ≤ len ∧ c ≤ 4096 - va % 4096 ∧
      (c < len → PGROUNDDOWN va + PGSIZE = va + c) ∧ va - PGROUNDDOWN va = va % 4096 ∧
      userPa m r (PGROUNDDOWN va) = userPa m r va := by
  have e : PGROUNDDOWN va = va - va % 4096 := by
    simp only [PGROUNDDOWN, PGSIZE_eq]
    omega
  refine ⟨_, rfl, ?_, ?_, ?_, ?_, ?_, userPa_congr ?_⟩
  all_goals rw [e]
  all_goals try rw [PGSIZE_eq]
  all_goals omega

/-- **The loop of `copyin`** reads the whole range, or nothing when some address has no access. -/
theorem copyinLoop_eq (hk : len ≤ k) : copyinLoop r k va len dst s =
    .ok (if Accessible s.mem r va len then some (dst ++ userTake s.mem r va len) else none, s) := by
  induction k generalizing va len dst with
  | zero =>
    obtain rfl := Nat.le_zero.1 hk
    rw [if_pos accessible_zero, userTake_zero, append_nil]
    rfl
  | succ k ih =>
    rw [copyinLoop]
    by_cases hlen : len = 0
    · subst hlen
      rw [if_pos rfl, if_pos accessible_zero, userTake_zero, append_nil]
      rfl
    rw [if_neg hlen, bind_ok walkaddr_eq]
    obtain ⟨c, hc, hpos, hle, hpage, hnext, hoff, hpa⟩ := page_step s.mem r va
      (Nat.pos_of_ne_zero hlen)
    obtain ⟨l, rfl⟩ := Nat.exists_eq_add_of_le hle
    have hacc : Accessible s.mem r va (c + l) ↔ userPa s.mem r va ≠ 0 ∧
        Accessible s.mem r (va + c) l := by
      rw [accessible_add, accessible_page hpos hpage]
    rw [hc, hoff, hpa, userTake_add]
    by_cases h0 : userPa s.mem r va = 0
    · rw [if_pos h0, if_neg fun h => (hacc.1 h).1 h0]
      rfl
    rw [if_neg h0, bind_ok (gets_apply _ _), Nat.add_sub_cancel_left, ih (by omega),
      userTake_page hpage h0, ← append_assoc]
    simp only [hacc, ne_eq, h0, not_false_eq_true, true_and]
    by_cases hl : l = 0
    · subst hl
      simp
    · rw [hnext (by omega)]

theorem copyin_eq : copyin r va len s =
    .ok (if Accessible s.mem r va len then some (userTake s.mem r va len) else none, s) :=
  copyinLoop_eq le_rfl

/-! ## `copyinstr` -/

variable {j max : Nat}

theorem mem_userTake {x : UInt8} : x ∈ userTake m r va n ↔ ∃ i < n, byteAt m r (va + i) = x := by
  simp [userTake]

theorem userTake_one : userTake m r va 1 = [byteAt m r va] := rfl

/-- The string at `va` ends with its `j`-th byte. -/
structure StrAt (m : Nat → UInt8) (r va j : Nat) : Prop where
  access : Accessible m r va (j + 1)
  nul : byteAt m r (va + j) = 0
  body : ∀ i < j, byteAt m r (va + i) ≠ 0

/-- The first NUL among bytes that hold one. -/
theorem StrAt.cut (h : StrAt m r va j) (hj : j < n) :
    0 ∈ userTake m r va n ∧
      (userTake m r va n).take ((userTake m r va n).idxOf 0 + 1) = userTake m r va (j + 1) := by
  obtain ⟨l, rfl⟩ := Nat.exists_eq_add_of_lt hj
  have hidx : (userTake m r va (j + l + 1)).idxOf 0 = j := by
    have hno : 0 ∉ userTake m r va j := fun hm => by
      obtain ⟨i, hi, e⟩ := mem_userTake.1 hm
      exact h.body i hi e
    rw [show j + l + 1 = j + (1 + l) by omega, userTake_add, idxOf_append_of_notMem hno,
      userTake_add, userTake_one, h.nul]
    simp
  refine ⟨mem_userTake.2 ⟨j, hj, h.nul⟩, ?_⟩
  rw [hidx, show j + l + 1 = j + 1 + l by omega, userTake_add]
  exact take_left' length_userTake

/-- A string that goes on past its first page. -/
theorem StrAt.rest (h : StrAt m r va (n + j)) : StrAt m r (va + n) j where
  access := (accessible_add.1 (by rw [← Nat.add_assoc]; exact h.access)).2
  nul := by rw [Nat.add_assoc]; exact h.nul
  body i hi := by rw [Nat.add_assoc]; exact h.body _ (by omega)

/-- **`copyinstr` finds the end of a string** that is short enough. -/
theorem copyinstrLoop_found (hk : max ≤ k) (h : StrAt s.mem r va j) (hj : j < max) :
    copyinstrLoop r k va max dst s = .ok ((0, dst ++ userTake s.mem r va (j + 1)), s) := by
  induction k generalizing va max dst j with
  | zero => omega
  | succ k ih =>
    obtain ⟨c, hc, hpos, hle, hpage, hnext, hoff, hpa⟩ := page_step s.mem r va
      (show 0 < max by omega)
    have h0 : userPa s.mem r va ≠ 0 := h.access 0 (Nat.succ_pos j)
    rw [copyinstrLoop, if_neg (by omega), bind_ok walkaddr_eq, hc, hoff, hpa, if_neg h0,
      bind_ok (gets_apply _ _), ← userTake_page hpage h0]
    by_cases hjc : j < c
    · obtain ⟨hmem, htake⟩ := h.cut hjc
      rw [if_pos hmem, htake]
      rfl
    · obtain ⟨i, rfl⟩ := Nat.exists_eq_add_of_le (not_lt.1 hjc)
      have hno : 0 ∉ userTake s.mem r va c := fun hm => by
        obtain ⟨i', hi, e⟩ := mem_userTake.1 hm
        exact h.body i' (by omega) e
      rw [if_neg hno, hnext (by omega), ih (by omega) h.rest (by omega), Nat.add_assoc c,
        userTake_add (a := c), append_assoc]

/-- **…and nothing else ends it.** -/
theorem copyinstrLoop_sound (hk : max ≤ k) {bytes : List UInt8} {ret : Int}
    (e : copyinstrLoop r k va max dst s = .ok ((ret, bytes), s)) :
    ret = -1 ∨ ret = 0 ∧ ∃ j < max, StrAt s.mem r va j := by
  induction k generalizing va max dst with
  | zero => exact .inl (Prod.mk.inj (ok_inj e).1).1.symm
  | succ k ih =>
    rw [copyinstrLoop] at e
    by_cases hmax : max = 0
    · rw [if_pos hmax] at e
      exact .inl (Prod.mk.inj (ok_inj e).1).1.symm
    obtain ⟨c, hc, hpos, hle, hpage, hnext, hoff, hpa⟩ := page_step s.mem r va
      (Nat.pos_of_ne_zero hmax)
    rw [if_neg hmax, bind_ok walkaddr_eq, hc, hoff, hpa] at e
    by_cases h0 : userPa s.mem r va = 0
    · rw [if_pos h0] at e
      exact .inl (Prod.mk.inj (ok_inj e).1).1.symm
    rw [if_neg h0, bind_ok (gets_apply _ _), ← userTake_page hpage h0] at e
    have hacc := (accessible_page hpos hpage).2 h0
    by_cases hmem : 0 ∈ userTake s.mem r va c
    · rw [if_pos hmem] at e
      refine .inr ⟨(Prod.mk.inj (ok_inj e).1).1.symm, ?_⟩
      have hex : ∃ i, i < c ∧ byteAt s.mem r (va + i) = 0 := mem_userTake.1 hmem
      obtain ⟨hlt, hnul⟩ := Nat.find_spec hex
      refine ⟨Nat.find hex, by omega, fun i hi => hacc i (by omega), hnul, fun i hi h => ?_⟩
      exact Nat.find_min hex hi ⟨by omega, h⟩
    · rw [if_neg hmem] at e
      rcases ih (by omega) e with hret | ⟨hret, j, hj, hstr⟩
      · exact .inl hret
      · rw [hnext (by omega)] at hstr
        refine .inr ⟨hret, c + j, by omega, ?_, ?_, fun i hi h => ?_⟩
        · rw [Nat.add_assoc]
          exact accessible_add.2 ⟨hacc, hstr.access⟩
        · rw [← Nat.add_assoc]
          exact hstr.nul
        · by_cases hic : i < c
          · exact hmem (mem_userTake.2 ⟨i, hic, h⟩)
          · refine hstr.body (i - c) (by omega) ?_
            rwa [show va + c + (i - c) = va + i by omega]

/-- User mode has access to `a`, at a page that `walkaddr` can tell from the 0 it fails with. -/
def UserMapped (m : Nat → UInt8) (r a : Nat) : Prop :=
  a < MAXVA ∧ (leaf m r (a / 4096)).has PTE_V = true ∧ (leaf m r (a / 4096)).has PTE_U = true ∧
    PTE2PA (leaf m r (a / 4096)) ≠ 0

theorem userMapped_iff : UserMapped m r a ↔ userPa m r a ≠ 0 := by
  unfold UserMapped userPa
  split
  · next h => exact ⟨fun hm => hm.2.2.2, fun hne => ⟨h.1, h.2.1, h.2.2, hne⟩⟩
  · next h => exact ⟨fun hm => absurd ⟨hm.1, hm.2.1, hm.2.2.1⟩ h, fun hne => absurd rfl hne⟩

/-- The two memories have the same user pages up to page `v`. -/
def SameUpTo (m m' : Nat → UInt8) (r v : Nat) : Prop :=
  ∀ a, a / 4096 ≤ v → userPa m' r a = userPa m r a ∧ byteAt m' r a = byteAt m r a

theorem StrAt.same (h : StrAt m r va j) (hm : SameUpTo m m' r ((va + j) / 4096)) :
    StrAt m' r va j ∧ userTake m' r va (j + 1) = userTake m r va (j + 1) := by
  have hle : ∀ {i}, i ≤ j → (va + i) / 4096 ≤ (va + j) / 4096 :=
    fun hi => Nat.div_le_div_right (by omega)
  refine ⟨⟨fun i hi => ?_, ?_, fun i hi => ?_⟩, map_congr_left fun i hi => ?_⟩
  · rw [(hm _ (hle (by omega))).1]
    exact h.access i hi
  · rw [(hm _ le_rfl).2, h.nul]
  · rw [(hm _ (hle hi.le)).2]
    exact h.body i hi
  · exact (hm _ (hle (by have := mem_range.1 hi; omega))).2

/-- **`copyinstr` agrees with `copyin`**: for any page table it returns 0 just when a NUL comes
within `max` bytes that are all mapped for user mode; what it then stores is what `copyin` of the
string with its NUL gives, whatever lies on the pages after the NUL; and it never stores more than
`max` bytes. -/
theorem copyinstr_copyin (r max : Nat) (s : KState) (hva : va < 2 ^ 64) :
    ∃ ret dst, copyinstr r va max s = .ok ((ret, dst), s) ∧ dst.length ≤ max ∧
    (ret = 0 ∨ ret = -1) ∧
      (ret = 0 ↔ ∃ k < max, (∀ i ≤ k, UserMapped s.mem r ((va + i) % 2 ^ 64)) ∧
        byteAt s.mem r (va + k) = 0 ∧ ∀ i < k, byteAt s.mem r (va + i) ≠ 0) ∧
      ∀ k < max, StrAt s.mem r va k → copyin r va (k + 1) s = .ok (some dst, s) ∧
        ∀ s', SameUpTo s.mem s'.mem r ((va + k) / 4096) → copyinstr r va max s' =
          .ok ((0, dst), s') := by
  have hstr : ∀ k, (∀ i ≤ k, UserMapped s.mem r ((va + i) % 2 ^ 64)) ↔
      Accessible s.mem r va (k + 1) := fun k => by
    simp only [userMapped_iff, ← accessible_wrap hva, Nat.lt_succ_iff]
  obtain ⟨ret, dst, e, hlen⟩ := copyinstrLoop_ok (r := r) (s := s) max va max []
  rw [List.length_nil, Nat.zero_add] at hlen
  have hret := copyinstrLoop_sound le_rfl e
  refine ⟨ret, dst, e, hlen, ?_, ⟨fun h0 => ?_, ?_⟩, fun k hk h => ?_⟩
  · exact hret.symm.imp And.left id
  · obtain ⟨-, j, hj, h⟩ := hret.resolve_left (by rw [h0]; decide)
    exact ⟨j, hj, (hstr j).2 h.access, h.nul, h.body⟩
  · rintro ⟨k, hk, hacc, hnul, hbody⟩
    rw [copyinstrLoop_found le_rfl ⟨(hstr k).1 hacc, hnul, hbody⟩ hk] at e
    exact (Prod.mk.inj (Prod.mk.inj (Except.ok.inj e)).1).1.symm
  · rw [copyinstrLoop_found le_rfl h hk] at e
    obtain rfl := (Prod.mk.inj (Prod.mk.inj (Except.ok.inj e)).1).2
    refine ⟨by rw [copyin_eq, if_pos h.access, List.nil_append], fun s' hm => ?_⟩
    obtain ⟨h', e'⟩ := h.same hm
    rw [← e']
    exact copyinstrLoop_found le_rfl h' hk

/-- The first process has `initcode` in its page. -/
theorem Alone.byteAt [Layout] {G : Ghost} {s : KState} {p o : Nat} (ha : Alone G s p)
    (ho : o < 4096) : byteAt s.mem (s.procs p).pagetable o = initcode.getD o 0 := by
  rw [Xv6.byteAt, userAddr, Nat.div_eq_of_lt ho, Nat.mod_eq_of_lt ho]
  exact ha.bytes o ho

/-- …for instance the path of `init` in the memory of the first process. -/
theorem copyinstr_copyin_init : ∃ (s : KState) (p : Nat) (dst : List UInt8),
    (@machine sampleLayout).Reach s ∧ copyinstr (s.procs p).pagetable 36 MAXPATH s =
      .ok ((0, dst), s) ∧
    copyin (s.procs p).pagetable 36 6 s = .ok (some dst, s) := by
  let _ : Layout := sampleLayout
  obtain ⟨G, _, s, p, h0, hs, ha, -⟩ := exists_alone (by decide)
  have hroot := ha.inv.use_pagetable ha.runs.1 (ha.inv.runs ha.runs).1
  have hm : ((s.procs p).pagetable, 0) ∈ G.maps :=
    (ha.inv.spans p ha.runs.1 (ha.inv.runs ha.runs).1 0).2 (by rw [ha.size]; decide)
  have hzero : ∀ o < 4096, o / 4096 = 0 := fun o ho => Nat.div_eq_of_lt ho
  have hstr : StrAt s.mem (s.procs p).pagetable 36 5 := by
    refine ⟨fun i hi => ?_, ha.byteAt (o := 41) (by decide), fun i hi => ?_⟩
    · rw [ha.inv.own.userPa_ne hroot, hzero _ (by omega)]
      exact ⟨hm, ha.user⟩
    · rw [ha.byteAt (by omega)]
      exact (show ∀ i < 5, initcode.getD (36 + i) 0 ≠ 0 by decide) i hi
  obtain ⟨-, dst, -, -, -, -, hin⟩ :=
    copyinstr_copyin (s.procs p).pagetable MAXPATH s (show 36 < 2 ^ 64 by decide)
  obtain ⟨h1, h2⟩ := hin 5 (by decide) hstr
  exact ⟨s, p, dst, .step (.init h0) hs, h2 s fun _ _ => ⟨rfl, rfl⟩, h1⟩

end Xv6
