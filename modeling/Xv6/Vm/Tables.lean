import Mathlib.Data.Nat.Basic
import Xv6.Vm.PageTable

/-!
# Vm/Tables — page tables in memory

Who uses each physical page (`Use`), and what it means for the tables among them to form trees
(`Tables`): each table page is entered by exactly one entry of its parent.  Under `Tables` the
hardware walk is a lookup in the level-0 page that covers a page number (`leafAddr_low`,
`leafAddr_none`), and a store to one of its entries changes one leaf (`leaf_setPte`).
-/

namespace Xv6

open Act Bytes Function Option Bool

/-! ## Entries in memory -/

variable {m m' : Nat → UInt8} {a b r p q v i k : Nat} {x : Pte}

@[simp] theorem pteAt_setPte : pteAt (setPte m a x) a = x := by
  unfold pteAt setPte
  rw [getLE_setLE, show (256 : Nat) ^ 8 = 2 ^ 64 by norm_num, Nat.mod_eq_of_lt x.isLt]
  exact BitVec.ofNat_toNat 64 x |>.trans (BitVec.setWidth_eq x)

theorem pteAt_setPte_ne (h : b + 8 ≤ a ∨ a + 8 ≤ b) : pteAt (setPte m a x) b = pteAt m b := by
  unfold pteAt setPte
  rw [getLE_setLE_out h]

theorem pteAt_congr (h : ∀ y, a ≤ y → y < a + 8 → m' y = m y) : pteAt m' a = pteAt m a := by
  unfold pteAt
  rw [getLE_congr 8 fun i hi => h (a + i) (by omega) (by omega)]

theorem pteAt_zero (h : ∀ o < 4096, m (p + o) = 0) (hk : k < 512) : pteAt m (p + 8 * k) = 0#64 := by
  unfold pteAt
  rw [getLE_zero fun i hi => by rw [Nat.add_assoc]; exact h _ (by omega)]

theorem setPte_out (h : b < a ∨ a + 8 ≤ b) : setPte m a x b = m b := by
  rw [setPte, setLE, overlay_out h]

theorem setPte_setPte (y : Pte) : setPte (setPte m a x) a y = setPte m a y := by
  funext z
  by_cases hz : a ≤ z ∧ z < a + 8
  · rw [setPte, setLE, overlay_in hz.1 hz.2, setPte, setLE, overlay_in hz.1 hz.2]
  · rw [setPte_out (by omega), setPte_out (by omega), setPte_out (by omega)]

/-! ## Uses of a page -/

/-- What a physical page is used for: free, a page-table page (the root, the level-1 page that
entry `i` of root `r` points to, the level-0 page for page numbers `512 q, …, 512 q + 511` of
`r`), a trapframe, a page other kernel code holds, or user memory. -/
inductive Use
  | free
  | root
  | mid (r i : Nat)
  | low (r q : Nat)
  | trap (p : Nat)
  | held
  | user
  deriving DecidableEq

/-- Page-table pages. -/
def Use.IsTable : Use → Prop
  | .root | .mid _ _ | .low _ _ => True
  | _ => False

/-- The entry of a parent table that points to a table page. -/
def tableEntry (p : Nat) : Pte := PA2PTE p ||| PTE_V

/-- Pages that carry a use are whole pages of memory. -/
def Paged (use : Nat → Use) : Prop := ∀ p, use p ≠ .free → p % 4096 = 0 ∧ 0 < p ∧ p < 2 ^ 64

/-- **The tables form trees**: a table page is entered by the entry its use names, and the entries
of root and level-1 pages are empty or enter the table page their position names. -/
structure Tables (use : Nat → Use) (m : Nat → UInt8) : Prop where
  mid_parent : ∀ p r i, use p = .mid r i →
    i < 512 ∧ use r = .root ∧ pteAt m (r + 8 * i) = tableEntry p
  low_parent : ∀ p r q, use p = .low r q →
    ∃ t, use t = .mid r (q / 512) ∧ pteAt m (t + 8 * (q % 512)) = tableEntry p
  root_child : ∀ r i, use r = .root → i < 512 →
    (pteAt m (r + 8 * i)).has PTE_V = false ∨
      ∃ p, use p = .mid r i ∧ pteAt m (r + 8 * i) = tableEntry p
  mid_child : ∀ t r i j, use t = .mid r i → j < 512 →
    (pteAt m (t + 8 * j)).has PTE_V = false ∨
      ∃ p, use p = .low r (512 * i + j) ∧ pteAt m (t + 8 * j) = tableEntry p

section

variable {use : Nat → Use}

theorem tableEntry_V (p : Nat) : (tableEntry p).has PTE_V = true := by
  simp [tableEntry]

/-- `freewalk` takes a table entry for one: it has none of the permissions of a leaf. -/
theorem tableEntry_RWX (p : Nat) : (tableEntry p).has (PTE_R ||| PTE_W ||| PTE_X) = false := by
  simp [tableEntry, Pte.has_flag_or]

theorem PTE2PA_tableEntry (hp : Paged use) (h : use p ≠ .free) : PTE2PA (tableEntry p) = p := by
  obtain ⟨h1, -, h2⟩ := hp p h
  exact Pte.PTE2PA_mk h1 h2 Pte.isFlags_V

namespace Tables

section

variable (ht : Tables use m)

include ht

/-- Two table pages in one place are one. -/
theorem mid_unique (hp : Paged use) {p' : Nat} (h : use p = .mid r i) (h' : use p' = .mid r i) :
    p = p' := by
  have e := (ht.mid_parent p r i h).2.2
  have e' := (ht.mid_parent p' r i h').2.2
  rw [← PTE2PA_tableEntry hp (p := p) (by simp [h]), ← e, e', PTE2PA_tableEntry hp (by simp [h'])]

theorem low_unique (hp : Paged use) {p' : Nat} (h : use p = .low r q) (h' : use p' = .low r q) :
    p = p' := by
  obtain ⟨t, ht1, e⟩ := ht.low_parent p r q h
  obtain ⟨t', ht2, e'⟩ := ht.low_parent p' r q h'
  obtain rfl := ht.mid_unique hp ht1 ht2
  rw [← PTE2PA_tableEntry hp (p := p) (by simp [h]), ← e, e', PTE2PA_tableEntry hp (by simp [h'])]

/-- What the entry of a root says about the level-1 pages… -/
theorem root_read (hp : Paged use) (hr : use r = .root) (hi : i < 512) :
    (pteAt m (r + 8 * i)).has PTE_V = false ∧ (∀ p, use p ≠ .mid r i) ∨
      ∃ c, use c = .mid r i ∧ pteAt m (r + 8 * i) = tableEntry c ∧ PTE2PA (tableEntry c) = c := by
  rcases ht.root_child r i hr hi with hinv | ⟨c, hc, e⟩
  · refine .inl ⟨hinv, fun p hu => ?_⟩
    rw [(ht.mid_parent p r i hu).2.2, tableEntry_V] at hinv
    cases hinv
  · exact .inr ⟨c, hc, e, PTE2PA_tableEntry hp (by simp [hc])⟩

/-- …and the entry of a level-1 page about the level-0 pages. -/
theorem mid_read (hp : Paged use) {t v : Nat} (hm : use t = .mid r v) (hi : i < 512) :
    (pteAt m (t + 8 * i)).has PTE_V = false ∧ (∀ p, use p ≠ .low r (512 * v + i)) ∨
      ∃ c, use c = .low r (512 * v + i) ∧ pteAt m (t + 8 * i) = tableEntry c ∧
      PTE2PA (tableEntry c) = c := by
  rcases ht.mid_child t r v i hm hi with hinv | ⟨c, hc, e⟩
  · refine .inl ⟨hinv, fun p hu => ?_⟩
    obtain ⟨t', h1, h2⟩ := ht.low_parent p r _ hu
    rw [show (512 * v + i) / 512 = v by omega] at h1
    rw [ht.mid_unique hp h1 hm, show (512 * v + i) % 512 = i by omega] at h2
    rw [h2, tableEntry_V] at hinv
    cases hinv
  · exact .inr ⟨c, hc, e, PTE2PA_tableEntry hp (by simp [hc])⟩

theorem low_lt (h : use p = .low r q) : q < 2 ^ 18 := by
  obtain ⟨t, ht1, -⟩ := ht.low_parent p r q h
  have := (ht.mid_parent t r _ ht1).1
  omega

theorem low_root (h : use p = .low r q) : use r = .root := by
  obtain ⟨t, ht1, -⟩ := ht.low_parent p r q h
  exact (ht.mid_parent t r _ ht1).2.1

/-- **The walk reaches the level-0 page that covers a page number.** -/
theorem leafAddr_low (hp : Paged use) (h : use p = .low r q) (hk : k < 512) :
    leafAddr m r (512 * q + k) = some (p + 8 * k) := by
  obtain ⟨t, hmid, e1⟩ := ht.low_parent p r q h
  obtain ⟨hi, -, e2⟩ := ht.mid_parent t r _ hmid
  have hq := ht.low_lt h
  unfold leafAddr
  rw [show (512 * q + k) / 2 ^ 18 % 512 = q / 512 by omega,
    show (512 * q + k) / 2 ^ 9 % 512 = q % 512 by omega, show (512 * q + k) % 512 = k by omega]
  simp only [e2, tableEntry_V, if_true]
  rw [PTE2PA_tableEntry hp (by simp [hmid]), e1, if_pos (tableEntry_V p),
    PTE2PA_tableEntry hp (by simp [h])]

/-- **…and finds nothing when no such page exists.** -/
theorem leafAddr_none (hp : Paged use) (hr : use r = .root) (hv : v < 2 ^ 27)
    (h : ∀ p, use p ≠ .low r (v / 512)) : leafAddr m r v = none := by
  unfold leafAddr
  rcases ht.root_child r (v / 2 ^ 18 % 512) hr (Nat.mod_lt _ (by decide)) with h2 | ⟨t, ht1, e2⟩
  · simp only [h2, false_eq_true, if_false]
  · simp only [e2, tableEntry_V, if_true]
    rw [PTE2PA_tableEntry hp (by simp [ht1])]
    rcases ht.mid_child t r _ (v / 2 ^ 9 % 512) ht1 (Nat.mod_lt _ (by decide)) with
      h1 | ⟨p, hlow, -⟩
    · simp only [h1, false_eq_true, if_false]
    · exact absurd (by rw [hlow]; congr 1; omega) (h p)

theorem leaf_low (hp : Paged use) (h : use p = .low r q) (hk : k < 512) :
    leaf m r (512 * q + k) = pteAt m (p + 8 * k) := by
  unfold leaf
  rw [ht.leafAddr_low hp h hk]

theorem leaf_none (hp : Paged use) (hr : use r = .root) (hv : v < 2 ^ 27)
    (h : ∀ p, use p ≠ .low r (v / 512)) : leaf m r v = 0#64 := by
  unfold leaf
  rw [ht.leafAddr_none hp hr hv h]

/-! ## Stores that keep the tables -/

/-- A store outside the table pages keeps the trees… -/
theorem congr_mem (h : ∀ p, (use p).IsTable → ∀ y, p ≤ y → y < p + 4096 → m' y = m y) :
    Tables use m' := by
  have he : ∀ p, (use p).IsTable → ∀ j < 512, pteAt m' (p + 8 * j) = pteAt m (p + 8 * j) :=
    fun p hu j hj => pteAt_congr fun y h1 h2 => h p hu y (by omega) (by omega)
  refine ⟨fun p r i hu => ?_, fun p r q hu => ?_, fun r i hu hi => ?_, fun t r i j hu hj => ?_⟩
  · obtain ⟨h1, h2, h3⟩ := ht.mid_parent p r i hu
    exact ⟨h1, h2, by rw [he r (by simp [h2, Use.IsTable]) i h1]; exact h3⟩
  · obtain ⟨t, h1, h2⟩ := ht.low_parent p r q hu
    exact ⟨t, h1, by rw [he t (by simp [h1, Use.IsTable]) _ (Nat.mod_lt _ (by decide))]; exact h2⟩
  · rw [he r (by simp [hu, Use.IsTable]) i hi]
    exact ht.root_child r i hu hi
  · rw [he t (by simp [hu, Use.IsTable]) j hj]
    exact ht.mid_child t r i j hu hj

/-- …and every leaf. -/
theorem leaf_congr_mem (hp : Paged use)
    (h : ∀ p, (use p).IsTable → ∀ y, p ≤ y → y < p + 4096 → m' y = m y) (hr : use r = .root)
    (hv : v < 2 ^ 27) : leaf m' r v = leaf m r v := by
  have ht' := ht.congr_mem h
  by_cases hex : ∃ p, use p = .low r (v / 512)
  · obtain ⟨p, hlow⟩ := hex
    have hk : v % 512 < 512 := Nat.mod_lt _ (by decide)
    have e := ht.leaf_low hp hlow hk
    have e' := ht'.leaf_low hp hlow hk
    rw [Nat.div_add_mod] at e e'
    rw [e, e', pteAt_congr fun y h1 h2 => h p (by simp [hlow, Use.IsTable]) y (by omega) (by omega)]
  · rw [ht.leaf_none hp hr hv fun p hp' => hex ⟨p, hp'⟩,
      ht'.leaf_none hp hr hv fun p hp' => hex ⟨p, hp'⟩]

/-- A store to an entry of a level-0 page keeps the trees… -/
theorem setPte_low (hp : Paged use) (h : use p = .low r q) (hk : k < 512) :
    Tables use (setPte m (p + 8 * k) x) := by
  have hout : ∀ t, (use t).IsTable → (∀ r q, use t ≠ .low r q) → ∀ j < 512,
      pteAt (setPte m (p + 8 * k) x) (t + 8 * j) = pteAt m (t + 8 * j) := by
    intro t hu hnl j hj
    refine pteAt_setPte_ne ?_
    have hne : t ≠ p := fun e => hnl r q (e ▸ h)
    have h1 := (hp t (by rintro e; simp [e, Use.IsTable] at hu)).1
    have h2 := (hp p (by simp [h])).1
    omega
  refine ⟨fun p' r' i hu => ?_, fun p' r' q' hu => ?_, fun r' i hu hi => ?_,
    fun t r' i j hu hj => ?_⟩
  · obtain ⟨h1, h2, h3⟩ := ht.mid_parent p' r' i hu
    exact ⟨h1, h2, by rw [hout r' (by simp [h2, Use.IsTable]) (by simp [h2]) i h1]; exact h3⟩
  · obtain ⟨t, h1, h2⟩ := ht.low_parent p' r' q' hu
    refine ⟨t, h1, ?_⟩
    rw [hout t (by simp [h1, Use.IsTable]) (by simp [h1]) _ (Nat.mod_lt _ (by decide))]
    exact h2
  · rw [hout r' (by simp [hu, Use.IsTable]) (by simp [hu]) i hi]
    exact ht.root_child r' i hu hi
  · rw [hout t (by simp [hu, Use.IsTable]) (by simp [hu]) j hj]
    exact ht.mid_child t r' i j hu hj

/-- **…and changes exactly one leaf.** -/
theorem leaf_setPte (hp : Paged use) (h : use p = .low r q) (hk : k < 512)
    {r' v' : Nat} (hr' : use r' = .root) (hv' : v' < 2 ^ 27) :
    leaf (setPte m (p + 8 * k) x) r' v' =
      if r' = r ∧ v' = 512 * q + k then x else leaf m r' v' := by
  have ht' := ht.setPte_low (x := x) hp h hk
  have hk' : v' % 512 < 512 := Nat.mod_lt _ (by decide)
  by_cases hex : ∃ p', use p' = .low r' (v' / 512)
  · obtain ⟨p', hlow⟩ := hex
    have e := ht.leaf_low hp hlow hk'
    have e' := ht'.leaf_low hp hlow hk'
    rw [Nat.div_add_mod] at e e'
    rw [e, e']
    split
    · rename_i heq
      obtain ⟨rfl, hv⟩ := heq
      have hq : v' / 512 = q := by omega
      obtain rfl := ht.low_unique hp h (hq ▸ hlow)
      rw [show v' % 512 = k by omega, pteAt_setPte]
    · rename_i hne
      refine pteAt_setPte_ne ?_
      by_cases hpp : p' = p
      · subst hpp
        rw [h] at hlow
        injection hlow with e1 e2
        have : v' % 512 ≠ k := fun hh => hne ⟨e1.symm, by omega⟩
        omega
      · have h1 := (hp p' (by simp [hlow])).1
        have h2 := (hp p (by simp [h])).1
        omega
  · rw [ht.leaf_none hp hr' hv' fun p hp' => hex ⟨p, hp'⟩,
      ht'.leaf_none hp hr' hv' fun p hp' => hex ⟨p, hp'⟩]
    rw [if_neg]
    rintro ⟨rfl, rfl⟩
    exact hex ⟨p, by rw [h]; congr 1; omega⟩

end

end Tables

end

/-! ## Linking and unlinking a table page -/

/-- The use of the page that entry `j` of table `t` points to. -/
def Parent (use : Nat → Use) (t j : Nat) (w : Use) : Prop :=
  j < 512 ∧ ((use t = .root ∧ w = .mid t j) ∨ ∃ r i, use t = .mid r i ∧ w = .low r (512 * i + j))

/-- A page with one owner, the kernel. -/
def Use.Kernel (u : Use) : Prop := u ≠ .free ∧ u ≠ .user

section

variable {use : Nat → Use} {t j c : Nat} {w u : Use}

theorem Parent.table (h : Parent use t j w) : (use t).IsTable := by
  rcases h.2 with ⟨h, -⟩ | ⟨r, i, h, -⟩ <;> rw [h] <;> trivial

theorem Parent.kernel (h : Parent use t j w) : w.Kernel ∧ w ≠ .root := by
  rcases h.2 with ⟨-, rfl⟩ | ⟨r, i, -, rfl⟩ <;> simp [Use.Kernel]

theorem Parent.not_low (h : Parent use t j w) (r q : Nat) : use t ≠ .low r q := by
  rcases h.2 with ⟨h, -⟩ | ⟨r, i, h, -⟩ <;> simp [h]

theorem Parent.ne (h : Parent use t j (use c)) : t ≠ c := by
  rintro rfl
  rcases h.2 with ⟨h1, h2⟩ | ⟨r, i, h1, h2⟩ <;> simp [h1] at h2

theorem Use.IsTable.ne_free (h : u.IsTable) : u ≠ .free := by
  rintro rfl
  exact h

/-- A page that becomes a table leaves the tables… -/
theorem Use.IsTable.keep (ht : u.IsTable) (hc : ¬ (use c).IsTable) (hu : use p = u) :
    update use c w p = u := by
  rw [update_of_ne (by rintro rfl; exact hc (hu ▸ ht)), hu]

/-- …and one that ceases to be a table, the others. -/
theorem Use.IsTable.old (ht : u.IsTable) (hw : ¬ w.IsTable) (hu : update use c w p = u) :
    p ≠ c ∧ use p = u := by
  by_cases e : p = c
  · subst e
    rw [update_self] at hu
    exact absurd (hu ▸ ht) hw
  · rw [update_of_ne e] at hu
    exact ⟨e, hu⟩

/-- A store to an entry of one page leaves the entries of the others. -/
theorem pteAt_entry_ne (ht : t % 4096 = 0) (hp : p % 4096 = 0) (hj : j < 512) (hk : k < 512)
    (hne : (p, k) ≠ (t, j)) : pteAt (setPte m (t + 8 * j) x) (p + 8 * k) = pteAt m (p + 8 * k) := by
  refine pteAt_setPte_ne ?_
  by_cases e : p = t
  · subst e
    have : k ≠ j := fun e => hne (by rw [e])
    omega
  · omega

namespace Tables

/-- **A page of zeros becomes a table page.** -/
theorem link (h : Tables use m) (hp : Paged use) (hP : Parent use t j w)
    (hinv : (pteAt m (t + 8 * j)).has PTE_V = false) (hc : ¬ (use c).IsTable) (hcp : c % 4096 = 0)
    (hz : ∀ o < 4096, m (c + o) = 0) :
    Tables (update use c w) (setPte m (t + 8 * j) (tableEntry c)) := by
  have hnew : ∀ {p u}, update use c w p = u → (p = c ∧ w = u) ∨ (p ≠ c ∧ use p = u) :=
    fun {p u} hu => by
      by_cases e : p = c
      · subst e; exact .inl ⟨rfl, by simpa using hu⟩
      · rw [update_of_ne e] at hu; exact .inr ⟨e, hu⟩
  have hold : ∀ {p u}, use p = u → u.IsTable → update use c w p = u := fun hu ht => ht.keep hc hu
  have htp := (hp t hP.table.ne_free).1
  have hent : ∀ {p k}, p % 4096 = 0 → k < 512 → (p, k) ≠ (t, j) →
      pteAt (setPte m (t + 8 * j) (tableEntry c)) (p + 8 * k) = pteAt m (p + 8 * k) :=
    fun hp hk hne => pteAt_entry_ne htp hp hP.1 hk hne
  -- a valid entry is not the one stored to
  have hval : ∀ {p k q}, pteAt m (p + 8 * k) = tableEntry q → (p, k) ≠ (t, j) := by
    rintro p k q e he
    obtain ⟨rfl, rfl⟩ := Prod.mk.inj he
    rw [e, tableEntry_V] at hinv
    exact Bool.noConfusion hinv
  refine ⟨fun p r i hu => ?_, fun p r q hu => ?_, fun r i hu hi => ?_, fun p r i k hu hk => ?_⟩
  · rcases hnew hu with ⟨rfl, e⟩ | ⟨-, hu⟩
    · rcases hP.2 with ⟨h1, h2⟩ | ⟨r', i', -, h2⟩
      · obtain ⟨rfl, rfl⟩ : t = r ∧ j = i := by simpa [h2] using e
        exact ⟨hP.1, hold h1 trivial, pteAt_setPte⟩
      · simp [h2] at e
    · obtain ⟨h1, h2, h3⟩ := h.mid_parent p r i hu
      exact ⟨h1, hold h2 trivial, by rw [hent (hp r (by simp [h2])).1 h1 (hval h3)]; exact h3⟩
  · rcases hnew hu with ⟨rfl, e⟩ | ⟨-, hu⟩
    · rcases hP.2 with ⟨-, h2⟩ | ⟨r', i', h1, h2⟩
      · simp [h2] at e
      · obtain ⟨rfl, rfl⟩ : r' = r ∧ 512 * i' + j = q := by simpa [h2] using e
        have hj := hP.1
        refine ⟨t, ?_, ?_⟩
        · rw [show (512 * i' + j) / 512 = i' by omega]
          exact hold h1 trivial
        · rw [show (512 * i' + j) % 512 = j by omega, pteAt_setPte]
    · obtain ⟨t', h1, h2⟩ := h.low_parent p r q hu
      refine ⟨t', hold h1 trivial, ?_⟩
      rw [hent (hp t' (by simp [h1])).1 (Nat.mod_lt _ (by decide)) (hval h2)]
      exact h2
  · rcases hnew hu with ⟨-, e⟩ | ⟨-, hu⟩
    · exact absurd e hP.kernel.2
    · by_cases e : (r, i) = (t, j)
      · obtain ⟨rfl, rfl⟩ := Prod.mk.inj e
        refine .inr ⟨c, ?_, pteAt_setPte⟩
        rcases hP.2 with ⟨-, h2⟩ | ⟨r', i', h1, -⟩
        · rw [update_self, h2]
        · simp [hu] at h1
      · rw [hent (hp r (by simp [hu])).1 hi e]
        refine (h.root_child r i hu hi).imp_right ?_
        rintro ⟨p, h1, h2⟩
        exact ⟨p, hold h1 trivial, h2⟩
  · rcases hnew hu with ⟨rfl, -⟩ | ⟨hne, hu⟩
    · left
      have hne : (p, k) ≠ (t, j) := fun e => hc ((Prod.mk.inj e).1 ▸ hP.table)
      rw [hent hcp hk hne, pteAt_zero hz hk, Pte.has_zero]
    · by_cases e : (p, k) = (t, j)
      · obtain ⟨rfl, rfl⟩ := Prod.mk.inj e
        refine .inr ⟨c, ?_, pteAt_setPte⟩
        rcases hP.2 with ⟨h1, -⟩ | ⟨r', i', h1, h2⟩
        · simp [hu] at h1
        · obtain ⟨rfl, rfl⟩ : r = r' ∧ i = i' := by simpa [hu] using h1
          rw [update_self, h2]
      · rw [hent (hp p (by simp [hu])).1 hk e]
        refine (h.mid_child p r i k hu hk).imp_right ?_
        rintro ⟨q, h1, h2⟩
        exact ⟨q, hold h1 trivial, h2⟩

/-- **A table page with no tables below it is taken out of its tree.** -/
theorem unlink (h : Tables use m) (hp : Paged use) (hP : Parent use t j (use c))
    (hB : ∀ r i, use c = .mid r i → ∀ p q, use p = .low r q → q / 512 ≠ i) (hw : ¬ w.IsTable) :
    Tables (update use c w) (setPte m (t + 8 * j) 0#64) := by
  have hnew : ∀ {p u}, update use c w p = u → u.IsTable → p ≠ c ∧ use p = u :=
    fun hu ht => ht.old hw hu
  have hold : ∀ {p u}, use p = u → p ≠ c → update use c w p = u := fun {p u} hu hne => by
    rw [update_of_ne hne, hu]
  have htp := (hp t hP.table.ne_free).1
  have hent : ∀ {p k}, use p ≠ .free → k < 512 → (p, k) ≠ (t, j) →
      pteAt (setPte m (t + 8 * j) 0#64) (p + 8 * k) = pteAt m (p + 8 * k) :=
    fun hu hk hne => pteAt_entry_ne htp (hp _ hu).1 hP.1 hk hne
  have hcr : use c ≠ .root := hP.kernel.2
  refine ⟨fun p r i hu => ?_, fun p r q hu => ?_, fun r i hu hi => ?_, fun p r i k hu hk => ?_⟩
  · obtain ⟨hpc, hu'⟩ := hnew hu trivial
    obtain ⟨h1, h2, h3⟩ := h.mid_parent p r i hu'
    refine ⟨h1, hold h2 (by rintro rfl; exact hcr h2), ?_⟩
    rw [hent (by simp [h2]) h1 fun e => ?_]
    · exact h3
    · obtain ⟨rfl, rfl⟩ := Prod.mk.inj e
      rcases hP.2 with ⟨-, hw⟩ | ⟨r', i', h4, -⟩
      · exact hpc (h.mid_unique hp hu' hw)
      · simp [h2] at h4
  · obtain ⟨hpc, hu'⟩ := hnew hu trivial
    obtain ⟨t', h1, h2⟩ := h.low_parent p r q hu'
    have ht'c : t' ≠ c := by
      rintro rfl
      exact hB r _ h1 p q hu' rfl
    refine ⟨t', hold h1 ht'c, ?_⟩
    rw [hent (by simp [h1]) (Nat.mod_lt _ (by decide)) fun e => ?_]
    · exact h2
    · obtain ⟨rfl, he⟩ := Prod.mk.inj e
      rcases hP.2 with ⟨h4, -⟩ | ⟨r', i', h4, hw⟩
      · simp [h1] at h4
      · obtain ⟨rfl, hi⟩ : r = r' ∧ q / 512 = i' := by simpa [h1] using h4
        have hq : 512 * i' + j = q := by omega
        rw [hq] at hw
        exact hpc (h.low_unique hp hu' hw)
  · obtain ⟨-, hu'⟩ := hnew hu trivial
    by_cases e : (r, i) = (t, j)
    · obtain ⟨rfl, rfl⟩ := Prod.mk.inj e
      exact .inl (by rw [pteAt_setPte, Pte.has_zero])
    · rw [hent (by simp [hu']) hi e]
      refine (h.root_child r i hu' hi).imp_right ?_
      rintro ⟨p, h1, h2⟩
      refine ⟨p, hold h1 ?_, h2⟩
      rintro rfl
      rcases hP.2 with ⟨-, hw⟩ | ⟨r', i', -, hw⟩
      · obtain ⟨rfl, rfl⟩ : r = t ∧ i = j := by simpa [h1] using hw
        exact e rfl
      · simp [h1] at hw
  · obtain ⟨-, hu'⟩ := hnew hu trivial
    by_cases e : (p, k) = (t, j)
    · obtain ⟨rfl, rfl⟩ := Prod.mk.inj e
      exact .inl (by rw [pteAt_setPte, Pte.has_zero])
    · rw [hent (by simp [hu']) hk e]
      refine (h.mid_child p r i k hu' hk).imp_right ?_
      rintro ⟨q, h1, h2⟩
      refine ⟨q, hold h1 ?_, h2⟩
      rintro rfl
      rcases hP.2 with ⟨-, hw⟩ | ⟨r', i', h3, hw⟩
      · simp [h1] at hw
      · have hj := hP.1
        obtain ⟨rfl, hq⟩ : r = r' ∧ 512 * i + k = 512 * i' + j := by simpa [h1] using hw
        obtain ⟨rfl, rfl⟩ : i = i' ∧ k = j := by omega
        exact e (by rw [h.mid_unique hp hu' h3])

/-- **A page of zeros becomes a root.** -/
theorem newRoot (h : Tables use m) (hc : ¬ (use c).IsTable) (hz : ∀ o < 4096, m (c + o) = 0) :
    Tables (update use c .root) m := by
  have hold : ∀ {p u}, use p = u → u.IsTable → update use c .root p = u :=
    fun hu ht => ht.keep hc hu
  have hnew : ∀ {p u}, update use c .root p = u → u ≠ .root → use p = u := fun {p u} hp hu => by
    by_cases e : p = c
    · subst e
      rw [update_self] at hp
      exact absurd hp.symm hu
    · rwa [update_of_ne e] at hp
  refine ⟨fun p r i hu => ?_, fun p r q hu => ?_, fun r i hu hi => ?_, fun p r i k hu hk => ?_⟩
  · obtain ⟨h1, h2, h3⟩ := h.mid_parent p r i (hnew hu (by simp))
    exact ⟨h1, hold h2 trivial, h3⟩
  · obtain ⟨t, h1, h2⟩ := h.low_parent p r q (hnew hu (by simp))
    exact ⟨t, hold h1 trivial, h2⟩
  · by_cases e : r = c
    · subst e
      exact .inl (by rw [pteAt_zero hz hi, Pte.has_zero])
    · rw [update_of_ne e] at hu
      refine (h.root_child r i hu hi).imp_right ?_
      rintro ⟨p, h1, h2⟩
      exact ⟨p, hold h1 trivial, h2⟩
  · refine (h.mid_child p r i k (hnew hu (by simp)) hk).imp_right ?_
    rintro ⟨q, h1, h2⟩
    exact ⟨q, hold h1 trivial, h2⟩

/-- **A root without tables below it is a page again.** -/
theorem freeRoot (h : Tables use m) (hr : use r = .root) (hB : ∀ p i, use p ≠ .mid r i)
    (hw : ¬ w.IsTable) : Tables (update use r w) m := by
  have hnew : ∀ {p u}, update use r w p = u → u.IsTable → use p = u := fun hu ht => (ht.old hw hu).2
  have hold : ∀ {p u}, use p = u → p ≠ r → update use r w p = u := fun {p u} hu hne => by
    rw [update_of_ne hne, hu]
  have hmid : ∀ {p q i}, use p = .mid q i → p ≠ r ∧ q ≠ r := by
    refine fun {p q i} hp => ⟨?_, ?_⟩
    · rintro rfl
      simp [hr] at hp
    · rintro rfl
      exact hB p i hp
  refine ⟨fun p q i hu => ?_, fun p q k hu => ?_, fun q i hu hi => ?_, fun p q i k hu hk => ?_⟩
  · have hu' := hnew hu trivial
    obtain ⟨h1, h2, h3⟩ := h.mid_parent p q i hu'
    exact ⟨h1, hold h2 (hmid hu').2, h3⟩
  · obtain ⟨t, h1, h2⟩ := h.low_parent p q k (hnew hu trivial)
    exact ⟨t, hold h1 (hmid h1).1, h2⟩
  · refine (h.root_child q i (hnew hu trivial) hi).imp_right ?_
    rintro ⟨p, h1, h2⟩
    exact ⟨p, hold h1 (hmid h1).1, h2⟩
  · refine (h.mid_child p q i k (hnew hu trivial) hk).imp_right ?_
    rintro ⟨l, h1, h2⟩
    refine ⟨l, hold h1 ?_, h2⟩
    rintro rfl
    simp [hr] at h1

end Tables

end

/-! ## Walking without allocation -/

theorem PX_page (va : Nat) : PX 0 va = va / 4096 % 512 ∧ PX 1 va = va / 4096 / 2 ^ 9 % 512 ∧
    PX 2 va = va / 4096 / 2 ^ 18 % 512 := by
  unfold PX
  refine ⟨rfl, ?_, ?_⟩ <;> rw [Nat.div_div_eq_div_mul] <;> norm_num

/-- **`walk` without allocation is the hardware walk.** -/
theorem walk_false {s : KState} {va : Nat} (h : va < MAXVA) :
    walk r va false s = .ok (leafAddr s.mem r (va / 4096), s) := by
  obtain ⟨h0, h1, h2⟩ := PX_page va
  have hlt : ¬ va ≥ MAXVA := by omega
  unfold walk leafAddr
  rw [if_neg hlt]
  simp only [walkFrom, readPte, h0, h1, h2]
  rw [bind_ok (gets_apply _ _)]
  by_cases e2 : (pteAt s.mem (r + 8 * (va / 4096 / 2 ^ 18 % 512))).has PTE_V
  · rw [if_pos e2, if_pos e2, bind_ok (gets_apply _ _)]
    split
    · rfl
    · rfl
  · rw [if_neg e2, if_neg e2]
    rfl

/-- A level-0 page without valid entries: the loop does nothing. -/
theorem freewalkLoop_low {s : KState} {t : Nat} (child : Nat → Kern Unit)
    (hinv : ∀ j, i ≤ j → j < i + k → (pteAt s.mem (t + 8 * j)).has PTE_V = false) :
    freewalkLoop child t k i s = .ok ((), s) := by
  induction k generalizing i with
  | zero => rfl
  | succ k ih =>
    have hV := hinv i le_rfl (by omega)
    rw [freewalkLoop, readPte_bind]
    simp only [hV, Bool.false_and, false_eq_true, if_false]
    exact ih fun j h1 h2 => hinv j (by omega) (by omega)

/-- **The loop of `freewalk`** over table `t`, with `K j` the use of a page below entry `j`: an
invariant that the work on each such page keeps, and in the end there are none. -/
theorem freewalkLoop_kids {γ : Type} {I : γ → KState → Prop} {R : γ → KState → γ → KState → Prop}
    {t : Nat} {f : Nat → Kern Unit} (U : γ → Nat → Use) (K : Nat → Use) (hR : ∀ g s, R g s g s)
    (hT : ∀ {g s g₁ s₁ g₂ s₂}, I g s → R g s g₁ s₁ → R g₁ s₁ g₂ s₂ → R g s g₂ s₂)
    (hread : ∀ {g s i}, I g s → i < 512 →
      (pteAt s.mem (t + 8 * i)).has PTE_V = false ∧ (∀ p, U g p ≠ K i) ∨
        ∃ c, U g c = K i ∧ pteAt s.mem (t + 8 * i) = tableEntry c ∧ PTE2PA (tableEntry c) = c)
    (hchild : ∀ {g s i c}, I g s → i < 512 → U g c = K i → ∃ g' s',
      (f c >>= fun _ => writePte (t + 8 * i) 0#64) s = .ok ((), s') ∧ I g' s' ∧ R g s g' s' ∧
        ∀ p j, U g' p = K j → U g p = K j ∧ j ≠ i) {g : γ} {s : KState} (h : I g s) :
    ∃ g' s', freewalkLoop f t 512 0 s = .ok ((), s') ∧ I g' s' ∧ R g s g' s' ∧ ∀ p, ∀ j < 512,
    U g' p ≠ K j := by
  suffices hloop : ∀ k i g s, i + k = 512 → I g s → (∀ p, ∀ j < i, U g p ≠ K j) → ∃ g' s',
      freewalkLoop f t k i s = .ok ((), s') ∧ I g' s' ∧ R g s g' s' ∧ ∀ p, ∀ j < 512,
      U g' p ≠ K j from
    hloop 512 0 g s rfl h nofun
  intro k
  induction k with
  | zero => exact fun i g s hi h hdone => ⟨g, s, rfl, h, hR g s, fun p j hj => hdone p j (by omega)⟩
  | succ k ih =>
    intro i g s hi h hdone
    rw [freewalkLoop, readPte_bind]
    rcases hread h (show i < 512 by omega) with ⟨hinv, hno⟩ | ⟨c, hc, e, e'⟩
    · simp only [hinv, Bool.false_and, false_eq_true, if_false]
      refine ih (i + 1) g s (by omega) h fun p j hj => ?_
      rcases Nat.lt_succ_iff_lt_or_eq.1 hj with hj | rfl
      exacts [hdone p j hj, hno p]
    · obtain ⟨g1, s1, e1, h1, hR1, hk⟩ := hchild h (by omega) hc
      obtain ⟨g2, s2, e2, h2, hR2, hno⟩ := ih (i + 1) g1 s1 (by omega) h1 fun p j hj hp =>
        hdone p j (Nat.lt_of_le_of_ne (Nat.le_of_lt_succ hj) (hk p j hp).2) (hk p j hp).1
      refine ⟨g2, s2, ?_, h2, hT h hR1 hR2, hno⟩
      rw [e]
      simp only [tableEntry_V, tableEntry_RWX, Bool.true_and, Bool.not_false, if_true]
      rw [e']
      exact (bind_bind_ok e1).trans e2

/-! ## Walking with allocation -/

/-- `walk` at an entry that is not valid: a fresh table is linked in, and the walk goes on from
it. -/
def linkTable (e : Nat) (f : Nat → Kern (Option Nat)) : Kern (Option Nat) :=
  kalloc >>= fun o => match o with
    | none => pure none
    | some c => memset c 0 PGSIZE >>= fun _ => writePte e (PA2PTE c ||| PTE_V) >>= fun _ => f c

section

variable {γ : Type} {s : KState} {t va l : Nat}

theorem walkFrom_link (h : (pteAt s.mem (t + 8 * PX (l + 1) va)).has PTE_V = false) :
    walkFrom true va (l + 1) t s = linkTable (t + 8 * PX (l + 1) va) (walkFrom true va l) s := by
  rw [walkFrom, readPte_bind, if_neg (eq_false_iff.1 h), if_pos rfl]
  rfl

theorem walkFrom_down (e : pteAt s.mem (t + 8 * PX (l + 1) va) = tableEntry p)
    (e' : PTE2PA (tableEntry p) = p) : walkFrom true va (l + 1) t s = walkFrom true va l p s := by
  rw [walkFrom, readPte_bind, e, if_pos (tableEntry_V p), e']

/-- **Tables may be linked in** on the way to region `q` of the tree at `r`: an invariant of the
trees `U g` and the memory, and what linking a fresh page does to both. -/
structure Linking (I : γ → KState → Prop) (R : γ → KState → γ → KState → Prop) (U : γ → Nat → Use)
    (r q : Nat) : Prop where
  tables : ∀ {g s}, I g s → Tables (U g) s.mem ∧ Paged (U g)
  refl : ∀ g s, R g s g s
  trans : ∀ {g s g₁ s₁ g₂ s₂}, I g s → R g s g₁ s₁ → R g₁ s₁ g₂ s₂ → R g s g₂ s₂
  link : ∀ {g s t j w} (f : Nat → Kern (Option Nat)), I g s → Parent (U g) t j w →
    w = .mid r (q / 512) ∨ w = .low r q → (pteAt s.mem (t + 8 * j)).has PTE_V = false →
    linkTable (t + 8 * j) f s = .ok (none, s) ∧ s.freelist = [] ∨
    ∃ c s' g', linkTable (t + 8 * j) f s = f c s' ∧ U g' c = w ∧ I g' s' ∧ R g s g' s' ∧
      s.freelist.length = s'.freelist.length + 1

/-- What a walk to page `v` ends in, with at most `n` tables linked in. -/
structure Walked (I : γ → KState → Prop) (R : γ → KState → γ → KState → Prop) (U : γ → Nat → Use)
    (r v n : Nat) (g : γ) (s : KState) (o : Option Nat) (g' : γ) (s' : KState) : Prop where
  inv : I g' s'
  rel : R g s g' s'
  found : ∀ a, o = some a → ∃ p, U g' p = .low r (v / 512) ∧ a = p + 8 * (v % 512)
  failed : o = none → s.freelist.length < n ∧ s'.freelist = [] ∧ ∀ p, U g' p ≠ .low r (v / 512)
  cost : s.freelist.length ≤ s'.freelist.length + n

variable {I : γ → KState → Prop} {R : γ → KState → γ → KState → Prop} {U : γ → Nat → Use} {g : γ}

/-- The walk from a level-1 page. -/
theorem Linking.walk_mid (L : Linking I R U r (va / 4096 / 512)) (h : I g s)
    (hmid : U g t = .mid r (va / 4096 / 2 ^ 18)) : ∃ o s' g', walkFrom true va 1 t s = .ok (o, s') ∧
    Walked I R U r (va / 4096) 1 g s o g' s' := by
  obtain ⟨h0, h1, -⟩ := PX_page va
  obtain ⟨hT, hp⟩ := L.tables h
  have hj : va / 4096 / 2 ^ 9 % 512 < 512 := Nat.mod_lt _ (by decide)
  have hq : 512 * (va / 4096 / 2 ^ 18) + va / 4096 / 2 ^ 9 % 512 = va / 4096 / 512 := by omega
  have hend : ∀ s' p, walkFrom true va 0 p s' = .ok (some (p + 8 * (va / 4096 % 512)), s') :=
    fun s' p => by
    rw [walkFrom, h0]
    rfl
  have hread := hT.mid_read hp hmid hj
  rw [hq, ← h1] at hread
  rcases hread with ⟨hinv, hno⟩ | ⟨p, hp, e, e'⟩
  · have hP : Parent (U g) t (PX 1 va) (.low r (va / 4096 / 512)) :=
      ⟨h1 ▸ hj, .inr ⟨r, va / 4096 / 2 ^ 18, hmid, by rw [h1, hq]⟩⟩
    rw [walkFrom_link hinv]
    rcases L.link (walkFrom true va 0) h hP (.inr rfl) hinv with
      ⟨e, hf⟩ | ⟨c, s', g', e, hc, h', hR, hl⟩
    · exact ⟨none, s, g, e, h, L.refl g s, nofun, fun _ => ⟨by simp [hf], hf, hno⟩, by omega⟩
    · exact ⟨_, s', g', e.trans (hend s' c), h', hR,
        fun a ha => ⟨c, hc, (some.inj ha).symm⟩, nofun, hl.le⟩
  · rw [walkFrom_down e e']
    exact ⟨_, s, g, hend s p, h, L.refl g s, fun a ha => ⟨p, hp, (some.inj ha).symm⟩,
      nofun, by omega⟩

/-- **`walk` with allocation** finds the entry, or runs out of memory. -/
theorem Linking.walk (L : Linking I R U r (va / 4096 / 512)) (h : I g s) (hr : U g r = .root)
    (hva : va < MAXVA) : ∃ o s' g', walk r va true s = .ok (o, s') ∧
    Walked I R U r (va / 4096) 2 g s o g' s' := by
  obtain ⟨-, -, h2⟩ := PX_page va
  obtain ⟨hT, hp⟩ := L.tables h
  have hlt : ¬ va ≥ MAXVA := by omega
  rw [MAXVA_eq] at hva
  have hj : va / 4096 / 2 ^ 18 < 512 := by omega
  rw [Nat.mod_eq_of_lt hj] at h2
  have hread := hT.root_read hp hr hj
  rw [Xv6.walk, if_neg hlt]
  rw [← h2] at hread hj
  rcases hread with ⟨hinv, hno⟩ | ⟨p, hp, e, e'⟩
  · rw [walkFrom_link hinv]
    rcases L.link (walkFrom true va 1) h ⟨hj, .inl ⟨hr, rfl⟩⟩
      (.inl (by rw [h2]; congr 1; omega)) hinv with
      ⟨e, hf⟩ | ⟨c, s', g', e, hc, h', hR, hl⟩
    · refine ⟨none, s, g, e, h, L.refl g s, nofun,
        fun _ => ⟨by simp [hf], hf, fun p hp => ?_⟩, by omega⟩
      obtain ⟨t', h3, -⟩ := hT.low_parent p r _ hp
      exact hno t' (by rw [h3, h2, show va / 4096 / 512 / 512 = va / 4096 / 2 ^ 18 by omega])
    · obtain ⟨o, s'', g'', e', hW⟩ := L.walk_mid h' (h2 ▸ hc)
      have hcost := hW.cost
      refine ⟨o, s'', g'', e.trans e', hW.inv, L.trans h hR hW.rel, hW.found,
        fun ho => ?_, by omega⟩
      obtain ⟨hn, hf, hno⟩ := hW.failed ho
      exact ⟨by omega, hf, hno⟩
  · obtain ⟨o, s', g', e1, hW⟩ := L.walk_mid h (h2 ▸ hp)
    have hcost := hW.cost
    refine ⟨o, s', g', (walkFrom_down e e').trans e1, hW.inv, hW.rel, hW.found,
      fun ho => ?_, by omega⟩
    obtain ⟨hn, hf, hno⟩ := hW.failed ho
    exact ⟨by omega, hf, hno⟩

/-! ## Taking a tree down -/

/-- A page that has been freed has no other use. -/
theorem ne_of_update {use : Nat → Use} {c : Nat} {u : Use} (h : update use c .free p = u)
    (hu : u ≠ .free) : p ≠ c := by
  rintro rfl
  exact hu (by rw [← h, update_self])

variable [Layout]

/-- **Tables may be taken out** of the tree at `r`, which has no leaves: an invariant of the trees
`U g` and the memory, and what freeing a table with none below it does to both. -/
structure Felling (I : γ → KState → Prop) (R : γ → KState → γ → KState → Prop) (U : γ → Nat → Use)
    (r : Nat) : Prop where
  tables : ∀ {g s}, I g s → Tables (U g) s.mem ∧ Paged (U g)
  refl : ∀ g s, R g s g s
  trans : ∀ {g s g₁ s₁ g₂ s₂}, I g s → R g s g₁ s₁ → R g₁ s₁ g₂ s₂ → R g s g₂ s₂
  old : ∀ {g s g' s' p u}, R g s g' s' → U g' p = u → u ≠ .free → U g p = u
  leafless : ∀ {g s p q}, I g s → U g p = .low r q → ∀ k < 512,
    (pteAt s.mem (p + 8 * k)).has PTE_V = false
  free : ∀ {g s t j c}, I g s → Parent (U g) t j (U g c) →
    (∃ q, U g c = .low r q) ∨ (∃ i, U g c = .mid r i ∧ ∀ p q, U g p = .low r q → q / 512 ≠ i) →
    ∃ g' s',
      (kfree c >>= fun _ => writePte (t + 8 * j) 0#64) s = .ok ((), s') ∧ I g' s' ∧ R g s g' s' ∧
        U g' = update (U g) c .free

namespace Felling

variable (F : Felling I R U r)

include F

/-- The level-0 pages under a level-1 page are freed… -/
theorem mid (h : I g s) (ht : U g t = .mid r v) :
    ∃ g' s', freewalkFrom 2 t s = kfree t s' ∧ (I g' s' ∧ U g' t = .mid r v) ∧ R g s g' s' ∧
      ∀ p q, U g' p = .low r q → q / 512 ≠ v := by
  have hloop := freewalkLoop_kids (f := freewalkFrom 1) (I := fun g s => I g s ∧ U g t = .mid r v) U
    (fun j => .low r (512 * v + j)) F.refl (fun h => F.trans h.1)
    (fun h hi => (F.tables h.1).1.mid_read (F.tables h.1).2 h.2 hi)
    (@fun g s i c hI hi hc => ?_) ⟨h, ht⟩
  · obtain ⟨g', s', e, hI, hR, hno⟩ := hloop
    refine ⟨g', s', by rw [freewalkFrom, bind_ok e], hI, hR, ?_⟩
    rintro p q hq rfl
    exact hno p (q % 512) (Nat.mod_lt _ (by decide)) (by rw [hq, Nat.div_add_mod])
  · obtain ⟨h, ht⟩ := hI
    have hP : Parent (U g) t i (U g c) := ⟨hi, .inr ⟨r, v, ht, hc⟩⟩
    have hfw : freewalkFrom 1 c s = kfree c s := by
      rw [freewalkFrom, bind_ok (freewalkLoop_low _ fun j _ hj => F.leafless h hc j (by omega))]
    obtain ⟨g1, s1, e1, h1, hR1, hU1⟩ := F.free h hP (.inl ⟨_, hc⟩)
    refine ⟨g1, s1, (bind_congr_left hfw).trans e1, ⟨h1, by rw [hU1, update_of_ne hP.ne, ht]⟩, hR1,
      fun p j hp => ⟨F.old hR1 hp nofun, ?_⟩⟩
    rintro rfl
    have hpc := (F.tables h).1.low_unique (F.tables h).2 (F.old hR1 hp nofun) hc
    rw [hU1] at hp
    exact ne_of_update hp nofun hpc

/-- …and so is every table page **under a root**, before the root itself. -/
theorem root (h : I g s) (hr : U g r = .root) :
    ∃ g' s', freewalk r s = kfree r s' ∧ (I g' s' ∧ U g' r = .root) ∧ R g s g' s' ∧ ∀ p j,
    U g' p ≠ .mid r j := by
  have hloop := freewalkLoop_kids (f := freewalkFrom 2) (I := fun g s => I g s ∧ U g r = .root) U
    (fun j => .mid r j) F.refl (fun h => F.trans h.1)
    (fun h hi => (F.tables h.1).1.root_read (F.tables h.1).2 h.2 hi)
    (@fun g s i c hI hi hc => ?_) ⟨h, hr⟩
  · obtain ⟨g', s', e, hI, hR, hno⟩ := hloop
    exact ⟨g', s', by rw [freewalk, freewalkFrom, bind_ok e], hI, hR, fun p j hp =>
      hno p j ((F.tables hI.1).1.mid_parent p r j hp).1 hp⟩
  · -- first the level-0 pages under `c`, then `c`
    obtain ⟨h, hr⟩ := hI
    obtain ⟨g1, s1, e1, ⟨h1, hc1⟩, hR1, hno1⟩ := F.mid h hc
    obtain ⟨hT1, hp1⟩ := F.tables h1
    have hP : Parent (U g1) r i (U g1 c) := ⟨hi, .inl ⟨(hT1.mid_parent c r i hc1).2.1, hc1⟩⟩
    obtain ⟨g2, s2, e2, h2, hR2, hU2⟩ := F.free h1 hP (.inr ⟨i, hc1, hno1⟩)
    have hR := F.trans h hR1 hR2
    refine ⟨g2, s2, (bind_congr_left e1).trans e2,
      ⟨h2, by rw [hU2, update_of_ne hP.ne, (hT1.mid_parent c r i hc1).2.1]⟩, hR,
      fun p j hp => ⟨F.old hR hp nofun, ?_⟩⟩
    rintro rfl
    have hpc := hT1.mid_unique hp1 (F.old hR2 hp nofun) hc1
    rw [hU2] at hp
    exact ne_of_update hp nofun hpc

end Felling

end

end Xv6
