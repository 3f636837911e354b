import Xv6.Vm.OwnTable

/-!
# Vm/Walk — `walk` with allocation, and mapping one page

`Own.linking`: the walk either finds the entry of a page, linking empty tables on the way, or runs
out of memory; no mapping changes.  `mappages_page` is `mappages` for one page: the walk, then one
store to an entry that was not valid.
-/

namespace Xv6

open Act Bytes Set

variable [Layout] {G G' : Ghost} {s s' : KState} {t j c r q v p va a : Nat} {w : Use} {x : Pte}
  {X : Set (Nat × Nat)} {Y : Set Nat}

/-! ## Fresh zeroed pages -/

/-- **`kalloc` and `memset`**: a held page of zeros. -/
theorem zalloc_spec {α : Type} (h : Own G s) {f : Nat → Kern α} {e : Kern α} :
    (s.freelist = [] ∧ (kalloc >>= fun o => match o with
      | none => e
      | some c => memset c 0 PGSIZE >>= fun _ => f c) s = e s) ∨
    ∃ c s', (kalloc >>= fun o => match o with
      | none => e
      | some c => memset c 0 PGSIZE >>= fun _ => f c) s = f c s' ∧ IsPage c ∧ G.use c = .free ∧
      Own (G.setUse c .held) s' ∧ Frame X {c} G (G.setUse c .held) s s' ∧
      (∀ o < 4096, s'.mem (c + o) = 0) ∧ s.freelist = c :: s'.freelist ∧
      ∀ y, y < c ∨ c + 4096 ≤ y → s'.mem y = s.mem y := by
  rcases kalloc_spec (X := X) h with ⟨hf, hk⟩ | ⟨c, s1, hk, hpa, hfree, h1, hF, hfl, hmem⟩
  · exact .inl ⟨hf, by rw [bind_ok hk]⟩
  · have ht : ¬ ((G.setUse c .held).use c).IsTable := by simp [Use.IsTable]
    refine .inr ⟨c, { s1 with mem := fill s1.mem c PGSIZE 0 }, ?_, hpa, hfree,
      h1.overlay hpa ht le_rfl (by simp),
      hF.trans h.leaves (Frame.overlay h1 hpa ht le_rfl (by simp)
        (fun r v hm e => absurd e (h1.leaves.not_mapped (by simp) hm)) fun _ => rfl),
      fun o ho => ?_, hfl, fun y hy => ?_⟩
    · rw [bind_ok hk]
      rfl
    · exact fill_in (Nat.le_add_right c o) (by simpa using ho)
    · rw [← hmem y hy]
      exact fill_out (by simpa using hy)

/-! ## `walk` -/

/-- Linking a fresh table into entry `j` of table `t`. -/
theorem walk_link (f : Nat → Kern (Option Nat)) (h : Own G s) (hP : Parent G.use t j w)
    (hw : w = .mid r (q / 512) ∨ w = .low r q)
    (hinv : (pteAt s.mem (t + 8 * j)).has PTE_V = false) :
    linkTable (t + 8 * j) f s = .ok (none, s) ∧ s.freelist = [] ∨ ∃ c s' G',
    linkTable (t + 8 * j) f s = f c s' ∧ G'.use c = w ∧ Own G' s' ∧
      (Frame ∅ ∅ G G' s s' ∧ Growth {(r, q)} G G') ∧
      s.freelist.length = s'.freelist.length + 1 := by
  rcases zalloc_spec (X := ∅) (e := pure none)
    (f := fun c => writePte (t + 8 * j) (PA2PTE c ||| PTE_V) >>= fun _ => f c) h with
    ⟨hf, hk⟩ | ⟨c, s1, hk, hpa, hfree, h1, hF, hz, hfl, hmem⟩
  · exact .inl ⟨hk, hf⟩
  · right
    have htc : t ≠ c := by rintro rfl; simpa [hfree, Use.IsTable] using hP.table
    have hP1 : Parent (G.setUse c .held).use t j w := by
      unfold Parent
      rw [Ghost.setUse_ne htc]
      exact hP
    have hinv1 : (pteAt s1.mem (t + 8 * j)).has PTE_V = false := by
      have ht : IsPage t := h.isPage fun e => by simpa [e, Use.IsTable] using hP.table
      have h2 := ht.bounds
      have h3 := hpa.bounds
      have h4 := hP.1
      rwa [pteAt_congr fun y _ _ => hmem y (by omega)]
    refine ⟨c, { s1 with mem := setPte s1.mem (t + 8 * j) (tableEntry c) }, G.setUse c w, hk,
      Ghost.setUse_self, ?_, ⟨?_, ?_⟩, by rw [hfl, List.length_cons]⟩
    · rw [← Ghost.setUse_setUse (u := .held)]
      exact h1.link hP1 hinv1 Ghost.setUse_self hz
    · have hF2 := hF.trans h.leaves
        (Frame.link h1 hP1 hinv1 Ghost.setUse_self hz (mem_singleton c))
      rw [Ghost.setUse_setUse] at hF2
      refine (hF2.mono subset_rfl (singleton_subset_iff.2 (mem_insert c ∅))).drop ?_ ?_
        fun r => Iff.rfl
      · simp [hfree, Use.Stays]
      · rcases hw with rfl | rfl <;> simp [Use.Stays]
    · refine Growth.setUse (by rw [hfree]; trivial) ?_
      rcases hw with rfl | rfl
      exacts [⟨q, rfl, mem_singleton _⟩, mem_singleton _]

/-- **`walk` changes no mapping.** -/
theorem Own.linking :
    Linking Own (fun G s G' s' => Frame ∅ ∅ G G' s s' ∧ Growth {(r, q)} G G') Ghost.use r q where
  tables h := ⟨h.tables, h.paged⟩
  refl _ _ := ⟨.refl .., Growth.refl _ _⟩
  trans h h1 h2 := ⟨h1.1.trans h.leaves h2.1, h1.2.trans h2.2⟩
  link f h hP hw hinv := walk_link f h hP hw hinv

omit [Layout] in
/-- Where the entry exists, the walk allocates nothing. -/
theorem walk_found (hva : va < MAXVA) (ha : leafAddr s.mem r (va / 4096) = some a) (b : Bool) :
    walk r va b s = .ok (some a, s) := by
  obtain ⟨h0, h1, h2⟩ := PX_page va
  have hlt : ¬ va ≥ MAXVA := by omega
  simp only [leafAddr] at ha
  rw [walk, if_neg hlt, walkFrom, readPte_bind, h2]
  split at ha
  · rename_i e2
    rw [if_pos e2, walkFrom, readPte_bind, h1]
    split at ha
    · rename_i e1
      rw [if_pos e1, walkFrom, h0, ← Option.some.inj ha]
      rfl
    · simp at ha
  · simp at ha

omit [Layout] in
theorem walk_page (hv : v < 2 ^ 26) (ha : leafAddr s.mem r v = some a) (b : Bool) :
    walk r (4096 * v) b s = .ok (some a, s) :=
  walk_found (by rw [MAXVA_eq]; omega) (by rwa [Nat.mul_div_cancel_left v (by decide)]) b

/-! ## `mappages` for one page -/

/-- **`mappages` of one page**: out of memory in the walk, or one store to the entry. -/
theorem mappages_page (h : Own G s) (hr : G.use r = .root) (hva : va % 4096 = 0) (hlt : va < MAXVA)
    (hm : (r, va / 4096) ∉ G.maps) (hs : (r, va / 4096) ∉ G.spec) (pa : Nat) :
    (∃ s1 G1, mappages r va PGSIZE pa x s = .ok (-1, s1) ∧ Own G1 s1 ∧ Frame X Y G G1 s s1 ∧
      Growth {(r, va / 4096 / 512)} G G1 ∧ s.freelist.length ≤ 1) ∨
    ∃ a s1 G1, mappages r va PGSIZE pa x s =
        .ok (0, { s1 with mem := setPte s1.mem a (PA2PTE pa ||| x ||| PTE_V) }) ∧
      Own G1 s1 ∧ Frame ∅ ∅ G G1 s s1 ∧ Growth {(r, va / 4096 / 512)} G G1 ∧
      leafAddr s1.mem r (va / 4096) = some a ∧ s.freelist.length ≤ s1.freelist.length + 2 := by
  have hloop : mappages r va PGSIZE pa x = mappagesLoop r x 0 va pa := by
    rw [MAXVA_eq] at hlt
    rw [mappages, if_neg (by decide : ¬ PGSIZE = 0)]
    simp only [PGROUNDDOWN, PGSIZE_eq]
    congr 1 <;> omega
  rw [hloop, mappagesLoop]
  obtain ⟨o, s1, G1, e1, h1, ⟨hF, hT⟩, ho, hn, hc⟩ := Own.linking.walk h hr hlt
  rw [bind_ok e1]
  rcases o with - | a
  · exact .inl ⟨s1, G1, rfl, h1, hF.mono (empty_subset _) (empty_subset _), hT,
      Nat.le_of_lt_succ (hn rfl).1⟩
  · obtain ⟨p, hp, rfl⟩ := ho a rfl
    have ha := h1.tables.leafAddr_low h1.paged hp (Nat.mod_lt (va / 4096) (by decide))
    rw [Nat.div_add_mod] at ha
    have hr1 : G1.use r = .root := (hF.root r 0 (notMem_empty _)).2 hr
    have hv : va / 4096 < 2 ^ 27 := by rw [MAXVA_eq] at hlt; omega
    have hinv : ¬ (pteAt s1.mem (p + 8 * (va / 4096 % 512))).has PTE_V = true := by
      rw [leaf_of_addr ha]
      intro hV
      rcases h1.leaves.only r _ hr1 hv (Pte.ne_zero_of_has hV) with hc | hc
      · exact hm ((hF.maps r _ (notMem_empty _)).1 hc)
      · exact hs ((hF.spec r _ (notMem_empty _)).1 hc)
    refine .inr ⟨_, s1, G1, ?_, h1, hF, hT, ha, hc⟩
    simp only
    rw [readPte_bind, if_neg hinv]
    rfl

end Xv6
