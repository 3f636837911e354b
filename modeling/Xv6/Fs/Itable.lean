import Xv6.Fs.Data

/-!
# Fs/Itable — entries of the inode table

What the functions that take, lock and drop entries do to a consistent disk.  `Good.setIno` is the
rule for a change of one entry: an entry in use is for one inode, which no other entry is for, and
its copy of the inode is the inode.
-/

namespace Xv6.Fsys

open Act Bytes Function

variable [Super] {x y : Set Nat} {G G' : Ghost} {s t : Fs} {i j k : Nat} {ip : Inode}

omit [Super] in
theorem setIno_self : (s.setIno k ip).itable k = ip := update_self ..

omit [Super] in
theorem setIno_of_ne (h : j ≠ k) : (s.setIno k ip).itable j = s.itable j := update_of_ne h ..

/-- **An entry of the table changes.** -/
theorem Good.setIno (h : Good x y G s)
    (hip : 0 < ip.ref → Ino ip.inum ∧ (ip.valid = true → ip.d = G.ino ip.inum) ∧
      ∀ k' < NINODE, k' ≠ k → 0 < (s.itable k').ref → (s.itable k').inum ≠ ip.inum) :
      Good x y G (s.setIno k ip) := by
  refine { h with
    mem := fun k' hk hr hv => ?_, range := fun k' hk hr => ?_
    uniq := fun k₁ h1 k₂ h2 r1 r2 he => ?_ }
  · by_cases e : k' = k
    · subst e
      rw [setIno_self] at *
      exact (hip hr).2.1 hv
    · rw [setIno_of_ne e] at *
      exact h.mem k' hk hr hv
  · by_cases e : k' = k
    · subst e
      rw [setIno_self] at *
      exact (hip hr).1
    · rw [setIno_of_ne e] at *
      exact h.range k' hk hr
  · by_cases e1 : k₁ = k
    · by_cases e2 : k₂ = k
      · rw [e1, e2]
      · subst e1
        rw [setIno_self] at r1 he
        rw [setIno_of_ne e2] at r2 he
        exact absurd he.symm ((hip r1).2.2 k₂ h2 e2 r2)
    · rw [setIno_of_ne e1] at r1 he
      by_cases e2 : k₂ = k
      · subst e2
        rw [setIno_self] at r2 he
        exact absurd he ((hip r2).2.2 k₁ h1 e1 r1)
      · rw [setIno_of_ne e2] at r2 he
        exact h.uniq k₁ h1 k₂ h2 r1 r2 he

/-- No other entry is for the inode of an entry in use. -/
theorem Good.other_inum (h : Good x y G s) (hk : Held s k i) {k' : Nat} (hk' : k' < NINODE)
    (hne : k' ≠ k) (hr : 0 < (s.itable k').ref) : (s.itable k').inum ≠ i := fun e =>
  hne (h.uniq k' hk' k hk.lt hr hk.ref (e.trans hk.inum.symm))

/-! ## Locks -/

/-- The state when an entry has been locked, and read. -/
def Fs.lock (s : Fs) (k : Nat) : Fs :=
  s.setIno k { s.itable k with
    locked := true
    valid := true
    d := if (s.itable k).valid then (s.itable k).d else s.dino (s.itable k).inum }

/-- …and unlocked. -/
def Fs.unlock (s : Fs) (k : Nat) : Fs := s.setIno k { s.itable k with locked := false }

theorem wp_ilock {Q : Unit → Fs → Prop} {E : Panic → Prop} (hr : 0 < (s.itable k).ref)
    (hu : (s.itable k).locked = false)
    (ht : (s.itable k).valid = true ∨ (s.dino (s.itable k).inum).type ≠ 0) :
    wp (ilock k) Q E s ↔ Q () (s.lock k) := by
  have hrun : ilock k s = .ok ((), s.lock k) := by
    unfold ilock Fs.lock
    simp only
    rw [if_neg (by omega), hu, if_neg (by decide)]
    by_cases hv : (s.itable k).valid = true
    · rw [if_pos hv, if_pos hv]
      congr
    · rw [if_neg hv, if_neg hv, if_neg (ht.resolve_left hv)]
  unfold wp
  rw [hrun]

omit [Super] in
theorem wp_iunlock {Q : Unit → Fs → Prop} {E : Panic → Prop} (hr : 0 < (s.itable k).ref)
    (hu : (s.itable k).locked = true) : wp (iunlock k) Q E s ↔ Q () (s.unlock k) := by
  have hrun : iunlock k s = .ok ((), s.unlock k) := by
    unfold iunlock
    simp only
    rw [if_neg]
    · rfl
    · rintro (h | h)
      · rw [hu] at h
        cases h
      · omega
  unfold wp
  rw [hrun]

/-- **`ilock`** reads the inode. -/
theorem Good.lock (h : Good x y G s) (hk : Held s k i) (hx : (s.itable k).valid = true ∨ i ∉ x) :
    Good x y G (s.lock k) ∧ Loaded (s.lock k) k i := by
  refine ⟨h.setIno fun _ => ⟨?_, fun _ => ?_, fun k' hk' hne hr => ?_⟩, ⟨hk.lt, ?_, ?_⟩, ?_⟩
  · show Ino (s.itable k).inum
    rw [hk.inum]
    exact h.ino hk
  · show (if (s.itable k).valid then (s.itable k).d else s.dino (s.itable k).inum) =
        G.ino (s.itable k).inum
    split
    next hv => exact h.mem k hk.lt hk.ref hv
    next hv =>
      rw [hk.inum]
      exact h.disk i (h.ino hk) (hx.resolve_left hv)
  · show (s.itable k').inum ≠ (s.itable k).inum
    rw [hk.inum]
    exact h.other_inum hk hk' hne hr
  · unfold Fs.lock
    rw [setIno_self]
    exact hk.ref
  · unfold Fs.lock
    rw [setIno_self]
    exact hk.inum
  · unfold Fs.lock
    rw [setIno_self]

theorem Good.unlock (h : Good x y G s) (hk : Held s k i) :
    Good x y G (s.unlock k) ∧ Held (s.unlock k) k i := by
  refine ⟨h.setIno fun hr => ⟨?_, fun hv => h.mem k hk.lt hr hv, fun k' hk' hne hr' => ?_⟩, hk.lt,
    ?_, ?_⟩
  · show Ino (s.itable k).inum
    rw [hk.inum]
    exact h.ino hk
  · show (s.itable k').inum ≠ (s.itable k).inum
    rw [hk.inum]
    exact h.other_inum hk hk' hne hr'
  · unfold Fs.unlock
    rw [setIno_self]
    exact hk.ref
  · unfold Fs.unlock
    rw [setIno_self]
    exact hk.inum

end Xv6.Fsys
