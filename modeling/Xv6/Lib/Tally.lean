import Mathlib.Algebra.BigOperators.Fin
import Mathlib.Algebra.Order.BigOperators.Group.Finset

/-!
# Lib/Tally — counting over a table

What is counted is spread over the entries of a table, and a step changes one of them.  Changes are
stated as equations between sums, so that nothing is subtracted.
-/

/-- The sum over the first `n` entries. -/
def total (n : Nat) (f : Nat → Nat) : Nat := ∑ i ∈ Finset.range n, f i

namespace Tally

open Finset

variable {n p q : Nat} {f g : Nat → Nat}

theorem total_congr (h : ∀ i < n, g i = f i) : total n g = total n f :=
  sum_congr rfl fun i hi => h i (mem_range.1 hi)

/-- **One entry changes.** -/
theorem total_change (hp : p < n) (h : ∀ i, i ≠ p → g i = f i) :
    total n g + f p = total n f + g p := by
  have hm : p ∈ Finset.range n := mem_range.2 hp
  have hg := add_sum_erase (Finset.range n) g hm
  have hf := add_sum_erase (Finset.range n) f hm
  have he : ∑ i ∈ (Finset.range n).erase p, g i = ∑ i ∈ (Finset.range n).erase p, f i :=
    sum_congr rfl fun i hi => h i (ne_of_mem_erase hi)
  unfold total
  omega

theorem le_total (hp : p < n) : f p ≤ total n f :=
  single_le_sum (fun i _ => Nat.zero_le (f i)) (mem_range.2 hp)

/-- Two entries share the total. -/
theorem add_le_total (hp : p < n) (hq : q < n) (hne : p ≠ q) : f p + f q ≤ total n f := by
  have hm := mem_range.2 hp
  have hm' : q ∈ (Finset.range n).erase p := mem_erase.2 ⟨hne.symm, mem_range.2 hq⟩
  have h1 := add_sum_erase (Finset.range n) f hm
  have h2 := single_le_sum (fun i _ => Nat.zero_le (f i)) hm'
  unfold total
  omega

theorem total_pos (h : 0 < total n f) : ∃ i < n, 0 < f i := by
  by_contra hno
  have hz : ∀ i < n, f i = 0 := fun i hi => Nat.eq_zero_of_not_pos fun hpos => hno ⟨i, hi, hpos⟩
  have := sum_eq_zero fun i hi => hz i (mem_range.1 hi)
  unfold total at h
  omega

theorem total_zero (h : ∀ i < n, f i = 0) : total n f = 0 :=
  sum_eq_zero fun i hi => h i (mem_range.1 hi)

end Tally

attribute [irreducible] total
