import Mathlib.Logic.Function.Basic
import Mathlib.Tactic.Common
import Mathlib.Tactic.Ring

/-!
# Lib/Bytes — byte stores, little-endian words and `uint`s

A byte store is a function from addresses to bytes.  Every write of the development is an
`overlay`: it replaces one interval and leaves the rest, so one pair of lemmas (`overlay_in`,
`overlay_out`) frames them all.  `getLE` and `setLE` read and write words of any width.
-/

/-- A `uint` counts modulo this. -/
def UINT : Nat := 2 ^ 32

namespace Bytes

/-- Replace the `n` bytes at `a` by `f 0, f 1, …`. -/
def overlay (m : Nat → UInt8) (a n : Nat) (f : Nat → UInt8) : Nat → UInt8 := fun x =>
  if a ≤ x ∧ x < a + n then f (x - a) else m x

variable {m m' : Nat → UInt8} {a b n k x v : Nat} {f : Nat → UInt8}

theorem overlay_in (h : a ≤ x) (h' : x < a + n) : overlay m a n f x = f (x - a) :=
  if_pos ⟨h, h'⟩

theorem overlay_out (h : x < a ∨ a + n ≤ x) : overlay m a n f x = m x :=
  if_neg (by omega)

/-- Writes to disjoint intervals commute. -/
theorem overlay_comm {g : Nat → UInt8} (h : a + n ≤ b ∨ b + k ≤ a) :
    overlay (overlay m a n f) b k g = overlay (overlay m b k g) a n f := by
  funext x
  unfold overlay
  split
  · rw [if_neg (by omega)]
  · rfl

/-- `memset`. -/
def fill (m : Nat → UInt8) (a n : Nat) (c : UInt8) : Nat → UInt8 := overlay m a n fun _ => c

theorem fill_in {c : UInt8} (h : a ≤ x) (h' : x < a + n) : fill m a n c x = c := overlay_in h h'

theorem fill_out {c : UInt8} (h : x < a ∨ a + n ≤ x) : fill m a n c x = m x := overlay_out h

/-- `memmove`: the source is read before anything is written. -/
def copy (m : Nat → UInt8) (dst src n : Nat) : Nat → UInt8 := overlay m dst n fun i => m (src + i)

theorem copy_in {src : Nat} (h : x < n) : copy m a src n (a + x) = m (src + x) := by
  unfold copy
  rw [overlay_in (Nat.le_add_right a x) (by omega), Nat.add_sub_cancel_left]

theorem copy_out {src : Nat} (h : x < a ∨ a + n ≤ x) : copy m a src n x = m x := overlay_out h

/-- Store a string of bytes. -/
def put (m : Nat → UInt8) (a : Nat) (l : List UInt8) : Nat → UInt8 :=
  overlay m a l.length fun i => l.getD i 0

/-- The `n` bytes at `a`. -/
def take (m : Nat → UInt8) (a n : Nat) : List UInt8 := (List.range n).map fun i => m (a + i)

@[simp] theorem length_take : (take m a n).length = n := by simp [take]

/-! ## Words -/

/-- The `n`-byte little-endian word at `a`. -/
def getLE (m : Nat → UInt8) : Nat → Nat → Nat
  | _, 0 => 0
  | a, n + 1 => (m a).toNat + 256 * getLE m (a + 1) n

/-- Store `v` as an `n`-byte little-endian word at `a`. -/
def setLE (m : Nat → UInt8) (a n v : Nat) : Nat → UInt8 :=
  overlay m a n fun i => UInt8.ofNat (v / 256 ^ i)

theorem getLE_lt : ∀ (a n : Nat), getLE m a n < 256 ^ n
  | _, 0 => by simp [getLE]
  | a, n + 1 => by
      have h := getLE_lt (a + 1) n
      have hb : (m a).toNat < 256 := (m a).toNat_lt
      rw [getLE, pow_succ]
      omega

theorem getLE_congr : ∀ {a b : Nat} (n : Nat), (∀ i < n, m (a + i) = m' (b + i)) →
    getLE m a n = getLE m' b n
  | _, _, 0, _ => rfl
  | a, b, n + 1, h => by
      have h0 : m a = m' b := h 0 (Nat.succ_pos n)
      have hs : getLE m (a + 1) n = getLE m' (b + 1) n := getLE_congr n fun i hi => by
        have := h (i + 1) (by omega)
        rwa [show a + (i + 1) = a + 1 + i by omega, show b + (i + 1) = b + 1 + i by omega] at this
      rw [getLE, getLE, h0, hs]

/-- Reading a word back out of the bytes of `v`. -/
theorem getLE_digits : ∀ (a n v : Nat), (∀ i < n, m (a + i) = UInt8.ofNat (v / 256 ^ i)) →
    getLE m a n = v % 256 ^ n
  | _, 0, v, _ => by simp [getLE, Nat.mod_one]
  | a, n + 1, v, h => by
      have h0 : (m a).toNat = v % 256 := by
        have := h 0 (Nat.succ_pos n)
        rw [Nat.add_zero, pow_zero, Nat.div_one] at this
        rw [this, UInt8.toNat_ofNat']
      have hs : getLE m (a + 1) n = v / 256 % 256 ^ n := by
        refine getLE_digits (a + 1) n (v / 256) fun i hi => ?_
        have := h (i + 1) (by omega)
        rwa [show a + (i + 1) = a + 1 + i by omega, pow_succ', ← Nat.div_div_eq_div_mul] at this
      rw [getLE, h0, hs, pow_succ', Nat.mod_mul]

/-- **A stored word reads back.** -/
theorem getLE_setLE (a n v : Nat) : getLE (setLE m a n v) a n = v % 256 ^ n :=
  getLE_digits a n v fun i hi => by
    rw [setLE, overlay_in (by omega) (by omega), Nat.add_sub_cancel_left]

/-- **A word outside a write is unchanged.** -/
theorem getLE_overlay_out (h : b + k ≤ a ∨ a + n ≤ b) :
    getLE (overlay m a n f) b k = getLE m b k :=
  getLE_congr k fun i hi => overlay_out (by omega)

theorem getLE_setLE_out (h : b + k ≤ a ∨ a + n ≤ b) : getLE (setLE m a n v) b k = getLE m b k :=
  getLE_overlay_out h

/-- A word inside a run of zero bytes. -/
theorem getLE_zero (h : ∀ i < n, m (a + i) = 0) : getLE m a n = 0 := by
  rw [getLE_digits a n 0 fun i hi => by rw [h i hi, Nat.zero_div]; rfl, Nat.zero_mod]

end Bytes
