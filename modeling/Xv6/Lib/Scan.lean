import Mathlib.Data.List.Basic

/-!
# Lib/Scan — a cursor running over a buffer

`while(s < e && p(b[s])) s++` as a function of the cursor.  A buffer is the text `l` followed by
whatever terminates it; the elements a scan passes over are the longest leading run of `p` in what
is left of the text, and what is left afterwards is the text without that run.
-/

variable {α : Type*}

/-- Move the cursor `s` forward, over at most `n` elements, as long as they satisfy `p`. -/
def scan (p : α → Bool) (b : List α) : Nat → Nat → Nat
  | 0, s => s
  | n + 1, s => if (b[s]?).any p then scan p b n (s + 1) else s

/-- The elements between two cursors. -/
def slice (b : List α) (q e : Nat) : List α := (b.drop q).take (e - q)

namespace Scan

open List

variable {p : α → Bool} {b l t : List α} {n s : Nat}

theorem scan_eq (p : α → Bool) (b : List α) (n s : Nat) :
    scan p b n s = s + (((b.drop s).take n).takeWhile p).length := by
  induction n generalizing s with
  | zero => simp [scan]
  | succ n ih =>
    cases hc : b[s]? with
    | none =>
      have hd : b.drop s = [] := drop_eq_nil_of_le (getElem?_eq_none_iff.1 hc)
      simp [scan, hc, hd]
    | some c =>
      obtain ⟨hs, hget⟩ := List.getElem?_eq_some_iff.1 hc
      have hd : b.drop s = c :: b.drop (s + 1) := hget ▸ drop_eq_getElem_cons hs
      cases hp : p c with
      | false => simp [scan, hc, hp, hd]
      | true =>
        simp only [scan, hc, Option.any_some, hp, if_true, ih, hd, take_succ_cons,
          takeWhile_cons_of_pos, length_cons]
        omega

/-- **The scan of a text stops at the end of its leading run.** -/
theorem scan_text (hs : s ≤ l.length) :
    scan p (l ++ t) (l.length - s) s = s + ((l.drop s).takeWhile p).length := by
  have h : ((l ++ t).drop s).take (l.length - s) = l.drop s := by
    rw [drop_append_of_le_length hs, take_left' (length_drop ..)]
  rw [scan_eq, h]

theorem scan_le (hs : s ≤ l.length) : scan p (l ++ t) (l.length - s) s ≤ l.length := by
  have h := (List.takeWhile_prefix (l := l.drop s) p).length_le
  rw [length_drop] at h
  rw [scan_text hs]
  omega

/-- …and the rest of the text is ahead of it. -/
theorem drop_scan (hs : s ≤ l.length) :
    l.drop (scan p (l ++ t) (l.length - s) s) = (l.drop s).dropWhile p := by
  rw [scan_text hs, ← drop_drop]
  calc (l.drop s).drop ((l.drop s).takeWhile p).length
      = ((l.drop s).takeWhile p ++ (l.drop s).dropWhile p).drop
          ((l.drop s).takeWhile p).length := by rw [takeWhile_append_dropWhile]
    _ = (l.drop s).dropWhile p := drop_left

end Scan
