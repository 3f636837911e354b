import Mathlib.Data.List.Chain
import Mathlib.Tactic.Common
import Mathlib.Tactic.SplitIfs

/-!
# Lib/Blocks — linked lists, and intervals that tile a space

`Links next l` says that each node of `l` is linked to the one after it.  A change of one link is a
splice (`Links.splice`), a loop along the links that returns to its start can be started at any of
its nodes (`Links.rotate`), and a walk along them finds what is on its way (`Links.exists_follow`).

A tile is an interval, given by its first point and its length.  How often a list of tiles covers a
point (`cover`) does not change when a tile is cut in two or when two that meet are joined; tiles
that cover no point twice do not overlap (`apart_of_cover`).
-/

/-! ## Links -/

section

variable {α : Type} {next next' : α → α} {a b p z : α} {l m r : List α}

/-- Each node is linked to the next one in the list. -/
def Links (next : α → α) (l : List α) : Prop := l.IsChain fun x y => next x = y

theorem links_pair : Links next (a :: b :: l) ↔ next a = b ∧ Links next (b :: l) :=
  List.isChain_cons_cons

theorem links_single : Links next [a] := List.isChain_singleton a

theorem links_split : Links next (l ++ p :: m) ↔ Links next (l ++ [p]) ∧ Links next (p :: m) :=
  List.isChain_split

/-- Links up to the last node, whose own link does not matter. -/
theorem Links.congr (h : Links next (l ++ [z])) (he : ∀ x ∈ l, next' x = next x) :
    Links next' (l ++ [z]) := by
  induction l with
  | nil => exact links_single
  | cons x l ih =>
    cases l with
    | nil =>
      obtain ⟨e, -⟩ := links_pair.1 h
      exact links_pair.2 ⟨(he x List.mem_cons_self).trans e, links_single⟩
    | cons y l =>
      obtain ⟨e, h⟩ := links_pair.1 h
      exact links_pair.2 ⟨(he x List.mem_cons_self).trans e,
        ih h fun x hx => he x (List.mem_cons_of_mem _ hx)⟩

/-- **Another list from `p` on**, where the links before it are as they were. -/
theorem Links.splice (h : Links next (l ++ p :: m)) (he : ∀ x ∈ l, next' x = next x)
    (h' : Links next' (p :: r)) : Links next' (l ++ p :: r) :=
  links_split.2 ⟨(links_split.1 h).1.congr he, h'⟩

/-- **The same list after another node**, which has taken the link over. -/
theorem Links.restart (h : Links next (a :: (l ++ [z]))) (e : next' b = next a)
    (he : ∀ x ∈ l, next' x = next x) : Links next' (b :: (l ++ [z])) := by
  cases l with
  | nil => exact links_pair.2 ⟨e.trans (links_pair.1 h).1, links_single⟩
  | cons x l =>
    obtain ⟨e', h⟩ := links_pair.1 h
    have h : Links next ((x :: l) ++ [z]) := h
    exact links_pair.2 ⟨e.trans e', h.congr he⟩

/-- **A cycle from another of its nodes.** -/
theorem Links.rotate (h : Links next (a :: l ++ p :: m ++ [a])) :
    Links next (p :: m ++ a :: l ++ [p]) := by
  have h : Links next (a :: l ++ p :: (m ++ [a])) := by simpa using h
  obtain ⟨h1, h2⟩ := links_split.1 h
  have h' : Links next ((p :: m) ++ a :: (l ++ [p])) := links_split.2 ⟨h2, h1⟩
  simpa using h'

/-- **A cycle from any of its nodes.** -/
theorem Links.cycle_at (h : Links next (a :: l ++ [a])) (hp : p ∈ a :: l) :
    ∃ m, Links next (p :: m ++ [p]) ∧ (p :: m).Perm (a :: l) := by
  rcases List.mem_cons.1 hp with rfl | hp
  · exact ⟨l, h, .refl _⟩
  · obtain ⟨l₁, l₂, rfl⟩ := List.append_of_mem hp
    refine ⟨l₂ ++ a :: l₁, ?_, ?_⟩
    · have h : Links next (a :: l₁ ++ p :: l₂ ++ [a]) := by simpa using h
      simpa using h.rotate
    · have hc : (p :: l₂ ++ a :: l₁).Perm (a :: l₁ ++ p :: l₂) := List.perm_append_comm
      exact hc

/-- The last node of a stretch that begins where `P` holds. -/
theorem exists_last {P : α → Prop} (ha : P a) (l : List α) :
    ∃ A p B, a :: l = A ++ p :: B ∧ P p ∧ ∀ q ∈ B.head?, ¬ P q := by
  induction l generalizing a with
  | nil => exact ⟨[], a, [], rfl, ha, by simp⟩
  | cons y l ih =>
    by_cases hy : P y
    · obtain ⟨A, p, B, e, hp, hB⟩ := ih hy
      exact ⟨a :: A, p, B, by rw [e, List.cons_append], hp, hB⟩
    · exact ⟨[], a, y :: l, rfl, ha, by simpa using hy⟩

/-- Follow the links until a node passes the test. -/
def follow (next : α → α) (test : α → Bool) : Nat → α → Option α
  | 0, _ => none
  | fuel + 1, p => if test p then some p else follow next test fuel (next p)

/-- **The walk stops at a node that passes**, if there is one on its way. -/
theorem Links.exists_follow {test : α → Bool} (h : Links next (p :: l))
    (ht : ∃ x ∈ p :: l, test x = true) : ∃ q ∈ p :: l, test q = true ∧ ∀ fuel, l.length < fuel →
    follow next test fuel p = some q := by
  induction l generalizing p with
  | nil =>
    obtain ⟨x, hx, ht⟩ := ht
    obtain rfl := List.mem_singleton.1 hx
    exact ⟨x, hx, ht, fun fuel hf => by cases fuel <;> simp [follow, ht] at hf ⊢⟩
  | cons y l ih =>
    obtain ⟨e, h⟩ := links_pair.1 h
    by_cases hp : test p = true
    · exact ⟨p, List.mem_cons_self, hp, fun fuel hf => by cases fuel <;> simp [follow, hp] at hf ⊢⟩
    · obtain ⟨x, hx, ht⟩ := ht
      have hx : x ∈ y :: l := (List.mem_cons.1 hx).resolve_left (by rintro rfl; exact hp ht)
      obtain ⟨q, hq, hqt, hf⟩ := ih h ⟨x, hx, ht⟩
      refine ⟨q, List.mem_cons_of_mem _ hq, hqt, fun fuel hl => ?_⟩
      cases fuel with
      | zero => simp at hl
      | succ fuel => exact (if_neg hp).trans (e ▸ hf fuel (by simpa using hl))

end

/-! ## Tiles -/

/-- `x` is a point of the tile. -/
def InTile (x : Nat) (t : Nat × Nat) : Prop := t.1 ≤ x ∧ x < t.1 + t.2

instance {x : Nat} {t : Nat × Nat} : Decidable (InTile x t) := inferInstanceAs (Decidable (_ ∧ _))

/-- How many of the tiles have the point `x`. -/
def cover (l : List (Nat × Nat)) (x : Nat) : Nat := l.countP fun t => InTile x t

section

variable {l m : List (Nat × Nat)} {t u : Nat × Nat} {x a n k : Nat}

theorem inTile_iff : InTile x (a, n) ↔ a ≤ x ∧ x < a + n := Iff.rfl

@[simp] theorem cover_nil : cover [] x = 0 := rfl

theorem cover_cons : cover (t :: l) x = cover l x + if InTile x t then 1 else 0 := by
  unfold cover
  rw [List.countP_cons]
  simp only [decide_eq_true_eq]

theorem cover_append : cover (l ++ m) x = cover l x + cover m x := List.countP_append

theorem cover_perm (h : l.Perm m) : cover l x = cover m x := h.countP_eq _

theorem cover_pos (h : t ∈ l) (hx : InTile x t) : 0 < cover l x :=
  List.countP_pos_iff.2 ⟨t, h, by simpa using hx⟩

/-- What is covered is in a tile. -/
theorem exists_of_cover (h : cover l x ≠ 0) : ∃ t ∈ l, InTile x t := by
  obtain ⟨t, ht, hx⟩ := List.countP_pos_iff.1 (Nat.pos_of_ne_zero h)
  exact ⟨t, ht, by simpa using hx⟩

/-- **A tile cut in two.** -/
theorem inTile_cut : (if InTile x (a, n + k) then 1 else 0) =
    (if InTile x (a, n) then 1 else 0) + if InTile x (a + n, k) then 1 else 0 := by
  simp only [inTile_iff]
  split_ifs <;> omega

/-- An empty tile has no points. -/
theorem inTile_zero : ¬ InTile x (a, 0) := by
  rw [inTile_iff]
  omega

/-- Tiles that do not overlap. -/
def Apart (t u : Nat × Nat) : Prop := t.1 + t.2 ≤ u.1 ∨ u.1 + u.2 ≤ t.1

instance : Std.Symm Apart := ⟨fun _ _ h => Or.symm h⟩

theorem apart_of_points (ht : 0 < t.2) (hu : 0 < u.2) (h : ∀ x, ¬ (InTile x t ∧ InTile x u)) :
    Apart t u := by
  by_contra hc
  unfold Apart at hc
  refine h (max t.1 u.1) ⟨⟨?_, ?_⟩, ⟨?_, ?_⟩⟩ <;> omega

/-- **Tiles of two lists that together cover no point twice do not overlap.** -/
theorem apart_of_cover (h : ∀ x, cover l x + cover m x ≤ 1) (ht : t ∈ l) (hu : u ∈ m)
    (ht0 : 0 < t.2) (hu0 : 0 < u.2) : Apart t u := by
  refine apart_of_points ht0 hu0 fun x hx => ?_
  have h1 := cover_pos ht hx.1
  have h2 := cover_pos hu hx.2
  have h3 := h x
  omega

/-- …and neither do two of one list. -/
theorem pairwise_apart (h : ∀ x, cover l x ≤ 1) (h0 : ∀ t ∈ l, 0 < t.2) : l.Pairwise Apart := by
  induction l with
  | nil => exact .nil
  | cons t l ih =>
    have hle : ∀ x, cover l x ≤ 1 := fun x => by
      have := h x
      rw [cover_cons] at this
      omega
    refine List.pairwise_cons.2 ⟨fun u hu => ?_, ih hle fun u hu => h0 u
      (List.mem_cons_of_mem _ hu)⟩
    refine apart_of_cover (l := [t]) (m := l) (fun x => ?_) List.mem_cons_self hu
      (h0 t List.mem_cons_self) (h0 u (List.mem_cons_of_mem _ hu))
    have := h x
    rw [cover_cons] at this
    rw [cover_cons, cover_nil]
    omega

end
