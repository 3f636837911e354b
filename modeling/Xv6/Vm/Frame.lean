import Mathlib.Data.Set.Basic
import Xv6.Vm.Own

/-!
# Vm/Frame — what a piece of kernel code leaves alone

`Frame X Y G G' s s'` bounds the effect of code that takes `(G, s)` to `(G', s')`: only the
mappings in `X` and the pages in `Y` may have changed.  Everything else keeps its mapping, its
entry and its bytes.  Frames compose, and a page that is neither held nor a trapframe at either end
drops out of `Y`.
-/

namespace Xv6

open Act Bytes

/-- Uses that only their holder may end. -/
def Use.Stays (u : Use) : Prop := u = .held ∨ ∃ p, u = .trap p

theorem Use.Stays.ne_free {u : Use} (h : u.Stays) : u ≠ .free := by
  rcases h with rfl | ⟨p, rfl⟩ <;> simp

/-- Everything but the bytes of user pages: mappings and entries outside `X`, and the held pages
and trapframes outside `Y`, are as before. -/
structure Shape (X : Set (Nat × Nat)) (Y : Set Nat) (G G' : Ghost) (s s' : KState) : Prop where
  procs : s'.procs = s.procs
  initproc : s'.initproc = s.initproc
  nextpid : s'.nextpid = s.nextpid
  kheld : s'.kheld = s.kheld
  root : ∀ r v, (r, v) ∉ X → (G'.use r = .root ↔ G.use r = .root)
  maps : ∀ r v, (r, v) ∉ X → ((r, v) ∈ G'.maps ↔ (r, v) ∈ G.maps)
  spec : ∀ r v, (r, v) ∉ X → ((r, v) ∈ G'.spec ↔ (r, v) ∈ G.spec)
  leaf : ∀ r v, (r, v) ∉ X → G.use r = .root → v < 2 ^ 27 → leaf s'.mem r v = leaf s.mem r v
  flight : ∀ r pa, pa ∉ Y → ((r, pa) ∈ G'.flight ↔ (r, pa) ∈ G.flight)
  keep : ∀ pa, pa ∉ Y → (G.use pa).Stays →
    G'.use pa = G.use pa ∧ ∀ o < 4096, s'.mem (pa + o) = s.mem (pa + o)
  fresh : ∀ pa, pa ∉ Y → (G'.use pa).Stays → G.use pa = G'.use pa

/-- **The frame**: also the bytes of the user pages mapped outside `X`. -/
structure Frame (X : Set (Nat × Nat)) (Y : Set Nat) (G G' : Ghost) (s s' : KState) : Prop
    extends Shape X Y G G' s s' where
  bytes : ∀ r v, (r, v) ∉ X → (r, v) ∈ G.maps → ∀ o < 4096,
    s'.mem (PTE2PA (Xv6.leaf s.mem r v) + o) = s.mem (PTE2PA (Xv6.leaf s.mem r v) + o)

section

variable {X X' : Set (Nat × Nat)} {Y Y' : Set Nat} {G G' G'' : Ghost} {s s' s'' : KState}

theorem Shape.mono (h : Shape X Y G G' s s') (hX : X ⊆ X') (hY : Y ⊆ Y') :
    Shape X' Y' G G' s s' where
  procs := h.procs
  initproc := h.initproc
  nextpid := h.nextpid
  kheld := h.kheld
  root r v hx := h.root r v fun hc => hx (hX hc)
  maps r v hx := h.maps r v fun hc => hx (hX hc)
  spec r v hx := h.spec r v fun hc => hx (hX hc)
  leaf r v hx := h.leaf r v fun hc => hx (hX hc)
  flight r pa hy := h.flight r pa fun hc => hy (hY hc)
  keep pa hy := h.keep pa fun hc => hy (hY hc)
  fresh pa hy := h.fresh pa fun hc => hy (hY hc)

theorem Shape.trans (h : Shape X Y G G' s s') (h' : Shape X Y G' G'' s' s'') :
    Shape X Y G G'' s s'' where
  procs := h'.procs.trans h.procs
  initproc := h'.initproc.trans h.initproc
  nextpid := h'.nextpid.trans h.nextpid
  kheld := h'.kheld.trans h.kheld
  root r v hx := (h'.root r v hx).trans (h.root r v hx)
  maps r v hx := (h'.maps r v hx).trans (h.maps r v hx)
  spec r v hx := (h'.spec r v hx).trans (h.spec r v hx)
  leaf r v hx hr hv := by
    rw [h'.leaf r v hx ((h.root r v hx).2 hr) hv, h.leaf r v hx hr hv]
  flight r pa hy := (h'.flight r pa hy).trans (h.flight r pa hy)
  keep pa hy hs := by
    obtain ⟨h1, h2⟩ := h.keep pa hy hs
    obtain ⟨h3, h4⟩ := h'.keep pa hy (h1 ▸ hs)
    exact ⟨h3.trans h1, fun o ho => (h4 o ho).trans (h2 o ho)⟩
  fresh pa hy hs := by
    have h1 := h'.fresh pa hy hs
    exact (h.fresh pa hy (h1 ▸ hs)).trans h1

/-- A mapping outside `X` keeps its entry. -/
theorem Shape.leaf_map [Layout] {r v : Nat} (h : Shape X Y G G' s s') (ho : Own G s)
    (hm : (r, v) ∈ G.maps) (hx : (r, v) ∉ X) : Xv6.leaf s'.mem r v = Xv6.leaf s.mem r v :=
  h.leaf r v hx (ho.leaves.map_root r v hm) (ho.leaves.lt hm)

/-- A step that touches no page in use by the kernel leaves held pages and trapframes what they
are… -/
theorem Shape.stays_iff (h : Shape X ∅ G G' s s') {pa : Nat} {u : Use} (hu : u.Stays) :
    G'.use pa = u ↔ G.use pa = u :=
  ⟨fun e => (h.fresh pa (Set.notMem_empty _) (e ▸ hu)).trans e,
    fun e => (h.keep pa (Set.notMem_empty _) (e ▸ hu)).1.trans e⟩

/-- …and drops no reference in flight. -/
theorem Shape.flight_eq (h : Shape X ∅ G G' s s') : G'.flight = G.flight :=
  Finset.ext fun ⟨r, pa⟩ => h.flight r pa (Set.notMem_empty _)

end

/-! ## The view of memory alone -/

/-- The part of a frame that speaks of memory: what another process can notice. -/
structure View (X : Set (Nat × Nat)) (Y : Set Nat) (G G' : Ghost) (m m' : Nat → UInt8) : Prop where
  root : ∀ r v, (r, v) ∉ X → (G'.use r = .root ↔ G.use r = .root)
  maps : ∀ r v, (r, v) ∉ X → ((r, v) ∈ G'.maps ↔ (r, v) ∈ G.maps)
  leaf : ∀ r v, (r, v) ∉ X → G.use r = .root → v < 2 ^ 27 → leaf m' r v = leaf m r v
  bytes : ∀ r v, (r, v) ∉ X → (r, v) ∈ G.maps → ∀ o < 4096,
    m' (PTE2PA (Xv6.leaf m r v) + o) = m (PTE2PA (Xv6.leaf m r v) + o)
  keep : ∀ pa, pa ∉ Y → (G.use pa).Stays →
    G'.use pa = G.use pa ∧ ∀ o < 4096, m' (pa + o) = m (pa + o)

section

variable {X X' : Set (Nat × Nat)} {Y Y' : Set Nat} {G G' G'' : Ghost} {s s' : KState}
  {m m' m'' : Nat → UInt8}

theorem Frame.view (h : Frame X Y G G' s s') : View X Y G G' s.mem s'.mem :=
  ⟨h.root, h.maps, h.leaf, h.bytes, h.keep⟩

theorem View.leaf_map [Layout] {r v : Nat} (h : View X Y G G' s.mem m') (ho : Own G s)
    (hm : (r, v) ∈ G.maps) (hx : (r, v) ∉ X) :
    Xv6.leaf m' r v = Xv6.leaf s.mem r v :=
  h.leaf r v hx (ho.leaves.map_root r v hm) (ho.leaves.lt hm)

theorem View.refl (X : Set (Nat × Nat)) (Y : Set Nat) (G : Ghost) (m : Nat → UInt8) :
    View X Y G G m m :=
  ⟨fun _ _ _ => Iff.rfl, fun _ _ _ => Iff.rfl, fun _ _ _ _ _ => rfl, fun _ _ _ _ _ _ => rfl,
    fun _ _ _ => ⟨rfl, fun _ _ => rfl⟩⟩

theorem View.mono (h : View X Y G G' m m') (hX : X ⊆ X') (hY : Y ⊆ Y') : View X' Y' G G' m m' where
  root r v hx := h.root r v fun hc => hx (hX hc)
  maps r v hx := h.maps r v fun hc => hx (hX hc)
  leaf r v hx := h.leaf r v fun hc => hx (hX hc)
  bytes r v hx := h.bytes r v fun hc => hx (hX hc)
  keep pa hy := h.keep pa fun hc => hy (hY hc)

theorem View.trans (hl : Leaves G (Xv6.leaf m)) (h : View X Y G G' m m')
    (h' : View X Y G' G'' m' m'') : View X Y G G'' m m'' where
  root r v hx := (h'.root r v hx).trans (h.root r v hx)
  maps r v hx := (h'.maps r v hx).trans (h.maps r v hx)
  leaf r v hx hr hv := by
    rw [h'.leaf r v hx ((h.root r v hx).2 hr) hv, h.leaf r v hx hr hv]
  bytes r v hx hm o ho := by
    have hlt := hl.map_lt r v hm
    have e := h.leaf r v hx (hl.map_root r v hm) (by omega)
    have := h'.bytes r v hx ((h.maps r v hx).2 hm) o ho
    rw [e] at this
    rw [this, h.bytes r v hx hm o ho]
  keep pa hy hs := by
    obtain ⟨h1, h2⟩ := h.keep pa hy hs
    obtain ⟨h3, h4⟩ := h'.keep pa hy (h1 ▸ hs)
    exact ⟨h3.trans h1, fun o ho => (h4 o ho).trans (h2 o ho)⟩

/-- A page that was not kept drops out. -/
theorem View.drop {pa : Nat} (h : View X (insert pa Y) G G' m m') (hn : ¬ (G.use pa).Stays) :
    View X Y G G' m m' :=
  { h with keep := fun q hq hs => h.keep q (fun hc => hc.elim (fun e => hn (e ▸ hs)) hq) hs }

/-- …and so does a set of them. -/
theorem View.dropSet {Z : Set Nat} (h : View X (Y ∪ Z) G G' m m')
    (hn : ∀ q ∈ Z, ¬ (G.use q).Stays) : View X Y G G' m m' :=
  { h with keep := fun q hq hs => h.keep q (fun hc => hc.elim hq fun hz => hn q hz hs) hs }

end

/-! ## Frames -/

namespace Frame

variable {X X' : Set (Nat × Nat)} {Y Y' : Set Nat} {G G' G'' : Ghost} {s s' s'' : KState}

theorem refl (X : Set (Nat × Nat)) (Y : Set Nat) (G : Ghost) (s : KState) : Frame X Y G G s s where
  procs := rfl
  initproc := rfl
  nextpid := rfl
  kheld := rfl
  root _ _ _ := Iff.rfl
  maps _ _ _ := Iff.rfl
  spec _ _ _ := Iff.rfl
  leaf _ _ _ _ _ := rfl
  bytes _ _ _ _ _ _ := rfl
  flight _ _ _ := Iff.rfl
  keep _ _ _ := ⟨rfl, fun _ _ => rfl⟩
  fresh _ _ _ := rfl

theorem mono (h : Frame X Y G G' s s') (hX : X ⊆ X') (hY : Y ⊆ Y') : Frame X' Y' G G' s s' where
  toShape := h.toShape.mono hX hY
  bytes r v hx := h.bytes r v fun hc => hx (hX hc)

/-- **Frames compose.** -/
theorem trans (hl : Leaves G (Xv6.leaf s.mem)) (h : Frame X Y G G' s s')
    (h' : Frame X Y G' G'' s' s'') : Frame X Y G G'' s s'' where
  toShape := h.toShape.trans h'.toShape
  bytes := (h.view.trans hl h'.view).bytes

/-- **A page that ends as it began drops out.** -/
theorem drop {pa : Nat} (h : Frame X (insert pa Y) G G' s s') (h1 : ¬ (G.use pa).Stays)
    (h2 : ¬ (G'.use pa).Stays) (h3 : ∀ r, (r, pa) ∈ G'.flight ↔ (r, pa) ∈ G.flight) :
    Frame X Y G G' s s' := by
  refine { h with
    flight := fun r q hy => ?_, keep := fun q hy hs => ?_, fresh := fun q hy hs => ?_ }
  · by_cases hq : q = pa
    · subst hq; exact h3 r
    · exact h.flight r q (by simp [hq, hy])
  · have hq : q ≠ pa := fun e => h1 (e ▸ hs)
    exact h.keep q (by simp [hq, hy]) hs
  · have hq : q ≠ pa := fun e => h2 (e ▸ hs)
    exact h.fresh q (by simp [hq, hy]) hs

end Frame

/-! ## The pages of the trees -/

/-- A page below a root, if it is one, lies on the path to a level-0 page in `X`. -/
def Use.Within (X : Set (Nat × Nat)) : Use → Prop
  | .mid r i => ∃ q, q / 512 = i ∧ (r, q) ∈ X
  | .low r q => (r, q) ∈ X
  | _ => True

theorem Use.Within.mono {X X' : Set (Nat × Nat)} {u : Use} (h : u.Within X) (hX : X ⊆ X') :
    u.Within X' := by
  cases u with
  | mid r i =>
    obtain ⟨q, hq, hx⟩ := h
    exact ⟨q, hq, hX hx⟩
  | low r q => exact hX h
  | _ => trivial

/-- **The trees grow and shrink only on the paths in `X`**, sets of level-0 pages by root and
number. -/
def Growth (X : Set (Nat × Nat)) (G G' : Ghost) : Prop :=
  ∀ p, G'.use p = G.use p ∨ (G.use p).Within X ∧ (G'.use p).Within X

namespace Growth

variable {X X' : Set (Nat × Nat)} {G G' G'' : Ghost} {p r q i : Nat} {u : Use}

theorem refl (X : Set (Nat × Nat)) (G : Ghost) : Growth X G G := fun _ => .inl rfl

theorem of_use (h : G'.use = G.use) : Growth X G G' := fun p => .inl (congrFun h p)

theorem mono (h : Growth X G G') (hX : X ⊆ X') : Growth X' G G' := fun p =>
  (h p).imp_right fun hw => ⟨hw.1.mono hX, hw.2.mono hX⟩

theorem trans (h : Growth X G G') (h' : Growth X G' G'') : Growth X G G'' := by
  intro p
  rcases h p with e | ⟨h1, h2⟩ <;> rcases h' p with e' | ⟨h3, h4⟩
  · exact .inl (e'.trans e)
  · exact .inr ⟨e ▸ h3, h4⟩
  · exact .inr ⟨h1, e' ▸ h2⟩
  · exact .inr ⟨h1, h4⟩

/-- A page changes its use, and is on those paths before and after. -/
theorem setUse (h : (G.use p).Within X) (hu : u.Within X) : Growth X G (G.setUse p u) := by
  intro p'
  by_cases e : p' = p
  · subst e
    exact .inr ⟨h, by rwa [Ghost.setUse_self]⟩
  · exact .inl (Ghost.setUse_ne e)

theorem low_iff (h : Growth X G G') (hx : (r, q) ∉ X) :
    G'.use p = .low r q ↔ G.use p = .low r q := by
  rcases h p with e | ⟨h1, h2⟩
  · rw [e]
  · exact ⟨fun e => absurd (by rwa [e] at h2) hx, fun e => absurd (by rwa [e] at h1) hx⟩

theorem mid_iff (h : Growth X G G') (hx : ∀ q, q / 512 = i → (r, q) ∉ X) :
    G'.use p = .mid r i ↔ G.use p = .mid r i := by
  have no : ¬ (Use.mid r i).Within X := fun ⟨q, hq, hc⟩ => hx q hq hc
  rcases h p with e | ⟨h1, h2⟩
  · rw [e]
  · exact ⟨fun e => absurd (e ▸ h2) no, fun e => absurd (e ▸ h1) no⟩

end Growth

end Xv6
