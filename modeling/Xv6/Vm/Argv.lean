import Mathlib.Data.List.GetD
import Xv6.Vm.CopyOut

/-!
# Vm/Argv — the arguments of a new program

`exec` pushes the strings downward from the end of the stack page, each at a multiple of 16, and the
array of pointers below them.  The layout depends on the lengths only (`stackBytes`).  Where it fits
no copy fails, and each string is read back at the pointer of its number (`Decodes`): what is pushed
later lies below.
-/

namespace Xv6

open Act Bytes List

variable [Layout] {T : Transit} {G G' G0 : Ghost} {s s' s0 : KState} {c n p sp sz : Nat}
  {argv : List (List UInt8)}

/-! ## The layout -/

/-- The room for `n` bytes, a multiple of 16. -/
def align16 (n : Nat) : Nat := (n + 15) / 16 * 16

/-- The room the strings take… -/
def strBytes (argv : List (List UInt8)) : Nat := (argv.map fun a => align16 (a.length + 1)).sum

/-- …and with the array of pointers. -/
def stackBytes (argv : List (List UInt8)) : Nat := strBytes argv + align16 (8 * (argv.length + 1))

/-- The addresses of the strings on a stack that begins at `sp`. -/
def slots (sp : Nat) : List (List UInt8) → List Nat
  | [] => []
  | a :: as => (sp - align16 (a.length + 1)) :: slots (sp - align16 (a.length + 1)) as

/-- **The arguments decode back** from user memory `f`: the array at `sp` holds the pointers and a
zero word, each pointer leads to its string, and the strings and the array lie apart in the page
below `sz`. -/
structure Decodes (f : Nat → UInt8) (sz sp : Nat) (argv : List (List UInt8)) (ptr : List Nat) :
    Prop where
  aligned : sp % 16 = 0
  count : ptr.length = argv.length
  array : ∀ i < argv.length, getLE f (sp + 8 * i) 8 = ptr.getD i 0
  last : getLE f (sp + 8 * argv.length) 8 = 0
  strings : ∀ x ∈ ptr.zip argv, take f x.1 (x.2.length + 1) = x.2 ++ [0]
  page : sz ≤ sp + PGSIZE ∧ sp + 8 * (argv.length + 1) ≤ sz
  above : ∀ x ∈ ptr.zip argv, sp + 8 * (argv.length + 1) ≤ x.1 ∧ x.1 + x.2.length + 1 ≤ sz
  apart : (ptr.zip argv).Pairwise fun x y => y.1 + y.2.length + 1 ≤ x.1

/-- The vectors `sys_exec` accepts. -/
structure Arguments (argv : List (List UInt8)) : Prop where
  count : argv.length < MAXARG
  each : ∀ a ∈ argv, a.length < PGSIZE ∧ 0 ∉ a

section

omit [Layout]

theorem Arguments.nil : Arguments [] := ⟨by decide, fun a ha => absurd ha not_mem_nil⟩

theorem pushSp_eq (h : sp % 16 = 0) (hn : n ≤ sp) (hsp : sp < 2 ^ 64) :
    pushSp sp n = sp - align16 n := by
  unfold pushSp align16
  rw [show (sp + 2 ^ 64 - n) % 2 ^ 64 = sp - n by omega]
  simp only
  omega

@[simp] theorem length_slots : (slots sp argv).length = argv.length := by
  induction argv generalizing sp with
  | nil => rfl
  | cons a as ih => exact congrArg (· + 1) ih

theorem strBytes_mod (argv : List (List UInt8)) : strBytes argv % 16 = 0 := by
  induction argv with
  | nil => rfl
  | cons a as ih =>
    rw [strBytes, map_cons, sum_cons, ← strBytes, align16]
    omega

/-- Each string lies between the room of all and the start… -/
theorem slots_bounds (h : strBytes argv ≤ sp) :
    ∀ x ∈ (slots sp argv).zip argv, sp - strBytes argv ≤ x.1 ∧ x.1 + x.2.length + 1 ≤ sp := by
  induction argv generalizing sp with
  | nil => exact fun x hx => absurd hx not_mem_nil
  | cons a as ih =>
    rw [strBytes, map_cons, sum_cons, ← strBytes] at h ⊢
    have ha : a.length + 1 ≤ align16 (a.length + 1) := by
      unfold align16
      omega
    intro x hx
    rcases mem_cons.1 hx with rfl | hx
    · exact ⟨by omega, by dsimp only; omega⟩
    · have := ih (by omega) x hx
      omega

/-- …and below those before it. -/
theorem slots_apart (h : strBytes argv ≤ sp) :
    ((slots sp argv).zip argv).Pairwise fun x y => y.1 + y.2.length + 1 ≤ x.1 := by
  induction argv generalizing sp with
  | nil => exact .nil
  | cons a as ih =>
    rw [strBytes, map_cons, sum_cons, ← strBytes] at h
    exact .cons (fun x hx => (slots_bounds (by omega) x hx).2) (ih (by omega))

theorem take_eq {f : Nat → UInt8} {a : Nat} {l : List UInt8}
    (h : ∀ i < l.length, f (a + i) = l.getD i 0) : take f a l.length = l := by
  refine ext_getElem length_take fun i h1 h2 => ?_
  simp only [Bytes.take, getElem_map, getElem_range]
  rw [h i h2, getD_eq_getElem _ _ h2]

/-- The bytes of an array of words. -/
theorem getD_words (l : List Nat) {i j : Nat} (hi : i < l.length) (hj : j < 8) :
    (l.flatMap wordBytes).getD (8 * i + j) 0 = UInt8.ofNat (l.getD i 0 / 256 ^ j) := by
  induction l generalizing i with
  | nil => exact absurd hi (Nat.not_lt_zero i)
  | cons x l ih =>
    have hw : (wordBytes x).length = 8 := rfl
    rw [flatMap_cons]
    cases i with
    | zero =>
      rw [getD_append _ _ _ _ (by omega), Nat.mul_zero, Nat.zero_add, getD_cons_zero,
        getD_eq_getElem _ _ (by omega)]
      simp [wordBytes]
    | succ i =>
      rw [getD_append_right _ _ _ _ (by omega), hw, show 8 * (i + 1) + j - 8 = 8 * i + j by omega,
        getD_cons_succ]
      exact ih (Nat.lt_of_succ_lt_succ hi)

theorem length_words (l : List Nat) : (l.flatMap wordBytes).length = 8 * l.length := by
  induction l with
  | nil => rfl
  | cons x l ih =>
    rw [flatMap_cons, length_append, ih, length_cons, show (wordBytes x).length = 8 from rfl]
    omega

/-- Only the stack page matters. -/
theorem Decodes.congr {f : Nat → UInt8} {ptr : List Nat} (h : Decodes f sz sp argv ptr)
    (f' : Nat → UInt8) (hf : ∀ a, sz ≤ a + PGSIZE → a < sz → f' a = f a) :
    Decodes f' sz sp argv ptr := by
  have hp := h.page
  have hword : ∀ i ≤ argv.length, getLE f' (sp + 8 * i) 8 = getLE f (sp + 8 * i) 8 := fun i hi =>
    getLE_congr 8 fun j hj => hf _ (by omega) (by omega)
  refine { h with
    array := fun i hi => (hword i hi.le).trans (h.array i hi), last := (hword _ le_rfl).trans h.last
    strings := fun x hx => (map_congr_left fun i hi => ?_).trans (h.strings x hx) }
  have hi := mem_range.1 hi
  have := h.above x hx
  exact hf _ (by omega) (by omega)

end

/-! ## The pushes -/

/-- **A copy into the stack page succeeds.** -/
theorem Stacked.push (h : Stacked T G0 s0 c n G s) (h0 : Own G0 s0) (q : Nat) (src : List UInt8)
    (hlo : 4096 * (n + 1) ≤ q) (hhi : q + src.length ≤ 4096 * (n + 2)) :
    ∃ s', copyout c q src s = .ok (0, s') ∧ Stacked T G0 s0 c n G s' ∧
    Edited c (span q src.length) G G s s' ∧
      take (byteAt s'.mem c) q src.length = src := by
  have ho := h.inv.own
  have hv : n + 1 < npages (4096 * (n + 2)) := by rw [npages_mul]; omega
  obtain ⟨ret, s', e, hR, h1, hl, -⟩ := h.toSpace.copyout h0 q src
  have hno : ∀ v, userPa s.mem c (4096 * v) ≠ 0 → ¬ NeedsCopy s c v := fun v hu hn => by
    have hm := ((ho.userPa_ne h.root).1 hu).1
    rw [Nat.mul_div_cancel_left v (by decide)] at hm
    rw [NeedsCopy, h.plain v ((h.spans v).1 hm)] at hn
    exact absurd hn.1 Bool.false_ne_true
  obtain rfl := (hR.ret_iff ho h.root (fits_of_plain hno _ _)).2 fun i hi => by
    rw [ho.userPa_ne h.root, show (q + i) / 4096 = n + 1 by omega]
    exact ⟨h.map hv, h.user⟩
  exact ⟨s', e, ⟨h1, h.growth, by rw [hl _ hv]; exact h.user⟩, hR.edited ho,
    take_eq fun i hi => (hR.bytes ho rfl hi).2.2⟩

/-- What was read outside an edit is still there. -/
theorem Edited.take_eq {R : Set Nat} {q k : Nat} (h : Edited c R G G' s s')
    (hm : ∀ i < k, (c, (q + i) / 4096) ∈ G.maps ∧ q + i ∉ R) :
    take (byteAt s'.mem c) q k = take (byteAt s.mem c) q k :=
  map_congr_left fun i hi => h.bytes _ (hm i (mem_range.1 hi)).1 (hm i (mem_range.1 hi)).2

section

variable (h : Stacked T G0 s0 c n G s)

include h

theorem Stacked.map_stack {a : Nat} (hlo : 4096 * (n + 1) ≤ a) (hhi : a < 4096 * (n + 2)) :
    (c, a / 4096) ∈ G.maps :=
  h.map (by rw [npages_mul]; omega)

/-- **The strings**, from a stack pointer in the page on. -/
theorem pushArgs_run (h0 : Own G0 s0) (argv : List (List UInt8)) (sp : Nat)
    (us : List Nat) (hsp : sp % 16 = 0) (hlo : 4096 * (n + 1) ≤ sp) (hhi : sp ≤ 4096 * (n + 2))
    (hw : sp < 2 ^ 64) (hus : us.length + argv.length ≤ MAXARG)
    (hlen : ∀ a ∈ argv, a.length < 4096) :
    ∃ s', Stacked T G0 s0 c n G s' ∧
    Edited c (span (4096 * (n + 1)) (sp - 4096 * (n + 1))) G G s s' ∧
      (4096 * (n + 1) + strBytes argv ≤ sp →
        pushArgs c (4096 * (n + 1)) argv sp us s =
          .ok (some (sp - strBytes argv, us ++ slots sp argv), s') ∧ ∀ x ∈ (slots sp argv).zip argv,
          take (byteAt s'.mem c) x.1 (x.2.length + 1) = x.2 ++ [0]) ∧
      (sp < 4096 * (n + 1) + strBytes argv → pushArgs c (4096 * (n + 1)) argv sp us s =
        .ok (none, s')) := by
  induction argv generalizing s sp us with
  | nil =>
    refine ⟨s, h, .refl h.inv.own, fun _ => ⟨?_, fun x hx => absurd hx not_mem_nil⟩, fun hc => ?_⟩
    · rw [slots, append_nil]
      rfl
    · exact absurd hc (not_lt.2 hlo)
  | cons a as ih =>
    have ha := hlen a mem_cons_self
    have hal : a.length + 1 ≤ align16 (a.length + 1) ∧ align16 (a.length + 1) % 16 = 0 ∧
        align16 (a.length + 1) ≤ 4096 := by
      unfold align16
      omega
    have hq : pushSp sp (a.length + 1) = sp - align16 (a.length + 1) := pushSp_eq hsp (by omega) hw
    rw [length_cons] at hus
    rw [pushArgs, if_neg (by omega), hq, strBytes, map_cons, sum_cons, ← strBytes]
    by_cases hfit : sp - align16 (a.length + 1) < 4096 * (n + 1)
    · rw [if_pos hfit]
      exact ⟨s, h, .refl h.inv.own, fun hc => by omega, fun _ => rfl⟩
    rw [if_neg hfit, slots]
    generalize align16 (a.length + 1) = k at hal hfit ⊢
    obtain ⟨q, rfl⟩ : ∃ q, sp = q + k := ⟨sp - k, by omega⟩
    rw [Nat.add_sub_cancel] at hfit ⊢
    have hl : (a ++ [0]).length = a.length + 1 := length_append
    obtain ⟨s1, e1, h1, hE1, hb1⟩ := h.push h0 q (a ++ [0]) (by omega) (by rw [hl]; omega)
    rw [bind_ok e1, if_neg (by decide)]
    obtain ⟨s2, h2, hE2, hrest, hnone⟩ := ih h1 q (us ++ [q]) (by omega) (by omega) (by omega)
      (by omega) (by rw [length_append, length_singleton]; omega) fun b hb => hlen b
      (mem_cons_of_mem _ hb)
    refine ⟨s2, h2, (hE1.mono (span_mono (by omega) (by rw [hl]; omega))).trans
      (hE2.mono (span_mono le_rfl (by omega))), fun hall => ?_, fun hc => hnone (by omega)⟩
    obtain ⟨e2, hb2⟩ := hrest (by omega)
    refine ⟨e2.trans ?_, fun x hx => ?_⟩
    · rw [append_assoc, singleton_append, show q + k - (k + strBytes as) = q - strBytes as by omega]
    · rcases mem_cons.1 hx with rfl | hx
      · -- what is pushed later lies below
        refine Eq.trans (hE2.take_eq fun i (hi : i < a.length + 1) => ⟨?_, fun hc => ?_⟩) (hl ▸ hb1)
        · exact h1.map_stack (by omega) (by omega)
        · have := hc.2
          omega
      · exact hb2 x hx

/-- **The stack**: the strings and the array are pushed just when they fit in the page. -/
theorem pushStack_run (h0 : Own G0 s0) (ha : Arguments argv) :
    ∃ s', Stacked T G0 s0 c n G s' ∧
      (stackBytes argv ≤ PGSIZE →
        pushStack c (4096 * (n + 2)) argv s = .ok (some (4096 * (n + 2) - stackBytes argv), s') ∧
          Decodes (byteAt s'.mem c) (4096 * (n + 2)) (4096 * (n + 2) - stackBytes argv) argv
            (slots (4096 * (n + 2)) argv)) ∧
      (PGSIZE < stackBytes argv → pushStack c (4096 * (n + 2)) argv s = .ok (none, s')) := by
  have hsz := h.inv.own.spans_le h.spans
  rw [npages_mul] at hsz
  have hcount := ha.count
  rw [show MAXARG = 32 from rfl] at hcount
  have hbase : 4096 * (n + 2) - PGSIZE = 4096 * (n + 1) := by rw [PGSIZE_eq]; omega
  obtain ⟨s1, h1, -, hrun, hnone⟩ := pushArgs_run h h0 argv (4096 * (n + 2)) [] (by omega)
    (by omega) le_rfl (by omega) (by rw [length_nil, show MAXARG = 32 from rfl]; omega) fun a hx =>
      (ha.each a hx).1
  unfold pushStack
  simp only
  rw [hbase, stackBytes, PGSIZE_eq]
  by_cases hstr : 4096 * (n + 1) + strBytes argv ≤ 4096 * (n + 2)
  case neg =>
    rw [bind_ok (hnone (by omega))]
    exact ⟨s1, h1, fun hc => by omega, fun _ => rfl⟩
  obtain ⟨e1, hb1⟩ := hrun hstr
  rw [bind_ok e1, nil_append]
  have hmod := strBytes_mod argv
  have hal : 8 * (argv.length + 1) ≤ align16 (8 * (argv.length + 1)) ∧
      align16 (8 * (argv.length + 1)) % 16 = 0 ∧ align16 (8 * (argv.length + 1)) ≤ 256 := by
    unfold align16
    omega
  simp only
  rw [length_slots, pushSp_eq (by omega) (by omega) (by omega), Nat.mul_comm _ 8]
  by_cases hfit : 4096 * (n + 2) - strBytes argv - align16 (8 * (argv.length + 1)) < 4096 * (n + 1)
  · rw [if_pos hfit]
    exact ⟨s1, h1, fun hc => by omega, fun _ => rfl⟩
  rw [if_neg hfit, Nat.sub_sub]
  have hl : ((slots (4096 * (n + 2)) argv ++ [0]).flatMap wordBytes).length =
      8 * (argv.length + 1) := by
    rw [length_words, length_append, length_slots, length_singleton]
  obtain ⟨s2, e2, h2, hE2, hb2⟩ :=
    h1.push h0 (4096 * (n + 2) - (strBytes argv + align16 (8 * (argv.length + 1))))
      ((slots (4096 * (n + 2)) argv ++ [0]).flatMap wordBytes) (by omega) (by rw [hl]; omega)
  rw [bind_ok e2, if_neg (by decide)]
  generalize hsp : 4096 * (n + 2) - (strBytes argv + align16 (8 * (argv.length + 1))) = sp at *
  have hbounds := slots_bounds (show strBytes argv ≤ 4096 * (n + 2) by omega)
  have hword : ∀ i < argv.length + 1, getLE (byteAt s2.mem c) (sp + 8 * i) 8 =
      (slots (4096 * (n + 2)) argv ++ [0]).getD i 0 % 256 ^ 8 := fun i hi => by
    refine getLE_digits _ 8 _ fun j hj => ?_
    rw [← getD_words _ (by simpa using hi) hj, ← hb2, hl, Nat.add_assoc,
      getD_eq_getElem _ _ (by simp; omega)]
    simp [Bytes.take]
  refine ⟨s2, h2, fun _ => ⟨rfl, by omega, length_slots, fun i hi => ?_, ?_,
    fun x hx => ?_, by rw [PGSIZE_eq]; omega, fun x hx => ?_, slots_apart (by omega)⟩,
    fun hc => by omega⟩
  · have hget : i < (slots (4096 * (n + 2)) argv).length := by rwa [length_slots]
    rw [hword i (by omega), getD_append _ _ _ _ hget, Nat.mod_eq_of_lt]
    rw [getD_eq_getElem _ _ hget]
    have hx : ((slots (4096 * (n + 2)) argv)[i], argv[i]) ∈
        (slots (4096 * (n + 2)) argv).zip argv :=
      mem_iff_getElem.2 ⟨i, by simpa using hi, by simp⟩
    have := (hbounds _ hx).2
    dsimp only at this
    omega
  · rw [hword _ (by omega), getD_append_right _ _ _ _ (by simp)]
    simp
  · have hx' := hbounds x hx
    rw [hE2.take_eq fun i hi => ⟨h1.map_stack (by omega) (by omega), fun hc => by
      have := hc.2
      rw [hl] at this
      omega⟩]
    exact hb1 x hx
  · have := hbounds x hx
    omega

end

/-! ## `exec` -/

/-- **Process `p` starts with its arguments**: `sp` and `a1` lead to the array. -/
structure Started (s : KState) (p : Nat) (argv : List (List UInt8)) (sp : Nat) (ptr : List Nat) :
    Prop extends Decodes (byteAt s.mem (s.procs p).pagetable) (s.procs p).sz sp argv ptr where
  a1 : getLE s.mem ((s.procs p).trapframe + 120) 8 = sp
  stack : getLE s.mem ((s.procs p).trapframe + 48) 8 = sp

/-- What changes neither user memory nor the trapframe leaves the arguments. -/
theorem Started.view {ptr : List Nat} {Y : Set Nat} (h : Started s p argv sp ptr) (hI : KInv T G s)
    (hp : p < NPROC) (hl : (s.procs p).pagetable ≠ 0 ∧ (s.procs p).trapframe ≠ 0)
    (hV : View ∅ Y G G' s.mem s'.mem) (hps : s'.procs = s.procs) (hY : (s.procs p).trapframe ∉ Y) :
    Started s' p argv sp ptr := by
  have htrap : G.use (s.procs p).trapframe = .trap p := (hI.trap _ p).2 ⟨hp, rfl, hl.2⟩
  have hword : ∀ off, off + 8 ≤ 4096 →
      getLE s'.mem ((s.procs p).trapframe + off) 8 = getLE s.mem ((s.procs p).trapframe + off) 8 :=
      fun off ho =>
    getLE_congr 8 fun i hi => by
      rw [Nat.add_assoc]
      exact (hV.keep _ hY (htrap ▸ .inr ⟨p, rfl⟩)).2 (off + i) (by omega)
  have hD := h.toDecodes.congr (byteAt s'.mem (s.procs p).pagetable) fun a _ ha => by
    have hm : ((s.procs p).pagetable, a / 4096) ∈ G.maps :=
      (hI.spans p hp hl.1 _).2 (by unfold npages; omega)
    unfold byteAt userAddr
    rw [hV.leaf _ _ (Set.notMem_empty _) (hI.use_pagetable hp hl.1) (hI.own.leaves.lt hm)]
    exact hV.bytes _ _ (Set.notMem_empty _) hm _ (Nat.mod_lt _ (by decide))
  rw [← hps] at hD
  refine ⟨hD, ?_, ?_⟩
  · rw [hps, hword 120 (by decide), h.a1]
  · rw [hps, hword 48 (by decide), h.stack]

/-- **The arguments decide**: with the stack in place `exec` fails just when they do not fit. -/
theorem Stacked.start (h : Stacked T G0 s0 c n G s) (h0 : KInv T G0 s0) (hT : T.roots = ∅)
    (hfree : G0.use c = .free) (hp : p < NPROC) (hslot : p ∉ T.slots)
    (hl : (s0.procs p).state ≠ .unused) (hfl : ∀ pa, ((s0.procs p).pagetable, pa) ∉ T.flight)
    (entry : Nat) (path : List UInt8) (ha : Arguments argv) :
    ∃ ret s' G', execArgs p c (4096 * (n + 2)) entry path argv s = .ok (ret, s') ∧ KInv T G' s' ∧
      (ret = -1 ↔ PGSIZE < stackBytes argv) ∧
      (ret ≠ -1 → ret = argv.length ∧ (s'.procs p).state ≠ .unused ∧ ∃ sp ptr,
        Started s' p argv sp ptr) := by
  obtain ⟨s1, h1, hfit, hnone⟩ := pushStack_run h h0.own ha
  unfold execArgs
  rcases Nat.lt_or_ge PGSIZE (stackBytes argv) with hlt | hle
  · obtain ⟨s2, G2, e2, h2⟩ := h1.abort h1.growth h0 hT hfree
    exact ⟨-1, s2, G2, (bind_ok (hnone hlt)).trans ((bind_ok e2).trans rfl), h2.inv,
      iff_of_true rfl hlt, fun hc => absurd rfl hc⟩
  obtain ⟨e1, hD⟩ := hfit hle
  generalize 4096 * (n + 2) - stackBytes argv = sp at e1 hD
  obtain ⟨s2, G2, e2, h2, hp2, -, -, hl2, ha1, hsp⟩ :=
    execCommit_spec h1.toSpace h0 hT hp hslot hl hfl sp entry argv.length path
  have hsz := h.inv.own.spans_le h.spans
  rw [npages_mul] at hsz
  have hpage := hD.page
  rw [Nat.mod_eq_of_lt (by omega)] at ha1 hsp
  have hD2 := hD.congr (byteAt s2.mem c) fun a _ hlt => by
    obtain ⟨hleaf, -, hb⟩ := hl2 (a / 4096) (by rw [npages_mul]; omega)
    unfold byteAt userAddr
    rw [hleaf]
    exact hb _ (Nat.mod_lt _ (by decide))
  have hpp : s2.procs p = { s0.procs p with
      name := safestrcpy (lastName path path) 16, pagetable := c, sz := 4096 * (n + 2) } := by
    rw [hp2, Function.update_self]
  refine ⟨_, s2, G2, (bind_ok e1).trans e2, h2, iff_of_false (by omega) (not_lt.2 hle),
    fun _ => ⟨rfl, ?_, sp, slots (4096 * (n + 2)) argv, ?_, ?_, ?_⟩⟩ <;> rw [hpp]
  exacts [hl, hD2, ha1, hsp]

/-! ## `sys_exec` -/

/-- What `sys_exec` finds in user memory: the path and the vector, with `s1` the state once it has
pages for the strings. -/
def Accepts (p upath uargv : Nat) (s : KState) (path : List UInt8) (argv : List (List UInt8))
    (s1 : KState) : Prop :=
  (∃ r bytes, copyinstr (s.procs p).pagetable upath MAXPATH s = .ok ((r, bytes), s) ∧ 0 ≤ r ∧
    bytes.dropLast = path) ∧ ∃ pages, fetchArgs p uargv MAXARG 0 [] [] s = .ok ((pages, some argv),
    s1)

omit [Layout] in
/-- A string that is fetched is short and has no NUL. -/
theorem copyinstr_arg {r va : Nat} {ret : Int} {bytes : List UInt8}
    (e : copyinstr r va PGSIZE s = .ok ((ret, bytes), s)) (h : ¬ ret < 0) :
    bytes.dropLast.length < PGSIZE ∧ 0 ∉ bytes.dropLast := by
  obtain rfl | ⟨rfl, j, hj, hS⟩ := copyinstrLoop_sound le_rfl e
  · exact absurd (by decide) h
  have e' := e.symm.trans (copyinstrLoop_found le_rfl hS hj)
  obtain rfl : bytes = userTake s.mem r va (j + 1) := (Prod.mk.inj (ok_inj e').1).2
  rw [userTake_add, userTake_one, dropLast_concat]
  refine ⟨by simpa using hj, fun hm => ?_⟩
  obtain ⟨i, hi, e0⟩ := mem_userTake.1 hm
  exact hS.body i hi e0

omit [Layout] in
/-- **What the argument loop accepts.** -/
theorem fetchArgs_arguments {uargv k i : Nat} {pages pages' : List Nat} {argv' : List (List UInt8)}
    (e : fetchArgs p uargv k i pages argv s = .ok ((pages', some argv'), s')) :
    argv'.length < argv.length + k ∧ ∀ a ∈ argv', a ∈ argv ∨ a.length < PGSIZE ∧ 0 ∉ a := by
  induction k generalizing s i pages argv with
  | zero => cases e
  | succ k ih =>
    rw [fetchArgs] at e
    obtain ⟨o, s1, -, e⟩ := exists_of_bind e
    rcases o with - | uarg
    · cases e
    simp only at e
    split at e
    · obtain rfl : argv = argv' := Option.some.inj (Prod.mk.inj (ok_inj e).1).2
      exact ⟨by omega, fun a ha => .inl ha⟩
    obtain ⟨o, s2, -, e⟩ := exists_of_bind e
    rcases o with - | page
    · cases e
    simp only at e
    obtain ⟨pr, s3, -, e3⟩ := exists_of_bind e
    obtain ⟨⟨r, bytes⟩, s4, ec, e4⟩ := exists_of_bind e3
    obtain ⟨r', bytes', ec', -⟩ :=
      copyinstrLoop_ok (r := pr.pagetable) (s := s3) PGSIZE uarg PGSIZE []
    obtain ⟨h1, rfl⟩ := ok_inj (ec.symm.trans ec')
    obtain ⟨rfl, rfl⟩ := Prod.mk.inj h1
    obtain ⟨_, s5, -, e5⟩ := exists_of_bind e4
    split at e5
    · cases e5
    next hr =>
      obtain ⟨h2, h3⟩ := ih e5
      rw [length_append, length_singleton] at h2
      refine ⟨by omega, fun a ha => (h3 a ha).elim (fun hm => ?_) .inr⟩
      rcases mem_append.1 hm with hm | hm
      · exact .inl hm
      · rw [mem_singleton.1 hm]
        exact .inr (copyinstr_arg ec hr)

/-- `ustack` has an entry for each string. -/
theorem pushArgs_length {base : Nat} {us us' : List Nat} {sp' : Nat}
    (e : pushArgs c base argv sp us s = .ok (some (sp', us'), s')) :
    us'.length = us.length + argv.length := by
  induction argv generalizing s sp us with
  | nil =>
    obtain rfl := (Prod.mk.inj (Option.some.inj (ok_inj e).1)).2
    rfl
  | cons a as ih =>
    rw [pushArgs] at e
    split at e
    · cases e
    simp only at e
    split at e
    · cases e
    obtain ⟨r, s1, -, e⟩ := exists_of_bind e
    split at e
    · cases e
    rw [ih e, length_append, length_singleton, length_cons]
    omega

/-- **`exec` lays out its arguments so that they decode back.**  For every vector that `sys_exec`
accepts the array `ustack` is not left; the call fails just when the layout does not fit in the
stack page, or `exec` fails with no arguments too; and when it does not fail it returns the number
of strings, and the process starts with its arguments. -/
theorem exec_argv {upath uargv : Nat} {path : List UInt8} {s1 : KState} (h : machine.Reach s)
    (hp : Runs s p) (ha : Accepts p upath uargv s path argv s1)
    (namei : List UInt8 → Option ExecFile) : Arguments argv ∧
    (∀ pagetable base top us sp t t', pushArgs pagetable base argv top [] t =
      .ok (some (sp, us), t') → (us ++ [0]).length ≤ MAXARG) ∧
    ∃ ret s', sysExec p upath uargv namei s = .ok (ret, s') ∧
      (ret = -1 ↔ PGSIZE < stackBytes argv ∨ ∃ t, exec p path (namei path) [] s1 = .ok (-1, t)) ∧
      (ret ≠ -1 → ret = argv.length ∧ ∃ sp ptr, Started s' p argv sp ptr) := by
  obtain ⟨G, hG⟩ := machine_inv h
  obtain ⟨⟨r, bytes, e0, hr, rfl⟩, pages, e1⟩ := ha
  have hargs : Arguments argv := by
    obtain ⟨h1, h2⟩ := fetchArgs_arguments e1
    exact ⟨by simpa using h1, fun a ha => (h2 a ha).resolve_left List.not_mem_nil⟩
  refine ⟨hargs, fun c base top us sp t t' e => ?_, ?_⟩
  · have hlt := hargs.count
    rw [List.length_append, pushArgs_length e, List.length_nil, List.length_singleton]
    omega
  have hT0 : Transit.none.withPages [] = .none := by simp [Transit.withPages]
  obtain ⟨pages', o, s1', G1, e1', hR, hnd, -⟩ :=
    fetchArgs_spec (p := p) (k := MAXARG) hG.own.leaves [] (by rw [hT0]; exact .refl hG)
      List.nodup_nil (fun q hq => absurd hq List.not_mem_nil) uargv 0 []
  obtain ⟨h1, rfl⟩ := Prod.mk.inj (Except.ok.inj (e1'.symm.trans e1))
  obtain ⟨rfl, rfl⟩ := Prod.mk.inj h1
  have hst : (s1'.procs p).state ≠ .unused := by rw [hR.procs]; exact hp.2.1
  have hrun : ∀ {ret : Int} {s2 s3 : KState}, exec p bytes.dropLast (namei bytes.dropLast) argv
      s1' = .ok (ret, s2) → freeArgs pages' s2 = .ok ((), s3) → sysExec p upath uargv namei s = .ok
      (ret, s3) := fun e2 e3 => by
    unfold sysExec
    rw [getProc_bind, bind_ok e0]
    simp only
    rw [if_neg (not_lt.2 hr), bind_ok e1]
    simp only
    rw [bind_ok e2, bind_ok e3]
    rfl
  have hfree : ∀ {G2 s2}, KInv (Transit.none.withPages pages') G2 s2 → _ := fun h2 =>
    freeArgs_spec h2 hnd fun q _ => Set.notMem_empty q
  rcases exec_cases hR.inv rfl p bytes.dropLast (namei bytes.dropLast) with
    ⟨s2, G2, e2, h2⟩ | ⟨c, n, entry, s2, G2, hc, e2, h2⟩
  · obtain ⟨s3, G3, e3, -⟩ := hfree h2.inv
    exact ⟨-1, s3, hrun (e2 argv) e3, iff_of_true rfl (.inr ⟨s2, e2 []⟩), fun hc => absurd rfl hc⟩
  have hargv : ∀ {argv}, Arguments argv → _ :=
    fun ha => h2.start hR.inv rfl hc hp.1 (Set.notMem_empty p) hst (fun _ => Finset.notMem_empty _)
      entry bytes.dropLast ha
  obtain ⟨ret, s3, G3, e3, h3, hret, hok⟩ := hargv hargs
  obtain ⟨s4, G4, e4, -, hps, -, -, hV, -⟩ := hfree h3
  refine ⟨ret, s4, hrun ((e2 argv).trans e3) e4,
    hret.trans ⟨.inl, fun hc => hc.resolve_right ?_⟩, fun hne => ?_⟩
  · -- without arguments there is nothing that does not fit
    rintro ⟨t, ht⟩
    obtain ⟨ret, s5, -, e5, -, hret, -⟩ := hargv .nil
    cases ht.symm.trans ((e2 []).trans e5)
    exact absurd (hret.1 rfl) (by decide)
  · obtain ⟨rfl, hst3, sp, ptr, hS⟩ := hok hne
    have hlive := h3.live p hp.1 (Set.notMem_empty p) hst3
    refine ⟨rfl, sp, ptr, hS.view h3 hp.1 hlive hV hps fun hc => ?_⟩
    have h1 := (h3.trap _ p).2 ⟨hp.1, rfl, hlive.2⟩
    rw [(h3.held _).2 (.inr (.inl hc))] at h1
    cases h1

/-- A program without segments. -/
def bareElf : ExecFile where
  data i := [0x7F, 0x45, 0x4C, 0x46].getD i 0
  size := elfhdrSize

/-- With twelve free pages it gets a space and a stack. -/
theorem exec_bareElf (h : KInv T G s) (hT : T.roots = ∅) (hf : 12 ≤ s.freelist.length) (p : Nat)
    (path : List UInt8) :
    ∃ c n entry s' G', G.use c = .free ∧ (∀ argv, exec p path (some bareElf) argv s =
      execArgs p c (4096 * (n + 2)) entry path argv s') ∧ Stacked T G s c n G' s' := by
  obtain ⟨c, s1, G1, e1, h1, ⟨-, -, -, hc⟩ | ⟨hc0, hfree, hF1, hW1, hr1, hs1, hsp1, hf1⟩⟩ :=
    procPagetable_spec h.own p
  · omega
  have hno : ∀ {P : Nat → Prop}, ∀ v < npages 0, P v := nofun
  have hS : Space T G s c 0 G1 s1 := ⟨h.addRoot hT hfree hc0 h1 hF1 hr1, hs1, hsp1, hno, hno, hF1⟩
  rcases execStack_cases hS (hW1.mono singleton_allOf) h hno hT hfree p
    (field (fileRead bareElf 0 elfhdrSize) 24 8) path with
    ⟨-, -, -, -, hc⟩ | ⟨n, s2, G2, e2, h2⟩
  · omega
  refine ⟨c, n, _, s2, G2, hfree, fun argv => Eq.trans ?_ (e2 argv), h2⟩
  unfold exec
  simp only [show (fileRead bareElf 0 elfhdrSize).length = elfhdrSize by decide, ne_eq, not_true,
    if_false, show field (fileRead bareElf 0 elfhdrSize) 0 4 = ELF_MAGIC by decide,
    show field (fileRead bareElf 0 elfhdrSize) 56 2 = 0 by decide]
  rw [bind_ok e1, if_neg hc0]
  rfl

/-- Page 0 of process `p`, its only one, holds `initcode`. -/
structure HoldsInit (s : KState) (p : Nat) : Prop where
  size : (s.procs p).sz = PGSIZE
  access : Accessible s.mem (s.procs p).pagetable 0 4096
  bytes : ∀ o < 4096, byteAt s.mem (s.procs p).pagetable o = initcode.getD o 0

omit [Layout] in
theorem HoldsInit.take (h : HoldsInit s p) {a k : Nat} (ha : a + k ≤ 4096) :
    userTake s.mem (s.procs p).pagetable a k = (range k).map fun i => initcode.getD (a + i) 0 :=
  map_congr_left fun i hi => h.bytes (a + i) (by have := mem_range.1 hi; omega)

omit [Layout] in
/-- A word of it is fetched. -/
theorem HoldsInit.fetchaddr (h : HoldsInit s p) {a : Nat} (ha : a + 8 ≤ 4096) : fetchaddr p a s =
    .ok (some (field ((range 8).map fun i => initcode.getD (a + i) 0) 0 8), s) := by
  have hacc : Accessible s.mem (s.procs p).pagetable a 8 := fun i hi => by
    have := h.access (a + i) (by omega)
    rwa [Nat.zero_add] at this
  unfold Xv6.fetchaddr
  rw [getProc_bind, h.size, if_neg (by rw [PGSIZE_eq]; omega), bind_ok copyin_eq,
    if_pos hacc, h.take ha]
  rfl

omit [Layout] in
/-- The string at 36 is the path of `init`. -/
theorem HoldsInit.path (h : HoldsInit s p) {k : Nat} (hk : 6 ≤ k) :
    copyinstr (s.procs p).pagetable 36 k s = .ok ((0, [0x2f, 0x69, 0x6e, 0x69, 0x74, 0]), s) := by
  have hS : StrAt s.mem (s.procs p).pagetable 36 5 := by
    refine ⟨fun i hi => ?_, h.bytes 41 (by decide), fun i hi => ?_⟩
    · have := h.access (36 + i) (by omega)
      rwa [Nat.zero_add] at this
    · rw [h.bytes (36 + i) (by omega)]
      revert i
      decide
  exact (copyinstrLoop_found le_rfl hS (by omega)).trans (by rw [h.take (by decide)]; rfl)

/-- It stays there while other memory changes. -/
theorem HoldsInit.view {Y : Set Nat} (h : HoldsInit s p) (ho : Own G s) (ho' : Own G' s')
    (hm : ((s.procs p).pagetable, 0) ∈ G.maps) (hV : View ∅ Y G G' s.mem s'.mem)
    (hps : s'.procs = s.procs) : HoldsInit s' p := by
  have hr := ho.leaves.map_root _ 0 hm
  have hleaf := hV.leaf_map ho hm (Set.notMem_empty _)
  have hzero : ∀ {o}, o < 4096 → (0 + o) / 4096 = 0 := fun {o} ho => by omega
  refine ⟨by rw [hps, h.size], fun o hlt => ?_, fun o hlt => ?_⟩ <;> rw [hps]
  · rw [ho'.userPa_ne ((hV.root _ 0 (Set.notMem_empty _)).2 hr), hzero hlt, hleaf]
    exact ⟨(hV.maps _ 0 (Set.notMem_empty _)).2 hm, hzero hlt ▸
      ((ho.userPa_ne hr).1 (h.access o hlt)).2⟩
  · rw [← h.bytes o hlt, byteAt, byteAt, userAddr, userAddr, Nat.div_eq_of_lt hlt,
      Nat.mod_eq_of_lt hlt, hleaf]
    exact hV.bytes _ 0 (Set.notMem_empty _) hm o hlt

/-- The path of `init`. -/
def initPath : List UInt8 := [0x2f, 0x69, 0x6e, 0x69, 0x74]

/-- **The call of `initcode`** is accepted, and takes one page. -/
theorem HoldsInit.accepts (h : HoldsInit s p) (hG : KInv .none G s)
    (hm : ((s.procs p).pagetable, 0) ∈ G.maps) (hf : s.freelist ≠ []) :
    ∃ s1 T G1, Accepts p 36 43 s initPath [initPath] s1 ∧ KInv T G1 s1 ∧ T.roots = ∅ ∧
    T.slots = ∅ ∧ T.flight = ∅ ∧
      s1.procs = s.procs ∧ s.freelist.length = s1.freelist.length + 1 := by
  obtain ⟨hc, -⟩ | ⟨pa, sa, ea, -, -, hoa, hFa, hlist, -⟩ := kalloc_spec (X := ∅) hG.own
  · exact absurd hc hf
  have hpath := (h.view hG.own hoa hm hFa.view hFa.procs).path (k := PGSIZE) (by decide)
  have hturn : ∀ k, fetchArgs p 43 (k + 1) 0 [] [] s =
      fetchArgs p 43 k 1 [pa] [initPath] { sa with mem := put sa.mem pa (initPath ++ [0]) } :=
      fun k => by
    have hword : Xv6.fetchaddr p ((43 + 8 * 0) % 2 ^ 64) s = .ok (some 36, s) :=
      h.fetchaddr (a := 43) (by decide)
    rw [fetchArgs, bind_ok hword]
    simp only
    rw [if_neg (by decide), bind_ok ea]
    simp only
    rw [getProc_bind, bind_ok hpath, bind_ok (show memput pa _ sa = .ok ((), _) from rfl),
      if_neg (by decide)]
    rfl
  have hT0 : Transit.none.withPages [] = .none := by simp [Transit.withPages]
  obtain ⟨pages, o, s1, G1, e1, hR, -⟩ := fetchArgs_spec (p := p) (k := 1) hG.own.leaves []
    (by rw [hT0]; exact .refl hG) nodup_nil (fun q hq => absurd hq not_mem_nil) 43 0 []
  rw [hturn 0] at e1
  obtain ⟨-, rfl⟩ := ok_inj e1
  have h1 := h.view hG.own hR.inv.own hm hR.view hR.procs
  refine ⟨_, _, G1, ⟨⟨0, _, h.path (by decide), le_rfl, rfl⟩, [pa], ?_⟩, hR.inv, rfl, rfl,
    rfl, hR.procs, ?_⟩
  · have hword : Xv6.fetchaddr p ((43 + 8 * 1) % 2 ^ 64) _ = .ok (some 0, _) :=
      h1.fetchaddr (a := 51) (by decide)
    rw [show MAXARG = 30 + 1 + 1 from rfl, hturn, fetchArgs, bind_ok hword]
    rfl
  · rw [hlist]
    rfl

omit [Layout] in
/-- …for instance what `initcode` asks for: the program `/init` with its own name as the
argument. -/
theorem exec_argv_init : ∃ (s s1 s' : KState) (p sp : Nat) (ptr : List Nat),
    (@machine sampleLayout).Reach s ∧ Accepts p 36 43 s initPath [initPath] s1 ∧
    @sysExec sampleLayout p 36 43 (fun path => if path = initPath then some bareElf else none)
      s = .ok (1, s') ∧
    Started s' p [initPath] sp ptr := by
  let _ : Layout := sampleLayout
  obtain ⟨G, _, s, p, h0, hs, ha, hf⟩ := exists_alone (by decide)
  have hpages : (PHYSTOP - PGROUNDUP kend) / PGSIZE ≥ 22 := by decide
  have hm := (ha.inv.spans p ha.runs.1 (ha.inv.runs ha.runs).1 0).2 (by rw [ha.size]; decide)
  have hI : HoldsInit s p := ⟨ha.size, ha.accessible (by decide), fun o ho => ha.byteAt ho⟩
  obtain ⟨s1, T, G1, hacc, hG1, hroots, hslots, hflight, hps, hlen⟩ :=
    hI.accepts ha.inv hm fun hc => by
    rw [hc, length_nil] at hf
    omega
  obtain ⟨-, -, ret, s', e, hret, hst⟩ := exec_argv (.step (.init h0) hs) ha.runs hacc
    fun path => if path = initPath then some bareElf else none
  have hne : ret ≠ -1 := fun hc => by
    obtain hc | ⟨t, ht⟩ := hret.1 hc
    · exact absurd hc (by decide)
    rw [if_pos rfl] at ht
    obtain ⟨c, n, entry, s2, G2, hfree, e2, h2⟩ := exec_bareElf hG1 hroots (by omega) p initPath
    obtain ⟨ret, s5, -, e5, -, hret, -⟩ :=
      h2.start hG1 hroots hfree ha.runs.1 (by rw [hslots]; exact Set.notMem_empty p)
        (by rw [hps]; exact ha.runs.2.1) (fun _ => by rw [hflight]; exact Finset.notMem_empty _)
        entry initPath .nil
    cases ht.symm.trans ((e2 []).trans e5)
    exact absurd (hret.1 rfl) (by decide)
  obtain ⟨rfl, sp, ptr, hS⟩ := hst hne
  exact ⟨s, s1, s', p, sp, ptr, .step (.init h0) hs, hacc, e, hS⟩

end Xv6
