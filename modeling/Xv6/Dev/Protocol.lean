import Xv6.Dev.VirtioInv

/-!
# Dev/Protocol — every step of driver and device keeps the protocol

One lemma for each place a process, a handler or the device can be at: the code there does not stop,
and `Inv` holds again after it.  `virtio_protocol` reads the driver's guarantees off the invariant.
-/

namespace Xv6.Virtio

open Act Function List Option

variable {A U : List Nat} {s : Sys} {p b k : Nat} {c : Chain} {write : Bool}

namespace Inv

/-! ## Processes -/

section

variable (h : Inv A U s)

include h

/-- Another process's descriptors are not among those of `p`. -/
theorem apart_of {q : Nat} {c' : Chain} (hq : q ≠ p) (hc : (s.pc p).chain = some c)
    (hc' : (s.pc q).chain = some c') {i : Nat} (hi : c'.Mem i) : ¬ c.Mem i :=
  h.apart q p c' c hq hc' hc i hi

/-- …so neither is its head. -/
theorem head_ne {q : Nat} {c' : Chain} (hq : q ≠ p) (hc : (s.pc p).chain = some c)
    (hc' : (s.pc q).chain = some c') : c'.i0 ≠ c.i0 := fun e =>
  h.apart_of hq hc hc' Chain.mem0 (e ▸ Chain.mem0)

/-- While `p` holds the lock no other process does. -/
theorem holds_unique {q : Nat} (hp : (s.pc p).holds = true) (hq : (s.pc q).holds = true) :
    q = p := by
  have e := (h.locks.proc q).1 hq
  rw [(h.locks.proc p).1 hp] at e
  simpa using e.symm

/-- A process moves to a place with the same buffer and descriptors, and nothing else happens. -/
theorem setPc {x : Pc} {lock : Option Agent} (hl : Locks (update s.pc p x) s.intr lock)
    (hloc : Local (flight A U s) { s.setPc p x with lock := lock } p)
    (hc : ∀ c, x.chain = some c → (s.pc p).chain = some c)
    (hw : ∀ b c, (s.pc p).waits = some (b, c) → c.i0 ∈ flight A U s → x.waits = some (b, c)) :
    Inv A U { s.setPc p x with lock := lock } := by
  refine { h with
    locks := hl, procs := fun q => ?_, apart := h.apart.move hc, awaited := h.awaited.move hw }
  by_cases hq : q = p
  · rw [hq]
    exact hloc
  · exact (h.procs q).congr { Rests.refl _ s q with pc := update_of_ne hq .. }

theorem runAlloc (hp : s.pc p = .alloc b write) : ∃ s', runProc s p = .ok s' ∧ Inv A U s' := by
  have hlock : (s.pc p).holds = true := by rw [hp]; rfl
  have hown : s.owner b = some p := (h.procs p).owner b (by rw [hp]; rfl)
  rcases alloc3Desc_spec (d := s.disk) with ⟨desc, e, hdesc⟩ | ⟨i0, i1, i2, l0, l1, l2, n01, n02,
    n12, f0, f1, f2, e⟩
  · refine ⟨{ ({ s with disk := { s.disk with desc := desc } } : Sys).setPc p (.enter b write) with
      lock := none }, by simp only [runProc, hp, onDisk, e], ?_⟩
    have h' : Inv A U { s with disk := { s.disk with desc := desc } } :=
      { h with
        procs := fun q => (h.procs q).congr
          { Rests.refl _ s q with
            desc := fun c hc i hi => hdesc i (((h.procs q).taken c hc).taken i hi) } }
    refine h'.setPc (h.locks.leave hlock rfl) ?_ (by rintro c ⟨⟩) ?_
    · constructor <;> simp [Sys.setPc, Pc.buf, Pc.chain, Pc.request, hown]
    · intro b' c hw
      rw [show Sys.pc _ p = _ from hp] at hw
      cases hw
  · let x : Pc := .format b write ⟨i0, i1, i2⟩
    refine ⟨({ s with disk := { s.disk with free := mark3 s.disk.free i0 i1 i2 false } } :
      Sys).setPc p x, by simp only [runProc, hp, onDisk, e, x], ?_⟩
    have hmem : ∀ i, Chain.Mem i ⟨i0, i1, i2⟩ → i < NUM ∧ s.disk.free i = true ∧
        mark3 s.disk.free i0 i1 i2 false i = false := by
      rintro i (rfl | rfl | rfl)
      · exact ⟨l0, f0, by simp [mark3, n01, n02]⟩
      · exact ⟨l1, f1, by simp [mark3, n12]⟩
      · exact ⟨l2, f2, by simp [mark3]⟩
    -- what is free belongs to no one
    have hnew : ∀ q c', (s.pc q).chain = some c' → ∀ i, Chain.Mem i ⟨i0, i1, i2⟩ → ¬ c'.Mem i := by
      intro q c' hc' i hi hi'
      have := ((h.procs q).taken c' hc').taken i hi'
      rw [(hmem i hi).2.1] at this
      cases this
    have hfresh : i0 ∉ flight A U s := by
      intro hid
      obtain ⟨q, b', c', hw, e'⟩ := h.awaited i0 hid
      refine hnew q c' (Pc.chain_of_request (Pc.request_of_waits hw)) i0 (.inl rfl) (.inl e'.symm)
    refine { h with locks := ?_, procs := fun q => ?_, apart := ?_, awaited := ?_ }
    · exact h.locks.move (by rw [hp]; rfl)
    · by_cases hq : q = p
      · rw [hq]
        constructor
        · intro b' hb
          obtain rfl : b = b' := by simpa [Sys.setPc, x, Pc.buf] using hb
          exact hown
        · intro c hc
          obtain rfl : (⟨i0, i1, i2⟩ : Chain) = c := by simpa [Sys.setPc, x, Pc.chain] using hc
          exact ⟨fun i hi => (hmem i hi).1, ⟨n01, n02, n12⟩, fun i hi => (hmem i hi).2.2⟩
        · simp [Sys.setPc, x, Pc.request]
        · simp [Sys.setPc, x, Pc.request]
        · intro c hc _
          obtain rfl : (⟨i0, i1, i2⟩ : Chain) = c := by simpa [Sys.setPc, x, Pc.chain] using hc
          exact hfresh
        · simp [Sys.setPc, x]
      · exact (h.procs q).congr
          { Rests.refl _ s q with
            pc := update_of_ne hq ..
            free := fun c' hc' i hi => Chain.mark3_ne (c := ⟨i0, i1, i2⟩) fun hm => hnew q
              c' hc' i hm hi }
    · exact h.apart.alloc rfl hnew
    · exact h.awaited.move fun b c hw => by rw [hp] at hw; cases hw

/-- A head that is not in flight has no status that matters. -/
theorem status_update {i : Nat} {x : Info} (hi : i ∉ flight A U s) (id : Nat)
    (hid : s.posting = some id ∨ id ∈ U) : (update s.disk.info i x id).status = 0 := by
  rw [update_of_ne (by rintro rfl; exact hi (hid.elim mem_post mem_used))]
  exact h.status id hid

theorem runFormat (hp : s.pc p = .format b write c) : ∃ s', runProc s p = .ok s' ∧ Inv A U s' := by
  have hlp := h.procs p
  have hown : s.owner b = some p := hlp.owner b (by rw [hp]; rfl)
  have hchain : (s.pc p).chain = some c := by rw [hp]; rfl
  have htaken := hlp.taken c hchain
  have hfresh : c.i0 ∉ flight A U s := hlp.fresh c hchain (by rw [hp]; rfl)
  obtain ⟨ops, e⟩ : ∃ ops, format b write c.i0 c.i1 c.i2 s.disk = .ok ((), { s.disk with
      ops := ops, desc := c.descs b write s.disk.desc
      info := update s.disk.info c.i0 ⟨some b, 0xff⟩
      busy := update s.disk.busy b true }) := format_eq
  let d : Disk := { s.disk with
    ops := ops, desc := c.descs b write s.disk.desc
    info := update s.disk.info c.i0 ⟨some b, 0xff⟩
    busy := update s.disk.busy b true }
  refine ⟨({ s with disk := d } : Sys).setPc p
    (.ring b c), by simp only [runProc, hp, onDisk, e, d], ?_⟩
  refine { h with locks := ?_, procs := fun q => ?_, apart := ?_, awaited := ?_, status := ?_ }
  · exact h.locks.move (by rw [hp]; rfl)
  · by_cases hq : q = p
    · rw [hq]
      refine Local.of_request (b := b) (c := c) (by simp [Sys.setPc, Pc.request]) hown
        (htaken.congr fun _ _ => rfl) (Chain.linked_descs htaken.ne rfl (by simp [Sys.setPc, d])) ?_
        (fun _ => hfresh) (by simp [Sys.setPc])
      simp [Sys.setPc, d, Pc.Ready]
    · refine (h.procs q).congr
        { Rests.refl _ s q with
          pc := update_of_ne hq ..
          desc := fun c' hc' i hi => Chain.descs_ne (h.apart_of hq hchain hc' hi)
          info := fun c' hc' => congrArg Info.b (update_of_ne (h.head_ne hq hchain hc') ..)
          busy := fun b' hb' => update_of_ne ?_ .. }
      rintro rfl
      exact h.buf_ne hq hb' (by rw [hp]; rfl)
  · exact h.apart.move fun _ hc => hchain.trans hc
  · exact h.awaited.move fun b' c' hw => by rw [hp] at hw; cases hw
  · exact h.status_update hfresh

/-- A head that is not in flight fits into the available ring. -/
theorem room_avail (hc : (s.pc p).chain = some c) (hw : (s.pc p).waits = none) : A.length < NUM :=
  room h.nodup_avail (fun _ hx => h.flight_lt (mem_avail hx))
    (((h.procs p).taken c hc).lt _ Chain.mem0) fun hx => (h.procs p).fresh c hc hw (mem_avail hx)

theorem runRing (hp : s.pc p = .ring b c) : ∃ s', runProc s p = .ok s' ∧ Inv A U s' := by
  have hchain : (s.pc p).chain = some c := by rw [hp]; rfl
  have hlock : (s.pc p).holds = true := by rw [hp]; rfl
  have hlp := h.procs p
  let d : Disk := { s.disk with
    availRing := update s.disk.availRing (s.disk.availIdx % NUM) c.i0 }
  refine ⟨({ s with disk := d } : Sys).setPc p (.bump b c), by simp only [runProc, hp]; rfl, ?_⟩
  refine { h with
    locks := h.locks.move (by rw [hp]; rfl)
    procs := fun q => ?_
    apart := h.apart.move fun _ hc => hchain.trans hc
    avail := h.avail.set_free (by decide) (h.room_avail hchain (by rw [hp]; rfl)) c.i0
    awaited := h.awaited.move fun b' c' hw => by rw [hp] at hw; cases hw }
  by_cases hq : q = p
  · rw [hq]
    have hr : (s.pc p).request = some (b, c) := by rw [hp]; rfl
    refine hlp.advance hr (by simp [Sys.setPc, Pc.request]) ⟨rfl, rfl, rfl, rfl⟩ ?_
      (fun _ => hlp.fresh c hchain (by rw [hp]; rfl)) (fun _ => by simp [Sys.setPc, d])
    have := hlp.busy b c hr
    rw [hp] at this
    simpa [Sys.setPc, Pc.Ready, d] using this
  · exact (h.procs q).congr
      { Rests.refl _ s q with
        pc := update_of_ne hq ..
        slot := fun b' c' hb => absurd (h.holds_unique hlock (by rw [hb]; rfl)) hq }

theorem runBump (hp : s.pc p = .bump b c) :
    ∃ s', runProc s p = .ok s' ∧ Inv (A ++ [c.i0]) U s' := by
  have hlp := h.procs p
  have hr : (s.pc p).request = some (b, c) := by rw [hp]; rfl
  have hchain := Pc.chain_of_request hr
  have hnw : (s.pc p).waits = none := by rw [hp]; rfl
  have hlock : (s.pc p).holds = true := by rw [hp]; rfl
  have hfresh := hlp.fresh c hchain hnw
  let s' : Sys :=
    { ({ s with disk := { s.disk with availIdx := (s.disk.availIdx + 1) % 2 ^ 16 } } : Sys).setPc p
        (.check b c) with subs := update s.subs c.i0 (s.subs c.i0 + 1) }
  refine ⟨s', by simp only [runProc, hp]; rfl, ?_⟩
  have hpc : s'.pc p = .check b c := update_self ..
  have hperm : (flight (A ++ [c.i0]) U s').Perm (c.i0 :: flight A U s) := by
    show (A ++ [c.i0] ++ _).Perm _
    rw [append_assoc]
    exact perm_middle
  have hmem : ∀ x, x ∈ flight (A ++ [c.i0]) U s' ↔ x = c.i0 ∨ x ∈ flight A U s := fun x => by
    rw [hperm.mem_iff, mem_cons]
  refine { h with
    locks := h.locks.move (by rw [hp]; rfl)
    procs := fun q => ?_
    apart := h.apart.move fun _ hc => hchain.trans hc
    avail := h.avail.push (h.room_avail hchain hnw) (hlp.slot b c hp)
    nodup := hperm.nodup_iff.2 (nodup_cons.2 ⟨hfresh, h.nodup⟩)
    awaited := fun id hid => ?_
    count := fun id => ?_ }
  · by_cases hq : q = p
    · rw [hq]
      refine hlp.advance hr (by rw [hpc]; rfl) ⟨rfl, rfl, rfl, rfl⟩ ?_ (by rw [hpc]; exact nofun)
        (by rw [hpc]; exact nofun)
      rw [hpc]
      refine iff_of_true ?_ (.inr ((hmem _).2 (.inl rfl)))
      exact (hlp.busy b c hr).2 (.inl (by rw [hp]; trivial))
    · exact (h.procs q).congr
        { Rests.refl [] s q with
          pc := update_of_ne hq ..
          mem := fun c' hc' => (hmem _).trans (or_iff_right (h.head_ne hq hchain hc'))
          slot := fun b' c' hb => absurd (h.holds_unique hlock (by rw [hb]; rfl)) hq }
  · rcases (hmem id).1 hid with rfl | hid
    · exact ⟨p, b, c, by rw [hpc]; rfl, rfl⟩
    · exact h.awaited.move (fun b' c' hw => by rw [hnw] at hw; cases hw) id hid
  · -- the head is counted as submitted, and is in the available ring
    have hcount := h.count id
    show update s.subs c.i0 (s.subs c.i0 + 1) id =
      s.comps id + if id ∈ A ++ [c.i0] ++ s.work then 1 else 0
    by_cases hid : id = c.i0
    · subst hid
      rw [update_self, if_pos (by simp), hcount, if_neg fun hm => hfresh ?_]
      rw [flight, ← append_assoc]
      exact mem_append_left _ hm
    · rw [update_of_ne hid, hcount]
      simp [hid]

theorem runCheck (hp : s.pc p = .check b c) : ∃ s', runProc s p = .ok s' ∧ Inv A U s' := by
  have hlp := h.procs p
  have hr : (s.pc p).request = some (b, c) := by rw [hp]; rfl
  have hlock : (s.pc p).holds = true := by rw [hp]; rfl
  have hbusy : s.disk.busy b = true ↔ c.i0 ∈ flight A U s := by
    rw [hlp.busy b c hr, hp]
    exact or_iff_right nofun
  by_cases hb : s.disk.busy b = true
  · refine ⟨{ s.setPc p (.asleep b c) with lock := none }, by simp only [runProc, hp, if_pos hb],
      ?_⟩
    refine h.setPc (h.locks.leave hlock rfl) ?_ (fun c' hc => by rw [hp]; exact hc)
      fun b' c' hw _ => ?_
    · refine hlp.advance hr (by simp [Sys.setPc, Pc.request]) ⟨rfl, rfl, rfl, rfl⟩ ?_ ?_ ?_
      · simpa [Sys.setPc, Pc.Ready] using hbusy
      · simp [Sys.setPc, Pc.waits]
      · simp [Sys.setPc]
    · rw [hp] at hw
      exact hw
  · refine ⟨s.setPc p (.finish b c), by simp only [runProc, hp, if_neg hb], ?_⟩
    have hout : c.i0 ∉ flight A U s := fun hm => hb (hbusy.2 hm)
    have hlocks : Locks (update s.pc p (.finish b c)) s.intr s.lock :=
      h.locks.move (by rw [hp]; rfl)
    refine h.setPc hlocks ?_ (fun c' hc => by rw [hp]; exact hc) fun b' c' hw hm => ?_
    · refine hlp.advance hr (by simp [Sys.setPc, Pc.request]) ⟨rfl, rfl, rfl, rfl⟩ ?_ ?_ ?_
      · simpa [Sys.setPc, Pc.Ready] using hbusy
      · exact fun _ => hout
      · simp [Sys.setPc]
    · rw [hp] at hw
      cases hw
      exact absurd hm hout

theorem runFinish (hp : s.pc p = .finish b c) : ∃ s', runProc s p = .ok s' ∧ Inv A U s' := by
  have hlp := h.procs p
  have hr : (s.pc p).request = some (b, c) := by rw [hp]; rfl
  have hchain := Pc.chain_of_request hr
  have hlock : (s.pc p).holds = true := by rw [hp]; rfl
  obtain ⟨desc, e, hdesc⟩ := finish_eq (hlp.taken c hchain) (hlp.linked b c hr)
  let d : Disk := { s.disk with
    desc := desc, free := mark3 s.disk.free c.i0 c.i1 c.i2 true
    info := update s.disk.info c.i0 { s.disk.info c.i0 with b := none } }
  refine ⟨{ ({ s with disk := d } : Sys).setPc p .out with lock := none },
    by simp only [runProc, hp, onDisk, e, d], ?_⟩
  refine { h with
    locks := h.locks.leave hlock rfl
    procs := fun q => ?_
    apart := h.apart.move nofun
    awaited := h.awaited.move fun b' c' hw => by rw [hp] at hw; cases hw
    status := h.status_update (hlp.fresh c hchain (by rw [hp]; rfl)) }
  by_cases hq : q = p
  · rw [hq]
    constructor <;> simp [Sys.setPc, Pc.buf, Pc.chain, Pc.request]
  · exact (h.procs q).congr
      { Rests.refl _ s q with
        pc := update_of_ne hq ..
        free := fun c' hc' i hi => Chain.mark3_ne (h.apart_of hq hchain hc' hi)
        desc := fun c' hc' i hi => hdesc i (h.apart_of hq hchain hc' hi)
        info := fun c' hc' => congrArg Info.b (update_of_ne (h.head_ne hq hchain hc') ..) }

/-- **A process inside `virtio_disk_rw`** never stops, whatever it does next. -/
theorem run : ∃ s' A', runProc s p = .ok s' ∧ Inv A' U s' := by
  cases hp : s.pc p with
  | alloc b write => exact (h.runAlloc hp).imp fun s' hs' => ⟨A, hs'⟩
  | format b write c => exact (h.runFormat hp).imp fun s' hs' => ⟨A, hs'⟩
  | ring b c => exact (h.runRing hp).imp fun s' hs' => ⟨A, hs'⟩
  | bump b c => exact (h.runBump hp).imp fun s' hs' => ⟨A ++ [c.i0], hs'⟩
  | check b c => exact (h.runCheck hp).imp fun s' hs' => ⟨A, hs'⟩
  | finish b c => exact (h.runFinish hp).imp fun s' hs' => ⟨A, hs'⟩
  | out | enter b write | asleep b c => exact ⟨s, A, by simp only [runProc, hp], h⟩

/-! ## Interrupt handlers -/

/-- Where the handler's next entry comes from. -/
theorem next_used (hne : s.disk.seen ≠ s.disk.usedIdx) :
    ∃ id U', U = id :: U' ∧ s.disk.usedRing (s.disk.seen % NUM) = id ∧
      Queue (2 ^ 16) NUM s.disk.usedRing ((s.disk.seen + 1) % 2 ^ 16) s.disk.usedIdx U' := by
  cases U with
  | nil => exact absurd ((h.used.eq_iff (by decide)).2 rfl) hne
  | cons id U' => exact ⟨id, U', rfl, h.used.pop⟩

/-- **A completion belongs to the request that was submitted**: the handler finds status 0 and the
buffer of the process that waits, and clears that buffer's flag. -/
theorem intrBody_eq (hne : s.disk.seen ≠ s.disk.usedIdx) :
    ∃ p b c, (s.pc p).waits = some (b, c) ∧ s.disk.usedRing (s.disk.seen % NUM) = c.i0 ∧
      c.i0 ∈ U ∧ intrBody s.disk = .ok ((), { s.disk with
        busy := update s.disk.busy b false, seen := (s.disk.seen + 1) % 2 ^ 16 }) := by
  obtain ⟨id, U', rfl, hid, -⟩ := h.next_used hne
  have hU : id ∈ id :: U' := mem_cons_self
  obtain ⟨p, b, c, hw, rfl⟩ := h.awaited id (mem_used hU)
  refine ⟨p, b, c, hw, hid, hU, ?_⟩
  have hstatus := h.status c.i0 (.inr hU)
  have hbuf := ((h.procs p).linked b c (Pc.request_of_waits hw)).buf
  rw [intrBody, bind_ok (gets_apply _ _), bind_ok (gets_apply _ _), hid,
    if_neg (not_not_intro hstatus), hbuf]
  rfl

omit h in
theorem update_body {intr : Nat → IntrPc} {k' : Nat} {y : IntrPc} (hk : update intr k y k' = .body)
    (hy : y ≠ .body) : k' ≠ k ∧ intr k' = .body := by
  by_cases e : k' = k
  · rw [e, update_self] at hk
    exact absurd hk hy
  · exact ⟨e, (update_of_ne e ..).symm.trans hk⟩

theorem runIntr : ∃ s' U', Virtio.runIntr s k = .ok s' ∧ Inv A U' s' := by
  cases hk : s.intr k with
  | idle => exact ⟨s, U, by simp only [Virtio.runIntr, hk], h⟩
  | test =>
    have hni : s.intr k ≠ .idle := by rw [hk]; simp
    by_cases hne : s.disk.seen ≠ s.disk.usedIdx
    · refine ⟨s.setIntr k .body, U, by simp only [Virtio.runIntr, hk, if_pos hne], ?_⟩
      exact { h with
        locks := h.locks.moveIntr hni (by simp), body := fun _ _ => hne, procs :=
          fun q => (h.procs q).congr { Rests.refl _ s q with } }
    · refine ⟨{ s.setIntr k .idle with lock := none },
        U, by simp only [Virtio.runIntr, hk, if_neg hne], ?_⟩
      exact { h with
        locks := h.locks.leaveIntr hni
        procs := fun q => (h.procs q).congr { Rests.refl _ s q with }
        body := fun k' hk' => h.body k' (update_body hk' (by simp)).2 }
  | body =>
    have hni : s.intr k ≠ .idle := by rw [hk]; simp
    have hne := h.body k hk
    obtain ⟨p, b, c, hw, hid, -, e⟩ := h.intrBody_eq hne
    obtain ⟨id, U', rfl, hid', hused⟩ := h.next_used hne
    obtain rfl : c.i0 = id := hid.symm.trans hid'
    let d : Disk := { s.disk with
      busy := update s.disk.busy b false, seen := (s.disk.seen + 1) % 2 ^ 16 }
    refine ⟨({ s with disk := d } : Sys).setIntr k .test,
      U', by simp only [Virtio.runIntr, hk, onDisk, e, d], ?_⟩
    have hr := Pc.request_of_waits hw
    have hchain := Pc.chain_of_request hr
    have hlp := h.procs p
    -- the head leaves the used ring, and was nowhere else
    have hperm : (flight A (c.i0 :: U') s).Perm (c.i0 :: flight A U' s) := by
      rw [flight, flight, ← append_assoc, ← append_assoc, ← append_assoc,
        ← append_assoc]
      exact perm_middle
    have hnd := nodup_cons.1 (hperm.nodup_iff.1 h.nodup)
    have hmem : ∀ x, x ∈ flight A (c.i0 :: U') s ↔ x = c.i0 ∨ x ∈ flight A U' s := fun x => by
      rw [hperm.mem_iff, mem_cons]
    refine { h with
      locks := h.locks.moveIntr hni (by simp)
      procs := fun q => ?_
      used := hused
      nodup := hnd.2
      awaited := fun id hid => h.awaited id ((hmem id).2 (.inr hid))
      status := fun id hid => h.status id (hid.imp_right (mem_cons_of_mem _))
      body := fun k' hk' => ?_ }
    · by_cases hq : q = p
      · rw [hq]
        refine hlp.advance hr hr ⟨rfl, rfl, rfl, rfl⟩ ?_ (fun _ => hnd.1) fun hb => ?_
        · show update s.disk.busy b false b = true ↔ _
          rw [update_self]
          exact iff_of_false (by simp) (not_or.2 ⟨Pc.not_ready_of_waits hw, hnd.1⟩)
        · rw [show s.pc p = _ from hb] at hw
          cases hw
      · refine (h.procs q).congr
          { Rests.refl [] s q with
            busy := fun b' hb' => update_of_ne ?_ ..
            mem := fun c' hc' => ((hmem _).trans (or_iff_right (h.head_ne hq hchain hc'))).symm }
        rintro rfl
        exact h.buf_ne hq hb' (Pc.buf_of_request hr)
    · -- no other handler is inside the loop
      obtain ⟨hkk, hk''⟩ := update_body hk' (by simp)
      have e1 := (h.locks.intr k').1 (by rw [hk'']; simp)
      cases e1.symm.trans ((h.locks.intr k).1 hni)
      exact absurd rfl hkk

/-! ## The device -/

theorem fetch (hne : s.lastAvail ≠ s.disk.availIdx) : ∃ s' A', exec s .fetch = .ok s' ∧
    Inv A' U s' := by
  cases A with
  | nil => exact absurd ((h.avail.eq_iff (by decide)).2 rfl) hne
  | cons a A' =>
    obtain ⟨ha, havail⟩ := h.avail.pop
    refine ⟨_, A', rfl, ?_⟩
    rw [ha]
    let s' : Sys := { s with lastAvail := (s.lastAvail + 1) % 2 ^ 16, work := a :: s.work }
    have hperm : (flight A' U s').Perm (flight (a :: A') U s) := by
      show (A' ++ (a :: _)).Perm (a :: (A' ++ _))
      exact perm_middle
    refine { h with
      procs := fun q => (h.procs q).congr { Rests.refl [] s q with mem := fun _ _ => hperm.mem_iff }
      avail := havail
      nodup := hperm.nodup_iff.2 h.nodup
      awaited := fun id hid => h.awaited id (hperm.mem_iff.1 hid)
      count := fun id => ?_ }
    show s.subs id = s.comps id + if id ∈ A' ++ a :: s.work then 1 else 0
    rw [h.count id]
    congr 2
    simp only [cons_append, mem_cons, mem_append, eq_iff_iff]
    tauto

theorem complete {id : Nat} (hpost : s.posting = none) (hid : id ∈ s.work) :
    ∃ s', exec s (.complete id) = .ok s' ∧ Inv A U s' := by
  obtain ⟨p, b, c, hw, rfl⟩ := h.awaited id (mem_work hid)
  have hr := Pc.request_of_waits hw
  have hlinked := (h.procs p).linked b c hr
  have hstatus : writeStatus s.disk c.i0 =
      { s.disk with info := update s.disk.info c.i0 { s.disk.info c.i0 with status := 0 } } := by
    rw [writeStatus, hlinked.first.2, hlinked.second.2, hlinked.last.2]
  let s' : Sys := { s with
    disk := { s.disk with
      info := update s.disk.info c.i0 { s.disk.info c.i0 with status := 0 }
      usedRing := update s.disk.usedRing (s.disk.usedIdx % NUM) c.i0 }
    work := s.work.erase c.i0
    posting := some c.i0
    comps := update s.comps c.i0 (s.comps c.i0 + 1) }
  refine ⟨s', by simp only [exec, hstatus]; rfl, ?_⟩
  have hflight : flight A U s = A ++ (s.work ++ U) := by simp [flight, hpost]
  have hperm : (flight A U s').Perm (flight A U s) := by
    rw [hflight]
    refine List.Perm.append_left A ?_
    show (s.work.erase c.i0 ++ (c.i0 :: U)).Perm _
    exact perm_middle.trans ((perm_cons_erase hid).symm.append_right U)
  have hnd := h.nodup
  rw [hflight] at hnd
  obtain ⟨-, hnwU, hdA⟩ := nodup_append.1 hnd
  obtain ⟨hnw, hnU, hdw⟩ := nodup_append.1 hnwU
  have hnotU : c.i0 ∉ U := fun hm => hdw _ hid _ hm rfl
  have hroom : U.length < NUM :=
    room hnU (fun _ hx => h.flight_lt (mem_used hx)) (h.flight_lt (mem_work hid)) hnotU
  refine { h with
    procs :=
      fun q => (h.procs q).congr
      { Rests.refl [] s q with info := fun c' _ => ?_, mem := fun _ _ => hperm.mem_iff }
    used := h.used.set_free (by decide) hroom c.i0
    post := fun id hid => ?_
    nodup := hperm.nodup_iff.2 h.nodup
    awaited := fun id hid => h.awaited id (hperm.mem_iff.1 hid)
    status := fun id hid => ?_
    count := fun id => ?_ }
  · show (update s.disk.info c.i0 { s.disk.info c.i0 with status := 0 } c'.i0).b = _
    by_cases e : c'.i0 = c.i0
    · rw [e, update_self]
    · rw [update_of_ne e]
  · obtain rfl := some.inj hid
    exact update_self ..
  · show (update s.disk.info c.i0 { s.disk.info c.i0 with status := 0 } id).status = 0
    by_cases e : id = c.i0
    · rw [e, update_self]
    · rw [update_of_ne e]
      refine h.status id (hid.imp (fun hp => ?_) fun hu => hu)
      exact absurd (some.inj hp).symm e
  · have hcount := h.count id
    show s.subs id = update s.comps c.i0 (s.comps c.i0 + 1) id +
      if id ∈ A ++ s.work.erase c.i0 then 1 else 0
    by_cases e : id = c.i0
    · subst e
      have hA : c.i0 ∉ A := fun hm => hdA _ hm _ (mem_append_left _ hid) rfl
      rw [update_self, hcount, if_pos (mem_append_right _ hid), if_neg fun hm => ?_]
      rcases mem_append.1 hm with hm | hm
      exacts [hA hm, hnw.not_mem_erase hm]
    · rw [update_of_ne e, hcount]
      simp [mem_erase_of_ne e]

theorem publish {id : Nat} (hpost : s.posting = some id) :
    ∃ s', exec s .publish = .ok s' ∧ Inv A (U ++ [id]) s' := by
  let s' : Sys := { s with
    disk := { s.disk with usedIdx := (s.disk.usedIdx + 1) % 2 ^ 16 }, posting := none }
  refine ⟨s', rfl, ?_⟩
  have hflight : flight A U s = A ++ (s.work ++ (id :: U)) := by simp [flight, hpost]
  have hperm : (flight A (U ++ [id]) s').Perm (flight A U s) := by
    rw [hflight]
    refine List.Perm.append_left A (List.Perm.append_left s.work ?_)
    exact perm_append_singleton id U
  have hnd := h.nodup
  rw [hflight] at hnd
  have hnot : id ∉ U :=
    (nodup_cons.1 (nodup_append.1 (nodup_append.1 hnd).2.1).2.1).1
  have hroom : U.length < NUM :=
    room h.nodup_used (fun _ hx => h.flight_lt (mem_used hx)) (h.flight_lt (mem_post hpost)) hnot
  refine { h with
    procs := fun q => (h.procs q).congr { Rests.refl [] s q with mem := fun _ _ => hperm.mem_iff }
    used := h.used.push hroom (h.post id hpost)
    post := nofun
    nodup := hperm.nodup_iff.2 h.nodup
    awaited := fun x hx => h.awaited x (hperm.mem_iff.1 hx)
    status := fun x hx => ?_
    body := fun k _ hk => ?_ }
  · rcases hx with hx | hx
    · cases hx
    · rcases mem_append.1 hx with hx | hx
      · exact h.status x (.inr hx)
      · obtain rfl := mem_singleton.1 hx
        exact h.status x (.inl hpost)
  · have := ((h.used.push hroom (h.post id hpost)).eq_iff (by decide)).1 hk
    simp at this

/-! ## Around the driver -/

theorem lockBuf {n : Nat} (hb : s.owner b = none) : Inv A U { s with
    disk := { s.disk with blockno := update s.disk.blockno b n }
    owner := update s.owner b (some p) } :=
  { h with
    procs := fun q => (h.procs q).congr
      { Rests.refl _ s q with
        owner := fun b' hb' => update_of_ne (by
          rintro rfl
          rw [(h.procs q).owner b' hb'] at hb
          cases hb) .. } }

theorem unlockBuf (hp : s.pc p = .out) (hb : s.owner b = some p) :
    Inv A U { s with owner := update s.owner b none } :=
  { h with
    procs := fun q => (h.procs q).congr
      { Rests.refl _ s q with
        owner := fun b' hb' => update_of_ne (by
          -- a process inside the driver keeps its buffer locked
          rintro rfl
          rw [(h.procs q).owner b' hb'] at hb
          obtain rfl := some.inj hb
          rw [hp] at hb'
          cases hb') .. } }

theorem call (hp : s.pc p = .out) (hb : s.owner b = some p) :
    Inv A U (s.setPc p (.enter b write)) := by
  have hlocks : Locks (update s.pc p (.enter b write)) s.intr s.lock :=
    h.locks.move (by rw [hp]; rfl)
  refine h.setPc hlocks ?_ nofun fun b' c hw => ?_
  · constructor <;> simp [Sys.setPc, Pc.buf, Pc.chain, Pc.request, hb]
  · rw [hp] at hw
    cases hw

theorem acquire (hl : s.lock = none) (hp : ((s.pc p).locked).isSome) :
    Inv A U { s.setPc p (((s.pc p).locked).getD .out) with lock := some (.proc p) } := by
  have hlocks := h.locks
  rw [hl] at hlocks
  have hlp := h.procs p
  cases hx : s.pc p with
  | enter b write =>
    refine h.setPc (hlocks.take rfl) ?_ nofun fun b' c hw => by rw [hx] at hw; cases hw
    have hown := hlp.owner b (by rw [hx]; rfl)
    constructor <;> simp [Sys.setPc, Pc.locked, Pc.buf, Pc.chain, Pc.request, hown]
  | asleep b c =>
    have hr : (s.pc p).request = some (b, c) := by rw [hx]; rfl
    refine h.setPc (hlocks.take rfl) ?_ (fun c' hc => by rw [hx]; exact hc) fun b' c' hw _ => by
      rw [hx] at hw; exact hw
    refine hlp.advance hr (by simp [Sys.setPc, Pc.locked, Pc.request]) ⟨rfl, rfl, rfl, rfl⟩ ?_ ?_ ?_
    · have := hlp.busy b c hr
      rw [hx] at this
      simpa [Sys.setPc, Pc.locked, Pc.Ready] using this
    · simp [Sys.setPc, Pc.locked, Pc.waits]
    · simp [Sys.setPc, Pc.locked]
  | _ => rw [hx] at hp; cases hp

theorem interrupt (hl : s.lock = none) :
    Inv A U { s.setIntr k .test with lock := some (.intr k) } := by
  have hlocks := h.locks
  rw [hl] at hlocks
  exact { h with
    locks := hlocks.takeIntr nofun
    procs := fun q => (h.procs q).congr { Rests.refl _ s q with }
    body := fun k' hk' => h.body k' (update_body hk' nofun).2 }

/-- **Whatever happens next, it happens**, and the invariant holds again. -/
theorem exec {a : Label} (ha : Enabled s a) : ∃ s' A' U', Virtio.exec s a = .ok s' ∧
    Inv A' U' s' := by
  cases a with
  | lockBuf p b n => exact ⟨_, A, U, rfl, h.lockBuf ha.2⟩
  | unlockBuf p b => exact ⟨_, A, U, rfl, h.unlockBuf ha.1 ha.2⟩
  | call p b write => exact ⟨_, A, U, rfl, h.call ha.1 ha.2⟩
  | acquire p => exact ⟨_, A, U, rfl, h.acquire ha.1 ha.2⟩
  | run p =>
    obtain ⟨s', A', e, h'⟩ := h.run (p := p)
    exact ⟨s', A', U, e, h'⟩
  | interrupt c => exact ⟨_, A, U, rfl, h.interrupt ha.1⟩
  | runIntr c =>
    obtain ⟨s', U', e, h'⟩ := h.runIntr (k := c)
    exact ⟨s', A, U', e, h'⟩
  | fetch =>
    obtain ⟨s', A', e, h'⟩ := h.fetch ha
    exact ⟨s', A', U, e, h'⟩
  | complete id =>
    obtain ⟨s', e, h'⟩ := h.complete ha.1 ha.2
    exact ⟨s', A, U, e, h'⟩
  | publish =>
    obtain ⟨id, hid⟩ := Option.isSome_iff_exists.1 ha
    obtain ⟨s', e, h'⟩ := h.publish hid
    exact ⟨s', A, U ++ [id], e, h'⟩

end

theorem start {blockno : Nat → Nat} : Inv [] [] (initSys blockno) where
  locks := ⟨fun _ => iff_of_false nofun nofun, fun _ => iff_of_false (fun h => h rfl) nofun⟩
  procs _ := ⟨nofun, nofun, nofun, nofun, nofun, nofun⟩
  apart _ _ _ _ _ h := nomatch h
  avail := .empty (show 0 < 2 ^ 16 by decide)
  used := .empty (show 0 < 2 ^ 16 by decide)
  post := nofun
  nodup := .nil
  awaited := nofun
  status _ _ := rfl
  count _ := rfl
  body := nofun

end Inv

/-- **The invariant holds along every run.** -/
theorem system_inv (h : system.Reach s) : ∃ A U, Inv A U s := by
  refine h.invariant (I := fun s => ∃ A U, Inv A U s) ?_ ?_
  · rintro _ ⟨blockno, rfl⟩
    exact ⟨[], [], .start⟩
  · rintro s a s' - ⟨A, U, h⟩ ⟨ha, e⟩
    obtain ⟨t, A', U', e', h'⟩ := h.exec ha
    obtain rfl : t = s' := Except.ok.inj (e'.symm.trans e)
    exact ⟨A', U', h'⟩

/-! ## The driver's guarantees -/

/-- The descriptors met from `i` on along the `NEXT` flags, at most `k` of them. -/
def follow (d : Disk) : Nat → Nat → List Nat
  | 0, _ => []
  | k + 1, i => i ::
    if (d.desc i).flags &&& VRING_DESC_F_NEXT ≠ 0 then follow d k (d.desc i).next else []

/-- How many entries of the available ring the device has not read. -/
def pending (s : Sys) : Nat := (s.disk.availIdx + 2 ^ 16 - s.lastAvail) % 2 ^ 16

/-- What the driver guarantees in a state. -/
structure Protocol (s : Sys) : Prop where
  /-- Requests in progress have different descriptors. -/
  disjoint : ∀ p q c c', p ≠ q → (s.pc p).chain = some c → (s.pc q).chain = some c' →
    ∀ i, c.Mem i → ¬ c'.Mem i
  /-- The chain of a request is its three descriptors and no more. -/
  chain : ∀ p b c, (s.pc p).request = some (b, c) →
    [c.i0, c.i1, c.i2].Nodup ∧ ∀ k, follow s.disk (k + 3) c.i0 = [c.i0, c.i1, c.i2]
  /-- Nothing that can happen next stops: no `panic`, no null buffer, no endless chain. -/
  progress : ∀ a e, Enabled s a → exec s a ≠ .error e
  /-- The slot a process is about to fill is none of those the device has not read. -/
  slot : ∀ p b c, s.pc p = .ring b c →
    ∀ k < pending s, (s.lastAvail + k) % 2 ^ 16 % NUM ≠ s.disk.availIdx % NUM
  /-- The device reads heads of requests that wait and have not been completed. -/
  fetched : s.lastAvail ≠ s.disk.availIdx → ∃ p b c, (s.pc p).waits = some (b, c) ∧
    s.disk.availRing (s.lastAvail % NUM) = c.i0 ∧ s.comps c.i0 < s.subs c.i0
  /-- A handler clears the flag of the buffer that was submitted with the chain it finds, whose
  process still waits for it, and of no other. -/
  completion : ∀ k, s.intr k = .body → ∃ p b c, (s.pc p).waits = some (b, c) ∧
    s.disk.usedRing (s.disk.seen % NUM) = c.i0 ∧ (s.disk.info c.i0).b = some b ∧
    s.comps c.i0 = s.subs c.i0 ∧ s.disk.busy b = true ∧
    ∃ s', exec s (.runIntr k) = .ok s' ∧ s'.disk.busy = update s.disk.busy b false
  /-- A process that is done has had its request completed, and its flag cleared. -/
  returned : ∀ p b c, s.pc p = .finish b c → s.comps c.i0 = s.subs c.i0 ∧ s.disk.busy b = false

theorem Chain.Linked.follow_eq {d : Disk} (h : c.Linked d b) :
    follow d (k + 3) c.i0 = [c.i0, c.i1, c.i2] := by
  rw [follow, if_pos h.first.1, h.first.2, follow, if_pos h.second.1, h.second.2, follow,
    if_neg (not_not_intro h.last.1)]

namespace Inv

/-- An entry the device has not read is in another slot than the next one to be filled. -/
theorem slot_ne (h : Inv A U s) (hl : A.length < NUM) {k : Nat} (hk : k < pending s) :
    (s.lastAvail + k) % 2 ^ 16 % NUM ≠ s.disk.availIdx % NUM := by
  rw [pending, h.avail.length_eq (by decide)] at hk
  have e1 := h.avail.slot k _ (getElem?_eq_getElem hk)
  intro e
  -- otherwise any value could be read back there
  have e2 := (h.avail.set_free (by decide) hl (A[k] + 1)).slot k _ (getElem?_eq_getElem hk)
  rw [e, update_self] at e2
  omega

theorem count_eq (h : Inv A U s) {id : Nat} (hid : id ∉ A ++ s.work) : s.comps id = s.subs id := by
  rw [h.count id, if_neg hid]
  rfl

theorem protocol (h : Inv A U s) : Protocol s where
  disjoint := h.apart
  chain p b c hr := by
    have hne := ((h.procs p).taken c (Pc.chain_of_request hr)).ne
    exact ⟨by simp [hne], fun k => ((h.procs p).linked b c hr).follow_eq⟩
  progress a e ha he := by
    obtain ⟨s', A', U', e', -⟩ := h.exec ha
    rw [he] at e'
    cases e'
  slot p b c hp k hk := by
    exact h.slot_ne (h.room_avail (p := p) (c := c) (by rw [hp]; rfl) (by rw [hp]; rfl)) hk
  fetched hne := by
    cases A with
    | nil => exact absurd ((h.avail.eq_iff (by decide)).2 rfl) hne
    | cons a A' =>
      obtain ⟨p, b, c, hw, rfl⟩ := h.awaited a (mem_avail mem_cons_self)
      refine ⟨p, b, c, hw, h.avail.pop.1, ?_⟩
      rw [h.count, if_pos (mem_append_left _ mem_cons_self)]
      omega
  completion k hk := by
    have hne := h.body k hk
    obtain ⟨p, b, c, hw, hid, hU, e⟩ := h.intrBody_eq hne
    have hr := Pc.request_of_waits hw
    refine ⟨p, b, c, hw, hid, ((h.procs p).linked b c hr).buf, h.count_eq fun hm => ?_,
      ((h.procs p).busy b c hr).2 (.inr (mem_used hU)), ({ s with disk := { s.disk with
        busy := update s.disk.busy b false
        seen := (s.disk.seen + 1) % 2 ^ 16 } } : Sys).setIntr k .test, ?_, rfl⟩
    · -- a head in the used ring is neither in the available ring nor at the device
      have hnd := h.nodup
      rw [flight, ← append_assoc] at hnd
      exact (nodup_append.1 hnd).2.2 _ hm _ (mem_append_right _ hU) rfl
    · show Virtio.runIntr s k = _
      simp only [Virtio.runIntr, hk, onDisk, e]
  returned p b c hp := by
    have hr : (s.pc p).request = some (b, c) := by rw [hp]; rfl
    have hout := (h.procs p).fresh c (Pc.chain_of_request hr) (by rw [hp]; rfl)
    have hbusy := (h.procs p).busy b c hr
    rw [hp] at hbusy
    refine ⟨h.count_eq fun hm => hout ?_, ?_⟩
    · rw [flight, ← append_assoc]
      exact mem_append_left _ hm
    · rw [← Bool.not_eq_true, hbusy]
      exact not_or.2 ⟨id, hout⟩

end Inv

/-- **The protocol holds along every run** of driver and device, in any interleaving and past any
number of wrap-arounds of the 16-bit indices. -/
theorem virtio_protocol (h : system.Reach s) : Protocol s := by
  obtain ⟨A, U, h⟩ := system_inv h
  exact h.protocol

/-- …for instance when a handler has found the completion of the first request. -/
theorem virtio_protocol_first : ∃ s, system.Reach s ∧ s.intr 3 = .body ∧
    s.pc 0 = .asleep 5 ⟨0, 1, 2⟩ ∧ Protocol s := by
  have h : system.Reach (initSys id) := .init ⟨_, rfl⟩
  have hs := h.play (fun _ _ _ => system_step)
    (l := [.lockBuf 0 5 7, .call 0 5 true, .acquire 0, .run 0, .run 0, .run 0, .run 0, .run 0,
      .fetch, .complete 0, .publish, .interrupt 3, .runIntr 3]) rfl
  exact ⟨_, hs, rfl, rfl, virtio_protocol hs⟩

end Xv6.Virtio
