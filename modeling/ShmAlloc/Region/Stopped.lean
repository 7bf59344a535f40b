import ShmAlloc.Region.Torn

/-!
# Stopping `shm_alloc`, `shm_free` and `shm_block_set_perms`

In which stretch of its stores a call must not be stopped.  An allocation has one from the first
store that takes a block to the one that puts the slot in use; a release has one from the tag bit
to the clearing of the slot; changing permissions has none.

## What is here

* `adoptingEvents`: the stretch of an allocation.  `FullInv.not_usable_of_alloc` and
  `FullInv.usable_alloc`: **the region is not usable while the call is in it, and is before and
  behind it.**
* `Rep.not_usable_of_insert`: while a block is given back, its entry points at a free block.
* `FullInv.not_usable_of_free` and `FullInv.usable_free`: the same for `shm_free`.
* `FullInv.usable_setPerms`: permissions do not matter for what is usable.

Each pair of lemmas cuts the trace of the call in three (`stops_cases`).  The first part writes
nothing that counts, the end of the second is a state the invariant is known of, and in between
some block is lost.
-/

set_option autoImplicit false

namespace ShmAlloc

open Tiling Links

variable {G : Geometry} {m m' : Mem} {bs pre post : List Blk} {fl : List Nat} {b c : Blk}
  {i t used count : Nat} {S V W : List Event}

theorem FullInv.usable (h : FullInv G m bs) : Usable G m :=
  Listed.usable h.heap.toRep h.owned fun _ _ => rfl

/-- Of a slot, only where its object is, how large, and whether it is in use matters. -/
theorem not_shapeByte_of_slot {x : Nat} (hi : i < G.dirCap) (hx : InSlot i x)
    (h : x < slotAddr i + 56 ∨ slotAddr i + 64 ≤ x ∧ x < slotAddr i + 72 ∨
      slotAddr i + 80 ≤ x ∧ x < slotAddr i + 92) : ¬ ShapeByte G bs x := by
  have hb := hx.lt_base hi
  rintro (h' | ⟨c, -, h'⟩ | ⟨j, hj, h'⟩)
  · omega
  · omega
  · obtain rfl : i = j := hx.eq ⟨by omega, by omega⟩
    omega

theorem alive_eq_false : (entryAt m i).alive = false ↔ m (slotAddr i + 92) = 0 := by
  rw [← UInt8.toNat_inj]
  simp [entryAt]

/-- Until the list is touched, a block that is being taken is free. -/
theorem FullInv.usable_prepare {need : Nat} (h : FullInv G m (pre ++ b :: post))
    (hn : 64 ≤ need) (hle : need ≤ b.total) (hV : V <+: prepareEvents G b post need) :
    Usable G (replay V m) := by
  have hbb := h.heap.bounds (show b ∈ pre ++ b :: post by simp)
  refine (h.scribble (b := b) (by simp) fun x hx => ?_).usable
  have hx' := hx.of_prefix hV
  rw [prepareEvents] at hx'
  split at hx'
  · have := writes_freshEvents hx'
    omega
  · exact absurd hx' (not_writes_nil x)

/-! ## Allocation

The header of what stays free of the block is written before anything else, inside a block that is
still free as a whole; the stretch starts behind it. -/

section Alloc

variable {q : Request} {id : Nat}

/-- The stores that fill a slot, up to the one that puts it in use. -/
def fillSlotEvents (s id off cap : Nat) (q : Request) : List Event :=
  [.fill s 96 0, .store s 8 id, .store (s + 56) 8 off, .store (s + 64) 8 cap,
    .store (s + 72) 8 q.size, .store (s + 80) 4 q.typeTag.toNat,
    .store (s + 84) 4 q.userId.toNat, .store (s + 88) 4 q.perms.toNat]

theorem keepsZero_fillSlotEvents (s id off cap : Nat) (q : Request) :
    KeepsZero (s + 92) (fillSlotEvents s id off cap q) := by
  intro e he m hm
  simp only [fillSlotEvents, List.mem_cons, List.not_mem_nil, or_false] at he
  rcases he with rfl | rfl | rfl | rfl | rfl | rfl | rfl | rfl
  · exact Mem.fill_of_inside (by omega) (by omega)
  all_goals exact (Event.act_of_not_touches (by simp only [Event.Touches]; omega)).trans hm

/-- What is done to the block and the slot, up to the store that puts the slot in use. -/
def describeEvents (G : Geometry) (o cap i id : Nat) (q : Request) : List Event :=
  identEvents (G.base + o) id q ++
    (zeroEvents (G.base + o) cap ++ fillSlotEvents (slotAddr i) id (o + 56) cap q)

theorem bindEvents_eq (o cap : Nat) :
    bindEvents G o cap i id q =
      describeEvents G o cap i id q ++ [.store (slotAddr i + 92) 1 1] := by
  simp only [bindEvents, describeEvents, slotEvents, fillSlotEvents, List.append_assoc,
    List.cons_append, List.nil_append]

/-- The stretch of an allocation from the first store that changes the heap to the one that puts
the slot in use. -/
def adoptingEvents (G : Geometry) (pre : List Blk) (b : Blk) (post : List Blk)
    (need used count i id : Nat) (q : Request) : List Event :=
  unlinkEvents G pre b post need ++ (markEvents G b (detached b need).total used count ++
    bindEvents G b.off (taken b need).cap i id q)

theorem allocEvents_eq : allocEvents G pre b post i id q
    = prepareEvents G b post (blockSize q.size) ++ (adoptingEvents G pre b post (blockSize q.size)
      (liveBytes (pre ++ b :: post)) (liveBlks (pre ++ b :: post)).length i id q ++
        answerEvents b.off i id q.name) := by
  simp only [allocEvents, takeEvents, detachEvents_eq, adoptingEvents, List.append_assoc]

theorem writes_describeEvents {x o cap : Nat} (hi : i < G.dirCap)
    (h : Writes (describeEvents G o cap i id q) x) : x ≠ G.base + o + 16 ∧
      (x < G.base ∨ G.base + o ≤ x) := by
  have hs := G.slotAddr_lt hi
  have hD := G.base_ge
  simp only [describeEvents, identEvents, zeroEvents, fillSlotEvents, writes_append, writes_cons,
    not_writes_nil, Event.Touches, or_false] at h
  omega

theorem keepsZero_describeEvents {o cap : Nat} (hi : i < G.dirCap) :
    KeepsZero (slotAddr i + 92) (describeEvents G o cap i id q) := by
  have hs := G.slotAddr_lt hi
  have hs' := slotAddr_ge i
  refine .append (keepsZero_of_not_writes fun hw => ?_)
    (.append (keepsZero_of_not_writes fun hw => ?_) (keepsZero_fillSlotEvents _ _ _ _ _))
  · have := writes_identEvents hw
    omega
  · have := writes_zeroEvents hw
    omega

theorem Takes.alive_eq_false (ht : Takes G m pre b i q) (h : FullInv G m bs) :
    (entryAt m i).alive = false := by
  refine Bool.eq_false_iff.2 fun ha => ht.slot_free ⟨ha, ?_⟩
  have := h.ids.id_pos i ht.slot_lt ha
  omega

/-- **While an allocation is between the two, the region is not usable.** -/
theorem FullInv.not_usable_of_alloc (h : FullInv G m (pre ++ b :: post)) (ht : Takes G m pre b i q)
    (hV : StopsInside (prepareEvents G b post (blockSize q.size)) (adoptingEvents G pre b post
      (blockSize q.size) (liveBytes (pre ++ b :: post)) (liveBlks (pre ++ b :: post)).length i
        (nextIdOf m) q) V) : ¬ Usable G (replay V m) := by
  have hn := blockSize_ge ht.size_pos
  have hsl := G.slotAddr_lt ht.slot_lt
  have hsl' := slotAddr_ge i
  obtain ⟨d, hd, h0, hall, rfl⟩ := hV
  simp only [adoptingEvents, bindEvents_eq] at hd hall
  have hd' := prefix_of_proper (by simpa only [← List.append_assoc] using hd)
    (by simpa only [← List.append_assoc] using hall)
  simp only [List.append_assoc] at hd'
  refine Listed.not_usable_of_take h.heap.toRep ht.free hn (blockSize_mod q.size) ht.fits
    (fun x => writes_describeEvents ht.slot_lt) (fun s hs j hj => ?_) hd' h0
  have hmem : detachEvents G pre b post (blockSize q.size) ++ s <+:
      takeEvents G pre b post (blockSize q.size) (liveBytes (pre ++ b :: post))
        (liveBlks (pre ++ b :: post)).length ++
          bindEvents G b.off (taken b (blockSize q.size)).cap i (nextIdOf m) q := by
    rw [takeEvents, List.append_assoc, List.prefix_append_right_inj, bindEvents_eq,
      ← List.append_assoc]
    exact hs.trans (List.prefix_append ..)
  by_cases hji : j = i
  · -- the slot is not in use, and is not put in use
    subst hji
    have ha := ht.alive_eq_false h
    have hz : KeepsZero (slotAddr j + 92) (detachEvents G pre b post (blockSize q.size) ++ s) := by
      refine .append (keepsZero_of_not_writes fun hw => ?_) (KeepsZero.of_prefix (.append
        (keepsZero_of_not_writes fun hw => ?_) (keepsZero_describeEvents ht.slot_lt)) hs)
      · have := takeEvents_above hn ht.fits ht.free (writes_append.2 (.inl hw) :
          Writes (takeEvents G pre b post (blockSize q.size) 0 0) _)
        omega
      · rcases writes_markEvents hw with hw | hw
        · omega
        · have := hw.1
          omega
    exact Bool.noConfusion
      (hj.alive.symm.trans (alive_eq_false.2 (hz.replay (alive_eq_false.1 ha))))
  · refine h.owned.not_pointsAt h.heap.toRep ht.free j (hj.congr (Eq.symm ?_))
    refine entryAt_replay fun x hx hs => ?_
    have := hs.lt_base hj.lt
    rcases boundMem_writes h.toInv ht (hx.of_prefix hmem) with hx | hx | hx | hx
    · omega
    · exact hji (hs.eq hx)
    · rcases hx with hx | ⟨c, -, -, hx⟩
      · omega
      · have := hx.1
        omega
    · have := hx.1
      omega

/-- The new object has an entry, and so have the others, whatever `next_id` is. -/
theorem FullInv.owned_alloc (h : FullInv G m (pre ++ b :: post)) (ht : Takes G m pre b i q) :
    Owned G (replay (allocEvents G pre b post i (nextIdOf m) q) m)
      (allocBlks pre b post (nextIdOf m) q) := by
  refine (h.toInv.alloc ht).owned fun c hc hl => ?_
  have hold : c ∈ pre ++ b :: post →
      ∃ j, PointsAt G (replay (allocEvents G pre b post i (nextIdOf m) q) m) j c.off := fun hc => by
    obtain ⟨j, hj, -⟩ := h.owned.owner c hc hl
    have hji : j ≠ i := by
      rintro rfl
      exact Bool.noConfusion (hj.alive.symm.trans (ht.alive_eq_false h))
    exact ⟨j, hj.congr (entryAt_alloc_other h.toInv ht hj.lt hji)⟩
  simp only [allocBlks, List.mem_append, List.mem_cons] at hc
  rcases hc with hc | rfl | hc | hc
  · exact hold (by simp [hc])
  · refine ⟨i, ht.slot_lt, ?_, ?_⟩
    · rw [entryAt_alloc h.toInv ht]
      rfl
    · rw [entryAt_alloc h.toInv ht]
      show b.off + 56 = (taken b _).off + 56
      rw [taken_off]
  · rw [remnant] at hc
    split at hc
    · rw [List.mem_singleton.1 hc] at hl
      exact Bool.noConfusion hl
    · exact absurd hc List.not_mem_nil
  · exact hold (by simp [hc])

/-- **Before and behind it is.** -/
theorem FullInv.usable_alloc (h : FullInv G m (pre ++ b :: post)) (ht : Takes G m pre b i q)
    (hV : V <+: allocEvents G pre b post i (nextIdOf m) q)
    (hno : ¬ StopsInside (prepareEvents G b post (blockSize q.size)) (adoptingEvents G pre b post
      (blockSize q.size) (liveBytes (pre ++ b :: post)) (liveBlks (pre ++ b :: post)).length i
        (nextIdOf m) q) V) : Usable G (replay V m) := by
  have hn := blockSize_ge ht.size_pos
  have hbb := h.heap.bounds (show b ∈ pre ++ b :: post by simp)
  have hfin : Listed G (replay (allocEvents G pre b post i (nextIdOf m) q) m)
      (allocBlks pre b post (nextIdOf m) q) := (h.toInv.alloc ht).heap.toRep
  have hown := h.owned_alloc ht
  rw [allocEvents_eq] at hV hfin hown
  rcases stops_cases hV with hV | hV | ⟨s, ⟨w, hs⟩, rfl⟩
  · exact h.usable_prepare hn ht.fits hV
  · exact absurd hV hno
  · rw [← hs, ← List.append_assoc, ← List.append_assoc, replay_append] at hfin hown
    rw [← List.append_assoc]
    refine Listed.usable_before hfin hown fun x hx => ?_
    have hx' : Writes (answerEvents b.off i (nextIdOf m) q.name) x := hs ▸ writes_append.2 (.inr hx)
    have hname := writes_answerEvents_name hx'
    exact not_shapeByte_of_slot ht.slot_lt (writes_answerEvents hx') (.inl (by omega))

end Alloc

/-! ## Giving a block back -/

/-- Once cleared, the tag bit of a block that is given back stays so. -/
theorem Rep.keepsZero_insertEvents (h : Rep G m (pre ++ b :: post) fl) :
    KeepsZero (G.base + b.off + 16) (insertEvents G pre b post) := by
  have hD := G.base_ge
  have hmid := h.bounds_mid
  have hpre : ∀ p ∈ pre, p.off + 64 ≤ b.off := fun p hp => by
    have := hmid.1 p hp
    have := (h.wf p (by simp [hp])).min
    omega
  have hmin := (h.wf b (by simp)).min
  have hnext : ¬ Writes (nextEvents G b.freed post) (G.base + b.off + 16) := by
    cases post with
    | nil => exact not_writes_nil _
    | cons c cs =>
      have := hmid.2 c (by simp)
      rw [nextEvents]
      split
      · exact not_writes_nil _
      · simp only [mergeEvents, writes_append, writes_cons, not_writes_nil, Event.Touches, or_false,
          Blk.freed_off]
        omega
  have hprev : ∀ {b' : Blk} {rest : List Blk}, b'.off = b.off →
      ¬ Writes (prevEvents G pre (b' :: rest)) (G.base + b.off + 16) := fun {b' rest} hoff => by
    rw [prevEvents]
    cases hp : lastFree pre with
    | none => simp [Event.Touches]
    | some p =>
      have := hpre p (mem_of_lastFree hp).1
      dsimp only
      split
      · simp only [mergeEvents, writes_append, writes_cons, not_writes_nil, Event.Touches, or_false,
          hoff]
        omega
      · simp [Event.Touches]
  refine .append (keepsZero_clearEvents _) (.append (keepsZero_of_not_writes fun hw => ?_)
    (.append (keepsZero_of_not_writes hnext) (keepsZero_of_not_writes ?_)))
  · simp only [linkEvents, writes_cons, not_writes_nil, Event.Touches, or_false] at hw
    rcases hw with hw | hw
    · omega
    · rcases freeListByte_linkAddr hw.1 hw.2 with hx | ⟨p, hp, -, hx⟩
      · omega
      · have := hpre p hp
        have := hx.2
        omega
  · obtain ⟨t, rest, he, -⟩ := absorbNext_eq_cons b.freed post
    rw [he]
    exact hprev rfl

/-- **While a block is given back, its entry points at a free block.** -/
theorem Rep.not_usable_of_insert {d : List Event} (h : Rep G m (pre ++ b :: post) fl)
    (hp : PointsAt G m i b.off) (hd : d <+: insertEvents G pre b post) (hne : d ≠ []) :
    ¬ Usable G (replay d m) := by
  have hent : entryAt (replay d m) i = entryAt m i := entryAt_replay fun x hx hs => by
    have := hs.lt_base hp.lt
    rcases writes_insertEvents (hx.of_prefix hd) with hx | ⟨c, -, -, hx⟩
    · omega
    · have := hx.1
      omega
  have hz := h.keepsZero_insertEvents.of_prefix hd
  obtain ⟨e, ds, rfl⟩ := List.exists_cons_of_ne_nil hne
  obtain ⟨rfl, hds⟩ := List.cons_prefix_cons.1 (show e :: ds <+:
    .store (G.base + b.off + 16) 1 0 :: _ from hd)
  refine fun hu =>
    Bool.noConfusion ((hu.tagged (hp.congr hent)).symm.trans (taggedAt_eq_false ?_))
  rw [replay_cons]
  refine KeepsZero.replay (fun e he => hz e (List.mem_cons_of_mem _ he)) ?_
  have h0 := Mem.load_store_same m (G.base + b.off + 16) 1 0
  rw [Mem.load_one] at h0
  exact UInt8.toNat_inj.1 (h0.trans rfl)

/-! ## `shm_free` -/

theorem Holds.pointsAt (hh : Holds G m i b) : PointsAt G m i b.off :=
  ⟨hh.lt, hh.alive, hh.mirrors.off⟩

theorem freeEvents_eq : freeEvents G pre b post i
    = uncountEvents b.total (liveBytes (pre ++ b :: post)) (liveBlks (pre ++ b :: post)).length ++
      ((insertEvents G pre b post ++ [.fill (slotAddr i) 96 0]) ++
        [.persist (slotAddr i) 96, .drain, .unlock]) := by
  simp only [freeEvents, releaseEvents, clearSlotEvents, List.append_assoc, List.cons_append,
    List.nil_append]

theorem FullInv.not_usable_of_free (h : FullInv G m (pre ++ b :: post)) (hh : Holds G m i b)
    (hV : StopsInside (uncountEvents b.total used count)
      (insertEvents G pre b post ++ [.fill (slotAddr i) 96 0]) V) : ¬ Usable G (replay V m) := by
  have hD := G.base_ge
  have hs := slotAddr_ge i
  obtain ⟨d, hd, h0, hall, rfl⟩ := hV
  have hp := hh.pointsAt
  have hent : entryAt (replay (uncountEvents b.total used count) m) i = entryAt m i :=
    entryAt_replay fun x hx hin => by
      have := writes_uncountEvents hx
      have := hin.1
      omega
  have h1 := h.heap.toRep.of_header_writes (W := uncountEvents b.total used count) fun x hx => by
    have := writes_uncountEvents hx
    omega
  rw [replay_append]
  exact h1.not_usable_of_insert (hp.congr hent) (prefix_of_proper hd hall) h0

theorem FullInv.usable_free (h : FullInv G m (pre ++ b :: post)) (hh : Holds G m i b)
    (hV : V <+: freeEvents G pre b post i)
    (hno : ¬ StopsInside (uncountEvents b.total (liveBytes (pre ++ b :: post))
      (liveBlks (pre ++ b :: post)).length)
        (insertEvents G pre b post ++ [.fill (slotAddr i) 96 0]) V) : Usable G (replay V m) := by
  have hfin := h.free hh
  rw [freeEvents_eq] at hV hfin
  rcases stops_cases hV with hV | hV | ⟨s, ⟨w, hs⟩, rfl⟩
  · refine Listed.usable_of_writes h.heap.toRep h.owned fun x hx => ?_
    have := writes_uncountEvents (hx.of_prefix hV)
    exact not_shapeByte_of_header this.1 (by omega)
  · exact absurd hV hno
  · rw [← hs, ← List.append_assoc, ← List.append_assoc, replay_append] at hfin
    rw [← List.append_assoc]
    refine Listed.usable_before hfin.heap.toRep hfin.owned fun x hx => ?_
    have hx' : Writes [.persist (slotAddr i) 96, .drain, .unlock] x :=
      hs ▸ writes_append.2 (.inr hx)
    simp [Event.Touches] at hx'

/-! ## `shm_block_set_perms` -/

theorem FullInv.usable_setPerms {j : Nat} {p : UInt32} (h : FullInv G m bs) (hb : b ∈ bs)
    (hj : j < G.dirCap) (hV : V <+: setPermsEvents G b j p) : Usable G (replay V m) := by
  have hbb := h.heap.bounds hb
  have hs := G.slotAddr_lt hj
  refine Listed.usable_of_writes h.heap.toRep h.owned fun x hx => ?_
  rcases writes_setPermsEvents (hx.of_prefix hV) with hx | hx
  · exact h.heap.not_shapeByte_of_hdr hb (by omega) (by omega) (by omega)
  · exact not_shapeByte_of_slot hj ⟨by omega, by omega⟩ (.inr (.inr (by omega)))

end ShmAlloc
