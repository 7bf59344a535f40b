import ShmAlloc.Region.Stopped

/-!
# Stopping `shm_resize`

A resize in place edits the heap and then the entry.  Shrinking must not be stopped while the tail
is torn, nor, if the object was larger than the block is going to be, before the entry says
otherwise; growing must not be stopped while the neighbour is neither on the list nor part of the
block.  A relocation is an allocation and a release, with one stretch from the first store that
takes the new block to the one that points the slot at it.

## What is here

* `Listed.usable_finish`: the end of a resize leaves the region usable if it is usable before and
  behind it.
* `overhangEvents` and `FullInv.usable_cut`: **shrinking.**  The tail is torn while it is cut off,
  as for any block; on top of that the object may reach into it.
* `annexEvents` and `FullInv.usable_grow`: **growing in place.**  There are two stretches, one in
  which the neighbour is lost (`Listed.not_usable_of_annex`) and one in which what is too much is
  cut off again (`Listed.not_usable_of_regrow`).
* `relocatingEvents`, `FullInv.not_usable_of_relocating` and `FullInv.usable_move`: **relocation.**
* `overrunEvents`, `FullInv.not_usable_of_overrun` and `FullInv.usable_overrun`: a relocation that
  never returns.  Its stretch has no end.

As for the other calls, each stretch has a lemma that says the region is not usable inside it, and
one that says it is everywhere else.
-/

set_option autoImplicit false

namespace ShmAlloc

open Tiling Links

variable {G : Geometry} {m m' : Mem} {bs pre post pre' post' : List Blk} {fl : List Nat}
  {b c f : Blk} {i n t used count : Nat} {S V W s : List Event}

/-! ## The end of a resize

Every resize in place ends with two stores to the slot, neither of which moves the object. -/

/-- **The end of a resize leaves the region usable** if it is usable before and behind it. -/
theorem Listed.usable_finish {cap : Nat} (hi : i < G.dirCap) (h : Listed G m bs)
    (ho : Owned G m bs) (h' : Listed G (replay (inPlaceEvents i cap n) m) bs)
    (ho' : Owned G (replay (inPlaceEvents i cap n) m) bs) (hs : s <+: inPlaceEvents i cap n) :
    Usable G (replay s m) := by
  have hev : inPlaceEvents i cap n = [.store (slotAddr i + 64) 8 cap] ++
      ([.store (slotAddr i + 72) 8 n] ++ [.persist (slotAddr i) 96, .drain, .unlock]) := rfl
  rw [hev] at hs h' ho'
  rcases stops_cases hs with hs | hs | ⟨w, ⟨w', hw⟩, rfl⟩
  · refine Listed.usable_of_writes h ho fun x hx => ?_
    have hx' := hx.of_prefix hs
    simp only [writes_cons, not_writes_nil, Event.Touches, or_false] at hx'
    exact not_shapeByte_of_slot hi ⟨by omega, by omega⟩ (.inr (.inl (by omega)))
  · exact absurd hs not_stopsInside_singleton
  · rw [← hw, ← List.append_assoc, ← List.append_assoc, replay_append] at h' ho'
    rw [← List.append_assoc]
    refine Listed.usable_before h' ho' fun x hx => ?_
    have hx' : Writes [.persist (slotAddr i) 96, .drain, .unlock] x :=
      hw ▸ writes_append.2 (.inr hx)
    simp [Event.Touches] at hx'

/-- One entry may describe more or less of its block, as long as it fits. -/
theorem Owned.of_entry (ho : Owned G m bs)
    (hother : ∀ j, j < G.dirCap → j ≠ i → entryAt m' j = entryAt m j)
    (hoff : (entryAt m' i).off = (entryAt m i).off)
    (halive : (entryAt m' i).alive = (entryAt m i).alive)
    (hfit : ∀ b ∈ bs, PointsAt G m i b.off → (entryAt m' i).used + 56 ≤ b.total) :
    Owned G m' bs := by
  have hpoints : ∀ j o, PointsAt G m' j o ↔ PointsAt G m j o := fun j o => by
    by_cases hji : j = i
    · subst hji
      exact ⟨fun hp => ⟨hp.lt, halive.symm.trans hp.alive, hoff.symm.trans hp.off⟩,
        fun hp => ⟨hp.lt, halive.trans hp.alive, hoff.trans hp.off⟩⟩
    · exact ⟨fun hp => hp.congr (hother j hp.lt hji).symm, fun hp => hp.congr (hother j hp.lt hji)⟩
  refine ⟨fun b hb hl => ?_, fun j hj ha => ?_⟩
  · simp only [hpoints]
    exact ho.owner b hb hl
  · by_cases hji : j = i
    · subst hji
      obtain ⟨b, hb, hl, hbo, -⟩ := ho.block j hj (halive.symm.trans ha)
      exact ⟨b, hb, hl, hoff.trans hbo, hfit b hb ⟨hj, halive.symm.trans ha, hbo⟩⟩
    · rw [hother j hj hji] at ha ⊢
      exact ho.block j hj ha

/-! ## Resizing in place -/

section

variable {b' : Blk} {post' : List Blk}

/-- Once the heap has been edited, the entry of the block still fits if it is not too large. -/
theorem FullInv.owned_inPlace (h : FullInv G m (pre ++ b :: post)) (hh : Holds G m i b)
    (hp : InPlace G m pre b post W b' post') (hold : (entryAt m i).used + 56 ≤ b'.total) :
    Owned G (replay W m) (pre ++ b' :: post') := by
  refine (h.owned.resize hp.off (hp.live.trans hh.live.symm) hp.others fun j hj => ?_).congr
    fun j hj => entryAt_replay fun x hx hin => ?_
  · have hji := h.dir.inj j i hj.lt hh.lt hj.alive hh.alive (hj.off.trans hh.mirrors.off.symm)
    subst hji
    exact hold
  · have := (hp.writes x hx).1.ge
    have := hin.lt_base hj
    omega

/-- **The heap has been edited, and the entry is brought up to date.** -/
theorem FullInv.usable_inPlace (h : FullInv G m (pre ++ b :: post)) (hh : Holds G m i b)
    (hp : InPlace G m pre b post W b' post') (hn : n + 56 ≤ b'.total)
    (hold : (entryAt m i).used + 56 ≤ b'.total) (hs : s <+: inPlaceEvents i b'.cap n) :
    Usable G (replay (W ++ s) m) := by
  have hfin := h.inPlace hh hp hn
  have hl := hfin.heap.toRep
  have ho := hfin.owned
  rw [replay_append] at hl ho ⊢
  exact Listed.usable_finish hh.lt hp.heap.toRep (h.owned_inPlace hh hp hold) hl ho hs

end

/-! ### Shrinking -/

/-- The stretch of a shrinking resize in which the entry describes more than the block holds, if it
described that much before. -/
def overhangEvents (G : Geometry) (pre : List Blk) (b : Blk) (post : List Blk) (i t n : Nat) :
    List Event :=
  cutEvents (G.base + b.off) t ++ (.persist (G.base + b.off) 56 ::
    (insertEvents G (pre ++ [b.resized t]) (b.tail t) post ++
      [.store (slotAddr i + 64) 8 (b.resized t).cap, .store (slotAddr i + 72) 8 n]))

theorem cutTail_inPlace_eq_stages :
    cutTailEvents G pre b post t used ++ inPlaceEvents i (b.resized t).cap n
    = tailHdrEvents G b t used ++ (overhangEvents G pre b post i t n ++
        [.persist (slotAddr i) 96, .drain, .unlock]) := by
  simp only [cutTailEvents, trimEvents, tailHdrEvents, overhangEvents, inPlaceEvents, finishEvents,
    List.append_assoc, List.cons_append, List.nil_append]

/-- **An object that is larger than its block** reaches into the next one. -/
theorem FullInv.not_usable_of_overhang (h : FullInv G m (pre ++ b :: post)) (hh : Holds G m i b)
    (ht : 64 ≤ t) (hrem : t + 64 ≤ b.total) (hover : t < (entryAt m i).used + 56)
    (hV : StopsInside (tailHdrEvents G b t used) (overhangEvents G pre b post i t n) V) :
    ¬ Usable G (replay V m) := by
  have hbm : b ∈ pre ++ b :: post := by simp
  have hbb := h.heap.bounds hbm
  have hmid := h.heap.bounds_mid
  have hlt := G.size_lt
  have hsz := G.size_eq
  have hD := G.base_ge
  have hs := G.slotAddr_lt hh.lt
  have hs' := slotAddr_ge i
  obtain ⟨d, hd, h0, hall, rfl⟩ := hV
  have hd' := prefix_of_proper (D := cutEvents (G.base + b.off) t ++
    (.persist (G.base + b.off) 56 :: (insertEvents G (pre ++ [b.resized t]) (b.tail t) post ++
      [.store (slotAddr i + 64) 8 (b.resized t).cap]))) (e := .store (slotAddr i + 72) 8 n)
    (by simpa [overhangEvents] using hd) (by simpa [overhangEvents] using hall)
  obtain ⟨e, ds, rfl⟩ := List.exists_cons_of_ne_nil h0
  rw [cutEvents, List.cons_append, List.cons_prefix_cons] at hd'
  obtain ⟨rfl, hds⟩ := hd'
  -- neither the size of the block nor that of the object is written again
  have hdw : ∀ x, Writes ds x → (x < G.base + b.off + 40 ∨ G.base + b.off + 48 ≤ x) ∧
      (88 ≤ x ∧ x < 96 ∨ slotAddr i + 64 ≤ x ∧ x < slotAddr i + 72 ∨ G.base ≤ x) := fun x hx => by
    have hx' := hx.of_prefix hds
    simp only [List.cons_append, List.nil_append, writes_cons, writes_append, not_writes_nil,
      Event.Touches, or_false, false_or] at hx'
    rcases hx' with hx' | hx' | hx'
    · omega
    · rcases writes_insertEvents hx' with hx' | ⟨c, hc, hl, hx'⟩
      · omega
      · obtain ⟨h1, h2⟩ := hx'
        refine ⟨?_, .inr (.inr (by omega))⟩
        simp only [Blk.tail_freed, List.append_assoc, List.mem_append, List.mem_cons,
          List.not_mem_nil, or_false] at hc
        rcases hc with hc | rfl | rfl | hc
        · have := hmid.1 c hc
          have := (h.heap.wf c (by simp [hc])).min
          omega
        · rw [Blk.resized_live, hh.live] at hl
          exact Bool.noConfusion hl
        · rw [Blk.tail_off] at h1 h2
          omega
        · have := hmid.2 c hc
          omega
    · omega
  have htotal : totalAt G (replay (tailHdrEvents G b t used ++
      .store (G.base + b.off + 40) 8 t :: ds) m) b.off = t := by
    rw [replay_append, replay_cons, totalAt_replay fun x hx => (hdw x hx).1, totalAt]
    exact (Mem.load_store_same ..).trans (Nat.mod_eq_of_lt (show t < 2 ^ 64 by omega))
  obtain ⟨e1, e2, e3⟩ := entry_fields_replay (i := i) (tailHdrEvents G b t used ++
    .store (G.base + b.off + 40) 8 t :: ds) (fun x hw => by
      rcases writes_append.1 hw with hw | hw
      · rcases writes_append.1 hw with hw | hw
        · have := writes_tailEvents hw
          omega
        · simp only [writes_cons, not_writes_nil, Event.Touches, or_false, false_or] at hw
          omega
      · rcases writes_cons.1 hw with hw | hw
        · have := hw.1
          omega
        · have := (hdw x hw).2
          omega) m
  intro hu
  have hfits := hu.fits (i := i) (o := b.off)
    ⟨hh.lt, e3.trans hh.alive, e1.trans hh.mirrors.off⟩
  rw [htotal, e2] at hfits
  omega

/-- **Shrinking is torn** while the tail is, and while the object is larger than its block. -/
theorem FullInv.usable_cut (h : FullInv G m (pre ++ b :: post)) (hh : Holds G m i b)
    (ht : 64 ≤ t) (ht8 : t % 8 = 0) (hrem : t + 64 ≤ b.total) (hn : n + 56 ≤ t)
    (hV : V <+: cutTailEvents G pre b post t (liveBytes (pre ++ b :: post)) ++
      inPlaceEvents i (b.resized t).cap n)
    (htail : ¬ TornTail G pre b post t (liveBytes (pre ++ b :: post)) [] V)
    (hover : t < (entryAt m i).used + 56 → ¬ StopsInside
      (tailHdrEvents G b t (liveBytes (pre ++ b :: post))) (overhangEvents G pre b post i t n) V) :
    Usable G (replay V m) := by
  have hbm : b ∈ pre ++ b :: post := by simp
  have hp := InPlace.cutTail h.toInv hh.live ht ht8 hrem
  by_cases hfit : (entryAt m i).used + 56 ≤ t
  · rcases prefix_or_append hV with hV | ⟨s, hs, rfl⟩
    · refine Listed.usable_cutTail h.heap.toRep hh.live ht ht8 hrem h.owned (fun j hj => ?_) hV
        htail
      have hji := h.dir.inj j i hj.lt hh.lt hj.alive hh.alive (hj.off.trans hh.mirrors.off.symm)
      subst hji
      exact hfit
    · exact h.usable_inPlace hh hp hn hfit hs
  · have hfin := h.inPlace hh hp hn
    rw [cutTail_inPlace_eq_stages] at hV hfin
    rcases stops_cases hV with hV | hV | ⟨s, ⟨w, hs⟩, rfl⟩
    · refine Listed.usable_of_writes h.heap.toRep h.owned fun x hx => ?_
      rcases writes_append.1 (hx.of_prefix hV) with hx | hx
      · have := writes_tailEvents hx
        exact h.heap.not_shapeByte_of_payload hbm (by omega) (by omega)
      · simp only [writes_cons, not_writes_nil, Event.Touches, or_false, false_or] at hx
        exact not_shapeByte_of_header (by omega) (by omega)
    · exact absurd hV (hover (by omega))
    · rw [← hs, ← List.append_assoc, ← List.append_assoc, replay_append] at hfin
      rw [← List.append_assoc]
      refine Listed.usable_before hfin.heap.toRep hfin.owned fun x hx => ?_
      have hx' : Writes [.persist (slotAddr i) 96, .drain, .unlock] x :=
        hs ▸ writes_append.2 (.inr hx)
      simp [Event.Touches] at hx'

/-! ### Growing in place -/

/-- The stretch of an in-place growth from the first store that takes the neighbour off the list to
the one that adds it to the block. -/
def annexEvents (G : Geometry) (pre : List Blk) (b c : Blk) (post : List Blk) (used : Nat) :
    List Event :=
  removeEvents G (pre ++ [b]) c post ++
    [.store 96 8 (used + c.total), .store (G.base + b.off + 40) 8 (b.total + c.total)]

/-- What else is done to the two blocks. -/
def annexedEvents (G : Geometry) (b c : Blk) : List Event :=
  [.store (G.base + b.off + 32) 8 (b.total + c.total - 56), .store (G.base + c.off) 4 0,
    .persist (G.base + c.off) 56]

theorem growEvents_eq : growEvents G pre b c post t used
    = annexEvents G pre b c post used ++ (annexedEvents G b c ++
        (trimGrownEvents G pre (swallowed b c) post t (used + c.total) ++ [.persist 96 8])) := by
  simp only [growEvents, annexEvents, annexedEvents, swallowEvents, cutEvents, List.append_assoc,
    List.cons_append, List.nil_append]

/-- **A neighbour off the list and not yet part of the block is lost.** -/
theorem Listed.not_usable_of_annex (h : Listed G m (pre ++ b :: c :: post)) (hc : c.live = false)
    (hV : StopsInside [] (annexEvents G pre b c post used) V) : ¬ Usable G (replay V m) := by
  have hD := G.base_ge
  obtain ⟨d, hd, h0, hall, rfl⟩ := hV
  have hl : Listed G m ((pre ++ [b]) ++ c :: post) := by simpa using h
  have hfl := hl.off_not_mem_freeOffs
  have h1 := hl.unlink hc
  have h2 := hl.remove hc
  have h3 := h2.of_header_writes (W := [.store 96 8 (used + c.total)]) fun x hx => by
    simp only [writes_cons, not_writes_nil, Event.Touches, or_false] at hx
    omega
  have hd' := prefix_of_proper (D := removeEvents G (pre ++ [b]) c post ++
    [.store 96 8 (used + c.total)]) (e := .store (G.base + b.off + 40) 8 (b.total + c.total))
    (by simpa [annexEvents] using hd) (by simpa [annexEvents] using hall)
  rcases List.prefix_concat_iff.1 hd' with rfl | hd'
  · rw [replay_append]
    exact h3.not_usable hc hfl
  rcases List.prefix_concat_iff.1 (show V <+: [_] ++ [_] from hd') with rfl | hd'
  · exact h2.not_usable hc hfl
  rcases List.prefix_concat_iff.1 (show V <+: [] ++ [_] from hd') with rfl | hd'
  · exact h1.not_usable hc hfl
  · exact absurd (List.prefix_nil.1 hd') h0

theorem writes_annexEvents {x : Nat} (hc : c.live = false)
    (h : Writes (annexEvents G pre b c post used) x) : 88 ≤ x ∧ x < 104 ∨ G.base ≤ x := by
  rcases writes_append.1 h with h | h
  · rcases writes_removeEvents hc h with h | ⟨d, -, -, h⟩
    · omega
    · have := h.1
      omega
  · simp only [writes_cons, not_writes_nil, Event.Touches, or_false] at h
    omega

/-- The two blocks are one. -/
theorem Listed.annexed (h : Listed G m (pre ++ b :: c :: post)) (hb : b.live = true)
    (hc : c.live = false) :
    Listed G (replay (annexEvents G pre b c post used ++ annexedEvents G b c) m)
      (pre ++ swallowed b c :: post) := by
  have hpre := freeOffs_concat_live hb pre
  have h' : Listed G m ((pre ++ [b]) ++ c :: post) := by simpa using h
  have hc' := h'.off_not_mem_freeOffs
  have h1 := h'.remove hc
  rw [hpre] at h1 hc'
  have h1' : Rep G (replay (removeEvents G (pre ++ [b]) c post) m) (pre ++ b :: c :: post)
      (freeOffs pre ++ freeOffs post) := by
    simpa using h1
  have h2 := h1'.swallow used hc'
  have hev : annexEvents G pre b c post used ++ annexedEvents G b c
      = removeEvents G (pre ++ [b]) c post ++ swallowEvents G b c used := by
    simp only [annexEvents, annexedEvents, swallowEvents, cutEvents, List.append_assoc,
      List.cons_append, List.nil_append]
  rw [Listed, freeOffs_mid_live (b := swallowed b c) hb, hev, replay_append]
  exact h2

theorem Blk.swallowed_off (b c : Blk) : (swallowed b c).off = b.off := rfl
theorem Blk.swallowed_total (b c : Blk) : (swallowed b c).total = b.total + c.total := rfl

/-- **While what is too much is cut off a block that has grown**, it is as for any block. -/
theorem Listed.not_usable_of_regrow (h : Listed G m (pre ++ b :: c :: post)) (hb : b.live = true)
    (hc : c.live = false) (ht : 64 ≤ t) (ht8 : t % 8 = 0) (hrem : t + 64 ≤ b.total + c.total)
    (hV : TornTail G pre (swallowed b c) post t (used + c.total)
      (annexEvents G pre b c post used ++ annexedEvents G b c) V) : ¬ Usable G (replay V m) := by
  obtain ⟨U, rfl, hU⟩ := hV.drop
  rw [replay_append]
  exact (h.annexed hb hc).not_usable_of_tornTail (b := swallowed b c) hb ht ht8 hrem hU

/-- No entry is touched by then. -/
theorem entryAt_annexed (hc : c.live = false) (used : Nat) (m : Mem) {j : Nat} (hj : j < G.dirCap) :
    entryAt (replay (annexEvents G pre b c post used ++ annexedEvents G b c) m) j = entryAt m j :=
  entryAt_replay fun x hx hin => by
    have hbelow := hin.lt_base hj
    have habove := hin.1
    have := slotAddr_ge j
    rcases writes_append.1 hx with hx | hx
    · have := writes_annexEvents hc hx
      omega
    · simp only [annexedEvents, writes_cons, not_writes_nil, Event.Touches, or_false] at hx
      omega

/-- Whoever points at a block that an entry describes uses no more than it has. -/
theorem FullInv.used_le_of_pointsAt (h : FullInv G m bs) (hh : Holds G m i b) {j : Nat}
    (hj : PointsAt G m j b.off) : (entryAt m j).used + 56 ≤ b.total := by
  obtain rfl := h.dir.inj j i hj.lt hh.lt hj.alive hh.alive (hj.off.trans hh.mirrors.off.symm)
  exact hh.mirrors.used

/-- The one block is owned as the first of the two was. -/
theorem FullInv.owned_annexed (h : FullInv G m (pre ++ b :: c :: post)) (hh : Holds G m i b)
    (hc : c.live = false) (used : Nat) :
    Owned G (replay (annexEvents G pre b c post used ++ annexedEvents G b c) m)
      (pre ++ swallowed b c :: post) := by
  have hgrown : Owned G m (pre ++ swallowed b c :: post) :=
    h.owned.resize rfl rfl (liveBlks_cons_free hc post).symm fun _ hj =>
      Nat.le_trans (h.used_le_of_pointsAt hh hj) (Nat.le_add_right _ _)
  exact hgrown.congr fun _ hj => entryAt_annexed hc used m hj

/-- **Once the two blocks are one**, neither the capacity nor the magic word behind it matters. -/
theorem FullInv.usable_annexing (h : FullInv G m (pre ++ b :: c :: post)) (hh : Holds G m i b)
    (hc : c.live = false) {s : List Event} (hs : s <+: annexedEvents G b c) :
    Usable G (replay (annexEvents G pre b c post used ++ s) m) := by
  have hD := G.base_ge
  have hlisted : Listed G (replay (annexEvents G pre b c post used ++ annexedEvents G b c) m)
      (pre ++ swallowed b c :: post) := Listed.annexed h.heap.toRep hh.live hc
  have howned := h.owned_annexed hh hc used
  have hadj : c.off = b.off + b.total := (tiles_mid.1 h.heap.tiles).2.1
  have hbmin := (h.heap.wf b (by simp)).min
  have hcmin := (h.heap.wf c (by simp)).min
  obtain ⟨w, hw⟩ := hs
  rw [← hw, ← List.append_assoc, replay_append] at hlisted howned
  refine Listed.usable_before hlisted howned fun x hx => ?_
  have hx' : Writes (annexedEvents G b c) x := hw ▸ writes_append.2 (.inr hx)
  simp only [annexedEvents, writes_cons, not_writes_nil, Event.Touches, or_false] at hx'
  rcases hx' with hcap | hmagic
  · refine hlisted.not_shapeByte_of_hdr (b := swallowed b c) (by simp) ?_ ?_ ?_ <;>
      rw [Blk.swallowed_off] <;> omega
  · refine hlisted.not_shapeByte_of_payload (b := swallowed b c) (by simp) ?_ ?_
    · rw [Blk.swallowed_off]
      omega
    · rw [Blk.swallowed_off, Blk.swallowed_total]
      omega

/-- **While what is too much is cut off** it is usable but for the torn tail. -/
theorem FullInv.usable_regrow (h : FullInv G m (pre ++ b :: c :: post)) (hh : Holds G m i b)
    (hc : c.live = false) (ht : 64 ≤ t) (ht8 : t % 8 = 0) (hlt : b.total < t)
    (hle : t ≤ b.total + c.total) {U : List Event}
    (hU : U <+: trimGrownEvents G pre (swallowed b c) post t
      (liveBytes (pre ++ b :: c :: post) + c.total) ++ [.persist 96 8])
    (htail : t + 64 ≤ b.total + c.total → ¬ TornTail G pre (swallowed b c) post t
      (liveBytes (pre ++ b :: c :: post) + c.total)
      (annexEvents G pre b c post (liveBytes (pre ++ b :: c :: post)) ++ annexedEvents G b c)
      (annexEvents G pre b c post (liveBytes (pre ++ b :: c :: post)) ++
        (annexedEvents G b c ++ U))) :
    Usable G (replay (annexEvents G pre b c post (liveBytes (pre ++ b :: c :: post)) ++
      (annexedEvents G b c ++ U)) m) := by
  have hp := InPlace.grow h.toInv hh.live hc ht ht8 hle
  have hfit : ∀ {j}, PointsAt G m j b.off → (entryAt m j).used + 56 ≤ t := fun hj =>
    Nat.le_trans (h.used_le_of_pointsAt hh hj) (Nat.le_of_lt hlt)
  -- once everything is written, only the counter has to be written back
  have hbehind : ∀ {w : List Event}, U ++ w = trimGrownEvents G pre (swallowed b c) post t
        (liveBytes (pre ++ b :: c :: post) + c.total) ++ [.persist 96 8] → (∀ x, ¬ Writes w x) →
      Usable G (replay (annexEvents G pre b c post (liveBytes (pre ++ b :: c :: post)) ++
        (annexedEvents G b c ++ U)) m) := fun hw hno => by
    have hlisted := hp.heap.toRep
    have howned := h.owned_inPlace hh hp
      (Nat.le_trans hh.mirrors.used (Nat.le_trans (Nat.le_of_lt hlt) (le_grownBlk_total hle)))
    rw [growEvents_eq, ← hw, ← List.append_assoc (annexedEvents G b c), ← List.append_assoc,
      replay_append] at hlisted howned
    exact Listed.usable_before hlisted howned fun x hx => absurd hx (hno x)
  rw [trimGrownEvents, Blk.swallowed_total] at hU
  split at hU
  · rename_i hrem
    have hrem' : t + 64 ≤ b.total + c.total := by omega
    rcases prefix_or_append hU with hU | ⟨s, ⟨w, hw⟩, rfl⟩
    · rw [← List.append_assoc, replay_append]
      refine (Listed.annexed h.heap.toRep hh.live hc).usable_cutTail (b := swallowed b c) hh.live ht
        ht8 hrem' (h.owned_annexed hh hc _) (fun j hj => ?_) hU fun hno => htail hrem' ?_
      · have hsame : entryAt (replay (annexEvents G pre b c post
            (liveBytes (pre ++ b :: c :: post)) ++ annexedEvents G b c) m) j = entryAt m j :=
          entryAt_annexed hc _ m hj.lt
        rw [hsame]
        exact hfit (hj.congr hsame.symm)
      · simpa only [List.append_assoc, List.nil_append] using hno.append
          (annexEvents G pre b c post (liveBytes (pre ++ b :: c :: post)) ++ annexedEvents G b c)
    · refine hbehind (w := w) ?_ fun x hx => ?_
      · rw [trimGrownEvents, Blk.swallowed_total, if_pos hrem, ← hw, List.append_assoc]
      · have hx' : Writes [.persist 96 8] x := hw ▸ writes_append.2 (.inr hx)
        simp [Event.Touches] at hx'
  · rename_i hrem
    obtain ⟨w, hw⟩ := hU
    refine hbehind (w := w) ?_ fun x hx => ?_
    · rw [hw, trimGrownEvents, Blk.swallowed_total, if_neg hrem]
    · have hx' : Writes ([.persist (G.base + (swallowed b c).off) 56] ++ [.persist 96 8]) x :=
        hw ▸ writes_append.2 (.inr hx)
      simp [Event.Touches] at hx'

/-- **Growing in place is torn** while the neighbour is, and while what is too much is cut off. -/
theorem FullInv.usable_grow (h : FullInv G m (pre ++ b :: c :: post)) (hh : Holds G m i b)
    (hc : c.live = false) (ht : 64 ≤ t) (ht8 : t % 8 = 0) (hlt : b.total < t)
    (hle : t ≤ b.total + c.total) (hn : n + 56 ≤ t) (hu : used = liveBytes (pre ++ b :: c :: post))
    (hV : V <+: growEvents G pre b c post t used ++ inPlaceEvents i (grownBlk b c t).cap n)
    (hannex : ¬ StopsInside [] (annexEvents G pre b c post used) V)
    (htail : t + 64 ≤ b.total + c.total → ¬ TornTail G pre (swallowed b c) post t (used + c.total)
      (annexEvents G pre b c post used ++ annexedEvents G b c) V) : Usable G (replay V m) := by
  subst hu
  have hp := InPlace.grow h.toInv hh.live hc ht ht8 hle
  have htot := le_grownBlk_total (b := b) (c := c) hle
  have hused := hh.mirrors.used
  rcases prefix_or_append hV with hV | ⟨s, hs, rfl⟩
  · rw [growEvents_eq] at hV
    rcases stops_cases (show V <+: [] ++ (annexEvents G pre b c post _ ++ _) from hV) with
      hV | hV | ⟨s, hs, rfl⟩
    · rw [List.prefix_nil.1 hV]
      exact h.usable
    · exact absurd hV hannex
    · -- the two blocks are one, and the entries are the same
      rcases prefix_or_append hs with hs | ⟨U, hU, rfl⟩
      · exact h.usable_annexing hh hc hs
      · exact h.usable_regrow hh hc ht ht8 hlt hle hU htail
  · exact h.usable_inPlace hh hp (by omega) (by omega) hs

/-! ## Relocation

The old block is given back before the slot is pointed at the new one, so the stretch of the
allocation runs into that of the release, and the two are one. -/

/-- The stretch of a relocation from the first store that takes the new block off the list to the
one that points the slot at it. -/
def relocatingEvents (G : Geometry) (pre : List Blk) (f : Blk) (post pre' post' : List Blk)
    (b : Blk) (i t used count : Nat) : List Event :=
  unlinkEvents G pre f post t ++ (markEvents G f (detached f t).total used count ++
    (moveEvents G b (taken f t) ++
      (releaseEvents G pre' b post' (used + (taken f t).total) (count + 1) ++
        [.store (slotAddr i + 56) 8 (f.off + 56)])))

theorem movingEvents_eq_stages :
    movingEvents G bs pre f post pre' post' b i t n
      = prepareEvents G f post t ++ (relocatingEvents G pre f post pre' post' b i t (liveBytes bs)
          (liveBlks bs).length ++ inPlaceEvents i (taken f t).cap n) := by
  simp only [movingEvents, relocateEvents, takeEvents, detachEvents_eq, relocatingEvents,
    retargetEvents, inPlaceEvents, List.append_assoc, List.cons_append, List.nil_append]

/-- **While a block is taken for an object that no entry points at**, entries being left alone. -/
theorem FullInv.not_usable_of_taking {d X : List Event} (h : FullInv G m (pre ++ f :: post))
    (hf : f.live = false) (ht : 64 ≤ t) (ht8 : t % 8 = 0) (hfit : t ≤ f.total)
    (hX : ∀ x, Writes X x → x ≠ G.base + f.off + 16 ∧ (96 ≤ x ∧ x < 112 ∨ G.base + f.off ≤ x))
    (hd : d <+: unlinkEvents G pre f post t ++
      (markEvents G f (detached f t).total used count ++ X)) (hne : d ≠ []) :
    ¬ Usable G (replay (prepareEvents G f post t ++ d) m) := by
  have hD := G.base_ge
  refine Listed.not_usable_of_take h.heap.toRep hf ht ht8 hfit (fun x hx => ?_)
    (fun s hs j hj => ?_) hd hne
  · have := hX x hx
    omega
  · refine h.owned.not_pointsAt h.heap.toRep hf j (hj.congr (Eq.symm ?_))
    refine entryAt_replay fun x hx hin => ?_
    have hlow := hin.1
    have := slotAddr_ge j
    have := hin.lt_base hj.lt
    rw [writes_append] at hx
    rcases hx with hx | hx
    · have := takeEvents_above ht hfit hf (writes_append.2 (.inl hx) :
        Writes (takeEvents G pre f post t 0 0) _)
      omega
    · rcases writes_append.1 (hx.of_prefix hs) with hx | hx
      · rcases writes_markEvents hx with hx | hx
        · omega
        · have := hx.1
          omega
      · have := (hX x hx).2
        omega

/-- What is done to the new block before the old one is given back. -/
theorem writes_carry {x : Nat} (hcap : b.cap ≤ (taken f t).cap)
    (h : Writes (moveEvents G b (taken f t) ++ uncountEvents b.total used count) x) :
    x ≠ G.base + f.off + 16 ∧ (96 ≤ x ∧ x < 112 ∨ G.base + f.off ≤ x) := by
  have hD := G.base_ge
  rcases writes_append.1 h with h | h
  · rcases writes_append.1 h with h | h
    · have := writes_copyEvents hcap h
      rw [taken_off] at this
      omega
    · simp only [adoptEvents, writes_cons, not_writes_nil, Event.Touches, or_false, taken_off] at h
      omega
  · have := writes_uncountEvents h
    omega

section

variable (h : FullInv G m bs) (hr : Relocates bs b t pre f post pre' post') (hb : b ∈ bs)
  (hh : Holds G m i b) (ht : 64 ≤ t) (ht8 : t % 8 = 0)
include h hr hb hh ht ht8

/-- **While an object is being relocated, the region is not usable.** -/
theorem FullInv.not_usable_of_relocating (hV : StopsInside (prepareEvents G f post t)
      (relocatingEvents G pre f post pre' post' b i t (liveBytes bs) (liveBlks bs).length) V) :
    ¬ Usable G (replay V m) := by
  have hD := G.base_ge
  obtain ⟨d, hd, h0, hall, rfl⟩ := hV
  have hd' := prefix_of_proper (D := (unlinkEvents G pre f post t ++
    (markEvents G f (detached f t).total (liveBytes bs) (liveBlks bs).length ++
      (moveEvents G b (taken f t) ++ uncountEvents b.total (liveBytes bs + (taken f t).total)
        ((liveBlks bs).length + 1)))) ++ insertEvents G pre' b post')
    (e := .store (slotAddr i + 56) 8 (f.off + 56))
    (by simpa [relocatingEvents, releaseEvents] using hd)
    (by simpa [relocatingEvents, releaseEvents] using hall)
  have hsplit := hr.split
  have htake : ∀ {d}, d <+: unlinkEvents G pre f post t ++
      (markEvents G f (detached f t).total (liveBytes bs) (liveBlks bs).length ++
        (moveEvents G b (taken f t) ++ uncountEvents b.total (liveBytes bs + (taken f t).total)
          ((liveBlks bs).length + 1))) → d ≠ [] →
      ¬ Usable G (replay (prepareEvents G f post t ++ d) m) := fun hd hne =>
    (hsplit ▸ h).not_usable_of_taking hr.free ht ht8 hr.fits (fun x => writes_carry hr.cap_le) hd
      hne
  rcases prefix_or_append hd' with hd' | ⟨w, hw, rfl⟩
  · exact htake hd' h0
  · by_cases hw0 : w = []
    · subst hw0
      rw [List.append_nil] at h0 ⊢
      exact htake (List.prefix_refl _) h0
    · -- the object has been copied, and the old block is on its way back
      have hmoved := hr.moved_heap (liveBytes bs) (liveBlks bs).length h.heap hb hh.live ht ht8
      have h1 := hmoved.toRep.of_header_writes (W := uncountEvents b.total
        (liveBytes bs + (taken f t).total) ((liveBlks bs).length + 1)) fun x hx => by
          have := writes_uncountEvents hx
          omega
      rw [← replay_append] at h1
      have hev : prepareEvents G f post t ++ ((unlinkEvents G pre f post t ++
          (markEvents G f (detached f t).total (liveBytes bs) (liveBlks bs).length ++
            (moveEvents G b (taken f t) ++ uncountEvents b.total
              (liveBytes bs + (taken f t).total) ((liveBlks bs).length + 1)))) ++ w)
          = (takeEvents G pre f post t (liveBytes bs) (liveBlks bs).length ++
              moveEvents G b (taken f t) ++ uncountEvents b.total
                (liveBytes bs + (taken f t).total) ((liveBlks bs).length + 1)) ++ w := by
        simp only [takeEvents, detachEvents_eq, List.append_assoc]
      rw [hev, replay_append]
      refine h1.not_usable_of_insert (i := i) (hh.pointsAt.congr ?_) hw hw0
      refine entryAt_replay fun x hx hin => ?_
      have hx' : Writes (takeEvents G pre f post t (liveBytes bs) (liveBlks bs).length ++
          (moveEvents G b (taken f t) ++ releaseEvents G pre' b post' (liveBytes bs +
            (taken f t).total) ((liveBlks bs).length + 1))) x := by
        simp only [releaseEvents, writes_append] at hx ⊢
        tauto
      have := hin.lt_base hh.lt
      have := (hr.touchable h.heap hb ht hx').ge
      have := hin.1
      have := slotAddr_ge i
      omega

/-- When the slot points at the new block, the old one has been given back. -/
theorem FullInv.listed_relocated : Listed G (replay (prepareEvents G f post t ++
    relocatingEvents G pre f post pre' post' b i t (liveBytes bs) (liveBlks bs).length) m)
    (insertFree pre' b.freed post') := by
  have hs := G.slotAddr_lt hh.lt
  have hs' := slotAddr_ge i
  have hmoved := hr.moved_heap (liveBytes bs) (liveBlks bs).length h.heap hb hh.live ht ht8
  have hrel := hmoved.release hh.live (liveBytes bs + (taken f t).total) ((liveBlks bs).length + 1)
  have h2 := hrel.toRep.of_header_writes (W := [.store (slotAddr i + 56) 8 (f.off + 56)])
    fun x hx => by
      simp only [writes_cons, not_writes_nil, Event.Touches, or_false] at hx
      omega
  rw [← replay_append, ← replay_append] at h2
  simpa only [relocatingEvents, takeEvents, detachEvents_eq, List.append_assoc] using h2

omit ht8 in
/-- The slot still describes what it did. -/
theorem FullInv.used_relocated : (entryAt (replay (prepareEvents G f post t ++
    relocatingEvents G pre f post pre' post' b i t (liveBytes bs) (liveBlks bs).length) m) i).used
      = (entryAt m i).used := by
  have hs := G.slotAddr_lt hh.lt
  have hs' := slotAddr_ge i
  refine load_replay fun x hx => ?_
  have hx' : Writes (takeEvents G pre f post t (liveBytes bs) (liveBlks bs).length ++
      (moveEvents G b (taken f t) ++ releaseEvents G pre' b post' (liveBytes bs +
        (taken f t).total) ((liveBlks bs).length + 1))) x ∨
      Writes [.store (slotAddr i + 56) 8 (f.off + 56)] x := by
    simp only [relocatingEvents, takeEvents, detachEvents_eq, writes_append] at hx ⊢
    tauto
  rcases hx' with hx' | hx'
  · have := (hr.touchable h.heap hb ht hx').ge
    omega
  · simp only [writes_cons, not_writes_nil, Event.Touches, or_false] at hx'
    omega

/-- The entries fit, the one of the object that was relocated among them. -/
theorem FullInv.owned_relocated (hlt : b.total < t) (hn : n + 56 ≤ t) (hn' : n < 2 ^ 64) :
    Owned G (replay (prepareEvents G f post t ++ relocatingEvents G pre f post pre' post' b i t
      (liveBytes bs) (liveBlks bs).length) m) (insertFree pre' b.freed post') := by
  have hne := hr.off_ne h.heap.toRep hb hh.live
  have hfm : f ∈ bs := by
    rw [hr.split]
    simp
  have hfb := h.heap.bounds hfm
  have hszlt := G.size_lt
  have hsz := G.size_eq
  have hD := G.base_ge
  have htc := hr.taken_cap_le h.heap ht
  have hge := detached_total_ge hr.fits
  have hm := hh.mirrors.used
  have h2 := h.listed_relocated hr hb hh ht ht8
  have hused := h.used_relocated hr hb hh ht
  have hfin := (h.relocate hr hb hh ht ht8 hn hn').owned
  have hoff := moving_entry_self (n := n) hr h.toInv hb ht hh.lt hn'
  rw [movingEvents_eq_stages, ← List.append_assoc, replay_append] at hfin hoff
  have hcap : (taken f t).cap < 2 ^ 64 := by omega
  have hself := entryAt_inPlace (i := i) hcap hn' (replay (prepareEvents G f post t ++
    relocatingEvents G pre f post pre' post' b i t (liveBytes bs) (liveBlks bs).length) m)
  refine hfin.of_entry (i := i) (fun j hj hji => ?_) ?_ ?_ fun c hc hp => ?_
  · refine (entryAt_replay fun x hx hin => ?_).symm
    have := writes_inPlaceEvents hx
    exact hji (hin.eq ⟨by omega, by omega⟩)
  · rw [hself]
  · rw [hself]
  · have hcf : c.off = ((taken f t).adopted b).off := by
      have h3 := hp.off
      rw [hoff] at h3
      rw [Blk.adopted_off, taken_off]
      exact (Nat.add_right_cancel h3).symm
    rw [h2.eq_of_off hc (hr.adopted_mem_freed hne) hcf, Blk.adopted_total, taken_total, hused]
    omega

/-- **Before and behind it is.** -/
theorem FullInv.usable_move (hlt : b.total < t) (hn : n + 56 ≤ t) (hn' : n < 2 ^ 64)
    (hV : V <+: movingEvents G bs pre f post pre' post' b i t n)
    (hno : ¬ StopsInside (prepareEvents G f post t)
      (relocatingEvents G pre f post pre' post' b i t (liveBytes bs) (liveBlks bs).length) V) :
    Usable G (replay V m) := by
  rw [movingEvents_eq_stages] at hV
  rcases stops_cases hV with hV' | hV' | ⟨s, hs, rfl⟩
  · obtain rfl := hr.split
    exact h.usable_prepare ht hr.fits hV'
  · exact absurd hV' hno
  · have hfin := h.relocate hr hb hh ht ht8 hn hn'
    rw [movingEvents_eq_stages, ← List.append_assoc, replay_append] at hfin
    rw [← List.append_assoc, replay_append]
    exact Listed.usable_finish hh.lt (h.listed_relocated hr hb hh ht ht8)
      (h.owned_relocated hr hb hh ht ht8 hlt hn hn') hfin.heap.toRep hfin.owned hs

end

/-- The stretch of a relocation to a block whose capacity is too small.  The number of bytes to
clear has wrapped around, and the call dies of it at the latest. -/
def overrunEvents (G : Geometry) (pre : List Blk) (f : Blk) (post : List Blk) (b : Blk)
    (t used count : Nat) : List Event :=
  unlinkEvents G pre f post t ++ (markEvents G f (detached f t).total used count ++
    [.copy (G.base + f.off + 56) (G.base + b.off + 56) b.cap,
      .fill (G.base + f.off + 56 + b.cap) ((taken f t).cap + 2 ^ 64 - b.cap) 0])

theorem FullInv.not_usable_of_overrun (h : FullInv G m (pre ++ f :: post)) (hf : f.live = false)
    (ht : 64 ≤ t) (ht8 : t % 8 = 0) (hfit : t ≤ f.total)
    (hV : StopsInside (prepareEvents G f post t) (overrunEvents G pre f post b t used count) V) :
    ¬ Usable G (replay V m) := by
  obtain ⟨d, hd, h0, hall, rfl⟩ := hV
  have hd' := prefix_of_proper (D := unlinkEvents G pre f post t ++
    (markEvents G f (detached f t).total used count ++
      [.copy (G.base + f.off + 56) (G.base + b.off + 56) b.cap]))
    (e := .fill (G.base + f.off + 56 + b.cap) ((taken f t).cap + 2 ^ 64 - b.cap) 0)
    (by simpa [overrunEvents] using hd) (by simpa [overrunEvents] using hall)
  refine h.not_usable_of_taking hf ht ht8 hfit (fun x hx => ?_) hd' h0
  simp only [writes_cons, not_writes_nil, Event.Touches, or_false] at hx
  omega

theorem FullInv.usable_overrun (h : FullInv G m (pre ++ f :: post)) (ht : 64 ≤ t)
    (hfit : t ≤ f.total) (hV : V <+: takeEvents G pre f post t used count ++
      [.copy (G.base + f.off + 56) (G.base + b.off + 56) b.cap])
    (hno : ¬ StopsInside (prepareEvents G f post t) (overrunEvents G pre f post b t used count) V) :
    Usable G (replay V m) := by
  have hev : takeEvents G pre f post t used count ++
      [.copy (G.base + f.off + 56) (G.base + b.off + 56) b.cap,
        .fill (G.base + f.off + 56 + b.cap) ((taken f t).cap + 2 ^ 64 - b.cap) 0]
      = prepareEvents G f post t ++ (overrunEvents G pre f post b t used count ++ []) := by
    simp only [takeEvents, detachEvents_eq, overrunEvents, List.append_assoc, List.append_nil]
  have hV' : V <+: takeEvents G pre f post t used count ++
      [.copy (G.base + f.off + 56) (G.base + b.off + 56) b.cap,
        .fill (G.base + f.off + 56 + b.cap) ((taken f t).cap + 2 ^ 64 - b.cap) 0] :=
    hV.trans ((List.prefix_append_right_inj _).2 ⟨[_], rfl⟩)
  rw [hev] at hV'
  rcases stops_cases hV' with hV' | hV' | ⟨s, hs, rfl⟩
  · exact h.usable_prepare ht hfit hV'
  · exact absurd hV' hno
  · -- the call does not come to the end of the stretch
    have hlen := hV.length_le
    have hlen' := congrArg List.length hev
    simp only [List.length_append, List.length_cons, List.length_nil] at hlen hlen'
    omega

end ShmAlloc
