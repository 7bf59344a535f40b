import ShmAlloc.Guarantees.History

/-!
# Where there is room

No two free blocks are neighbours, so a free block is all there is between two allocated ones, and
first fit in address order is the lowest gap that is large enough.  That says of `shm_alloc` what it
returns in terms of what is allocated, without a word about blocks that are free: which is how a
caller sees it.  Two things follow that a caller can use.  The figures of `shm_pool_stats` bound how
far the free bytes can be scattered, and `shm_free` takes no room away.

## What is here

* `Room`: a block of `need` bytes could be put at `x`, nothing allocated being in the way.
* `alloc_takes_lowest_gap`: **`shm_alloc` takes the lowest gap**, and says which error it is if
  there is no slot or no gap.
* `stats_tell_room`: **what the figures tell**: when a request is sure to be refused, and when there
  is sure to be room.
* `free_makes_room`: **freeing takes no room away.**  What was granted before is granted after, at
  the same place or lower, and so is whatever fits in the block that was freed.
-/

set_option autoImplicit false

namespace ShmAlloc

open Tiling

variable {G : Geometry} {m m' : Mem} {bs bs' : List Blk} {r : Region} {q : Request} {x : Nat}

/-- A block of `need` bytes could be put at `x`: nothing allocated is in the way. -/
def Room (G : Geometry) (m : Mem) (need x : Nat) : Prop :=
  Gap 0 G.heapSize (allocated (blocks G m)) need x

section

variable (h : FullInv G m bs)
include h

theorem FullInv.total_pos : ∀ b ∈ bs, 0 < b.total := fun b hb =>
  Nat.lt_of_lt_of_le (by decide) (h.heap.wf b hb).min

/-- There is a slot for each object. -/
theorem FullInv.count_le : (liveBlks bs).length ≤ G.dirCap := by
  have hle := List.countP_le_length (l := List.range' 0 G.dirCap)
    (p := fun j => (entryAt m j).alive)
  rwa [h.countLive, List.length_range'] at hle

variable (hq : q.size ≠ 0) (hq' : q.size ≤ 2 ^ 64 - 64)
include hq hq'

/-- The directory is full. -/
theorem FullInv.answer_full (hslots : (liveBlks bs).length = G.dirCap) :
    allocAnswer r q m = (.enospc, none) := by
  rw [h.allocAnswer_eq r hq hq', answerFor, if_pos hslots]

/-- No gap is large enough. -/
theorem FullInv.answer_noRoom (hslots : (liveBlks bs).length ≠ G.dirCap)
    (hno : ∀ b ∈ bs, b.live = false → b.total < blockSize q.size) :
    allocAnswer r q m = (.enomem, none) := by
  rw [h.allocAnswer_eq r hq hq', answerFor, if_neg hslots, firstFitOf_eq_none.2 hno]
  rfl

/-- Some gap is, and the lowest one is taken. -/
theorem FullInv.answer_room (hslots : (liveBlks bs).length ≠ G.dirCap)
    (hx : Gap 0 G.heapSize (allocated bs) (blockSize q.size) x) :
    ∃ y, Gap 0 G.heapSize (allocated bs) (blockSize q.size) y ∧
      (∀ z, Gap 0 G.heapSize (allocated bs) (blockSize q.size) z → y ≤ z) ∧
      allocAnswer r q m = (.ok, some (y + 56)) := by
  have hneed : 0 < blockSize q.size := Nat.lt_of_lt_of_le (by decide) (blockSize_ge hq)
  have htiles := h.heap.tiles
  rcases firstFit_cases (blockSize q.size) bs with hno | ⟨pre, b, post, rfl, hb, hfit, hfirst⟩
  · obtain ⟨c, hc, hcl, hcn, -⟩ := htiles.unmarked_of_gap h.heap.coalesced h.total_pos hneed hx
    exact absurd hcn (Nat.not_le.2 (hno c hc hcl))
  · refine ⟨b.off, htiles.gap_of_unmarked (by simp) hb hfit,
      fun z hz => htiles.lowest_gap h.heap.coalesced h.total_pos hneed hfirst hz, ?_⟩
    rw [h.allocAnswer_eq r hq hq', answerFor, if_neg hslots, firstFitOf_eq hb hfit hfirst]
    rfl

end

/-! ## Lowest gap -/

/-- **`shm_alloc` takes the lowest gap.**  In every reachable state: when there are as many objects
as slots it says ENOSPC; otherwise, when no place is left for the block, ENOMEM; otherwise the
object is behind a block header at the lowest place there is. -/
theorem alloc_takes_lowest_gap (h : Reach G NoWrap m) (r : Region) (hq : q.size ≠ 0)
    (hq' : q.size ≤ 2 ^ 64 - 64) :
    ((allocated (blocks G m)).length = G.dirCap → allocAnswer r q m = (.enospc, none)) ∧
    ((allocated (blocks G m)).length < G.dirCap → (∀ x, ¬ Room G m (blockSize q.size) x) →
      allocAnswer r q m = (.enomem, none)) ∧
    ((allocated (blocks G m)).length < G.dirCap → ∀ x, Room G m (blockSize q.size) x →
      (∀ y, Room G m (blockSize q.size) y → x ≤ y) →
      allocAnswer r q m = (.ok, some (x + 56))) := by
  obtain ⟨bs, hI⟩ := h.fullInv
  simp only [Room, hI.heap.toRep.blocks_eq, length_allocated]
  refine ⟨hI.answer_full hq hq', fun hslots hno => ?_, fun hslots x hx hleast => ?_⟩
  · refine hI.answer_noRoom hq hq' (Nat.ne_of_lt hslots) fun b hb hl => Nat.not_le.1 fun hn => ?_
    exact hno b.off (hI.heap.tiles.gap_of_unmarked hb hl hn)
  · obtain ⟨y, hy, hyleast, hans⟩ := hI.answer_room hq hq' (r := r) (Nat.ne_of_lt hslots) hx
    rw [hans, Nat.le_antisymm (hleast y hy) (hyleast x hx)]

/-- On the page with one object the next one goes right behind it. -/
theorem alloc_takes_lowest_gap_page :
    allocAnswer pageHandle eightBytes (firstMem pageGeometry pageHandle eightBytes)
      = (.ok, some 120) := by
  have hone : allocated (blocks pageGeometry (firstMem pageGeometry pageHandle eightBytes))
      = [(0, 64)] := by decide +kernel
  have hroom : Room pageGeometry (firstMem pageGeometry pageHandle eightBytes) 64 64 := by
    rw [Room, hone]
    exact ⟨by decide, by decide, by decide⟩
  -- the block at the start is in the way of everything below its end
  have hlowest : ∀ y, Room pageGeometry (firstMem pageGeometry pageHandle eightBytes) 64 y →
      64 ≤ y := by
    intro y hy
    rw [Room, hone] at hy
    rcases hy.2.2 _ List.mem_cons_self with hbelow | habove
    · exact Nat.le_trans (Nat.le_add_left 64 y) (Nat.le_trans hbelow (Nat.zero_le y))
    · exact habove
  exact (alloc_takes_lowest_gap page_reach pageHandle (q := eightBytes) (by decide)
    (by decide)).2.2 (by rw [hone]; decide) 64 hroom hlowest

/-! ## What the statistics tell

With `k` objects there are at most `k + 1` free blocks, so one of them has its share of the free
bytes. -/

/-- **`shm_pool_stats` tells when there is room.**  Whatever the history, a request is refused if no
slot is free, or the free bytes are fewer than its block takes.  It is granted if a slot is free and
the free bytes are too many for as many gaps as there can be, one more than there are objects, each
a byte short of the block. -/
theorem stats_tell_room (h : Reach G NoWrap m) (hr : r.size = G.size) {s : PoolStats}
    (hs : (shmPoolStats (some r)).val m = some s) (r' : Region) (hq : q.size ≠ 0)
    (hq' : q.size ≤ 2 ^ 64 - 64) :
    (s.dirUsed = s.dirCapacity → (allocAnswer r' q m).1 = .enospc) ∧
    (s.dirUsed < s.dirCapacity → s.freeBytes < blockSize q.size →
      (allocAnswer r' q m).1 = .enomem) ∧
    (s.dirUsed < s.dirCapacity → (blockSize q.size - 1) * (s.blockCount + 1) < s.freeBytes →
      (allocAnswer r' q m).1 = .ok) := by
  obtain ⟨bs, hI⟩ := h.fullInv
  obtain ⟨hosts, hx⟩ := exec_shmPoolStats hI hr
  obtain rfl := Option.some.inj (hs.symm.trans hx.val)
  refine ⟨fun hslots => ?_, fun hslots hless => ?_, fun hslots hmore => ?_⟩
  · rw [hI.answer_full hq hq' hslots]
  · rw [hI.answer_noRoom hq hq' (Nat.ne_of_lt hslots) fun b hb hl => ?_]
    exact Nat.lt_of_le_of_lt (List.le_sum_of_mem (List.mem_map_of_mem
      (List.mem_filter.2 ⟨hb, by simp [hl]⟩))) hless
  · by_contra hne
    -- were there no room, no free block would have more than `blockSize q.size - 1` bytes
    have hsmall : ∀ b ∈ bs, b.live = false → b.total ≤ blockSize q.size - 1 := fun b hb hl => by
      refine Nat.le_sub_one_of_lt (Nat.not_le.1 fun hn => hne ?_)
      obtain ⟨y, -, -, hans⟩ := hI.answer_room hq hq' (r := r') (Nat.ne_of_lt hslots)
        (hI.heap.tiles.gap_of_unmarked hb hl hn)
      rw [hans]
    exact absurd (NoTwoUnmarked.sum_unmarked_le hI.heap.coalesced hsmall) (Nat.not_le.2 hmore)

/-- What `shm_pool_stats` says of the page with one object is enough for another one like it. -/
theorem stats_tell_room_page :
    (allocAnswer pageHandle eightBytes (firstMem pageGeometry pageHandle eightBytes)).1 = .ok := by
  obtain ⟨bs, hI⟩ := page_reach.fullInv
  obtain ⟨hosts, hx⟩ := exec_shmPoolStats hI (r := pageHandle) rfl
  rw [← hI.heap.toRep.blocks_eq] at hx
  have hslots : (liveBlks (blocks pageGeometry
      (firstMem pageGeometry pageHandle eightBytes))).length < pageGeometry.dirCap := by
    decide +kernel
  have hfree : (blockSize eightBytes.size - 1) * ((liveBlks (blocks pageGeometry
      (firstMem pageGeometry pageHandle eightBytes))).length + 1) < ((freeBlks (blocks pageGeometry
        (firstMem pageGeometry pageHandle eightBytes))).map Blk.total).sum := by
    decide +kernel
  exact (stats_tell_room page_reach (r := pageHandle) rfl hx.val pageHandle (q := eightBytes)
    (by decide) (by decide)).2.2 hslots hfree

/-! ## What freeing does -/

/-- A free leaves a gap where the block was, and frees a slot. -/
theorem FullInv.freed_gap {pre post : List Blk} {b : Blk} {i n : Nat}
    (h : FullInv G m (pre ++ b :: post)) (hh : Holds G m i b) :
    allocated (pre ++ b :: post) = allocated pre ++ (b.off, b.total) :: allocated post ∧
      allocated (insertFree pre b.freed post) = allocated pre ++ allocated post ∧
      (liveBlks (insertFree pre b.freed post)).length ≠ G.dirCap ∧
      (n ≤ b.total → Gap 0 G.heapSize (allocated (insertFree pre b.freed post)) n b.off) := by
  have hbefore : allocated (pre ++ b :: post)
      = allocated pre ++ (b.off, b.total) :: allocated post := by
    rw [allocated, marked_append, marked_cons_true hh.live]
    rfl
  have hafter : allocated (insertFree pre b.freed post) = allocated pre ++ allocated post := by
    have hlive := liveBlks_insertFree b.freed_live pre post
    rw [allocated, marked, ← liveBlks, hlive, List.map_append]
    rfl
  refine ⟨hbefore, hafter, ?_, fun hn => ?_⟩
  · have hle := h.count_le
    rw [← length_allocated, hbefore, List.length_append, List.length_cons] at hle
    rw [← length_allocated, hafter, List.length_append]
    omega
  · rw [hafter, allocated, allocated, ← marked_append]
    exact h.heap.tiles.gap_of_removed hn

/-- **Freeing takes no room away.**  A successful `shm_free` removes one block from what is
allocated, and nothing else.  Every request that was granted before is granted after it, at a place
no higher, and so is every request whose block fits where the freed one was. -/
theorem free_makes_room (h : Reach G NoWrap m) {objId : Nat} {userId callerPerms : UInt32}
    (hok : (shmFree (some r) objId userId callerPerms).val m = .ok) :
    ∃ ps lo len qs, allocated (blocks G m) = ps ++ (lo, len) :: qs ∧
      allocated (blocks G ((shmFree (some r) objId userId callerPerms).mem m)) = ps ++ qs ∧
      (∃ i, Finds G m objId i ∧ (entryAt m i).off = lo + 56) ∧
      ∀ (r' : Region) (q : Request), q.size ≠ 0 → q.size ≤ 2 ^ 64 - 64 →
        (∀ o, allocAnswer r' q m = (.ok, some o) → ∃ o', o' ≤ o ∧ allocAnswer r' q
          ((shmFree (some r) objId userId callerPerms).mem m) = (.ok, some o')) ∧
        (blockSize q.size ≤ len → ∃ o', o' ≤ lo + 56 ∧ allocAnswer r' q
          ((shmFree (some r) objId userId callerPerms).mem m) = (.ok, some o')) := by
  obtain ⟨bs, hI⟩ := h.fullInv
  have hid : objId ≠ 0 := by
    rintro rfl
    rw [shmFree, if_pos rfl] at hok
    cases hok
  rcases exec_shmFree hI.toInv r hid userId callerPerms with
    ⟨rc, hrc, hx⟩ | ⟨pre, b, post, i, rfl, hf, hh, -, hx⟩
  · exact absurd (hx.val.symm.trans hok) hrc
  · have hI' : FullInv G ((shmFree (some r) objId userId callerPerms).mem m)
        (insertFree pre b.freed post) := by
      rw [hx.mem, replay_locked]
      exact hI.free hh
    obtain ⟨hbefore, hafter, hslots, -⟩ := hI.freed_gap (n := 0) hh
    rw [hI.heap.toRep.blocks_eq, hI'.heap.toRep.blocks_eq]
    refine ⟨_, _, _, _, hbefore, hafter, ⟨i, hf, hh.mirrors.off⟩, fun r' q hq hq' => ?_⟩
    -- whatever gap there is after the call, the answer is no higher
    have hans : ∀ x, Gap 0 G.heapSize (allocated (insertFree pre b.freed post))
        (blockSize q.size) x → ∃ o', o' ≤ x + 56 ∧ allocAnswer r' q
          ((shmFree (some r) objId userId callerPerms).mem m) = (.ok, some o') := fun x hx => by
      obtain ⟨y, -, hleast, hans⟩ := hI'.answer_room hq hq' (r := r') hslots hx
      exact ⟨_, Nat.add_le_add_right (hleast x hx) 56, hans⟩
    refine ⟨fun o ho => ?_, fun hfit => hans _ ((hI.freed_gap hh).2.2.2 hfit)⟩
    by_cases hfull : (liveBlks (pre ++ b :: post)).length = G.dirCap
    · rw [hI.answer_full hq hq' hfull] at ho
      cases ho
    by_cases hroom : ∃ x, Gap 0 G.heapSize (allocated (pre ++ b :: post)) (blockSize q.size) x
    · obtain ⟨x, hx⟩ := hroom
      obtain ⟨y, hy, -, hbef⟩ := hI.answer_room hq hq' (r := r') hfull hx
      obtain rfl : y + 56 = o := Option.some.inj (Prod.ext_iff.1 (hbef.symm.trans ho)).2
      refine hans y (hy.mono fun p hp => ?_)
      rw [hafter] at hp
      rw [hbefore]
      exact ((List.sublist_cons_self _ _).append_left _).subset hp
    · rw [hI.answer_noRoom hq hq' hfull fun c hc hl => Nat.not_le.1 fun hn =>
        hroom ⟨_, hI.heap.tiles.gap_of_unmarked hc hl hn⟩] at ho
      cases ho

/-- The object on the page is freed. -/
theorem free_makes_room_page : ∃ ps lo len qs,
    allocated (blocks pageGeometry (firstMem pageGeometry pageHandle eightBytes))
      = ps ++ (lo, len) :: qs ∧
    allocated (blocks pageGeometry ((shmFree (some pageHandle) 1 7 0xF).mem
      (firstMem pageGeometry pageHandle eightBytes))) = ps ++ qs := by
  have hok : (shmFree (some pageHandle) 1 7 0xF).val
      (firstMem pageGeometry pageHandle eightBytes) = .ok := by decide +kernel
  obtain ⟨ps, lo, len, qs, h1, h2, -⟩ := free_makes_room page_reach hok
  exact ⟨ps, lo, len, qs, h1, h2⟩

end ShmAlloc
