import ShmAlloc.Region.Alloc

/-!
# `shm_free`

A call either fails without an effect but on the lock, or gives the object's block to the free list
and clears its slot.

## What is here

* `Holds`: slot `i` is in use and holds the object of the block `b`.
* `freeEvents`: everything the call does under the lock, the release of the block and then the
  clearing of the slot.
* `writes_freeEvents`: **what it writes**, the counters, the list head, the slot, and headers of
  free blocks, the freed one among them.
* `Inv.free` and `FullInv.free`: **a successful call keeps the region invariant**, and the ids in
  order.
* `exec_shmFree`: **the code fails or does just that**, for the first object that has the id.

The block is found through the offset in the entry, not through the id, so it is the invariant that
makes it the block of the object (`Inv.holds`).
-/

set_option autoImplicit false

namespace ShmAlloc

open Tiling Links

variable {G : Geometry} {m m' : Mem} {bs pre post : List Blk}

/-- Slot `i` is cleared, and written back. -/
def clearSlotEvents (i : Nat) : List Event :=
  [.fill (slotAddr i) 96 0, .persist (slotAddr i) 96, .drain, .unlock]

/-- Everything `shm_free` does under the lock with the block `b` of slot `i`. -/
def freeEvents (G : Geometry) (pre : List Blk) (b : Blk) (post : List Blk) (i : Nat) :
    List Event :=
  releaseEvents G pre b post (liveBytes (pre ++ b :: post)) (liveBlks (pre ++ b :: post)).length ++
    clearSlotEvents i

/-- Slot `i` is in use and holds the object of the block `b`. -/
structure Holds (G : Geometry) (m : Mem) (i : Nat) (b : Blk) : Prop where
  lt : i < G.dirCap
  alive : (entryAt m i).alive = true
  live : b.live = true
  mirrors : Mirrors (entryAt m i) b

/-- A slot in use holds the object of some block of the heap. -/
theorem Inv.holds (h : Inv G m bs) {i : Nat} (hi : i < G.dirCap)
    (ha : (entryAt m i).alive = true) :
    ∃ pre b post, bs = pre ++ b :: post ∧ Holds G m i b := by
  obtain ⟨pre, b, post, rfl, hl, hm⟩ := h.block hi ha
  exact ⟨pre, b, post, rfl, hi, ha, hl, hm⟩

theorem writes_clearSlotEvents {i x : Nat} (h : Writes (clearSlotEvents i) x) : InSlot i x := by
  simp only [clearSlotEvents, writes_cons, not_writes_nil, Event.Touches, or_false] at h
  exact h

/-- **What `shm_free` writes**: the counters, the list head, the slot, and headers of free blocks,
the freed one among them. -/
theorem writes_freeEvents {b : Blk} {i x : Nat} (h : Writes (freeEvents G pre b post i) x) :
    88 ≤ x ∧ x < 112 ∨ InSlot i x ∨ FreeListByte G (pre ++ b.freed :: post) x := by
  rcases writes_append.1 h with h | h
  · rcases writes_releaseEvents h with h | h
    · exact .inl (by omega)
    · exact .inr (.inr h)
  · exact .inr (.inl (writes_clearSlotEvents h))

theorem entryAt_clearSlot (m : Mem) (i : Nat) :
    (entryAt (replay (clearSlotEvents i) m) i).alive = false := by
  have h : (replay (clearSlotEvents i) m).load (slotAddr i + 92) 1 = 0 := by
    simp only [clearSlotEvents, replay_cons, replay_nil, Event.act]
    exact Mem.load_fill_zero (by omega) (by omega)
  rw [entryAt, h]
  rfl

/-- The other blocks of the heap lie elsewhere than `b`. -/
theorem Rep.off_ne_of_mem {fl : List Nat} {b c : Blk} (h : Rep G m (pre ++ b :: post) fl)
    (hc : c ∈ pre ∨ c ∈ post) : c.off ≠ b.off := by
  have hb := (h.wf b (by simp)).min
  rcases hc with hc | hc
  · have := h.bounds_mid.1 c hc
    have := (h.wf c (by simp [hc])).min
    omega
  · have := h.bounds_mid.2 c hc
    omega

/-- A live block other than `b` is before or behind it. -/
theorem Inv.mem_of_mirrors {b : Blk} (h : Inv G m (pre ++ b :: post)) {i j : Nat} {c : Blk}
    (hh : Holds G m i b) (hj : j < G.dirCap) (hji : j ≠ i) (ha : (entryAt m j).alive = true)
    (hc : c ∈ pre ++ b :: post) (hm : Mirrors (entryAt m j) c) : c ∈ pre ∨ c ∈ post := by
  simp only [List.mem_append, List.mem_cons] at hc
  rcases hc with hc | rfl | hc
  · exact .inl hc
  · exact absurd (h.dir.inj j i hj hh.lt ha hh.alive (hm.off.trans hh.mirrors.off.symm)) hji
  · exact .inr hc

/-! ## What the call leaves

Counters, the other entries, and the slot itself, in this order.  The heap is what
`heap_free_block` leaves. -/

section

variable {b : Blk} {i : Nat}

theorem load_used_release {used count : Nat} (hu : used < 2 ^ 64) :
    (replay (releaseEvents G pre b post used count) m).load 96 8 = used - b.total := by
  have hD := G.base_ge
  rw [releaseEvents, replay_append, load_replay fun x hx => ?_]
  · simp only [uncountEvents, replay_cons, replay_nil, Event.act]
    rw [Mem.load_store_of_disjoint (by omega), Mem.load_store_same]
    exact Nat.mod_eq_of_lt (show used - b.total < 2 ^ 64 by omega)
  · rcases writes_insertEvents hx with hx | ⟨c, -, -, hx⟩
    · omega
    · have := hx.1
      omega

theorem load_count_release {used count : Nat} (hc : count < 2 ^ 64) :
    (replay (releaseEvents G pre b post used count) m).load 104 8 = count - 1 := by
  have hD := G.base_ge
  rw [releaseEvents, replay_append, load_replay fun x hx => ?_]
  · simp only [uncountEvents, replay_cons, replay_nil, Event.act]
    rw [Mem.load_store_same]
    exact Nat.mod_eq_of_lt (show count - 1 < 2 ^ 64 by omega)
  · rcases writes_insertEvents hx with hx | ⟨d, -, -, hx⟩
    · omega
    · have := hx.1
      omega

/-- Dropping a live block from the count. -/
theorem liveBytes_drop (pre post : List Blk) (hl : b.live = true) :
    liveBytes (pre ++ b :: post) = (liveBytes pre + liveBytes post) + b.total ∧
      (liveBlks (pre ++ b :: post)).length
        = ((liveBlks pre).length + (liveBlks post).length) + 1 := by
  simp only [liveBytes, liveBlks_append, liveBlks_cons_live hl, List.map_append, List.map_cons,
    List.sum_append, List.sum_cons, List.length_append, List.length_cons]
  omega

theorem writes_releaseEvents_slot {used count x j : Nat} (hj : j < G.dirCap)
    (h : Writes (releaseEvents G pre b post used count) x) : ¬ InSlot j x := fun hs => by
  have := hs.lt_base hj
  rcases writes_releaseEvents h with h | h | ⟨c, -, -, h⟩
  · omega
  · omega
  · have := h.1
    omega

theorem free_entry_other {j : Nat} (hj : j < G.dirCap) (hji : j ≠ i) :
    entryAt (replay (freeEvents G pre b post i) m) j = entryAt m j :=
  entryAt_replay fun _ hx hs => (writes_append.1 hx).elim
    (fun hx => writes_releaseEvents_slot hj hx hs)
    fun hx => hji (hs.eq (writes_clearSlotEvents hx))

theorem free_entry_self (m : Mem) :
    (entryAt (replay (freeEvents G pre b post i) m) i).alive = false := by
  rw [freeEvents, replay_append]
  exact entryAt_clearSlot _ i

/-- **`shm_free` keeps the region invariant.** -/
theorem Inv.free (h : Inv G m (pre ++ b :: post)) (hh : Holds G m i b) :
    Inv G (replay (freeEvents G pre b post i) m) (insertFree pre b.freed post) := by
  have hD := G.base_ge
  have hs := G.slotAddr_lt hh.lt
  have hs' := slotAddr_ge i
  have hlive : liveBlks (insertFree pre b.freed post) = liveBlks pre ++ liveBlks post :=
    liveBlks_insertFree rfl pre post
  have hdrop := liveBytes_drop pre post hh.live
  have hclear : ∀ x, Writes (clearSlotEvents i) x → 200 ≤ x ∧ x < G.base := fun x hx =>
    (writes_clearSlotEvents hx).lt_base hh.lt
  refine ⟨h.layout.of_writes fun x hx => ?_, ⟨?_, ?_⟩, ?_, ?_, ?_⟩
  · rcases writes_freeEvents hx with hx | hx | hx | ⟨c, -, -, hx⟩
    · exact hx.1
    · have := hx.1
      omega
    · exact hx.1
    · have := hx.1
      omega
  · rw [freeEvents, replay_append]
    exact (h.heap.release hh.live _ _).of_header_writes fun x hx => by
      have := hclear x hx
      omega
  · exact (h.heap.release hh.live 0 0).coalesced
  · rw [freeEvents, replay_append, load_replay fun x hx => .inr (by have := hclear x hx; omega),
      load_used_release h.heap.liveBytes_lt, hdrop.1, Nat.add_sub_cancel]
    simp only [liveBytes, hlive, List.map_append, List.sum_append]
  · rw [freeEvents, replay_append, load_replay fun x hx => .inr (by have := hclear x hx; omega),
      load_count_release (by have := h.heap.count_lt; omega), hdrop.2, hlive, List.length_append]
    exact Nat.add_sub_cancel ..
  · refine h.dir.update (i := i) (fun j hj hji => free_entry_other hj hji)
      (fun j c hj hji ha hc hl hm => ?_) fun ha => ?_
    · exact mem_insertFree b.freed_live (h.mem_of_mirrors hh hj hji ha hc hm) hl
    · rw [free_entry_self] at ha
      exact Bool.noConfusion ha

/-- `shm_free` leaves `next_id` alone. -/
theorem nextIdOf_free : nextIdOf (replay (freeEvents G pre b post i) m) = nextIdOf m :=
  load_replay fun x hx => by
    have hD := G.base_ge
    have hs' := slotAddr_ge i
    rcases writes_freeEvents hx with hx | hx | hx | ⟨c, -, -, hx⟩
    · omega
    · have := hx.1
      omega
    · omega
    · have := hx.1
      omega

/-- **`shm_free` keeps ids in order.** -/
theorem FullInv.free (h : FullInv G m (pre ++ b :: post)) (hh : Holds G m i b) :
    FullInv G (replay (freeEvents G pre b post i) m) (insertFree pre b.freed post) := by
  have hnext : nextIdOf (replay (freeEvents G pre b post i) m) = nextIdOf m := nextIdOf_free
  refine ⟨h.toInv.free hh, ?_⟩
  rw [hnext]
  refine h.ids.update hh.lt (fun j hj hji => free_entry_other hj hji) (Nat.le_refl _)
    (fun ha => ?_) fun c hc hl => .inr ?_
  · rw [free_entry_self] at ha
    exact Bool.noConfusion ha
  · have hmem : c ∈ liveBlks (insertFree pre b.freed post) := mem_liveBlks.2 ⟨hc, hl⟩
    rw [liveBlks_insertFree rfl, List.mem_append, mem_liveBlks, mem_liveBlks] at hmem
    have hmem' : c ∈ pre ∨ c ∈ post := hmem.imp And.left And.left
    refine ⟨c, by rcases hmem' with hc | hc <;> simp [hc], hl, rfl, rfl, fun _ hoff => ?_⟩
    have h1 := h.heap.off_ne_of_mem hmem'
    have h2 := hh.mirrors.off
    omega

/-! ## Running the code -/

theorem exec_freeObject (h : Inv G m (pre ++ b :: post)) (hh : Holds G m i b) :
    Exec G.size (freeObject (slotAddr i)) m .ok (freeEvents G pre b post i) := by
  have hbm : b ∈ pre ++ b :: post := by simp
  have hbb := h.heap.bounds hbm
  have hrel := exec_heapFreeBlock _ _ h.layout (Listed.around h.heap.toRep hh.live) h.used h.count
    (total_le_liveBytes hbm hh.live) (one_le_count hbm hh.live)
  refine Exec.load_bind (v := b.off + 56) hh.mirrors.off (slot_field_le hh.lt (by decide))
    ((exec_blkOfPoff h.layout (by omega)).bind_nil (Exec.seq hrel ?_))
  exact .emit_bind (.emit_bind (.emit_bind (exec_unlockReturn _)))

end

/-- **`shm_free` frees** an object that is found, access being granted. -/
theorem exec_shmFree_found {b : Blk} {i objId : Nat} (h : Inv G m (pre ++ b :: post))
    (hh : Holds G m i b) (r : Region) (hid : objId ≠ 0) (hf : Finds G m objId i)
    {userId callerPerms : UInt32}
    (hacc : (entryAt m i).access userId callerPerms SHM_PERM_FREE = .ok) :
    Exec G.size (shmFree (some r) objId userId callerPerms) m .ok
      (lockEvents r ++ freeEvents G pre b post i) := by
  rw [shmFree, if_neg hid]
  rcases exec_withEntry h.layout objId userId callerPerms SHM_PERM_FREE freeObject with
    ⟨habs, -⟩ | ⟨j, hj, hx⟩
  · exact absurd hf.id (habs i hf.lt hf.alive)
  · obtain rfl := hj.unique hf
    rcases hx with ⟨hno, -⟩ | ⟨-, hx, -⟩
    · exact absurd hacc hno
    · exact exec_locked r (hx _ _ (exec_freeObject h hh))

/-- **`shm_free`** either fails without an effect but on the lock, or frees the first object that
has the id, access being granted. -/
theorem exec_shmFree (h : Inv G m bs) (r : Region) {objId : Nat} (hid : objId ≠ 0)
    (userId callerPerms : UInt32) :
    (∃ rc, rc ≠ .ok ∧
        Exec G.size (shmFree (some r) objId userId callerPerms) m rc (lockEvents r ++ [.unlock])) ∨
      ∃ pre b post i, bs = pre ++ b :: post ∧ Finds G m objId i ∧ Holds G m i b ∧
        (entryAt m i).access userId callerPerms SHM_PERM_FREE = .ok ∧
        Exec G.size (shmFree (some r) objId userId callerPerms) m .ok
          (lockEvents r ++ freeEvents G pre b post i) := by
  rw [shmFree, if_neg hid]
  rcases exec_withEntry h.layout objId userId callerPerms SHM_PERM_FREE freeObject with
    ⟨-, h1⟩ | ⟨i, hf, ⟨hacc, h1⟩ | ⟨hacc, h1, -⟩⟩
  · exact .inl ⟨.enoent, by decide, exec_locked r h1⟩
  · exact .inl ⟨_, hacc, exec_locked r h1⟩
  · obtain ⟨pre, b, post, rfl, hh⟩ := h.holds hf.lt hf.alive
    exact .inr ⟨pre, b, post, i, rfl, hf, hh, hacc, exec_locked r (h1 _ _ (exec_freeObject h hh))⟩

end ShmAlloc
