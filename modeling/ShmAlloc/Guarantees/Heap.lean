import Mathlib.Data.List.Nodup
import ShmAlloc.Region.Progress

/-!
# The heap and its accounts

What a reader of a reachable region finds when he follows `total_size` from the start of the heap,
and `next_free` from the head of the list; and that the counters of the region header say the same.

## What is here

* `Chain`: following `total_size` from offset 0 passes the blocks and ends at the end of the heap.
* `heap_shape`: **every reachable heap is tiled by blocks** that start at multiples of 8, have at
  least 64 bytes and a magic word; its free list holds exactly the blocks that are not allocated, in
  ascending order; and no two neighbours are both free.
* `blocks` and `Rep.blocks_eq`: the walk as a function of the memory, and that it finds the blocks
  of the abstract heap.
* `NoUnderflow` and `CallRun.noUnderflow`: **no call underflows a counter.**  The subtractions of
  the code are marked in the trace, so this is about each of them and not about the final value.
* `Accounts` and `accounts_exact`: **what `shm_pool_stats` reports is exact.**
-/

set_option autoImplicit false

namespace ShmAlloc

open Tiling Links

variable {G : Geometry} {m m' : Mem} {bs pre post : List Blk}

/-! ## Tiling -/

/-- Following `total_size` from heap offset 0 passes the blocks `bs` and ends at the end of the
heap. -/
structure Chain (G : Geometry) (m : Mem) (bs : List Blk) : Prop where
  /-- Each block starts where the one before ends. -/
  tiles : Tiles 0 bs G.heapSize
  /-- The header of each block is where the block starts, and carries the magic. -/
  header : ∀ b ∈ bs, BlkAt G m b

theorem Rep.chain {fl : List Nat} (h : Rep G m bs fl) : Chain G m bs := ⟨h.tiles, h.blk⟩

/-- **The heap is tiled, and its free list is the list of its free blocks.**  In every reachable
state the blocks tile the heap, are aligned, carry the magic and are not too small to be blocks; the
free list consists of exactly the blocks whose tag bit is 0, in ascending order, and no two of them
are neighbours. -/
theorem heap_shape (h : Reach G AnyCall m) : ∃ bs, Chain G m bs ∧
    (∀ b ∈ bs, b.off % 8 = 0 ∧ 64 ≤ b.total) ∧
    Linked (nextAt G m) (m.load 88 8) (freeOffs bs) ∧ (freeOffs bs).Pairwise (· < ·) ∧
    Coalesced bs := by
  obtain ⟨bs, hI⟩ := h.inv
  have hR := hI.heap
  exact ⟨bs, hR.chain, fun b hb => ⟨(hR.wf b hb).aligned, (hR.wf b hb).min⟩, hR.links,
    hR.freeOffs_lt, hR.coalesced⟩

/-- A region with one object has such a heap. -/
theorem heap_shape_page : ∃ bs,
    Chain pageGeometry (firstMem pageGeometry pageHandle eightBytes) bs ∧
    (∀ b ∈ bs, b.off % 8 = 0 ∧ 64 ≤ b.total) ∧
    Linked (nextAt pageGeometry (firstMem pageGeometry pageHandle eightBytes))
      ((firstMem pageGeometry pageHandle eightBytes).load 88 8) (freeOffs bs) ∧
    (freeOffs bs).Pairwise (· < ·) ∧ Coalesced bs :=
  heap_shape (page_reach.mono fun _ _ _ => trivial)

/-- The blocks a reader passes who follows `total_size` from offset `o`. -/
def blocksFrom (G : Geometry) (m : Mem) : Nat → Nat → List Blk
  | 0, _ => []
  | fuel + 1, o =>
    if o < G.heapSize then
      blkAt G m o :: blocksFrom G m fuel (o + (blkAt G m o).total)
    else []

/-- The blocks of the heap, as read off the memory. -/
def blocks (G : Geometry) (m : Mem) : List Blk := blocksFrom G m G.heapSize 0

/-- **A reader finds the blocks of the heap.** -/
theorem Rep.blocks_eq {fl : List Nat} (h : Rep G m bs fl) : blocks G m = bs := by
  have hwalk : ∀ (cs : List Blk) (o fuel : Nat), Tiles o cs G.heapSize → cs.length ≤ fuel →
      (∀ c ∈ cs, 64 ≤ c.total) → (∀ c ∈ cs, blkAt G m c.off = c) →
      blocksFrom G m fuel o = cs := by
    intro cs
    induction cs with
    | nil =>
      rintro o fuel rfl - - -
      cases fuel with
      | zero => rfl
      | succ fuel => rw [blocksFrom, if_neg (Nat.lt_irrefl _)]
    | cons c cs ih =>
      intro o fuel ht hlen hmin hblk
      obtain ⟨rfl, ht⟩ := tiles_cons.1 ht
      have hle := ht.le
      have h64 := hmin c (by simp)
      have hc := hblk c (by simp)
      cases fuel with
      | zero => simp at hlen
      | succ fuel =>
        rw [blocksFrom, if_pos (by omega), hc]
        rw [ih _ fuel ht (by simpa using hlen) (fun d hd => hmin d (by simp [hd]))
          fun d hd => hblk d (by simp [hd])]
  have hlen := h.tiles.length_le fun b hb => (h.wf b hb).min
  exact hwalk bs 0 G.heapSize h.tiles (by omega) (fun b hb => (h.wf b hb).min)
    fun b hb => (h.blk b hb).fields

/-! ## Counting

That the entries in use are as many as the live blocks is a bijection between the two lists, in the
one direction by what an entry points at, in the other by the entry a block has. -/

/-- The bytes of the free blocks are what `used_bytes` leaves of the heap. -/
theorem Rep.freeBytes {fl : List Nat} (h : Rep G m bs fl) :
    ((freeBlks bs).map Blk.total).sum + liveBytes bs = G.heapSize := by
  have hsum : ∀ cs : List Blk, ((freeBlks cs).map Blk.total).sum + liveBytes cs
      = (cs.map Blk.total).sum := by
    intro cs
    induction cs with
    | nil => rfl
    | cons c cs ih =>
      cases hc : c.live <;> simp [freeBlks, liveBytes, liveBlks, hc] at ih ⊢ <;> omega
  have htiles := h.tiles.sum_len
  rw [hsum]
  omega

/-- **There are as many entries in use as live blocks.** -/
theorem FullInv.countLive (h : FullInv G m bs) :
    (List.range' 0 G.dirCap).countP (fun j => (entryAt m j).alive) = (liveBlks bs).length := by
  -- both sides list the payload offsets of the live blocks, without repetition
  have hperm : (((List.range' 0 G.dirCap).filter fun j => (entryAt m j).alive).map
      fun j => (entryAt m j).off).Perm ((liveBlks bs).map fun b => b.off + 56) := by
    refine (List.perm_ext_iff_of_nodup ?_ ?_).2 fun o => ?_
    · refine List.Nodup.map_on (fun i hi j hj hij => ?_) ((List.nodup_range' ..).filter _)
      rw [List.mem_filter, List.mem_range'_1] at hi hj
      exact h.dir.inj i j (by omega) (by omega) hi.2 hj.2 hij
    · refine List.Nodup.map_on (fun b hb c hc hbc => ?_) ?_
      · exact h.heap.eq_of_off (mem_liveBlks.1 hb).1 (mem_liveBlks.1 hc).1 (by omega)
      · refine (h.heap.tiles.pairwise.imp_of_mem fun {b c} hb _ hbc => ?_).filter _
        rintro rfl
        have := (h.heap.wf b hb).min
        omega
    · simp only [List.mem_map, List.mem_filter, List.mem_range'_1]
      constructor
      · rintro ⟨j, ⟨hj, ha⟩, rfl⟩
        obtain ⟨b, hb, hl, hm⟩ := h.dir.entry j (by omega) ha
        exact ⟨b, mem_liveBlks.2 ⟨hb, hl⟩, hm.off.symm⟩
      · rintro ⟨b, hb, rfl⟩
        obtain ⟨hb, hl⟩ := mem_liveBlks.1 hb
        obtain ⟨j, hj, ha, hoff, -⟩ := h.ids.onto b hb hl
        exact ⟨j, ⟨⟨Nat.zero_le _, by omega⟩, ha⟩, hoff⟩
  rw [List.countP_eq_length_filter]
  simpa using hperm.length_eq

/-- **`shm_pool_stats`** through a handle that maps the whole region. -/
theorem exec_shmPoolStats (h : FullInv G m bs) {r : Region} (hr : r.size = G.size) :
    ∃ hosts, Exec G.size (shmPoolStats (some r)) m (some {
      totalBytes := G.heapSize, usedBytes := liveBytes bs,
      freeBytes := ((freeBlks bs).map Blk.total).sum, blockCount := (liveBlks bs).length,
      nextId := nextIdOf m, hostCount := hosts, dirCapacity := G.dirCap,
      dirUsed := (liveBlks bs).length }) [.sub G.heapSize (liveBytes bs)] := by
  have hD := G.base_ge
  have hsz := G.size_eq
  have hlt := G.size_lt
  have htotal : sub64 r.size G.base = G.heapSize := by
    rw [hr, sub64_eq (by omega) hlt]
    omega
  have hfree : sub64 G.heapSize (liveBytes bs) = ((freeBlks bs).map Blk.total).sum := by
    have := h.heap.freeBytes
    rw [sub64_eq (by omega) (by omega)]
    omega
  have hcount := exec_countLiveFrom h.layout 0 (Nat.zero_add G.dirCap)
  rw [h.countLive, Nat.zero_add] at hcount
  refine ⟨m.load 56 4, ?_⟩
  rw [shmPoolStats]
  refine Exec.load_bind h.layout.dataOffset (by simp; omega) ?_
  refine Exec.load_bind h.used (by simp; omega) ?_
  rw [htotal, hfree]
  refine Exec.emit_bind ?_
  refine Exec.load_bind h.count (by simp; omega) ?_
  refine Exec.load_bind (v := nextIdOf m) rfl (by simp; omega) ?_
  refine Exec.load_bind (v := m.load 56 4) rfl (by simp; omega) ?_
  refine Exec.load_bind h.layout.dirCapacity (by simp; omega) ?_
  refine Exec.bind_nil (Exec.load_bind h.layout.dirCapacity (by simp; omega) hcount) (.pure _)

/-! ## No counter underflows -/

/-- No subtraction of the trace takes more than there is. -/
def NoUnderflow (W : List Event) : Prop := ∀ x y, Event.sub x y ∈ W → y ≤ x

@[simp] theorem noUnderflow_nil : NoUnderflow [] := by simp [NoUnderflow]

@[simp] theorem noUnderflow_append {V W : List Event} :
    NoUnderflow (V ++ W) ↔ NoUnderflow V ∧ NoUnderflow W := by
  simp only [NoUnderflow, List.mem_append, or_imp, forall_and]

/-- A trace without subtractions. -/
theorem noUnderflow_of_not_sub {W : List Event} (h : ∀ x y, Event.sub x y ∉ W) : NoUnderflow W :=
  fun x y hxy => absurd hxy (h x y)

theorem noUnderflow_insertEvents {b : Blk} : NoUnderflow (insertEvents G pre b post) := by
  have hmerge : ∀ a c ys, NoUnderflow (mergeEvents G a c ys) := fun a c ys =>
    noUnderflow_of_not_sub (by simp [mergeEvents])
  have hnext : NoUnderflow (nextEvents G b.freed post) := by
    cases post with
    | nil => exact noUnderflow_nil
    | cons c cs =>
      rw [nextEvents]
      split
      · exact noUnderflow_nil
      · exact noUnderflow_append.2 ⟨hmerge _ _ _, noUnderflow_of_not_sub (by simp)⟩
  have hprev : ∀ cs, NoUnderflow (prevEvents G pre cs) := by
    intro cs
    cases cs with
    | nil => exact noUnderflow_nil
    | cons c cs =>
      rw [prevEvents]
      split
      · exact noUnderflow_of_not_sub (by simp)
      · split
        · exact noUnderflow_append.2 ⟨hmerge _ _ _, noUnderflow_of_not_sub (by simp)⟩
        · exact noUnderflow_of_not_sub (by simp)
  exact noUnderflow_append.2 ⟨noUnderflow_of_not_sub (by simp [clearEvents]), noUnderflow_append.2
    ⟨noUnderflow_of_not_sub (by simp [linkEvents]), noUnderflow_append.2 ⟨hnext, hprev _⟩⟩⟩

theorem noUnderflow_takeEvents {b : Blk} {need used count : Nat} :
    NoUnderflow (takeEvents G pre b post need used count) := by
  have hdetach : NoUnderflow (detachEvents G pre b post need) := by
    rw [detachEvents]
    split <;> exact noUnderflow_of_not_sub (by simp [freshEvents, cutEvents])
  exact noUnderflow_append.2 ⟨hdetach, noUnderflow_of_not_sub (by simp [markEvents])⟩

theorem noUnderflow_releaseEvents {b : Blk} {used count : Nat} (hu : b.total ≤ used)
    (hc : 1 ≤ count) : NoUnderflow (releaseEvents G pre b post used count) := by
  refine noUnderflow_append.2 ⟨fun x y hxy => ?_, noUnderflow_insertEvents⟩
  simp only [uncountEvents, List.mem_cons, Event.sub.injEq, List.not_mem_nil, reduceCtorEq,
    or_false, false_or] at hxy
  omega

theorem noUnderflow_cutTailEvents {b : Blk} {t used : Nat} (hu : b.total ≤ used) :
    NoUnderflow (cutTailEvents G pre b post t used) := by
  refine noUnderflow_append.2 ⟨fun x y hxy => ?_, noUnderflow_insertEvents⟩
  simp only [trimEvents, tailEvents, cutEvents, List.mem_append, List.mem_cons, Event.sub.injEq,
    List.not_mem_nil, reduceCtorEq, or_false, false_or] at hxy
  omega

theorem noUnderflow_growEvents {b c : Blk} {t used : Nat} (hu : b.total ≤ used) :
    NoUnderflow (growEvents G pre b c post t used) := by
  have htrim : NoUnderflow (trimGrownEvents G pre (swallowed b c) post t (used + c.total)) := by
    rw [trimGrownEvents]
    split
    · refine noUnderflow_cutTailEvents ?_
      show b.total + c.total ≤ used + c.total
      omega
    · exact noUnderflow_of_not_sub (by simp)
  exact noUnderflow_append.2 ⟨noUnderflow_of_not_sub (by simp [removeEvents]), noUnderflow_append.2
    ⟨noUnderflow_of_not_sub (by simp [swallowEvents, cutEvents]), noUnderflow_append.2
      ⟨htrim, noUnderflow_of_not_sub (by simp)⟩⟩⟩

theorem noUnderflow_resize {b : Blk} {i n sz : Nat} {rc : Rc} {W : List Event}
    (hl : b.live = true) (hrun : ResizeRun G sz pre b post i n rc W bs) : NoUnderflow W := by
  have hb : b.total ≤ liveBytes (pre ++ b :: post) := total_le_liveBytes (by simp) hl
  have hend : ∀ cap, NoUnderflow (inPlaceEvents i cap n) := fun cap =>
    noUnderflow_of_not_sub (by simp [inPlaceEvents, finishEvents])
  cases hrun with
  | keep => exact hend _
  | cut => exact noUnderflow_append.2 ⟨noUnderflow_cutTailEvents hb, hend _⟩
  | grow => exact noUnderflow_append.2 ⟨noUnderflow_growEvents hb, hend _⟩
  | noRoom => exact noUnderflow_of_not_sub (by simp)
  | move pre₁ f post₁ pre₂ post₂ hlt hcan hr =>
    -- the old block is still counted when the new one has been
    have hmove : NoUnderflow (moveEvents G b (taken f (blockSize n))) := by
      refine noUnderflow_append.2 ⟨?_, noUnderflow_of_not_sub (by simp [adoptEvents])⟩
      rw [copyEvents, extraEvents]
      split <;> exact noUnderflow_of_not_sub (by simp)
    refine noUnderflow_append.2 ⟨noUnderflow_append.2 ⟨noUnderflow_takeEvents, noUnderflow_append.2
      ⟨hmove, noUnderflow_append.2 ⟨noUnderflow_releaseEvents (by omega) (by omega), ?_⟩⟩⟩, ?_⟩
    · exact noUnderflow_of_not_sub (by simp [retargetEvents])
    · exact noUnderflow_of_not_sub (by simp [finishEvents])

/-- **No call underflows a counter.** -/
theorem CallRun.noUnderflow {c : Call} {rc : Rc} {W : List Event} {bs' : List Blk}
    (hrun : CallRun G m bs c rc W bs') : NoUnderflow W := by
  have hlock : ∀ r, NoUnderflow (lockEvents r) := fun r => by
    refine noUnderflow_of_not_sub fun x y => ?_
    rw [lockEvents]
    split <;> simp
  cases hrun with
  | refused hrc hW =>
    rcases hW with rfl | ⟨r, rfl⟩
    · exact noUnderflow_nil
    · exact noUnderflow_append.2 ⟨hlock r, noUnderflow_of_not_sub (by simp)⟩
  | alloc ht =>
    rename_i pre b post i q r
    refine noUnderflow_append.2 ⟨hlock r, noUnderflow_append.2 ⟨noUnderflow_takeEvents, ?_⟩⟩
    refine noUnderflow_append.2 ⟨noUnderflow_of_not_sub ?_, noUnderflow_append.2
      ⟨noUnderflow_of_not_sub fun x y => ?_, noUnderflow_of_not_sub (by simp)⟩⟩
    · simp [bindEvents, identEvents, zeroEvents, slotEvents]
    · cases q.name with
      | none => simp [nameEvents]
      | some s =>
        rw [nameEvents]
        split <;> simp
  | free hf hh hacc =>
    refine noUnderflow_append.2 ⟨hlock _, noUnderflow_append.2 ⟨noUnderflow_releaseEvents
      (total_le_liveBytes (by simp) hh.live) (one_le_count (by simp) hh.live), ?_⟩⟩
    exact noUnderflow_of_not_sub (by simp [clearSlotEvents])
  | resize hf hh hacc hn hn' hrun =>
    exact noUnderflow_append.2 ⟨hlock _, noUnderflow_resize hh.live hrun⟩
  | setPerms =>
    exact noUnderflow_append.2 ⟨hlock _, noUnderflow_of_not_sub (by simp [setPermsEvents])⟩

/-! ## The accounts -/

/-- What `shm_pool_stats` reports about the blocks `bs` of the heap. -/
structure Accounts (G : Geometry) (m : Mem) (bs : List Blk) (s : PoolStats) : Prop where
  /-- `used_bytes` is what the live blocks take up. -/
  used : s.usedBytes = ((liveBlks bs).map Blk.total).sum
  /-- `block_count` is the number of live blocks. -/
  count : s.blockCount = (liveBlks bs).length
  /-- So is `dir_used`. -/
  dirUsed : s.dirUsed = (liveBlks bs).length
  /-- `free_bytes` is what the blocks on the free list take up. -/
  free : s.freeBytes = ((freeBlks bs).map Blk.total).sum
  /-- It is what `used_bytes` leaves of the total. -/
  rest : s.freeBytes + s.usedBytes = s.totalBytes

/-- **The accounts are exact.**  In every reachable state the counters of the region header are the
bytes and the number of the live blocks, `shm_pool_stats` reports these and the bytes of the blocks
on the free list, and no call subtracts more from a counter than it holds. -/
theorem accounts_exact (h : Reach G NoWrap m) : ∃ bs, Chain G m bs ∧
    Linked (nextAt G m) (m.load 88 8) ((freeBlks bs).map Blk.off) ∧
    m.load 96 8 = ((liveBlks bs).map Blk.total).sum ∧ m.load 104 8 = (liveBlks bs).length ∧
    (∀ r : Region, r.size = G.size → ∃ s, (shmPoolStats (some r)).val m = some s ∧
      Accounts G m bs s ∧ NoUnderflow ((shmPoolStats (some r)).trace m)) ∧
    ∀ c, Legal G m c → NoUnderflow (c.prog.trace m) := by
  obtain ⟨bs, hI⟩ := h.fullInv
  have htrace : ∀ {α : Type} {x : Prog α} {v : α} {W : List Event}, Exec G.size x m v W →
      NoUnderflow W → NoUnderflow (x.trace m) := fun hx hW a b hab =>
    hW a b (hx.eff ▸ mem_effects.2 ⟨hab, rfl⟩)
  have hfree := hI.heap.freeBytes
  refine ⟨bs, hI.heap.chain, hI.heap.links, hI.used, hI.count, fun r hr => ?_, fun c hl => ?_⟩
  · obtain ⟨hosts, hx⟩ := exec_shmPoolStats hI hr
    refine ⟨_, hx.val, ⟨rfl, rfl, rfl, rfl, hfree⟩, htrace hx fun a b hab => ?_⟩
    rw [List.mem_singleton, Event.sub.injEq] at hab
    omega
  · obtain ⟨rc, W, bs', hrun, hx⟩ := callRun hI.toInv hl
    exact htrace hx hrun.noUnderflow

/-- A region with one object has such accounts. -/
theorem accounts_exact_page :
    ∃ bs, Chain pageGeometry (firstMem pageGeometry pageHandle eightBytes) bs ∧
    Linked (nextAt pageGeometry (firstMem pageGeometry pageHandle eightBytes))
      ((firstMem pageGeometry pageHandle eightBytes).load 88 8) ((freeBlks bs).map Blk.off) ∧
    (firstMem pageGeometry pageHandle eightBytes).load 96 8
      = ((liveBlks bs).map Blk.total).sum ∧
    (firstMem pageGeometry pageHandle eightBytes).load 104 8 = (liveBlks bs).length ∧
    (∀ r : Region, r.size = pageGeometry.size → ∃ s,
      (shmPoolStats (some r)).val (firstMem pageGeometry pageHandle eightBytes) = some s ∧
      Accounts pageGeometry (firstMem pageGeometry pageHandle eightBytes) bs s ∧
      NoUnderflow ((shmPoolStats (some r)).trace
        (firstMem pageGeometry pageHandle eightBytes))) ∧
    ∀ c, Legal pageGeometry (firstMem pageGeometry pageHandle eightBytes) c →
      NoUnderflow (c.prog.trace (firstMem pageGeometry pageHandle eightBytes)) :=
  accounts_exact page_reach

end ShmAlloc
