import ShmAlloc.Heap.Alloc

/-!
# Returning blocks and removing them from the list

`heap_free_block`, which adjusts the counters and inserts, and `freelist_remove`, which takes a
given block out of the middle of the list.

## What is here

* `releaseEvents`: everything `heap_free_block` does, the two counters and then the insertion.
* `HeapInv.release`: **what it leaves**, the heap of `insertFree`.
* `writes_releaseEvents`: it writes the counters, the list head and headers of free blocks.
* `Listed.exec_removalPoint`: the walk of `freelist_remove` finds every free block.
* `Rep.remove` and `exec_freelistRemove`: the block leaves the list and stays where it is.
-/

set_option autoImplicit false

namespace ShmAlloc

open Tiling Links

variable {G : Geometry} {m m' : Mem} {bs pre post : List Blk} {fl : List Nat}

/-! ## `heap_free_block` -/

/-- The counters go down by a block of `t` bytes. -/
def uncountEvents (t used count : Nat) : List Event :=
  [.sub used t, .store 96 8 (used - t), .sub count 1, .store 104 8 (count - 1)]

/-- Everything `heap_free_block` does with `b`. -/
def releaseEvents (G : Geometry) (pre : List Blk) (b : Blk) (post : List Blk)
    (used count : Nat) : List Event :=
  uncountEvents b.total used count ++ insertEvents G pre b post

theorem writes_uncountEvents {t used count x : Nat} (h : Writes (uncountEvents t used count) x) :
    96 ≤ x ∧ x < 112 := by
  simp only [uncountEvents, writes_cons, not_writes_nil, Event.Touches, or_false, false_or] at h
  omega

/-- Writes to the counters, or anywhere else in the region header behind the list head, keep what
is represented. -/
theorem Rep.of_header_writes {W : List Event} (h : Rep G m bs fl)
    (hW : ∀ x, Writes W x → 96 ≤ x ∧ x < G.base ∨ x < 88) : Rep G (replay W m) bs fl := by
  refine h.of_writes fun x hx => ⟨?_, fun b hb hin => ?_⟩
  · have := hW x hx
    omega
  · have := hW x hx
    have := hin.1
    have := G.base_ge
    omega

theorem exec_heapFreeBlock {b : Blk} (used count : Nat) (hL : LayoutOk G m)
    (h : Rep G m (pre ++ b :: post) (freeOffs pre ++ freeOffs post))
    (hu : m.load 96 8 = used) (hc : m.load 104 8 = count) (hle : b.total ≤ used)
    (hpos : 1 ≤ count) :
    Exec G.size (heapFreeBlock (G.base + b.off)) m () (releaseEvents G pre b post used count) := by
  have hbm : b ∈ pre ++ b :: post := by simp
  have hB := h.blk b hbm
  have hbb := h.bounds hbm
  have hsz := G.size_eq
  have hD := G.base_ge
  have hul : used < 2 ^ 64 := hu ▸ Mem.load_lt m 96 8
  have hcl : count < 2 ^ 64 := hc ▸ Mem.load_lt m 104 8
  have hW : ∀ x, Writes (uncountEvents b.total used count) x → 96 ≤ x ∧ x < 112 :=
    fun x => writes_uncountEvents
  have h1 := h.of_header_writes (W := uncountEvents b.total used count) fun x hx => by
    have := hW x hx
    omega
  have hL1 : LayoutOk G (replay (uncountEvents b.total used count) m) :=
    hL.of_writes fun x hx => by
      have := hW x hx
      omega
  simp only [heapFreeBlock, subCounter]
  refine Exec.load_bind hB.total (by simp; omega) ?_
  refine Exec.congr (Exec.seq (V := [.sub used b.total, .store 96 8 (used - b.total)])
    (Exec.load_bind hu (by simp; omega) (.emit_bind ?_))
    (Exec.seq (V := [.sub count 1, .store 104 8 (count - 1)])
      (Exec.load_bind (v := count) ?_ (by simp; omega) (.emit_bind ?_))
      (exec_freelistInsert hL1 h1))) rfl
  · rw [sub64_eq hle hul]
    exact .emit
  · simp only [replay_cons, replay_nil, Event.act, RegionHdr.blockCount, shmRh]
    rw [Mem.load_store_of_disjoint (by omega)]
    exact hc
  · rw [sub64_eq hpos hcl]
    exact .emit

theorem Rep.release {b : Blk} (h : Rep G m (pre ++ b :: post) (freeOffs pre ++ freeOffs post))
    (used count : Nat) :
    Listed G (replay (releaseEvents G pre b post used count) m) (insertFree pre b.freed post) := by
  rw [releaseEvents, replay_append]
  refine Rep.insert (h.of_header_writes fun x hx => ?_)
  have := writes_uncountEvents hx
  have := G.base_ge
  omega

/-- **What `heap_free_block` leaves.** -/
theorem HeapInv.release {b : Blk} (h : HeapInv G m (pre ++ b :: post)) (hb : b.live = true)
    (used count : Nat) :
    HeapInv G (replay (releaseEvents G pre b post used count) m)
      (insertFree pre b.freed post) := by
  have hc := coalesced_append.1 h.coalesced
  exact ⟨Rep.release (Listed.around h.toRep hb) used count,
    coalesced_insertFree hc.1 (coalesced_cons.1 hc.2.1).2⟩

theorem writes_releaseEvents {b : Blk} {used count x : Nat}
    (h : Writes (releaseEvents G pre b post used count) x) :
    96 ≤ x ∧ x < 112 ∨ FreeListByte G (pre ++ b.freed :: post) x :=
  (writes_append.1 h).imp writes_uncountEvents writes_insertEvents

/-! ## `freelist_remove`

Only `shm_resize` calls it, for the free block behind the one that grows. -/

/-- Everything `freelist_remove` does with the free block `c`. -/
def removeEvents (G : Geometry) (pre : List Blk) (c : Blk) (post : List Blk) : List Event :=
  [.store (linkAddr G (lastLink 0 (freeOffs pre))) 8 (firstLink (freeOffs post)),
    .store (G.base + c.off + 48) 8 0]

theorem writes_removeEvents {c : Blk} {x : Nat} (hc : c.live = false)
    (h : Writes (removeEvents G pre c post) x) : FreeListByte G (pre ++ c :: post) x := by
  simp only [removeEvents, writes_cons, not_writes_nil, Event.Touches, or_false] at h
  rcases h with h | h
  · exact (freeListByte_linkAddr h.1 h.2).mono fun d hd _ => by simp [hd]
  · exact .inr ⟨c, by simp, hc, by omega, by omega⟩

/-- The link to a free block is redirected to what follows it. -/
theorem Rep.unlink {c : Blk} (h : Listed G m (pre ++ c :: post)) (hc : c.live = false) :
    Rep G (replay [.store (linkAddr G (lastLink 0 (freeOffs pre))) 8
      (firstLink (freeOffs post))] m) (pre ++ c :: post) (freeOffs pre ++ freeOffs post) := by
  have hlist : freeOffs (pre ++ c :: post) = freeOffs pre ++ c.off :: freeOffs post := by
    rw [freeOffs_append, freeOffs_cons_free hc]
  have hs := h.freeOffs_lt
  rw [hlist] at hs
  have hs1 := List.pairwise_append.1 hs
  have h' : Rep G m (pre ++ c :: post) (freeOffs pre ++ c.off :: freeOffs post) := hlist ▸ h
  have hpost : ∀ o ∈ freeOffs post, o ∉ freeOffs pre ∧ ∃ b ∈ pre ++ c :: post, b.off = o :=
    fun o ho => by
      refine ⟨fun hx => Nat.lt_irrefl _ (hs1.2.2 o hx o (by simp [ho])), ?_⟩
      obtain ⟨d, hd, rfl⟩ := mem_off_of_mem_freeOffs ho
      exact ⟨d, by simp [hd], rfl⟩
  have hlink : Linked (nextAt G m) (firstLink (freeOffs post)) (freeOffs post) := by
    have hl := h'.links
    rw [show c.off :: freeOffs post = [c.off] ++ freeOffs post by rfl, ← List.append_assoc] at hl
    exact hl.split.2
  have hlt := h.firstLink_lt fun o ho => (hpost o ho).2
  exact h'.setLink (hs1.1.imp Nat.ne_of_lt) hpost hlink hlt rfl

/-- **A free block leaves the list.** -/
theorem Rep.remove {c : Blk} (h : Listed G m (pre ++ c :: post)) (hc : c.live = false) :
    Rep G (replay (removeEvents G pre c post) m) (pre ++ c :: post)
      (freeOffs pre ++ freeOffs post) :=
  (Rep.unlink h hc).setFreeNext (b := c) (by simp) h.off_not_mem_freeOffs rfl

/-- **The removal walk finds every free block.** -/
theorem Listed.exec_removalPoint (hL : LayoutOk G m) {c : Blk} (h : Listed G m (pre ++ c :: post))
    (hc : c.live = false) :
    Exec G.size (removalPoint (c.off + 1) walkFuel 0 (m.load 88 8)) m
      (lastLink 0 (freeOffs pre), c.off + 1) [] := by
  have hmid := h.bounds_mid
  have hcb := h.bounds (show c ∈ pre ++ c :: post by simp)
  have hl := h.links
  rw [freeOffs_append, freeOffs_cons_free hc] at hl
  have hlen := h.freeOffs_length
  rw [freeOffs_append, List.length_append] at hlen
  refine ShmAlloc.exec_removalPoint hL hl.split.1 (fun o ho => ?_) (by omega)
  obtain ⟨d, hd, rfl⟩ := mem_off_of_mem_freeOffs ho
  have := hmid.1 d hd
  have := (h.wf d (by simp [hd])).min
  omega

theorem exec_freelistRemove (hL : LayoutOk G m) {c : Blk} (h : Listed G m (pre ++ c :: post))
    (hc : c.live = false) :
    Exec G.size (freelistRemove (G.base + c.off)) m () (removeEvents G pre c post) := by
  have hcb := h.bounds (show c ∈ pre ++ c :: post by simp)
  have hsz := G.size_eq
  have hD := G.base_ge
  have hle : ∀ o ∈ freeOffs pre, o ≤ G.heapSize := fun o ho => by
    obtain ⟨d, hd, rfl⟩ := mem_off_of_mem_freeOffs ho
    have := h.bounds (show d ∈ pre ++ c :: post by simp [hd])
    omega
  have hset := exec_setLink hL hle (firstLink (freeOffs post))
  rw [freelistRemove]
  refine (exec_hoffOfBlk hL (by omega)).bind_nil ?_
  rw [linkEnc_eq (G := G) (by omega)]
  refine Exec.load_bind rfl (by simp; omega) ((h.exec_removalPoint hL hc).bind_nil ?_)
  rw [if_neg (not_not.2 rfl)]
  refine Exec.load_bind (h.next_eq hc) (by simp; omega) (Exec.seq hset .emit)

end ShmAlloc
