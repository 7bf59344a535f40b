import ShmAlloc.FreeList
import ShmAlloc.Heap.Blocks
import ShmAlloc.Lib.Links

/-!
# Reading the heap off the memory

What it means for a memory to represent an abstract heap.  `LayoutOk` says the region header
describes the geometry of the region.  `Rep` says that following `total_size` from offset 0 gives
the blocks of the list, header by header, and that following links from `free_list` gives the
offsets of a second list.  The second list is a parameter of its own because half-way through an
operation a free block may not be linked yet; between operations it is `freeOffs` of the first
(`HeapInv`).

## What is here

* `Geometry`: the shape of a region, with the bounds that make its arithmetic free of overflow as
  fields.
* `BlkAt`: the header of a block is in memory.  `Rep` and `HeapInv`: the heap is.
* `Rep.replace`: **a stretch of blocks is replaced**.  Whoever edits the heap shows what is in the
  stretch afterwards, and gets the rest carried over.
* `exec_blkAtHoff` and its like: the pointer arithmetic of the code, run on such a memory.
* `linkAddr` and `lastLink`: where the link to the next free block is stored.
* `exec_insertionPoint` and `exec_removalPoint`: the two list walks of the code.
-/

set_option autoImplicit false

namespace ShmAlloc

open Tiling Links

/-! ## Geometry -/

/-- Address of directory slot `i`. -/
def slotAddr (i : Nat) : Nat := 200 + 96 * i

theorem slotAddr_ge (i : Nat) : 200 ≤ slotAddr i := Nat.le_add_right ..

/-- The shape of a region: how many directory slots, how many heap bytes. -/
structure Geometry where
  /-- Number of directory slots. -/
  dirCap : Nat
  /-- Bytes behind the directory. -/
  heapSize : Nat
  /-- `dir_capacity` is 32 bits wide. -/
  dirCap_lt : dirCap < 2 ^ 32
  /-- The heap can hold one minimal block. -/
  heap_ge : 64 ≤ heapSize
  /-- `region_size` is 64 bits wide. -/
  fits : 200 + 96 * dirCap + heapSize < 2 ^ 64

namespace Geometry

variable (G : Geometry)

/-- `data_offset`. -/
def base : Nat := 200 + 96 * G.dirCap

/-- `region_size`. -/
def size : Nat := G.base + G.heapSize

theorem size_lt : G.size < 2 ^ 64 := G.fits

theorem base_ge : 200 ≤ G.base := Nat.le_add_right ..

theorem base_lt : G.base < 2 ^ 64 := by
  have := G.fits
  rw [base]
  omega

theorem size_eq : G.size = G.base + G.heapSize := rfl

theorem slotAddr_lt {i : Nat} (h : i < G.dirCap) : slotAddr i + 96 ≤ G.base := by
  rw [slotAddr, base]
  omega

end Geometry

/-- The region header describes the geometry. -/
structure LayoutOk (G : Geometry) (m : Mem) : Prop where
  dirCapacity : m.load 12 4 = G.dirCap
  regionSize : m.load 64 8 = G.size
  dirOffset : m.load 72 8 = 200
  dataOffset : m.load 80 8 = G.base

theorem LayoutOk.congr {G : Geometry} {m m' : Mem} (h : LayoutOk G m) (ha : m.Agree m' 0 88) :
    LayoutOk G m' :=
  ⟨(ha.load (by omega) (by omega)).trans h.dirCapacity,
    (ha.load (by omega) (by omega)).trans h.regionSize,
    (ha.load (by omega) (by omega)).trans h.dirOffset,
    (ha.load (by omega) (by omega)).trans h.dataOffset⟩

/-- A trace that writes nothing below the list head leaves the layout alone. -/
theorem LayoutOk.of_writes {G : Geometry} {m : Mem} {W : List Event} (h : LayoutOk G m)
    (hW : ∀ x, Writes W x → 88 ≤ x) : LayoutOk G (replay W m) :=
  h.congr fun x _ hx => replay_of_not_writes (fun hw => absurd (hW x hw) (by omega)) m

/-! ## Blocks and links in memory -/

variable (G : Geometry)

/-- The block header at heap offset `o`, as a block. -/
def blkAt (m : Mem) (o : Nat) : Blk where
  off := o
  total := m.load (G.base + o + 40) 8
  cap := m.load (G.base + o + 32) 8
  live := m.load (G.base + o + 16) 1 != 0
  id := m.load (G.base + o + 24) 8
  owner := m.load (G.base + o + 8) 4
  perms := m.load (G.base + o + 12) 4
  tag := m.load (G.base + o + 4) 4

/-- The header of `b` is in memory where `b` says it is. -/
structure BlkAt (m : Mem) (b : Blk) : Prop where
  magic : m.load (G.base + b.off) 4 = SHM_ALLOC_MAGIC_BLOCK
  fields : blkAt G m b.off = b

/-- The link field of the header at heap offset `o`. -/
def nextAt (m : Mem) (o : Nat) : Nat := m.load (G.base + o + 48) 8

/-- The memory holds the blocks `bs`, and a free list with the nodes `fl`. -/
structure Rep (m : Mem) (bs : List Blk) (fl : List Nat) : Prop where
  /-- The blocks tile the heap. -/
  tiles : Tiles 0 bs G.heapSize
  /-- Every block is well-formed. -/
  wf : ∀ b ∈ bs, b.WF
  /-- Every block's header is in memory. -/
  blk : ∀ b ∈ bs, BlkAt G m b
  /-- The free list. -/
  links : Linked (nextAt G m) (m.load 88 8) fl
  /-- The nodes of the free list are blocks. -/
  nodes : ∀ o ∈ fl, ∃ b ∈ bs, b.off = o

/-- **The heap invariant**: the memory holds the blocks `bs`; the free list consists of exactly the
free ones, in address order; no two neighbours are both free. -/
structure HeapInv (m : Mem) (bs : List Blk) : Prop extends Rep G m bs (freeOffs bs) where
  coalesced : Coalesced bs

variable {G} {m m' : Mem}

namespace BlkAt

variable {b : Blk}

theorem total (h : BlkAt G m b) : m.load (G.base + b.off + 40) 8 = b.total :=
  congrArg Blk.total h.fields

theorem cap (h : BlkAt G m b) : m.load (G.base + b.off + 32) 8 = b.cap :=
  congrArg Blk.cap h.fields

theorem live (h : BlkAt G m b) : (m.load (G.base + b.off + 16) 1 != 0) = b.live :=
  congrArg Blk.live h.fields

theorem id (h : BlkAt G m b) : m.load (G.base + b.off + 24) 8 = b.id :=
  congrArg Blk.id h.fields

theorem owner (h : BlkAt G m b) : m.load (G.base + b.off + 8) 4 = b.owner :=
  congrArg Blk.owner h.fields

theorem perms (h : BlkAt G m b) : m.load (G.base + b.off + 12) 4 = b.perms :=
  congrArg Blk.perms h.fields

theorem tag (h : BlkAt G m b) : m.load (G.base + b.off + 4) 4 = b.tag :=
  congrArg Blk.tag h.fields

/-- The tag bit of a live block is not 0, that of a free one is. -/
theorem allocated_eq_zero (h : BlkAt G m b) :
    m.load (G.base + b.off + 16) 1 = 0 ↔ b.live = false := by
  rw [← h.live]
  simp

/-- A header depends on its first 48 bytes: the link is not part of the block. -/
theorem congr (h : BlkAt G m b) (ha : m.Agree m' (G.base + b.off) (G.base + b.off + 48)) :
    BlkAt G m' b := by
  refine ⟨(ha.load (Nat.le_refl _) (by omega)).trans h.magic, ?_⟩
  rw [← h.fields]
  simp only [blkAt, Blk.mk.injEq, true_and]
  have l : ∀ k n, k + n ≤ 48 →
      m'.load (G.base + b.off + k) n = m.load (G.base + b.off + k) n :=
    fun k n hk => ha.load (by omega) (by omega)
  rw [l 40 8 (by omega), l 32 8 (by omega), l 16 1 (by omega), l 24 8 (by omega),
    l 8 4 (by omega), l 12 4 (by omega), l 4 4 (by omega)]
  simp

end BlkAt

/-- A link field depends on its own bytes. -/
theorem nextAt_congr {o : Nat} (ha : m.Agree m' (G.base + o + 48) (G.base + o + 56)) :
    nextAt G m' o = nextAt G m o := ha.load (Nat.le_refl _) (by omega)

namespace Rep

variable {bs : List Blk} {fl : List Nat}

/-- Where a block lies in the region. -/
theorem bounds (h : Rep G m bs fl) {b : Blk} (hb : b ∈ bs) :
    b.off + b.total ≤ G.heapSize ∧ 64 ≤ b.total :=
  ⟨(h.tiles.bounds b hb).2, (h.wf b hb).min⟩

/-- The blocks before and behind a block. -/
theorem bounds_mid {pre post : List Blk} {b : Blk} (h : Rep G m (pre ++ b :: post) fl) :
    (∀ c ∈ pre, c.off + c.total ≤ b.off) ∧ ∀ c ∈ post, b.off + b.total ≤ c.off := by
  have ht := tiles_mid.1 h.tiles
  exact ⟨fun c hc => (ht.1.bounds c hc).2, fun c hc => (ht.2.bounds c hc).1⟩

/-- **Replacing a stretch of blocks.**  If the memory changes only inside the stretch `[s, e)` of
the heap and in link fields, and holds a new list of blocks there, it represents the heap with the
stretch replaced. -/
theorem replace {pre mid mid' post : List Blk} {s e : Nat} {fl' : List Nat}
    (h : Rep G m (pre ++ mid ++ post) fl) (hs : Tiles s mid e) (hs' : Tiles s mid' e)
    (hmid : mid ≠ [])
    (hag : ∀ c ∈ pre ++ post, m.Agree m' (G.base + c.off) (G.base + c.off + 48))
    (hwf : ∀ c ∈ mid', c.WF) (hblk : ∀ c ∈ mid', BlkAt G m' c)
    (hlinks : Linked (nextAt G m') (m'.load 88 8) fl')
    (hnodes : ∀ o ∈ fl', ∃ b ∈ pre ++ mid' ++ post, b.off = o) :
    Rep G m' (pre ++ mid' ++ post) fl' := by
  have hother : ∀ c ∈ pre ++ post, c ∈ pre ++ mid ++ post := by
    intro c hc
    simp only [List.mem_append] at hc ⊢
    tauto
  refine ⟨?_, fun c hc => ?_, fun c hc => ?_, hlinks, hnodes⟩
  · refine h.tiles.replace fun k l hk => ?_
    -- the stretch starts at its first block, so `k = s`, and ends where `e` is
    cases mid with
    | nil => exact absurd rfl hmid
    | cons c cs =>
      have hks : k = s := hk.1.symm.trans hs.1
      subst hks
      have hle : l = e := hk.sum_len.symm.trans hs.sum_len
      exact hle ▸ hs'
  · simp only [List.mem_append] at hc
    rcases hc with (hc | hc) | hc
    · exact h.wf c (hother c (by simp [hc]))
    · exact hwf c hc
    · exact h.wf c (hother c (by simp [hc]))
  · simp only [List.mem_append] at hc
    rcases hc with (hc | hc) | hc
    · exact (h.blk c (hother c (by simp [hc]))).congr (hag c (by simp [hc]))
    · exact hblk c hc
    · exact (h.blk c (hother c (by simp [hc]))).congr (hag c (by simp [hc]))

/-- A memory with the same headers and the same list head represents the same heap. -/
theorem congr (h : Rep G m bs fl) (hhead : m.Agree m' 88 96)
    (hag : ∀ c ∈ bs, m.Agree m' (G.base + c.off) (G.base + c.off + 56)) : Rep G m' bs fl := by
  refine ⟨h.tiles, h.wf, fun c hc => (h.blk c hc).congr ((hag c hc).mono (by omega) (by omega)),
    ?_, h.nodes⟩
  rw [Linked, hhead.load (Nat.le_refl _) (by omega)]
  refine h.links.congr fun o ho => ?_
  obtain ⟨b, hb, rfl⟩ := h.nodes o ho
  exact nextAt_congr ((hag b hb).mono (by omega) (by omega))

end Rep

/-! ## Pointer arithmetic

The code goes from heap offsets to addresses and back by adding and subtracting in 64 bits.  On a
memory with a sound layout none of this wraps. -/

section Accessors

variable (hL : LayoutOk G m)
include hL

theorem exec_heapBase : Exec G.size shmHeapBase m G.base [] := by
  have h1 := G.base_ge
  have h2 := G.size_eq
  exact .load hL.dataOffset (by simp; omega)

theorem exec_blkAtHoff {o : Nat} (ho : o ≤ G.heapSize) :
    Exec G.size (shmBlkAtHoff o) m (G.base + o) [] := by
  refine (exec_heapBase hL).bind_nil ?_
  have := G.size_lt
  have := G.size_eq
  rw [add64_eq (by omega)]
  exact .pure _

theorem exec_hoffOfBlk {o : Nat} (ho : o ≤ G.heapSize) :
    Exec G.size (shmHoffOfBlk (G.base + o)) m o [] := by
  refine (exec_heapBase hL).bind_nil ?_
  have := G.size_lt
  have := G.size_eq
  rw [sub64_eq (by omega) (by omega), Nat.add_sub_cancel_left]
  exact .pure _

theorem exec_poffOfBlk {o : Nat} (ho : o + 56 ≤ G.heapSize) :
    Exec G.size (shmPoffOfBlk (G.base + o)) m (o + 56) [] := by
  refine (exec_hoffOfBlk hL (by omega)).bind_nil ?_
  have := G.size_lt
  have := G.size_eq
  rw [blockHdrSize, add64_eq (by omega)]
  exact .pure _

theorem exec_blkOfPoff {o : Nat} (ho : o + 56 ≤ G.heapSize) :
    Exec G.size (shmBlkOfPoff (o + 56)) m (G.base + o) [] := by
  refine (exec_heapBase hL).bind_nil ?_
  have := G.size_lt
  have := G.size_eq
  rw [blockHdrSize, add64_eq (by omega), sub64_eq (by omega) (by omega),
    show G.base + (o + 56) - 56 = G.base + o by omega]
  exact .pure _

omit hL in
theorem linkEnc_eq {o : Nat} (ho : o ≤ G.heapSize) : shmLinkEnc o = o + 1 := by
  have := G.size_lt
  have := G.size_eq
  have := G.base_ge
  exact add64_eq (by omega)

theorem exec_blkOfLink {o : Nat} (ho : o ≤ G.heapSize) :
    Exec G.size (shmBlkOfLink (o + 1)) m (G.base + o) [] := by
  have := G.size_lt
  have := G.size_eq
  have := G.base_ge
  rw [shmBlkOfLink, shmLinkDec, sub64_eq (by omega) (by omega), Nat.add_sub_cancel]
  exact exec_blkAtHoff hL ho

theorem exec_dirSlot {i : Nat} (hi : i < G.dirCap) :
    Exec G.size (shmDirSlot i) m (slotAddr i) [] := by
  have h1 := G.base_ge
  have h2 := G.size_eq
  have h3 := G.slotAddr_lt hi
  have h4 := G.size_lt
  refine Exec.bind_nil (.load hL.dirOffset (by simp; omega)) ?_
  rw [objEntrySize, add64_eq (by rw [slotAddr] at h3; omega)]
  exact .pure _

end Accessors

/-! ## List walks

Both walks carry the link `prev_lnk` to the node before the cursor, which is 0 for the region
header.  `linkAddr` says where the link behind that node is stored. -/

/-- Where the link that `lnk` stands for is stored: in the region header, or in the header of the
block `lnk` points to. -/
def linkAddr (G : Geometry) (lnk : Nat) : Nat := if lnk = 0 then 88 else G.base + (lnk - 1) + 48

theorem linkAddr_zero : linkAddr G 0 = 88 := rfl

theorem linkAddr_succ (o : Nat) : linkAddr G (o + 1) = G.base + o + 48 := rfl

/-- A list of nodes is empty or ends in a node. -/
theorem lastLink_cases (xs : List Nat) :
    xs = [] ∧ lastLink 0 xs = 0 ∨ ∃ ys o, xs = ys ++ [o] ∧ lastLink 0 xs = o + 1 := by
  rcases List.eq_nil_or_concat xs with rfl | ⟨ys, o, rfl⟩
  · exact .inl ⟨rfl, rfl⟩
  · exact .inr ⟨ys, o, by simp, by simp⟩

theorem exec_setLink (hL : LayoutOk G m) {xs : List Nat} (hxs : ∀ o ∈ xs, o ≤ G.heapSize)
    (v : Nat) :
    Exec G.size (setLink (lastLink 0 xs) v) m () [.store (linkAddr G (lastLink 0 xs)) 8 v] := by
  rcases lastLink_cases xs with ⟨-, h⟩ | ⟨ys, o, rfl, h⟩
  · rw [h, setLink, if_pos rfl]
    exact .emit
  · rw [h, setLink, if_neg (Nat.succ_ne_zero o)]
    exact (exec_blkOfLink hL (hxs o (by simp))).bind_nil .emit

/-- **The insertion walk** passes the nodes up to the offset it is looking for and stops at the
first one behind it. -/
theorem exec_insertionPoint (hL : LayoutOk G m) {bHo k : Nat}
    (hk : k = 0 ∨ ∃ y, k = y + 1 ∧ bHo < y ∧ y ≤ G.heapSize) {xs : List Nat} :
    ∀ {fuel prev l : Nat}, LinkSeg (nextAt G m) l xs k →
      (∀ x ∈ xs, x ≤ bHo ∧ x + 56 ≤ G.heapSize) → xs.length < fuel →
      Exec G.size (insertionPoint bHo fuel prev l) m (lastLink prev xs, k) [] := by
  induction xs with
  | nil =>
    intro fuel prev l hseg _ hf
    obtain ⟨fuel, rfl⟩ : ∃ f, fuel = f + 1 := ⟨fuel - 1, by simp at hf; omega⟩
    rw [linkSeg_nil] at hseg
    subst hseg
    rw [insertionPoint]
    rcases hk with rfl | ⟨y, rfl, hy, hle⟩
    · rw [if_pos rfl]
      exact .pure _
    · rw [if_neg (Nat.succ_ne_zero y)]
      refine (exec_blkOfLink hL hle).bind_nil ((exec_hoffOfBlk hL hle).bind_nil ?_)
      rw [if_pos hy]
      exact .pure _
  | cons x xs ih =>
    intro fuel prev l hseg hxs hf
    obtain ⟨fuel, rfl⟩ : ∃ f, fuel = f + 1 := ⟨fuel - 1, by simp at hf; omega⟩
    rw [linkSeg_cons] at hseg
    obtain ⟨rfl, hseg⟩ := hseg
    obtain ⟨hx, hx'⟩ := hxs x List.mem_cons_self
    rw [insertionPoint, if_neg (Nat.succ_ne_zero x)]
    refine (exec_blkOfLink hL (by omega)).bind_nil ((exec_hoffOfBlk hL (by omega)).bind_nil ?_)
    rw [if_neg (by omega)]
    have hr : G.base + x + 48 + 8 ≤ G.size := by rw [G.size_eq]; omega
    refine Exec.bind_nil (.load rfl hr) ?_
    rw [lastLink_cons]
    exact ih hseg (fun y hy => hxs y (List.mem_cons_of_mem _ hy)) (by simpa using hf)

/-- The removal walk passes the nodes before its target and stops at the target. -/
theorem exec_removalPoint (hL : LayoutOk G m) {t : Nat} {xs : List Nat} :
    ∀ {fuel prev l : Nat}, LinkSeg (nextAt G m) l xs (t + 1) →
      (∀ x ∈ xs, x ≠ t ∧ x + 56 ≤ G.heapSize) → xs.length < fuel →
      Exec G.size (removalPoint (t + 1) fuel prev l) m (lastLink prev xs, t + 1) [] := by
  induction xs with
  | nil =>
    intro fuel prev l hseg _ hf
    obtain ⟨fuel, rfl⟩ : ∃ f, fuel = f + 1 := ⟨fuel - 1, by simp at hf; omega⟩
    rw [linkSeg_nil] at hseg
    subst hseg
    rw [removalPoint, if_pos (.inr rfl)]
    exact .pure _
  | cons x xs ih =>
    intro fuel prev l hseg hxs hf
    obtain ⟨fuel, rfl⟩ : ∃ f, fuel = f + 1 := ⟨fuel - 1, by simp at hf; omega⟩
    rw [linkSeg_cons] at hseg
    obtain ⟨rfl, hseg⟩ := hseg
    obtain ⟨hx, hx'⟩ := hxs x List.mem_cons_self
    rw [removalPoint, if_neg (by omega)]
    refine (exec_blkOfLink hL (by omega)).bind_nil ?_
    have hr : G.base + x + 48 + 8 ≤ G.size := by rw [G.size_eq]; omega
    refine Exec.bind_nil (.load rfl hr) ?_
    rw [lastLink_cons]
    exact ih hseg (fun y hy => hxs y (List.mem_cons_of_mem _ hy)) (by simpa using hf)

end ShmAlloc
