import ShmAlloc.Layout

/-!
# The free list and the heap allocator

`freelist_insert`, `freelist_remove`, `heap_alloc_block` and `heap_free_block` of
`src/shm_alloc.c`, store by store in the order of the source.  They run under the region mutex.

The list walks are loops over links read from shared memory.  Each takes a fuel of `2 ^ 64`: a walk
that takes more steps than there are links has met a link twice, and since it writes nothing it
goes round for ever; the trace then says `hang`.

## What is here

* `setLink`: the store behind `prev_lnk`, to the region header or to the block before.
* `freelistInsert`: the walk, the splice, and the two merges (`coalesceNext`, `coalescePrev`).
* `freelistRemove`: the walk, and the bridge over the block.
* `heapAllocBlock`: first fit, and what is done to the block that fits (`detachBlock`,
  `markAllocated`).
* `subCounter` and `heapFreeBlock`: the counters, whose subtractions are marked in the trace.
-/

set_option autoImplicit false

namespace ShmAlloc

/-- Steps a list walk may take before it is known not to end. -/
@[irreducible] def walkFuel : Nat := 2 ^ 64

/-- `if (prev_lnk == 0) rh->free_list = v; else shm_blk_of_link(r, prev_lnk)->next_free = v;` -/
def setLink (prevLnk v : Nat) : Prog Unit :=
  if prevLnk = 0 then Prog.set shmRh RegionHdr.freeList v
  else do
    let prev ← shmBlkOfLink prevLnk
    Prog.set prev BlockHdr.nextFree v

/-! ## Insertion -/

/-- The walk of `freelist_insert`: from `(prev_lnk, cur_lnk)` to the first block with
`hoff > b_ho`, or to the end of the list. -/
def insertionPoint (bHo : Nat) : Nat → Nat → Nat → Prog (Nat × Nat)
  | 0, prevLnk, curLnk => do
    Prog.emit .hang
    return (prevLnk, curLnk)
  | fuel + 1, prevLnk, curLnk =>
    if curLnk = 0 then return (prevLnk, curLnk)
    else do
      let cur ← shmBlkOfLink curLnk
      let curHo ← shmHoffOfBlk cur
      if bHo < curHo then return (prevLnk, curLnk)
      else do
        let next ← Prog.get cur BlockHdr.nextFree
        insertionPoint bHo fuel curLnk next

/-- Coalesce `b` with its successor on the list if they are physically adjacent. -/
def coalesceNext (b bHo curLnk : Nat) : Prog Unit :=
  if curLnk = 0 then return ()
  else do
    let cur ← shmBlkOfLink curLnk
    let total ← Prog.get b BlockHdr.totalSize
    let curHo ← shmHoffOfBlk cur
    if add64 bHo total = curHo then do
      let curTotal ← Prog.get cur BlockHdr.totalSize
      Prog.set b BlockHdr.totalSize (add64 total curTotal)
      let next ← Prog.get cur BlockHdr.nextFree
      Prog.set b BlockHdr.nextFree next
      Prog.set cur BlockHdr.magic 0
      shmPersist cur blockHdrSize
    else return ()

/-- Coalesce the predecessor on the list with `b` if they are physically adjacent, and persist
whatever `freelist_insert` has not persisted yet. -/
def coalescePrev (b bHo prevLnk : Nat) : Prog Unit :=
  if prevLnk = 0 then do
    shmPersist (shmRh + RegionHdr.freeList.off) 8
    shmPersist b blockHdrSize
  else do
    let prev ← shmBlkOfLink prevLnk
    let prHo ← shmHoffOfBlk prev
    let prTotal ← Prog.get prev BlockHdr.totalSize
    if add64 prHo prTotal = bHo then do
      let total ← Prog.get b BlockHdr.totalSize
      Prog.set prev BlockHdr.totalSize (add64 prTotal total)
      let next ← Prog.get b BlockHdr.nextFree
      Prog.set prev BlockHdr.nextFree next
      Prog.set b BlockHdr.magic 0
      shmPersist b blockHdrSize
      shmPersist prev blockHdrSize
    else do
      shmPersist prev blockHdrSize
      shmPersist b blockHdrSize

/-- Insert block `b` into the address-ordered free list and coalesce with its neighbours. -/
def freelistInsert (b : Nat) : Prog Unit := do
  let bHo ← shmHoffOfBlk b
  Prog.set b BlockHdr.allocated 0
  Prog.set b BlockHdr.objId 0
  Prog.set b BlockHdr.owner 0
  Prog.set b BlockHdr.perms 0
  Prog.set b BlockHdr.typeTag 0
  let head ← Prog.get shmRh RegionHdr.freeList
  let at' ← insertionPoint bHo walkFuel 0 head
  Prog.set b BlockHdr.nextFree at'.2
  setLink at'.1 (shmLinkEnc bHo)
  coalesceNext b bHo at'.2
  coalescePrev b bHo at'.1

/-! ## Removal

A walk that does not find its link ends at link 0 and nothing is done, as in the source. -/

/-- The walk of `freelist_remove`: to the link `targetLnk`, or to the end of the list. -/
def removalPoint (targetLnk : Nat) : Nat → Nat → Nat → Prog (Nat × Nat)
  | 0, prevLnk, curLnk => do
    Prog.emit .hang
    return (prevLnk, curLnk)
  | fuel + 1, prevLnk, curLnk =>
    if curLnk = 0 ∨ curLnk = targetLnk then return (prevLnk, curLnk)
    else do
      let cur ← shmBlkOfLink curLnk
      let next ← Prog.get cur BlockHdr.nextFree
      removalPoint targetLnk fuel curLnk next

/-- Remove a specific block from the free list; nothing happens if it is not there. -/
def freelistRemove (target : Nat) : Prog Unit := do
  let targetHo ← shmHoffOfBlk target
  let head ← Prog.get shmRh RegionHdr.freeList
  let at' ← removalPoint (shmLinkEnc targetHo) walkFuel 0 head
  if at'.2 ≠ shmLinkEnc targetHo then return ()
  else do
    let next ← Prog.get target BlockHdr.nextFree
    setLink at'.1 next
    Prog.set target BlockHdr.nextFree 0

/-! ## Allocation -/

/-- Split off the remainder of `b` as a new free block and put it in the place of `b` on the
list. -/
def splitBlock (b prevLnk needTotal rem : Nat) : Prog Unit := do
  let nb := add64 b needTotal
  Prog.set nb BlockHdr.magic SHM_ALLOC_MAGIC_BLOCK
  Prog.set nb BlockHdr.typeTag 0
  Prog.set nb BlockHdr.owner 0
  Prog.set nb BlockHdr.perms 0
  Prog.set nb BlockHdr.allocated 0
  Prog.set nb BlockHdr.objId 0
  Prog.set nb BlockHdr.payloadCap (sub64 rem blockHdrSize)
  Prog.set nb BlockHdr.totalSize rem
  let next ← Prog.get b BlockHdr.nextFree
  Prog.set nb BlockHdr.nextFree next
  Prog.set b BlockHdr.totalSize needTotal
  Prog.set b BlockHdr.payloadCap (sub64 needTotal blockHdrSize)
  shmPersist nb blockHdrSize
  let nbHo ← shmHoffOfBlk nb
  setLink prevLnk (shmLinkEnc nbHo)

/-- Take `b` off the list without splitting it. -/
def unlinkBlock (b prevLnk : Nat) : Prog Unit := do
  let next ← Prog.get b BlockHdr.nextFree
  setLink prevLnk next

/-- Set the tag bit of `b`, account for it and persist. -/
def markAllocated (b : Nat) : Prog Unit := do
  Prog.set b BlockHdr.allocated 1
  Prog.set b BlockHdr.nextFree 0
  let total ← Prog.get b BlockHdr.totalSize
  let used ← Prog.get shmRh RegionHdr.usedBytes
  Prog.set shmRh RegionHdr.usedBytes (add64 used total)
  let count ← Prog.get shmRh RegionHdr.blockCount
  Prog.set shmRh RegionHdr.blockCount (add64 count 1)
  shmPersist b blockHdrSize
  shmPersist (shmRh + RegionHdr.freeList.off) 24

/-- Split off the remainder if it can hold a block, absorb it into `b` otherwise. -/
def detachBlock (b prevLnk needTotal total : Nat) : Prog Unit :=
  if BLOCK_MIN ≤ sub64 total needTotal then
    splitBlock b prevLnk needTotal (sub64 total needTotal)
  else unlinkBlock b prevLnk

/-- The body of the first-fit loop once `b` fits. -/
def takeBlock (b prevLnk needTotal total : Nat) : Prog Unit := do
  detachBlock b prevLnk needTotal total
  markAllocated b

/-- The first-fit loop of `heap_alloc_block`. -/
def firstFit (needTotal : Nat) : Nat → Nat → Nat → Prog (Option Nat)
  | 0, _, _ => do
    Prog.emit .hang
    return none
  | fuel + 1, prevLnk, curLnk =>
    if curLnk = 0 then return none
    else do
      let b ← shmBlkOfLink curLnk
      let total ← Prog.get b BlockHdr.totalSize
      if needTotal ≤ total then do
        takeBlock b prevLnk needTotal total
        return some b
      else do
        let next ← Prog.get b BlockHdr.nextFree
        firstFit needTotal fuel curLnk next

/-- Find the first free block of at least `needTotal` bytes, take it off the list, splitting it if
the remainder can hold a block, and return it; `none` if the heap is exhausted. -/
def heapAllocBlock (needTotal : Nat) : Prog (Option Nat) := do
  let head ← Prog.get shmRh RegionHdr.freeList
  firstFit needTotal walkFuel 0 head

/-! ## Deallocation -/

/-- `c -= n` on a counter of the region header. -/
def subCounter (c : CField) (n : Nat) : Prog Unit := do
  let v ← Prog.get shmRh c
  Prog.emit (.sub v n)
  Prog.set shmRh c (sub64 v n)

/-- Return block `b` to the free list and update accounting. -/
def heapFreeBlock (b : Nat) : Prog Unit := do
  let total ← Prog.get b BlockHdr.totalSize
  subCounter RegionHdr.usedBytes total
  subCounter RegionHdr.blockCount 1
  freelistInsert b

end ShmAlloc
