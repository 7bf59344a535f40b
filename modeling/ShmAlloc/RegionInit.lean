import ShmAlloc.Api

/-!
# Initialising a region

`region_init` of `src/shm_alloc.c`.  The two fingerprints are what `shm_ns_ipc_inode()` and
`shm_ns_cgroup_hash()` return to the creator.

The size of the heap is the difference of two `size_t`, and nothing is compared before: with a
directory that does not fit, the first block gets a size of nearly 2^64 bytes and is stored behind
the region.  What follows from that is said where regions are created.
-/

set_option autoImplicit false

namespace ShmAlloc

/-- `data_off` as `region_init` computes it. -/
def dataOff (dirCap : Nat) : Nat :=
  add64 (shmAlignUp regionHdrSize HEAP_ALIGN)
    (shmAlignUp (objEntrySize * dirCap % 2 ^ 64) HEAP_ALIGN)

/-- `if (name) strncpy(rh->shm_name, name, sizeof(rh->shm_name) - 1);` -/
def storeRegionName : Option CStr → Prog Unit
  | none => return ()
  | some s => Prog.emit (.put (shmRh + RegionHdr.shmName) (strncpyBytes s.1 63))

/-- The single initial free block covering the entire heap. -/
def initHeap (heapSz : Nat) : Prog Unit := do
  let initial ← shmBlkAtHoff 0
  Prog.set initial BlockHdr.magic SHM_ALLOC_MAGIC_BLOCK
  Prog.set initial BlockHdr.typeTag 0
  Prog.set initial BlockHdr.owner 0
  Prog.set initial BlockHdr.perms 0
  Prog.set initial BlockHdr.allocated 0
  Prog.set initial BlockHdr.objId 0
  Prog.set initial BlockHdr.payloadCap (sub64 heapSz blockHdrSize)
  Prog.set initial BlockHdr.totalSize heapSz
  Prog.set initial BlockHdr.nextFree 0
  Prog.set shmRh RegionHdr.freeList (shmLinkEnc 0)

def regionInit (totalSize backend dirCap : Nat) (name : Option CStr)
    (nsInode cgroupHash : Nat) : Prog Unit := do
  Prog.emit (.fill 0 totalSize 0)
  Prog.set shmRh RegionHdr.magic SHM_ALLOC_MAGIC_REGION
  Prog.set shmRh RegionHdr.version SHM_ALLOC_VERSION
  Prog.set shmRh RegionHdr.backend backend
  Prog.set shmRh RegionHdr.dirCapacity dirCap
  Prog.set shmRh RegionHdr.regionSize totalSize
  Prog.set shmRh RegionHdr.dirOffset (shmAlignUp regionHdrSize HEAP_ALIGN)
  Prog.set shmRh RegionHdr.dataOffset (dataOff dirCap)
  Prog.set shmRh RegionHdr.usedBytes 0
  Prog.set shmRh RegionHdr.blockCount 0
  Prog.set shmRh RegionHdr.nextId 1
  Prog.set shmRh RegionHdr.hostCount 0
  Prog.set shmRh RegionHdr.nsInode nsInode
  Prog.set shmRh RegionHdr.cgroupHash cgroupHash
  storeRegionName name
  Prog.emit .lockInit
  initHeap (sub64 totalSize (dataOff dirCap))
  shmPersist shmRh (add64 (dataOff dirCap) blockHdrSize)
  shmDrain

end ShmAlloc
