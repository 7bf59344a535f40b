import ShmAlloc.Lib.Trace
import ShmAlloc.Lib.Word

/-!
# The in-memory layout of a region

`src/shm_internal.h` and the constants of `include/shm_alloc.h`: the three structures that live in
the mapping, as field tables for the LP64 layout the README lists, and the inline accessors that
turn heap offsets into block headers and back.

A pointer into the mapping is its distance from `r->base`, taken modulo `2 ^ 64`; two processes
that map the region at different addresses then agree on every pointer.  The accessors read
`data_offset` and `dir_offset` from the region header each time, as the code does, so they are
programs.  A field of a structure at `p` is at `p + off` without a wrap: a header so close to the
top of the address space is outside every mapping anyway.

## What is here

* The constants, and `Rc` for the return codes.
* `BlockHdr`, `RegionHdr` and `ObjEntry`: the fields of the three structures, each an offset and a
  width.
* `Region`: the handle of a process, with what `mmap` promises about it as fields.
* `CStr`: a string that has no NUL in it.
* The accessors, and `isNull`: a pointer that is null in the address space of this process.
-/

set_option autoImplicit false

namespace ShmAlloc

/-! ## Constants -/

/-- Stored at byte 0 of the region. -/
def SHM_ALLOC_MAGIC_REGION : Nat := 0x53484D41

/-- Stored at the start of every heap block header. -/
def SHM_ALLOC_MAGIC_BLOCK : Nat := 0x424C4B21

def SHM_ALLOC_VERSION : Nat := 2

def SHM_PERM_READ : UInt32 := 0x01
def SHM_PERM_WRITE : UInt32 := 0x02
def SHM_PERM_FREE : UInt32 := 0x04
def SHM_PERM_RESIZE : UInt32 := 0x08
/-- Bypasses the owner check, and the permission check with it. -/
def SHM_PERM_ADMIN : UInt32 := 0x80

/-- `sizeof(shm_block_hdr_t)`. -/
abbrev blockHdrSize : Nat := 56

/-- `sizeof(shm_obj_entry_t)`. -/
abbrev objEntrySize : Nat := 96

/-- `sizeof(shm_region_hdr_t)`. -/
abbrev regionHdrSize : Nat := 200

abbrev HEAP_ALIGN : Nat := 8

/-- Minimum useful block size: header and one alignment quantum of payload. -/
abbrev BLOCK_MIN : Nat := blockHdrSize + HEAP_ALIGN

abbrev DIR_NAME_MAX : Nat := 48

/-- Bytes in one cache line. -/
abbrev SHM_CACHE_LINE_BYTES : Nat := 64

/-- The return codes of the API; `ok` is 0. -/
inductive Rc
  | ok | einval | enoent | eacces | enospc | enomem | eperm
  deriving DecidableEq, Repr

/-! ## Structures -/

/-! `shm_block_hdr_t`: lives immediately before every payload in the heap. -/

namespace BlockHdr

@[simp] def magic : CField := ⟨0, 4⟩
@[simp] def typeTag : CField := ⟨4, 4⟩
@[simp] def owner : CField := ⟨8, 4⟩
@[simp] def perms : CField := ⟨12, 4⟩
/-- 1 for a live block, 0 on the free list: the tag bit. -/
@[simp] def allocated : CField := ⟨16, 1⟩
@[simp] def objId : CField := ⟨24, 8⟩
/-- Payload bytes, not counting the header. -/
@[simp] def payloadCap : CField := ⟨32, 8⟩
/-- The heap unit: header and payload. -/
@[simp] def totalSize : CField := ⟨40, 8⟩
/-- 1-based heap offset of the next free block; 0 ends the list. -/
@[simp] def nextFree : CField := ⟨48, 8⟩

end BlockHdr

/-! `shm_region_hdr_t`: lives at byte 0.  Bytes 16 to 55 are the `pthread_mutex_t`; they are the
business of the lock events of a trace and no program here reads or writes them. -/

namespace RegionHdr

@[simp] def magic : CField := ⟨0, 4⟩
@[simp] def version : CField := ⟨4, 4⟩
@[simp] def backend : CField := ⟨8, 4⟩
@[simp] def dirCapacity : CField := ⟨12, 4⟩
@[simp] def hostCount : CField := ⟨56, 4⟩
@[simp] def regionSize : CField := ⟨64, 8⟩
@[simp] def dirOffset : CField := ⟨72, 8⟩
@[simp] def dataOffset : CField := ⟨80, 8⟩
@[simp] def freeList : CField := ⟨88, 8⟩
@[simp] def usedBytes : CField := ⟨96, 8⟩
@[simp] def blockCount : CField := ⟨104, 8⟩
@[simp] def nextId : CField := ⟨112, 8⟩
@[simp] def nsInode : CField := ⟨120, 8⟩
@[simp] def cgroupHash : CField := ⟨128, 8⟩
/-- Offset of the 64-byte name. -/
@[simp] def shmName : Nat := 136

end RegionHdr

/-! `shm_obj_entry_t`: one directory slot. -/

namespace ObjEntry

@[simp] def id : CField := ⟨0, 8⟩
/-- Offset of the 48-byte name. -/
@[simp] def name : Nat := 8
@[simp] def off : CField := ⟨56, 8⟩
@[simp] def capacity : CField := ⟨64, 8⟩
@[simp] def usedSize : CField := ⟨72, 8⟩
@[simp] def typeTag : CField := ⟨80, 4⟩
@[simp] def owner : CField := ⟨84, 4⟩
@[simp] def perms : CField := ⟨88, 4⟩
@[simp] def alive : CField := ⟨92, 1⟩

end ObjEntry

/-- The per-process handle, as one call sees it.  `base` and `size` are what `mmap` returned, so
the mapping is page-aligned, is not at address 0 and does not run past the end of the address
space.  `lockRc` is what `pthread_mutex_lock` will answer to this call. -/
structure Region where
  /-- Address of the mapping in this process. -/
  base : Nat
  /-- Length of the mapping. -/
  size : Nat
  /-- The answer of the mutex to this call. -/
  lockRc : LockRc
  /-- `mmap` returns page-aligned addresses. -/
  aligned : base % 4096 = 0
  /-- `mmap` does not return address 0. -/
  pos : 0 < base
  /-- The mapping ends inside the address space. -/
  fits : base + size ≤ 2 ^ 64

/-- A C string: bytes without the terminating NUL, which is the only NUL. -/
abbrev CStr := { s : List UInt8 // (0 : UInt8) ∉ s }

/-! ## Accessors -/

/-- Round `n` up to a multiple of `a`, a power of two. -/
def shmAlignUp (n a : Nat) : Nat := sub64 (add64 n a) 1 &&& not64 (sub64 a 1)

/-- `(shm_region_hdr_t *)r->base`. -/
abbrev shmRh : Nat := 0

/-- `shm_persist(p, n)`. -/
def shmPersist (p n : Nat) : Prog Unit := Prog.emit (.persist p n)

/-- `shm_drain()`. -/
def shmDrain : Prog Unit := Prog.emit .drain

def shmHeapBase : Prog Nat := Prog.get shmRh RegionHdr.dataOffset

def shmHeapSize (r : Region) : Prog Nat := do
  let off ← Prog.get shmRh RegionHdr.dataOffset
  return sub64 r.size off

def shmBlkAtHoff (hoff : Nat) : Prog Nat := do
  let hb ← shmHeapBase
  return add64 hb hoff

def shmBlkOfPoff (poff : Nat) : Prog Nat := do
  let hb ← shmHeapBase
  return sub64 (add64 hb poff) blockHdrSize

def shmHoffOfBlk (b : Nat) : Prog Nat := do
  let hb ← shmHeapBase
  return sub64 b hb

def shmPoffOfBlk (b : Nat) : Prog Nat := do
  let ho ← shmHoffOfBlk b
  return add64 ho blockHdrSize

def shmLinkEnc (hoff : Nat) : Nat := add64 hoff 1

def shmLinkDec (lnk : Nat) : Nat := sub64 lnk 1

/-- Dereference a free-list link.  The callers have tested `lnk` against 0 before. -/
def shmBlkOfLink (lnk : Nat) : Prog Nat := shmBlkAtHoff (shmLinkDec lnk)

def shmDirBase : Prog Nat := Prog.get shmRh RegionHdr.dirOffset

def shmDirSlot (idx : Nat) : Prog Nat := do
  let d ← shmDirBase
  return add64 d (objEntrySize * idx)

/-- The pointer is the null pointer of this process. -/
def isNull (r : Region) (p : Nat) : Bool := add64 r.base p == 0

theorem shmAlignUp_eight {n : Nat} (h : n + 7 < 2 ^ 64) : shmAlignUp n 8 = (n + 7) / 8 * 8 := by
  have h1 : sub64 (add64 n 8) 1 = n + 7 := by
    rw [sub64, add64]
    omega
  rw [shmAlignUp, h1]
  exact and_not64 (k := 3) h (by decide)

end ShmAlloc
