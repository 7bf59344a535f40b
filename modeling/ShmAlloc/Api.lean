import ShmAlloc.FreeList
import ShmAlloc.Directory

/-!
# The allocator API

`shm_alloc`, `shm_free`, `shm_resize`, `shm_lookup`, `shm_lookup_by_name`, `shm_dir_next`,
`shm_ptr`, `shm_block_info`, `shm_block_set_perms` and `shm_pool_stats` of `src/shm_alloc.c`.

The handle argument is an `Option`, `none` being the null pointer.  Out-parameters are caller
memory: a `Bool` argument says whether the pointer is non-null where the code asks, and a write
through it is an `out` event.

## What is here

Each call is a program over the memory of the region, with its stores, write-backs and fences in the
order of the source.  The longer ones are cut into stages, each a definition of its own with the
name of what it does, so that lemmas about a part of a call have something to be about.

* `regionLock` and `regionUnlock`: the mutex.  What it answers is in the handle, as one call sees
  it.
* `withEntry`: the prologue that `shm_free`, `shm_resize` and `shm_lookup` share.
* `shmAlloc`: `allocLocked`, `fillObject` and the stages of the latter.
* `shmResize`: `resizeObject` decides between `shrinkBlock`, `growInPlace` and `growByMoving`.
* `DirEntry`, `DirNext` and `PoolStats`: what callers get back by value.

A program that leaves the mapping goes on; whether a call stays inside is a question about its
trace.
-/

set_option autoImplicit false

namespace ShmAlloc

/-! ## The region mutex

Programs do not wait.  That a call has the mutex from its first event to its last is what makes it
one step of a run; the interleaving of calls is a matter of its own. -/

/-- `region_lock`: recover a mutex whose holder died.  The return value is ignored by every
caller. -/
def regionLock (r : Region) : Prog Unit := do
  Prog.emit (.lock r.lockRc)
  if r.lockRc = .ownerDead then Prog.emit .consistent else return ()

/-- `region_unlock`. -/
def regionUnlock : Prog Unit := Prog.emit .unlock

/-- `region_unlock(region); return rc;` -/
def unlockReturn (rc : Rc) : Prog Rc := do
  regionUnlock
  return rc

/-! ## Allocation -/

/-- The bytes `strncpy(dst, s, n)` writes: at most `n` characters of `s`, padded with NULs. -/
def strncpyBytes (s : List UInt8) (n : Nat) : List UInt8 :=
  s.take n ++ List.replicate (n - s.length) 0

/-- `if (name && name[0] != '\0') strncpy(slot->name, name, DIR_NAME_MAX - 1);` -/
def storeName (slot : Nat) : Option CStr → Prog Unit
  | none => return ()
  | some s =>
    if s.1 = [] then return ()
    else Prog.emit (.put (slot + ObjEntry.name) (strncpyBytes s.1 (DIR_NAME_MAX - 1)))

/-- Give block `b` the identity of the new object. -/
def identifyBlock (b newId : Nat) (userId perms typeTag : UInt32) : Prog Unit := do
  Prog.set b BlockHdr.typeTag typeTag.toNat
  Prog.set b BlockHdr.owner userId.toNat
  Prog.set b BlockHdr.perms perms.toNat
  Prog.set b BlockHdr.objId newId

/-- Zero the payload and persist it, then the completed header. -/
def zeroPayload (b : Nat) : Prog Unit := do
  let cap ← Prog.get b BlockHdr.payloadCap
  Prog.emit (.fill (b + blockHdrSize) cap 0)
  shmPersist (b + blockHdrSize) cap
  shmPersist b blockHdrSize

/-- Fill the directory slot, up to its name. -/
def fillSlot (slot b newId payloadSize : Nat) (userId perms typeTag : UInt32) : Prog Unit := do
  Prog.emit (.fill slot objEntrySize 0)
  Prog.set slot ObjEntry.id newId
  let off ← shmPoffOfBlk b
  Prog.set slot ObjEntry.off off
  let cap ← Prog.get b BlockHdr.payloadCap
  Prog.set slot ObjEntry.capacity cap
  Prog.set slot ObjEntry.usedSize payloadSize
  Prog.set slot ObjEntry.typeTag typeTag.toNat
  Prog.set slot ObjEntry.owner userId.toNat
  Prog.set slot ObjEntry.perms perms.toNat
  Prog.set slot ObjEntry.alive 1

/-- Persist the entry and `next_id`, and answer the caller. -/
def publishObject (slot newId : Nat) : Prog Rc := do
  shmPersist slot objEntrySize
  shmPersist (shmRh + RegionHdr.nextId.off) 8
  shmDrain
  Prog.emit (.out 0 newId)
  let off ← Prog.get slot ObjEntry.off
  Prog.emit (.out 1 off)
  unlockReturn .ok

/-- `shm_alloc` from the point where the slot and the block are known. -/
def fillObject (slot b payloadSize : Nat) (name : Option CStr) (userId perms typeTag : UInt32) :
    Prog Rc := do
  let newId ← Prog.get shmRh RegionHdr.nextId
  Prog.set shmRh RegionHdr.nextId (add64 newId 1)
  identifyBlock b newId userId perms typeTag
  zeroPayload b
  fillSlot slot b newId payloadSize userId perms typeTag
  storeName slot name
  publishObject slot newId

/-- `shm_alloc` under the lock. -/
def allocLocked (payloadSize : Nat) (name : Option CStr) (userId perms typeTag : UInt32) :
    Prog Rc := do
  match ← dirFindFreeSlot with
  | none => unlockReturn .enospc
  | some slot =>
    match ← heapAllocBlock (shmAlignUp (add64 blockHdrSize payloadSize) HEAP_ALIGN) with
    | none => unlockReturn .enomem
    | some b => fillObject slot b payloadSize name userId perms typeTag

def shmAlloc (region : Option Region) (payloadSize : Nat) (name : Option CStr)
    (userId perms typeTag : UInt32) (outId outOff : Bool) : Prog Rc :=
  match region with
  | none => return .einval
  | some r =>
    if payloadSize = 0 ∨ outId = false ∨ outOff = false then return .einval
    else do
      regionLock r
      allocLocked payloadSize name userId perms typeTag

/-! ## Free -/

/-- `shm_free` from the point where access is granted. -/
def freeObject (slot : Nat) : Prog Rc := do
  let off ← Prog.get slot ObjEntry.off
  let b ← shmBlkOfPoff off
  heapFreeBlock b
  Prog.emit (.fill slot objEntrySize 0)
  shmPersist slot objEntrySize
  shmDrain
  unlockReturn .ok

/-- The prologue of `shm_free`, `shm_resize` and `shm_lookup` under the lock: find the entry and
check access, then go on with `body`. -/
def withEntry (objId : Nat) (userId callerPerms required : UInt32) (body : Nat → Prog Rc) :
    Prog Rc := do
  match ← dirFindById objId with
  | none => unlockReturn .enoent
  | some slot => do
    let acc ← checkDirAccess slot userId callerPerms required
    if acc = .ok then body slot else unlockReturn acc

def shmFree (region : Option Region) (objId : Nat) (userId callerPerms : UInt32) : Prog Rc :=
  match region with
  | none => return .einval
  | some r =>
    if objId = 0 then return .einval
    else do
      regionLock r
      withEntry objId userId callerPerms SHM_PERM_FREE freeObject

/-! ## Resize

The branches of the source in their order: large enough, shrink; too small, grow in place; cannot,
move. -/

/-- Initialise the header of a tail fragment of `size` bytes that is not on the list yet. -/
def initTail (tail size : Nat) : Prog Unit := do
  Prog.set tail BlockHdr.magic SHM_ALLOC_MAGIC_BLOCK
  Prog.set tail BlockHdr.allocated 0
  Prog.set tail BlockHdr.objId 0
  Prog.set tail BlockHdr.owner 0
  Prog.set tail BlockHdr.perms 0
  Prog.set tail BlockHdr.typeTag 0
  Prog.set tail BlockHdr.totalSize size
  Prog.set tail BlockHdr.payloadCap (sub64 size blockHdrSize)
  Prog.set tail BlockHdr.nextFree 0

/-- Cut the last `rem` bytes off `b`, which keeps `newTotal`, and give them to the free list. -/
def cutTail (b newTotal rem : Nat) : Prog Unit := do
  let tail := add64 b newTotal
  initTail tail rem
  subCounter RegionHdr.usedBytes rem
  Prog.set b BlockHdr.totalSize newTotal
  Prog.set b BlockHdr.payloadCap (sub64 newTotal blockHdrSize)
  shmPersist b blockHdrSize
  freelistInsert tail

/-- The shrink path, up to the directory update. -/
def shrinkBlock (b newTotal total : Nat) : Prog Unit :=
  if BLOCK_MIN ≤ sub64 total newTotal then cutTail b newTotal (sub64 total newTotal)
  else return ()

/-- What in-place growth does with the space it does not need. -/
def trimGrown (b newTotal leftover : Nat) : Prog Unit :=
  if BLOCK_MIN ≤ leftover then cutTail b newTotal leftover else shmPersist b blockHdrSize

/-- Grow `b` into its free neighbour `next`. -/
def growInto (b next newTotal combined : Nat) : Prog Unit := do
  freelistRemove next
  let used ← Prog.get shmRh RegionHdr.usedBytes
  let nextTotal ← Prog.get next BlockHdr.totalSize
  Prog.set shmRh RegionHdr.usedBytes (add64 used nextTotal)
  Prog.set b BlockHdr.totalSize combined
  Prog.set b BlockHdr.payloadCap (sub64 combined blockHdrSize)
  Prog.set next BlockHdr.magic 0
  shmPersist next blockHdrSize
  trimGrown b newTotal (sub64 combined newTotal)
  shmPersist (shmRh + RegionHdr.usedBytes.off) 8

/-- Grow in place if the physically next block is free and large enough. -/
def tryGrowNext (b next newTotal : Nat) : Prog Bool := do
  let magic ← Prog.get next BlockHdr.magic
  let allocated ← Prog.get next BlockHdr.allocated
  if magic = SHM_ALLOC_MAGIC_BLOCK ∧ allocated = 0 then do
    let total ← Prog.get b BlockHdr.totalSize
    let nextTotal ← Prog.get next BlockHdr.totalSize
    if newTotal ≤ add64 total nextTotal then do
      growInto b next newTotal (add64 total nextTotal)
      return true
    else return false
  else return false

/-- The in-place part of the grow path; tells whether the block grew. -/
def growInPlace (r : Region) (b newTotal : Nat) : Prog Bool := do
  let bHo ← shmHoffOfBlk b
  let total ← Prog.get b BlockHdr.totalSize
  let heapSize ← shmHeapSize r
  if add64 (add64 bHo total) blockHdrSize < heapSize then do
    let next ← shmBlkAtHoff (add64 bHo total)
    tryGrowNext b next newTotal
  else return false

/-- `if (extra > 0) memset(...)` behind the copied payload. -/
def clearExtra (nb bCap extra : Nat) : Prog Unit :=
  if 0 < extra then Prog.emit (.fill (add64 (nb + blockHdrSize) bCap) extra 0) else return ()

/-- Copy the payload of `b` to `nb` and clear what lies behind it. -/
def copyPayload (b nb : Nat) : Prog Unit := do
  let bCap ← Prog.get b BlockHdr.payloadCap
  Prog.emit (.copy (nb + blockHdrSize) (b + blockHdrSize) bCap)
  let nbCap ← Prog.get nb BlockHdr.payloadCap
  clearExtra nb bCap (sub64 nbCap bCap)

/-- Give `nb` the identity of `b`, and persist payload and header. -/
def copyIdentity (b nb : Nat) : Prog Unit := do
  let typeTag ← Prog.get b BlockHdr.typeTag
  Prog.set nb BlockHdr.typeTag typeTag
  let owner ← Prog.get b BlockHdr.owner
  Prog.set nb BlockHdr.owner owner
  let perms ← Prog.get b BlockHdr.perms
  Prog.set nb BlockHdr.perms perms
  let objId ← Prog.get b BlockHdr.objId
  Prog.set nb BlockHdr.objId objId
  let nbCap ← Prog.get nb BlockHdr.payloadCap
  shmPersist (nb + blockHdrSize) nbCap
  shmPersist nb blockHdrSize

/-- Point the slot at `nb`. -/
def retargetSlot (slot nb : Nat) : Prog Unit := do
  let off ← shmPoffOfBlk nb
  Prog.set slot ObjEntry.off off
  let nbCap ← Prog.get nb BlockHdr.payloadCap
  Prog.set slot ObjEntry.capacity nbCap

/-- Move the object of `b` to the freshly allocated `nb`. -/
def relocateTo (slot b nb : Nat) : Prog Unit := do
  copyPayload b nb
  copyIdentity b nb
  heapFreeBlock b
  retargetSlot slot nb

/-- The end of every successful resize. -/
def finishResize (slot newSize : Nat) : Prog Rc := do
  Prog.set slot ObjEntry.usedSize newSize
  shmPersist slot objEntrySize
  shmDrain
  unlockReturn .ok

/-- `slot->capacity = b->payload_cap;` and the end of a resize that did not move the block. -/
def finishInPlace (slot b newSize : Nat) : Prog Rc := do
  let cap ← Prog.get b BlockHdr.payloadCap
  Prog.set slot ObjEntry.capacity cap
  finishResize slot newSize

/-- The relocating part of the grow path. -/
def growByMoving (slot b newTotal newSize : Nat) : Prog Rc := do
  match ← heapAllocBlock newTotal with
  | none => unlockReturn .enomem
  | some nb => do
    relocateTo slot b nb
    finishResize slot newSize

/-- `shm_resize` from the point where access is granted. -/
def resizeObject (r : Region) (newSize slot : Nat) : Prog Rc := do
  let off ← Prog.get slot ObjEntry.off
  let b ← shmBlkOfPoff off
  let newTotal := shmAlignUp (add64 blockHdrSize newSize) HEAP_ALIGN
  let total ← Prog.get b BlockHdr.totalSize
  if newTotal ≤ total then do
    shrinkBlock b newTotal total
    finishInPlace slot b newSize
  else do
    let grew ← growInPlace r b newTotal
    if grew then finishInPlace slot b newSize else growByMoving slot b newTotal newSize

def shmResize (region : Option Region) (objId newSize : Nat) (userId callerPerms : UInt32) :
    Prog Rc :=
  match region with
  | none => return .einval
  | some r =>
    if objId = 0 ∨ newSize = 0 then return .einval
    else do
      regionLock r
      withEntry objId userId callerPerms SHM_PERM_RESIZE (resizeObject r newSize)

/-! ## Lookup -/

/-- `if (out) *out = v;` -/
def setOut (given : Bool) (i v : Nat) : Prog Unit :=
  if given then Prog.emit (.out i v) else return ()

/-- The end of `shm_lookup`. -/
def answerLookup (outOff outUsedSize : Bool) (slot : Nat) : Prog Rc := do
  let off ← Prog.get slot ObjEntry.off
  setOut outOff 0 off
  let used ← Prog.get slot ObjEntry.usedSize
  setOut outUsedSize 1 used
  unlockReturn .ok

def shmLookup (region : Option Region) (objId : Nat) (userId callerPerms : UInt32)
    (outOff outUsedSize : Bool) : Prog Rc :=
  match region with
  | none => return .einval
  | some r =>
    if objId = 0 then return .einval
    else do
      regionLock r
      withEntry objId userId callerPerms SHM_PERM_READ (answerLookup outOff outUsedSize)

/-- The end of `shm_lookup_by_name`. -/
def answerLookupByName (outId outOff : Bool) (slot : Nat) : Prog Rc := do
  let id ← Prog.get slot ObjEntry.id
  setOut outId 0 id
  let off ← Prog.get slot ObjEntry.off
  setOut outOff 1 off
  unlockReturn .ok

/-- `shm_lookup_by_name` under the lock. -/
def lookupByNameLocked (name : CStr) (userId callerPerms : UInt32) (outId outOff : Bool) :
    Prog Rc := do
  match ← dirFindByName name with
  | none => unlockReturn .enoent
  | some slot => do
    let acc ← checkDirAccess slot userId callerPerms SHM_PERM_READ
    if acc = .ok then answerLookupByName outId outOff slot else unlockReturn acc

def shmLookupByName (region : Option Region) (name : Option CStr)
    (userId callerPerms : UInt32) (outId outOff : Bool) : Prog Rc :=
  match region, name with
  | some r, some s => do
    regionLock r
    lookupByNameLocked s userId callerPerms outId outOff
  | _, _ => return .einval

/-! ## Directory iteration -/

/-- `shm_dir_entry_t`. -/
structure DirEntry where
  id : Nat
  off : Nat
  capacity : Nat
  usedSize : Nat
  typeTag : Nat
  owner : Nat
  perms : Nat
  /-- The `DIR_NAME_MAX` bytes of the name. -/
  name : List UInt8
  deriving DecidableEq, Repr

/-- What `shm_dir_next` answers: its code, the cursor it leaves, and what it wrote to `*out`. -/
structure DirNext where
  rc : Rc
  cursor : Nat
  out : Option DirEntry
  deriving DecidableEq, Repr

/-- The bytes `strncpy(dst, src, n)` writes for the string at `src` in the mapping. -/
def strncpyFrom (src : Nat) : Nat → Prog (List UInt8)
  | 0 => return []
  | n + 1 => do
    let c ← Prog.load src 1
    if c = 0 then return List.replicate (n + 1) 0
    else do
      let rest ← strncpyFrom (src + 1) n
      return UInt8.ofNat c :: rest

/-- Copy the entry at `e` to the caller. -/
def snapshotEntry (e : Nat) : Prog DirEntry := do
  let id ← Prog.get e ObjEntry.id
  let off ← Prog.get e ObjEntry.off
  let capacity ← Prog.get e ObjEntry.capacity
  let usedSize ← Prog.get e ObjEntry.usedSize
  let typeTag ← Prog.get e ObjEntry.typeTag
  let owner ← Prog.get e ObjEntry.owner
  let perms ← Prog.get e ObjEntry.perms
  let name ← strncpyFrom (e + ObjEntry.name) (DIR_NAME_MAX - 1)
  return { id, off, capacity, usedSize, typeTag, owner, perms, name := name ++ [0] }

/-- The loop of `shm_dir_next`, with `n` slots left to look at. -/
def dirNextFrom : Nat → Nat → Prog DirNext
  | 0, cursor => return ⟨.enoent, cursor, none⟩
  | n + 1, cursor => do
    let e ← shmDirSlot cursor
    let alive ← Prog.get e ObjEntry.alive
    let id ← Prog.get e ObjEntry.id
    if alive ≠ 0 ∧ id ≠ 0 then do
      let out ← snapshotEntry e
      return ⟨.ok, cursor + 1, some out⟩
    else dirNextFrom n (cursor + 1)

/-- `shm_dir_next`; `none` for a cursor that is the null pointer. -/
def shmDirNext (region : Option Region) (cursor : Option Nat) (out : Bool) : Prog DirNext :=
  match region, cursor, out with
  | some _, some k, true => do
    let cap ← Prog.get shmRh RegionHdr.dirCapacity
    dirNextFrom (cap - k) k
  | _, _, _ => return ⟨.einval, cursor.getD 0, none⟩

/-! ## Direct access -/

/-- `shm_ptr`; `none` is the null pointer. -/
def shmPtr (region : Option Region) (off : Nat) (userId callerPerms requiredPerms : UInt32) :
    Prog (Option Nat) :=
  match region with
  | none => return none
  | some r => do
    let b ← shmBlkOfPoff off
    let acc ← checkBlockAccess r b userId callerPerms requiredPerms
    if acc = .ok then return some (b + blockHdrSize) else return none

/-- `if (out) *out = b->f;` -/
def outField (given : Bool) (i b : Nat) (f : CField) : Prog Unit :=
  if given then do
    let v ← Prog.get b f
    Prog.emit (.out i v)
  else return ()

/-- `shm_block_info` from the point where the magic word has been seen. -/
def answerBlockInfo (b : Nat) (outPayloadCap outOwner outPerms outTypeTag outObjId : Bool) :
    Prog Rc := do
  outField outPayloadCap 0 b BlockHdr.payloadCap
  outField outOwner 1 b BlockHdr.owner
  outField outPerms 2 b BlockHdr.perms
  outField outTypeTag 3 b BlockHdr.typeTag
  outField outObjId 4 b BlockHdr.objId
  return .ok

/-- `shm_block_info` from the point where the header pointer is known. -/
def blockInfoAt (r : Region) (b : Nat)
    (outPayloadCap outOwner outPerms outTypeTag outObjId : Bool) : Prog Rc :=
  if isNull r b then return .einval
  else do
    let magic ← Prog.get b BlockHdr.magic
    if magic ≠ SHM_ALLOC_MAGIC_BLOCK then return .einval
    else answerBlockInfo b outPayloadCap outOwner outPerms outTypeTag outObjId

/-- `shm_block_info`; the `Bool` arguments say which out-pointers are non-null. -/
def shmBlockInfo (region : Option Region) (off : Nat)
    (outPayloadCap outOwner outPerms outTypeTag outObjId : Bool) : Prog Rc :=
  match region with
  | none => return .einval
  | some r => do
    let b ← shmBlkOfPoff off
    blockInfoAt r b outPayloadCap outOwner outPerms outTypeTag outObjId

/-- The second half of `shm_block_set_perms`: the copy of the permissions in the directory. -/
def setEntryPerms (newPerms : UInt32) : Option Nat → Prog Unit
  | none => return ()
  | some slot => do
    Prog.set slot ObjEntry.perms newPerms.toNat
    shmPersist slot objEntrySize

/-- `shm_block_set_perms` from the point where access is granted. -/
def setBlockPerms (newPerms : UInt32) (b : Nat) : Prog Rc := do
  Prog.set b BlockHdr.perms newPerms.toNat
  shmPersist b blockHdrSize
  let objId ← Prog.get b BlockHdr.objId
  let slot ← dirFindById objId
  setEntryPerms newPerms slot
  shmDrain
  unlockReturn .ok

def shmBlockSetPerms (region : Option Region) (off : Nat) (userId callerPerms newPerms : UInt32) :
    Prog Rc :=
  match region with
  | none => return .einval
  | some r => do
    regionLock r
    let b ← shmBlkOfPoff off
    let acc ← checkBlockAccess r b userId callerPerms SHM_PERM_WRITE
    if acc = .ok then setBlockPerms newPerms b else unlockReturn acc

/-! ## Statistics -/

/-- `shm_pool_stats_t`. -/
structure PoolStats where
  totalBytes : Nat
  usedBytes : Nat
  freeBytes : Nat
  blockCount : Nat
  nextId : Nat
  hostCount : Nat
  dirCapacity : Nat
  dirUsed : Nat
  deriving DecidableEq, Repr

/-- `shm_pool_stats`; `none` stands for `EINVAL`. -/
def shmPoolStats (region : Option Region) : Prog (Option PoolStats) :=
  match region with
  | none => return none
  | some r => do
    let dataOff ← Prog.get shmRh RegionHdr.dataOffset
    let used ← Prog.get shmRh RegionHdr.usedBytes
    Prog.emit (.sub (sub64 r.size dataOff) used)
    let count ← Prog.get shmRh RegionHdr.blockCount
    let nextId ← Prog.get shmRh RegionHdr.nextId
    let hosts ← Prog.get shmRh RegionHdr.hostCount
    let cap ← Prog.get shmRh RegionHdr.dirCapacity
    let live ← dirCountLive
    return some {
      totalBytes := sub64 r.size dataOff, usedBytes := used,
      freeBytes := sub64 (sub64 r.size dataOff) used, blockCount := count, nextId := nextId,
      hostCount := hosts, dirCapacity := cap, dirUsed := live }

end ShmAlloc
