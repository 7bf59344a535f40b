import ShmAlloc.Api

/-!
# The capability layer

`include/shm_cap.h` and `src/shm_cap.c`: 128-bit software capabilities over the allocator.  The tag
bit is not in the capability but in the block header, so every dereference reads the header again.

## What is here

* `Cap`: a capability, an offset and a meta word.
* `capMetaPack`, `metaPerms`, `metaEpoch` and `metaBounds`: the packing of the meta word, by shifts
  and masks as in the header file.
* `isLiveBlk` and `matchesMeta`: what derivation, dereference and `shm_cap_is_valid` ask of a
  header.
* `shmCapDerive`, `shmCapDeref` and `shmCapNarrow`, and the functions that read a capability.

Permissions, owner and meta word are machine words, since the code cuts them by conversion.
-/

set_option autoImplicit false

namespace ShmAlloc

/-- `shm_cap_t`. -/
structure Cap where
  /-- Word 0: the payload offset. -/
  addr : Nat
  /-- Word 1, `meta`: sealed permissions, owner byte, epoch and bounds. -/
  metaWord : UInt64
  deriving DecidableEq, Repr

def SHM_CAP_NULL : Cap := ⟨0, 0⟩

/-! ## The meta word -/

def SHM_CAP_META_PERMS_SHIFT : UInt64 := 56
def SHM_CAP_META_OWNER_SHIFT : UInt64 := 48
def SHM_CAP_META_EPOCH_SHIFT : UInt64 := 32
def SHM_CAP_META_BOUNDS_SHIFT : UInt64 := 0

def SHM_CAP_META_PERMS_MASK : UInt64 := 0xFF <<< SHM_CAP_META_PERMS_SHIFT
def SHM_CAP_META_OWNER_MASK : UInt64 := 0xFF <<< SHM_CAP_META_OWNER_SHIFT
def SHM_CAP_META_EPOCH_MASK : UInt64 := 0xFFFF <<< SHM_CAP_META_EPOCH_SHIFT
def SHM_CAP_META_BOUNDS_MASK : UInt64 := 0xFFFFFFFF

def capMetaPack (perms ownerLo : UInt8) (epoch : UInt16) (bounds : UInt32) : UInt64 :=
  perms.toUInt64 <<< SHM_CAP_META_PERMS_SHIFT ||| ownerLo.toUInt64 <<< SHM_CAP_META_OWNER_SHIFT |||
    epoch.toUInt64 <<< SHM_CAP_META_EPOCH_SHIFT ||| bounds.toUInt64 <<< SHM_CAP_META_BOUNDS_SHIFT

def metaPerms (w : UInt64) : UInt8 :=
  ((w &&& SHM_CAP_META_PERMS_MASK) >>> SHM_CAP_META_PERMS_SHIFT).toUInt8

def metaEpoch (w : UInt64) : UInt16 :=
  ((w &&& SHM_CAP_META_EPOCH_MASK) >>> SHM_CAP_META_EPOCH_SHIFT).toUInt16

def metaBounds (w : UInt64) : UInt32 := (w &&& SHM_CAP_META_BOUNDS_MASK).toUInt32

def shmCapIsNull (cap : Cap) : Bool := cap.addr == 0 && cap.metaWord == 0

/-! ## Checks on the header -/

/-- `b` is a block, and its tag bit is set: `b && b->magic == SHM_ALLOC_MAGIC_BLOCK` and
`b->allocated`. -/
def isLiveBlk (r : Region) (b : Nat) : Prog Bool :=
  if isNull r b then return false
  else do
    let magic ← Prog.get b BlockHdr.magic
    if magic ≠ SHM_ALLOC_MAGIC_BLOCK then return false
    else do
      let allocated ← Prog.get b BlockHdr.allocated
      return allocated != 0

/-- The header still has the epoch and the bounds of the capability. -/
def matchesMeta (b : Nat) (cap : Cap) : Prog Bool := do
  let objId ← Prog.get b BlockHdr.objId
  if UInt16.ofNat (objId &&& 0xFFFF) ≠ metaEpoch cap.metaWord then return false
  else do
    let payloadCap ← Prog.get b BlockHdr.payloadCap
    return UInt32.ofNat payloadCap == metaBounds cap.metaWord

/-! ## Derivation -/

/-- `shm_cap_derive` from the point where the permissions are available. -/
def sealCap (off b : Nat) (grantPerms : UInt32) : Prog Cap := do
  let payloadCap ← Prog.get b BlockHdr.payloadCap
  if 0xFFFFFFFF < payloadCap then return SHM_CAP_NULL
  else do
    let owner ← Prog.get b BlockHdr.owner
    let objId ← Prog.get b BlockHdr.objId
    return ⟨off, capMetaPack (grantPerms &&& 0xFF).toUInt8 (UInt8.ofNat (owner &&& 0xFF))
      (UInt16.ofNat (objId &&& 0xFFFF)) (UInt32.ofNat payloadCap)⟩

/-- `shm_cap_derive` from the point where the block is known to be live. -/
def deriveFrom (off b : Nat) (userId callerPerms grantPerms : UInt32) : Prog Cap := do
  let owner ← Prog.get b BlockHdr.owner
  if callerPerms &&& SHM_PERM_ADMIN = 0 ∧ userId.toNat ≠ owner then return SHM_CAP_NULL
  else do
    let perms ← Prog.get b BlockHdr.perms
    if grantPerms.toNat &&& (perms &&& callerPerms.toNat) ≠ grantPerms.toNat then
      return SHM_CAP_NULL
    else sealCap off b grantPerms

def shmCapDerive (region : Option Region) (off : Nat) (userId callerPerms grantPerms : UInt32) :
    Prog Cap :=
  match region with
  | none => return SHM_CAP_NULL
  | some r => do
    let b ← shmBlkOfPoff off
    let live ← isLiveBlk r b
    if live then deriveFrom off b userId callerPerms grantPerms else return SHM_CAP_NULL

/-! ## Dereference -/

/-- The permission checks of `shm_cap_deref`: the sealed permissions, then those of the block. -/
def derefPerms (b : Nat) (cap : Cap) (requiredPerms : UInt32) : Prog (Option Nat) :=
  if (metaPerms cap.metaWord).toUInt32 &&& requiredPerms ≠ requiredPerms then return none
  else do
    let perms ← Prog.get b BlockHdr.perms
    if perms &&& requiredPerms.toNat ≠ requiredPerms.toNat then return none
    else return some (b + blockHdrSize)

/-- `shm_cap_deref`; `none` is the null pointer. -/
def shmCapDeref (region : Option Region) (cap : Cap) (requiredPerms : UInt32) :
    Prog (Option Nat) :=
  if shmCapIsNull cap then return none
  else match region with
  | none => return none
  | some r => do
    let b ← shmBlkOfPoff cap.addr
    let live ← isLiveBlk r b
    if live then do
      let ok ← matchesMeta b cap
      if ok then derefPerms b cap requiredPerms else return none
    else return none

/-! ## Narrowing -/

def shmCapNarrow (cap : Cap) (newPerms : UInt32) : Cap :=
  if shmCapIsNull cap then SHM_CAP_NULL
  else if newPerms &&& (metaPerms cap.metaWord).toUInt32 ≠ newPerms then SHM_CAP_NULL
  else ⟨cap.addr, (cap.metaWord &&& ~~~SHM_CAP_META_PERMS_MASK) |||
    (newPerms &&& 0xFF).toUInt64 <<< SHM_CAP_META_PERMS_SHIFT⟩

/-! ## Introspection -/

def shmCapIsValid (region : Option Region) (cap : Cap) : Prog Bool :=
  if shmCapIsNull cap then return false
  else match region with
  | none => return false
  | some r => do
    let b ← shmBlkOfPoff cap.addr
    let live ← isLiveBlk r b
    if live then matchesMeta b cap else return false

def shmCapPerms (cap : Cap) : UInt32 := (metaPerms cap.metaWord).toUInt32

def shmCapBounds (cap : Cap) : Nat := (metaBounds cap.metaWord).toNat

def shmCapOffset (cap : Cap) : Nat := cap.addr

def shmCapEpoch (cap : Cap) : UInt16 := metaEpoch cap.metaWord

end ShmAlloc
