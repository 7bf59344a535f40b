import ShmAlloc.RegionInit

/-!
# Opening and closing a region

`shm_region_open` and `shm_region_close` of `src/shm_alloc.c`.  What a call sees of the system is a
`World`: the POSIX shared-memory namespace, a map from names to objects, and the contents of device
files.  What the system answers to a call that opens is an `Answers`.  File descriptors, the heap
copy of the name and the mode bits are not modelled: nothing a call returns or leaves behind depends
on them.

## What is here

* `ShmObj`, `World` and its operations `link`, `unlink`, `bytes` and `setBytes`.
* `Answers`: the error of each system call, if it has one, and the address of a mapping, with what
  the manual promises about addresses as fields of `Mapping`.
* `OpenOpts`: the options, with the defaults of a null pointer.
* `openBacking`: open or create the file and find the size to map.
* `mapRegion` and `enterRegion`: map it, and initialise the region or check its header.
* `discard`: the clean-up of a call that fails.
* `shmRegionOpen` and `shmRegionClose`.
-/

set_option autoImplicit false

namespace ShmAlloc

/-! ## The system -/

/-- A nonzero error number. -/
abbrev Errno := { n : Nat // n ≠ 0 }

def EPERM : Errno := ⟨1, by decide⟩
def ENOENT : Errno := ⟨2, by decide⟩
def ENOMEM : Errno := ⟨12, by decide⟩
def EINVAL : Errno := ⟨22, by decide⟩

/-- `shm_backend_t`. -/
inductive Backend
  | posix | dax
  deriving DecidableEq, Repr

/-- The number of the enumeration constant. -/
def Backend.code : Backend → Nat
  | posix => 0
  | dax => 1

/-- A shared-memory object: which one it is, its size and its bytes. -/
structure ShmObj where
  ino : Nat
  size : Nat
  bytes : Mem

/-- What a new object, or the end of one that grows, is filled with. -/
def zeros : Mem := fun _ => 0

/-- `ftruncate` on an object. -/
def ShmObj.truncate (o : ShmObj) (size : Nat) : ShmObj :=
  { o with size, bytes := fun x => if x < o.size ∧ x < size then o.bytes x else 0 }

/-- What a process can find by name. -/
structure World where
  /-- The POSIX shared-memory namespace. -/
  shm : CStr → Option ShmObj
  /-- The contents of device files. -/
  dev : CStr → Mem

namespace World

/-- Set what a name is linked to. -/
def link (w : World) (name : CStr) (o : Option ShmObj) : World :=
  { w with shm := fun s => if s = name then o else w.shm s }

/-- `shm_unlink`. -/
def unlink (w : World) (name : CStr) : World := w.link name none

/-- The bytes a mapping of the file shows. -/
def bytes (w : World) (backend : Backend) (name : CStr) : Mem :=
  match backend with
  | .posix => ((w.shm name).map ShmObj.bytes).getD zeros
  | .dax => w.dev name

/-- What programs that write through a mapping of the file leave. -/
def setBytes (w : World) (backend : Backend) (name : CStr) (m : Mem) : World :=
  match backend with
  | .posix => w.link name ((w.shm name).map fun o => { o with bytes := m })
  | .dax => { w with dev := fun s => if s = name then m else w.dev s }

end World

/-- A mapping of `size` bytes, as `mmap` returns it. -/
structure Mapping (size : Nat) where
  base : Nat
  /-- `mmap` returns page-aligned addresses. -/
  aligned : base % 4096 = 0
  /-- `mmap` does not return address 0. -/
  pos : 0 < base
  /-- The mapping ends inside the address space. -/
  fits : base + size ≤ 2 ^ 64

/-- The handle for a mapping. -/
def Mapping.handle {size : Nat} (map : Mapping size) (lockRc : LockRc) : Region :=
  ⟨map.base, size, lockRc, map.aligned, map.pos, map.fits⟩

/-- What the system answers to one call of `shm_region_open`. -/
structure Answers where
  /-- `calloc` does not return null. -/
  calloc : Bool
  /-- `strdup` does not return null. -/
  strdup : Bool
  /-- The error of `shm_open` or `open`, apart from a name that is not there. -/
  openErr : Option Errno
  /-- The identity of an object that `shm_open` creates. -/
  newIno : Nat
  /-- The error of `ftruncate`. -/
  ftruncate : Option Errno
  /-- The error of `fstat`, or `st_size`. -/
  fstat : Except Errno Nat
  mmap : (size : Nat) → Except Errno (Mapping size)
  /-- The answer of the mutex. -/
  lockRc : LockRc
  /-- `shm_ns_ipc_inode()`. -/
  nsInode : Nat
  /-- `shm_ns_cgroup_hash()`. -/
  cgroupHash : Nat

/-! ## Options -/

def SHM_OPEN_CREATE : UInt32 := 0x01
def SHM_OPEN_ENFORCE_NS : UInt32 := 0x02
def SHM_OPEN_ENFORCE_CGROUP : UInt32 := 0x04

abbrev DIR_CAP_DEFAULT : UInt32 := 256

/-- `shm_region_open_opts_t`; its defaults are those of a null pointer. -/
structure OpenOpts where
  backend : Backend := .posix
  flags : UInt32 := 0
  dirCapacity : UInt32 := 0
  deriving DecidableEq, Repr

namespace OpenOpts

def creating (o : OpenOpts) : Bool := o.flags &&& SHM_OPEN_CREATE != 0

/-- `if (dir_cap == 0) dir_cap = DIR_CAP_DEFAULT;` -/
def dirCap (o : OpenOpts) : UInt32 := if o.dirCapacity = 0 then DIR_CAP_DEFAULT else o.dirCapacity

end OpenOpts

/-! ## The backing file

The two backends differ in where the size comes from: a POSIX object is set to the size asked for or
asked for the size it has, a device has whatever it says. -/

/-- Open the shared-memory object, create it, resize it or ask for its size: the size to map. -/
def openPosix (env : Answers) (w : World) (name : CStr) (creating : Bool) (size : Nat) :
    Except Errno Nat × World :=
  match env.openErr with
  | some e => (.error e, w)
  | none =>
    if creating then
      let o := (w.shm name).getD ⟨env.newIno, 0, zeros⟩
      if 4096 ≤ size then
        match env.ftruncate with
        | some e => (.error e, (w.link name (some o)).unlink name)
        | none => (.ok size, w.link name (some (o.truncate size)))
      else (.ok size, w.link name (some o))
    else
      match w.shm name, env.fstat with
      | none, _ => (.error ENOENT, w)
      | some _, .error e => (.error e, w)
      | some _, .ok stSize => (.ok stSize, w)

/-- Open the device file: the size to map. -/
def openDax (env : Answers) (w : World) (size : Nat) : Except Errno Nat × World :=
  match env.openErr with
  | some e => (.error e, w)
  | none =>
    if size < 4096 then
      match env.fstat with
      | .ok stSize => (.ok (if 0 < stSize then stSize else 2 <<< 20), w)
      | .error _ => (.ok (2 <<< 20), w)
    else (.ok size, w)

def openBacking (env : Answers) (w : World) (name : CStr) (o : OpenOpts) (size : Nat) :
    Except Errno Nat × World :=
  match o.backend with
  | .posix => openPosix env w name o.creating size
  | .dax => openDax env w size

/-- `if (backend == SHM_BACKEND_POSIX && creating) shm_unlink(name_or_path);` -/
def discard (w : World) (name : CStr) (o : OpenOpts) : World :=
  if o.backend = .posix ∧ o.creating = true then w.unlink name else w

/-! ## The mapping -/

/-- One of the two fingerprint checks: the flag is set, and both fingerprints are there and
differ. -/
def fingerprintDiffers (flags flag : UInt32) (stored mine : Nat) : Bool :=
  flags &&& flag != 0 && stored != 0 && mine != 0 && mine != stored

/-- Check the header of an existing region: the error, if any. -/
def checkHeader (env : Answers) (flags : UInt32) : Prog (Option Errno) := do
  let magic ← Prog.get shmRh RegionHdr.magic
  let version ← Prog.get shmRh RegionHdr.version
  if magic ≠ SHM_ALLOC_MAGIC_REGION ∨ version ≠ SHM_ALLOC_VERSION then return some ENOENT
  else do
    let nsInode ← Prog.get shmRh RegionHdr.nsInode
    if fingerprintDiffers flags SHM_OPEN_ENFORCE_NS nsInode env.nsInode then return some EPERM
    else do
      let cgroupHash ← Prog.get shmRh RegionHdr.cgroupHash
      if fingerprintDiffers flags SHM_OPEN_ENFORCE_CGROUP cgroupHash env.cgroupHash then
        return some EPERM
      else return none

/-- Count this process among the attached ones. -/
def countHost (r : Region) : Prog Unit := do
  regionLock r
  let hosts ← Prog.get shmRh RegionHdr.hostCount
  Prog.set shmRh RegionHdr.hostCount (hosts + 1)
  shmPersist (shmRh + RegionHdr.hostCount.off) 4
  shmDrain
  regionUnlock

/-- Count this process out again: what `shm_region_close` does to the region. -/
def uncountHost (r : Region) : Prog Unit := do
  regionLock r
  let hosts ← Prog.get shmRh RegionHdr.hostCount
  if hosts > 0 then do
    Prog.set shmRh RegionHdr.hostCount (hosts - 1)
    shmPersist (shmRh + RegionHdr.hostCount.off) 4
    shmDrain
    regionUnlock
  else regionUnlock

/-- `shm_region_open` from the point where the file is mapped. -/
def enterRegion (env : Answers) (w : World) (name : CStr) (o : OpenOpts) (r : Region) :
    Except Errno Region × World :=
  if o.creating then
    (.ok r, w.setBytes o.backend name ((do
      regionInit r.size o.backend.code o.dirCap.toNat (some name) env.nsInode env.cgroupHash
      countHost r : Prog Unit).mem (w.bytes o.backend name)))
  else
    match (checkHeader env o.flags).val (w.bytes o.backend name) with
    | some e => (.error e, w)
    | none => (.ok r, w.setBytes o.backend name ((countHost r).mem (w.bytes o.backend name)))

/-- `shm_region_open` from the point where the size is known. -/
def mapRegion (env : Answers) (w : World) (name : CStr) (o : OpenOpts) (size : Nat) :
    Except Errno Region × World :=
  if size < 4096 then (.error EINVAL, discard w name o)
  else
    match env.mmap size with
    | .error e => (.error e, discard w name o)
    | .ok map => enterRegion env w name o (map.handle env.lockRc)

/-- `shm_region_open` from the point where the arguments are checked and copied. -/
def openNamed (env : Answers) (w : World) (name : CStr) (o : OpenOpts) (size : Nat) :
    Except Errno Region × World :=
  match openBacking env w name o size with
  | (.error e, w') => (.error e, w')
  | (.ok size', w') => mapRegion env w' name o size'

/-- The code returned, 0 being a handle, and the world the call leaves. -/
def shmRegionOpen (env : Answers) (w : World) (nameOrPath : Option CStr) (size : Nat)
    (opts : Option OpenOpts) (outRegion : Bool) : Except Errno Region × World :=
  match nameOrPath with
  | none => (.error EINVAL, w)
  | some name =>
    if outRegion = false then (.error EINVAL, w)
    else if env.calloc = false ∨ env.strdup = false then (.error ENOMEM, w)
    else openNamed env w name (opts.getD {}) size

/-! ## Closing -/

/-- `shm_region_close` of a handle that was opened on this file: the world the call leaves. -/
def shmRegionClose (w : World) (backend : Backend) (name : CStr) (region : Option Region)
    (unlinkName : Bool) : World :=
  match region with
  | none => w
  | some r =>
    let w' := w.setBytes backend name ((uncountHost r).mem (w.bytes backend name))
    if unlinkName = true ∧ backend = .posix then w'.unlink name else w'

end ShmAlloc
