import ShmAlloc.Layout

/-!
# The object directory and the access checks

`check_block_access`, `check_dir_access` and the linear scans of the directory
(`dir_find_by_id`, `dir_find_by_name`, `dir_find_free_slot`, `dir_count_live`) of
`src/shm_alloc.c`.

## What is here

* `checkOwner`: the rule the two access checks share.  They are two functions in the source, one for
  a block and one for an entry, and stay two here.
* `dirScan`: the loop the three searches share, with the test as a parameter; each search is
  `dirFind` with its test.
* `strcmpEq`: the comparison of a name, byte by byte.
* `countLiveFrom`: the loop that counts.

A scan takes the number of slots left as an argument and is structurally recursive in it.
-/

set_option autoImplicit false

namespace ShmAlloc

/-! ## Permission checking -/

/-- The part the two checks share, once the block or the entry is known to be live: `ADMIN`
bypasses everything; otherwise the caller must be the owner and both masks must contain all
required bits.  `owner` and `perms` are the stored fields. -/
def checkOwner (owner perms : Nat) (caller callerPerms required : UInt32) : Rc :=
  if callerPerms &&& SHM_PERM_ADMIN ≠ 0 then .ok
  else if caller.toNat ≠ owner then .eacces
  else if perms &&& required.toNat ≠ required.toNat then .eacces
  else if callerPerms &&& required ≠ required then .eacces
  else .ok

/-- `check_block_access`. -/
def checkBlockAccess (r : Region) (b : Nat) (caller callerPerms required : UInt32) :
    Prog Rc :=
  if isNull r b then return .einval
  else do
    let magic ← Prog.get b BlockHdr.magic
    if magic ≠ SHM_ALLOC_MAGIC_BLOCK then return .einval
    else do
      let allocated ← Prog.get b BlockHdr.allocated
      if allocated = 0 then return .einval
      else do
        let owner ← Prog.get b BlockHdr.owner
        let perms ← Prog.get b BlockHdr.perms
        return checkOwner owner perms caller callerPerms required

/-- `check_dir_access`. -/
def checkDirAccess (e : Nat) (caller callerPerms required : UInt32) : Prog Rc := do
  let alive ← Prog.get e ObjEntry.alive
  let id ← Prog.get e ObjEntry.id
  if alive = 0 ∨ id = 0 then return .enoent
  else do
    let owner ← Prog.get e ObjEntry.owner
    let perms ← Prog.get e ObjEntry.perms
    return checkOwner owner perms caller callerPerms required

/-! ## Scans -/

/-- The loop the three searches share: the first slot from `i` on, of `n` left to look at, that
passes the test. -/
def dirScan (test : Nat → Prog Bool) : Nat → Nat → Prog (Option Nat)
  | 0, _ => return none
  | n + 1, i => do
    let e ← shmDirSlot i
    let found ← test e
    if found then return some e else dirScan test n (i + 1)

/-- The first slot of the directory that passes the test. -/
def dirFind (test : Nat → Prog Bool) : Prog (Option Nat) := do
  let cap ← Prog.get shmRh RegionHdr.dirCapacity
  dirScan test cap 0

/-- `e->id == obj_id && e->alive`. -/
def hasId (objId e : Nat) : Prog Bool := do
  let id ← Prog.get e ObjEntry.id
  let alive ← Prog.get e ObjEntry.alive
  return id == objId && alive != 0

def dirFindById (objId : Nat) : Prog (Option Nat) := dirFind (hasId objId)

/-- `strcmp(p, s) == 0` for the string at `p`: the bytes of `s`, then a NUL. -/
def strcmpEq (p : Nat) : List UInt8 → Prog Bool
  | [] => do
    let c ← Prog.load p 1
    return c == 0
  | x :: xs => do
    let c ← Prog.load p 1
    if c = x.toNat then strcmpEq (p + 1) xs else return false

/-- `e->alive && strcmp(e->name, name) == 0`. -/
def hasName (name : CStr) (e : Nat) : Prog Bool := do
  let alive ← Prog.get e ObjEntry.alive
  if alive = 0 then return false else strcmpEq (e + ObjEntry.name) name.1

def dirFindByName (name : CStr) : Prog (Option Nat) := dirFind (hasName name)

/-- `e->id == 0 || !e->alive`. -/
def isFreeSlot (e : Nat) : Prog Bool := do
  let id ← Prog.get e ObjEntry.id
  let alive ← Prog.get e ObjEntry.alive
  return id == 0 || alive == 0

def dirFindFreeSlot : Prog (Option Nat) := dirFind isFreeSlot

/-- The loop of `dir_count_live`. -/
def countLiveFrom : Nat → Nat → Nat → Prog Nat
  | 0, _, count => return count
  | n + 1, i, count => do
    let e ← shmDirSlot i
    let alive ← Prog.get e ObjEntry.alive
    countLiveFrom n (i + 1) (if alive ≠ 0 then count + 1 else count)

def dirCountLive : Prog Nat := do
  let cap ← Prog.get shmRh RegionHdr.dirCapacity
  countLiveFrom cap 0 0

end ShmAlloc
