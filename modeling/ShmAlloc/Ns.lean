import ShmAlloc.Lib.Stream

/-!
# The cgroup fingerprint

`shm_ns_cgroup_hash` of `src/shm_ns.c`.  What the call sees of the system is whether
`/proc/self/cgroup` opens, and what `read` answers then: some bytes, none at the end of the file, or
an error.  The source stops at the first answer that is not positive and does not ask which it was,
and `hashReads` does the same.
-/

set_option autoImplicit false

namespace ShmAlloc

open Stream

def FNV_OFFSET_BASIS : UInt64 := 14695981039346656037

def FNV_PRIME : UInt64 := 1099511628211

/-- What `read(fd, buf, sizeof(buf))` answers, call by call, for `char buf[256]`. -/
abbrev CgroupReads : Type := Reads UInt8 256

/-- The inner loop: `hash ^= (uint8_t)buf[i]; hash *= FNV_PRIME;`. -/
def hashBuf : UInt64 → List UInt8 → UInt64
  | hash, [] => hash
  | hash, b :: buf => hashBuf ((hash ^^^ b.toUInt64) * FNV_PRIME) buf

/-- The outer loop: `while ((n = read(fd, buf, sizeof(buf))) > 0)`. -/
def hashReads : UInt64 → CgroupReads → UInt64 := Reads.run hashBuf

/-- `none` is an `open` that fails. -/
def shmNsCgroupHash : Option CgroupReads → UInt64
  | none => 0
  | some rs =>
    let hash := hashReads FNV_OFFSET_BASIS rs
    -- the error of the last `read`, if any, is not looked at
    if hash ≠ 0 then hash else 1

end ShmAlloc
