import ShmAlloc.Api
import ShmAlloc.Lib.Reads

/-!
# The C++ layer

`shm::alloc`, `shm::get_mut`, `shm::construct` and `shm::make` of `include/shm_alloc.hpp`, for any
type, and `shm::destroy` and `shm::free` for any class; `shm::get`, `shm::cast` and `shm::cast_dyn`,
and the lookups `shm::find` and `shm::find_by_name`.  A handle of type `shm::ptr<T>` is the offset
in it.

## What is here

* `CxxType`, `CxxClass` and `CxxCast`: what the templates are instantiated with.  A constructor and
  a destructor are any programs that write inside the object only, which is a field of the
  structure.
* `Prog.withLocal` and `Prog.withLocals`: a call whose out-pointers point to local variables.
* `Made`, `Destroyed` and `FoundNamed`: what the templates return and store.
* The functions, in the order of the header file, under their own names in the namespace `Cxx`.

Type tags are arguments: which number the compiler gives a type is left open.
-/

set_option autoImplicit false

namespace ShmAlloc

/-- `SHM_OFF_NULL`. -/
def SHM_OFF_NULL : Nat := 2 ^ 64 - 1

/-- A C++ type: what `sizeof` says, and its constructor, which does not throw and writes nothing but
the object it is run on. -/
structure CxxType where
  size : Nat
  size_pos : 0 < size
  size_lt : size < 2 ^ 63
  /-- `new (p) T(args…)`. -/
  init : Nat → Prog Unit
  init_inside : ∀ p m x, Writes ((init p).trace m) x → p ≤ x ∧ x < p + size

/-- A C++ class: a type, and its destructor, which does not throw and writes nothing but the object
it is run on. -/
structure CxxClass extends CxxType where
  /-- `p->~T()`. -/
  dtor : Nat → Prog Unit
  dtor_inside : ∀ p m x, Writes ((dtor p).trace m) x → p ≤ x ∧ x < p + size
  /-- `std::is_trivially_destructible_v<T>`. -/
  triviallyDestructible : Bool

/-- A conversion to a type `To`: `type_tag_of<To>()`, and what `static_cast<To *>`, or
`dynamic_cast<To *>` if the type of the handle is polymorphic, makes of a pointer.  The latter looks
at the object. -/
structure CxxCast where
  tag : UInt32
  convert : Nat → Prog (Option Nat)
  convert_reads : ∀ p, ReadsOnly (convert p)

/-- Call a function whose out-pointer `i` points to a local variable that holds `a`: its result and
what the variable holds then. -/
def Prog.withLocal (x : Prog Rc) (i a : Nat) : Prog (Rc × Nat) := fun m =>
  ((x.val m, (lastOut i (x.trace m)).getD a), x.trace m)

/-- Call a function whose two out-pointers point to local variables that hold `a` and `b`: its
result and what the variables hold then. -/
def Prog.withLocals (x : Prog Rc) (a b : Nat) : Prog (Rc × Nat × Nat) := fun m =>
  ((x.val m, (lastOut 0 (x.trace m)).getD a, (lastOut 1 (x.trace m)).getD b), x.trace m)

/-- What a call that makes an object returns, and what it stores in `*out`. -/
structure Made where
  rc : Rc
  out : Option Nat
  deriving DecidableEq, Repr

/-- What a call that destroys an object returns.  The memory does not show whether `~T()` has run,
so where it has is kept beside the code: `ran` are the addresses, in order. -/
structure Destroyed where
  rc : Rc
  ran : List Nat
  deriving DecidableEq, Repr

/-- What `shm::find_by_name` returns, and what it stores in `*out` and `*out_id`. -/
structure FoundNamed where
  rc : Rc
  out : Option Nat
  outId : Option Nat
  deriving DecidableEq, Repr

namespace Cxx

/-- `shm::alloc<T>`. -/
def alloc (T : CxxType) (region : Option Region) (userId perms : UInt32) (out : Bool)
    (name : Option CStr) (tag : UInt32) : Prog Made :=
  if region.isNone ∨ out = false then return ⟨.einval, none⟩
  else do
    let (rc, _, off) ←
      Prog.withLocals (shmAlloc region T.size name userId perms tag true true) 0 SHM_OFF_NULL
    if rc ≠ .ok then return ⟨rc, none⟩
    else return ⟨.ok, some off⟩

/-- `shm::get_mut<T>`. -/
def getMut (region : Option Region) (handle : Nat) (userId callerPerms : UInt32) :
    Prog (Option Nat) :=
  shmPtr region handle userId callerPerms (SHM_PERM_READ ||| SHM_PERM_WRITE)

/-- `shm::construct<T>`. -/
def construct (T : CxxType) (region : Option Region) (handle : Nat) (userId callerPerms : UInt32) :
    Prog Rc := do
  match ← getMut region handle userId callerPerms with
  | none => return .eacces
  | some p => do
    T.init p
    return .ok

/-- `shm::make<T>`. -/
def make (T : CxxType) (region : Option Region) (userId perms : UInt32) (out : Bool)
    (name : Option CStr) (tag : UInt32) : Prog Made := do
  let a ← alloc T region userId perms out name tag
  if a.rc ≠ .ok then return a
  else do
    let rc ← construct T region (a.out.getD SHM_OFF_NULL) userId perms
    return ⟨rc, a.out⟩

/-- `shm::destroy<T>`. -/
def destroy (T : CxxClass) (region : Option Region) (handle : Nat) (userId callerPerms : UInt32) :
    Prog Destroyed := do
  match ← getMut region handle userId callerPerms with
  | none => return ⟨.eacces, []⟩
  | some p => do
    T.dtor p
    return ⟨.ok, [p]⟩

/-- `shm::free<T>` from the point where the object is destroyed. -/
def freeStorage (region : Option Region) (handle : Nat) (userId callerPerms : UInt32) :
    Prog Rc := do
  let (_, objId) ←
    Prog.withLocal (shmBlockInfo region handle false false false false true) 4 0
  if objId = 0 then return .einval
  else shmFree region objId userId callerPerms

/-- `shm::free<T>`. -/
def free (T : CxxClass) (region : Option Region) (handle : Nat) (userId callerPerms : UInt32) :
    Prog Destroyed :=
  if T.triviallyDestructible then do
    let rc ← freeStorage region handle userId callerPerms
    return ⟨rc, []⟩
  else do
    let d ← destroy T region handle userId callerPerms
    if d.rc ≠ .ok then return d
    else do
      let rc ← freeStorage region handle userId callerPerms
      return ⟨rc, d.ran⟩

/-- `shm::get<T>`. -/
def get (region : Option Region) (handle : Nat) (userId callerPerms : UInt32) :
    Prog (Option Nat) :=
  shmPtr region handle userId callerPerms SHM_PERM_READ

/-- `shm::cast<To>`. -/
def cast (region : Option Region) (handle : Nat) (userId callerPerms required : UInt32) :
    Prog (Option Nat) :=
  shmPtr region handle userId callerPerms required

/-- `shm::cast_dyn<To>`. -/
def castDyn (T : CxxCast) (region : Option Region) (handle : Nat) (userId callerPerms : UInt32) :
    Prog (Option Nat) := do
  match ← shmPtr region handle userId callerPerms SHM_PERM_READ with
  | none => return none
  | some raw => do
    let (_, storedTag) ←
      Prog.withLocal (shmBlockInfo region handle false false false true false) 3 0
    if storedTag ≠ 0 ∧ storedTag ≠ T.tag.toNat then return none
    else T.convert raw

/-- `shm::find<T>`. -/
def find (region : Option Region) (objId : Nat) (userId callerPerms : UInt32) (out : Bool) :
    Prog Made :=
  if region.isNone ∨ out = false then return ⟨.einval, none⟩
  else do
    let (rc, off) ←
      Prog.withLocal (shmLookup region objId userId callerPerms true false) 0 SHM_OFF_NULL
    if rc ≠ .ok then return ⟨rc, none⟩
    else return ⟨.ok, some off⟩

/-- `shm::find_by_name<T>`. -/
def findByName (region : Option Region) (name : Option CStr) (userId callerPerms : UInt32)
    (out outId : Bool) : Prog FoundNamed :=
  if region.isNone ∨ name.isNone ∨ out = false then return ⟨.einval, none, none⟩
  else do
    let (rc, id, off) ←
      Prog.withLocals (shmLookupByName region name userId callerPerms true true) 0 SHM_OFF_NULL
    if rc ≠ .ok then return ⟨rc, none, none⟩
    else return ⟨.ok, some off, if outId then some id else none⟩

end Cxx

end ShmAlloc
