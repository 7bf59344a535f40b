import ShmAlloc.Lib.Registry
import ShmAlloc.Region.Iterate
import ShmAlloc.Region.Texts

/-!
# The object store

What the allocator is for, without memory, lists of blocks or slots: a registry of objects, each
with its bytes, which users look up, resize and free by id.  `Does` says what a call may answer and
what it leaves.  Three things are left open, since they depend on how the heap is cut up: whether
there is room, where an object is put, and what the bytes are that nobody has written.

## What is here

* `Obj` and `Store`: objects under their ids.
* `Store.Ok`: ids in use have been handed out, and no two objects share a byte.
* `LockedCall.verdict`: what the rules of access say of a call and an object it is about.
* `Does`: **what the store does**, one constructor for each outcome, failures included.
* `StoreRun`: any number of calls and of writes, one after the other.
* `Does.ok`, `Does.gone` and `Does.get_eq`: **a call keeps the objects apart, leaves ids gone that
  are gone, and leaves the objects alone that it is not about.**

This is a statement of purpose and not a translation of code.  That the code does it is proved in
`Guarantees/Refinement`.
-/

set_option autoImplicit false

namespace ShmAlloc

/-! ## Objects -/

/-- An object, as its users see it. -/
structure Obj where
  /-- The offset of its bytes. -/
  place : Nat
  /-- The capacity on record. -/
  cap : Nat
  tag : Nat
  owner : Nat
  perms : Nat
  name : List UInt8
  data : List UInt8

/-- The objects share no byte. -/
def Obj.Apart (o p : Obj) : Prop :=
  o.place ≠ p.place ∧
    (o.place + o.data.length ≤ p.place ∨ p.place + p.data.length ≤ o.place)

/-- Objects under their ids. -/
abbrev Store := Registry Obj

/-- Ids in use have been handed out, and no two objects share a byte. -/
abbrev Store.Ok (σ : Store) : Prop := Registry.Ok Obj.Apart σ

/-- An object as `q` asks for it.  Its bytes are 0, as far as its capacity goes. -/
structure Obj.IsNew (o : Obj) (q : Request) : Prop where
  tag : o.tag = q.typeTag.toNat
  owner : o.owner = q.userId.toNat
  perms : o.perms = q.perms.toNat
  name : o.name = storedName q.name
  length : o.data.length = q.size
  zero : ∀ k, k < min o.cap q.size → o.data[k]? = some 0

/-- The object `o` with `n` bytes.  It has the bytes it had, as far as its capacity goes. -/
structure Obj.IsResized (o p : Obj) (n : Nat) : Prop where
  same : p = { o with place := p.place, cap := p.cap, data := p.data }
  length : p.data.length = n
  kept : ∀ k, k < min (min o.data.length n) o.cap → p.data[k]? = o.data[k]?

/-! ## Calls

A call names its object by id, by name or by the place of its bytes, and a call of the store is
about whichever object that is. -/

namespace LockedCall

/-- The arguments are turned down before anything is looked at. -/
def Invalid : LockedCall → Prop
  | mutate (.alloc region q outId outOff) =>
    region = none ∨ q.size = 0 ∨ outId = false ∨ outOff = false
  | mutate (.free region objId _ _) => region = none ∨ objId = 0
  | mutate (.resize region objId newSize _ _) => region = none ∨ objId = 0 ∨ newSize = 0
  | mutate (.setPerms region _ _ _ _) => region = none
  | lookup region objId _ _ _ _ => region = none ∨ objId = 0
  | lookupByName region name _ _ _ _ => region = none ∨ name = none

/-- The call is about the object `o` with this id. -/
def IsAbout (id : Nat) (o : Obj) : LockedCall → Prop
  | mutate (.alloc ..) => False
  | mutate (.free _ objId _ _) | mutate (.resize _ objId _ _ _) | lookup _ objId _ _ _ _ =>
    id = objId
  | mutate (.setPerms _ off _ _ _) => o.place = off
  | lookupByName _ name _ _ _ _ => name.map Subtype.val = some o.name

/-- What the rules of access say of the call and an object it is about. -/
def verdict (o : Obj) : LockedCall → Rc
  | mutate (.alloc ..) => .ok
  | mutate (.free _ _ userId callerPerms) =>
    checkOwner o.owner o.perms userId callerPerms SHM_PERM_FREE
  | mutate (.resize _ _ _ userId callerPerms) =>
    checkOwner o.owner o.perms userId callerPerms SHM_PERM_RESIZE
  | mutate (.setPerms _ _ userId callerPerms _) =>
    checkOwner o.owner o.perms userId callerPerms SHM_PERM_WRITE
  | lookup _ _ userId callerPerms _ _ | lookupByName _ _ userId callerPerms _ _ =>
    checkOwner o.owner o.perms userId callerPerms SHM_PERM_READ

/-- The call is a `shm_alloc`. -/
def isAlloc : LockedCall → Bool
  | mutate (.alloc ..) => true
  | _ => false

/-- There is an object the call is about, and its caller has access to it. -/
structure Granted (c : LockedCall) (σ : Store) (id : Nat) (o : Obj) : Prop where
  valid : ¬ c.Invalid
  get : σ.get id = some o
  about : c.IsAbout id o
  ok : c.verdict o = .ok

end LockedCall

/-- **What the store does**: what it may answer to a call, and what it is then.  `slots` is the
number of objects it can keep. -/
inductive Does (slots : Nat) (σ : Store) : LockedCall → Reply → Store → Prop
  | invalid {c : LockedCall} (h : c.Invalid) : Does slots σ c { rc := .einval } σ
  /-- There is no such object. -/
  | absent {c : LockedCall} (hv : ¬ c.Invalid) (hc : c.isAlloc = false)
      (h : ∀ id o, σ.get id = some o → ¬ c.IsAbout id o) : Does slots σ c { rc := .enoent } σ
  /-- There is, but the caller has no access to it. -/
  | denied {c : LockedCall} {id : Nat} {o : Obj} (hv : ¬ c.Invalid) (hget : σ.get id = some o)
      (h : c.IsAbout id o) (hno : c.verdict o ≠ .ok) : Does slots σ c { rc := c.verdict o } σ
  /-- The store is full. -/
  | full {c : LockedCall} (hv : ¬ c.Invalid) (hc : c.isAlloc = true) (h : σ.ids.ncard = slots) :
    Does slots σ c { rc := .enospc } σ
  /-- There is no room for another object. -/
  | noRoom {c : LockedCall} (hv : ¬ c.Invalid) (hc : c.isAlloc = true)
      (h : σ.ids.ncard < slots) : Does slots σ c { rc := .enomem } σ
  | alloc {region : Option Region} {q : Request} {outId outOff : Bool} {o : Obj}
      (hv : ¬ (LockedCall.mutate (.alloc region q outId outOff)).Invalid)
      (h : σ.ids.ncard < slots) (ho : o.IsNew q) (hfit : σ.Fits Obj.Apart σ.next o) :
    Does slots σ (.mutate (.alloc region q outId outOff))
      { rc := .ok, out0 := some σ.next, out1 := some o.place } (σ.add o)
  | free {region : Option Region} {objId : Nat} {userId callerPerms : UInt32} {o : Obj}
      (h : (LockedCall.mutate (.free region objId userId callerPerms)).Granted σ objId o) :
    Does slots σ (.mutate (.free region objId userId callerPerms)) { rc := .ok } (σ.erase objId)
  /-- There is no room for the object to grow. -/
  | cannotGrow {region : Option Region} {objId n : Nat} {userId callerPerms : UInt32} {o : Obj}
      (h : (LockedCall.mutate (.resize region objId n userId callerPerms)).Granted σ objId o)
      (hn : o.data.length < n) :
    Does slots σ (.mutate (.resize region objId n userId callerPerms)) { rc := .enomem } σ
  | resize {region : Option Region} {objId n : Nat} {userId callerPerms : UInt32} {o p : Obj}
      (h : (LockedCall.mutate (.resize region objId n userId callerPerms)).Granted σ objId o)
      (hp : o.IsResized p n) (hfit : σ.Fits Obj.Apart objId p) :
    Does slots σ (.mutate (.resize region objId n userId callerPerms)) { rc := .ok }
      (σ.put objId p)
  | setPerms {region : Option Region} {off id : Nat} {userId callerPerms newPerms : UInt32}
      {o : Obj}
      (h : (LockedCall.mutate (.setPerms region off userId callerPerms newPerms)).Granted σ id o) :
    Does slots σ (.mutate (.setPerms region off userId callerPerms newPerms)) { rc := .ok }
      (σ.put id { o with perms := newPerms.toNat })
  | lookup {region : Option Region} {objId : Nat} {userId callerPerms : UInt32}
      {outOff outUsedSize : Bool} {o : Obj}
      (h : (LockedCall.lookup region objId userId callerPerms outOff outUsedSize).Granted σ objId
        o) :
    Does slots σ (.lookup region objId userId callerPerms outOff outUsedSize)
      { rc := .ok, out0 := if outOff then some o.place else none,
        out1 := if outUsedSize then some o.data.length else none } σ
  | lookupByName {region : Option Region} {name : Option CStr} {userId callerPerms : UInt32}
      {outId outOff : Bool} {id : Nat} {o : Obj}
      (h : (LockedCall.lookupByName region name userId callerPerms outId outOff).Granted σ id o) :
    Does slots σ (.lookupByName region name userId callerPerms outId outOff)
      { rc := .ok, out0 := if outId then some id else none,
        out1 := if outOff then some o.place else none } σ

/-! ## Runs -/

/-- The calls of a run, the earliest first, what they were told, and the store the run leads to.
Users may write the bytes of objects in between. -/
inductive StoreRun (slots : Nat) (σ : Store) : List (LockedCall × Reply) → Store → Prop
  | refl : StoreRun slots σ [] σ
  | call {log : List (LockedCall × Reply)} {τ τ' : Store} {c : LockedCall} {a : Reply}
      (h : StoreRun slots σ log τ) (hd : Does slots τ c a τ') :
    StoreRun slots σ (log ++ [(c, a)]) τ'
  | write {log : List (LockedCall × Reply)} {τ : Store} {id : Nat} {o : Obj}
      (h : StoreRun slots σ log τ) (hget : τ.get id = some o) (k : Nat) (v : UInt8) :
    StoreRun slots σ log (τ.put id { o with data := o.data.set k v })

section

variable {slots id : Nat} {σ σ' : Store} {c : LockedCall} {a : Reply} {o : Obj}
  {log : List (LockedCall × Reply)}

/-- An object that is where `o` is, with as many bytes, is apart from what `o` is apart from. -/
theorem Store.Ok.fits_at {p : Obj} (h : Store.Ok σ) (hget : σ.get id = some o)
    (hplace : p.place = o.place) (hlen : p.data.length = o.data.length) :
    σ.Fits Obj.Apart id p :=
  Registry.Ok.fits h hget (fun u hu => by rwa [Obj.Apart, hplace, hlen])
    fun u hu => by rwa [Obj.Apart, hplace, hlen]

/-- **A call keeps the objects apart.** -/
theorem Does.ok (h : Store.Ok σ) (hd : Does slots σ c a σ') : Store.Ok σ' := by
  cases hd with
  | alloc hv hlt ho hfit => exact h.add hfit
  | free hg => exact h.erase _
  | resize hg hp hfit => exact h.put hg.get hfit
  | setPerms hg => exact h.put hg.get (h.fits_at hg.get rfl rfl)
  | _ => exact h

/-- **So does a run.** -/
theorem StoreRun.ok (h : Store.Ok σ) (hrun : StoreRun slots σ log σ') : Store.Ok σ' := by
  induction hrun with
  | refl => exact h
  | call _ hd ih => exact hd.ok ih
  | write _ hget k v ih =>
    exact Registry.Ok.put ih hget (ih.fits_at hget rfl (List.length_set ..))

/-- **An id that is gone stays gone.** -/
theorem Does.gone (hg : σ.Gone id) (hd : Does slots σ c a σ') : σ'.Gone id := by
  cases hd with
  | alloc hv hlt ho hfit => exact hg.add
  | free hgr => exact hg.erase
  | resize hgr hp hfit => exact hg.put hgr.get
  | setPerms hgr => exact hg.put hgr.get
  | _ => exact hg

theorem StoreRun.gone (hg : σ.Gone id) (hrun : StoreRun slots σ log σ') : σ'.Gone id := by
  induction hrun with
  | refl => exact hg
  | call _ hd ih => exact hd.gone ih
  | write _ hget k v ih => exact ih.put hget

/-- **A call leaves the objects alone that it is not about.** -/
theorem Does.get_eq (h : Store.Ok σ) (hget : σ.get id = some o) (hna : ¬ c.IsAbout id o)
    (hd : Does slots σ c a σ') : σ'.get id = some o := by
  cases hd with
  | alloc hv hlt ho hfit =>
    rw [Registry.get_add_of_ne (Nat.ne_of_lt (h.lt hget)), hget]
  | free hg => rw [Registry.get_erase_of_ne hna, hget]
  | resize hg hp hfit => rw [Registry.get_put_of_ne hna, hget]
  | setPerms hg =>
    rw [Registry.get_put_of_ne, hget]
    rintro rfl
    obtain rfl := Option.some.inj (hget.symm.trans hg.get)
    exact hna hg.about
  | _ => exact hget

end

end ShmAlloc
