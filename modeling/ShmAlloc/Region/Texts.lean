import ShmAlloc.Lib.Interleave
import ShmAlloc.Region.ReadOnly
import ShmAlloc.Region.Run

/-!
# The texts of the calls

To let calls interleave they are run access by access, and what is run is a text: what a program
does next, as a function of what it has loaded.  Every function of the API has one, and this module
derives them along the definitions.

## What is here

* `emits_shmPtr`, `emits_dirScan` and the like: functions that read emit nothing, or write through
  the caller's pointers.
* `offLock_freelistInsert`, `offLock_heapAllocBlock` and the like: functions that edit the heap and
  the directory stay off the lock.
* `closes_withEntry` and the like: what is done under the lock releases it at the end, on every
  path.
* `guarded_shmAlloc` and its like: **a call takes the lock first and releases it last**, and touches
  shared memory only in between.
* `LockedCall`, `Reply` and `replyOf`: the calls that take the mutex, and what their callers are
  told, by code and through out-pointers.

None of it needs the invariant, as the texts are those of the programs on any memory.
-/

set_option autoImplicit false

namespace ShmAlloc

/-! ## Functions that read -/

section

variable {P : Event → Prop}

theorem emits_blkAtHoff (hoff : Nat) : Emits P (shmBlkAtHoff hoff) := .get_bind fun _ => .pure _

theorem emits_blkOfPoff (poff : Nat) : Emits P (shmBlkOfPoff poff) := .get_bind fun _ => .pure _

theorem emits_hoffOfBlk (b : Nat) : Emits P (shmHoffOfBlk b) := .get_bind fun _ => .pure _

theorem emits_poffOfBlk (b : Nat) : Emits P (shmPoffOfBlk b) :=
  (emits_hoffOfBlk b).bind fun _ => .pure _

theorem emits_heapSize (r : Region) : Emits P (shmHeapSize r) := .get_bind fun _ => .pure _

theorem emits_blkOfLink (lnk : Nat) : Emits P (shmBlkOfLink lnk) := emits_blkAtHoff _

theorem emits_dirSlot (i : Nat) : Emits P (shmDirSlot i) := .get_bind fun _ => .pure _

theorem emits_checkBlockAccess (r : Region) (b : Nat) (caller callerPerms required : UInt32) :
    Emits P (checkBlockAccess r b caller callerPerms required) := by
  rw [checkBlockAccess]
  split
  · exact .pure _
  · refine .get_bind fun magic => ?_
    split
    · exact .pure _
    · refine .get_bind fun allocated => ?_
      split
      · exact .pure _
      · exact .get_bind fun _ => .get_bind fun _ => .pure _

theorem emits_checkDirAccess (e : Nat) (caller callerPerms required : UInt32) :
    Emits P (checkDirAccess e caller callerPerms required) := by
  refine .get_bind fun alive => .get_bind fun id => ?_
  split
  · exact .pure _
  · exact .get_bind fun _ => .get_bind fun _ => .pure _

theorem emits_dirScan {test : Nat → Prog Bool} (ht : ∀ e, Emits P (test e)) (n : Nat) :
    ∀ i, Emits P (dirScan test n i) := by
  induction n with
  | zero => exact fun i => .pure _
  | succ n ih =>
    intro i
    refine (emits_dirSlot i).bind fun e => (ht e).bind fun found => ?_
    split
    · exact .pure _
    · exact ih (i + 1)

theorem emits_dirFind {test : Nat → Prog Bool} (ht : ∀ e, Emits P (test e)) :
    Emits P (dirFind test) := .get_bind fun cap => emits_dirScan ht cap 0

theorem emits_dirFindById (objId : Nat) : Emits P (dirFindById objId) :=
  emits_dirFind fun _ => .get_bind fun _ => .get_bind fun _ => .pure _

theorem emits_dirFindFreeSlot : Emits P dirFindFreeSlot :=
  emits_dirFind fun _ => .get_bind fun _ => .get_bind fun _ => .pure _

theorem emits_strcmpEq (s : List UInt8) : ∀ p, Emits P (strcmpEq p s) := by
  induction s with
  | nil => exact fun p => (Emits.load p 1).bind fun _ => .pure _
  | cons x xs ih =>
    intro p
    refine (Emits.load p 1).bind fun c => ?_
    split
    · exact ih (p + 1)
    · exact .pure _

theorem emits_dirFindByName (name : CStr) : Emits P (dirFindByName name) := by
  refine emits_dirFind fun e => .get_bind fun alive => ?_
  split
  · exact .pure _
  · exact emits_strcmpEq _ _

theorem emits_shmPtr (region : Option Region) (off : Nat) (userId callerPerms required : UInt32) :
    Emits P (shmPtr region off userId callerPerms required) := by
  cases region with
  | none => exact .pure _
  | some r =>
    refine (emits_blkOfPoff off).bind fun b =>
      (emits_checkBlockAccess r b userId callerPerms required).bind fun acc => ?_
    split
    · exact .pure _
    · exact .pure _

end

/-! ## Functions that edit the heap -/

theorem offLock_persist (p n : Nat) : OffLock (shmPersist p n) := .emit rfl

theorem offLock_drain : OffLock shmDrain := .emit rfl

theorem offLock_setLink (prevLnk v : Nat) : OffLock (setLink prevLnk v) := by
  rw [setLink]
  split
  · exact .set ..
  · exact (emits_blkOfLink _).bind fun _ => .set ..

theorem offLock_insertionPoint (bHo fuel : Nat) : ∀ prevLnk curLnk,
    OffLock (insertionPoint bHo fuel prevLnk curLnk) := by
  induction fuel with
  | zero => exact fun prevLnk curLnk => .emit_bind rfl (.pure _)
  | succ fuel ih =>
    intro prevLnk curLnk
    rw [insertionPoint]
    split
    · exact .pure _
    · refine (emits_blkOfLink _).bind fun cur => (emits_hoffOfBlk _).bind fun curHo => ?_
      split
      · exact .pure _
      · exact .get_bind fun next => ih curLnk next

theorem offLock_removalPoint (targetLnk fuel : Nat) : ∀ prevLnk curLnk,
    OffLock (removalPoint targetLnk fuel prevLnk curLnk) := by
  induction fuel with
  | zero => exact fun prevLnk curLnk => .emit_bind rfl (.pure _)
  | succ fuel ih =>
    intro prevLnk curLnk
    rw [removalPoint]
    split
    · exact .pure _
    · exact (emits_blkOfLink _).bind fun cur => .get_bind fun next => ih curLnk next

theorem offLock_coalesceNext (b bHo curLnk : Nat) : OffLock (coalesceNext b bHo curLnk) := by
  rw [coalesceNext]
  split
  · exact .pure _
  · refine (emits_blkOfLink _).bind fun cur => .get_bind fun total =>
      (emits_hoffOfBlk _).bind fun curHo => ?_
    split
    · exact .get_bind fun _ => .set_bind (.get_bind fun _ => .set_bind (.set_bind
        (offLock_persist _ _)))
    · exact .pure _

theorem offLock_coalescePrev (b bHo prevLnk : Nat) : OffLock (coalescePrev b bHo prevLnk) := by
  rw [coalescePrev]
  split
  · exact (offLock_persist _ _).bind fun _ => offLock_persist _ _
  · refine (emits_blkOfLink _).bind fun prev => (emits_hoffOfBlk _).bind fun prHo =>
      .get_bind fun prTotal => ?_
    split
    · exact .get_bind fun _ => .set_bind (.get_bind fun _ => .set_bind (.set_bind
        ((offLock_persist _ _).bind fun _ => offLock_persist _ _)))
    · exact (offLock_persist _ _).bind fun _ => offLock_persist _ _

theorem offLock_freelistInsert (b : Nat) : OffLock (freelistInsert b) :=
  (emits_hoffOfBlk b).bind fun bHo => .set_bind (.set_bind (.set_bind (.set_bind (.set_bind
    (.get_bind fun head => (offLock_insertionPoint bHo walkFuel 0 head).bind fun _ =>
      .set_bind ((offLock_setLink _ _).bind fun _ => (offLock_coalesceNext _ _ _).bind fun _ =>
        offLock_coalescePrev _ _ _))))))

theorem offLock_freelistRemove (target : Nat) : OffLock (freelistRemove target) := by
  refine (emits_hoffOfBlk _).bind fun ho => .get_bind fun head =>
    (offLock_removalPoint _ walkFuel 0 head).bind fun at' => ?_
  split
  · exact .pure _
  · exact .get_bind fun next => (offLock_setLink _ _).bind fun _ => .set ..

theorem offLock_detachBlock (b prevLnk needTotal total : Nat) :
    OffLock (detachBlock b prevLnk needTotal total) := by
  rw [detachBlock]
  split
  · exact .set_bind (.set_bind (.set_bind (.set_bind (.set_bind (.set_bind (.set_bind (.set_bind
      (.get_bind fun next => .set_bind (.set_bind (.set_bind ((offLock_persist _ _).bind fun _ =>
        (emits_hoffOfBlk _).bind fun _ => offLock_setLink _ _)))))))))))
  · exact .get_bind fun next => offLock_setLink _ _

theorem offLock_takeBlock (b prevLnk needTotal total : Nat) :
    OffLock (takeBlock b prevLnk needTotal total) :=
  (offLock_detachBlock _ _ _ _).bind fun _ => .set_bind (.set_bind (.get_bind fun _ =>
    .get_bind fun _ => .set_bind (.get_bind fun _ => .set_bind ((offLock_persist _ _).bind fun _ =>
      offLock_persist _ _))))

theorem offLock_firstFit (needTotal fuel : Nat) : ∀ prevLnk curLnk,
    OffLock (firstFit needTotal fuel prevLnk curLnk) := by
  induction fuel with
  | zero => exact fun prevLnk curLnk => .emit_bind rfl (.pure _)
  | succ fuel ih =>
    intro prevLnk curLnk
    rw [firstFit]
    split
    · exact .pure _
    · refine (emits_blkOfLink _).bind fun b => .get_bind fun total => ?_
      split
      · exact (offLock_takeBlock _ _ _ _).bind fun _ => .pure _
      · exact .get_bind fun next => ih curLnk next

theorem offLock_heapAllocBlock (needTotal : Nat) : OffLock (heapAllocBlock needTotal) :=
  .get_bind fun _ => offLock_firstFit _ _ _ _

theorem offLock_subCounter (c : CField) (n : Nat) : OffLock (subCounter c n) :=
  .get_bind fun _ => .emit_bind rfl (.set ..)

theorem offLock_heapFreeBlock (b : Nat) : OffLock (heapFreeBlock b) :=
  .get_bind fun _ => (offLock_subCounter _ _).bind fun _ => (offLock_subCounter _ _).bind fun _ =>
    offLock_freelistInsert b

theorem offLock_cutTail (b newTotal rem : Nat) : OffLock (cutTail b newTotal rem) :=
  have hinit : OffLock (initTail (add64 b newTotal) rem) :=
    .set_bind (.set_bind (.set_bind (.set_bind (.set_bind (.set_bind (.set_bind (.set_bind
      (.set ..))))))))
  hinit.bind fun _ => (offLock_subCounter _ _).bind fun _ => .set_bind (.set_bind
    ((offLock_persist _ _).bind fun _ => offLock_freelistInsert _))

theorem offLock_shrinkBlock (b newTotal total : Nat) : OffLock (shrinkBlock b newTotal total) := by
  rw [shrinkBlock]
  split
  · exact offLock_cutTail _ _ _
  · exact .pure _

theorem offLock_trimGrown (b newTotal leftover : Nat) :
    OffLock (trimGrown b newTotal leftover) := by
  rw [trimGrown]
  split
  · exact offLock_cutTail _ _ _
  · exact offLock_persist _ _

theorem offLock_growInto (b next newTotal combined : Nat) :
    OffLock (growInto b next newTotal combined) :=
  (offLock_freelistRemove _).bind fun _ => .get_bind fun _ => .get_bind fun _ => .set_bind
    (.set_bind (.set_bind (.set_bind ((offLock_persist _ _).bind fun _ =>
      (offLock_trimGrown _ _ _).bind fun _ => offLock_persist _ _))))

theorem offLock_growInPlace (r : Region) (b newTotal : Nat) :
    OffLock (growInPlace r b newTotal) := by
  refine (emits_hoffOfBlk _).bind fun ho => .get_bind fun total =>
    (emits_heapSize r).bind fun size => ?_
  split
  · refine (emits_blkAtHoff _).bind fun next => .get_bind fun magic => .get_bind fun allocated => ?_
    split
    · refine .get_bind fun total' => .get_bind fun nextTotal => ?_
      split
      · exact (offLock_growInto _ _ _ _).bind fun _ => .pure _
      · exact .pure _
    · exact .pure _
  · exact .pure _

theorem offLock_copyPayload (b nb : Nat) : OffLock (copyPayload b nb) := by
  refine .get_bind fun bCap => .emit_bind rfl (.get_bind fun nbCap => ?_)
  rw [clearExtra]
  split
  · exact .emit rfl
  · exact .pure _

theorem offLock_relocateTo (slot b nb : Nat) : OffLock (relocateTo slot b nb) :=
  have hid : OffLock (copyIdentity b nb) :=
    .get_bind fun _ => .set_bind (.get_bind fun _ => .set_bind (.get_bind fun _ => .set_bind
      (.get_bind fun _ => .set_bind (.get_bind fun _ => (offLock_persist _ _).bind fun _ =>
        offLock_persist _ _))))
  have hslot : OffLock (retargetSlot slot nb) :=
    (emits_poffOfBlk _).bind fun _ => .set_bind (.get_bind fun _ => .set ..)
  (offLock_copyPayload b nb).bind fun _ => hid.bind fun _ =>
    (offLock_heapFreeBlock b).bind fun _ => hslot

/-! ## Functions that fill the directory -/

theorem offLock_storeName (slot : Nat) (name : Option CStr) : OffLock (storeName slot name) := by
  cases name with
  | none => exact .pure _
  | some s =>
    rw [storeName]
    split
    · exact .pure _
    · exact .emit rfl

theorem offLock_identifyBlock (b newId : Nat) (userId perms typeTag : UInt32) :
    OffLock (identifyBlock b newId userId perms typeTag) :=
  .set_bind (.set_bind (.set_bind (.set ..)))

theorem offLock_zeroPayload (b : Nat) : OffLock (zeroPayload b) :=
  .get_bind fun _ => .emit_bind rfl ((offLock_persist _ _).bind fun _ => offLock_persist _ _)

theorem offLock_fillSlot (slot b newId payloadSize : Nat) (userId perms typeTag : UInt32) :
    OffLock (fillSlot slot b newId payloadSize userId perms typeTag) :=
  .emit_bind rfl (.set_bind ((emits_poffOfBlk _).bind fun _ => .set_bind (.get_bind fun _ =>
    .set_bind (.set_bind (.set_bind (.set_bind (.set_bind (.set ..))))))))

theorem offLock_setEntryPerms (newPerms : UInt32) (slot : Option Nat) :
    OffLock (setEntryPerms newPerms slot) := by
  cases slot with
  | none => exact .pure _
  | some slot => exact .set_bind (offLock_persist _ _)

theorem offLock_setOut (given : Bool) (i v : Nat) : OffLock (setOut given i v) := by
  rw [setOut]
  split
  · exact .emit rfl
  · exact .pure _

/-! ## Under the lock

A call that fails under the lock leaves through `unlockReturn` as well, so each lemma covers the
error paths of its function. -/

theorem closes_unlockReturn (rc : Rc) : Closes (unlockReturn rc) := .unlock rc

/-- Taking the lock, with what it does after the death of a holder, and then a body that closes. -/
theorem guarded_locked {α : Type} {x : Unit → Prog α} (h : Closes (x ())) (r : Region) :
    Guarded (regionLock r >>= x) := by
  have hrest :
      Closes ((if r.lockRc = .ownerDead then Prog.emit .consistent else pure ()) >>= x) := by
    refine Emits.bind_closes ?_ fun _ => h
    split
    · exact .emit rfl
    · exact .pure _
  exact Closes.guarded (y := fun _ => _) hrest

theorem closes_withEntry (objId : Nat) (userId callerPerms required : UInt32)
    {body : Nat → Prog Rc} (hbody : ∀ slot, Closes (body slot)) :
    Closes (withEntry objId userId callerPerms required body) := by
  refine (emits_dirFindById objId).bind_closes fun slot => ?_
  cases slot with
  | none => exact closes_unlockReturn _
  | some slot =>
    refine (emits_checkDirAccess slot userId callerPerms required).bind_closes fun acc => ?_
    split
    · exact hbody slot
    · exact closes_unlockReturn _

theorem closes_fillObject (slot b payloadSize : Nat) (name : Option CStr)
    (userId perms typeTag : UInt32) :
    Closes (fillObject slot b payloadSize name userId perms typeTag) := by
  have hpublish : ∀ newId, Closes (publishObject slot newId) := fun newId =>
    (offLock_persist _ _).bind_closes fun _ => (offLock_persist _ _).bind_closes fun _ =>
      offLock_drain.bind_closes fun _ => .emit_bind rfl (.get_bind fun _ => .emit_bind rfl
        (closes_unlockReturn _))
  exact .get_bind fun newId => (Emits.set ..).bind_closes fun _ =>
    (offLock_identifyBlock _ _ _ _ _).bind_closes fun _ => (offLock_zeroPayload _).bind_closes
      fun _ => (offLock_fillSlot _ _ _ _ _ _ _).bind_closes fun _ =>
        (offLock_storeName _ _).bind_closes fun _ => hpublish newId

theorem closes_allocLocked (payloadSize : Nat) (name : Option CStr)
    (userId perms typeTag : UInt32) :
    Closes (allocLocked payloadSize name userId perms typeTag) := by
  refine emits_dirFindFreeSlot.bind_closes fun slot => ?_
  cases slot with
  | none => exact closes_unlockReturn _
  | some slot =>
    refine (offLock_heapAllocBlock _).bind_closes fun b => ?_
    cases b with
    | none => exact closes_unlockReturn _
    | some b => exact closes_fillObject _ _ _ _ _ _ _

theorem closes_freeObject (slot : Nat) : Closes (freeObject slot) :=
  .get_bind fun _ => (emits_blkOfPoff _).bind_closes fun b =>
    (offLock_heapFreeBlock b).bind_closes fun _ => .emit_bind rfl
      ((offLock_persist _ _).bind_closes fun _ => offLock_drain.bind_closes fun _ =>
        closes_unlockReturn _)

theorem closes_finishResize (slot newSize : Nat) : Closes (finishResize slot newSize) :=
  (Emits.set ..).bind_closes fun _ => (offLock_persist _ _).bind_closes fun _ =>
    offLock_drain.bind_closes fun _ => closes_unlockReturn _

theorem closes_finishInPlace (slot b newSize : Nat) : Closes (finishInPlace slot b newSize) :=
  .get_bind fun _ => (Emits.set ..).bind_closes fun _ =>
    closes_finishResize slot newSize

theorem closes_growByMoving (slot b newTotal newSize : Nat) :
    Closes (growByMoving slot b newTotal newSize) := by
  refine (offLock_heapAllocBlock _).bind_closes fun nb => ?_
  cases nb with
  | none => exact closes_unlockReturn _
  | some nb => exact (offLock_relocateTo slot b nb).bind_closes fun _ => closes_finishResize _ _

theorem closes_resizeObject (r : Region) (newSize slot : Nat) :
    Closes (resizeObject r newSize slot) := by
  refine .get_bind fun off => (emits_blkOfPoff off).bind_closes fun b =>
    .get_bind fun total => ?_
  split
  · exact (offLock_shrinkBlock _ _ _).bind_closes fun _ => closes_finishInPlace _ _ _
  · refine (offLock_growInPlace r b _).bind_closes fun grew => ?_
    split
    · exact closes_finishInPlace _ _ _
    · exact closes_growByMoving _ _ _ _

theorem closes_setBlockPerms (newPerms : UInt32) (b : Nat) : Closes (setBlockPerms newPerms b) :=
  (Emits.set ..).bind_closes fun _ => (offLock_persist _ _).bind_closes fun _ =>
    .get_bind fun objId => (emits_dirFindById objId).bind_closes fun slot =>
      (offLock_setEntryPerms newPerms slot).bind_closes fun _ => offLock_drain.bind_closes fun _ =>
        closes_unlockReturn _

theorem closes_answerLookup (outOff outUsedSize : Bool) (slot : Nat) :
    Closes (answerLookup outOff outUsedSize slot) :=
  .get_bind fun _ => (offLock_setOut _ _ _).bind_closes fun _ =>
    .get_bind fun _ => (offLock_setOut _ _ _).bind_closes fun _ =>
      closes_unlockReturn _

theorem closes_lookupByNameLocked (name : CStr) (userId callerPerms : UInt32)
    (outId outOff : Bool) :
    Closes (lookupByNameLocked name userId callerPerms outId outOff) := by
  refine (emits_dirFindByName name).bind_closes fun slot => ?_
  cases slot with
  | none => exact closes_unlockReturn _
  | some slot =>
    refine (emits_checkDirAccess slot userId callerPerms _).bind_closes fun acc => ?_
    split
    · exact .get_bind fun _ => (offLock_setOut _ _ _).bind_closes fun _ =>
        .get_bind fun _ => (offLock_setOut _ _ _).bind_closes fun _ =>
          closes_unlockReturn _
    · exact closes_unlockReturn _

/-! ## The calls -/

theorem guarded_shmAlloc (region : Option Region) (payloadSize : Nat) (name : Option CStr)
    (userId perms typeTag : UInt32) (outId outOff : Bool) :
    Guarded (shmAlloc region payloadSize name userId perms typeTag outId outOff) := by
  cases region with
  | none => exact .pure _
  | some r =>
    rw [shmAlloc]
    split
    · exact .pure _
    · exact guarded_locked (closes_allocLocked payloadSize name userId perms typeTag) r

theorem guarded_shmFree (region : Option Region) (objId : Nat) (userId callerPerms : UInt32) :
    Guarded (shmFree region objId userId callerPerms) := by
  cases region with
  | none => exact .pure _
  | some r =>
    rw [shmFree]
    split
    · exact .pure _
    · exact guarded_locked (closes_withEntry objId userId callerPerms _ closes_freeObject) r

theorem guarded_shmResize (region : Option Region) (objId newSize : Nat)
    (userId callerPerms : UInt32) :
    Guarded (shmResize region objId newSize userId callerPerms) := by
  cases region with
  | none => exact .pure _
  | some r =>
    rw [shmResize]
    split
    · exact .pure _
    · exact guarded_locked (closes_withEntry objId userId callerPerms _
        (closes_resizeObject r newSize)) r

theorem guarded_shmBlockSetPerms (region : Option Region) (off : Nat)
    (userId callerPerms newPerms : UInt32) :
    Guarded (shmBlockSetPerms region off userId callerPerms newPerms) := by
  cases region with
  | none => exact .pure _
  | some r =>
    refine guarded_locked ((emits_blkOfPoff off).bind_closes fun b =>
      (emits_checkBlockAccess r b userId callerPerms _).bind_closes fun acc => ?_) r
    split
    · exact closes_setBlockPerms newPerms b
    · exact closes_unlockReturn _

theorem guarded_shmLookup (region : Option Region) (objId : Nat) (userId callerPerms : UInt32)
    (outOff outUsedSize : Bool) :
    Guarded (shmLookup region objId userId callerPerms outOff outUsedSize) := by
  cases region with
  | none => exact .pure _
  | some r =>
    rw [shmLookup]
    split
    · exact .pure _
    · exact guarded_locked (closes_withEntry objId userId callerPerms _
        (closes_answerLookup outOff outUsedSize)) r

theorem guarded_shmLookupByName (region : Option Region) (name : Option CStr)
    (userId callerPerms : UInt32) (outId outOff : Bool) :
    Guarded (shmLookupByName region name userId callerPerms outId outOff) := by
  cases region with
  | none => exact .pure _
  | some r =>
    cases name with
    | none => exact .pure _
    | some s => exact guarded_locked (closes_lookupByNameLocked s userId callerPerms outId outOff) r

/-! ## Calls that take the mutex -/

/-- A call that takes the mutex. -/
inductive LockedCall
  | mutate (c : Call)
  | lookup (region : Option Region) (objId : Nat) (userId callerPerms : UInt32)
    (outOff outUsedSize : Bool)
  | lookupByName (region : Option Region) (name : Option CStr) (userId callerPerms : UInt32)
    (outId outOff : Bool)

/-- The program the call runs. -/
def LockedCall.prog : LockedCall → Prog Rc
  | mutate c => c.prog
  | lookup region objId userId callerPerms outOff outUsedSize =>
    shmLookup region objId userId callerPerms outOff outUsedSize
  | lookupByName region name userId callerPerms outId outOff =>
    shmLookupByName region name userId callerPerms outId outOff

/-- What a caller is told: a code, and what is written through the out-pointers. -/
structure Reply where
  rc : Rc
  out0 : Option Nat := none
  out1 : Option Nat := none
  deriving DecidableEq, Repr

/-- What the caller of a program is told. -/
def replyOf (p : Prog Rc) (m : Mem) : Reply :=
  ⟨p.val m, lastOut 0 (p.trace m), lastOut 1 (p.trace m)⟩

/-- Every call takes the mutex first and releases it last. -/
theorem LockedCall.guarded (c : LockedCall) : Guarded c.prog := by
  cases c with
  | mutate c =>
    cases c with
    | alloc region q outId outOff => exact guarded_shmAlloc ..
    | free region objId userId callerPerms => exact guarded_shmFree ..
    | resize region objId n userId callerPerms => exact guarded_shmResize ..
    | setPerms region off userId callerPerms newPerms => exact guarded_shmBlockSetPerms ..
  | lookup region objId userId callerPerms outOff outUsedSize => exact guarded_shmLookup ..
  | lookupByName region name userId callerPerms outId outOff => exact guarded_shmLookupByName ..

/-- A call that is no mutator writes no memory. -/
theorem LockedCall.mutates_or_quiet (c : LockedCall) :
    (∃ d, c = .mutate d) ∨ (∀ d, c ≠ .mutate d) ∧ WritesNothing c.prog := by
  cases c with
  | mutate d => exact .inl ⟨d, rfl⟩
  | lookup region objId userId callerPerms outOff outUsedSize =>
    exact .inr ⟨nofun, writesNothing_shmLookup region objId userId callerPerms _ _⟩
  | lookupByName region name userId callerPerms outId outOff =>
    exact .inr ⟨nofun, writesNothing_shmLookupByName region name userId callerPerms _ _⟩

end ShmAlloc
