import ShmAlloc.Cap
import ShmAlloc.Lib.Reads

/-!
# The parts of the API that only read

The accessors, the access checks, the searches of the directory and the capability checks have no
effects, on whatever memory they are run.

## What is here

* `readsOnly_dirFindById`, `readsOnly_shmPtr`, `readsOnly_shmDirNext` and the others: nothing but
  loads.
* `writesNothing_shmLookup`, `writesNothing_shmLookupByName` and `writesNothing_shmBlockInfo`: the
  calls that also take the lock or answer their caller still write no memory.
-/

set_option autoImplicit false

namespace ShmAlloc

/-! ## Accessors and access checks -/

theorem readsOnly_heapBase : ReadsOnly shmHeapBase := .get _ _

theorem readsOnly_blkAtHoff (hoff : Nat) : ReadsOnly (shmBlkAtHoff hoff) :=
  readsOnly_heapBase.bind fun _ => .pure _

theorem readsOnly_blkOfPoff (poff : Nat) : ReadsOnly (shmBlkOfPoff poff) :=
  readsOnly_heapBase.bind fun _ => .pure _

theorem readsOnly_hoffOfBlk (b : Nat) : ReadsOnly (shmHoffOfBlk b) :=
  readsOnly_heapBase.bind fun _ => .pure _

theorem readsOnly_heapSize (r : Region) : ReadsOnly (shmHeapSize r) :=
  (ReadsOnly.get _ _).bind fun _ => .pure _

theorem readsOnly_checkBlockAccess (r : Region) (b : Nat) (caller callerPerms required : UInt32) :
    ReadsOnly (checkBlockAccess r b caller callerPerms required) := by
  rw [checkBlockAccess]
  split
  · exact .pure _
  · refine (ReadsOnly.get _ _).bind fun magic => ?_
    split
    · exact .pure _
    · refine (ReadsOnly.get _ _).bind fun allocated => ?_
      split
      · exact .pure _
      · exact (ReadsOnly.get _ _).bind fun _ => (ReadsOnly.get _ _).bind fun _ => .pure _

theorem readsOnly_checkDirAccess (e : Nat) (caller callerPerms required : UInt32) :
    ReadsOnly (checkDirAccess e caller callerPerms required) := by
  refine (ReadsOnly.get _ _).bind fun alive => (ReadsOnly.get _ _).bind fun id => ?_
  split
  · exact .pure _
  · exact (ReadsOnly.get _ _).bind fun _ => (ReadsOnly.get _ _).bind fun _ => .pure _

/-! ## Searches

The loops are read off their definitions, by induction on their fuel. -/

theorem readsOnly_dirScan {test : Nat → Prog Bool} (ht : ∀ e, ReadsOnly (test e)) (n : Nat) :
    ∀ i, ReadsOnly (dirScan test n i) := by
  induction n with
  | zero => exact fun i => .pure _
  | succ n ih =>
    intro i
    have hslot : ReadsOnly (shmDirSlot i) := (ReadsOnly.get _ _).bind fun _ => .pure _
    refine hslot.bind fun e => (ht e).bind fun found => ?_
    split
    · exact .pure _
    · exact ih (i + 1)

theorem readsOnly_dirFind {test : Nat → Prog Bool} (ht : ∀ e, ReadsOnly (test e)) :
    ReadsOnly (dirFind test) :=
  (ReadsOnly.get _ _).bind fun cap => readsOnly_dirScan ht cap 0

theorem readsOnly_dirFindById (objId : Nat) : ReadsOnly (dirFindById objId) :=
  readsOnly_dirFind fun _ => (ReadsOnly.get _ _).bind fun _ =>
    (ReadsOnly.get _ _).bind fun _ => .pure _

theorem readsOnly_dirFindFreeSlot : ReadsOnly dirFindFreeSlot :=
  readsOnly_dirFind fun _ => (ReadsOnly.get _ _).bind fun _ =>
    (ReadsOnly.get _ _).bind fun _ => .pure _

theorem readsOnly_strcmpEq (s : List UInt8) : ∀ p, ReadsOnly (strcmpEq p s) := by
  induction s with
  | nil => exact fun p => (ReadsOnly.load p 1).bind fun _ => .pure _
  | cons x xs ih =>
    intro p
    refine (ReadsOnly.load p 1).bind fun c => ?_
    split
    · exact ih (p + 1)
    · exact .pure _

theorem readsOnly_dirFindByName (name : CStr) : ReadsOnly (dirFindByName name) := by
  refine readsOnly_dirFind fun e => (ReadsOnly.get _ _).bind fun alive => ?_
  split
  · exact .pure _
  · exact readsOnly_strcmpEq _ _

/-! ## Capability checks -/

theorem readsOnly_isLiveBlk (r : Region) (b : Nat) : ReadsOnly (isLiveBlk r b) := by
  rw [isLiveBlk]
  split
  · exact .pure _
  · refine (ReadsOnly.get _ _).bind fun magic => ?_
    split
    · exact .pure _
    · exact (ReadsOnly.get _ _).bind fun _ => .pure _

theorem readsOnly_matchesMeta (b : Nat) (cap : Cap) : ReadsOnly (matchesMeta b cap) := by
  refine (ReadsOnly.get _ _).bind fun objId => ?_
  split
  · exact .pure _
  · exact (ReadsOnly.get _ _).bind fun _ => .pure _

/-! ## Lookups -/

theorem writesNothing_regionLock (r : Region) : WritesNothing (regionLock r) := by
  refine .bind .emit fun _ => ?_
  split
  · exact .emit
  · exact .pure _

theorem writesNothing_unlockReturn (rc : Rc) : WritesNothing (unlockReturn rc) :=
  .bind .emit fun _ => .pure _

theorem writesNothing_setOut (given : Bool) (i v : Nat) : WritesNothing (setOut given i v) := by
  rw [setOut]
  split
  · exact .emit
  · exact .pure _

theorem writesNothing_answerLookup (outOff outUsedSize : Bool) (slot : Nat) :
    WritesNothing (answerLookup outOff outUsedSize slot) :=
  .bind (.of_readsOnly (.get _ _)) fun _ => .bind (writesNothing_setOut _ _ _) fun _ =>
    .bind (.of_readsOnly (.get _ _)) fun _ => .bind (writesNothing_setOut _ _ _) fun _ =>
      writesNothing_unlockReturn _

theorem writesNothing_shmLookup (region : Option Region) (objId : Nat)
    (userId callerPerms : UInt32) (outOff outUsedSize : Bool) :
    WritesNothing (shmLookup region objId userId callerPerms outOff outUsedSize) := by
  cases region with
  | none => exact .pure _
  | some r =>
    rw [shmLookup]
    split
    · exact .pure _
    refine .bind (writesNothing_regionLock r) fun _ =>
      .bind (.of_readsOnly (readsOnly_dirFindById objId)) fun found => ?_
    cases found with
    | none => exact writesNothing_unlockReturn _
    | some slot =>
      refine .bind (.of_readsOnly (readsOnly_checkDirAccess _ _ _ _)) fun acc => ?_
      split
      · exact writesNothing_answerLookup _ _ _
      · exact writesNothing_unlockReturn _

theorem writesNothing_answerLookupByName (outId outOff : Bool) (slot : Nat) :
    WritesNothing (answerLookupByName outId outOff slot) :=
  .bind (.of_readsOnly (.get _ _)) fun _ => .bind (writesNothing_setOut _ _ _) fun _ =>
    .bind (.of_readsOnly (.get _ _)) fun _ => .bind (writesNothing_setOut _ _ _) fun _ =>
      writesNothing_unlockReturn _

theorem writesNothing_shmLookupByName (region : Option Region) (name : Option CStr)
    (userId callerPerms : UInt32) (outId outOff : Bool) :
    WritesNothing (shmLookupByName region name userId callerPerms outId outOff) := by
  cases region with
  | none => exact .pure _
  | some r =>
    cases name with
    | none => exact .pure _
    | some s =>
      refine .bind (writesNothing_regionLock r) fun _ =>
        .bind (.of_readsOnly (readsOnly_dirFindByName s)) fun found => ?_
      cases found with
      | none => exact writesNothing_unlockReturn _
      | some slot =>
        refine .bind (.of_readsOnly (readsOnly_checkDirAccess _ _ _ _)) fun acc => ?_
        split
        · exact writesNothing_answerLookupByName _ _ _
        · exact writesNothing_unlockReturn _

/-! ## Blocks by offset -/

theorem readsOnly_shmPtr (region : Option Region) (off : Nat)
    (userId callerPerms required : UInt32) :
    ReadsOnly (shmPtr region off userId callerPerms required) := by
  cases region with
  | none => exact .pure _
  | some r =>
    refine (readsOnly_blkOfPoff off).bind fun b =>
      (readsOnly_checkBlockAccess r b _ _ _).bind fun acc => ?_
    split
    · exact .pure _
    · exact .pure _

theorem writesNothing_outField (given : Bool) (i b : Nat) (f : CField) :
    WritesNothing (outField given i b f) := by
  rw [outField]
  split
  · exact .bind (.of_readsOnly (.get _ _)) fun _ => .emit
  · exact .pure _

theorem writesNothing_shmBlockInfo (region : Option Region) (off : Nat) (c o p t i : Bool) :
    WritesNothing (shmBlockInfo region off c o p t i) := by
  cases region with
  | none => exact .pure _
  | some r =>
    refine .bind (.of_readsOnly (readsOnly_blkOfPoff off)) fun b => ?_
    rw [blockInfoAt]
    split
    · exact .pure _
    · refine .bind (.of_readsOnly (.get _ _)) fun magic => ?_
      split
      · exact .pure _
      · exact .bind (writesNothing_outField _ _ _ _) fun _ =>
          .bind (writesNothing_outField _ _ _ _) fun _ =>
            .bind (writesNothing_outField _ _ _ _) fun _ =>
              .bind (writesNothing_outField _ _ _ _) fun _ =>
                .bind (writesNothing_outField _ _ _ _) fun _ => .pure _

/-! ## Directory iteration -/

theorem readsOnly_strncpyFrom (n : Nat) : ∀ src, ReadsOnly (strncpyFrom src n) := by
  induction n with
  | zero => exact fun src => .pure _
  | succ n ih =>
    intro src
    refine (ReadsOnly.load src 1).bind fun c => ?_
    split
    · exact .pure _
    · exact (ih (src + 1)).bind fun _ => .pure _

theorem readsOnly_snapshotEntry (e : Nat) : ReadsOnly (snapshotEntry e) :=
  (ReadsOnly.get _ _).bind fun _ => (ReadsOnly.get _ _).bind fun _ => (ReadsOnly.get _ _).bind
    fun _ => (ReadsOnly.get _ _).bind fun _ => (ReadsOnly.get _ _).bind fun _ =>
      (ReadsOnly.get _ _).bind fun _ => (ReadsOnly.get _ _).bind fun _ =>
        (readsOnly_strncpyFrom _ _).bind fun _ => .pure _

theorem readsOnly_dirNextFrom (n : Nat) : ∀ cursor, ReadsOnly (dirNextFrom n cursor) := by
  induction n with
  | zero => exact fun cursor => .pure _
  | succ n ih =>
    intro cursor
    have hslot : ReadsOnly (shmDirSlot cursor) := (ReadsOnly.get _ _).bind fun _ => .pure _
    refine hslot.bind fun e => (ReadsOnly.get _ _).bind fun alive => (ReadsOnly.get _ _).bind
      fun id => ?_
    split
    · exact (readsOnly_snapshotEntry e).bind fun _ => .pure _
    · exact ih (cursor + 1)

theorem readsOnly_shmDirNext (region : Option Region) (cursor : Option Nat) (out : Bool) :
    ReadsOnly (shmDirNext region cursor out) := by
  rw [shmDirNext.eq_def]
  split
  · exact (ReadsOnly.get _ _).bind fun cap => readsOnly_dirNextFrom _ _
  · exact .pure _

end ShmAlloc
