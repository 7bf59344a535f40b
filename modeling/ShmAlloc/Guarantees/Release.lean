import ShmAlloc.Guarantees.DeadOffset
import ShmAlloc.Guarantees.Make

/-!
# Releasing C++ objects

`shm::free` destroys and then frees.  The destructor is run for those who may read and write the
block, and the block is freed for those who may free the entry; who may do the one and not the other
runs the destructor of an object that stays, and may do so again.

## What is here

* `MayDestroy` and `MayFree`: the two conditions, on the block and on the entry.  The second one
  also asks that the entry is the first in use with its id, as that is the one that is freed.
* `destroy_granted` and `destroy_denied`, `freeStorage_cases`: the two halves of the call.
* `Released` and `DestroysAndFrees`: what is expected.  The call returns 0, has run the destructor
  once and freed the object, or it fails and has done neither.
* `destroysAndFrees_iff`: **an object is destroyed and freed together exactly if who may destroy it
  may free it** (`FreesWhatItDestroys`).
* `FreeRun`: any number of calls, on handles to objects that were there at the outset.
* `Ledger` and `FreeRun.ledger`: **where a sequence has come to.**  Objects are as they were or
  gone, and those destroyed are gone; one call keeps the books.
* `free_destroys_once`: the equivalence for one call, and that no sequence whose calls meet it runs
  a destructor twice.
* `free_destroys_once_fails`: an object that may not be freed is destroyed whenever its owner tries
  to release it.

The destructor is any program that writes inside its object only.  The invariant does not read
payloads, so what it has done to the region is nothing (`Inv.dtor`).
-/

set_option autoImplicit false

namespace ShmAlloc

open Tiling Links

variable {G : Geometry} {m m' : Mem} {bs pre post : List Blk} {b : Blk} {i : Nat} {T : CxxClass}
  {r : Region} {userId callerPerms : UInt32}

/-! ## Destroying

Access to the block is checked where it is destroyed, with the permissions in its header. -/

/-- The destructor leaves the directory alone. -/
theorem entryAt_dtor (T : CxxClass) {off j : Nat} (hj : j < G.dirCap) (m : Mem) :
    entryAt ((T.dtor (G.base + off)).mem m) j = entryAt m j := by
  have := G.slotAddr_lt hj
  refine entryAt_replay fun x hx hs => ?_
  have := (T.dtor_inside _ m x hx).1
  have := hs.2
  omega

/-- The destructor stays in the payload of the object. -/
theorem dtor_writes (hh : Holds G m i b) (hT : T.size ≤ (entryAt m i).used) {x : Nat}
    (hx : Writes ((T.dtor (G.base + (entryAt m i).off)).trace m) x) :
    G.base + b.off + 56 ≤ x ∧ x < G.base + b.off + b.total := by
  have h1 := T.dtor_inside _ m x hx
  have h2 := hh.mirrors.off
  have h3 := hh.mirrors.used
  omega

/-- The destructor runs for those who may read and write the block. -/
theorem destroy_granted (h : Inv G m bs) (hb : b ∈ bs) (hr : r.size = G.size)
    (hacc : b.access userId callerPerms (SHM_PERM_READ ||| SHM_PERM_WRITE) = .ok) :
    (Cxx.destroy T (some r) (b.off + 56) userId callerPerms).val m
        = ⟨.ok, [G.base + (b.off + 56)]⟩ ∧
      (Cxx.destroy T (some r) (b.off + 56) userId callerPerms).mem m
        = (T.dtor (G.base + (b.off + 56))).mem m := by
  have hx := exec_getMut h hb hr userId callerPerms
  rw [if_pos hacc] at hx
  rw [Cxx.destroy, Prog.val_bind, Prog.mem_bind, hx.val, hx.mem, ← Nat.add_assoc]
  exact ⟨rfl, Prog.mem_bind ..⟩

/-- And for nobody else. -/
theorem destroy_denied {region : Option Region} {handle : Nat}
    (hnone : (Cxx.getMut region handle userId callerPerms).val m = none)
    (hmem : (Cxx.getMut region handle userId callerPerms).mem m = m) :
    (Cxx.destroy T region handle userId callerPerms).val m = ⟨.eacces, []⟩ ∧
      (Cxx.destroy T region handle userId callerPerms).mem m = m := by
  rw [Cxx.destroy, Prog.val_bind, Prog.mem_bind, hnone, hmem]
  exact ⟨rfl, rfl⟩

/-! ## Freeing

`shm::free` reads the id from the header and calls `shm_free` with it, so what is freed is found by
a search of the directory. -/

/-- `shm_block_info` gives the id of a block. -/
theorem exec_blockInfo_id (h : Inv G m bs) (hb : b ∈ bs) (hr : r.size = G.size) :
    Exec G.size (shmBlockInfo (some r) (b.off + 56) false false false false true) m .ok
      [.out 4 b.id] := by
  have hbb := h.heap.bounds hb
  have hsz := G.size_eq
  have hB := h.heap.blk b hb
  have hnull : isNull r (G.base + b.off) = false := isNull_of_mapped (by omega)
  rw [shmBlockInfo]
  refine (exec_blkOfPoff h.layout (by omega)).bind_nil ?_
  rw [blockInfoAt, if_neg (by simp [hnull])]
  refine Exec.load_bind hB.magic (by simp; omega) ?_
  rw [if_neg (not_not.2 rfl)]
  have hid : Exec G.size (outField true 4 (G.base + b.off) BlockHdr.objId) m () [.out 4 b.id] :=
    Exec.load_bind hB.id (by simp; omega) .emit
  exact (Exec.pure ()).bind_nil ((Exec.pure ()).bind_nil ((Exec.pure ()).bind_nil
    ((Exec.pure ()).bind_nil (hid.seq (.pure _)))))

theorem Prog.val_withLocal (x : Prog Rc) (k a : Nat) (m : Mem) :
    (Prog.withLocal x k a).val m = (x.val m, (lastOut k (x.trace m)).getD a) := rfl

theorem Prog.mem_withLocal (x : Prog Rc) (k a : Nat) (m : Mem) :
    (Prog.withLocal x k a).mem m = x.mem m := rfl

/-- What `shm::free` passes to `shm_free` is the id of the block. -/
theorem freeStorage_eq (h : Inv G m bs) (hb : b ∈ bs) (hr : r.size = G.size)
    (userId callerPerms : UInt32) :
    (Cxx.freeStorage (some r) (b.off + 56) userId callerPerms).val m =
        (if b.id = 0 then return .einval
          else shmFree (some r) b.id userId callerPerms : Prog Rc).val m ∧
      (Cxx.freeStorage (some r) (b.off + 56) userId callerPerms).mem m =
        (if b.id = 0 then return .einval
          else shmFree (some r) b.id userId callerPerms : Prog Rc).mem m := by
  have hx := exec_blockInfo_id h hb hr
  have hout : lastOut 4 ((shmBlockInfo (some r) (b.off + 56) false false false false true).trace m)
      = some b.id := by
    rw [← lastOut_effects, hx.eff]
    rfl
  have hval : (Prog.withLocal (shmBlockInfo (some r) (b.off + 56) false false false false true) 4
      0).val m = (.ok, b.id) := by
    rw [Prog.val_withLocal, hout, hx.val, Option.getD_some]
  have hmem : (Prog.withLocal (shmBlockInfo (some r) (b.off + 56) false false false false true) 4
      0).mem m = m := by
    rw [Prog.mem_withLocal, hx.mem]
    rfl
  rw [Cxx.freeStorage, Prog.val_bind, Prog.mem_bind, hval, hmem]
  exact ⟨rfl, rfl⟩

/-- The entry of the object is the one `shm::free` frees, and the caller may free it: it is the
first in use that has the id. -/
def MayFree (m : Mem) (i : Nat) (userId callerPerms : UInt32) : Prop :=
  (entryAt m i).access userId callerPerms SHM_PERM_FREE = .ok ∧
    ∀ k, k < i → (entryAt m k).alive = true → (entryAt m k).id ≠ (entryAt m i).id

theorem MayFree.finds (h : MayFree m i userId callerPerms) (hh : Holds G m i b) :
    Finds G m b.id i :=
  ⟨hh.lt, hh.alive, hh.mirrors.id, fun k hk ha hid => h.2 k hk ha (hid.trans hh.mirrors.id.symm)⟩

/-- **The storage of an object is freed** for those who may free its entry.  Nobody else frees it:
the call fails and does nothing, or frees another object that has the same id. -/
theorem freeStorage_cases (h : Inv G m bs) (hh : Holds G m i b) (hb : b ∈ bs) (hr : r.size = G.size)
    (userId callerPerms : UInt32) :
    (¬ MayFree m i userId callerPerms ∧
        (Cxx.freeStorage (some r) (b.off + 56) userId callerPerms).val m ≠ .ok ∧
        (Cxx.freeStorage (some r) (b.off + 56) userId callerPerms).mem m = m) ∨
      ∃ pre c post j, bs = pre ++ c :: post ∧ Holds G m j c ∧
        (MayFree m i userId callerPerms ↔ j = i) ∧
        (Cxx.freeStorage (some r) (b.off + 56) userId callerPerms).val m = .ok ∧
        (Cxx.freeStorage (some r) (b.off + 56) userId callerPerms).mem m =
          replay (freeEvents G pre c post j) m := by
  obtain ⟨hv, hm⟩ := freeStorage_eq h hb hr userId callerPerms
  rw [hv, hm]
  by_cases hid : b.id = 0
  · rw [if_pos hid]
    refine .inl ⟨fun hmay => ?_, by simp, rfl⟩
    have hacc := hmay.1
    rw [Entry.access, if_pos (.inr (hh.mirrors.id.trans hid))] at hacc
    cases hacc
  · rw [if_neg hid]
    rcases exec_shmFree h r hid userId callerPerms with
      ⟨rc, hrc, hx⟩ | ⟨pre, c, post, j, rfl, hf, hj, hacc, hx⟩
    · refine .inl ⟨fun hmay => ?_, by rwa [hx.val], hx.mem.trans (replay_refused (.inr ⟨r, rfl⟩) m)⟩
      obtain ⟨pre, post, rfl⟩ := List.append_of_mem hb
      have hok := exec_shmFree_found h hh r hid (hmay.finds hh) hmay.1
      exact hrc (hx.val.symm.trans hok.val)
    · refine .inr ⟨pre, c, post, j, rfl, hj, ⟨fun hmay => hf.unique (hmay.finds hh), ?_⟩,
        hx.val, ?_⟩
      · rintro rfl
        exact ⟨hacc, fun k hk ha hid => hf.first k hk ha (hid.trans hf.id)⟩
      · rw [hx.mem, replay_append, replay_lockEvents]

/-! ## Destroying and freeing -/

/-- Who may not read and write the object releases nothing. -/
theorem free_denied {region : Option Region} {handle : Nat} (hT : T.triviallyDestructible = false)
    (hnone : (Cxx.getMut region handle userId callerPerms).val m = none)
    (hmem : (Cxx.getMut region handle userId callerPerms).mem m = m) :
    (Cxx.free T region handle userId callerPerms).val m = ⟨.eacces, []⟩ ∧
      (Cxx.free T region handle userId callerPerms).mem m = m := by
  obtain ⟨hv, hm⟩ := destroy_denied (T := T) hnone hmem
  rw [Cxx.free, hT, if_neg Bool.false_ne_true, Prog.val_bind, Prog.mem_bind, hv, hm,
    if_pos (by simp)]
  exact ⟨rfl, rfl⟩

/-- There is nothing to destroy. -/
theorem free_trivial (hT : T.triviallyDestructible = true) (region : Option Region) (handle : Nat)
    (userId callerPerms : UInt32) (m : Mem) :
    ((Cxx.free T region handle userId callerPerms).val m).ran = [] ∧
      (Cxx.free T region handle userId callerPerms).mem m =
        (Cxx.freeStorage region handle userId callerPerms).mem m := by
  rw [Cxx.free, hT, if_pos rfl, Prog.val_bind, Prog.mem_bind]
  exact ⟨rfl, Prog.mem_pure ..⟩

/-- Who may runs the destructor, and then frees the storage or fails to. -/
theorem free_granted (h : Inv G m bs) (hb : b ∈ bs) (hr : r.size = G.size)
    (hT : T.triviallyDestructible = false)
    (hacc : b.access userId callerPerms (SHM_PERM_READ ||| SHM_PERM_WRITE) = .ok) :
    (Cxx.free T (some r) (b.off + 56) userId callerPerms).val m =
        ⟨(Cxx.freeStorage (some r) (b.off + 56) userId callerPerms).val
          ((T.dtor (G.base + (b.off + 56))).mem m), [G.base + (b.off + 56)]⟩ ∧
      (Cxx.free T (some r) (b.off + 56) userId callerPerms).mem m =
        (Cxx.freeStorage (some r) (b.off + 56) userId callerPerms).mem
          ((T.dtor (G.base + (b.off + 56))).mem m) := by
  obtain ⟨hv, hm⟩ := destroy_granted (T := T) h hb hr hacc
  rw [Cxx.free, hT, if_neg Bool.false_ne_true, Prog.val_bind, Prog.mem_bind, hv, hm,
    if_neg (not_not.2 rfl), Prog.val_bind, Prog.mem_bind]
  exact ⟨rfl, Prog.mem_pure ..⟩

/-- The object in slot `i` is gone: its slot is free and nothing can be reached through its offset.
The other objects are where they were. -/
structure Released (G : Geometry) (m m' : Mem) (i : Nat) : Prop where
  slot : (entryAt m' i).alive = false
  dead : DeadOffset m' (entryAt m i).off
  others : ∀ j, j < G.dirCap → j ≠ i → entryAt m' j = entryAt m j

/-- **The object in slot `i` is destroyed and freed**: the call returns 0, has run the destructor
once and has freed that object; or it fails, has not run the destructor and has changed nothing. -/
def DestroysAndFrees (G : Geometry) (m : Mem) (i : Nat) (call : Prog Destroyed) : Prop :=
  (call.val m).rc = .ok ∧ (call.val m).ran = [G.base + (entryAt m i).off] ∧
      Released G m (call.mem m) i ∨
    (call.val m).rc ≠ .ok ∧ (call.val m).ran = [] ∧ call.mem m = m

/-- The caller may read and write the block of the object. -/
def MayDestroy (G : Geometry) (m : Mem) (i : Nat) (userId callerPerms : UInt32) : Prop :=
  (blkOfSlot G m i).access userId callerPerms (SHM_PERM_READ ||| SHM_PERM_WRITE) = .ok

/-- Who may destroy the object may free it. -/
def FreesWhatItDestroys (G : Geometry) (m : Mem) (i : Nat) (region : Option Region)
    (userId callerPerms : UInt32) : Prop :=
  region = none ∨ ¬ MayDestroy G m i userId callerPerms ∨ MayFree m i userId callerPerms

/-- The region is in order when the destructor has run, and the directory is as it was. -/
theorem Inv.dtor (h : Inv G m bs) (hh : Holds G m i b) (hb : b ∈ bs)
    (hT : T.size ≤ (entryAt m i).used) :
    Inv G ((T.dtor (G.base + (entryAt m i).off)).mem m) bs ∧
      ∀ j, j < G.dirCap →
        entryAt ((T.dtor (G.base + (entryAt m i).off)).mem m) j = entryAt m j :=
  ⟨h.scribble hb fun _ => dtor_writes hh hT, fun _ hj => entryAt_dtor T hj m⟩

theorem Holds.of_entry_eq (hh : Holds G m i b) (hent : entryAt m' i = entryAt m i) :
    Holds G m' i b := by
  obtain ⟨h1, h2, h3, h4⟩ := hh
  exact ⟨h1, by rwa [hent], h3, by rwa [hent]⟩

theorem mayFree_congr (hi : i < G.dirCap)
    (hent : ∀ j, j < G.dirCap → entryAt m' j = entryAt m j) :
    MayFree m' i userId callerPerms ↔ MayFree m i userId callerPerms := by
  rw [MayFree, MayFree, hent i hi]
  refine and_congr_right fun _ => forall₂_congr fun k hk => ?_
  rw [hent k (by omega)]

/-- As long as ids do not wrap it is a question of permissions alone: whoever may read and write the
object must be allowed to free it. -/
theorem freesWhatItDestroys_iff (h : FullInv G m bs) (hi : i < G.dirCap)
    (ha : (entryAt m i).alive = true) (r : Region) :
    FreesWhatItDestroys G m i (some r) userId callerPerms ↔
      (MayAccess (entryAt m i) userId callerPerms (SHM_PERM_READ ||| SHM_PERM_WRITE) →
        MayAccess (entryAt m i) userId callerPerms SHM_PERM_FREE) := by
  obtain ⟨pre, b, post, rfl, hh⟩ := h.holds hi ha
  have hb : b ∈ pre ++ b :: post := by simp
  have hlive := h.entry_live hi ha
  have hfirst : ∀ k, k < i → (entryAt m k).alive = true → (entryAt m k).id ≠ (entryAt m i).id :=
    fun k hk hak hid => by
      have := h.ids.distinct k i (by omega) hi hak ha hid
      omega
  rw [FreesWhatItDestroys, MayDestroy, MayFree, hh.blkOfSlot h.heap.toRep hb,
    ← (h.sameObject hh hb).access hlive hh.live, Entry.access_eq_ok hlive, Entry.access_eq_ok hlive,
    and_iff_left hfirst, or_iff_right nofun, imp_iff_not_or]

/-- Freeing the storage of the object in slot `j` releases it. -/
theorem released_freeEvents {j : Nat} (h : Inv G m (pre ++ b :: post)) (hh : Holds G m j b) :
    Released G m (replay (freeEvents G pre b post j) m) j := by
  refine ⟨free_entry_self m, ?_, fun k hk hkj => free_entry_other hk hkj⟩
  rw [hh.mirrors.off]
  exact deadOffset_of_vacant (h.free hh) (vacant_free h hh (.inl rfl))

/-- **Once the destructor has run**, and left the region in the state `m₁`, all depends on whether
the entry may be freed. -/
theorem destroysAndFrees_of_ran {m₁ : Mem} {call : Prog Destroyed}
    (hh : Holds G m i b) (hb : b ∈ bs)
    (hr : r.size = G.size) (h₁ : Inv G m₁ bs)
    (hent : ∀ j, j < G.dirCap → entryAt m₁ j = entryAt m j)
    (hval : call.val m = ⟨(Cxx.freeStorage (some r) (b.off + 56) userId callerPerms).val m₁,
      [G.base + (b.off + 56)]⟩)
    (hmem : call.mem m = (Cxx.freeStorage (some r) (b.off + 56) userId callerPerms).mem m₁) :
    DestroysAndFrees G m i call ↔ MayFree m i userId callerPerms := by
  have hh₁ := hh.of_entry_eq (hent i hh.lt)
  have hmay : MayFree m₁ i userId callerPerms ↔ MayFree m i userId callerPerms :=
    mayFree_congr hh.lt hent
  rw [DestroysAndFrees, hval, hmem, hh.mirrors.off, ← hmay]
  dsimp only
  rcases freeStorage_cases h₁ hh₁ hb hr userId callerPerms with
    ⟨hno, hrc, -⟩ | ⟨pre, c, post, j, rfl, hj, hji, hrc, hmem₁⟩
  · -- the object stays
    refine iff_of_false ?_ hno
    rintro (⟨hok, -⟩ | ⟨-, hran, -⟩)
    · exact hrc hok
    · cases hran
  · have hrel := released_freeEvents h₁ hj
    rw [hmem₁]
    by_cases he : j = i
    · subst he
      refine iff_of_true (.inl ⟨hrc, rfl, hrel.slot, ?_, fun k hk hkj => ?_⟩) (hji.2 rfl)
      · rw [← hent j hj.lt]
        exact hrel.dead
      · rw [hrel.others k hk hkj, hent k hk]
    · -- another object has been freed in its place
      refine iff_of_false ?_ (mt hji.1 he)
      rintro (⟨-, -, hgone⟩ | ⟨-, hran, -⟩)
      · have hslot := hgone.slot
        rw [hrel.others i hh.lt (Ne.symm he), hh₁.alive] at hslot
        cases hslot
      · cases hran

/-- **An object is destroyed and freed together** exactly if who may destroy it may free it. -/
theorem destroysAndFrees_iff (h : Inv G m bs) (hi : i < G.dirCap)
    (ha : (entryAt m i).alive = true) (hsize : T.size ≤ (entryAt m i).used)
    (hT : T.triviallyDestructible = false) {region : Option Region}
    (hregion : ∀ r, region = some r → r.size = G.size) :
    DestroysAndFrees G m i (Cxx.free T region (entryAt m i).off userId callerPerms) ↔
      FreesWhatItDestroys G m i region userId callerPerms := by
  obtain ⟨pre, b, post, rfl, hh⟩ := h.holds hi ha
  have hb : b ∈ pre ++ b :: post := by simp
  have hblk : blkOfSlot G m i = b := hh.blkOfSlot h.heap.toRep hb
  have hdenied : (Cxx.getMut region (b.off + 56) userId callerPerms).val m = none →
      (Cxx.getMut region (b.off + 56) userId callerPerms).mem m = m →
      DestroysAndFrees G m i (Cxx.free T region (b.off + 56) userId callerPerms) := by
    intro hnone hmem
    obtain ⟨hv, hm⟩ := free_denied hT hnone hmem
    refine .inr ?_
    rw [hv, hm]
    exact ⟨by simp, rfl, rfl⟩
  rw [FreesWhatItDestroys, MayDestroy, hblk, hh.mirrors.off]
  cases region with
  | none => exact iff_of_true (hdenied rfl rfl) (.inl rfl)
  | some r =>
    have hr := hregion r rfl
    by_cases hacc : b.access userId callerPerms (SHM_PERM_READ ||| SHM_PERM_WRITE) = .ok
    · obtain ⟨hv, hm⟩ := free_granted (T := T) h hb hr hT hacc
      obtain ⟨h₁, hent⟩ := h.dtor hh hb hsize
      rw [hh.mirrors.off] at h₁ hent
      rw [destroysAndFrees_of_ran hh hb hr h₁ hent hv hm]
      exact ⟨fun hmay => .inr (.inr hmay), fun hc => (hc.resolve_left nofun).resolve_left
        (not_not_intro hacc)⟩
    · have hx := exec_getMut h hb hr userId callerPerms
      rw [if_neg hacc] at hx
      exact iff_of_true (hdenied hx.val (by rw [hx.mem, replay_nil])) (.inr (.inl hacc))

/-! ## Sequences of releases

That an object is gone is said by its offset being vacant, as the slot and the id may be used
again. -/

/-- A call of `shm::free`. -/
structure FreeCall where
  T : CxxClass
  region : Option Region
  handle : Nat
  userId : UInt32
  callerPerms : UInt32

namespace FreeCall

def prog (c : FreeCall) : Prog Destroyed :=
  Cxx.free c.T c.region c.handle c.userId c.callerPerms

/-- The handle is one to an object in slot `i`, large enough for the class. -/
structure On (G : Geometry) (m : Mem) (i : Nat) (c : FreeCall) : Prop where
  lt : i < G.dirCap
  alive : (entryAt m i).alive = true
  off : (entryAt m i).off = c.handle
  size : c.T.size ≤ (entryAt m i).used
  region : ∀ r, c.region = some r → r.size = G.size

/-- If there is an object to destroy, who may destroy it may free it. -/
def Together (G : Geometry) (m : Mem) (c : FreeCall) : Prop :=
  c.T.triviallyDestructible = true ∨ ∀ i, i < G.dirCap → (entryAt m i).alive = true →
    (entryAt m i).off = c.handle → FreesWhatItDestroys G m i c.region c.userId c.callerPerms

end FreeCall

/-- Any number of calls, one after the other, on handles to objects that are there at the outset;
the destructors they have run, and the state they lead to. -/
inductive FreeRun (G : Geometry) (m : Mem) : List Nat → Mem → Prop
  | refl : FreeRun G m [] m
  | call {ran : List Nat} {m' : Mem} (h : FreeRun G m ran m') (c : FreeCall) {i : Nat}
      (hon : c.On G m i) (ht : c.Together G m') :
    FreeRun G m (ran ++ (c.prog.val m').ran) (c.prog.mem m')

/-- The offset is that of a vacant place. -/
def Gone (G : Geometry) (m : Mem) (bs : List Blk) (off : Nat) : Prop :=
  ∃ o, off = o + 56 ∧ Vacant G m bs o

/-- Where a run has come to: the objects of the outset are as they were or gone, and those destroyed
are gone. -/
structure Ledger (G : Geometry) (m m' : Mem) (bs : List Blk) (ran : List Nat) : Prop where
  inv : Inv G m' bs
  stays : ∀ i, i < G.dirCap → (entryAt m i).alive = true →
    entryAt m' i = entryAt m i ∨ Gone G m' bs (entryAt m i).off
  gone : ∀ p ∈ ran, ∃ off, p = G.base + off ∧ Gone G m' bs off
  nodup : ran.Nodup

/-- Nothing can be reached through the offset of what has gone. -/
theorem Gone.dead {off : Nat} (h : Gone G m bs off) (hI : Inv G m bs) : DeadOffset m off := by
  obtain ⟨o, rfl, hv⟩ := h
  exact deadOffset_of_vacant hI hv

/-- An object in use has not gone. -/
theorem Gone.not_holds (h : Gone G m bs (entryAt m i).off) (hI : Inv G m bs) (hh : Holds G m i b)
    (hb : b ∈ bs) : False := by
  obtain ⟨o, ho, hv⟩ := h
  have hoff := hh.mirrors.off
  obtain rfl : b.off = o := by omega
  have hB := hI.heap.blk b hb
  rcases hv.not_header hI.heap.toRep with hmagic | hfree
  · exact hmagic hB.magic
  · have hl := hB.allocated_eq_zero.1 hfree
    rw [hh.live] at hl
    cases hl

namespace Ledger

variable {m₀ : Mem} {ran : List Nat}

/-- A destructor runs. -/
theorem dtor (h : Ledger G m₀ m bs ran) (hh : Holds G m i b) (hb : b ∈ bs)
    (hT : T.size ≤ (entryAt m i).used) :
    Ledger G m₀ ((T.dtor (G.base + (entryAt m i).off)).mem m) bs ran := by
  obtain ⟨h₁, hent⟩ := h.inv.dtor hh hb hT
  have hgone : ∀ {off : Nat}, Gone G m bs off →
      Gone G ((T.dtor (G.base + (entryAt m i).off)).mem m) bs off := fun ⟨o, ho, hv⟩ => by
    refine ⟨o, ho, hv.of_live_writes h.inv.heap.toRep fun x hx => ?_⟩
    have := dtor_writes hh hT hx
    exact .inr ⟨b, hb, hh.live, by omega, by omega⟩
  refine ⟨h₁, fun j hj ha => ?_, fun p hp => ?_, h.nodup⟩
  · rw [hent j hj]
    exact (h.stays j hj ha).imp_right hgone
  · obtain ⟨off, ho, hg⟩ := h.gone p hp
    exact ⟨off, ho, hgone hg⟩

/-- The storage of an object is freed. -/
theorem free (h : Ledger G m₀ m (pre ++ b :: post) ran) (hh : Holds G m i b) :
    Ledger G m₀ (replay (freeEvents G pre b post i) m) (insertFree pre b.freed post) ran ∧
      Gone G (replay (freeEvents G pre b post i) m) (insertFree pre b.freed post)
        (entryAt m i).off := by
  have hnew : Gone G (replay (freeEvents G pre b post i) m) (insertFree pre b.freed post)
      (entryAt m i).off := ⟨b.off, hh.mirrors.off, vacant_free h.inv hh (.inl rfl)⟩
  have hgone : ∀ {off : Nat}, Gone G m (pre ++ b :: post) off →
      Gone G (replay (freeEvents G pre b post i) m) (insertFree pre b.freed post) off :=
    fun ⟨o, ho, hv⟩ => ⟨o, ho, vacant_free h.inv hh (.inr hv)⟩
  refine ⟨⟨h.inv.free hh, fun j hj ha => ?_, fun p hp => ?_, h.nodup⟩, hnew⟩
  · rcases h.stays j hj ha with hsame | hg
    · by_cases hji : j = i
      · subst hji
        rw [← hsame]
        exact .inr hnew
      · exact .inl ((free_entry_other hj hji).trans hsame)
    · exact .inr (hgone hg)
  · obtain ⟨off, ho, hg⟩ := h.gone p hp
    exact ⟨off, ho, hgone hg⟩

/-- The destructor has run on an object that was there, and has gone now. -/
theorem ran_snoc (h : Ledger G m₀ m bs ran) {off : Nat} (hg : Gone G m bs off)
    (hnew : G.base + off ∉ ran) : Ledger G m₀ m bs (ran ++ [G.base + off]) := by
  refine ⟨h.inv, h.stays, fun p hp => ?_, ?_⟩
  · rcases List.mem_append.1 hp with hp | hp
    · exact h.gone p hp
    · exact ⟨off, List.mem_singleton.1 hp, hg⟩
  · rw [List.nodup_append]
    refine ⟨h.nodup, List.nodup_singleton _, fun p hp q hq => ?_⟩
    rintro rfl
    exact hnew (List.mem_singleton.1 hq ▸ hp)

/-- Whatever the handle leads to, what is freed is an object, or nothing. -/
theorem freeStorage (h : Ledger G m₀ m bs ran) {region : Option Region}
    (hregion : ∀ r, region = some r → r.size = G.size) (handle : Nat)
    (userId callerPerms : UInt32) :
    ∃ bs', Ledger G m₀ ((Cxx.freeStorage region handle userId callerPerms).mem m) bs' ran := by
  have hinfo : (Prog.withLocal (shmBlockInfo region handle false false false false true) 4 0).mem m
      = m := WritesNothing.mem (writesNothing_shmBlockInfo _ _ _ _ _ _ _) m
  rw [Cxx.freeStorage, Prog.mem_bind, hinfo]
  generalize
    (Prog.withLocal (shmBlockInfo region handle false false false false true) 4 0).val m = v
  obtain ⟨rc, objId⟩ := v
  show ∃ bs', Ledger G m₀ (Prog.mem (if objId = 0 then _ else _) m) bs' ran
  by_cases hid : objId = 0
  · rw [if_pos hid]
    exact ⟨bs, h⟩
  rw [if_neg hid]
  cases region with
  | none => exact ⟨bs, h⟩
  | some r =>
    rcases exec_shmFree h.inv r hid userId callerPerms with
      ⟨rc, -, hx⟩ | ⟨pre, b, post, j, rfl, -, hj, -, hx⟩
    · rw [hx.mem, replay_refused (.inr ⟨r, rfl⟩)]
      exact ⟨bs, h⟩
    · rw [hx.mem, replay_append, replay_lockEvents]
      exact ⟨_, (h.free hj).1⟩

/-- **What is destroyed is freed**, and was not destroyed before. -/
theorem destroyed (h : Ledger G m₀ m bs ran) (hh : Holds G m i b) (hb : b ∈ bs)
    (hr : r.size = G.size) (hT : T.triviallyDestructible = false)
    (hsize : T.size ≤ (entryAt m i).used)
    (hacc : b.access userId callerPerms (SHM_PERM_READ ||| SHM_PERM_WRITE) = .ok)
    (hmay : MayFree m i userId callerPerms) :
    ∃ bs', Ledger G m₀ ((Cxx.free T (some r) (b.off + 56) userId callerPerms).mem m) bs'
      (ran ++ ((Cxx.free T (some r) (b.off + 56) userId callerPerms).val m).ran) := by
  obtain ⟨hv, hm⟩ := free_granted (T := T) h.inv hb hr hT hacc
  have hnew : G.base + (b.off + 56) ∉ ran := fun hp => by
    obtain ⟨off, ho, hg⟩ := h.gone _ hp
    obtain rfl : b.off + 56 = off := by omega
    rw [← hh.mirrors.off] at hg
    exact hg.not_holds h.inv hh hb
  have h₁ := h.dtor hh hb hsize
  have hent : ∀ j, j < G.dirCap → _ := (h.inv.dtor hh hb hsize).2
  rw [hh.mirrors.off] at h₁ hent
  rw [hv, hm]
  have hh₁ := hh.of_entry_eq (hent i hh.lt)
  rcases freeStorage_cases h₁.inv hh₁ hb hr userId callerPerms with
    ⟨hno, -⟩ | ⟨pre, c, post, j, rfl, hj, hji, -, hmem⟩
  · exact absurd ((mayFree_congr hh.lt hent).2 hmay) hno
  · obtain rfl : j = i := hji.1 ((mayFree_congr hh.lt hent).2 hmay)
    obtain ⟨h₂, hg⟩ := h₁.free hj
    rw [hh₁.mirrors.off] at hg
    rw [hmem]
    exact ⟨_, h₂.ran_snoc hg hnew⟩

/-- **One call keeps the books.** -/
theorem call (h : Ledger G m₀ m bs ran) {c : FreeCall} (hon : c.On G m₀ i)
    (ht : c.Together G m) :
    ∃ bs', Ledger G m₀ (c.prog.mem m) bs' (ran ++ (c.prog.val m).ran) := by
  obtain ⟨T, region, handle, userId, callerPerms⟩ := c
  obtain ⟨hi, ha, hoff, hsize, hregion⟩ := hon
  rw [FreeCall.prog]
  dsimp only at hoff hsize hregion ⊢
  cases hT : T.triviallyDestructible with
  | true =>
    obtain ⟨hv, hm⟩ := free_trivial hT region handle userId callerPerms m
    rw [hv, hm, List.append_nil]
    exact h.freeStorage hregion handle userId callerPerms
  | false =>
    have hdenied : (Cxx.getMut region handle userId callerPerms).val m = none →
        ∃ bs', Ledger G m₀ ((Cxx.free T region handle userId callerPerms).mem m) bs'
          (ran ++ ((Cxx.free T region handle userId callerPerms).val m).ran) := fun hnone => by
      obtain ⟨hv, hm⟩ := free_denied hT hnone ((readsOnly_shmPtr _ _ _ _ _ m).mem)
      rw [hv, hm, List.append_nil]
      exact ⟨bs, h⟩
    rcases h.stays i hi ha with hsame | hg
    · -- the object is still there
      rw [← hsame] at ha hoff hsize
      obtain ⟨pre, b, post, rfl, hh⟩ := h.inv.holds hi ha
      have hb : b ∈ pre ++ b :: post := by simp
      have hoff' := hoff
      rw [hh.mirrors.off] at hoff'
      subst hoff'
      cases region with
      | none => exact hdenied rfl
      | some r =>
        have hr := hregion r rfl
        by_cases hacc : b.access userId callerPerms (SHM_PERM_READ ||| SHM_PERM_WRITE) = .ok
        · have hblk : blkOfSlot G m i = b := hh.blkOfSlot h.inv.heap.toRep hb
          have hmay : MayFree m i userId callerPerms := by
            rcases ht with ht | ht
            · exact Bool.noConfusion (hT.symm.trans ht)
            · rcases ht i hi ha hoff with hn | hno | hmay
              · cases hn
              · exact absurd (show (blkOfSlot G m i).access _ _ _ = _ by rw [hblk]; exact hacc) hno
              · exact hmay
          exact h.destroyed hh hb hr hT hsize hacc hmay
        · have hx := exec_getMut h.inv hb hr userId callerPerms
          rw [if_neg hacc] at hx
          exact hdenied hx.val
    · rw [hoff] at hg
      exact hdenied ((hg.dead h.inv).ptr _ _ _ _)

end Ledger

theorem FreeRun.ledger {ran : List Nat} (h : Inv G m bs) (hrun : FreeRun G m ran m') :
    ∃ bs', Ledger G m m' bs' ran := by
  induction hrun with
  | refl => exact ⟨bs, h, fun _ _ _ => .inl rfl, fun _ hp => absurd hp List.not_mem_nil,
      List.nodup_nil⟩
  | call _ c hon ht ih =>
    obtain ⟨bs', hl⟩ := ih
    exact hl.call hon ht

/-- **`shm::free` destroys and frees together**, exactly if who may destroy the object may free it;
and where each call of a sequence is of this kind, no object is destroyed twice. -/
theorem free_destroys_once (h : Reach G AnyCall m) :
    (∀ (T : CxxClass) (i : Nat) (region : Option Region) (userId callerPerms : UInt32),
      T.triviallyDestructible = false → i < G.dirCap → (entryAt m i).alive = true →
      T.size ≤ (entryAt m i).used → (∀ r, region = some r → r.size = G.size) →
      (DestroysAndFrees G m i (Cxx.free T region (entryAt m i).off userId callerPerms) ↔
        FreesWhatItDestroys G m i region userId callerPerms)) ∧
    ∀ ran m', FreeRun G m ran m' → ran.Nodup := by
  obtain ⟨bs, hI⟩ := h.inv
  refine ⟨fun T i region userId callerPerms hT hi ha hsize hregion =>
    destroysAndFrees_iff hI hi ha hsize hT hregion, fun ran m' hrun => ?_⟩
  obtain ⟨bs', hl⟩ := hrun.ledger hI
  exact hl.nodup

/-- The class with one field, which its destructor clears. -/
def counterClass : CxxClass where
  toCxxType := counterType
  dtor p := Prog.emit (.store p 8 0)
  dtor_inside p m x hx := by
    rw [Prog.trace_emit, writes_cons] at hx
    exact hx.elim id fun h => absurd h (not_writes_nil x)
  triviallyDestructible := false

/-- Its owner releases an object that may be read, written and freed. -/
theorem free_destroys_once_page :
    DestroysAndFrees pageGeometry (firstMem pageGeometry pageHandle eightBytes) 0
      (Cxx.free counterClass (some pageHandle)
        (entryAt (firstMem pageGeometry pageHandle eightBytes) 0).off 7 0xF) := by
  have hreach := page_reach.mono fun _ _ _ => trivial
  obtain ⟨bs, hI⟩ := page_reach.fullInv
  refine ((free_destroys_once hreach).1 counterClass 0 (some pageHandle) 7 0xF rfl (by decide)
    page_alive (by decide +kernel) fun r hr => ?_).2 ?_
  · obtain rfl := Option.some.inj hr
    rfl
  · rw [freesWhatItDestroys_iff hI (by decide) page_alive]
    decide +kernel

/-- Storage for an object of the class, to be read and written. -/
def counterStorage : Mem := firstMem pageGeometry pageHandle ⟨8, none, 7, 0x3, 8⟩

/-- The object is constructed. -/
def counterPage : Mem := counterStorage.store (pageGeometry.base + 56 + 0) 1 42

theorem counterPage_reach : Reach pageGeometry AnyCall counterPage := by
  have hoff : (entryAt counterStorage 0).off = 56 := by decide +kernel
  have hreach : Reach pageGeometry AnyCall counterStorage :=
    (reach_first rfl (by decide) (by decide) (by decide) (by decide)).mono fun _ _ _ => trivial
  have h := hreach.step (.write 0 0 42 (by decide) (by decide +kernel) (by decide +kernel))
  rw [hoff] at h
  exact h

/-- **One that may not be freed** is destroyed whenever its owner tries to release it. -/
theorem free_destroys_once_fails :
    Reach pageGeometry AnyCall counterPage ∧ (entryAt counterPage 0).alive = true ∧
    (Cxx.free counterClass (some pageHandle) 56 7 0xF).val counterPage = ⟨.eacces, [448]⟩ ∧
    (entryAt ((Cxx.free counterClass (some pageHandle) 56 7 0xF).mem counterPage) 0).alive = true ∧
    (Cxx.free counterClass (some pageHandle) 56 7 0xF).val
        ((Cxx.free counterClass (some pageHandle) 56 7 0xF).mem counterPage)
      = ⟨.eacces, [448]⟩ := by
  refine ⟨counterPage_reach, ?_, ?_, ?_, ?_⟩ <;> decide +kernel

end ShmAlloc
