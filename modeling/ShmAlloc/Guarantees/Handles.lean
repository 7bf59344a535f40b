import ShmAlloc.Guarantees.Refinement
import ShmAlloc.Guarantees.Release

/-!
# Typed handles

`shm::find` and `shm::find_by_name` give a handle to an object, `shm::get` a pointer, and
`shm::cast_dyn` a pointer of another type if the tag of the object allows it.  The tag, the id and
the name are those the object was allocated with, and its owner, wherever `shm_resize` has moved it
since.  So what the C++ layer answers is settled by these and by the permissions the object has now.

## What is here

* `FullInv.val_find` and `FullInv.val_findByName`: the two searches, in terms of the entry the
  object has now.
* `FullInv.exec_ptr` and `FullInv.val_castDyn`: **`shm::get` and `shm::cast_dyn`** at its offset.
* `handles_follow_objects`: **handles follow objects**, along any run in which the object is not
  freed, with the exact conditions under which each of them answers.

It rests on `Run.sameIdentity`: an object that is not freed keeps its slot and the bytes in it that
say which object it is, so the entry found later is the one that was filled.
-/

set_option autoImplicit false

namespace ShmAlloc

open Tiling

variable {G : Geometry} {m m' : Mem} {bs : List Blk} {i : Nat} {b : Blk} {r : Region}
  {userId callerPerms : UInt32}

/-! ## The object, now -/

/-- What is denied is denied with `EACCES`. -/
theorem checkOwner_eq_eacces {owner perms : Nat} {caller callerPerms required : UInt32}
    (h : checkOwner owner perms caller callerPerms required ≠ .ok) :
    checkOwner owner perms caller callerPerms required = .eacces := by
  rw [checkOwner] at h ⊢
  split_ifs at h ⊢ <;> first | rfl | exact absurd rfl h

section

variable (h : FullInv G m bs) (hi : i < G.dirCap) (ha : (entryAt m i).alive = true)
include h hi ha

/-- Access by the entry is granted, -/
theorem FullInv.granted {required : UInt32}
    (hmay : MayAccess (entryAt m i) userId callerPerms required) :
    (entryAt m i).access userId callerPerms required = .ok :=
  (Entry.access_eq_ok (h.entry_live hi ha)).2 hmay

/-- or denied with `EACCES`. -/
theorem FullInv.denied {required : UInt32}
    (hno : ¬ MayAccess (entryAt m i) userId callerPerms required) :
    (entryAt m i).access userId callerPerms required = .eacces := by
  have hlive := h.entry_live hi ha
  have hne := fun hok => hno ((Entry.access_eq_ok hlive).1 hok)
  rw [Entry.access_live hlive] at hne ⊢
  exact checkOwner_eq_eacces hne

/-- `shm_lookup` of the id of an object in use. -/
theorem FullInv.exec_lookup (r : Region) (userId callerPerms : UInt32) (outOff outUsedSize : Bool) :
    (MayAccess (entryAt m i) userId callerPerms SHM_PERM_READ →
      Exec G.size (shmLookup (some r) (entryAt m i).id userId callerPerms outOff outUsedSize) m .ok
        (lockEvents r ++ lookupEvents (entryAt m i) outOff outUsedSize)) ∧
    (¬ MayAccess (entryAt m i) userId callerPerms SHM_PERM_READ →
      Exec G.size (shmLookup (some r) (entryAt m i).id userId callerPerms outOff outUsedSize) m
        .eacces (lockEvents r ++ [.unlock])) := by
  have hf := h.ids.finds hi ha
  rw [shmLookup, if_neg (Nat.ne_of_gt (h.ids.id_pos i hi ha))]
  rcases exec_withEntry h.layout (entryAt m i).id userId callerPerms SHM_PERM_READ
    (answerLookup outOff outUsedSize) with ⟨habs, -⟩ | ⟨j, hj, hx⟩
  · exact absurd rfl (habs i hi ha)
  · obtain rfl := hj.unique hf
    refine ⟨fun hmay => exec_locked r ?_, fun hno => exec_locked r ?_⟩
    · rcases hx with ⟨hne, -⟩ | ⟨-, hx, -⟩
      · exact absurd (h.granted hi ha hmay) hne
      · exact hx _ _ (exec_answerLookup hi outOff outUsedSize)
    · rw [h.denied hi ha hno] at hx
      rcases hx with ⟨-, hx⟩ | ⟨hok, -⟩
      · exact hx
      · cases hok

/-- **`shm::find`** by the id of an object in use. -/
theorem FullInv.val_find (r : Region) (userId callerPerms : UInt32) :
    (Cxx.find (some r) (entryAt m i).id userId callerPerms true).val m =
      if MayAccess (entryAt m i) userId callerPerms SHM_PERM_READ then
        ⟨.ok, some (entryAt m i).off⟩
      else ⟨.eacces, none⟩ := by
  obtain ⟨hgranted, hdenied⟩ := h.exec_lookup hi ha r userId callerPerms true false
  have hlocal : ∀ {rc : Rc} {W : List Event}, Exec G.size
      (shmLookup (some r) (entryAt m i).id userId callerPerms true false) m rc (lockEvents r ++ W) →
      (Prog.withLocal (shmLookup (some r) (entryAt m i).id userId callerPerms true false) 0
        SHM_OFF_NULL).val m = (rc, (lastOut 0 W).getD SHM_OFF_NULL) := fun hx => by
    rw [Prog.val_withLocal, hx.val, ← lastOut_effects, hx.eff, lastOut_lockEvents]
  rw [Cxx.find, if_neg (by simp), Prog.val_bind]
  by_cases hmay : MayAccess (entryAt m i) userId callerPerms SHM_PERM_READ
  · rw [hlocal (hgranted hmay), if_pos hmay]
    rfl
  · rw [hlocal (hdenied hmay), if_neg hmay]
    rfl

/-- **`shm::find_by_name`** by the name of an object that no other object in use has. -/
theorem FullInv.val_findByName (hn : Named G m) {s : CStr} (hname : nameOf m i = s.1)
    (honly : ∀ j, j < G.dirCap → (entryAt m j).alive = true → nameOf m j = s.1 → j = i)
    (r : Region) (userId callerPerms : UInt32) :
    (Cxx.findByName (some r) (some s) userId callerPerms true true).val m =
      if MayAccess (entryAt m i) userId callerPerms SHM_PERM_READ then
        ⟨.ok, some (entryAt m i).off, some (entryAt m i).id⟩
      else ⟨.eacces, none, none⟩ := by
  rcases exec_dirFindByName h.layout hn s with ⟨hnone, -⟩ | ⟨j, hj, hja, hjname, hx⟩
  · exact absurd hname (hnone i hi ha)
  obtain rfl := honly j hj hja hjname
  obtain ⟨hgranted, hdenied⟩ := exec_lookupByName_found hi hx userId callerPerms true true
  have hlocals : ∀ {rc : Rc} {W : List Event},
      Exec G.size (lookupByNameLocked s userId callerPerms true true) m rc W →
      (Prog.withLocals (shmLookupByName (some r) (some s) userId callerPerms true true) 0
        SHM_OFF_NULL).val m = (rc, (lastOut 0 W).getD 0, (lastOut 1 W).getD SHM_OFF_NULL) :=
    fun {rc W} hx => by
      have hx : Exec G.size (shmLookupByName (some r) (some s) userId callerPerms true true) m rc
          (lockEvents r ++ W) := exec_locked r hx
      show ((_, _, _) : Rc × Nat × Nat) = _
      rw [hx.val, ← lastOut_effects, ← lastOut_effects 1, hx.eff, lastOut_lockEvents,
        lastOut_lockEvents]
  rw [Cxx.findByName, if_neg (by simp), Prog.val_bind]
  by_cases hmay : MayAccess (entryAt m j) userId callerPerms SHM_PERM_READ
  · rw [hlocals (hgranted (h.granted hi ha hmay)), if_pos hmay]
    rfl
  · have hno := h.denied hi ha hmay
    have hx := hdenied (hno ▸ nofun)
    rw [hno] at hx
    rw [hlocals hx, if_neg hmay]
    rfl

end

/-! ## Pointers -/

section

variable (h : FullInv G m bs) (hh : Holds G m i b) (hb : b ∈ bs) (hr : r.size = G.size)
include h hh hb hr

/-- **`shm_ptr`** at the offset of an object in use. -/
theorem FullInv.exec_ptr (userId callerPerms required : UInt32) :
    Exec G.size (shmPtr (some r) (entryAt m i).off userId callerPerms required) m
      (if MayAccess (entryAt m i) userId callerPerms required then some (G.base + (entryAt m i).off)
        else none) [] := by
  have hbb := h.heap.bounds hb
  have hsz := G.size_eq
  have hnull : isNull r (G.base + b.off) = false := isNull_of_mapped (by omega)
  have hx := exec_checkBlockAccess (r := r) (h.heap.blk b hb) (by omega) userId callerPerms required
  rw [if_neg (by simp [hnull]),
    ← (h.sameObject hh hb).access (h.entry_live hh.lt hh.alive) hh.live] at hx
  rw [hh.mirrors.off, shmPtr]
  refine (exec_blkOfPoff h.layout (by omega)).bind_nil (hx.bind_nil ?_)
  by_cases hmay : MayAccess (entryAt m i) userId callerPerms required
  · rw [if_pos (h.granted hh.lt hh.alive hmay), if_pos hmay]
    exact .pure _
  · have hno : (entryAt m i).access userId callerPerms required ≠ .ok := fun hok =>
      Rc.noConfusion ((h.denied hh.lt hh.alive hmay).symm.trans hok)
    rw [if_neg hno, if_neg hmay]
    exact .pure _

/-- `shm_block_info` gives the tag of a block. -/
theorem FullInv.exec_blockInfo_tag :
    Exec G.size (shmBlockInfo (some r) (entryAt m i).off false false false true false) m .ok
      [.out 3 (entryAt m i).tag] := by
  have hbb := h.heap.bounds hb
  have hsz := G.size_eq
  have hB := h.heap.blk b hb
  have hnull : isNull r (G.base + b.off) = false := isNull_of_mapped (by omega)
  rw [hh.mirrors.off, hh.mirrors.tag, shmBlockInfo]
  refine (exec_blkOfPoff h.layout (by omega)).bind_nil ?_
  rw [blockInfoAt, if_neg (by simp [hnull])]
  refine Exec.load_bind hB.magic (by simp; omega) ?_
  rw [if_neg (not_not.2 rfl)]
  have htag : Exec G.size (outField true 3 (G.base + b.off) BlockHdr.typeTag) m () [.out 3 b.tag] :=
    Exec.load_bind hB.tag (by simp; omega) .emit
  exact (Exec.pure ()).bind_nil ((Exec.pure ()).bind_nil ((Exec.pure ()).bind_nil
    (htag.seq ((Exec.pure ()).bind_nil (.pure _)))))

/-- **`shm::cast_dyn`** goes by the tag. -/
theorem FullInv.val_castDyn (T : CxxCast) (userId callerPerms : UInt32) :
    (Cxx.castDyn T (some r) (entryAt m i).off userId callerPerms).val m =
      if MayAccess (entryAt m i) userId callerPerms SHM_PERM_READ ∧
          ((entryAt m i).tag = 0 ∨ (entryAt m i).tag = T.tag.toNat) then
        (T.convert (G.base + (entryAt m i).off)).val m
      else none := by
  have hptr := h.exec_ptr hh hb hr userId callerPerms SHM_PERM_READ
  have hinfo := h.exec_blockInfo_tag hh hb hr
  have hlocal : (Prog.withLocal (shmBlockInfo (some r) (entryAt m i).off false false false true
      false) 3 0).val m = (.ok, (entryAt m i).tag) := by
    rw [Prog.val_withLocal, hinfo.val, ← lastOut_effects, hinfo.eff]
    rfl
  have hmem : (Prog.withLocal (shmBlockInfo (some r) (entryAt m i).off false false false true
      false) 3 0).mem m = m := by
    rw [Prog.mem_withLocal, hinfo.mem]
    rfl
  rw [Cxx.castDyn, hptr.val_bind_nil]
  by_cases hmay : MayAccess (entryAt m i) userId callerPerms SHM_PERM_READ
  · rw [if_pos hmay]
    show (Prog.withLocal _ 3 0 >>= _).val m = _
    rw [Prog.val_bind, hlocal, hmem]
    by_cases htag : (entryAt m i).tag = 0 ∨ (entryAt m i).tag = T.tag.toNat
    · rw [if_pos ⟨hmay, htag⟩]
      show (if (entryAt m i).tag ≠ 0 ∧ (entryAt m i).tag ≠ T.tag.toNat then _ else _ :
        Prog (Option Nat)).val m = _
      rw [if_neg fun hc => htag.elim hc.1 hc.2]
    · rw [if_neg fun hc => htag hc.2]
      show (if (entryAt m i).tag ≠ 0 ∧ (entryAt m i).tag ≠ T.tag.toNat then _ else _ :
        Prog (Option Nat)).val m = _
      rw [if_pos (not_or.1 htag)]
      rfl
  · rw [if_neg hmay, if_neg fun hc => hmay hc.1]
    rfl

end

/-! ## Along a run -/

/-- **Handles follow objects.**  Take an object in a reachable state, and any run in which it is not
freed.  `shm::find` with its id, and `shm::find_by_name` with its name if no other object has that,
give a handle to the place where it is then; `shm::get` and `shm::cast` make a pointer of the
handle, and `shm::cast_dyn` does if the tag the object had at the start is 0 or that of the type
asked for.  All this is for those who have the access that is asked for, and nobody else. -/
theorem handles_follow_objects {log : List Answer} (h : Reach G NoWrap m)
    (hrun : Run G NoWrap m log m') (hi : i < G.dirCap) (ha : (entryAt m i).alive = true)
    (hnf : (entryAt m i).id ∉ log.filterMap Answer.freedId) (hr : r.size = G.size)
    (userId callerPerms : UInt32) :
    ((Cxx.find (some r) (entryAt m i).id userId callerPerms true).val m' =
      if MayAccess (entryAt m' i) userId callerPerms SHM_PERM_READ then
        ⟨.ok, some (entryAt m' i).off⟩
      else ⟨.eacces, none⟩) ∧
    (∀ s : CStr, nameOf m i = s.1 →
      (∀ j, j < G.dirCap → (entryAt m' j).alive = true → nameOf m' j = s.1 → j = i) →
      (Cxx.findByName (some r) (some s) userId callerPerms true true).val m' =
        if MayAccess (entryAt m' i) userId callerPerms SHM_PERM_READ then
          ⟨.ok, some (entryAt m' i).off, some (entryAt m i).id⟩
        else ⟨.eacces, none, none⟩) ∧
    ((Cxx.get (some r) (entryAt m' i).off userId callerPerms).val m' =
      if MayAccess (entryAt m' i) userId callerPerms SHM_PERM_READ then
        some (G.base + (entryAt m' i).off)
      else none) ∧
    (∀ required, (Cxx.cast (some r) (entryAt m' i).off userId callerPerms required).val m' =
      if MayAccess (entryAt m' i) userId callerPerms required then
        some (G.base + (entryAt m' i).off)
      else none) ∧
    ∀ T : CxxCast, (Cxx.castDyn T (some r) (entryAt m' i).off userId callerPerms).val m' =
      if MayAccess (entryAt m' i) userId callerPerms SHM_PERM_READ ∧
          ((entryAt m i).tag = 0 ∨ (entryAt m i).tag = T.tag.toNat) then
        (T.convert (G.base + (entryAt m' i).off)).val m'
      else none := by
  have hsame := hrun.sameIdentity h hi ha hnf
  have hreach := hrun.reach h
  obtain ⟨bs, hI⟩ := hreach.fullInv
  have ha' : (entryAt m' i).alive = true := hsame.alive.trans ha
  obtain ⟨pre, b, post, rfl, hh⟩ := hI.holds hi ha'
  have hb : b ∈ pre ++ b :: post := by simp
  rw [← hsame.id, ← hsame.tag]
  refine ⟨hI.val_find hi ha' r userId callerPerms, fun s hs honly => ?_,
    (hI.exec_ptr hh hb hr userId callerPerms SHM_PERM_READ).val,
    fun required => (hI.exec_ptr hh hb hr userId callerPerms required).val,
    fun T => hI.val_castDyn hh hb hr T userId callerPerms⟩
  exact hI.val_findByName hi ha' hreach.named ((nameOf_congr hsame.name).trans hs) honly r userId
    callerPerms

/-- Eight bytes with a tag. -/
def taggedBytes : Request := ⟨8, none, 7, 0xF, 42⟩

/-- The conversion that changes nothing, to a type with the tag. -/
def sameType (tag : UInt32) : CxxCast := ⟨tag, fun p => pure (some p), fun _ => .pure _⟩

/-- On the page an object has grown since it was made, and is converted to the type of its tag, and
to no other. -/
theorem handles_follow_objects_page :
    (Cxx.castDyn (sameType 42) (some pageHandle) 56 7 0xF).val ((resizes 1 100).prog.mem
      (firstMem pageGeometry pageHandle taggedBytes)) = some (pageGeometry.base + 56) ∧
    (Cxx.castDyn (sameType 43) (some pageHandle) 56 7 0xF).val ((resizes 1 100).prog.mem
      (firstMem pageGeometry pageHandle taggedBytes)) = none := by
  have hreach : Reach pageGeometry NoWrap (firstMem pageGeometry pageHandle taggedBytes) :=
    reach_first rfl (by decide) (by decide) (by decide) (by decide)
  have hl : Legal pageGeometry (firstMem pageGeometry pageHandle taggedBytes) (resizes 1 100) :=
    legal_resize (Nat.le_refl _) (by decide) (by decide +kernel)
  obtain ⟨bs, hI⟩ := hreach.inv
  have hrun := (Run.refl (C := NoWrap)).call _ hl (noWrap_of_not_alloc hI hl nofun)
  have ha : (entryAt (firstMem pageGeometry pageHandle taggedBytes) 0).alive = true := by
    decide +kernel
  have htag : (entryAt (firstMem pageGeometry pageHandle taggedBytes) 0).tag = 42 := by
    decide +kernel
  have hoff : (entryAt ((resizes 1 100).prog.mem
      (firstMem pageGeometry pageHandle taggedBytes)) 0).off = 56 := by decide +kernel
  have hmay : MayAccess (entryAt ((resizes 1 100).prog.mem
      (firstMem pageGeometry pageHandle taggedBytes)) 0) 7 0xF SHM_PERM_READ := by decide +kernel
  have hcast := (handles_follow_objects hreach hrun (i := 0) (by decide) ha
    List.not_mem_nil (r := pageHandle) rfl 7 0xF).2.2.2.2
  rw [hoff, htag] at hcast
  refine ⟨(hcast (sameType 42)).trans (if_pos ⟨hmay, .inr rfl⟩), (hcast (sameType 43)).trans ?_⟩
  exact if_neg fun hc => hc.2.elim (by decide) (by decide)

end ShmAlloc
