import ShmAlloc.Guarantees.Heap

/-!
# The directory mirrors the heap

The identity and the permissions of an object are stored twice, in its block and in its directory
slot.  In every reachable state the two copies agree, entry by entry, so it does not matter which of
them an access is checked against.

## What is here

* `SameObject`: entry and block describe the same object, permissions included.
* `FullInv.sameObject`: the entry of a live block and the block do.
* `exec_checkBlockAccess_poff` and `exec_shmPtr`: access through the block, at a payload offset.
* `exec_shmLookup`: access through the entry, by id.
* `Corresponds`: the entries in use and the live blocks correspond one to one.
* `directory_mirrors_heap`: **in every reachable state without a wrap they do, and access through
  the one is granted exactly if it is through the other**, at the same address.
-/

set_option autoImplicit false

namespace ShmAlloc

open Tiling Links

variable {G : Geometry} {m m' : Mem} {bs pre post : List Blk}

/-- The entry and the block describe the same object. -/
structure SameObject (e : Entry) (b : Blk) : Prop where
  off : e.off = b.off + blockHdrSize
  id : e.id = b.id
  owner : e.owner = b.owner
  perms : e.perms = b.perms
  tag : e.tag = b.tag
  cap : e.cap = b.cap

/-- **Permissions are mirrored too**: the entry of a live block has the block's permissions. -/
theorem FullInv.perms_eq (h : FullInv G m bs) {i : Nat} {b : Blk} (hh : Holds G m i b)
    (hb : b ∈ bs) : (entryAt m i).perms = b.perms := by
  obtain ⟨j, hj, ha, hoff, hperms⟩ := h.ids.onto b hb hh.live
  have hij : i = j := h.dir.inj i j hh.lt hj hh.alive ha (hh.mirrors.off.trans hoff.symm)
  rw [hij]
  exact hperms

theorem FullInv.sameObject (h : FullInv G m bs) {i : Nat} {b : Blk} (hh : Holds G m i b)
    (hb : b ∈ bs) : SameObject (entryAt m i) b :=
  ⟨hh.mirrors.off, hh.mirrors.id, hh.mirrors.owner, h.perms_eq hh hb, hh.mirrors.tag,
    hh.mirrors.cap⟩

/-- Checks of an entry and of the block it describes come out the same. -/
theorem SameObject.access {e : Entry} {b : Blk} (h : SameObject e b) (he : e.Live)
    (hb : b.live = true) (caller callerPerms required : UInt32) :
    e.access caller callerPerms required = b.access caller callerPerms required := by
  rw [Entry.access_live he, Blk.access, if_pos hb, h.owner, h.perms]

/-- An entry in use is live as the access check sees it. -/
theorem FullInv.entry_live (h : FullInv G m bs) {i : Nat} (hi : i < G.dirCap)
    (ha : (entryAt m i).alive = true) : (entryAt m i).Live :=
  ⟨ha, Nat.ne_of_gt (h.ids.id_pos i hi ha)⟩

/-! ## Access through the entry and through the block

The two checks of the code are separate functions that read separate copies; that they agree is
`SameObject.access`. -/

section

variable {i : Nat} {b : Blk} {r : Region}

/-- `check_block_access` on the block at the offset of an entry. -/
theorem exec_checkBlockAccess_poff (h : FullInv G m bs) (hh : Holds G m i b) (hb : b ∈ bs)
    (hr : r.size = G.size) (caller callerPerms required : UInt32) :
    Exec G.size (shmBlkOfPoff (entryAt m i).off >>= fun p =>
      checkBlockAccess r p caller callerPerms required) m
      ((entryAt m i).access caller callerPerms required) [] := by
  have hbb := h.heap.bounds hb
  have hsz := G.size_eq
  have hnull : isNull r (G.base + b.off) = false := isNull_of_mapped (by omega)
  have hx := exec_checkBlockAccess (r := r) (h.heap.blk b hb) (by omega) caller callerPerms required
  rw [hnull, if_neg Bool.false_ne_true,
    ← (h.sameObject hh hb).access (h.entry_live hh.lt hh.alive) hh.live] at hx
  rw [hh.mirrors.off]
  exact (exec_blkOfPoff h.layout (by omega)).bind_nil hx

/-- `shm_ptr` at the offset of an entry to which the caller has access. -/
theorem exec_shmPtr (h : FullInv G m bs) (hh : Holds G m i b) (hb : b ∈ bs)
    (hr : r.size = G.size) {caller callerPerms required : UInt32}
    (hacc : (entryAt m i).access caller callerPerms required = .ok) :
    Exec G.size (shmPtr (some r) (entryAt m i).off caller callerPerms required) m
      (some (G.base + (entryAt m i).off)) [] := by
  have hbb := h.heap.bounds hb
  have hsz := G.size_eq
  have hnull : isNull r (G.base + b.off) = false := isNull_of_mapped (by omega)
  have hx := exec_checkBlockAccess (r := r) (h.heap.blk b hb) (by omega) caller callerPerms required
  rw [hnull, if_neg Bool.false_ne_true,
    ← (h.sameObject hh hb).access (h.entry_live hh.lt hh.alive) hh.live, hacc] at hx
  rw [shmPtr, hh.mirrors.off]
  refine (exec_blkOfPoff h.layout (by omega)).bind_nil (hx.bind_nil ?_)
  rw [if_pos rfl, blockHdrSize, Nat.add_assoc]
  exact .pure _

end

/-! ## Lookup -/

/-- What `shm_lookup` writes through its out-pointers. -/
def lookupEvents (e : Entry) (outOff outUsedSize : Bool) : List Event :=
  (if outOff then [.out 0 e.off] else []) ++ (if outUsedSize then [.out 1 e.used] else []) ++
    [.unlock]

theorem exec_setOut {sz : Nat} (given : Bool) (i v : Nat) :
    Exec sz (setOut given i v) m () (if given then [.out i v] else []) := by
  cases given with
  | true => exact .emit
  | false => exact .pure _

theorem replay_setOut (given : Bool) (i v : Nat) (m : Mem) :
    replay (if given then [.out i v] else []) m = m := by
  cases given <;> rfl

theorem exec_answerLookup {i : Nat} (hi : i < G.dirCap) (outOff outUsedSize : Bool) :
    Exec G.size (answerLookup outOff outUsedSize (slotAddr i)) m .ok
      (lookupEvents (entryAt m i) outOff outUsedSize) := by
  rw [answerLookup, lookupEvents, List.append_assoc]
  refine Exec.load_bind (v := (entryAt m i).off) rfl (slot_field_le hi (by decide)) ?_
  refine (exec_setOut outOff 0 _).seq ?_
  rw [replay_setOut]
  refine Exec.load_bind (v := (entryAt m i).used) rfl (slot_field_le hi (by decide)) ?_
  exact (exec_setOut outUsedSize 1 _).seq (exec_unlockReturn _)

/-- **`shm_lookup`** answers from the first entry that has the id, if access to it is granted. -/
theorem exec_shmLookup (hL : LayoutOk G m) (r : Region) {objId : Nat} (hid : objId ≠ 0)
    (userId callerPerms : UInt32) (outOff outUsedSize : Bool) :
    (∃ rc, rc ≠ .ok ∧
        Exec G.size (shmLookup (some r) objId userId callerPerms outOff outUsedSize) m rc
          (lockEvents r ++ [.unlock])) ∨
      ∃ i, Finds G m objId i ∧ (entryAt m i).access userId callerPerms SHM_PERM_READ = .ok ∧
        Exec G.size (shmLookup (some r) objId userId callerPerms outOff outUsedSize) m .ok
          (lockEvents r ++ lookupEvents (entryAt m i) outOff outUsedSize) := by
  rw [shmLookup, if_neg hid]
  rcases exec_withEntry hL objId userId callerPerms SHM_PERM_READ
    (answerLookup outOff outUsedSize) with ⟨-, hx⟩ | ⟨i, hf, ⟨hacc, hx⟩ | ⟨hacc, hx, -⟩⟩
  · exact .inl ⟨.enoent, by decide, exec_locked r hx⟩
  · exact .inl ⟨_, hacc, exec_locked r hx⟩
  · exact .inr ⟨i, hf, hacc, exec_locked r (hx _ _ (exec_answerLookup hf.lt outOff outUsedSize))⟩

/-! ## The correspondence -/

/-- The entries in use and the live blocks of the chain `bs` correspond one to one. -/
structure Corresponds (G : Geometry) (m : Mem) (bs : List Blk) : Prop where
  /-- No entry dangles: it describes a live block, and only that one. -/
  entry : ∀ i, i < G.dirCap → (entryAt m i).alive = true →
    ∃! b, b ∈ bs ∧ b.live = true ∧ SameObject (entryAt m i) b
  /-- No block is leaked or shared: exactly one entry describes it. -/
  block : ∀ b ∈ bs, b.live = true →
    ∃! i, i < G.dirCap ∧ (entryAt m i).alive = true ∧ SameObject (entryAt m i) b

theorem FullInv.corresponds (h : FullInv G m bs) : Corresponds G m bs := by
  refine ⟨fun i hi ha => ?_, fun b hb hl => ?_⟩
  · obtain ⟨b, hb, hl, hm⟩ := h.dir.entry i hi ha
    refine ⟨b, ⟨hb, hl, h.sameObject ⟨hi, ha, hl, hm⟩ hb⟩, fun c ⟨hc, _, hs⟩ => ?_⟩
    have h1 : (entryAt m i).off = c.off + 56 := hs.off
    have h2 := hm.off
    exact h.heap.eq_of_off hc hb (by omega)
  · obtain ⟨i, hi, ha, hoff, -⟩ := h.ids.onto b hb hl
    obtain ⟨c, hc, hcl, hm⟩ := h.dir.entry i hi ha
    have hcb : c = b := by
      have := hm.off
      exact h.heap.eq_of_off hc hb (by omega)
    subst hcb
    refine ⟨i, ⟨hi, ha, h.sameObject ⟨hi, ha, hl, hm⟩ hb⟩, fun j ⟨hj, hja, hs⟩ => ?_⟩
    exact h.dir.inj j i hj hi hja ha (hs.off.trans hoff.symm)

/-- **Directory and heap mirror each other.**  In every reachable state the entries in use and the
live blocks correspond one to one and agree; the access check of an entry and of its block give the
same verdict; and whoever can look an object up can have a pointer to it. -/
theorem directory_mirrors_heap (h : Reach G NoWrap m) : ∃ bs, Chain G m bs ∧
    Corresponds G m bs ∧
    ∀ r : Region, r.size = G.size →
      (∀ i caller callerPerms required, i < G.dirCap → (entryAt m i).alive = true →
        (checkDirAccess (slotAddr i) caller callerPerms required).val m
          = (shmBlkOfPoff (entryAt m i).off >>= fun b =>
              checkBlockAccess r b caller callerPerms required).val m) ∧
      ∀ objId caller callerPerms outUsedSize,
        (shmLookup (some r) objId caller callerPerms true outUsedSize).val m = .ok →
        ∃ off, Event.out 0 off
            ∈ (shmLookup (some r) objId caller callerPerms true outUsedSize).trace m ∧
          (shmPtr (some r) off caller callerPerms SHM_PERM_READ).val
            ((shmLookup (some r) objId caller callerPerms true outUsedSize).mem m)
              = some (G.base + off) := by
  obtain ⟨bs, hI⟩ := h.fullInv
  refine ⟨bs, hI.heap.chain, hI.corresponds, fun r hr =>
    ⟨fun i caller callerPerms required hi ha => ?_,
      fun objId caller callerPerms outUsedSize hok => ?_⟩⟩
  · obtain ⟨pre, b, post, rfl, hh⟩ := hI.holds hi ha
    rw [(exec_checkDirAccess hi caller callerPerms required).val,
      (exec_checkBlockAccess_poff hI hh (by simp) hr caller callerPerms required).val]
  · by_cases hid : objId = 0
    · rw [shmLookup, if_pos hid] at hok
      exact Rc.noConfusion hok
    rcases exec_shmLookup hI.layout r hid caller callerPerms true outUsedSize with
      ⟨rc, hrc, hx⟩ | ⟨i, hf, hacc, hx⟩
    · exact absurd (hx.val.symm.trans hok) hrc
    · obtain ⟨pre, b, post, rfl, hh⟩ := hI.holds hf.lt hf.alive
      have hmem : replay (lockEvents r ++ lookupEvents (entryAt m i) true outUsedSize) m = m := by
        rw [replay_append, replay_lockEvents, lookupEvents]
        cases outUsedSize <;> rfl
      refine ⟨(entryAt m i).off, ?_, ?_⟩
      · have he : Event.out 0 (entryAt m i).off
            ∈ lockEvents r ++ lookupEvents (entryAt m i) true outUsedSize := by
          simp [lookupEvents]
        rw [← hx.eff, mem_effects] at he
        exact he.1
      · rw [hx.mem, hmem]
        exact (exec_shmPtr hI hh (by simp) hr hacc).val

/-- A region with one object: it has an entry and a block that agree, and so on. -/
theorem directory_mirrors_heap_page :
    ∃ bs, Chain pageGeometry (firstMem pageGeometry pageHandle eightBytes) bs ∧
      Corresponds pageGeometry (firstMem pageGeometry pageHandle eightBytes) bs := by
  obtain ⟨bs, hc, hm, -⟩ := directory_mirrors_heap page_reach
  exact ⟨bs, hc, hm⟩

end ShmAlloc
