import ShmAlloc.Region.Call
import ShmAlloc.Region.Cap
import ShmAlloc.Region.ReadOnly

/-!
# Any offset, any bytes

The functions that take a bare offset compute `heap_base + off - 56` and then trust the bytes they
find: the magic word, and all but `shm_block_info` the tag bit.  Here the offset is any number and
the memory any memory, so what they return is said about bytes and not about blocks.

## What is here

* `PassesLive`, `PassesMeta` and `PassesDerive`: what the checks ask of the bytes at an address.
* `val_shmCapDerive`, `val_shmCapIsValid`, `val_shmCapDeref`, `val_shmPtr` and `val_shmBlockInfo`:
  **what the functions return**, on any bytes.
* `val_shmBlockSetPerms_of_not_live`: `shm_block_set_perms` answers `EINVAL` where no block is.
* `HdrLoad` and `RawLoad`: which loads they make.  They look for `data_offset` and for the header,
  and go past the magic word only if it is right.

All of it is evaluation, and holds without the region invariant.
-/

set_option autoImplicit false

namespace ShmAlloc

variable {m : Mem} {r : Region} {p off : Nat}

/-! ## The header of an offset -/

/-- Where `shm_blk_of_poff` looks for the header. -/
def hdrOf (m : Mem) (off : Nat) : Nat := sub64 (add64 (m.load 80 8) off) 56

theorem val_blkOfPoff (m : Mem) (off : Nat) : (shmBlkOfPoff off).val m = hdrOf m off := by
  have hbase : shmHeapBase.val m = m.load 80 8 := rfl
  rw [shmBlkOfPoff, Prog.val_bind, hbase, Prog.val_pure, hdrOf]

/-- What goes on with the header of an offset. -/
theorem val_blkOfPoff_bind {α : Type} (f : Nat → Prog α) :
    (shmBlkOfPoff off >>= f).val m = (f (hdrOf m off)).val m := by
  rw [Prog.val_bind, (readsOnly_blkOfPoff off m).mem, val_blkOfPoff]

/-- The bytes at `p` pass for the header of an allocated block. -/
structure PassesLive (r : Region) (m : Mem) (p : Nat) : Prop where
  mapped : isNull r p = false
  magic : m.load p 4 = SHM_ALLOC_MAGIC_BLOCK
  allocated : m.load (p + 16) 1 ≠ 0

instance (r : Region) (m : Mem) (p : Nat) : Decidable (PassesLive r m p) :=
  decidable_of_iff (isNull r p = false ∧ m.load p 4 = SHM_ALLOC_MAGIC_BLOCK ∧
    m.load (p + 16) 1 ≠ 0) ⟨fun h => ⟨h.1, h.2.1, h.2.2⟩, fun h => ⟨h.1, h.2, h.3⟩⟩

/-! ## The checks -/

theorem val_isLiveBlk (r : Region) (m : Mem) (p : Nat) :
    (isLiveBlk r p).val m = decide (PassesLive r m p) := by
  rw [isLiveBlk]
  cases hnull : isNull r p with
  | true =>
    rw [decide_eq_false fun h => Bool.noConfusion (hnull.symm.trans h.mapped)]
    rfl
  | false =>
    rw [if_neg Bool.false_ne_true]
    show (Prog.load p 4 >>= _).val m = _
    rw [Prog.val_bind, Prog.mem_load, Prog.val_load]
    by_cases hmagic : m.load p 4 = SHM_ALLOC_MAGIC_BLOCK
    · rw [if_neg (not_not.2 hmagic)]
      show (m.load (p + 16) 1 != 0) = _
      by_cases ha : m.load (p + 16) 1 = 0
      · rw [decide_eq_false fun h => h.allocated ha, ha]
        rfl
      · rw [decide_eq_true ⟨hnull, hmagic, ha⟩]
        exact bne_iff_ne.2 ha
    · rw [if_pos hmagic, decide_eq_false fun h => hmagic h.magic]
      rfl

/-- What goes on behind the check of the tag bit. -/
theorem val_isLiveBlk_bind {α : Type} (f : Bool → Prog α) :
    (isLiveBlk r p >>= f).val m = (f (decide (PassesLive r m p))).val m := by
  rw [Prog.val_bind, (readsOnly_isLiveBlk r p m).mem, val_isLiveBlk]

theorem val_checkBlockAccess (r : Region) (m : Mem) (p : Nat)
    (caller callerPerms required : UInt32) :
    (checkBlockAccess r p caller callerPerms required).val m =
      if PassesLive r m p then
        checkOwner (m.load (p + 8) 4) (m.load (p + 12) 4) caller callerPerms required
      else .einval := by
  rw [checkBlockAccess]
  by_cases hnull : isNull r p = true
  · rw [if_pos hnull, if_neg fun h => Bool.noConfusion (hnull.symm.trans h.mapped)]
    rfl
  rw [if_neg hnull]
  show (Prog.load p 4 >>= _).val m = _
  rw [Prog.val_bind, Prog.mem_load, Prog.val_load]
  by_cases hmagic : m.load p 4 = SHM_ALLOC_MAGIC_BLOCK
  · rw [if_neg (not_not.2 hmagic)]
    show (Prog.load (p + 16) 1 >>= _).val m = _
    rw [Prog.val_bind, Prog.mem_load, Prog.val_load]
    by_cases ha : m.load (p + 16) 1 = 0
    · rw [if_pos ha, if_neg fun h => h.allocated ha]
      rfl
    · rw [if_neg ha, if_pos ⟨by simpa using hnull, hmagic, ha⟩]
      rfl
  · rw [if_pos hmagic, if_neg fun h => hmagic h.magic]
    rfl

/-- What goes on behind the access check. -/
theorem val_checkBlockAccess_bind {α : Type} {caller callerPerms required : UInt32}
    (f : Rc → Prog α) :
    (checkBlockAccess r p caller callerPerms required >>= f).val m =
      (f (if PassesLive r m p then
        checkOwner (m.load (p + 8) 4) (m.load (p + 12) 4) caller callerPerms required
        else .einval)).val m := by
  rw [Prog.val_bind, (readsOnly_checkBlockAccess r p caller callerPerms required m).mem,
    val_checkBlockAccess]

/-- The bytes at `p` have the epoch and the bounds of the capability. -/
def PassesMeta (m : Mem) (p : Nat) (cap : Cap) : Prop :=
  UInt16.ofNat (m.load (p + 24) 8 &&& 0xFFFF) = metaEpoch cap.metaWord ∧
    UInt32.ofNat (m.load (p + 32) 8) = metaBounds cap.metaWord

instance (m : Mem) (p : Nat) (cap : Cap) : Decidable (PassesMeta m p cap) := by
  unfold PassesMeta
  infer_instance

theorem val_matchesMeta (m : Mem) (p : Nat) (cap : Cap) :
    (matchesMeta p cap).val m = decide (PassesMeta m p cap) := by
  rw [matchesMeta]
  show (Prog.load (p + 24) 8 >>= _).val m = _
  rw [Prog.val_bind, Prog.mem_load, Prog.val_load]
  by_cases he : UInt16.ofNat (m.load (p + 24) 8 &&& 0xFFFF) = metaEpoch cap.metaWord
  · rw [if_neg (not_not.2 he)]
    show (UInt32.ofNat (m.load (p + 32) 8) == metaBounds cap.metaWord) = _
    refine Bool.eq_iff_iff.2 ?_
    rw [beq_iff_eq, decide_eq_true_eq]
    exact ⟨fun hb => ⟨he, hb⟩, fun h => h.2⟩
  · rw [if_pos he, decide_eq_false fun h => he h.1]
    rfl

theorem val_matchesMeta_bind {α : Type} {cap : Cap} (f : Bool → Prog α) :
    (matchesMeta p cap >>= f).val m = (f (decide (PassesMeta m p cap))).val m := by
  rw [Prog.val_bind, (readsOnly_matchesMeta p cap m).mem, val_matchesMeta]

/-! ## The uses -/

/-- What `shm_cap_derive` asks of the bytes at `p` and of the caller. -/
structure PassesDerive (r : Region) (m : Mem) (p : Nat) (userId callerPerms grant : UInt32) :
    Prop where
  live : PassesLive r m p
  owner : callerPerms &&& SHM_PERM_ADMIN ≠ 0 ∨ userId.toNat = m.load (p + 8) 4
  perms : grant.toNat &&& (m.load (p + 12) 4 &&& callerPerms.toNat) = grant.toNat
  bounds : m.load (p + 32) 8 ≤ 0xFFFFFFFF

/-- The capability that seals the bytes at `p`. -/
def capAt (m : Mem) (p off : Nat) (grant : UInt32) : Cap :=
  ⟨off, capMetaPack (grant &&& 0xFF).toUInt8 (UInt8.ofNat (m.load (p + 8) 4 &&& 0xFF))
    (UInt16.ofNat (m.load (p + 24) 8 &&& 0xFFFF)) (UInt32.ofNat (m.load (p + 32) 8))⟩

/-- **`shm_cap_derive`** on any bytes. -/
theorem val_shmCapDerive (r : Region) (m : Mem) (off : Nat) (userId callerPerms grant : UInt32) :
    PassesDerive r m (hdrOf m off) userId callerPerms grant ∧
        (shmCapDerive (some r) off userId callerPerms grant).val m
          = capAt m (hdrOf m off) off grant ∨
      ¬ PassesDerive r m (hdrOf m off) userId callerPerms grant ∧
        (shmCapDerive (some r) off userId callerPerms grant).val m = SHM_CAP_NULL := by
  rw [shmCapDerive, val_blkOfPoff_bind, val_isLiveBlk_bind]
  generalize hdrOf m off = p
  by_cases hlive : PassesLive r m p
  · rw [decide_eq_true hlive, if_pos rfl, deriveFrom]
    show _ ∧ (Prog.load (p + 8) 4 >>= _).val m = _ ∨ _ ∧ (Prog.load (p + 8) 4 >>= _).val m = _
    rw [Prog.val_bind, Prog.mem_load, Prog.val_load]
    by_cases ho : callerPerms &&& SHM_PERM_ADMIN = 0 ∧ userId.toNat ≠ m.load (p + 8) 4
    · rw [if_pos ho]
      refine .inr ⟨fun h => ?_, rfl⟩
      exact h.owner.elim (fun h' => h' ho.1) fun h' => ho.2 h'
    rw [if_neg ho]
    show _ ∧ (Prog.load (p + 12) 4 >>= _).val m = _ ∨ _ ∧ (Prog.load (p + 12) 4 >>= _).val m = _
    rw [Prog.val_bind, Prog.mem_load, Prog.val_load]
    by_cases hp : grant.toNat &&& (m.load (p + 12) 4 &&& callerPerms.toNat) = grant.toNat
    · rw [if_neg (not_not.2 hp), sealCap]
      show _ ∧ (Prog.load (p + 32) 8 >>= _).val m = _ ∨ _ ∧ (Prog.load (p + 32) 8 >>= _).val m = _
      rw [Prog.val_bind, Prog.mem_load, Prog.val_load]
      by_cases hbound : 0xFFFFFFFF < m.load (p + 32) 8
      · rw [if_pos hbound]
        exact .inr ⟨fun h => absurd h.bounds (Nat.not_le_of_lt hbound), rfl⟩
      · rw [if_neg hbound]
        refine .inl ⟨⟨hlive, ?_, hp, Nat.le_of_not_lt hbound⟩, rfl⟩
        exact (not_and_or.1 ho).imp id not_not.1
    · rw [if_pos hp]
      exact .inr ⟨fun h => hp h.perms, rfl⟩
  · rw [decide_eq_false hlive, if_neg Bool.false_ne_true]
    exact .inr ⟨fun h => hlive h.live, rfl⟩

/-- **`shm_cap_is_valid`** on any bytes. -/
theorem val_shmCapIsValid (r : Region) (m : Mem) (cap : Cap) :
    (shmCapIsValid (some r) cap).val m = true ↔ shmCapIsNull cap = false ∧
      PassesLive r m (hdrOf m cap.addr) ∧ PassesMeta m (hdrOf m cap.addr) cap := by
  rw [shmCapIsValid]
  cases hnull : shmCapIsNull cap with
  | true => simp
  | false =>
    rw [if_neg Bool.false_ne_true]
    show (shmBlkOfPoff cap.addr >>= _).val m = true ↔ _
    rw [val_blkOfPoff_bind, val_isLiveBlk_bind]
    by_cases hlive : PassesLive r m (hdrOf m cap.addr)
    · rw [decide_eq_true hlive, if_pos rfl, val_matchesMeta, decide_eq_true_eq]
      exact ⟨fun h => ⟨rfl, hlive, h⟩, fun h => h.2.2⟩
    · rw [decide_eq_false hlive, if_neg Bool.false_ne_true]
      exact ⟨fun h => by simp at h, fun h => absurd h.2.1 hlive⟩

/-- **`shm_cap_deref`** on any bytes. -/
theorem val_shmCapDeref (r : Region) (m : Mem) (cap : Cap) (required : UInt32) :
    (shmCapDeref (some r) cap required).val m =
      if (shmCapIsValid (some r) cap).val m = true ∧ shmCapPerms cap &&& required = required ∧
          m.load (hdrOf m cap.addr + 12) 4 &&& required.toNat = required.toNat then
        some (hdrOf m cap.addr + 56)
      else none := by
  rw [if_congr (and_congr_left fun _ => val_shmCapIsValid r m cap) rfl rfl, shmCapDeref]
  cases hnull : shmCapIsNull cap with
  | true => simp
  | false =>
    rw [if_neg Bool.false_ne_true]
    show (shmBlkOfPoff cap.addr >>= _).val m = _
    rw [val_blkOfPoff_bind, val_isLiveBlk_bind]
    generalize hdrOf m cap.addr = p
    by_cases hlive : PassesLive r m p
    · rw [decide_eq_true hlive, if_pos rfl, val_matchesMeta_bind]
      by_cases hmeta : PassesMeta m p cap
      · have hcap : (metaPerms cap.metaWord).toUInt32 = shmCapPerms cap := rfl
        rw [decide_eq_true hmeta, if_pos rfl, derefPerms, hcap]
        by_cases h1 : shmCapPerms cap &&& required = required
        · rw [if_neg (not_not.2 h1)]
          show (Prog.load (p + 12) 4 >>= _).val m = _
          rw [Prog.val_bind, Prog.mem_load, Prog.val_load]
          by_cases h2 : m.load (p + 12) 4 &&& required.toNat = required.toNat
          · rw [if_neg (not_not.2 h2), if_pos ⟨⟨rfl, hlive, hmeta⟩, h1, h2⟩]
            rfl
          · rw [if_pos h2, if_neg fun h => h2 h.2.2]
            rfl
        · rw [if_pos h1, if_neg fun h => h1 h.2.1]
          rfl
      · rw [decide_eq_false hmeta, if_neg Bool.false_ne_true, if_neg fun h => hmeta h.1.2.2]
        rfl
    · rw [decide_eq_false hlive, if_neg Bool.false_ne_true, if_neg fun h => hlive h.1.2.1]
      rfl

/-- **`shm_ptr`** on any bytes. -/
theorem val_shmPtr (r : Region) (m : Mem) (off : Nat) (userId callerPerms required : UInt32) :
    (shmPtr (some r) off userId callerPerms required).val m =
      if PassesLive r m (hdrOf m off) ∧ checkOwner (m.load (hdrOf m off + 8) 4)
          (m.load (hdrOf m off + 12) 4) userId callerPerms required = .ok then
        some (hdrOf m off + 56)
      else none := by
  rw [shmPtr, val_blkOfPoff_bind, val_checkBlockAccess_bind]
  generalize hdrOf m off = p
  by_cases hlive : PassesLive r m p
  · rw [if_pos hlive]
    by_cases hok : checkOwner (m.load (p + 8) 4) (m.load (p + 12) 4) userId callerPerms required
        = .ok
    · rw [if_pos hok, if_pos ⟨hlive, hok⟩]
      rfl
    · rw [if_neg hok, if_neg fun h => hok h.2]
      rfl
  · rw [if_neg hlive, if_neg (by decide), if_neg fun h => hlive h.1]
    rfl

/-- **`shm_block_set_perms`** where no block is: `EINVAL`. -/
theorem val_shmBlockSetPerms_of_not_live (h : ¬ PassesLive r m (hdrOf m off))
    (userId callerPerms newPerms : UInt32) :
    (shmBlockSetPerms (some r) off userId callerPerms newPerms).val m = .einval := by
  rw [shmBlockSetPerms, Prog.val_bind, mem_regionLock, val_blkOfPoff_bind,
    val_checkBlockAccess_bind,
    if_neg h]
  rfl

/-! ## What they read

An offset may lead behind the mapping, so it matters which bytes are read before a call answers. -/

/-- The load is inside a header at `p`. -/
def FromHdr (p a n : Nat) : Prop := p ≤ a ∧ a + n ≤ p + 56

theorem loads_get {f : CField} (hf : f.off + f.width ≤ 56) : LoadsIn (FromHdr p) (Prog.get p f) m :=
  .load ⟨by omega, by omega⟩

/-- The load is the magic word at `p`, or is inside the header behind a magic word. -/
def HdrLoad (r : Region) (m : Mem) (p a n : Nat) : Prop :=
  isNull r p = false ∧ (a = p ∧ n = 4 ∨ m.load p 4 = SHM_ALLOC_MAGIC_BLOCK ∧ FromHdr p a n)

/-- The load is `data_offset`, or the header. -/
def RawLoad (r : Region) (m : Mem) (p a n : Nat) : Prop := a = 80 ∧ n = 8 ∨ HdrLoad r m p a n

theorem loads_blkOfPoff_bind {α : Type} {f : Nat → Prog α}
    (hf : LoadsIn (RawLoad r m (hdrOf m off)) (f (hdrOf m off)) m) :
    LoadsIn (RawLoad r m (hdrOf m off)) (shmBlkOfPoff off >>= f) m := by
  refine .bind_reads (readsOnly_blkOfPoff off m) ?_ ?_
  · exact .load_bind (.inl ⟨rfl, rfl⟩) (.pure _)
  · rwa [val_blkOfPoff]

/-- Where the pointer is not null and the magic word matches, the header may be read. -/
theorem LoadsIn.ofHdr {α : Type} {x : Prog α} (h : LoadsIn (FromHdr p) x m)
    (hnull : isNull r p = false) (hmagic : m.load p 4 = SHM_ALLOC_MAGIC_BLOCK) :
    LoadsIn (HdrLoad r m p) x m :=
  h.mono fun _ _ ha => ⟨hnull, .inr ⟨hmagic, ha⟩⟩

theorem loads_isLiveBlk (r : Region) (m : Mem) (p : Nat) :
    LoadsIn (HdrLoad r m p) (isLiveBlk r p) m := by
  rw [isLiveBlk]
  cases hnull : isNull r p with
  | true => exact .pure _
  | false =>
    refine .load_bind ⟨hnull, .inl ⟨rfl, rfl⟩⟩ ?_
    show LoadsIn _ (if m.load p 4 ≠ SHM_ALLOC_MAGIC_BLOCK then _ else _) m
    split
    · exact .pure _
    · rename_i hmagic
      exact LoadsIn.ofHdr (.bind (loads_get (by decide)) (.pure _)) hnull (not_not.1 hmagic)

theorem loads_checkBlockAccess (r : Region) (m : Mem) (p : Nat)
    (caller callerPerms required : UInt32) :
    LoadsIn (HdrLoad r m p) (checkBlockAccess r p caller callerPerms required) m := by
  rw [checkBlockAccess]
  cases hnull : isNull r p with
  | true => exact .pure _
  | false =>
    refine .load_bind ⟨hnull, .inl ⟨rfl, rfl⟩⟩ ?_
    show LoadsIn _ (if m.load p 4 ≠ SHM_ALLOC_MAGIC_BLOCK then _ else _) m
    split
    · exact .pure _
    · rename_i hmagic
      refine LoadsIn.ofHdr (.bind (loads_get (by decide)) ?_) hnull (not_not.1 hmagic)
      split
      · exact .pure _
      · exact .bind (loads_get (by decide)) (.bind (loads_get (by decide)) (.pure _))

theorem loads_matchesMeta (cap : Cap) : LoadsIn (FromHdr p) (matchesMeta p cap) m := by
  refine .bind (loads_get (by decide)) ?_
  split
  · exact .pure _
  · exact .bind (loads_get (by decide)) (.pure _)

theorem loads_derefPerms (cap : Cap) (required : UInt32) :
    LoadsIn (FromHdr p) (derefPerms p cap required) m := by
  rw [derefPerms]
  split
  · exact .pure _
  · refine .bind (loads_get (by decide)) ?_
    split
    · exact .pure _
    · exact .pure _

theorem loads_deriveFrom (userId callerPerms grant : UInt32) :
    LoadsIn (FromHdr p) (deriveFrom off p userId callerPerms grant) m := by
  refine .bind (loads_get (by decide)) ?_
  split
  · exact .pure _
  refine .bind (loads_get (by decide)) ?_
  split
  · exact .pure _
  refine .bind (loads_get (by decide)) ?_
  split
  · exact .pure _
  · exact .bind (loads_get (by decide)) (.bind (loads_get (by decide)) (.pure _))

/-! ### `shm_block_info` -/

theorem val_blockInfoAt (r : Region) (m : Mem) (b : Nat) (c o p t i : Bool) :
    (blockInfoAt r b c o p t i).val m =
      if isNull r b = false ∧ m.load b 4 = SHM_ALLOC_MAGIC_BLOCK then .ok else .einval := by
  rw [blockInfoAt]
  by_cases hnull : isNull r b = true
  · rw [if_pos hnull, if_neg fun h => Bool.noConfusion (hnull.symm.trans h.1)]
    rfl
  · rw [if_neg hnull]
    show (Prog.load b 4 >>= _).val m = _
    rw [Prog.val_bind, Prog.mem_load, Prog.val_load]
    by_cases hmagic : m.load b 4 = SHM_ALLOC_MAGIC_BLOCK
    · rw [if_neg (not_not.2 hmagic), if_pos ⟨by simpa using hnull, hmagic⟩]
      rfl
    · rw [if_pos hmagic, if_neg fun h => hmagic h.2]
      rfl

/-- **`shm_block_info`** on any bytes. -/
theorem val_shmBlockInfo (r : Region) (m : Mem) (off : Nat) (c o p t i : Bool) :
    (shmBlockInfo (some r) off c o p t i).val m =
      if isNull r (hdrOf m off) = false ∧ m.load (hdrOf m off) 4 = SHM_ALLOC_MAGIC_BLOCK then .ok
      else .einval := by
  rw [shmBlockInfo, val_blkOfPoff_bind, val_blockInfoAt]

theorem loads_outField_bind {α : Type} {given : Bool} {i : Nat} {f : CField} {g : Unit → Prog α}
    (hf : f.off + f.width ≤ 56) (hg : LoadsIn (FromHdr p) (g ()) m) :
    LoadsIn (FromHdr p) (outField given i p f >>= g) m := by
  rw [outField]
  cases given with
  | true => exact .bind (.bind (loads_get hf) .emit) hg
  | false => exact .bind (.pure _) hg

theorem loads_blockInfoAt (r : Region) (m : Mem) (b : Nat) (c o p t i : Bool) :
    LoadsIn (HdrLoad r m b) (blockInfoAt r b c o p t i) m := by
  rw [blockInfoAt]
  cases hnull : isNull r b with
  | true => exact .pure _
  | false =>
    refine .load_bind ⟨hnull, .inl ⟨rfl, rfl⟩⟩ ?_
    show LoadsIn _ (if m.load b 4 ≠ SHM_ALLOC_MAGIC_BLOCK then _ else _) m
    split
    · exact .pure _
    · rename_i hmagic
      refine LoadsIn.ofHdr ?_ hnull (not_not.1 hmagic)
      exact loads_outField_bind (by decide) (loads_outField_bind (by decide)
        (loads_outField_bind (by decide) (loads_outField_bind (by decide)
          (loads_outField_bind (by decide) (.pure _)))))

end ShmAlloc
