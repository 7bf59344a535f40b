import ShmAlloc.Cap
import ShmAlloc.Lib.BitField
import ShmAlloc.Region.Entry

/-!
# What capabilities hold

The meta word as a record of four fields: packing and unpacking are inverse to each other, and
narrowing replaces the permissions and leaves the other fields.  And what a derivation and a
dereference say about the header they read.

## What is here

* `metaPerms_pack`, `metaOwner_pack`, `metaEpoch_pack` and `metaBounds_pack`: **unpacking gives back
  what was packed**, cut to the width of the field.
* `Cap.Narrows`: a capability is another one with some of its permissions.  It is a preorder, and
  `narrows_of_narrow` says `shm_cap_narrow` goes down in it.
* `Opens` and `shmCapDeref_eq_some`: **`shm_cap_deref` returns the payload exactly if the capability
  opens the block.**
* `Grants` and `shmCapDerive_val`: `shm_cap_derive` seals what the header says, or returns the null
  capability.
* `ReadsAs` and `shmCapIsValid_iff`: what an address has to read as for a capability to be valid
  there.

The epoch keeps 16 bits of the id and the bounds 32 bits of the capacity; `epoch_eq_iff` and
`bounds_eq_iff` are where that comes in.
-/

set_option autoImplicit false

namespace ShmAlloc

open BitField

variable {G : Geometry} {m : Mem}

/-! ## Fields of the meta word

Extracting a field is a shift and a mask, so these are facts about bit vectors, and come from the
lemmas on bit fields. -/

/-- The owner byte of a meta word.  No function of the code reads it. -/
def metaOwner (w : UInt64) : UInt8 :=
  ((w &&& SHM_CAP_META_OWNER_MASK) >>> SHM_CAP_META_OWNER_SHIFT).toUInt8

theorem metaPerms_toBitVec (w : UInt64) :
    (metaPerms w).toBitVec = w.toBitVec.extractLsb' 56 8 := by
  rw [← read_eq (by decide)]
  rfl

theorem metaOwner_toBitVec (w : UInt64) :
    (metaOwner w).toBitVec = w.toBitVec.extractLsb' 48 8 := by
  rw [← read_eq (by decide)]
  rfl

theorem metaEpoch_toBitVec (w : UInt64) :
    (metaEpoch w).toBitVec = w.toBitVec.extractLsb' 32 16 := by
  rw [← read_eq (by decide)]
  rfl

theorem metaBounds_toBitVec (w : UInt64) :
    (metaBounds w).toBitVec = w.toBitVec.extractLsb' 0 32 := by
  rw [← read_eq (by decide)]
  rfl

theorem capMetaPack_toBitVec (perms ownerLo : UInt8) (epoch : UInt16) (bounds : UInt32) :
    (capMetaPack perms ownerLo epoch bounds).toBitVec =
      place 64 56 perms.toBitVec ||| place 64 48 ownerLo.toBitVec |||
        place 64 32 epoch.toBitVec ||| place 64 0 bounds.toBitVec := rfl

section

variable (perms ownerLo : UInt8) (epoch : UInt16) (bounds : UInt32)

/-- **Unpacking gives back what was packed.** -/
theorem metaPerms_pack : metaPerms (capMetaPack perms ownerLo epoch bounds) = perms := by
  refine UInt8.eq_of_toBitVec_eq ?_
  rw [metaPerms_toBitVec, capMetaPack_toBitVec]
  simp [BitVec.extractLsb'_or, read_place, read_place_disjoint]

theorem metaOwner_pack : metaOwner (capMetaPack perms ownerLo epoch bounds) = ownerLo := by
  refine UInt8.eq_of_toBitVec_eq ?_
  rw [metaOwner_toBitVec, capMetaPack_toBitVec]
  simp [BitVec.extractLsb'_or, read_place, read_place_disjoint]

theorem metaEpoch_pack : metaEpoch (capMetaPack perms ownerLo epoch bounds) = epoch := by
  refine UInt16.eq_of_toBitVec_eq ?_
  rw [metaEpoch_toBitVec, capMetaPack_toBitVec]
  simp [BitVec.extractLsb'_or, read_place, read_place_disjoint]

theorem metaBounds_pack : metaBounds (capMetaPack perms ownerLo epoch bounds) = bounds := by
  refine UInt32.eq_of_toBitVec_eq ?_
  rw [metaBounds_toBitVec, capMetaPack_toBitVec]
  simp [BitVec.extractLsb'_or, read_place, read_place_disjoint]

end

/-- The meta word `shm_cap_narrow` builds. -/
theorem narrowed_toBitVec (w : UInt64) (p : UInt32) :
    ((w &&& ~~~SHM_CAP_META_PERMS_MASK) |||
        (p &&& 0xFF).toUInt64 <<< SHM_CAP_META_PERMS_SHIFT).toBitVec =
      (w.toBitVec &&& ~~~fieldMask 64 56 8) ||| place 64 56 (p.toBitVec.setWidth 8) := by
  rw [← place_truncated]
  rfl

/-! ## Narrowing -/

/-- A mask inside a permission byte fits in a byte. -/
theorem toUInt8_toUInt32_of_within {p : UInt32} {q : UInt8} (h : p &&& q.toUInt32 = p) :
    p.toUInt8.toUInt32 = p := by
  have hbits : p.toBitVec &&& q.toBitVec.setWidth 32 = p.toBitVec := congrArg UInt32.toBitVec h
  exact UInt32.eq_of_toBitVec_eq (setWidth_of_within hbits)

/-- The capability `d` is `c` with some of its permissions, the sealed fields unchanged. -/
structure Cap.Narrows (d c : Cap) : Prop where
  addr : d.addr = c.addr
  owner : metaOwner d.metaWord = metaOwner c.metaWord
  epoch : metaEpoch d.metaWord = metaEpoch c.metaWord
  bounds : metaBounds d.metaWord = metaBounds c.metaWord
  perms : shmCapPerms d &&& shmCapPerms c = shmCapPerms d

theorem Cap.Narrows.refl (c : Cap) : c.Narrows c := ⟨rfl, rfl, rfl, rfl, UInt32.and_self⟩

theorem Cap.Narrows.trans {c d e : Cap} (h : e.Narrows d) (h' : d.Narrows c) : e.Narrows c :=
  ⟨h.addr.trans h'.addr, h.owner.trans h'.owner, h.epoch.trans h'.epoch,
    h.bounds.trans h'.bounds, by rw [← h.perms, UInt32.and_assoc, h'.perms]⟩

/-- **A successful narrowing narrows.** -/
theorem narrows_of_narrow {c d : Cap} {p : UInt32} (h : shmCapNarrow c p = d)
    (hd : d ≠ SHM_CAP_NULL) : d.Narrows c ∧ shmCapPerms d = p := by
  rw [shmCapNarrow] at h
  split at h
  · exact absurd h.symm hd
  split at h
  · exact absurd h.symm hd
  rename_i hp
  have hp : p &&& shmCapPerms c = p := not_not.1 hp
  subst h
  have hperms : metaPerms ((c.metaWord &&& ~~~SHM_CAP_META_PERMS_MASK) |||
      (p &&& 0xFF).toUInt64 <<< SHM_CAP_META_PERMS_SHIFT) = p.toUInt8 := by
    refine UInt8.eq_of_toBitVec_eq ?_
    rw [metaPerms_toBitVec, narrowed_toBitVec, BitVec.extractLsb'_or, read_clear (by decide),
      read_place (by decide), BitVec.zero_or]
    rfl
  have hcap : ∀ a w, shmCapPerms ⟨a, w⟩ = (metaPerms w).toUInt32 := fun _ _ => rfl
  rw [hcap, hperms, toUInt8_toUInt32_of_within hp]
  refine ⟨⟨rfl, ?_, ?_, ?_, ?_⟩, rfl⟩
  · refine UInt8.eq_of_toBitVec_eq ?_
    rw [metaOwner_toBitVec, metaOwner_toBitVec, narrowed_toBitVec, BitVec.extractLsb'_or,
      read_clear_disjoint (by decide) (by decide), read_place_disjoint (by decide),
      BitVec.or_zero]
  · refine UInt16.eq_of_toBitVec_eq ?_
    rw [metaEpoch_toBitVec, metaEpoch_toBitVec, narrowed_toBitVec, BitVec.extractLsb'_or,
      read_clear_disjoint (by decide) (by decide), read_place_disjoint (by decide),
      BitVec.or_zero]
  · refine UInt32.eq_of_toBitVec_eq ?_
    rw [metaBounds_toBitVec, metaBounds_toBitVec, narrowed_toBitVec, BitVec.extractLsb'_or,
      read_clear_disjoint (by decide) (by decide), read_place_disjoint (by decide),
      BitVec.or_zero]
  · rw [hcap, hperms, toUInt8_toUInt32_of_within hp]
    exact hp

/-- **A mask with a bit outside the permission byte does not narrow.** -/
theorem narrow_eq_null_of_bit {c : Cap} {p : UInt32} {k : Nat} (hp : p.toBitVec.getLsbD k = true)
    (hc : (metaPerms c.metaWord).toBitVec.getLsbD k = false) : shmCapNarrow c p = SHM_CAP_NULL := by
  by_contra hne
  obtain ⟨hd, hperms⟩ := narrows_of_narrow rfl hne
  have hsub := hd.perms
  rw [hperms] at hsub
  have hbits : p.toBitVec &&& (metaPerms c.metaWord).toBitVec.setWidth 32 = p.toBitVec :=
    congrArg UInt32.toBitVec hsub
  rw [← hbits, BitVec.getLsbD_and, BitVec.getLsbD_setWidth, hc, Bool.and_false,
    Bool.and_false] at hp
  exact Bool.noConfusion hp

/-! ## Derivation and dereference -/

/-- The epoch of a block. -/
def Blk.epoch (b : Blk) : UInt16 := UInt16.ofNat (b.id &&& 0xFFFF)

section

variable {sz p : Nat}

theorem exec_isLiveBlk_at {r : Region} (hp : p + 56 ≤ sz) :
    Exec sz (isLiveBlk r p) m
      (!isNull r p && (m.load p 4 == SHM_ALLOC_MAGIC_BLOCK && m.load (p + 16) 1 != 0)) [] := by
  rw [isLiveBlk]
  cases hnull : isNull r p with
  | true => exact .pure _
  | false =>
    refine Exec.load_bind (show m.load p 4 = _ from rfl) (by simp; omega) ?_
    by_cases hmagic : m.load p 4 = SHM_ALLOC_MAGIC_BLOCK
    · rw [if_neg (not_not.2 hmagic), beq_iff_eq.2 hmagic]
      exact Exec.load_bind rfl (by simp; omega) (.pure _)
    · rw [if_pos hmagic, beq_eq_false_iff_ne.2 hmagic]
      exact .pure _

theorem exec_matchesMeta_at (hp : p + 56 ≤ sz) (cap : Cap) :
    Exec sz (matchesMeta p cap) m
      (UInt16.ofNat (m.load (p + 24) 8 &&& 0xFFFF) == metaEpoch cap.metaWord &&
        UInt32.ofNat (m.load (p + 32) 8) == metaBounds cap.metaWord) [] := by
  refine Exec.load_bind (show m.load (p + 24) 8 = _ from rfl) (by simp; omega) ?_
  by_cases he : UInt16.ofNat (m.load (p + 24) 8 &&& 0xFFFF) = metaEpoch cap.metaWord
  · rw [if_neg (not_not.2 he), beq_iff_eq.2 he, Bool.true_and]
    exact Exec.load_bind rfl (by simp; omega) (.pure _)
  · rw [if_pos he, beq_eq_false_iff_ne.2 he]
    exact .pure _

end

theorem exec_isLiveBlk {r : Region} {b : Blk} (hB : BlkAt G m b) (hb : b.off + 56 ≤ G.heapSize) :
    Exec G.size (isLiveBlk r (G.base + b.off)) m
      (!isNull r (G.base + b.off) && b.live) [] := by
  have hsz := G.size_eq
  have hx : Exec G.size (isLiveBlk r (G.base + b.off)) m _ [] := exec_isLiveBlk_at (by omega)
  rwa [hB.magic, beq_self_eq_true, Bool.true_and, hB.live] at hx

theorem exec_matchesMeta {b : Blk} (hB : BlkAt G m b) (hb : b.off + 56 ≤ G.heapSize) (cap : Cap) :
    Exec G.size (matchesMeta (G.base + b.off) cap) m
      (b.epoch == metaEpoch cap.metaWord && UInt32.ofNat b.cap == metaBounds cap.metaWord) [] := by
  have hsz := G.size_eq
  have hx : Exec G.size (matchesMeta (G.base + b.off) cap) m _ [] :=
    exec_matchesMeta_at (by omega) cap
  rwa [hB.id, hB.cap] at hx

theorem exec_derefPerms {b : Blk} (hB : BlkAt G m b) (hb : b.off + 56 ≤ G.heapSize) (cap : Cap)
    (required : UInt32) :
    Exec G.size (derefPerms (G.base + b.off) cap required) m
      (if shmCapPerms cap &&& required = required ∧
          b.perms &&& required.toNat = required.toNat then some (G.base + b.off + 56) else none)
      [] := by
  have hsz := G.size_eq
  have hcap : (metaPerms cap.metaWord).toUInt32 = shmCapPerms cap := rfl
  rw [derefPerms, hcap]
  by_cases h1 : shmCapPerms cap &&& required = required
  · rw [if_neg (not_not.2 h1)]
    refine Exec.load_bind hB.perms (by simp; omega) ?_
    by_cases h2 : b.perms &&& required.toNat = required.toNat
    · rw [if_neg (not_not.2 h2), if_pos ⟨h1, h2⟩]
      exact .pure _
    · rw [if_pos h2, if_neg fun h => h2 h.2]
      exact .pure _
  · rw [if_pos h1, if_neg fun h => h1 h.1]
    exact .pure _

/-- What a dereference asks of the block and of the capability. -/
structure Opens (r : Region) (p : Nat) (b : Blk) (cap : Cap) (required : UInt32) : Prop where
  mapped : isNull r p = false
  live : b.live = true
  epoch : b.epoch = metaEpoch cap.metaWord
  bounds : UInt32.ofNat b.cap = metaBounds cap.metaWord
  sealed : shmCapPerms cap &&& required = required
  perms : b.perms &&& required.toNat = required.toNat

/-- **`shm_cap_deref`** returns the payload exactly if the capability opens the block. -/
theorem shmCapDeref_eq_some (hL : LayoutOk G m) {b : Blk} (hB : BlkAt G m b)
    (hb : b.off + 56 ≤ G.heapSize) {r : Region} {cap : Cap} (haddr : cap.addr = b.off + 56)
    {required : UInt32} {p : Nat} :
    (shmCapDeref (some r) cap required).val m = some p ↔
      p = G.base + b.off + 56 ∧ Opens r (G.base + b.off) b cap required := by
  have hnull : ¬ shmCapIsNull cap = true := by simp [shmCapIsNull, haddr]
  have hnone : (pure none : Prog (Option Nat)).val m ≠ some p := by simp
  rw [shmCapDeref, if_neg hnull]
  show (shmBlkOfPoff cap.addr >>= _).val m = some p ↔ _
  rw [haddr, (exec_blkOfPoff hL hb).val_bind_nil, (exec_isLiveBlk hB hb).val_bind_nil]
  by_cases hlive : (!isNull r (G.base + b.off) && b.live) = true
  · rw [if_pos hlive, (exec_matchesMeta hB hb cap).val_bind_nil]
    simp only [Bool.and_eq_true, Bool.not_eq_true'] at hlive
    by_cases hok : (b.epoch == metaEpoch cap.metaWord &&
        UInt32.ofNat b.cap == metaBounds cap.metaWord) = true
    · rw [if_pos hok, (exec_derefPerms hB hb cap required).val]
      simp only [Bool.and_eq_true, beq_iff_eq] at hok
      by_cases hp : shmCapPerms cap &&& required = required ∧
          b.perms &&& required.toNat = required.toNat
      · rw [if_pos hp, Option.some_inj]
        exact ⟨fun h => ⟨h.symm, hlive.1, hlive.2, hok.1, hok.2, hp.1, hp.2⟩, fun h => h.1.symm⟩
      · rw [if_neg hp]
        exact ⟨fun h => by simp at h, fun h => absurd ⟨h.2.sealed, h.2.perms⟩ hp⟩
    · rw [if_neg hok]
      refine ⟨fun h => absurd h hnone, fun ⟨_, h⟩ => absurd ?_ hok⟩
      rw [h.epoch, h.bounds, beq_self_eq_true, beq_self_eq_true, Bool.and_self]
  · rw [if_neg hlive]
    refine ⟨fun h => absurd h hnone, fun ⟨_, h⟩ => absurd ?_ hlive⟩
    rw [h.mapped, h.live]
    rfl

/-- What a derivation asks of the caller and of the block. -/
structure Grants (r : Region) (p : Nat) (b : Blk) (userId callerPerms grant : UInt32) : Prop where
  mapped : isNull r p = false
  live : b.live = true
  owner : callerPerms &&& SHM_PERM_ADMIN ≠ 0 ∨ userId.toNat = b.owner
  perms : grant.toNat &&& (b.perms &&& callerPerms.toNat) = grant.toNat
  bounds : b.cap ≤ 0xFFFFFFFF

/-- The capability for a block. -/
def capOf (b : Blk) (grant : UInt32) : Cap :=
  ⟨b.off + 56, capMetaPack (grant &&& 0xFF).toUInt8 (UInt8.ofNat (b.owner &&& 0xFF)) b.epoch
    (UInt32.ofNat b.cap)⟩

/-- **`shm_cap_derive`** seals what the block header says, or returns the null capability. -/
theorem shmCapDerive_val (hL : LayoutOk G m) {b : Blk} (hB : BlkAt G m b)
    (hb : b.off + 56 ≤ G.heapSize) (r : Region) (userId callerPerms grant : UInt32) :
    Grants r (G.base + b.off) b userId callerPerms grant ∧
        (shmCapDerive (some r) (b.off + 56) userId callerPerms grant).val m = capOf b grant ∨
      ¬ Grants r (G.base + b.off) b userId callerPerms grant ∧
        (shmCapDerive (some r) (b.off + 56) userId callerPerms grant).val m = SHM_CAP_NULL := by
  have hsz := G.size_eq
  have hget : ∀ (f : CField) (v : Nat), m.load (G.base + b.off + f.off) f.width = v →
      f.off + f.width ≤ 56 → Exec G.size (Prog.get (G.base + b.off) f) m v [] :=
    fun f v hv hf => .load hv (by omega)
  have howner := hget BlockHdr.owner b.owner hB.owner (by decide)
  have hperms := hget BlockHdr.perms b.perms hB.perms (by decide)
  have hcap := hget BlockHdr.payloadCap b.cap hB.cap (by decide)
  have hid := hget BlockHdr.objId b.id hB.id (by decide)
  rw [shmCapDerive, (exec_blkOfPoff hL hb).val_bind_nil, (exec_isLiveBlk hB hb).val_bind_nil]
  by_cases hlive : (!isNull r (G.base + b.off) && b.live) = true
  · rw [if_pos hlive, deriveFrom, howner.val_bind_nil]
    simp only [Bool.and_eq_true, Bool.not_eq_true'] at hlive
    by_cases ho : callerPerms &&& SHM_PERM_ADMIN = 0 ∧ userId.toNat ≠ b.owner
    · rw [if_pos ho]
      refine .inr ⟨fun h => ?_, rfl⟩
      exact h.owner.elim (fun h' => h' ho.1) fun h' => ho.2 h'
    rw [if_neg ho, hperms.val_bind_nil]
    by_cases hp : grant.toNat &&& (b.perms &&& callerPerms.toNat) = grant.toNat
    · rw [if_neg (not_not.2 hp), sealCap, hcap.val_bind_nil]
      by_cases hbound : 0xFFFFFFFF < b.cap
      · rw [if_pos hbound]
        exact .inr ⟨fun h => absurd h.bounds (Nat.not_le_of_lt hbound), rfl⟩
      · rw [if_neg hbound, howner.val_bind_nil, hid.val_bind_nil]
        refine .inl ⟨⟨hlive.1, hlive.2, ?_, hp, Nat.le_of_not_lt hbound⟩, rfl⟩
        exact (not_and_or.1 ho).imp id not_not.1
    · rw [if_pos hp]
      exact .inr ⟨fun h => hp h.perms, rfl⟩
  · rw [if_neg hlive]
    refine .inr ⟨fun h => hlive ?_, rfl⟩
    rw [h.mapped, h.live]
    rfl

/-! ## What a capability is checked against -/

/-- The bytes at `p` read as the header of an allocated block whose id and capacity agree with `id`
and `cap` in what a capability keeps of them. -/
structure ReadsAs (m : Mem) (p id cap : Nat) : Prop where
  magic : m.load p 4 = SHM_ALLOC_MAGIC_BLOCK
  allocated : m.load (p + 16) 1 ≠ 0
  id : m.load (p + 24) 8 % 2 ^ 16 = id % 2 ^ 16
  cap : m.load (p + 32) 8 % 2 ^ 32 = cap % 2 ^ 32

instance (m : Mem) (p id cap : Nat) : Decidable (ReadsAs m p id cap) :=
  decidable_of_iff (m.load p 4 = SHM_ALLOC_MAGIC_BLOCK ∧ m.load (p + 16) 1 ≠ 0 ∧
      m.load (p + 24) 8 % 2 ^ 16 = id % 2 ^ 16 ∧ m.load (p + 32) 8 % 2 ^ 32 = cap % 2 ^ 32)
    ⟨fun h => ⟨h.1, h.2.1, h.2.2.1, h.2.2.2⟩, fun h => ⟨h.1, h.2, h.3, h.4⟩⟩

/-- A capability keeps the low 16 bits of the id. -/
theorem epoch_eq_iff (a b : Nat) :
    UInt16.ofNat (a &&& 0xFFFF) = UInt16.ofNat (b &&& 0xFFFF) ↔ a % 2 ^ 16 = b % 2 ^ 16 := by
  have hmask : ∀ x : Nat, x &&& 0xFFFF = x % 2 ^ 16 := fun x => Nat.and_two_pow_sub_one_eq_mod x 16
  rw [hmask, hmask, ← UInt16.toNat_inj, UInt16.toNat_ofNat', UInt16.toNat_ofNat', Nat.mod_mod,
    Nat.mod_mod]

/-- A capability keeps the low 32 bits of the capacity. -/
theorem bounds_eq_iff (a b : Nat) : UInt32.ofNat a = UInt32.ofNat b ↔ a % 2 ^ 32 = b % 2 ^ 32 := by
  rw [← UInt32.toNat_inj, UInt32.toNat_ofNat', UInt32.toNat_ofNat']

/-- **`shm_cap_is_valid`**, for a capability that seals `id` and `c`, of which the address may have
been changed to any place in the heap. -/
theorem shmCapIsValid_iff (hL : LayoutOk G m) {r : Region} {cap : Cap} {id c : Nat}
    (hlo : 56 ≤ cap.addr) (hhi : cap.addr ≤ G.heapSize)
    (hepoch : metaEpoch cap.metaWord = UInt16.ofNat (id &&& 0xFFFF))
    (hbounds : metaBounds cap.metaWord = UInt32.ofNat c) :
    (shmCapIsValid (some r) cap).val m = true ↔
      isNull r (G.base + (cap.addr - 56)) = false ∧
        ReadsAs m (G.base + (cap.addr - 56)) id c := by
  have hsz := G.size_eq
  have hp : G.base + (cap.addr - 56) + 56 ≤ G.size := by omega
  have hnull : ¬ shmCapIsNull cap = true := by
    intro h
    rw [shmCapIsNull, Bool.and_eq_true, beq_iff_eq] at h
    omega
  have hblk := exec_blkOfPoff hL (o := cap.addr - 56) (by omega)
  rw [Nat.sub_add_cancel hlo] at hblk
  rw [shmCapIsValid, if_neg hnull]
  show (shmBlkOfPoff cap.addr >>= _).val m = true ↔ _
  rw [hblk.val_bind_nil, (exec_isLiveBlk_at hp).val_bind_nil]
  by_cases hlive : (!isNull r (G.base + (cap.addr - 56)) &&
      (m.load (G.base + (cap.addr - 56)) 4 == SHM_ALLOC_MAGIC_BLOCK &&
        m.load (G.base + (cap.addr - 56) + 16) 1 != 0)) = true
  · rw [if_pos hlive, (exec_matchesMeta_at hp cap).val, hepoch, hbounds]
    simp only [Bool.and_eq_true, Bool.not_eq_true', beq_iff_eq, bne_iff_ne] at hlive ⊢
    rw [epoch_eq_iff, bounds_eq_iff]
    exact ⟨fun h => ⟨hlive.1, hlive.2.1, hlive.2.2, h.1, h.2⟩, fun h => ⟨h.2.id, h.2.cap⟩⟩
  · rw [if_neg hlive]
    refine ⟨fun h => by simp at h, fun h => absurd ?_ hlive⟩
    simp only [Bool.and_eq_true, Bool.not_eq_true', beq_iff_eq, bne_iff_ne]
    exact ⟨h.1, h.2.magic, h.2.allocated⟩

/-- What can be dereferenced is valid. -/
theorem isValid_of_deref {region : Option Region} {cap : Cap} {required : UInt32}
    (h : (shmCapDeref region cap required).val m ≠ none) :
    (shmCapIsValid region cap).val m = true := by
  have hpure : (pure none : Prog (Option Nat)).val m = none := Prog.val_pure ..
  unfold shmCapDeref at h
  unfold shmCapIsValid
  split at h
  · exact absurd hpure h
  rename_i hnull
  rw [if_neg hnull]
  cases region with
  | none => exact absurd hpure h
  | some r =>
    rw [Prog.val_bind] at h ⊢
    generalize (shmBlkOfPoff cap.addr).val m = b at h ⊢
    generalize (shmBlkOfPoff cap.addr).mem m = m₁ at h ⊢
    rw [Prog.val_bind] at h ⊢
    generalize (isLiveBlk r b).mem m₁ = m₂ at h ⊢
    cases hlive : (isLiveBlk r b).val m₁ with
    | false =>
      rw [hlive, if_neg Bool.false_ne_true] at h
      exact absurd (Prog.val_pure ..) h
    | true =>
      rw [hlive, if_pos rfl, Prog.val_bind] at h
      rw [if_pos rfl]
      cases hok : (matchesMeta b cap).val m₂ with
      | false =>
        rw [hok, if_neg Bool.false_ne_true] at h
        exact absurd (Prog.val_pure ..) h
      | true => rfl

/-- Some process maps the region so that the address is not its null pointer. -/
theorem exists_mapped (p : Nat) : ∃ r : Region, isNull r p = false := by
  have hnull : ∀ {b : Nat} (hb : b % 4096 = 0) (hpos : 0 < b) (hfit : b + 4096 ≤ 2 ^ 64),
      (b + p) % 2 ^ 64 ≠ 0 → ∃ r : Region, isNull r p = false := fun {b} hb hpos hfit hne =>
    ⟨⟨b, 4096, .acquired, hb, hpos, hfit⟩, beq_eq_false_iff_ne.2 hne⟩
  by_cases hp : (4096 + p) % 2 ^ 64 = 0
  · exact hnull (b := 8192) (by decide) (by decide) (by decide) (by omega)
  · exact hnull (b := 4096) (by decide) (by decide) (by decide) hp

end ShmAlloc
