import ShmAlloc.Guarantees.Capability
import ShmAlloc.Region.Raw

/-!
# Sealing

`shm_cap_derive` packs four fields into the meta word and `shm_cap_deref`, written separately, takes
them apart again.  The fields have 8, 8, 16 and 32 bits, and what goes into them has 32 or 64.  The
bounds are guarded: a larger capacity is refused.  The permissions are not: a grant of more than a
byte is cut down to its low byte.

## What is here

* `Sealed`: the capability holds the grant and what the header says, and opens what was granted.
* `SealsNull`: the capability would be the null capability, which says that there is none.
* `sealed_capAt`: **a grant of a byte is sealed as it is.**
* `derive_seals_grant`: **on any memory, at any offset, what is derived is sealed exactly if** the
  grant fits in a byte, or the derivation is refused, or its result is null.
* `derive_seals_grant_fails`: the ninth bit of a grant is lost.

Nothing is asked of the memory, since derivation reads one header and believes it.
-/

set_option autoImplicit false

namespace ShmAlloc

variable {m : Mem} {r : Region} {off : Nat}

/-! ## What is sealed -/

/-- The capability holds the grant and what the header says, and opens what was granted. -/
structure Sealed (m : Mem) (region : Option Region) (off : Nat) (grant : UInt32) (c : Cap) :
    Prop where
  perms : shmCapPerms c = grant
  bounds : shmCapBounds c = m.load (hdrOf m off + 32) 8
  epoch : (shmCapEpoch c).toNat = m.load (hdrOf m off + 24) 8 % 2 ^ 16
  offset : shmCapOffset c = off
  valid : (shmCapIsValid region c).val m = true
  deref : ∀ required, required &&& grant = required →
    (shmCapDeref region c required).val m = some (hdrOf m off + 56)

/-- The capability of the bytes at `p` is the null capability. -/
def SealsNull (m : Mem) (p off : Nat) (grant : UInt32) : Prop :=
  off = 0 ∧ grant.toNat % 2 ^ 8 = 0 ∧ m.load (p + 8) 4 % 2 ^ 8 = 0 ∧
    m.load (p + 24) 8 % 2 ^ 16 = 0 ∧ m.load (p + 32) 8 % 2 ^ 32 = 0

/-- The meta word is zero if all its fields are. -/
theorem capMetaPack_eq_zero {perms ownerLo : UInt8} {epoch : UInt16} {bounds : UInt32} :
    capMetaPack perms ownerLo epoch bounds = 0 ↔
      perms = 0 ∧ ownerLo = 0 ∧ epoch = 0 ∧ bounds = 0 := by
  constructor
  · intro h
    refine ⟨?_, ?_, ?_, ?_⟩
    · rw [← metaPerms_pack perms ownerLo epoch bounds, h]
      rfl
    · rw [← metaOwner_pack perms ownerLo epoch bounds, h]
      rfl
    · rw [← metaEpoch_pack perms ownerLo epoch bounds, h]
      rfl
    · rw [← metaBounds_pack perms ownerLo epoch bounds, h]
      rfl
  · rintro ⟨rfl, rfl, rfl, rfl⟩
    rfl

theorem low_byte_eq_zero (x : Nat) : UInt8.ofNat (x &&& 0xFF) = 0 ↔ x % 2 ^ 8 = 0 := by
  have hmask : x &&& 0xFF = x % 2 ^ 8 := Nat.and_two_pow_sub_one_eq_mod x 8
  rw [hmask, ← UInt8.toNat_inj, UInt8.toNat_ofNat', Nat.mod_mod]
  rfl

theorem grant_byte_eq_zero (grant : UInt32) :
    (grant &&& 0xFF).toUInt8 = 0 ↔ grant.toNat % 2 ^ 8 = 0 := by
  have hmask : grant.toNat &&& 0xFF = grant.toNat % 2 ^ 8 :=
    Nat.and_two_pow_sub_one_eq_mod grant.toNat 8
  rw [← UInt8.toNat_inj, UInt32.toNat_toUInt8, UInt32.toNat_and]
  show (grant.toNat &&& 0xFF) % 2 ^ 8 = 0 ↔ _
  rw [hmask, Nat.mod_mod]

theorem capAt_eq_null (m : Mem) (p off : Nat) (grant : UInt32) :
    capAt m p off grant = SHM_CAP_NULL ↔ SealsNull m p off grant := by
  have hepoch : ∀ x, UInt16.ofNat (x &&& 0xFFFF) = 0 ↔ x % 2 ^ 16 = 0 := fun x => by
    have := epoch_eq_iff x 0
    simpa using this
  have hbounds : ∀ x, UInt32.ofNat x = 0 ↔ x % 2 ^ 32 = 0 := fun x => by
    have := bounds_eq_iff x 0
    simpa using this
  rw [capAt, SHM_CAP_NULL, Cap.mk.injEq, capMetaPack_eq_zero, grant_byte_eq_zero,
    low_byte_eq_zero, hepoch, hbounds, SealsNull]

theorem nat_within_trans {x y z : Nat} (hxy : x &&& y = x) (hyz : y &&& z = y) : x &&& z = x := by
  rw [← hxy, Nat.and_assoc, hyz]

theorem nat_within_left {x y z : Nat} (h : x &&& (y &&& z) = x) : x &&& y = x := by
  calc x &&& y = x &&& (y &&& z) &&& y := by rw [h]
    _ = x &&& (y &&& z) := by
      rw [Nat.and_assoc, Nat.and_comm (y &&& z) y, ← Nat.and_assoc y y z, Nat.and_self]
    _ = x := h

/-- A grant fits in the permission byte. -/
theorem within_byte_iff (grant : UInt32) : grant &&& 0xFF = grant ↔ grant.toNat < 256 := by
  have hmask : grant.toNat &&& 0xFF = grant.toNat % 2 ^ 8 :=
    Nat.and_two_pow_sub_one_eq_mod grant.toNat 8
  rw [← UInt32.toNat_inj, UInt32.toNat_and]
  show grant.toNat &&& 0xFF = grant.toNat ↔ _
  rw [hmask]
  omega

/-- The permissions of a capability are the low byte of the grant. -/
theorem shmCapPerms_capAt (m : Mem) (p off : Nat) (grant : UInt32) :
    shmCapPerms (capAt m p off grant) = grant &&& 0xFF := by
  have h : grant &&& 0xFF &&& (0xFF : UInt8).toUInt32 = grant &&& 0xFF := by
    rw [UInt32.and_assoc]
    rfl
  rw [shmCapPerms, capAt, metaPerms_pack, toUInt8_toUInt32_of_within h]

/-- A fresh capability is valid where it was derived. -/
theorem shmCapIsValid_capAt {userId callerPerms grant : UInt32}
    (h : PassesDerive r m (hdrOf m off) userId callerPerms grant)
    (hnull : capAt m (hdrOf m off) off grant ≠ SHM_CAP_NULL) :
    (shmCapIsValid (some r) (capAt m (hdrOf m off) off grant)).val m = true := by
  refine (val_shmCapIsValid r m _).2 ⟨?_, h.live, (metaEpoch_pack ..).symm,
    (metaBounds_pack ..).symm⟩
  rw [← Bool.not_eq_true, shmCapIsNull, Bool.and_eq_true, beq_iff_eq, beq_iff_eq]
  exact fun h0 => hnull (by rw [SHM_CAP_NULL, ← h0.1, ← h0.2])

/-- **A grant of a byte is sealed as it is.** -/
theorem sealed_capAt {userId callerPerms grant : UInt32}
    (h : PassesDerive r m (hdrOf m off) userId callerPerms grant)
    (hnull : capAt m (hdrOf m off) off grant ≠ SHM_CAP_NULL) (hbyte : grant &&& 0xFF = grant) :
    Sealed m (some r) off grant (capAt m (hdrOf m off) off grant) := by
  have hperms : shmCapPerms (capAt m (hdrOf m off) off grant) = grant := by
    rw [shmCapPerms_capAt, hbyte]
  have hvalid := shmCapIsValid_capAt h hnull
  refine ⟨hperms, ?_, ?_, rfl, hvalid, fun required hreq => ?_⟩
  · have hb := h.bounds
    rw [shmCapBounds, capAt, metaBounds_pack, UInt32.toNat_ofNat']
    omega
  · have hmask : m.load (hdrOf m off + 24) 8 &&& 0xFFFF = m.load (hdrOf m off + 24) 8 % 2 ^ 16 :=
      Nat.and_two_pow_sub_one_eq_mod _ 16
    rw [shmCapEpoch, capAt, metaEpoch_pack, UInt16.toNat_ofNat', hmask, Nat.mod_mod]
  · refine (val_shmCapDeref r m _ required).trans (if_pos ⟨hvalid, ?_, ?_⟩)
    · rw [hperms, UInt32.and_comm]
      exact hreq
    · -- what was granted is among the permissions in the header
      have hreq' : required.toNat &&& grant.toNat = required.toNat := by
        rw [← UInt32.toNat_and, hreq]
      rw [Nat.and_comm]
      exact nat_within_trans hreq' (nat_within_left h.perms)

/-- **Derive seals what was granted**, on any memory, at any offset, for any caller, exactly if the
grant fits in a byte, or the derivation is refused, or what it seals is the null capability. -/
theorem derive_seals_grant (m : Mem) (region : Option Region) (off : Nat)
    (userId callerPerms grant : UInt32) :
    ((shmCapDerive region off userId callerPerms grant).val m ≠ SHM_CAP_NULL →
        Sealed m region off grant ((shmCapDerive region off userId callerPerms grant).val m)) ↔
      grant.toNat < 256 ∨
      ¬ (∃ r, region = some r ∧ PassesDerive r m (hdrOf m off) userId callerPerms grant) ∨
      SealsNull m (hdrOf m off) off grant := by
  cases region with
  | none =>
    refine ⟨fun _ => .inr (.inl ?_), fun _ h => absurd rfl h⟩
    rintro ⟨r, hr, -⟩
    cases hr
  | some r =>
    rcases val_shmCapDerive r m off userId callerPerms grant with ⟨hp, hv⟩ | ⟨hp, hv⟩
    · rw [hv, Ne, capAt_eq_null, ← within_byte_iff]
      constructor
      · intro h
        by_cases hnull : SealsNull m (hdrOf m off) off grant
        · exact .inr (.inr hnull)
        · have hperms := (h hnull).perms
          rw [shmCapPerms_capAt] at hperms
          exact .inl hperms
      · rintro (hbyte | hno | hnull) hne
        · exact sealed_capAt hp (fun h => hne ((capAt_eq_null ..).1 h)) hbyte
        · exact absurd ⟨r, rfl, hp⟩ hno
        · exact absurd hnull hne
    · rw [hv]
      refine ⟨fun _ => .inr (.inl ?_), fun _ h => absurd rfl h⟩
      rintro ⟨r', hr, hp'⟩
      cases hr
      exact hp hp'

/-! ## A grant of nine bits -/

/-- A request with a permission bit above the low byte. -/
def nineBits : Request := ⟨8, none, 7, 0x10F, 0⟩

/-- Its owner derives a capability to read it, with that bit. -/
def nineBitCap : Cap :=
  (shmCapDerive (some pageHandle) 56 7 0x10F 0x101).val (firstMem pageGeometry pageHandle nineBits)

/-- **The ninth bit of a grant is lost.**  The capability is not null, but it holds the low byte of
the grant and does not open what `shm_ptr` opens. -/
theorem derive_seals_grant_fails :
    Reach pageGeometry AnyCall (firstMem pageGeometry pageHandle nineBits) ∧
    nineBitCap ≠ SHM_CAP_NULL ∧ shmCapPerms nineBitCap = 0x1 ∧ shmCapPerms nineBitCap ≠ 0x101 ∧
    (shmCapDeref (some pageHandle) nineBitCap 0x101).val
      (firstMem pageGeometry pageHandle nineBits) = none ∧
    (shmPtr (some pageHandle) 56 7 0x10F 0x101).val (firstMem pageGeometry pageHandle nineBits)
      = some (pageGeometry.base + 56) := by
  refine ⟨(reach_first rfl (by decide) (by decide) (by decide) (by decide)).mono
    fun _ _ _ => trivial, ?_, ?_, ?_, ?_, ?_⟩ <;> decide +kernel

end ShmAlloc
