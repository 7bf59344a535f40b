import ShmAlloc.Guarantees.Temporal

/-!
# Revocation

A capability seals the capacity of its object, and a use compares it with the capacity in the
header; so a resize that changes the capacity revokes the capabilities from before.  The sealed
field has 32 bits and the capacity 64, and the use compares 32 of them.  Derivation refuses a larger
capacity, but the object may grow later.

## What is here

* `Dead`: nobody can use the capability.
* `capacity_change_revokes`: **in a run without a wrap, a capability on an object that is still
  there is dead exactly if** the object has moved or its capacity differs in the low 32 bits, and
  nothing at the old address passes for it.
* `capacity_change_revokes_fails`: an object of 8 bytes that has grown by four GiB, in place, is
  opened by the capability from before.

What may pass for an object at an address is settled in `Guarantees/Temporal`; this is the case of
an object whose id is still there.
-/

set_option autoImplicit false

namespace ShmAlloc

open Tiling Links

variable {G : Geometry} {m m' : Mem} {bs bs' pre post : List Blk} {log : List Answer} {i : Nat}

/-! ## Changing the capacity -/

/-- Nobody can use the capability. -/
structure Dead (m : Mem) (cap : Cap) : Prop where
  deref : ∀ region required, (shmCapDeref region cap required).val m = none
  valid : ∀ region, (shmCapIsValid region cap).val m = false

/-- A capability is dead if nothing at its address reads as the header it was derived from. -/
theorem dead_iff (hL : LayoutOk G m) {cap : Cap} {e : Entry} (hlo : 56 ≤ cap.addr)
    (hhi : cap.addr ≤ G.heapSize)
    (hepoch : metaEpoch cap.metaWord = UInt16.ofNat (e.id &&& 0xFFFF))
    (hbounds : metaBounds cap.metaWord = UInt32.ofNat e.cap) :
    Dead m cap ↔ ¬ ReadsAs m (G.base + (cap.addr - 56)) e.id e.cap := by
  have hvalid : ∀ r, (shmCapIsValid (some r) cap).val m = true ↔ _ := fun r =>
    shmCapIsValid_iff hL hlo hhi hepoch hbounds
  constructor
  · intro hdead hreads
    obtain ⟨r, hr⟩ := exists_mapped (G.base + (cap.addr - 56))
    have hv := (hvalid r).2 ⟨hr, hreads⟩
    rw [hdead.valid (some r)] at hv
    exact Bool.noConfusion hv
  · intro hno
    have hfalse : ∀ region, (shmCapIsValid region cap).val m = false := fun region => by
      cases region with
      | none =>
        rw [shmCapIsValid]
        split <;> rfl
      | some r =>
        rw [← Bool.not_eq_true, hvalid r]
        exact fun h => hno h.2
    refine ⟨fun region required => ?_, hfalse⟩
    by_contra hderef
    have hv := isValid_of_deref hderef
    rw [hfalse region] at hv
    exact Bool.noConfusion hv

/-- **A changed capacity revokes a capability.**  In a run in which `next_id` does not wrap, let a
capability be derived on an object, and let the object be live in a later state.  Then nobody can
use the capability exactly if the object is not at its old offset with a capacity that differs by a
multiple of 2^32, and there is no lookalike at that offset and nothing planted. -/
theorem capacity_change_revokes (h : Reach G NoWrap m) (hrun : Run G NoWrap m log m')
    (hi : i < G.dirCap) (ha : (entryAt m i).alive = true) {region : Option Region}
    {userId callerPerms grant : UInt32} {cap : Cap}
    (hderive : (shmCapDerive region (entryAt m i).off userId callerPerms grant).val m = cap)
    (hnull : cap ≠ SHM_CAP_NULL) {j : Nat} (hj : j < G.dirCap)
    (hja : (entryAt m' j).alive = true) (hid : (entryAt m' j).id = (entryAt m i).id) :
    Dead m' cap ↔
      ¬ ((entryAt m' j).off = (entryAt m i).off ∧
        (entryAt m' j).cap % 2 ^ 32 = (entryAt m i).cap % 2 ^ 32) ∧
      ¬ Lookalike G (entryAt m i) m' (entryAt m i).off ∧
      ¬ Planted G (entryAt m i) m' (entryAt m i).off := by
  obtain ⟨bs, hI⟩ := h.fullInv
  obtain ⟨bs', hI'⟩ := (hrun.reach h).fullInv
  have hchain : NarrowChain (fun _ => cap) 0 := fun k hk => absurd hk (Nat.not_lt_zero k)
  obtain ⟨hepoch, hbounds⟩ := sealed_of_derive hI.toInv hi ha hderive hnull hchain
  obtain ⟨r, b, hb, hh, -, hcap⟩ := derived hI.toInv hi ha hderive hnull
  have hoff := hh.mirrors.off
  have hbb := hI.heap.bounds hb
  have haddr : cap.addr = (entryAt m i).off := by
    rw [hcap, hoff]
    rfl
  rw [dead_iff hI'.layout (by omega) (by omega) hepoch hbounds, haddr, hI'.toInv.readsAs_iff,
    not_or, ← and_assoc]
  refine and_congr_left fun _ => ?_
  constructor
  · intro hno
    refine ⟨fun ⟨hoff', hmod⟩ => hno ⟨j, hj, hja, hoff', by rw [hid], hmod⟩, ?_⟩
    rintro ⟨k, hk, hka, hoff', -, hidk, hmod⟩
    exact hno ⟨k, hk, hka, hoff', hidk, hmod⟩
  · rintro ⟨hself, hlook⟩ ⟨k, hk, hka, hoff', hidk, hmod⟩
    by_cases hsame : (entryAt m' k).id = (entryAt m i).id
    · obtain rfl := hI'.ids.distinct k j hk hj hka hja (hsame.trans hid.symm)
      exact hself ⟨hoff', hmod⟩
    · exact hlook ⟨k, hk, hka, hoff', hsame, hidk, hmod⟩

/-- The owner of the first object asks for another size. -/
def resizesFirst (r : Region) (n : Nat) : Call := .resize (some r) 1 n 7 0xF

/-- A capability for the first object of a page is dead once the object has grown. -/
theorem capacity_change_revokes_page :
    Dead ((resizesFirst pageHandle 100).prog.mem (firstMem pageGeometry pageHandle eightBytes))
      ((shmCapDerive (some pageHandle) 56 7 0xF 0x3).val
        (firstMem pageGeometry pageHandle eightBytes)) := by
  obtain ⟨bs, hI⟩ := page_reach.fullInv
  have hl : Legal pageGeometry (firstMem pageGeometry pageHandle eightBytes)
      (resizesFirst pageHandle 100) :=
    legal_resize (Nat.le_refl _) (by decide) (by decide +kernel)
  have hrun := (Run.refl (C := NoWrap)).call _ hl (noWrap_of_not_alloc hI.toInv hl nofun)
  obtain ⟨bs', hI'⟩ := (hrun.reach page_reach).fullInv
  have hoff : (entryAt (firstMem pageGeometry pageHandle eightBytes) 0).off = 56 := by
    decide +kernel
  refine (capacity_change_revokes page_reach hrun (i := 0) (by decide) page_alive (by rw [hoff])
    (by decide +kernel) (j := 0) (by decide) (by decide +kernel) (by decide +kernel)).2 ⟨?_, ?_, ?_⟩
  · rintro ⟨-, hmod⟩
    exact absurd hmod (by decide +kernel)
  · exact not_lookalike_of_nextId_le hI' (by decide +kernel) (by decide +kernel)
      (by decide +kernel) _
  · rintro ⟨hnone, -⟩
    exact hnone 0 (by decide) (by decide +kernel) (by decide +kernel)

/-! ### Beyond 4 GiB

The states of this run are too large to be evaluated, so each step is taken with the lemmas about
it. -/

/-- A region with two directory slots and a heap of eight GiB. -/
def largeGeometry : Geometry := ⟨2, 2 ^ 33, pageGeometry.dirCap_lt, by decide, by decide⟩

/-- A handle that maps it. -/
def largeHandle : Region :=
  ⟨4096, largeGeometry.size, .acquired, pageHandle.aligned, pageHandle.pos, by decide⟩

/-- The region with one object of eight bytes. -/
def largeMem : Mem := firstMem largeGeometry largeHandle eightBytes

/-- Its owner derives a capability to read and write it. -/
def smallCap : Cap := (shmCapDerive (some largeHandle) 56 7 0xF 0x3).val largeMem

theorem large_reach : Reach largeGeometry NoWrap largeMem :=
  reach_first rfl (by decide) (by decide) (by decide) (by decide)

theorem smallCap_eq : smallCap = ⟨56, capMetaPack 0x3 7 1 8⟩ := by decide +kernel

/-- The region once the object has grown by four GiB, in place. -/
def grownMem : Mem := (resizesFirst largeHandle (2 ^ 32 + 8)).prog.mem largeMem

theorem grown_deref :
    (shmCapDeref (some largeHandle) smallCap 0x3).val grownMem
      = some (largeGeometry.base + 56) := by
  rw [smallCap_eq]
  decide +kernel

/-- **Four GiB later** the capability still opens the object. -/
theorem capacity_change_revokes_fails :
    Reach largeGeometry NoWrap largeMem ∧ (∃ log, Run largeGeometry NoWrap largeMem log grownMem) ∧
    smallCap ≠ SHM_CAP_NULL ∧
    (entryAt largeMem 0).id = 1 ∧ (entryAt largeMem 0).cap = 8 ∧
    (entryAt grownMem 0).id = 1 ∧ (entryAt grownMem 0).alive = true ∧
    (entryAt grownMem 0).cap = 2 ^ 32 + 8 ∧
    (shmCapIsValid (some largeHandle) smallCap).val grownMem = true ∧
    (shmCapDeref (some largeHandle) smallCap 0x3).val grownMem
      = some (largeGeometry.base + 56) := by
  have hlegal : Legal largeGeometry largeMem (resizesFirst largeHandle (2 ^ 32 + 8)) :=
    legal_resize (Nat.le_refl _) (by decide) (by decide +kernel)
  obtain ⟨bs, hI⟩ := large_reach.inv
  refine ⟨large_reach, ⟨_, Run.refl.call _ hlegal (noWrap_of_not_alloc hI hlegal nofun)⟩, ?_,
    by decide +kernel, by decide +kernel, by decide +kernel, by decide +kernel, by decide +kernel,
    isValid_of_deref (by rw [grown_deref]; simp), grown_deref⟩
  rw [smallCap_eq]
  decide

end ShmAlloc
