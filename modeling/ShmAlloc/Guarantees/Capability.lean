import ShmAlloc.Guarantees.Capacity
import ShmAlloc.Region.Cap

/-!
# Capabilities

A capability seals what its holder was granted, and every use checks it against the block header as
it is then.  Narrowing only takes permissions away; the owner of an object never changes while it
lives.  So however the heap changes in between, a capability never opens more than the direct access
of whoever derived it.

## What is here

* `StillLive`: the object in a slot has been in use all along, over any number of steps of a run.
* `StillLive.sameIdentity`: **an object keeps its identity as long as it is live.**
* `NarrowChain`: capabilities that come from each other by successful narrowings, a chain of any
  length.  `NarrowChain.narrows` goes along it by induction.
* `capabilities_never_amplify`: **what a narrowed capability opens later, its deriver may access
  directly**, with the same permissions and at the same address.

The argument is transitivity twice: of narrowing along the chain, and of the bit masks along what
derivation, narrowing and dereference compare.
-/

set_option autoImplicit false

namespace ShmAlloc

open Tiling Links

variable {G : Geometry} {m m' : Mem} {bs bs' pre post : List Blk} {C : Mem → Call → Prop} {i : Nat}

/-! ## Objects that stay live -/

/-- The object slot `i` holds in `m` is still live in `m'`: the slot has been in use all along. -/
inductive StillLive (G : Geometry) (C : Mem → Call → Prop) (i : Nat) (m : Mem) : Mem → Prop
  | refl (hl : (entryAt m i).Live) : StillLive G C i m m
  | step {m' m'' : Mem} (h : StillLive G C i m m') (hs : Step G C m' m'')
      (hl : (entryAt m'' i).Live) : StillLive G C i m m''

theorem StillLive.live (h : StillLive G C i m m') : (entryAt m' i).Live := by
  cases h with
  | refl hl => exact hl
  | step _ _ hl => exact hl

theorem StillLive.start (h : StillLive G C i m m') : (entryAt m i).Live := by
  induction h with
  | refl hl => exact hl
  | step _ _ _ ih => exact ih

theorem StillLive.reach (h : Reach G C m) (hl : StillLive G C i m m') : Reach G C m' := by
  induction hl with
  | refl => exact h
  | step _ hs _ ih => exact ih.step hs

/-- **A step keeps the identity of an object** that is live before and after it. -/
theorem Step.sameIdentity (h : Inv G m bs) (hs : Step G C m m') (hi : i < G.dirCap)
    (hl : (entryAt m i).Live) (hl' : (entryAt m' i).Live) : SameIdentity m m' i := by
  cases hs with
  | call c hlegal _ =>
    obtain ⟨rc, W, bs', hrun, hx⟩ := callRun h hlegal
    rw [hx.mem] at hl' ⊢
    rcases hrun.slot h hi with hs | ⟨hdead, -⟩ | ⟨-, -, -, hdead⟩
    · exact hs
    · exact absurd hl hdead
    · rw [hl'.1] at hdead
      exact Bool.noConfusion hdead
  | write j k v hj ha hk => exact sameIdentity_write (by omega) hi

/-- **An object keeps its identity as long as it is live.** -/
theorem StillLive.sameIdentity (h : Reach G C m) (hi : i < G.dirCap)
    (hl : StillLive G C i m m') : SameIdentity m m' i := by
  induction hl with
  | refl => exact .refl m i
  | step hlive hs hl ih =>
    obtain ⟨bs, hI⟩ := (hlive.reach h).inv
    exact ih.trans (hs.sameIdentity hI hi hlive.live hl)

/-! ## Masks -/

theorem within_trans {a b c : UInt32} (hab : a &&& b = a) (hbc : b &&& c = b) : a &&& c = a := by
  rw [← hab, UInt32.and_assoc, hbc]

/-- The permissions of a fresh capability are inside what was granted. -/
theorem shmCapPerms_capOf (b : Blk) (grant : UInt32) :
    shmCapPerms (capOf b grant) = grant &&& 0xFF := by
  have h : grant &&& 0xFF &&& (0xFF : UInt8).toUInt32 = grant &&& 0xFF := by
    rw [UInt32.and_assoc]
    rfl
  rw [shmCapPerms, capOf, metaPerms_pack, toUInt8_toUInt32_of_within h]

/-- What was granted is inside what the caller has. -/
theorem Grants.within_callerPerms {r : Region} {p : Nat} {b : Blk}
    {userId callerPerms grant : UInt32} (h : Grants r p b userId callerPerms grant) :
    grant &&& callerPerms = grant := by
  refine UInt32.toNat_inj.1 ?_
  rw [UInt32.toNat_and, ← h.perms, Nat.and_assoc, Nat.and_assoc, Nat.and_self]

/-! ## Chains of narrowings -/

/-- `c 0, c 1, …, c k` come from each other by successful narrowings. -/
def NarrowChain (c : Nat → Cap) (k : Nat) : Prop :=
  ∀ j, j < k → ∃ p, c (j + 1) = shmCapNarrow (c j) p ∧ c (j + 1) ≠ SHM_CAP_NULL

/-- One link of a chain narrows. -/
theorem NarrowChain.step {c : Nat → Cap} {k j : Nat} (h : NarrowChain c k) (hj : j < k) :
    (c (j + 1)).Narrows (c j) := by
  obtain ⟨p, hp, hne⟩ := h j hj
  exact (narrows_of_narrow hp.symm hne).1

/-- **A chain narrows**, from any of its capabilities to any later one. -/
theorem NarrowChain.narrows {c : Nat → Cap} {k j l : Nat} (h : NarrowChain c k) (hjl : j ≤ l)
    (hl : l ≤ k) : (c l).Narrows (c j) := by
  induction l, hjl using Nat.le_induction with
  | base => exact .refl (c j)
  | succ l hjl ih => exact (h.step (by omega)).trans (ih (by omega))

/-- A narrower capability opens no more. -/
theorem Opens.of_narrows {r : Region} {p : Nat} {b : Blk} {c d : Cap} {required : UInt32}
    (h : Opens r p b d required) (hn : d.Narrows c) : Opens r p b c required := by
  refine ⟨h.mapped, h.live, h.epoch.trans hn.epoch, h.bounds.trans hn.bounds, ?_, h.perms⟩
  have hreq : required &&& shmCapPerms d = required := (UInt32.and_comm ..).trans h.sealed
  exact (UInt32.and_comm ..).trans (within_trans hreq hn.perms)

/-! ## From derivation to use

What is compared at the two ends is one block header at two times.  Its owner is the same by
`StillLive.sameIdentity`, and its permissions are read at the time of use on both sides. -/

/-- A block has room for its header. -/
theorem Inv.hdr_le (h : Inv G m bs) {b : Blk} (hb : b ∈ bs) : b.off + 56 ≤ G.heapSize := by
  have h1 := h.heap.bounds hb
  have h2 := (h.heap.wf b hb).min
  omega

/-- What a successful derivation found. -/
theorem derived (h : Inv G m bs) (hi : i < G.dirCap) (ha : (entryAt m i).alive = true)
    {region : Option Region} {userId callerPerms grant : UInt32} {c : Cap}
    (hc : (shmCapDerive region (entryAt m i).off userId callerPerms grant).val m = c)
    (hnull : c ≠ SHM_CAP_NULL) :
    ∃ r b, b ∈ bs ∧ Holds G m i b ∧ Grants r (G.base + b.off) b userId callerPerms grant ∧
      c = capOf b grant := by
  cases region with
  | none => exact absurd hc.symm hnull
  | some r =>
    obtain ⟨pre, b, post, rfl, hh⟩ := h.holds hi ha
    have hb : b ∈ pre ++ b :: post := by simp
    rw [hh.mirrors.off] at hc
    rcases shmCapDerive_val h.layout (h.heap.blk b hb) (h.hdr_le hb) r userId callerPerms grant with
      ⟨hg, hv⟩ | ⟨-, hv⟩
    · exact ⟨r, b, hb, hh, hg, hc.symm.trans hv⟩
    · exact absurd (hc.symm.trans hv) hnull

/-- **Direct access** through `shm_ptr`, for a caller who may access the block. -/
theorem shmPtr_of_access (h : Inv G m bs) {b : Blk} (hb : b ∈ bs) {r : Region}
    (hnull : isNull r (G.base + b.off) = false) {userId callerPerms required : UInt32}
    (hacc : b.access userId callerPerms required = .ok) :
    (shmPtr (some r) (b.off + 56) userId callerPerms required).val m
      = some (G.base + b.off + 56) := by
  have hchk := exec_checkBlockAccess (r := r) (h.heap.blk b hb) (h.hdr_le hb) userId callerPerms
    required
  rw [if_neg (by simp [hnull]), hacc] at hchk
  rw [shmPtr, (exec_blkOfPoff h.layout (h.hdr_le hb)).val_bind_nil, hchk.val_bind_nil, if_pos rfl]
  rfl

/-- **Capabilities never amplify.**  Let a caller derive `c 0` for a live object, let it be narrowed
`k` times, and let the object be live at the same offset in some later state.  Then the narrowed
capabilities have the address, owner byte, epoch and bounds of `c 0` and each the permissions of the
one before at most; and what the last one opens is opened by all the others, by the grant, by the
permissions the object has then, and by `shm_ptr` for whoever derived `c 0`, at the same address.
A mask with a bit outside the permission byte gives the null capability. -/
theorem capabilities_never_amplify (h : Reach G AnyCall m) (hi : i < G.dirCap)
    (hl : StillLive G AnyCall i m m') (hoff : (entryAt m' i).off = (entryAt m i).off)
    {region : Option Region} {userId callerPerms grant : UInt32} {c : Nat → Cap} {k : Nat}
    (hderive : (shmCapDerive region (entryAt m i).off userId callerPerms grant).val m = c 0)
    (hnull : c 0 ≠ SHM_CAP_NULL) (hchain : NarrowChain c k) :
    (∀ j, j < k → (c (j + 1)).Narrows (c 0) ∧ (c (j + 1)).Narrows (c j)) ∧
      (∀ region' required p, (shmCapDeref region' (c k) required).val m' = some p →
        (∀ j, j ≤ k → (shmCapDeref region' (c j) required).val m' = some p) ∧
        required &&& grant = required ∧
        (blkOfSlot G m' i).perms &&& required.toNat = required.toNat ∧
        (shmPtr region' (entryAt m i).off userId callerPerms required).val m' = some p) ∧
      ∀ (d : Cap) (p : UInt32) (l : Nat), p.toBitVec.getLsbD l = true →
        (metaPerms d.metaWord).toBitVec.getLsbD l = false → shmCapNarrow d p = SHM_CAP_NULL := by
  refine ⟨fun j hj => ⟨hchain.narrows (by omega) hj, hchain.step hj⟩,
    fun region' required p hderef => ?_, fun d p l => narrow_eq_null_of_bit⟩
  obtain ⟨bs, hI⟩ := h.inv
  obtain ⟨bs', hI'⟩ := (hl.reach h).inv
  obtain ⟨r, b, hb, hh, hg, hcap⟩ := derived hI hi hl.start.1 hderive hnull
  obtain ⟨pre', b', post', rfl, hh'⟩ := hI'.holds hi hl.live.1
  have hb' : b' ∈ pre' ++ b' :: post' := by simp
  -- the object is where it was, and its owner is who he was
  have hoff' : b'.off + 56 = b.off + 56 := by
    rw [← hh'.mirrors.off, hoff, hh.mirrors.off]
  have howner : b'.owner = b.owner := by
    rw [← hh'.mirrors.owner, (hl.sameIdentity h hi).owner, hh.mirrors.owner]
  have haddr : ∀ j, j ≤ k → (c j).addr = b'.off + 56 := fun j hj => by
    rw [(hchain.narrows (Nat.zero_le j) hj).addr, hcap, hoff']
    rfl
  have hderef_iff : ∀ r' j, j ≤ k → ((shmCapDeref (some r') (c j) required).val m' = some p ↔
      p = G.base + b'.off + 56 ∧ Opens r' (G.base + b'.off) b' (c j) required) := fun r' j hj =>
    shmCapDeref_eq_some hI'.layout (hI'.heap.blk b' hb') (hI'.hdr_le hb') (haddr j hj)
  cases region' with
  | none =>
    rw [shmCapDeref] at hderef
    split at hderef <;> simp at hderef
  | some r' =>
    obtain ⟨rfl, hopens⟩ := (hderef_iff r' k (Nat.le_refl k)).1 hderef
    have hgrant : required &&& grant = required := by
      have h0 := hopens.of_narrows (hchain.narrows (Nat.zero_le k) (Nat.le_refl k))
      have hreq : required &&& shmCapPerms (c 0) = required := (UInt32.and_comm ..).trans h0.sealed
      rw [hcap, shmCapPerms_capOf] at hreq
      refine within_trans hreq ?_
      rw [UInt32.and_assoc, UInt32.and_comm 0xFF, ← UInt32.and_assoc, UInt32.and_self]
    refine ⟨fun j hj => (hderef_iff r' j hj).2 ⟨rfl, hopens.of_narrows
      (hchain.narrows hj (Nat.le_refl k))⟩, hgrant, ?_, ?_⟩
    · rw [hh'.blkOfSlot hI'.heap.toRep hb']
      exact hopens.perms
    · rw [hh.mirrors.off, ← hoff']
      refine shmPtr_of_access hI' hb' hopens.mapped ?_
      rw [Blk.access, if_pos hopens.live, checkOwner_eq_ok, howner]
      exact hg.owner.imp id fun ho => ⟨ho, hopens.perms,
        (UInt32.and_comm ..).trans (within_trans hgrant hg.within_callerPerms)⟩

/-- The owner of the first object of a page derives a capability to read and write it, and narrows
it to reading, again and again. -/
def readCaps : Nat → Cap
  | 0 => (shmCapDerive (some pageHandle) 56 7 0xF 0x3).val
    (firstMem pageGeometry pageHandle eightBytes)
  | j + 1 => shmCapNarrow (readCaps j) 0x1

/-- When another object has been allocated, he can still read his. -/
theorem capabilities_never_amplify_page :
    (shmPtr (some pageHandle) (entryAt (firstMem pageGeometry pageHandle eightBytes) 0).off 7 0xF
      0x1).val ((asks 16).prog.mem (firstMem pageGeometry pageHandle eightBytes))
        = some (pageGeometry.base + 56) := by
  have hlive : StillLive pageGeometry AnyCall 0 (firstMem pageGeometry pageHandle eightBytes)
      ((asks 16).prog.mem (firstMem pageGeometry pageHandle eightBytes)) := by
    obtain ⟨bs, hI⟩ := page_reach.inv
    have hl : Legal pageGeometry (firstMem pageGeometry pageHandle eightBytes) (asks 16) :=
      legal_alloc hI rfl (by decide) (by decide)
    exact .step (.refl (by decide +kernel)) (.call _ hl trivial) (by decide +kernel)
  have hchain : NarrowChain readCaps 2 := fun j hj => ⟨0x1, rfl, by
    rcases (by omega : j = 0 ∨ j = 1) with rfl | rfl <;> decide +kernel⟩
  have hderive : (shmCapDerive (some pageHandle)
      (entryAt (firstMem pageGeometry pageHandle eightBytes) 0).off 7 0xF 0x3).val
        (firstMem pageGeometry pageHandle eightBytes) = readCaps 0 := by decide +kernel
  exact ((capabilities_never_amplify (page_reach.mono fun _ _ _ => trivial) (by decide) hlive
    (by decide +kernel) hderive (by decide +kernel) hchain).2.1 (some pageHandle) 0x1 _
      (by decide +kernel)).2.2.2

end ShmAlloc
