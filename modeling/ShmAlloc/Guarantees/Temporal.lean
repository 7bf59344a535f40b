import ShmAlloc.Guarantees.Capability

/-!
# Capabilities and time

A capability seals the low 16 bits of the id of its object and the low 32 bits of its capacity, and
a use compares them with the header it finds at the capability's address.  In a run in which
`next_id` does not wrap ids are never used twice, so the comparison can only go wrong in two ways:
another object at the address agrees with the first one in these bits (`Lookalike`), or there is no
object at the address and somebody's payload reads like the header (`Planted`).

## What is here

* `StillAt`: the object is still there and is still the same, which is what a successful use should
  mean.
* `Inv.readsAs_iff`: **what reads as the header of an object** is that of an object there that
  agrees with it, or is planted.
* `not_lookalike_of_nextId_le`: there are no lookalikes among the first 65536 objects of a region.
* `Run.eq_of_id`: an object with the id of an earlier one is the earlier one.
* `capability_temporal_safety`: **a capability is safe at an address, in a later state, exactly if
  no lookalike is there and nothing is planted.**
* `capability_temporal_safety_fails`: 65536 objects later the capability opens one that was
  allocated long after its own had been freed.
-/

set_option autoImplicit false

namespace ShmAlloc

open Tiling Links

variable {G : Geometry} {m m' : Mem} {bs : List Blk} {log : List Answer} {i : Nat}

/-! ## What a use can find -/

/-- The run recorded in `log` has led from `m` to `m'`.  The object that was in slot `i` has not
been freed, is still the same object, and its payload is at `off`. -/
structure StillAt (m : Mem) (i : Nat) (log : List Answer) (m' : Mem) (off : Nat) : Prop where
  kept : (entryAt m i).id ∉ log.filterMap Answer.freedId
  same : SameIdentity m m' i
  off_eq : (entryAt m' i).off = off

/-- Another object than that of `e` is at `off`, and its id and capacity agree with those in `e` in
the bits a capability keeps. -/
def Lookalike (G : Geometry) (e : Entry) (m' : Mem) (off : Nat) : Prop :=
  ∃ j, j < G.dirCap ∧ (entryAt m' j).alive = true ∧ (entryAt m' j).off = off ∧
    (entryAt m' j).id ≠ e.id ∧ (entryAt m' j).id % 2 ^ 16 = e.id % 2 ^ 16 ∧
    (entryAt m' j).cap % 2 ^ 32 = e.cap % 2 ^ 32

/-- No object is at `off`, but the bytes in front of it read as the header of one whose id and
capacity agree with those in `e`. -/
def Planted (G : Geometry) (e : Entry) (m' : Mem) (off : Nat) : Prop :=
  (∀ j, j < G.dirCap → (entryAt m' j).alive = true → (entryAt m' j).off ≠ off) ∧
    ReadsAs m' (G.base + (off - 56)) e.id e.cap

/-- The header of an object reads as one that agrees with it. -/
theorem Holds.readsAs_iff {j id cap : Nat} {b : Blk} (hh : Holds G m j b) (hB : BlkAt G m b) :
    ReadsAs m (G.base + ((entryAt m j).off - 56)) id cap ↔
      (entryAt m j).id % 2 ^ 16 = id % 2 ^ 16 ∧ (entryAt m j).cap % 2 ^ 32 = cap % 2 ^ 32 := by
  have hoff : (entryAt m j).off - 56 = b.off := by
    rw [hh.mirrors.off, Nat.add_sub_cancel]
  have halloc : m.load (G.base + b.off + 16) 1 ≠ 0 := by
    rw [← bne_iff_ne, hB.live]
    exact hh.live
  rw [hoff, hh.mirrors.id, hh.mirrors.cap, ← hB.id, ← hB.cap]
  exact ⟨fun h => ⟨h.id, h.cap⟩, fun h => ⟨hB.magic, halloc, h.1, h.2⟩⟩

/-- **What reads as the header** of an object like that of `e`: that of an object at the place whose
id and capacity agree with it, or something planted. -/
theorem Inv.readsAs_iff (h : Inv G m bs) (e : Entry) (off : Nat) :
    ReadsAs m (G.base + (off - 56)) e.id e.cap ↔
      (∃ j, j < G.dirCap ∧ (entryAt m j).alive = true ∧ (entryAt m j).off = off ∧
        (entryAt m j).id % 2 ^ 16 = e.id % 2 ^ 16 ∧ (entryAt m j).cap % 2 ^ 32 = e.cap % 2 ^ 32) ∨
      Planted G e m off := by
  constructor
  · intro hreads
    by_cases hsome : ∃ j, j < G.dirCap ∧ (entryAt m j).alive = true ∧ (entryAt m j).off = off
    · obtain ⟨j, hj, ha, rfl⟩ := hsome
      obtain ⟨pre, b, post, rfl, hh⟩ := h.holds hj ha
      obtain ⟨hid, hcap⟩ := (hh.readsAs_iff (h.heap.blk b (by simp))).1 hreads
      exact .inl ⟨j, hj, ha, rfl, hid, hcap⟩
    · exact .inr ⟨fun j hj ha hoff => hsome ⟨j, hj, ha, hoff⟩, hreads⟩
  · rintro (⟨j, hj, ha, rfl, hid, hcap⟩ | ⟨-, hreads⟩)
    · obtain ⟨pre, b, post, rfl, hh⟩ := h.holds hj ha
      exact (hh.readsAs_iff (h.heap.blk b (by simp))).2 ⟨hid, hcap⟩
    · exact hreads

/-- **No block is planted**: at the payload offset of a block, whether live or free, the code finds
the header of that block. -/
theorem not_planted_of_block (h : FullInv G m bs) {b : Blk} (hb : b ∈ bs) (e : Entry) :
    ¬ Planted G e m (b.off + 56) := by
  rintro ⟨hnone, hreads⟩
  rw [Nat.add_sub_cancel] at hreads
  have hlive : b.live = true := by
    rw [← (h.heap.blk b hb).live, bne_iff_ne]
    exact hreads.allocated
  obtain ⟨j, hj, ha, hoff, -⟩ := h.ids.onto b hb hlive
  exact hnone j hj ha hoff

/-- **There are no lookalikes among the first 65536 objects** of a region. -/
theorem not_lookalike_of_nextId_le (h : FullInv G m bs) (hn : nextIdOf m ≤ 65537) {e : Entry}
    (hpos : 0 < e.id) (hlt : e.id < nextIdOf m) (off : Nat) : ¬ Lookalike G e m off := by
  rintro ⟨j, hj, ha, -, hne, hmod, -⟩
  have h1 := h.ids.id_pos j hj ha
  have h2 := h.ids.id_lt j hj ha
  omega

/-! ## Sealed capabilities -/

/-- What a chain of narrowings that starts at a derivation seals. -/
theorem sealed_of_derive (h : Inv G m bs) (hi : i < G.dirCap) (ha : (entryAt m i).alive = true)
    {region : Option Region} {userId callerPerms grant : UInt32} {c : Nat → Cap} {k : Nat}
    (hderive : (shmCapDerive region (entryAt m i).off userId callerPerms grant).val m = c 0)
    (hnull : c 0 ≠ SHM_CAP_NULL) (hchain : NarrowChain c k) :
    metaEpoch (c k).metaWord = UInt16.ofNat ((entryAt m i).id &&& 0xFFFF) ∧
      metaBounds (c k).metaWord = UInt32.ofNat (entryAt m i).cap := by
  obtain ⟨r, b, hb, hh, hg, hcap⟩ := derived h hi ha hderive hnull
  have hn := hchain.narrows (Nat.zero_le k) (Nat.le_refl k)
  rw [hn.epoch, hn.bounds, hcap, capOf, metaEpoch_pack, metaBounds_pack, hh.mirrors.id,
    hh.mirrors.cap]
  exact ⟨rfl, rfl⟩

/-- **An object with the id of an earlier one is the earlier one**, in a run without a wrap: it has
not been freed, and it is in the same slot. -/
theorem Run.eq_of_id (h : Reach G NoWrap m) (hrun : Run G NoWrap m log m') (hi : i < G.dirCap)
    (ha : (entryAt m i).alive = true) {j : Nat} (hj : j < G.dirCap)
    (hja : (entryAt m' j).alive = true) (hid : (entryAt m' j).id = (entryAt m i).id) :
    (entryAt m i).id ∉ log.filterMap Answer.freedId ∧ SameIdentity m m' i ∧ j = i := by
  have hkept : (entryAt m i).id ∉ log.filterMap Answer.freedId := fun hf =>
    (hrun.retired h _ hf).absent j hj hja hid
  have hsame := hrun.sameIdentity h hi ha hkept
  obtain ⟨bs, hI⟩ := (hrun.reach h).fullInv
  refine ⟨hkept, hsame, hI.ids.distinct j i hj hi hja (hsame.alive.trans ha) ?_⟩
  rw [hid, hsame.id]

/-- **Temporal safety of capabilities.**  In a run in which `next_id` does not wrap, let a
capability be derived on an object and narrowed, and let its address be any in the heap.  In every
later state, whoever can dereference it, or finds it valid, finds the object it was derived on,
never freed since, exactly if there is no lookalike at the address and nothing is planted there. -/
theorem capability_temporal_safety (h : Reach G NoWrap m) (hrun : Run G NoWrap m log m')
    (hi : i < G.dirCap) (ha : (entryAt m i).alive = true) {region : Option Region}
    {userId callerPerms grant : UInt32} {c : Nat → Cap} {k : Nat}
    (hderive : (shmCapDerive region (entryAt m i).off userId callerPerms grant).val m = c 0)
    (hnull : c 0 ≠ SHM_CAP_NULL) (hchain : NarrowChain c k) {addr : Nat} (hlo : 56 ≤ addr)
    (hhi : addr ≤ G.heapSize) :
    (∀ region' required, (shmCapDeref region' ⟨addr, (c k).metaWord⟩ required).val m' ≠ none ∨
        (shmCapIsValid region' ⟨addr, (c k).metaWord⟩).val m' = true →
        StillAt m i log m' addr) ↔
      ¬ Lookalike G (entryAt m i) m' addr ∧ ¬ Planted G (entryAt m i) m' addr := by
  obtain ⟨bs, hI⟩ := h.fullInv
  obtain ⟨bs', hI'⟩ := (hrun.reach h).fullInv
  obtain ⟨hepoch, hbounds⟩ := sealed_of_derive hI.toInv hi ha hderive hnull hchain
  have hvalid : ∀ r, (shmCapIsValid (some r) ⟨addr, (c k).metaWord⟩).val m' = true ↔
      isNull r (G.base + (addr - 56)) = false ∧
        ReadsAs m' (G.base + (addr - 56)) (entryAt m i).id (entryAt m i).cap := fun r =>
    shmCapIsValid_iff hI'.layout hlo hhi hepoch hbounds
  constructor
  · intro hsafe
    -- whatever reads as the header is valid through some handle
    have hstill : ReadsAs m' (G.base + (addr - 56)) (entryAt m i).id (entryAt m i).cap →
        StillAt m i log m' addr := fun hreads => by
      obtain ⟨r, hr⟩ := exists_mapped (G.base + (addr - 56))
      exact hsafe (some r) 0 (.inr ((hvalid r).2 ⟨hr, hreads⟩))
    constructor
    · rintro ⟨j, hj, hja, hoff, hne, hid, hcap⟩
      have hs := hstill ((hI'.readsAs_iff _ _).2 (.inl ⟨j, hj, hja, hoff, hid, hcap⟩))
      have hia : (entryAt m' i).alive = true := hs.same.alive.trans ha
      obtain rfl := hI'.dir.inj j i hj hi hja hia (hoff.trans hs.off_eq.symm)
      exact hne hs.same.id
    · rintro ⟨hnone, hreads⟩
      have hs := hstill hreads
      exact hnone i hi (hs.same.alive.trans ha) hs.off_eq
  · rintro ⟨hlook, hplant⟩ region' required huse
    have hval : (shmCapIsValid region' ⟨addr, (c k).metaWord⟩).val m' = true :=
      huse.elim isValid_of_deref id
    cases region' with
    | none =>
      rw [shmCapIsValid] at hval
      split at hval <;> exact Bool.noConfusion hval
    | some r =>
      -- nothing is planted, so there is an object at the address
      obtain ⟨j, hj, hja, hoff, hid, hcap⟩ :=
        ((hI'.readsAs_iff _ _).1 ((hvalid r).1 hval).2).resolve_right hplant
      -- it is no lookalike, so it has the id
      have heq : (entryAt m' j).id = (entryAt m i).id := by
        by_contra hne
        exact hlook ⟨j, hj, hja, hoff, hne, hid, hcap⟩
      obtain ⟨hkept, hsame, rfl⟩ := hrun.eq_of_id h hi ha hj hja heq
      exact ⟨hkept, hsame, hoff⟩

/-- A capability for the first object of a page, redirected to the second, opens nothing. -/
theorem capability_temporal_safety_page :
    (shmCapDeref (some pageHandle) ⟨120, (readCaps 2).metaWord⟩ 0x1).val
      ((asks 16).prog.mem (firstMem pageGeometry pageHandle eightBytes)) = none := by
  obtain ⟨bs, hI⟩ := page_reach.fullInv
  have hrun := (Run.refl (C := NoWrap)).call (asks 16)
    (legal_alloc (r := pageHandle) hI.toInv rfl (by decide) (by decide))
    (by unfold NoWrap; decide +kernel)
  obtain ⟨bs', hI'⟩ := (hrun.reach page_reach).fullInv
  have hchain : NarrowChain readCaps 2 := fun j hj => ⟨0x1, rfl, by
    rcases (by omega : j = 0 ∨ j = 1) with rfl | rfl <;> decide +kernel⟩
  have hlook : ¬ Lookalike pageGeometry (entryAt (firstMem pageGeometry pageHandle eightBytes) 0)
      ((asks 16).prog.mem (firstMem pageGeometry pageHandle eightBytes)) 120 :=
    not_lookalike_of_nextId_le hI' (by decide +kernel) (by decide +kernel) (by decide +kernel) 120
  have hplant : ¬ Planted pageGeometry (entryAt (firstMem pageGeometry pageHandle eightBytes) 0)
      ((asks 16).prog.mem (firstMem pageGeometry pageHandle eightBytes)) 120 := by
    rintro ⟨hnone, -⟩
    exact hnone 1 (by decide) (by decide +kernel) (by decide +kernel)
  have hderive : (shmCapDerive (some pageHandle)
      (entryAt (firstMem pageGeometry pageHandle eightBytes) 0).off 7 0xF 0x3).val
        (firstMem pageGeometry pageHandle eightBytes) = readCaps 0 := by decide +kernel
  by_contra hderef
  have hs := (capability_temporal_safety page_reach hrun (by decide) page_alive hderive
    (by decide +kernel) hchain (by decide) (by decide)).2 ⟨hlook, hplant⟩ (some pageHandle) 0x1
      (.inl hderef)
  exact absurd hs.off_eq (by decide +kernel)

/-! ## 65536 objects later

The run is an induction on the number of objects, since no kernel would evaluate it.  Each round
takes a page with one object to a page with one object, whose id is the next. -/

/-- A user asks for the whole heap of the page. -/
def wholeHeap : Request := ⟨3648, none, 7, 0xF, 0⟩

/-- The one object of the page has the id `n`, and takes up the whole heap. -/
structure OneObject (m : Mem) (n : Nat) : Prop where
  inv : ∃ b, FullInv pageGeometry m [b]
  entry : entryAt m 0 = newEntry 0 3648 n wholeHeap
  next : nextIdOf m = n + 1

/-- **Allocating the whole heap**, where it is one free block that has kept its capacity. -/
theorem OneObject.alloc {b : Blk} (h : FullInv pageGeometry m [b]) (hb : b.live = false)
    (hcap : b.cap = 3648) (hslot : (entryAt m 0).alive = false) (hn : nextIdOf m + 1 < 2 ^ 64) :
    Legal pageGeometry m (.alloc (some pageHandle) wholeHeap true true) ∧
      OneObject ((Call.alloc (some pageHandle) wholeHeap true true).prog.mem m) (nextIdOf m) := by
  obtain ⟨hoff, htotal⟩ : b.off = 0 ∧ 0 + b.total = 3704 := h.heap.tiles
  have hsize : blockSize wholeHeap.size = 3704 := rfl
  have hfit : blockSize wholeHeap.size ≤ b.total := by omega
  have ht : Takes pageGeometry m [] b 0 wholeHeap :=
    takes_only (by decide) hslot hb (by decide) (by decide) hfit
  have hwhole : ¬ 64 ≤ b.total - 3704 := by omega
  have hI : FullInv pageGeometry m ([] ++ b :: []) := h
  refine ⟨legal_alloc h.toInv rfl (by decide) (by decide), ?_⟩
  rw [(exec_only h.toInv (by decide) hslot hb (by decide) (by decide) hfit pageHandle).mem,
    replay_append, replay_lockEvents]
  refine ⟨⟨(taken b 3704).named (nextIdOf m) wholeHeap, ?_⟩, ?_, ?_⟩
  · have hnew := hI.alloc ht hn
    rwa [allocBlks, hsize, remnant, if_neg hwhole] at hnew
  · rw [entryAt_alloc hI.toInv ht, hsize, hoff]
    have htaken : (taken b 3704).cap = b.cap := by rw [taken, detached, if_neg hwhole]
    rw [htaken, hcap]
  · rw [nextIdOf_alloc ht]
    exact add64_eq hn

/-- **Freeing the object and allocating again** gives an object with the next id. -/
theorem OneObject.cycle {n : Nat} {m₀ : Mem} (h : OneObject m n) (hn : n + 2 < 2 ^ 64)
    (hrun : Run pageGeometry NoWrap m₀ log m) :
    ∃ log' m', Run pageGeometry NoWrap m₀ log' m' ∧ OneObject m' (n + 1) := by
  obtain ⟨b, hI⟩ := h.inv
  have ha : (entryAt m 0).alive = true := by rw [h.entry]; rfl
  have hid : (entryAt m 0).id = n := by rw [h.entry]; rfl
  have hpos : 0 < n := hid ▸ hI.ids.id_pos 0 (by decide) ha
  obtain ⟨hh, hI⟩ : Holds pageGeometry m 0 b ∧ FullInv pageGeometry m ([] ++ b :: []) := by
    obtain ⟨pre, c, post, hbs, hh⟩ := hI.toInv.holds (i := 0) (by decide) ha
    have hc : c ∈ [b] := by rw [hbs]; simp
    obtain rfl := List.mem_singleton.1 hc
    exact ⟨hh, hI⟩
  have hf : Finds pageGeometry m n 0 :=
    ⟨by decide, ha, hid, fun k hk => absurd hk (Nat.not_lt_zero k)⟩
  have hacc : (entryAt m 0).access 7 0xF SHM_PERM_FREE = .ok := by
    rw [Entry.access_live ⟨ha, by omega⟩, h.entry]
    show checkOwner 7 0xF 7 0xF SHM_PERM_FREE = .ok
    decide
  -- the object is freed
  have hx := exec_shmFree_found hI.toInv hh pageHandle (Nat.ne_of_gt hpos) hf hacc
  have hmem : (Call.free (some pageHandle) n 7 0xF).prog.mem m
      = replay (freeEvents pageGeometry [] b [] 0) m := by
    rw [Call.prog, hx.mem, replay_append, replay_lockEvents]
  have hnext : nextIdOf (replay (freeEvents pageGeometry [] b [] 0) m) = n + 1 :=
    nextIdOf_free.trans h.next
  have hrun₁ := hrun.call (.free (some pageHandle) n 7 0xF)
    (legal_free hI.toInv rfl (Nat.ne_of_gt hpos) 7 0xF) (by
      rw [NoWrap, hmem, hnext, h.next])
  rw [hmem] at hrun₁
  -- its block is the free list
  have hI₁ : FullInv pageGeometry (replay (freeEvents pageGeometry [] b [] 0) m) [b.freed] :=
    hI.free hh
  have hcap : b.freed.cap = 3648 := by
    rw [Blk.freed_cap, ← hh.mirrors.cap, h.entry]
    rfl
  obtain ⟨hlegal, hone⟩ := OneObject.alloc hI₁ rfl hcap (free_entry_self m) (by omega)
  rw [hnext] at hone
  refine ⟨_, _, hrun₁.call _ hlegal ?_, hone⟩
  rw [NoWrap, hone.next, hnext]
  exact Nat.le_succ _

/-- **Any number of objects can be allocated**, one after the other. -/
theorem OneObject.cycles {n : Nat} (h : OneObject m n) :
    ∀ k, n + k + 1 < 2 ^ 64 →
      ∃ log m', Run pageGeometry NoWrap m log m' ∧ OneObject m' (n + k) := by
  intro k
  induction k with
  | zero => exact fun _ => ⟨[], m, .refl, h⟩
  | succ k ih =>
    intro hk
    obtain ⟨log, m', hrun, hone⟩ := ih (by omega)
    exact hone.cycle (by omega) hrun

/-- What a user finds who has a capability for the object. -/
theorem OneObject.opens {n : Nat} (h : OneObject m n) {cap : Cap} (haddr : cap.addr = 56)
    (hepoch : metaEpoch cap.metaWord = UInt16.ofNat (n &&& 0xFFFF))
    (hbounds : metaBounds cap.metaWord = 3648) {required : UInt32}
    (hsealed : shmCapPerms cap &&& required = required)
    (hperms : 0xF &&& required.toNat = required.toNat) :
    (shmCapDeref (some pageHandle) cap required).val m = some (pageGeometry.base + 56) := by
  obtain ⟨b, hI⟩ := h.inv
  have ha : (entryAt m 0).alive = true := by rw [h.entry]; rfl
  obtain ⟨pre, c, post, hbs, hh⟩ := hI.toInv.holds (i := 0) (by decide) ha
  have hc : c ∈ [b] := by rw [hbs]; simp
  have hsame := hI.sameObject hh hc
  have hoff : c.off = 0 := by
    have hpay : 0 + 56 = c.off + 56 := by
      rw [← hsame.off, h.entry]
      rfl
    omega
  refine (shmCapDeref_eq_some hI.layout (hI.heap.blk c hc) (hI.toInv.hdr_le hc)
    (by rw [haddr, hoff])).2 ⟨by rw [hoff], ?_⟩
  refine ⟨by rw [hoff]; decide, hh.live, ?_, ?_, hsealed, ?_⟩
  · rw [Blk.epoch, ← hsame.id, h.entry, hepoch]
    rfl
  · rw [← hsame.cap, h.entry, hbounds]
    rfl
  · rw [← hsame.perms, h.entry]
    exact hperms

/-- The region of a page with one object that takes up the whole heap. -/
def wholeMem : Mem := firstMem pageGeometry pageHandle wholeHeap

theorem wholeMem_one : OneObject wholeMem 1 := by
  have hone := (OneObject.alloc (inv_fresh pageGeometry) rfl rfl (entryAt_fresh (by decide))
    (by rw [nextIdOf_fresh]; decide)).2
  rwa [nextIdOf_fresh] at hone

/-- Its owner derives a capability to read and write it. -/
def wholeCap : Cap := (shmCapDerive (some pageHandle) 56 7 0xF 0x3).val wholeMem

theorem wholeCap_eq : wholeCap = ⟨56, capMetaPack 0x3 7 1 3648⟩ := by decide +kernel

/-- **65536 objects later** the capability opens an object that was allocated long after its own
object had been freed. -/
theorem capability_temporal_safety_fails : ∃ log m', Run pageGeometry NoWrap wholeMem log m' ∧
    wholeCap ≠ SHM_CAP_NULL ∧ (shmCapIsValid (some pageHandle) wholeCap).val m' = true ∧
    (shmCapDeref (some pageHandle) wholeCap 0x3).val m' = some (pageGeometry.base + 56) ∧
    (entryAt m' 0).off = 56 ∧ (entryAt wholeMem 0).id = 1 ∧ (entryAt m' 0).id = 65537 ∧
    ¬ StillAt wholeMem 0 log m' 56 := by
  obtain ⟨log, m', hrun, hone⟩ := wholeMem_one.cycles 65536 (by decide)
  have hderef : (shmCapDeref (some pageHandle) wholeCap 0x3).val m'
      = some (pageGeometry.base + 56) := by
    rw [wholeCap_eq]
    exact hone.opens rfl (by decide) (by decide) (by decide) (by decide)
  have hid : (entryAt wholeMem 0).id = 1 := by rw [wholeMem_one.entry]; rfl
  have hid' : (entryAt m' 0).id = 65537 := by rw [hone.entry]; rfl
  refine ⟨log, m', hrun, ?_, isValid_of_deref (by rw [hderef]; simp), hderef, ?_, hid, hid', ?_⟩
  · rw [wholeCap_eq]
    decide
  · rw [hone.entry]
    rfl
  · intro hs
    have := hs.same.id
    omega

end ShmAlloc
