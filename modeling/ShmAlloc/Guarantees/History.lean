import ShmAlloc.Guarantees.Heap
import ShmAlloc.Guarantees.Objects

/-!
# The heap has no history

Free blocks are the gaps between allocated ones, and no two of them are neighbours.  So what is
allocated determines the heap: which blocks are free, in which order the free list has them, what
the counters say, and where the next object goes.  How it came to be allocated does not matter, and
a heap of which everything has been given back is the heap of a new region.

## What is here

* `Blk.extent` and `allocated`: where the allocated blocks are, and how large.
* `HeapInv.extents_eq`: **what is allocated determines the heap**, that is the extents of all
  blocks.  The capacities in the headers of free blocks are not part of it, as they do depend on the
  past.
* `allocAnswer` and `answerFor`: what the caller of `shm_alloc` is told, and the same as a function
  of the extents.
* `heap_has_no_history`: **two reachable states in which the same is allocated** have the same
  extents, list and counters, and give the same answers to `shm_alloc`.
* `nothing_leaks`: **an administrator can free every object**, in as many calls as there are
  objects, and what is left is one free block, an empty directory and counters of 0.
-/

set_option autoImplicit false

namespace ShmAlloc

open Tiling Links

variable {G : Geometry} {m m' : Mem} {bs bs' : List Blk} {r : Region} {q : Request}

/-! ## Extents

A tiling whose free blocks are never adjacent is determined by the other ones, which is a fact about
tilings and is proved there. -/

/-- Where a block is, how large it is, and whether it is allocated. -/
def Blk.extent (b : Blk) : Nat × Nat × Bool := (b.off, b.total, b.live)

/-- The allocated blocks: where they are, and how large. -/
def allocated (bs : List Blk) : List (Nat × Nat) := marked Blk.off Blk.total Blk.live bs

/-- **What is allocated determines the heap.** -/
theorem HeapInv.extents_eq (h : HeapInv G m bs) (h' : HeapInv G m' bs')
    (heq : allocated bs = allocated bs') : bs.map Blk.extent = bs'.map Blk.extent := by
  have hpos : ∀ {m : Mem} {bs : List Blk}, HeapInv G m bs → ∀ b ∈ bs, 0 < b.total :=
    fun h b hb => Nat.lt_of_lt_of_le (by decide) (h.wf b hb).min
  exact h.tiles.ext_of_marked h'.tiles (hpos h) (hpos h') h.coalesced h'.coalesced heq

section

variable (heq : bs.map Blk.extent = bs'.map Blk.extent)
include heq

theorem freeOffs_of_extents : freeOffs bs = freeOffs bs' := by
  have hread : ∀ cs : List Blk,
      freeOffs cs = ((cs.map Blk.extent).filter fun x => !x.2.2).map fun x => x.1 := fun cs => by
    rw [List.filter_map, List.map_map]
    rfl
  rw [hread, hread, heq]

/-- First fit goes by extents. -/
theorem firstFitOf_of_extents (need : Nat) :
    (firstFitOf bs need).map Blk.off = (firstFitOf bs' need).map Blk.off := by
  have hread : ∀ cs : List Blk, (firstFitOf cs need).map Blk.off =
      ((cs.map Blk.extent).find? fun x => !x.2.2 && decide (need ≤ x.2.1)).map fun x => x.1 :=
    fun cs => by
      rw [List.find?_map, Option.map_map]
      rfl
  rw [hread, hread, heq]

end

theorem liveBytes_eq (bs : List Blk) : liveBytes bs = ((allocated bs).map Prod.snd).sum := by
  rw [allocated, marked, List.map_map]
  rfl

theorem length_allocated (bs : List Blk) : (allocated bs).length = (liveBlks bs).length := by
  rw [allocated, marked, List.length_map]
  rfl

/-! ## What an allocation is told -/

/-- What the caller of `shm_alloc` is told: the code, and where its object is. -/
def allocAnswer (r : Region) (q : Request) (m : Mem) : Rc × Option Nat :=
  ((Call.alloc (some r) q true true).prog.val m,
    lastOut 1 ((Call.alloc (some r) q true true).prog.trace m))

/-- The same, for a heap of these blocks and a directory of `slots` slots. -/
def answerFor (slots : Nat) (bs : List Blk) (need : Nat) : Rc × Option Nat :=
  if (liveBlks bs).length = slots then (.enospc, none)
  else
    match (firstFitOf bs need).map Blk.off with
    | none => (.enomem, none)
    | some o => (.ok, some (o + 56))

/-- The directory is full when there is a block for each slot. -/
theorem FullInv.full_iff (h : FullInv G m bs) :
    (∀ j, j < G.dirCap → (entryAt m j).Live) ↔ (liveBlks bs).length = G.dirCap := by
  have hlen : (List.range' 0 G.dirCap).length = G.dirCap := List.length_range'
  have hall := List.countP_eq_length (l := List.range' 0 G.dirCap)
    (p := fun j => (entryAt m j).alive)
  rw [h.countLive, hlen] at hall
  rw [hall]
  refine ⟨fun hl j hj => (hl j ?_).1, fun ha j hj => h.entry_live hj (ha j ?_)⟩
  · rw [List.mem_range'_1] at hj
    exact Nat.lt_of_lt_of_eq hj.2 (Nat.zero_add _)
  · rw [List.mem_range'_1]
    exact ⟨Nat.zero_le _, Nat.lt_of_lt_of_eq hj (Nat.zero_add _).symm⟩

/-- **The answer depends on the blocks alone.** -/
theorem FullInv.allocAnswer_eq (h : FullInv G m bs) (r : Region) (hq : q.size ≠ 0)
    (hq' : q.size ≤ 2 ^ 64 - 64) :
    allocAnswer r q m = answerFor G.dirCap bs (blockSize q.size) := by
  have hargs : ¬ (q.size = 0 ∨ true = false ∨ true = false) := by simpa using hq
  have hprog : (Call.alloc (some r) q true true).prog
      = regionLock r >>= fun _ => allocLocked q.size q.name q.userId q.perms q.typeTag :=
    if_neg hargs
  have hread : ∀ {rc : Rc} {W : List Event},
      Exec G.size (allocLocked q.size q.name q.userId q.perms q.typeTag) m rc W →
      allocAnswer r q m = (rc, lastOut 1 (lockEvents r ++ W)) := fun {rc W} hx => by
    have hx : Exec G.size (Call.alloc (some r) q true true).prog m rc (lockEvents r ++ W) :=
      hprog ▸ exec_locked r hx
    rw [allocAnswer, hx.val, ← lastOut_effects, hx.eff]
  have hsilent : lastOut 1 (lockEvents r ++ [.unlock]) = none := by
    rw [lockEvents]
    split <;> rfl
  rcases exec_allocLocked h.toInv hq hq' with
    ⟨hfull, hx⟩ | ⟨⟨j, hj, hjl⟩, hno, hx⟩ | ⟨pre, b, post, i, rfl, ht, hx⟩
  · rw [hread hx, hsilent, answerFor, if_pos (h.full_iff.1 hfull)]
  · rw [hread hx, hsilent, answerFor, if_neg fun hc => hjl (h.full_iff.2 hc j hj),
      firstFitOf_eq_none.2 hno]
    rfl
  · rw [hread hx, answerFor, if_neg fun hc => ht.slot_free (h.full_iff.2 hc i ht.slot_lt),
      firstFitOf_eq ht.free ht.fits ht.first]
    exact Prod.ext rfl (lastOut_allocEvents r (nextIdOf m)).2

/-! ## No history -/

/-- **The heap has no history.**  Take two reachable states of a region, however they were reached,
in which the same is allocated.  They have the same free blocks, the same free list and the same
counters, and an allocation is told the same in both, down to the place of the new object. -/
theorem heap_has_no_history (h : Reach G NoWrap m) (h' : Reach G NoWrap m')
    (heq : allocated (blocks G m) = allocated (blocks G m')) :
    (blocks G m).map Blk.extent = (blocks G m').map Blk.extent ∧
      (∀ xs, Linked (nextAt G m) (m.load 88 8) xs ↔ Linked (nextAt G m') (m'.load 88 8) xs) ∧
      m.load 96 8 = m'.load 96 8 ∧ m.load 104 8 = m'.load 104 8 ∧
      ∀ (r r' : Region) (q : Request), q.size ≠ 0 → q.size ≤ 2 ^ 64 - 64 →
        allocAnswer r q m = allocAnswer r' q m' := by
  obtain ⟨bs, hI⟩ := h.fullInv
  obtain ⟨bs', hI'⟩ := h'.fullInv
  rw [hI.heap.toRep.blocks_eq, hI'.heap.toRep.blocks_eq] at heq ⊢
  have hext := hI.heap.extents_eq hI'.heap heq
  have hcount : (liveBlks bs).length = (liveBlks bs').length := by
    rw [← length_allocated, ← length_allocated, heq]
  refine ⟨hext, fun xs => ?_, ?_, ?_, fun r r' q hq hq' => ?_⟩
  · have hl := hI.heap.links
    have hl' := hI'.heap.links
    rw [← freeOffs_of_extents hext] at hl'
    exact ⟨fun hx => hx.unique hl ▸ hl', fun hx => hx.unique hl' ▸ hl⟩
  · rw [hI.used, hI'.used, liveBytes_eq, liveBytes_eq, heq]
  · rw [hI.count, hI'.count, hcount]
  · rw [hI.allocAnswer_eq r hq hq', hI'.allocAnswer_eq r' hq hq', answerFor, answerFor, hcount,
      firstFitOf_of_extents hext]

/-- The page after its first object has been freed has the heap of a new page. -/
theorem heap_has_no_history_page :
    (blocks pageGeometry (freshMem pageGeometry)).map Blk.extent =
      (blocks pageGeometry ((shmFree (some pageHandle) 1 7 0xF).mem
        (firstMem pageGeometry pageHandle eightBytes))).map Blk.extent := by
  obtain ⟨bs, hI⟩ := page_reach.fullInv
  have hl := legal_free hI.toInv (r := pageHandle) rfl Nat.one_ne_zero 7 0xF
  have hfreed : Reach pageGeometry NoWrap
      ((Call.free (some pageHandle) 1 7 0xF).prog.mem
        (firstMem pageGeometry pageHandle eightBytes)) :=
    page_reach.step (.call _ hl (noWrap_of_not_alloc hI.toInv hl nofun))
  exact (heap_has_no_history (reach_fresh _ _) hfreed (by decide +kernel)).1

/-! ## Nothing leaks

The induction is on the number of blocks that are left to free. -/

/-- An administrator frees an object. -/
theorem FullInv.admin_free (h : FullInv G m bs) (r : Region) (userId : UInt32)
    {callerPerms : UInt32} (hadm : callerPerms &&& SHM_PERM_ADMIN ≠ 0) {i : Nat}
    (hi : i < G.dirCap) (ha : (entryAt m i).alive = true) : ∃ W,
    Exec G.size (shmFree (some r) (entryAt m i).id userId callerPerms) m .ok W ∧
      nextIdOf (replay W m) = nextIdOf m ∧ (replay W m).load 104 8 + 1 = m.load 104 8 := by
  have hid : (entryAt m i).id ≠ 0 := Nat.ne_of_gt (h.ids.id_pos i hi ha)
  obtain ⟨pre, b, post, rfl, hh⟩ := h.holds hi ha
  have hacc : (entryAt m i).access userId callerPerms SHM_PERM_FREE = .ok := by
    rw [Entry.access_live (h.entry_live hi ha), checkOwner, if_pos hadm]
  refine ⟨_, exec_shmFree_found h.toInv hh r hid (h.ids.finds hi ha) hacc, ?_, ?_⟩
  · rw [replay_locked, nextIdOf_free]
  · rw [replay_locked, (h.free hh).count, h.count, liveBlks_insertFree b.freed_live,
      liveBlks_append, liveBlks_cons_live hh.live, List.length_append, List.length_append,
      List.length_cons]
    rfl

/-- The record of a `shm_free` that succeeded. -/
def Answer.IsFree (r : Region) (userId callerPerms : UInt32) (a : Answer) : Prop :=
  a.rc = .ok ∧ ∃ objId, a.call = .free (some r) objId userId callerPerms

theorem isFree_answer {userId callerPerms : UInt32} {objId : Nat}
    (h : (Call.free (some r) objId userId callerPerms).prog.val m = .ok) :
    ((Call.free (some r) objId userId callerPerms).answer m).IsFree r userId callerPerms :=
  ⟨h, objId, rfl⟩

/-- As many objects as are wanted can be freed, one by one. -/
theorem Reach.free_some (h : Reach G NoWrap m) (hr : r.size = G.size) (userId : UInt32)
    {callerPerms : UInt32} (hadm : callerPerms &&& SHM_PERM_ADMIN ≠ 0) :
    ∀ k, k ≤ m.load 104 8 → ∃ log m', Run G NoWrap m log m' ∧
      (∀ a ∈ log, a.IsFree r userId callerPerms) ∧ log.length = k ∧
        m'.load 104 8 + k = m.load 104 8 := by
  intro k
  induction k with
  | zero => exact fun _ => ⟨[], m, .refl, nofun, rfl, rfl⟩
  | succ k ih =>
    intro hk
    obtain ⟨log, m₁, hrun, hall, hlen, hcount⟩ := ih (Nat.le_of_succ_le hk)
    obtain ⟨bs, hI⟩ := (hrun.reach h).fullInv
    -- there is an object left, and it has an entry
    have hpos : 0 < (liveBlks bs).length := by
      rw [← hI.count]
      omega
    obtain ⟨b, hb⟩ := List.exists_mem_of_length_pos hpos
    obtain ⟨hbm, hbl⟩ := mem_liveBlks.1 hb
    obtain ⟨i, hi, ha, -⟩ := hI.ids.onto b hbm hbl
    have hid : (entryAt m₁ i).id ≠ 0 := Nat.ne_of_gt (hI.ids.id_pos i hi ha)
    obtain ⟨W, hx, hnext, hless⟩ := hI.admin_free r userId hadm hi ha
    have hl := legal_free hI.toInv hr hid userId callerPerms
    have hwrap : NoWrap m₁ (.free (some r) (entryAt m₁ i).id userId callerPerms) :=
      Nat.le_of_eq (hnext.symm.trans (congrArg nextIdOf hx.mem.symm))
    have hstep := hrun.call _ hl hwrap
    have hval : (Call.free (some r) (entryAt m₁ i).id userId callerPerms).prog.val m₁ = .ok :=
      hx.val
    have hmem : (Call.free (some r) (entryAt m₁ i).id userId callerPerms).prog.mem m₁
        = replay W m₁ := hx.mem
    rw [hmem] at hstep
    refine ⟨_, _, hstep, fun a ha' => ?_, ?_, ?_⟩
    · rcases List.mem_append.1 ha' with ha' | ha'
      · exact hall a ha'
      · rw [List.mem_singleton.1 ha']
        exact isFree_answer hval
    · rw [List.length_append, hlen, List.length_singleton]
    · rw [← hcount, ← hless, Nat.add_assoc, Nat.add_comm 1]

/-- **A heap on which nothing is allocated is the heap of a new region.** -/
theorem FullInv.empty (h : FullInv G m bs) (hcount : m.load 104 8 = 0) :
    bs.map Blk.extent = [(0, G.heapSize, false)] ∧ m.load 96 8 = 0 ∧
      ∀ i, i < G.dirCap → (entryAt m i).alive = false := by
  have hnil : liveBlks bs = [] := List.eq_nil_of_length_eq_zero (h.count.symm.trans hcount)
  have hall : allocated bs = [] := by
    rw [← List.length_eq_zero_iff, length_allocated, hnil]
    rfl
  refine ⟨?_, ?_, fun i hi => ?_⟩
  · exact h.heap.extents_eq (inv_fresh G).heap hall
  · rw [h.used, liveBytes, hnil]
    rfl
  · cases ha : (entryAt m i).alive with
    | false => rfl
    | true =>
      obtain ⟨b, hb, hl, -⟩ := h.dir.entry i hi ha
      have hmem := mem_liveBlks.2 ⟨hb, hl⟩
      rw [hnil] at hmem
      exact absurd hmem List.not_mem_nil

/-- **Nothing leaks.**  In every reachable state an administrator can free every object, with as
many calls as there are objects, all of which succeed.  Then no directory slot is in use, the heap
is one free block, the counters are zero, and an object of any size the heap can hold is put at its
start. -/
theorem nothing_leaks (h : Reach G NoWrap m) (hr : r.size = G.size) (userId : UInt32)
    {callerPerms : UInt32} (hadm : callerPerms &&& SHM_PERM_ADMIN ≠ 0) :
    ∃ log m', Run G NoWrap m log m' ∧ (∀ a ∈ log, a.IsFree r userId callerPerms) ∧
      log.length = m.load 104 8 ∧ (blocks G m').map Blk.extent = [(0, G.heapSize, false)] ∧
      m'.load 96 8 = 0 ∧ m'.load 104 8 = 0 ∧
      (∀ i, i < G.dirCap → (entryAt m' i).alive = false) ∧
      ∀ (r' : Region) (q : Request), 0 < G.dirCap → q.size ≠ 0 → q.size ≤ 2 ^ 64 - 64 →
        blockSize q.size ≤ G.heapSize → allocAnswer r' q m' = (.ok, some 56) := by
  obtain ⟨log, m', hrun, hall, hlen, hcount⟩ := h.free_some hr userId hadm _ (Nat.le_refl _)
  have hzero : m'.load 104 8 = 0 := by omega
  obtain ⟨bs, hI⟩ := (hrun.reach h).fullInv
  obtain ⟨hext, hused, hdead⟩ := hI.empty hzero
  have hblocks := hI.heap.toRep.blocks_eq
  refine ⟨log, m', hrun, hall, hlen, hblocks.symm ▸ hext, hused, hzero, hdead,
    fun r' q hcap hq hq' hfit => ?_⟩
  have hfirst : firstFitOf [Blk.fresh 0 G.heapSize] (blockSize q.size)
      = some (Blk.fresh 0 G.heapSize) :=
    List.find?_cons_of_pos (decide_eq_true hfit)
  have hlive : (liveBlks bs).length = 0 := hI.count.symm.trans hzero
  have hext' : bs.map Blk.extent = [Blk.fresh 0 G.heapSize].map Blk.extent := hext
  rw [hI.allocAnswer_eq r' hq hq', answerFor, hlive, if_neg (Nat.ne_of_lt hcap),
    firstFitOf_of_extents hext', hfirst]
  rfl

/-- The page with one object is emptied with one call. -/
theorem nothing_leaks_page : ∃ log m',
    Run pageGeometry NoWrap (firstMem pageGeometry pageHandle eightBytes) log m' ∧
      log.length = 1 ∧ (blocks pageGeometry m').map Blk.extent = [(0, 3704, false)] := by
  have hadm : SHM_PERM_ADMIN &&& SHM_PERM_ADMIN ≠ 0 := by decide
  obtain ⟨log, m', hrun, -, hlen, hext, -⟩ :=
    nothing_leaks page_reach (r := pageHandle) rfl 0 hadm
  exact ⟨log, m', hrun, hlen.trans (by decide +kernel), hext⟩

end ShmAlloc
