import ShmAlloc.Guarantees.Identity

/-!
# Capacities

A header stores the size of its block twice: `total_size`, and `payload_cap`, which is what
`total_size` leaves behind the header.  Splitting, shrinking and growing in place set both, but
merging two free blocks sets `total_size` only.  A merged block that is later handed out whole
keeps the capacity of its first part, and everything that trusts `payload_cap` is off: the capacity
in the directory, what a relocation copies, and how much it clears.

## What is here

* `Blk.Full`: `payload_cap` is what `total_size` leaves behind the header.
* `KeepsCapacity`: the condition on a call not to hand out a block that is not full.  It is a
  predicate on memory that can be evaluated before the call; what it says about the blocks is
  `Rep.takesFull` and `Rep.growsInPlace`.
* `Reach.fullBlks`: along a run whose calls all meet it, every live block is full.
* `CoversUse` and `capacity_covers`: **in such a run the capacity of every object covers its used
  size, and is the same in its entry and its header.**
* `mergedPage` and `capacity_covers_fails`: one free is enough to leave a block that is not full,
  and the next allocation gives an object a capacity of 8 for its 3648 bytes.
-/

set_option autoImplicit false

namespace ShmAlloc

open Tiling Links

variable {G : Geometry} {m m' : Mem} {bs bs' pre post : List Blk}

/-! ## Full blocks -/

/-- `payload_cap` is what `total_size` leaves behind the header. -/
def Blk.Full (b : Blk) : Prop := b.cap + 56 = b.total

instance (b : Blk) : Decidable b.Full := inferInstanceAs (Decidable (_ = _))

theorem Blk.Full.congr {b c : Blk} (h : b.Full) (hcap : c.cap = b.cap)
    (htotal : c.total = b.total) : c.Full := by
  rw [Blk.Full, hcap, htotal]
  exact h

/-- The first free block of at least `need` bytes. -/
def firstFitOf (bs : List Blk) (need : Nat) : Option Blk :=
  bs.find? fun b => !b.live && decide (need ≤ b.total)

theorem firstFitOf_eq {b : Blk} {need : Nat} (hb : b.live = false) (hfit : need ≤ b.total)
    (hfirst : ∀ c ∈ pre, c.live = false → c.total < need) :
    firstFitOf (pre ++ b :: post) need = some b := by
  have hpre : pre.find? (fun b => !b.live && decide (need ≤ b.total)) = none := by
    rw [List.find?_eq_none]
    intro c hc
    cases hl : c.live with
    | true => simp
    | false =>
      have := hfirst c hc hl
      simp [Nat.not_le.2 this]
  rw [firstFitOf, List.find?_append, hpre]
  simp [hb, hfit]

/-- What first fit hands out for `need` bytes has its full capacity: it is split off, or was full
before. -/
def TakesFull (G : Geometry) (m : Mem) (need : Nat) : Prop :=
  ∀ b ∈ firstFitOf (blocks G m) need, 64 ≤ b.total - need ∨ b.Full

instance (G : Geometry) (m : Mem) (need : Nat) : Decidable (TakesFull G m need) := by
  unfold TakesFull
  infer_instance

/-- The block `b` can grow in place to `t` bytes. -/
def GrowsInPlace (G : Geometry) (m : Mem) (sz : Nat) (b : Blk) (t : Nat) : Prop :=
  b.stop < G.heapSize ∧ (blkAt G m b.stop).live = false ∧
    t ≤ b.total + (blkAt G m b.stop).total ∧ b.stop + 56 < sz - G.base

instance (G : Geometry) (m : Mem) (sz : Nat) (b : Blk) (t : Nat) :
    Decidable (GrowsInPlace G m sz b t) := by
  unfold GrowsInPlace
  infer_instance

/-- The block of the object in slot `i`. -/
def blkOfSlot (G : Geometry) (m : Mem) (i : Nat) : Blk := blkAt G m ((entryAt m i).off - 56)

/-- The call does not hand out a block whose capacity is stale. -/
def KeepsCapacity (G : Geometry) (m : Mem) : Call → Prop
  | .alloc (some _) q true true =>
    q.size ≠ 0 → (∃ j, j < G.dirCap ∧ ¬ (entryAt m j).Live) → TakesFull G m (blockSize q.size)
  | .resize (some r) objId n userId callerPerms =>
    ∀ i, Finds G m objId i → (entryAt m i).access userId callerPerms SHM_PERM_RESIZE = .ok →
      (blkOfSlot G m i).total < blockSize n →
      ¬ GrowsInPlace G m r.size (blkOfSlot G m i) (blockSize n) → TakesFull G m (blockSize n)
  | _ => True

/-! ## What the predicates on memory say about the blocks

A predicate on memory walks the free list as the code does; on a memory that represents a heap it is
a statement about the free blocks in order. -/

section

variable {b : Blk} {fl : List Nat}

theorem Rep.takesFull {need : Nat} (h : Rep G m (pre ++ b :: post) fl) (ht : TakesFull G m need)
    (hb : b.live = false) (hfit : need ≤ b.total)
    (hfirst : ∀ c ∈ pre, c.live = false → c.total < need) :
    64 ≤ b.total - need ∨ b.Full := by
  rw [TakesFull, h.blocks_eq, firstFitOf_eq hb hfit hfirst] at ht
  exact ht b rfl

/-- A block handed out for `need` bytes is full if it is split off or was full. -/
theorem taken_full {need : Nat} (hneed : 64 ≤ need) (hb : 64 ≤ b.total - need ∨ b.Full) :
    (taken b need).Full := by
  rw [Blk.Full, taken_total, taken, detached]
  split
  · rw [Blk.resized_cap, Blk.resized_total]
    omega
  · rename_i hsmall
    exact hb.resolve_left hsmall

theorem Holds.blkOfSlot {i : Nat} (hh : Holds G m i b) (h : Rep G m bs fl) (hb : b ∈ bs) :
    blkOfSlot G m i = b := by
  have hoff : (entryAt m i).off - 56 = b.off := by
    have := hh.mirrors.off
    omega
  rw [ShmAlloc.blkOfSlot, hoff]
  exact (h.blk b hb).fields

/-- Growing in place, as seen in memory. -/
theorem Rep.growsInPlace {sz t : Nat} (h : Rep G m (pre ++ b :: post) fl) :
    GrowsInPlace G m sz b t ↔ CanGrow G sz b t post := by
  have htiles := (tiles_mid.1 h.tiles).2
  cases post with
  | nil =>
    have hstop : b.stop = G.heapSize := htiles
    exact iff_of_false (fun hg => by
      have := hg.1
      omega) not_false
  | cons c cs =>
    obtain ⟨hc, hrest⟩ := tiles_cons.1 htiles
    have hle := hrest.le
    have hmin := (h.wf c (by simp)).min
    have hblk : blkAt G m b.stop = c := by
      rw [← hc]
      exact (h.blk c (by simp)).fields
    rw [GrowsInPlace, hblk, CanGrow]
    exact ⟨fun hg => hg.2, fun hg => ⟨by omega, hg⟩⟩

end

/-! ## Full blocks along a run -/

/-- Every live block is full. -/
def FullBlks (bs : List Blk) : Prop := ∀ b ∈ liveBlks bs, b.Full

theorem FullBlks.mid {b : Blk} (h : FullBlks (pre ++ b :: post)) (hb : b.live = true) :
    FullBlks pre ∧ b.Full ∧ FullBlks post := by
  rw [FullBlks, liveBlks_append, liveBlks_cons_live hb] at h
  exact ⟨fun c hc => h c (by simp [hc]), h b (by simp), fun c hc => h c (by simp [hc])⟩

/-- The other live blocks and one full block. -/
theorem fullBlks_mid {b : Blk} {post' : List Blk} (hpre : FullBlks pre) (hb : b.Full)
    (hpost : FullBlks post) (hlive : liveBlks post' = liveBlks post) (hl : b.live = true) :
    FullBlks (pre ++ b :: post') := by
  intro c hc
  rw [liveBlks_append, liveBlks_cons_live hl, hlive] at hc
  rcases List.mem_append.1 hc with hc | hc
  · exact hpre c hc
  · rcases List.mem_cons.1 hc with rfl | hc
    · exact hb
    · exact hpost c hc

theorem FullBlks.of_free {b : Blk} (h : FullBlks (pre ++ b :: post)) (hb : b.live = false) :
    FullBlks pre ∧ FullBlks post := by
  rw [FullBlks, liveBlks_append, liveBlks_cons_free hb] at h
  exact ⟨fun c hc => h c (by simp [hc]), fun c hc => h c (by simp [hc])⟩

/-- **A resize that takes no stale block keeps all blocks full.** -/
theorem ResizeRun.fullBlks {sz n i : Nat} {b : Blk} {rc : Rc} {W : List Event}
    (h : Inv G m (pre ++ b :: post)) (hl : b.live = true) (hn : n ≠ 0)
    (hfull : FullBlks (pre ++ b :: post))
    (hC : b.total < blockSize n → ¬ CanGrow G sz b (blockSize n) post → TakesFull G m (blockSize n))
    (hrun : ResizeRun G sz pre b post i n rc W bs') : FullBlks bs' := by
  have ht := blockSize_ge hn
  obtain ⟨hpre, hb, hpost⟩ := hfull.mid hl
  cases hrun with
  | keep hle hrem => exact hfull
  | cut hrem =>
    refine fullBlks_mid hpre ?_ hpost (liveBlks_absorbTail b _ post) hl
    rw [Blk.Full, Blk.resized_cap, Blk.resized_total]
    omega
  | grow c cs hp hlt hcan =>
    subst hp
    have hg := InPlace.grow h hl hcan.1 ht (blockSize_mod n) hcan.2.1
    refine fullBlks_mid hpre ?_ hpost hg.others hg.live
    have hmin := (h.heap.wf b (by simp)).min
    rw [grownBlk, swallowed]
    split <;> rw [Blk.Full, Blk.resized_cap, Blk.resized_total] <;> omega
  | noRoom hlt hcan hno => exact hfull
  | move pre₁ f post₁ pre₂ post₂ hlt hcan hr =>
    intro c hc
    rw [liveBlks_insertFree rfl] at hc
    have hmem : c ∈ liveBlks (pre₂ ++ b :: post₂) := by
      rw [liveBlks_append, liveBlks_cons_live hl]
      rcases List.mem_append.1 hc with hc | hc <;> simp [hc]
    rw [hr.live_moved, List.mem_append, List.mem_cons] at hmem
    have hf := FullBlks.of_free (hr.split ▸ hfull) hr.free
    rcases hmem with hmem | rfl | hmem
    · exact hf.1 c hmem
    · have hb := (hr.split ▸ h.heap.toRep).takesFull (hC hlt hcan) hr.free hr.fits hr.first
      exact (taken_full ht hb).congr rfl rfl
    · exact hf.2 c hmem

/-- **A call that takes no stale block keeps all blocks full.** -/
theorem CallRun.fullBlks {c : Call} {rc : Rc} {W : List Event} (h : Inv G m bs)
    (hfull : FullBlks bs) (hC : KeepsCapacity G m c) (hrun : CallRun G m bs c rc W bs') :
    FullBlks bs' := by
  cases hrun with
  | refused hrc hW => exact hfull
  | alloc ht =>
    obtain ⟨hpre, hpost⟩ := hfull.of_free ht.free
    have htake := hC ht.size_pos ⟨_, ht.slot_lt, ht.slot_free⟩
    refine fullBlks_mid hpre ?_ hpost (by rw [liveBlks_append, liveBlks_remnant]; rfl) rfl
    have hb := h.heap.toRep.takesFull htake ht.free ht.fits ht.first
    exact (taken_full (blockSize_ge ht.size_pos) hb).congr rfl rfl
  | free hf hh hacc =>
    obtain ⟨hpre, -, hpost⟩ := hfull.mid hh.live
    intro c hc
    rw [liveBlks_insertFree rfl] at hc
    exact (List.mem_append.1 hc).elim (hpre c) (hpost c)
  | resize hf hh hacc hn hn' hrun =>
    refine hrun.fullBlks h hh.live hn hfull fun hlt hcan => ?_
    have hb := hh.blkOfSlot h.heap.toRep (by simp)
    refine hC _ hf hacc (by rwa [hb]) ?_
    rwa [hb, h.heap.toRep.growsInPlace]
  | setPerms hh hf hacc =>
    obtain ⟨hpre, hb, hpost⟩ := hfull.mid hh.live
    exact fullBlks_mid hpre (hb.congr rfl rfl) hpost rfl hh.live

/-- **Along a run whose calls take no stale block, all blocks are full.** -/
theorem Reach.fullBlks (h : Reach G (KeepsCapacity G) m) : ∃ bs, Inv G m bs ∧ FullBlks bs := by
  induction h with
  | init m backend nsInode cgroupHash name =>
    rw [(exec_regionInit G m backend nsInode cgroupHash name).mem]
    refine ⟨_, (fullInv_init m).toInv, fun b hb => ?_⟩
    have := (mem_liveBlks.1 hb).2
    obtain rfl := List.mem_singleton.1 (mem_liveBlks.1 hb).1
    exact Bool.noConfusion this
  | step _ hs ih =>
    obtain ⟨bs, h, hfull⟩ := ih
    cases hs with
    | call c hl hC =>
      obtain ⟨rc, W, bs', hrun, hx⟩ := callRun h hl
      rw [hx.mem]
      exact ⟨bs', hrun.inv h, hrun.fullBlks h hfull hC⟩
    | write i k v hi ha hk => exact ⟨bs, h.write hi ha hk v.toNat, hfull⟩

/-! ## Capacity covers the request -/

/-- The capacity in slot `i` covers what is used, is the one in the header of the block, and is what
`total_size` leaves behind the header. -/
structure CoversUse (G : Geometry) (m : Mem) (i : Nat) : Prop where
  used_le : (entryAt m i).used ≤ (entryAt m i).cap
  cap_eq : (entryAt m i).cap = (blkOfSlot G m i).cap
  full : (blkOfSlot G m i).cap + 56 = (blkOfSlot G m i).total

theorem FullBlks.coversUse (hfull : FullBlks bs) (h : Inv G m bs) {i : Nat} (hi : i < G.dirCap)
    (ha : (entryAt m i).alive = true) : CoversUse G m i := by
  obtain ⟨pre, b, post, rfl, hh⟩ := h.holds hi ha
  have hb : b.Full := (hfull.mid hh.live).2.1
  have hblk := hh.blkOfSlot h.heap.toRep (by simp)
  have hused := hh.mirrors.used
  rw [Blk.Full] at hb
  refine ⟨?_, ?_, ?_⟩
  · rw [hh.mirrors.cap]
    omega
  · rw [hblk, hh.mirrors.cap]
  · rw [hblk, hb]

/-- **Capacity covers the request**, as long as no call hands out a stale block: the capacity of
every object covers its used size, and is the same in its entry, its header and in the difference
of the sizes.  So a successful `shm_alloc` or `shm_resize` leaves an object with the capacity asked
for. -/
theorem capacity_covers (h : Reach G (KeepsCapacity G) m) :
    (∀ i, i < G.dirCap → (entryAt m i).alive = true → CoversUse G m i) ∧
      ∀ c, Legal G m c → KeepsCapacity G m c → c.prog.val m = .ok →
        (∀ r q outId outOff, c = .alloc r q outId outOff → ∃ i, i < G.dirCap ∧
          (c.answer m).newId = some (entryAt (c.prog.mem m) i).id ∧
          (entryAt (c.prog.mem m) i).alive = true ∧
          q.size ≤ (entryAt (c.prog.mem m) i).cap) ∧
        ∀ r objId n userId callerPerms, c = .resize r objId n userId callerPerms →
          ∃ i, Finds G m objId i ∧ (entryAt (c.prog.mem m) i).alive = true ∧
            n ≤ (entryAt (c.prog.mem m) i).cap := by
  have hcover : ∀ {m : Mem}, Reach G (KeepsCapacity G) m → ∀ i, i < G.dirCap →
      (entryAt m i).alive = true → CoversUse G m i := fun h i hi ha => by
    obtain ⟨bs, hI, hfull⟩ := h.fullBlks
    exact hfull.coversUse hI hi ha
  refine ⟨hcover h, fun c hl hC hok => ?_⟩
  have h' : Reach G (KeepsCapacity G) (c.prog.mem m) := h.step (.call c hl hC)
  obtain ⟨bs, hI⟩ := h.inv
  obtain ⟨rc, W, bs', hrun, hx⟩ := callRun hI hl
  obtain rfl : rc = .ok := hx.val.symm.trans hok
  refine ⟨?_, ?_⟩
  · rintro r q outId outOff rfl
    obtain ⟨i, o, cap, hi, he, hid, -⟩ := hrun.alloc_entry hI
    rw [← hx.mem] at he
    have hcov := hcover h' i hi (by rw [he]; rfl)
    refine ⟨i, hi, ?_, by rw [he]; rfl, ?_⟩
    · rw [← hx.eff, lastOut_effects] at hid
      rw [he, Answer.newId, show (Call.answer _ m).rc = .ok from hok]
      exact hid
    · have := hcov.used_le
      rw [he] at this ⊢
      exact this
  · rintro r objId n userId callerPerms rfl
    obtain ⟨i, off, cap, hf, he⟩ := hrun.resize_entry hI
    rw [← hx.mem] at he
    have ha : (entryAt ((Call.resize r objId n userId callerPerms).prog.mem m) i).alive = true := by
      rw [he]
      exact hf.alive
    refine ⟨i, hf, ha, ?_⟩
    have := (hcover h' i hf.lt ha).used_le
    rw [he] at this ⊢
    exact this

/-- A first object of eight bytes is split off a full block. -/
theorem page_keepsCapacity : Reach pageGeometry (KeepsCapacity pageGeometry)
    (firstMem pageGeometry pageHandle eightBytes) :=
  (reach_fresh ..).alloc rfl (by decide) (by decide) fun _ _ => by decide +kernel

/-- So its capacity is eight bytes. -/
theorem capacity_covers_page :
    CoversUse pageGeometry (firstMem pageGeometry pageHandle eightBytes) 0 :=
  (capacity_covers page_keepsCapacity).1 0 (by decide) page_alive

/-! ## A stale block -/

/-- User 7 asks for an object of `n` bytes. -/
def asks (n : Nat) : Call := .alloc (some pageHandle) ⟨n, none, 7, 0xF, 0⟩ true true

/-- User 7 frees an object. -/
def frees (objId : Nat) : Call := .free (some pageHandle) objId 7 0xF

/-- The page when its first object has been freed: one free block, which has the capacity of the
eight bytes it once was. -/
def mergedPage : Mem := (frees 1).prog.mem ((asks 8).prog.mem (freshMem pageGeometry))

theorem reach_merged : Reach pageGeometry AnyCall mergedPage :=
  ((reach_fresh ..).alloc rfl (by decide) (by decide) trivial).free rfl (by decide) trivial

/-- **Handing that block out whole** leaves an object with a capacity of 8 for its 3648 bytes. -/
theorem capacity_covers_fails : Reach pageGeometry AnyCall ((asks 3648).prog.mem mergedPage) ∧
    (asks 3648).prog.val mergedPage = .ok ∧
    (entryAt ((asks 3648).prog.mem mergedPage) 0).alive = true ∧
    (entryAt ((asks 3648).prog.mem mergedPage) 0).used = 3648 ∧
    (entryAt ((asks 3648).prog.mem mergedPage) 0).cap = 8 := by
  refine ⟨reach_merged.alloc rfl (by decide) (by decide) trivial, ?_⟩
  decide +kernel

end ShmAlloc
