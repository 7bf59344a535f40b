import Mathlib.Algebra.Order.BigOperators.Group.List
import Mathlib.Algebra.Order.Group.Nat
import ShmAlloc.Heap.Resize
import ShmAlloc.Region.Entry

/-!
# The region invariant

`Inv` holds in every state a region reaches, whatever happens to `next_id`: the heap is in order,
the counters are exact, and every directory entry in use mirrors a live block of its own.  `IdsOk`
adds what depends on ids being unique, that is on `next_id` never having wrapped: ids are distinct,
the permissions are mirrored too, and no live block lacks an entry.

## What is here

* `Mirrors`, `DirOk` and `IdsOk`: what ties the directory to the heap.
* `DirOk.update` and `IdsOk.update`: **one slot changes.**  Both speak of the directory as a
  function from slots to entries, and of the heap as a list of blocks, so that what an operation
  does to them can be checked without the memory.
* `Inv` and `FullInv`: the invariant, without and with ids.
* `liveBytes`: the bytes held by live blocks, which is what `used_bytes` has to be.  Its bounds are
  what keeps the counters from wrapping (`liveBytes_add_le`, `count_lt`).

That permissions are among what depends on ids is no accident: `shm_block_set_perms` finds the entry
by the id in the block's header.
-/

set_option autoImplicit false

namespace ShmAlloc

open Tiling Links

variable {G : Geometry} {m m' : Mem} {bs bs' pre post : List Blk}

/-! ## Entries and blocks

Offsets identify blocks, so an entry mirrors at most one, and that two entries mirror different ones
is that their offsets differ. -/

/-- The entry describes the block, its permissions aside. -/
structure Mirrors (e : Entry) (b : Blk) : Prop where
  /-- `slot.off` is the offset of the payload. -/
  off : e.off = b.off + 56
  id : e.id = b.id
  owner : e.owner = b.owner
  tag : e.tag = b.tag
  cap : e.cap = b.cap
  /-- What the user may write fits in the block. -/
  used : e.used + 56 ≤ b.total

/-- The entries in use mirror live blocks, each one of its own. -/
structure DirOk (n : Nat) (ent : Nat → Entry) (bs : List Blk) : Prop where
  entry : ∀ i, i < n → (ent i).alive = true → ∃ b ∈ bs, b.live = true ∧ Mirrors (ent i) b
  inj : ∀ i j, i < n → j < n → (ent i).alive = true → (ent j).alive = true →
    (ent i).off = (ent j).off → i = j

/-- What holds as long as `next_id`, here `next`, has not wrapped. -/
structure IdsOk (n : Nat) (ent : Nat → Entry) (next : Nat) (bs : List Blk) : Prop where
  next_pos : 0 < next
  id_pos : ∀ i, i < n → (ent i).alive = true → 0 < (ent i).id
  id_lt : ∀ i, i < n → (ent i).alive = true → (ent i).id < next
  distinct : ∀ i j, i < n → j < n → (ent i).alive = true → (ent j).alive = true →
    (ent i).id = (ent j).id → i = j
  /-- Every live block has an entry, with the same permissions. -/
  onto : ∀ b ∈ bs, b.live = true → ∃ i, i < n ∧ (ent i).alive = true ∧ (ent i).off = b.off + 56 ∧
    (ent i).perms = b.perms

section Update

variable {n i next next' : Nat} {ent ent' : Nat → Entry}

/-- **One slot changes.**  The blocks of the other slots are still there, and what slot `i` now
holds, if it is in use, mirrors a live block no other slot has. -/
theorem DirOk.update (h : DirOk n ent bs) (hother : ∀ j, j < n → j ≠ i → ent' j = ent j)
    (hkeep : ∀ j b, j < n → j ≠ i → (ent j).alive = true → b ∈ bs → b.live = true →
      Mirrors (ent j) b → b ∈ bs')
    (hnew : (ent' i).alive = true → (∃ b ∈ bs', b.live = true ∧ Mirrors (ent' i) b) ∧
      ∀ j, j < n → j ≠ i → (ent j).alive = true → (ent j).off ≠ (ent' i).off) :
    DirOk n ent' bs' := by
  refine ⟨fun j hj ha => ?_, fun j k hj hk ha hb hoff => ?_⟩
  · by_cases hji : j = i
    · subst hji
      exact (hnew ha).1
    · rw [hother j hj hji] at ha ⊢
      obtain ⟨b, hb, hl, hm⟩ := h.entry j hj ha
      exact ⟨b, hkeep j b hj hji ha hb hl hm, hl, hm⟩
  · by_cases hji : j = i
    · by_cases hki : k = i
      · rw [hji, hki]
      · subst hji
        rw [hother k hk hki] at hb hoff
        exact absurd hoff.symm ((hnew ha).2 k hk hki hb)
    · by_cases hki : k = i
      · subst hki
        rw [hother j hj hji] at ha hoff
        exact absurd hoff ((hnew hb).2 j hj hji ha)
      · rw [hother j hj hji] at ha hoff
        rw [hother k hk hki] at hb hoff
        exact h.inj j k hj hk ha hb hoff

/-- **One slot changes**, ids: what slot `i` now holds has an id of its own, and every live block
either belongs to it or was there before and does not belong to what slot `i` held. -/
theorem IdsOk.update (h : IdsOk n ent next bs) (hi : i < n)
    (hother : ∀ j, j < n → j ≠ i → ent' j = ent j) (hnext : next ≤ next')
    (hnew : (ent' i).alive = true → 0 < (ent' i).id ∧ (ent' i).id < next' ∧
      ∀ j, j < n → j ≠ i → (ent j).alive = true → (ent j).id ≠ (ent' i).id)
    (honto : ∀ b ∈ bs', b.live = true →
      (ent' i).alive = true ∧ (ent' i).off = b.off + 56 ∧ (ent' i).perms = b.perms ∨
      ∃ c ∈ bs, c.live = true ∧ c.off = b.off ∧ c.perms = b.perms ∧
        ((ent i).alive = true → (ent i).off ≠ c.off + 56)) :
    IdsOk n ent' next' bs' := by
  refine ⟨Nat.lt_of_lt_of_le h.next_pos hnext, fun j hj ha => ?_, fun j hj ha => ?_,
    fun j k hj hk ha hb hid => ?_, fun b hb hl => ?_⟩
  · by_cases hji : j = i
    · subst hji
      exact (hnew ha).1
    · rw [hother j hj hji] at ha ⊢
      exact h.id_pos j hj ha
  · by_cases hji : j = i
    · subst hji
      exact (hnew ha).2.1
    · rw [hother j hj hji] at ha ⊢
      exact Nat.lt_of_lt_of_le (h.id_lt j hj ha) hnext
  · by_cases hji : j = i
    · by_cases hki : k = i
      · rw [hji, hki]
      · subst hji
        rw [hother k hk hki] at hb hid
        exact absurd hid.symm ((hnew ha).2.2 k hk hki hb)
    · by_cases hki : k = i
      · subst hki
        rw [hother j hj hji] at ha hid
        exact absurd hid ((hnew hb).2.2 j hj hji ha)
      · rw [hother j hj hji] at ha hid
        rw [hother k hk hki] at hb hid
        exact h.distinct j k hj hk ha hb hid
  · rcases honto b hb hl with h' | ⟨c, hc, hcl, hco, hcp, hci⟩
    · exact ⟨i, hi, h'⟩
    · obtain ⟨j, hj, ha, hoff, hperms⟩ := h.onto c hc hcl
      have hji : j ≠ i := by
        rintro rfl
        exact hci ha hoff
      exact ⟨j, hj, by rw [hother j hj hji]; exact ⟨ha, hoff.trans (by rw [hco]), hperms.trans hcp⟩⟩

end Update

/-! ## The invariant -/

/-- `next_id`. -/
def nextIdOf (m : Mem) : Nat := m.load 112 8

/-- The bytes held by live blocks. -/
def liveBytes (bs : List Blk) : Nat := ((liveBlks bs).map Blk.total).sum

/-- **The region invariant.** -/
structure Inv (G : Geometry) (m : Mem) (bs : List Blk) : Prop where
  /-- The region header describes the geometry. -/
  layout : LayoutOk G m
  /-- The heap is represented, and its free list is in order. -/
  heap : HeapInv G m bs
  /-- `used_bytes` is exact. -/
  used : m.load 96 8 = liveBytes bs
  /-- `block_count` is exact. -/
  count : m.load 104 8 = (liveBlks bs).length
  /-- The directory mirrors live blocks. -/
  dir : DirOk G.dirCap (entryAt m) bs

/-- The region invariant, and ids in order. -/
structure FullInv (G : Geometry) (m : Mem) (bs : List Blk) : Prop extends Inv G m bs where
  ids : IdsOk G.dirCap (entryAt m) (nextIdOf m) bs

theorem nextIdOf_lt (m : Mem) : nextIdOf m < 2 ^ 64 := Mem.load_lt m 112 8

theorem liveBytes_le_sum (bs : List Blk) : liveBytes bs ≤ (bs.map Blk.total).sum :=
  ((List.filter_sublist (p := fun b : Blk => b.live) (l := bs)).map Blk.total).sum_le_sum
    fun _ _ => Nat.zero_le _

/-- A live block is counted in `used_bytes`. -/
theorem total_le_liveBytes {b : Blk} (hb : b ∈ bs) (hl : b.live = true) :
    b.total ≤ liveBytes bs :=
  List.single_le_sum (fun _ _ => Nat.zero_le _) _
    (List.mem_map_of_mem (mem_liveBlks.2 ⟨hb, hl⟩))

/-- A live block is counted in `block_count`. -/
theorem one_le_count {b : Blk} (hb : b ∈ bs) (hl : b.live = true) : 1 ≤ (liveBlks bs).length :=
  List.length_pos_of_mem (mem_liveBlks.2 ⟨hb, hl⟩)

/-- The block at an offset is determined by it. -/
theorem Rep.eq_of_off {fl : List Nat} (h : Rep G m bs fl) {b c : Blk} (hb : b ∈ bs) (hc : c ∈ bs)
    (hbc : b.off = c.off) : b = c := by
  refine h.tiles.eq_of_lo_eq (fun d hd => ?_) hb hc hbc
  have := (h.wf d hd).min
  omega

namespace Rep

variable {fl : List Nat}

/-- Live blocks take up no more than the heap. -/
theorem liveBytes_le (h : Rep G m bs fl) : liveBytes bs ≤ G.heapSize := by
  have h1 := h.tiles.sum_len
  have h2 := liveBytes_le_sum bs
  omega

theorem liveBytes_lt (h : Rep G m bs fl) : liveBytes bs < 2 ^ 64 := by
  have h1 := h.liveBytes_le
  have h2 := G.size_lt
  have h3 := G.size_eq
  omega

/-- There is room for a free block beside the live ones. -/
theorem liveBytes_add_le (h : Rep G m bs fl) {c : Blk} (hc : c ∈ bs) (hl : c.live = false) :
    liveBytes bs + c.total ≤ G.heapSize := by
  obtain ⟨pre, post, rfl⟩ := List.append_of_mem hc
  have h1 := h.tiles.sum_len
  have h2 : liveBytes (pre ++ c :: post) ≤ ((pre ++ post).map Blk.total).sum := by
    rw [liveBytes, liveBlks_append, liveBlks_cons_free hl, ← liveBlks_append]
    exact liveBytes_le_sum _
  simp only [List.map_append, List.map_cons, List.sum_append, List.sum_cons] at h1 h2
  omega

theorem count_lt (h : Rep G m bs fl) : (liveBlks bs).length + 1 < 2 ^ 64 := by
  have h1 := h.tiles.length_le fun c hc => (h.wf c hc).min
  have h2 : (liveBlks bs).length ≤ bs.length := List.length_filter_le _ _
  have h3 := G.size_lt
  have h4 := G.size_eq
  omega

theorem room (h : Rep G m bs fl) : ∀ c ∈ bs, c.live = false → liveBytes bs + c.total < 2 ^ 64 :=
  fun c hc hl => by
    have h1 := h.liveBytes_add_le hc hl
    have h2 := G.size_lt
    have h3 := G.size_eq
    omega

end Rep

namespace Inv

/-- The block an entry in use mirrors, and where it stands in the heap. -/
theorem block (h : Inv G m bs) {i : Nat} (hi : i < G.dirCap) (ha : (entryAt m i).alive = true) :
    ∃ pre b post, bs = pre ++ b :: post ∧ b.live = true ∧ Mirrors (entryAt m i) b := by
  obtain ⟨b, hb, hl, hm⟩ := h.dir.entry i hi ha
  obtain ⟨pre, post, rfl⟩ := List.append_of_mem hb
  exact ⟨pre, b, post, rfl, hl, hm⟩

end Inv

end ShmAlloc
