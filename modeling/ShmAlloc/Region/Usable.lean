import ShmAlloc.Region.Run

/-!
# Usable regions

What a caller needs of a region it finds: the headers tile the heap, the free list ends and meets
exactly the free blocks, and the allocated ones are those of the entries in use.  `Usable` says so
of a memory alone, without counters, capacities and payloads, so that it can be asked of a memory
in which a call has been stopped.

## What is here

* `Sound` and `Usable`: what is asked.  `Sound.disjoint` is what it is good for: objects do not
  overlap.
* `ShapeByte`: the bytes that decide whether a region is usable.
* `Listed.usable_of_writes` and `Listed.usable_before`: **stores elsewhere do not matter**, whether
  they have been made or are still to be made.
* `Usable.tagged`, `Usable.fits`, `Usable.mem_list` and `Usable.entry`: what is true of a usable
  region, of an entry or of a block that is reached by walking through the headers (`WalksTo`).
* `Rep.not_usable`: a free block that is not on the list is lost.

So one direction is a transfer: a memory that agrees with a represented one in the bytes of
`ShapeByte` is usable.  For the other, a region that is not usable is recognised by a block that is
reached by a walk and is in the wrong place.
-/

set_option autoImplicit false

namespace ShmAlloc

open Tiling Links

variable {G : Geometry} {m m' : Mem} {bs pre post : List Blk} {fl : List Nat} {b c : Blk}
  {i o : Nat}

/-! ## What the next caller finds -/

/-- `total_size` in the header at heap offset `o`. -/
def totalAt (G : Geometry) (m : Mem) (o : Nat) : Nat := m.load (G.base + o + 40) 8

/-- The tag bit in the header at heap offset `o`. -/
def taggedAt (G : Geometry) (m : Mem) (o : Nat) : Bool := m.load (G.base + o + 16) 1 != 0

/-- Slot `i` is in use and points at the block at `o`. -/
structure PointsAt (G : Geometry) (m : Mem) (i o : Nat) : Prop where
  lt : i < G.dirCap
  alive : (entryAt m i).alive = true
  off : (entryAt m i).off = o + 56

theorem PointsAt.congr (he : entryAt m' i = entryAt m i) (h : PointsAt G m i o) :
    PointsAt G m' i o := by
  refine ⟨h.lt, ?_, ?_⟩
  · rw [he]
    exact h.alive
  · rw [he]
    exact h.off

/-- The headers at the offsets `os`, the free list `fl` and the directory fit together. -/
structure Sound (G : Geometry) (m : Mem) (os fl : List Nat) : Prop where
  /-- Following `total_size` from offset 0 meets the headers at `os`, up to the end of the heap. -/
  tiles : Tiled id (totalAt G m) 0 os G.heapSize
  min : ∀ o ∈ os, 64 ≤ totalAt G m o
  /-- Following links from `free_list` meets the nodes `fl`, and ends. -/
  links : Linked (nextAt G m) (m.load 88 8) fl
  nodup : fl.Nodup
  /-- The blocks on the list are exactly those whose tag bit is not set. -/
  listed : ∀ o, o ∈ fl ↔ o ∈ os ∧ taggedAt G m o = false
  /-- Every allocated block belongs to exactly one entry. -/
  owner : ∀ o ∈ os, taggedAt G m o = true →
    ∃ i, PointsAt G m i o ∧ ∀ j, PointsAt G m j o → j = i
  /-- The bytes of every object are those of an allocated block. -/
  block : ∀ i, i < G.dirCap → (entryAt m i).alive = true → ∃ o ∈ os, taggedAt G m o = true ∧
    (entryAt m i).off = o + 56 ∧ (entryAt m i).used + 56 ≤ totalAt G m o

/-- **The region is usable**: the blocks tile the heap, every walk of the free list ends and meets
exactly the free ones, once each, and the allocated ones are those of the entries in use. -/
def Usable (G : Geometry) (m : Mem) : Prop := ∃ os fl, Sound G m os fl

/-- Blocks do not overlap, whether they are free or allocated. -/
theorem Sound.disjoint {os : List Nat} {o' : Nat} (h : Sound G m os fl) (ho : o ∈ os)
    (ho' : o' ∈ os) (hne : o ≠ o') : o + totalAt G m o ≤ o' ∨ o' + totalAt G m o' ≤ o :=
  (h.tiles.eq_or_disjoint ho ho').resolve_left hne

/-! ## Usable regions

`Owned` is the part of the invariant that concerns entries, in the words of `Sound`; the counters
and capacities of the invariant are dropped here. -/

/-- The entries in use and the live blocks belong together. -/
structure Owned (G : Geometry) (m : Mem) (bs : List Blk) : Prop where
  owner : ∀ b ∈ bs, b.live = true → ∃ i, PointsAt G m i b.off ∧ ∀ j, PointsAt G m j b.off → j = i
  block : ∀ i, i < G.dirCap → (entryAt m i).alive = true → ∃ b ∈ bs, b.live = true ∧
    (entryAt m i).off = b.off + 56 ∧ (entryAt m i).used + 56 ≤ b.total

theorem Inv.owned (h : Inv G m bs)
    (honto : ∀ b ∈ bs, b.live = true → ∃ i, PointsAt G m i b.off) : Owned G m bs := by
  refine ⟨fun b hb hl => ?_, fun i hi ha => ?_⟩
  · obtain ⟨i, hp⟩ := honto b hb hl
    exact ⟨i, hp, fun j hj =>
      h.dir.inj j i hj.lt hp.lt hj.alive hp.alive (hj.off.trans hp.off.symm)⟩
  · obtain ⟨b, hb, hl, hm⟩ := h.dir.entry i hi ha
    exact ⟨b, hb, hl, hm.off, hm.used⟩

theorem FullInv.owned (h : FullInv G m bs) : Owned G m bs :=
  h.toInv.owned fun b hb hl => by
    obtain ⟨i, hi, ha, hoff, -⟩ := h.ids.onto b hb hl
    exact ⟨i, hi, ha, hoff⟩

/-- The bytes that decide whether a region with the blocks `bs` is usable. -/
def ShapeByte (G : Geometry) (bs : List Blk) (x : Nat) : Prop :=
  88 ≤ x ∧ x < 96 ∨
    (∃ b ∈ bs, x = G.base + b.off + 16 ∨ G.base + b.off + 40 ≤ x ∧ x < G.base + b.off + 56) ∨
    ∃ i, i < G.dirCap ∧ (slotAddr i + 56 ≤ x ∧ x < slotAddr i + 64 ∨
      slotAddr i + 72 ≤ x ∧ x < slotAddr i + 80 ∨ x = slotAddr i + 92)

theorem ShapeByte.cases {x : Nat} (h : ShapeByte G bs x) :
    88 ≤ x ∧ x < 96 ∨ (∃ b ∈ bs, InHdr G b x) ∨ ∃ i, i < G.dirCap ∧ InSlot i x := by
  rcases h with h | ⟨b, hb, h⟩ | ⟨i, hi, h⟩
  · exact .inl h
  · exact .inr (.inl ⟨b, hb, by omega, by omega⟩)
  · exact .inr (.inr ⟨i, hi, by omega, by omega⟩)

/-- The counters do not matter. -/
theorem not_shapeByte_of_header {x : Nat} (h1 : 96 ≤ x) (h2 : x < 200) : ¬ ShapeByte G bs x := by
  have hD := G.base_ge
  intro hx
  rcases hx.cases with hx | ⟨b, -, hx⟩ | ⟨i, -, hx⟩
  · omega
  · have := hx.1
    omega
  · have := hx.1
    have := slotAddr_ge i
    omega

/-- Nor do the payloads. -/
theorem Rep.not_shapeByte_of_payload (h : Rep G m bs fl) (hb : b ∈ bs) {x : Nat}
    (h1 : G.base + b.off + 56 ≤ x) (h2 : x < G.base + b.off + b.total) : ¬ ShapeByte G bs x := by
  have hD := G.base_ge
  intro hx
  rcases hx.cases with hx | ⟨c, hc, hx⟩ | ⟨i, hi, hx⟩
  · omega
  · exact h.not_inHdr_of_payload hb hc h1 h2 hx
  · have := hx.lt_base hi
    omega

/-- Of a header, only the tag bit, the size and the link matter. -/
theorem Rep.not_shapeByte_of_hdr (h : Rep G m bs fl) (hb : b ∈ bs) {x : Nat}
    (h1 : G.base + b.off ≤ x) (h2 : x < G.base + b.off + 40) (h3 : x ≠ G.base + b.off + 16) :
    ¬ ShapeByte G bs x := by
  have hD := G.base_ge
  have hbb := h.bounds hb
  rintro (hx | ⟨c, hc, hx⟩ | ⟨i, hi, hx⟩)
  · omega
  · obtain rfl := h.eq_of_inBlk hb hc ⟨h1, by omega⟩
      (h.inBlk_of_inHdr hc ⟨by omega, by omega⟩)
    omega
  · have := G.slotAddr_lt hi
    omega

theorem BlkAt.totalAt (h : BlkAt G m b) : totalAt G m b.off = b.total := h.total

theorem BlkAt.taggedAt (h : BlkAt G m b) : taggedAt G m b.off = b.live := h.live

/-- The fields of an entry that count. -/
theorem entry_fields_congr (hag : ∀ x, slotAddr i + 56 ≤ x ∧ x < slotAddr i + 64 ∨
      slotAddr i + 72 ≤ x ∧ x < slotAddr i + 80 ∨ x = slotAddr i + 92 → m' x = m x) :
    (entryAt m' i).off = (entryAt m i).off ∧ (entryAt m' i).used = (entryAt m i).used ∧
      (entryAt m' i).alive = (entryAt m i).alive :=
  ⟨Mem.load_congr fun j hj => hag _ (by omega), Mem.load_congr fun j hj => hag _ (by omega),
    congrArg (· != 0) (Mem.load_congr fun j hj => hag _ (by omega))⟩

/-- They do not change with the rest of the slot. -/
theorem entry_fields_replay (W : List Event) (hW : ∀ x, Writes W x →
      ¬ (slotAddr i + 56 ≤ x ∧ x < slotAddr i + 64 ∨ slotAddr i + 72 ≤ x ∧ x < slotAddr i + 80 ∨
        x = slotAddr i + 92)) (m : Mem) :
    (entryAt (replay W m) i).off = (entryAt m i).off ∧
      (entryAt (replay W m) i).used = (entryAt m i).used ∧
        (entryAt (replay W m) i).alive = (entryAt m i).alive :=
  entry_fields_congr fun x hx => replay_of_not_writes (fun hw => hW x hw hx) m

theorem entry_congr_of_shape (hi : i < G.dirCap) (hag : ∀ x, ShapeByte G bs x → m' x = m x) :
    (entryAt m' i).off = (entryAt m i).off ∧ (entryAt m' i).used = (entryAt m i).used ∧
      (entryAt m' i).alive = (entryAt m i).alive :=
  entry_fields_congr fun x hx => hag x (.inr (.inr ⟨i, hi, hx⟩))

/-- **A region is usable** if its shape is that of a heap whose list and directory are in order. -/
theorem Listed.usable (h : Listed G m bs) (ho : Owned G m bs)
    (hag : ∀ x, ShapeByte G bs x → m' x = m x) : Usable G m' := by
  have hhead : m'.load 88 8 = m.load 88 8 :=
    Mem.load_congr fun j hj => hag _ (.inl ⟨by omega, by omega⟩)
  have htotal : ∀ b ∈ bs, totalAt G m' b.off = b.total := fun b hb =>
    (Mem.load_congr fun j hj => hag _ (.inr (.inl ⟨b, hb, .inr ⟨by omega, by omega⟩⟩))).trans
      (h.blk b hb).total
  have htag : ∀ b ∈ bs, taggedAt G m' b.off = b.live := fun b hb => by
    refine Eq.trans (congrArg (· != 0) (Mem.load_congr fun j hj => hag _ ?_)) (h.blk b hb).live
    exact .inr (.inl ⟨b, hb, .inl (by omega)⟩)
  have hpoints : ∀ i o, PointsAt G m' i o ↔ PointsAt G m i o := fun i o =>
    ⟨fun hp => by
      obtain ⟨h1, -, h3⟩ := entry_congr_of_shape hp.lt hag
      exact ⟨hp.lt, h3.symm.trans hp.alive, h1.symm.trans hp.off⟩,
    fun hp => by
      obtain ⟨h1, -, h3⟩ := entry_congr_of_shape hp.lt hag
      exact ⟨hp.lt, h3.trans hp.alive, h1.trans hp.off⟩⟩
  refine ⟨bs.map Blk.off, freeOffs bs, ?_, ?_, ?_, h.freeOffs_nodup, fun o => ?_, ?_,
    fun i hi ha => ?_⟩
  · exact (tiled_map Blk.off).2 (h.tiles.congr htotal)
  · simp only [List.mem_map, forall_exists_index, and_imp, forall_apply_eq_imp_iff₂]
    intro b hb
    rw [htotal b hb]
    exact (h.wf b hb).min
  · rw [Linked, hhead]
    refine h.links.congr fun o ho => ?_
    obtain ⟨b, hb, rfl⟩ := h.nodes o ho
    exact nextAt_congr fun x h1 h2 => hag x (.inr (.inl ⟨b, hb, .inr ⟨by omega, h2⟩⟩))
  · rw [mem_freeOffs, List.mem_map]
    constructor
    · rintro ⟨b, hb, hl, rfl⟩
      exact ⟨⟨b, hb, rfl⟩, (htag b hb).trans hl⟩
    · rintro ⟨⟨b, hb, rfl⟩, hl⟩
      exact ⟨b, hb, (htag b hb).symm.trans hl, rfl⟩
  · simp only [List.mem_map, forall_exists_index, and_imp, forall_apply_eq_imp_iff₂]
    intro b hb hl
    simp only [hpoints]
    exact ho.owner b hb ((htag b hb).symm.trans hl)
  · obtain ⟨h1, h2, h3⟩ := entry_congr_of_shape hi hag
    obtain ⟨b, hb, hl, hoff, hused⟩ := ho.block i hi (h3.symm.trans ha)
    refine ⟨b.off, List.mem_map_of_mem hb, (htag b hb).trans hl, h1.trans hoff, ?_⟩
    rw [h2, htotal b hb]
    exact hused

/-- Writes to other bytes leave a region usable. -/
theorem Listed.usable_of_writes {W : List Event} (h : Listed G m bs) (ho : Owned G m bs)
    (hW : ∀ x, Writes W x → ¬ ShapeByte G bs x) : Usable G (replay W m) :=
  h.usable ho fun x hx => replay_of_not_writes (fun hw => hW x hw hx) m

/-- A region is usable if it becomes so by writes to other bytes. -/
theorem Listed.usable_before {W : List Event} (h : Listed G (replay W m) bs)
    (ho : Owned G (replay W m) bs) (hW : ∀ x, Writes W x → ¬ ShapeByte G bs x) : Usable G m :=
  h.usable ho fun x hx => (replay_of_not_writes (fun hw => hW x hw hx) m).symm

theorem Owned.congr (ho : Owned G m bs)
    (he : ∀ i, i < G.dirCap → entryAt m' i = entryAt m i) : Owned G m' bs := by
  have hpoints : ∀ i o, PointsAt G m' i o ↔ PointsAt G m i o := fun i o =>
    ⟨fun hp => hp.congr (he i hp.lt).symm, fun hp => hp.congr (he i hp.lt)⟩
  refine ⟨fun b hb hl => ?_, fun i hi ha => ?_⟩
  · simp only [hpoints]
    exact ho.owner b hb hl
  · rw [he i hi] at ha ⊢
    exact ho.block i hi ha

/-- **One live block changes its size**, and what follows it its free blocks.  The entry of the
block still fits. -/
theorem Owned.resize {b' : Blk} {post' : List Blk} (ho : Owned G m (pre ++ b :: post))
    (hoff : b'.off = b.off) (hl : b'.live = b.live) (hpost : liveBlks post' = liveBlks post)
    (hfit : ∀ i, PointsAt G m i b.off → (entryAt m i).used + 56 ≤ b'.total) :
    Owned G m (pre ++ b' :: post') := by
  have hmem : ∀ c, c ∈ post' → c.live = true → c ∈ post := fun c hc hcl =>
    (mem_liveBlks.1 (hpost ▸ mem_liveBlks.2 ⟨hc, hcl⟩)).1
  have hmem' : ∀ c, c ∈ post → c.live = true → c ∈ post' := fun c hc hcl =>
    (mem_liveBlks.1 (hpost.symm ▸ mem_liveBlks.2 ⟨hc, hcl⟩)).1
  refine ⟨fun c hc hcl => ?_, fun i hi ha => ?_⟩
  · simp only [List.mem_append, List.mem_cons] at hc
    rcases hc with hc | rfl | hc
    · exact ho.owner c (by simp [hc]) hcl
    · rw [hoff]
      exact ho.owner b (by simp) (hl.symm.trans hcl)
    · exact ho.owner c (by simp [hmem c hc hcl]) hcl
  · obtain ⟨c, hc, hcl, hco, hcu⟩ := ho.block i hi ha
    simp only [List.mem_append, List.mem_cons] at hc
    rcases hc with hc | rfl | hc
    · exact ⟨c, by simp [hc], hcl, hco, hcu⟩
    · exact ⟨b', by simp, hl.trans hcl, by rw [hoff, hco], hfit i ⟨hi, ha, hco⟩⟩
    · exact ⟨c, by simp [hmem' c hc hcl], hcl, hco, hcu⟩

/-! ## What is true of a usable region -/

/-- Following `total_size` from offset 0 meets headers at `xs` and comes to `o`. -/
def WalksTo (G : Geometry) (m : Mem) (xs : List Nat) (o : Nat) : Prop :=
  Tiled id (totalAt G m) 0 xs o ∧ o < G.heapSize

namespace Usable

variable {xs : List Nat}

/-- An entry in use points at an allocated block. -/
theorem tagged (h : Usable G m) (hp : PointsAt G m i o) : taggedAt G m o = true := by
  obtain ⟨os, fl, hs⟩ := h
  obtain ⟨o', -, ht, hoff, -⟩ := hs.block i hp.lt hp.alive
  obtain rfl : o = o' := Nat.add_right_cancel (hp.off.symm.trans hoff)
  exact ht

/-- What an entry in use describes fits in its block. -/
theorem fits (h : Usable G m) (hp : PointsAt G m i o) :
    (entryAt m i).used + 56 ≤ totalAt G m o := by
  obtain ⟨os, fl, hs⟩ := h
  obtain ⟨o', -, -, hoff, hu⟩ := hs.block i hp.lt hp.alive
  obtain rfl : o = o' := Nat.add_right_cancel (hp.off.symm.trans hoff)
  exact hu

/-- Every free block is on the list. -/
theorem mem_list (h : Usable G m) (hw : WalksTo G m xs o) (ht : taggedAt G m o = false)
    (hl : Linked (nextAt G m) (m.load 88 8) fl) : o ∈ fl := by
  obtain ⟨os, fl', hs⟩ := h
  rw [hl.unique hs.links, hs.listed]
  exact ⟨Tiled.mem_of_walk hw.1 hs.tiles hw.2, ht⟩

/-- Every allocated block has an entry. -/
theorem entry (h : Usable G m) (hw : WalksTo G m xs o) (ht : taggedAt G m o = true) :
    ∃ i, PointsAt G m i o := by
  obtain ⟨os, fl, hs⟩ := h
  obtain ⟨i, hi, -⟩ := hs.owner o (Tiled.mem_of_walk hw.1 hs.tiles hw.2) ht
  exact ⟨i, hi⟩

/-- A block on the list does not overlap another block. -/
theorem apart (h : Usable G m) (hw : WalksTo G m xs o)
    (hl : Linked (nextAt G m) (m.load 88 8) fl) {o' : Nat} (ho' : o' ∈ fl) (hlt : o < o') :
    o + totalAt G m o ≤ o' := by
  obtain ⟨os, fl', hs⟩ := h
  rw [hl.unique hs.links, hs.listed] at ho'
  have hom := Tiled.mem_of_walk hw.1 hs.tiles hw.2
  have hmin := hs.min o' ho'.1
  rcases hs.disjoint hom ho'.1 (Nat.ne_of_lt hlt) with h | h
  · exact h
  · omega

end Usable

/-- The walk comes to every block of the heap, as long as the sizes below it are what they were. -/
theorem Rep.walksTo (h : Rep G m (pre ++ b :: post) fl)
    (htotal : ∀ c ∈ pre, totalAt G m' c.off = c.total) : WalksTo G m' (pre.map Blk.off) b.off := by
  have hb := h.bounds (show b ∈ pre ++ b :: post by simp)
  exact ⟨(tiled_map Blk.off).2 ((tiles_mid.1 h.tiles).1.congr htotal), by omega⟩

/-- **A free block that is not on the list is lost.** -/
theorem Rep.not_usable (h : Rep G m (pre ++ b :: post) fl) (hb : b.live = false)
    (hfl : b.off ∉ fl) : ¬ Usable G m := fun hu =>
  hfl (hu.mem_list (h.walksTo fun c hc => (h.blk c (by simp [hc])).totalAt)
    ((h.blk b (by simp)).taggedAt.trans hb) h.links)

end ShmAlloc
