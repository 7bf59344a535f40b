import ShmAlloc.Region.Resize

/-!
# `shm_resize`: relocating growth

When an object can neither stay where it is nor grow into its neighbour, it moves.  A block is taken
from the free list, the payload and the identity of the old block are copied to it, the old block
is given back, and the slot is pointed at the new one.

## What is here

* `moveEvents`: the copy of the payload, the clearing of what lies behind it, and the copy of the
  identity.  What the new block becomes is `Blk.adopted`.
* `movingEvents`: everything such a resize does once access is granted.
* `Relocates`: the conditions under which it is done, as a structure that also names the heap on
  both sides of the block that is given back.  One of them is that the new block has the capacity
  for the payload; the code does not compare the two.
* `HeapInv.move` and `Relocates.moved_heap`: the heap in the middle, with two blocks of the object's
  identity, and at the end.
* `writes_movingEvents`: **what such a resize writes**, which misses the payloads of other objects.
* `Inv.relocate` and `FullInv.relocate`: **it keeps the region invariant**, and the ids in order.
* `exec_relocateTo`: **the code does just that**, once the block has been taken.  It is put together
  from one lemma for each step (`exec_copyPayload`, `exec_copyIdentity`, `HeapInv.exec_move`,
  `Relocates.exec_release`, `Relocates.exec_retarget`).
* `trace_copyPayload_short`: where the copy goes wrong if the capacity is too small.  The number of
  bytes to clear is then negative, which as a `size_t` is more than the address space.
-/

set_option autoImplicit false

namespace ShmAlloc

open Tiling Links

variable {G : Geometry} {m m' : Mem} {bs pre post : List Blk}

/-! ## Moving the object

The old block stays as it is until it is given back, so that there are two blocks with one identity
for a while.  Nothing looks at them before the lock is released. -/

/-- What lies behind the copied payload is cleared. -/
def extraEvents (p cap extra : Nat) : List Event :=
  if 0 < extra then [.fill (p + 56 + cap) extra 0] else []

/-- The payload of `b` is copied to `c`. -/
def copyEvents (G : Geometry) (b c : Blk) : List Event :=
  .copy (G.base + c.off + 56) (G.base + b.off + 56) b.cap ::
    extraEvents (G.base + c.off) b.cap (c.cap - b.cap)

/-- The identity of `b` is copied to `c`. -/
def adoptEvents (G : Geometry) (b c : Blk) : List Event :=
  [.store (G.base + c.off + 4) 4 b.tag, .store (G.base + c.off + 8) 4 b.owner,
    .store (G.base + c.off + 12) 4 b.perms, .store (G.base + c.off + 24) 8 b.id,
    .persist (G.base + c.off + 56) c.cap, .persist (G.base + c.off) 56]

/-- The object of `b` moves to `c`. -/
def moveEvents (G : Geometry) (b c : Blk) : List Event := copyEvents G b c ++ adoptEvents G b c

/-- The slot is pointed at the block at `o`, of capacity `cap`. -/
def retargetEvents (i o cap : Nat) : List Event :=
  [.store (slotAddr i + 56) 8 (o + 56), .store (slotAddr i + 64) 8 cap]

/-- The block `c` with the identity of `b`. -/
def Blk.adopted (c b : Blk) : Blk :=
  { c with id := b.id, owner := b.owner, perms := b.perms, tag := b.tag }

@[simp] theorem Blk.adopted_off (c b : Blk) : (c.adopted b).off = c.off := rfl
@[simp] theorem Blk.adopted_total (c b : Blk) : (c.adopted b).total = c.total := rfl
@[simp] theorem Blk.adopted_cap (c b : Blk) : (c.adopted b).cap = c.cap := rfl
@[simp] theorem Blk.adopted_live (c b : Blk) : (c.adopted b).live = c.live := rfl

theorem writes_copyEvents {b c : Blk} {x : Nat} (hcap : b.cap ≤ c.cap)
    (h : Writes (copyEvents G b c) x) :
    G.base + c.off + 56 ≤ x ∧ x < G.base + c.off + 56 + c.cap := by
  simp only [copyEvents, extraEvents, writes_cons, Event.Touches] at h
  rcases h with h | h
  · omega
  · split at h
    · simp only [writes_cons, not_writes_nil, Event.Touches, or_false] at h
      omega
    · exact absurd h (not_writes_nil x)

theorem writes_adoptEvents {b c : Blk} {x : Nat} (h : Writes (adoptEvents G b c) x) :
    G.base + c.off + 4 ≤ x ∧ x < G.base + c.off + 32 := by
  simp only [adoptEvents, writes_cons, not_writes_nil, Event.Touches, or_false] at h
  omega

theorem writes_moveEvents {b c : Blk} {x : Nat} (hcap : b.cap ≤ c.cap) (hc : c.cap + 56 ≤ c.total)
    (h : Writes (moveEvents G b c) x) : InBlk G c x := by
  rcases writes_append.1 h with h | h
  · have := writes_copyEvents hcap h
    exact ⟨by omega, by omega⟩
  · have := writes_adoptEvents h
    exact ⟨by omega, by omega⟩

theorem writes_retargetEvents {i o cap x : Nat} (h : Writes (retargetEvents i o cap) x) :
    slotAddr i + 56 ≤ x ∧ x < slotAddr i + 72 := by
  simp only [retargetEvents, writes_cons, not_writes_nil, Event.Touches, or_false] at h
  omega

/-- The header of a block survives writes to another block. -/
theorem Rep.blkAt_of_other {fl : List Nat} {b c : Blk} {W : List Event} (h : Rep G m bs fl)
    (hb : b ∈ bs) (hc : c ∈ bs) (hne : b.off ≠ c.off)
    (hW : ∀ x, Writes W x → InBlk G c x) : BlkAt G (replay W m) b :=
  (h.blk b hb).congr fun x h1 h2 => replay_of_not_writes (fun hw => by
    obtain ⟨h3, h4⟩ := hW x hw
    have := h.apart hb hc hne
    have := (h.wf b hb).min
    omega) m

theorem blkAt_adoptEvents {b c : Blk} (hC : BlkAt G m c) (hB : BlkAt G m b) :
    BlkAt G (replay (adoptEvents G b c) m) (c.adopted b) := by
  have h1 : b.tag % 256 ^ 4 = b.tag := Nat.mod_eq_of_lt (hB.tag ▸ Mem.load_lt ..)
  have h2 : b.owner % 256 ^ 4 = b.owner := Nat.mod_eq_of_lt (hB.owner ▸ Mem.load_lt ..)
  have h3 : b.perms % 256 ^ 4 = b.perms := Nat.mod_eq_of_lt (hB.perms ▸ Mem.load_lt ..)
  have h4 : b.id % 256 ^ 8 = b.id := Nat.mod_eq_of_lt (hB.id ▸ Mem.load_lt ..)
  simp only [adoptEvents, replay_cons, replay_nil, Event.act]
  refine .intro ?_ ?_ ?_ ?_ ?_ ?_ ?_ ?_ <;>
    simp (disch := omega) only [Blk.adopted, Mem.load_store_same, Mem.load_store_of_disjoint, h1,
      h2, h3, h4]
  · exact hC.magic
  · exact hC.live
  · exact hC.cap
  · exact hC.total

/-- **The object of `b` moves to the live block `c`.** -/
theorem HeapInv.move {b c : Blk} (h : HeapInv G m (pre ++ c :: post)) (hc : c.live = true)
    (hb : b ∈ pre ++ c :: post) (hne : b.off ≠ c.off) (hcap : b.cap ≤ c.cap) :
    HeapInv G (replay (moveEvents G b c) m) (pre ++ c.adopted b :: post) := by
  have hcm : c ∈ pre ++ c :: post := by simp
  have hwf := h.wf c hcm
  have hcc := hwf.cap_le
  have h1 := h.scribble (W := copyEvents G b c) hcm fun x hx => by
    have := writes_copyEvents hcap hx
    omega
  have hB := h.blkAt_of_other (W := copyEvents G b c) hb hcm hne fun x hx => by
    have := writes_copyEvents hcap hx
    exact ⟨by omega, by omega⟩
  have hblk := blkAt_adoptEvents (h1.blk c hcm) hB
  have hag : ∀ x, x < G.base + c.off ∨ G.base + c.off + 48 ≤ x ∧ x < G.base + c.off + 56 ∨
      G.base + c.off + c.total ≤ x → replay (adoptEvents G b c) (replay (copyEvents G b c) m) x
        = replay (copyEvents G b c) m x := fun x hx => by
    refine replay_of_not_writes (fun hw => ?_) _
    have := writes_adoptEvents hw
    omega
  have hwf' : (c.adopted b).WF := ⟨hwf.aligned, hwf.min, hwf.cap_le⟩
  have h2 := h1.modify (Blk.adopted_off c b) (Blk.adopted_total c b) hwf' hblk hag
  have hoffs : freeOffs (pre ++ c.adopted b :: post) = freeOffs (pre ++ c :: post) := by
    rw [freeOffs_append, freeOffs_append, freeOffs_cons_live hc,
      freeOffs_cons_live (b := c.adopted b) hc]
  refine ⟨?_, h.coalesced.mid_congr rfl⟩
  rw [moveEvents, replay_append, hoffs]
  exact h2

/-! ## The whole relocation -/

/-- The heap once the object of `b` has moved to the `t` bytes taken from `f`. -/
def movedBlks (pre : List Blk) (f : Blk) (post : List Blk) (t : Nat) (b : Blk) : List Blk :=
  pre ++ (taken f t).adopted b :: (remnant f t ++ post)

/-- The object of `b` can be moved to `t` bytes taken from `f`, the first free block that fits;
`pre'` and `post'` are what is before and behind `b` by then. -/
structure Relocates (bs : List Blk) (b : Blk) (t : Nat) (pre : List Blk) (f : Blk)
    (post pre' post' : List Blk) : Prop where
  split : bs = pre ++ f :: post
  free : f.live = false
  fits : t ≤ f.total
  first : ∀ c ∈ pre, c.live = false → c.total < t
  moved : movedBlks pre f post t b = pre' ++ b :: post'
  cap_le : b.cap ≤ (taken f t).cap

/-- Everything `growByMoving` does, up to the end of the resize. -/
def relocateEvents (G : Geometry) (pre : List Blk) (f : Blk) (post pre' post' : List Blk) (b : Blk)
    (i t used count : Nat) : List Event :=
  takeEvents G pre f post t used count ++ (moveEvents G b (taken f t) ++
    (releaseEvents G pre' b post' (used + (taken f t).total) (count + 1) ++
      retargetEvents i f.off (taken f t).cap))

section

variable {b f : Blk} {t i n used count : Nat} {pre' post' : List Blk}

/-- The rest of the heap survives the move. -/
theorem mem_movedBlks {c : Blk} (hf : f.live = false) (hc : c ∈ pre ++ f :: post)
    (hl : c.live = true) : c ∈ movedBlks pre f post t b := by
  simp only [movedBlks, List.mem_append, List.mem_cons] at hc ⊢
  rcases hc with hc | rfl | hc
  · exact .inl hc
  · rw [hf] at hl
    exact Bool.noConfusion hl
  · exact .inr (.inr (.inr hc))

/-- Once a free block fits and the capacities allow it, the object can be moved. -/
theorem relocates (hf : f.live = false) (hb : b ∈ pre ++ f :: post) (hl : b.live = true)
    (hfit : t ≤ f.total) (hfirst : ∀ c ∈ pre, c.live = false → c.total < t)
    (hcap : b.cap ≤ (taken f t).cap) :
    ∃ pre' post', Relocates (pre ++ f :: post) b t pre f post pre' post' := by
  obtain ⟨pre', post', h⟩ := List.append_of_mem (mem_movedBlks (t := t) (b := b) hf hb hl)
  exact ⟨pre', post', rfl, hf, hfit, hfirst, h, hcap⟩

namespace Relocates

/-- The space is taken from a block of the heap. -/
theorem mem (hr : Relocates bs b t pre f post pre' post') : f ∈ bs :=
  hr.split ▸ List.mem_append_right _ List.mem_cons_self

/-- The live block is not the one the space is taken from. -/
theorem off_ne (hr : Relocates bs b t pre f post pre' post') {fl : List Nat}
    (h : Rep G m bs fl) (hb : b ∈ bs) (hl : b.live = true) : b.off ≠ f.off := fun e => by
  rw [h.eq_of_off hb hr.mem e, hr.free] at hl
  exact Bool.noConfusion hl

/-- The heap when the object has moved and the old block is still live. -/
theorem moved_heap (used count : Nat) (hr : Relocates bs b t pre f post pre' post')
    (h : HeapInv G m bs) (hb : b ∈ bs) (hl : b.live = true) (ht : 64 ≤ t) (ht8 : t % 8 = 0) :
    HeapInv G (replay (takeEvents G pre f post t used count ++ moveEvents G b (taken f t)) m)
      (pre' ++ b :: post') := by
  have hne := hr.off_ne h.toRep hb hl
  have hsplit := hr.split
  subst hsplit
  have h1 := h.take used count hr.free ht ht8 hr.fits
  rw [replay_append, ← hr.moved]
  exact h1.move (b := b) (taken_live f t) (mem_takeFree hr.free hb hl) (by rwa [taken_off])
    hr.cap_le

theorem taken_cap_le (hr : Relocates bs b t pre f post pre' post') (h : HeapInv G m bs)
    (ht : 64 ≤ t) : (taken f t).cap + 56 ≤ (taken f t).total ∧ (taken f t).total ≤ f.total := by
  have h1 := (detached_wf (h.wf f hr.mem) ht).cap_le
  have h2 := detached_total_le hr.fits
  exact ⟨h1, h2⟩

/-- Live blocks before and after the move. -/
theorem live_moved (hr : Relocates bs b t pre f post pre' post') :
    liveBlks (pre' ++ b :: post') = liveBlks pre ++ (taken f t).adopted b :: liveBlks post := by
  rw [← hr.moved, movedBlks, liveBlks_append,
    liveBlks_cons_live (b := (taken f t).adopted b) rfl, liveBlks_append, liveBlks_remnant,
    List.nil_append]

theorem liveBytes_moved (hr : Relocates bs b t pre f post pre' post') :
    liveBytes (pre' ++ b :: post') = liveBytes bs + (taken f t).total ∧
      (liveBlks (pre' ++ b :: post')).length = (liveBlks bs).length + 1 := by
  have h2 : liveBlks bs = liveBlks pre ++ liveBlks post := by
    rw [hr.split, liveBlks_append, liveBlks_cons_free hr.free]
  rw [liveBytes, liveBytes, hr.live_moved, h2]
  simp only [List.map_append, List.map_cons, List.sum_append, List.sum_cons, List.length_append,
    List.length_cons, Blk.adopted_total]
  omega

/-- The block the object has moved to is before or behind the old one. -/
theorem adopted_mem (hr : Relocates bs b t pre f post pre' post') (hne : b.off ≠ f.off) :
    (taken f t).adopted b ∈ pre' ∨ (taken f t).adopted b ∈ post' := by
  have hm : (taken f t).adopted b ∈ pre' ++ b :: post' := by
    rw [← hr.moved, movedBlks]
    simp
  simp only [List.mem_append, List.mem_cons] at hm
  rcases hm with hm | hm | hm
  · exact .inl hm
  · refine absurd (congrArg Blk.off hm) ?_
    rw [Blk.adopted_off, taken_off]
    exact hne.symm
  · exact .inr hm

/-- It is still there when the old one has been given back. -/
theorem adopted_mem_freed (hr : Relocates bs b t pre f post pre' post') (hne : b.off ≠ f.off) :
    (taken f t).adopted b ∈ insertFree pre' b.freed post' :=
  mem_insertFree b.freed_live (hr.adopted_mem hne) rfl

/-- The other live blocks, too. -/
theorem other_mem (hr : Relocates bs b t pre f post pre' post') {c : Blk} (hc : c ∈ bs)
    (hl : c.live = true) (hne : c.off ≠ b.off) : c ∈ pre' ∨ c ∈ post' := by
  have hsplit := hr.split
  have hm : c ∈ pre' ++ b :: post' := by
    rw [← hr.moved]
    exact mem_movedBlks hr.free (hsplit ▸ hc) hl
  simp only [List.mem_append, List.mem_cons] at hm
  rcases hm with hm | rfl | hm
  · exact .inl hm
  · exact absurd rfl hne
  · exact .inr hm

/-- What is live around the old block was live before, or is where the object has moved to. -/
theorem of_mem (hr : Relocates bs b t pre f post pre' post') {c : Blk}
    (hc : c ∈ pre' ∨ c ∈ post') (hl : c.live = true) : c = (taken f t).adopted b ∨ c ∈ bs := by
  have hm : c ∈ liveBlks (pre' ++ b :: post') :=
    mem_liveBlks.2 ⟨by rcases hc with hc | hc <;> simp [hc], hl⟩
  rw [hr.live_moved, List.mem_append, List.mem_cons, mem_liveBlks, mem_liveBlks] at hm
  rw [hr.split]
  rcases hm with hm | hm | hm
  · exact .inr (by simp [hm.1])
  · exact .inl hm
  · exact .inr (by simp [hm.1])

/-- **What a relocation writes**, the slot aside. -/
theorem touchable (hr : Relocates bs b t pre f post pre' post') (h : HeapInv G m bs)
    (hb : b ∈ bs) (ht : 64 ≤ t) {u k x : Nat}
    (hx : Writes (takeEvents G pre f post t used count ++ (moveEvents G b (taken f t) ++
      releaseEvents G pre' b post' u k)) x) : Touchable G bs b x := by
  have hcap := hr.taken_cap_le h ht
  have hfm := hr.mem
  have hfree : InBlk G f x → Touchable G bs b x := fun hx => .inr (.inr ⟨f, hfm, hr.free, hx⟩)
  rcases writes_append.1 hx with hx | hx
  · rcases writes_takeEvents ht hr.fits hr.free hx with hx | (hx | hx) | hx
    · exact .inl (by omega)
    · exact .inl (by omega)
    · exact h.touchable_of_hdr (by rw [hr.split]; exact hx)
    · exact hfree hx
  · rcases writes_append.1 hx with hx | hx
    · have := writes_moveEvents hr.cap_le hcap.1 hx
      rw [InBlk, taken_off] at this
      exact hfree ⟨this.1, by omega⟩
    · rcases writes_releaseEvents hx with hx | hx | ⟨d, hd, hl, hx⟩
      · exact .inl (by omega)
      · exact .inl (by omega)
      · simp only [List.mem_append, List.mem_cons] at hd
        have hmoved : d ∈ pre' ∨ d ∈ post' → Touchable G bs b x := fun hd => by
          have hm : d ∈ movedBlks pre f post t b := by
            rw [hr.moved]
            rcases hd with hd | hd <;> simp [hd]
          simp only [movedBlks, List.mem_append, List.mem_cons] at hm
          rcases hm with hm | rfl | hm | hm
          · exact h.touchable_of_hdr ⟨d, by rw [hr.split]; simp [hm], hl, hx⟩
          · exact Bool.noConfusion hl
          · -- the remnant lies in the block it was split from
            rw [remnant] at hm
            split at hm
            · simp only [List.mem_singleton] at hm
              subst hm
              obtain ⟨h1, h2⟩ := hx
              rw [Blk.fresh_off] at h1 h2
              exact hfree ⟨by omega, by omega⟩
            · exact absurd hm (List.not_mem_nil)
          · exact h.touchable_of_hdr ⟨d, by rw [hr.split]; simp [hm], hl, hx⟩
        rcases hd with hd | rfl | hd
        · exact hmoved (.inl hd)
        · exact .inr (.inl (h.inBlk_of_inHdr hb hx))
        · exact hmoved (.inr hd)

end Relocates

/-! ## What the relocation leaves

The slot is retargeted last, and until then it points at a block that is already free.  The
invariant holds again once it has been. -/

/-- Everything a relocating resize does once access is granted. -/
def movingEvents (G : Geometry) (bs pre : List Blk) (f : Blk) (post pre' post' : List Blk)
    (b : Blk) (i t n : Nat) : List Event :=
  relocateEvents G pre f post pre' post' b i t (liveBytes bs) (liveBlks bs).length ++
    finishEvents i n

theorem movingEvents_eq :
    movingEvents G bs pre f post pre' post' b i t n
      = (takeEvents G pre f post t (liveBytes bs) (liveBlks bs).length ++
          (moveEvents G b (taken f t) ++ releaseEvents G pre' b post'
            (liveBytes bs + (taken f t).total) ((liveBlks bs).length + 1))) ++
        (retargetEvents i f.off (taken f t).cap ++ finishEvents i n) := by
  simp only [movingEvents, relocateEvents, List.append_assoc]

theorem writes_retarget_finish {i o cap n x : Nat}
    (h : Writes (retargetEvents i o cap ++ finishEvents i n) x) :
    slotAddr i + 56 ≤ x ∧ x < slotAddr i + 80 := by
  rcases writes_append.1 h with h | h
  · have := writes_retargetEvents h
    omega
  · have := writes_finishEvents h
    omega

theorem entryAt_retarget {i o cap n : Nat} (ho : o + 56 < 2 ^ 64) (hcap : cap < 2 ^ 64)
    (hn : n < 2 ^ 64) (m : Mem) :
    entryAt (replay (retargetEvents i o cap ++ finishEvents i n) m) i
      = { entryAt m i with off := o + 56, cap, used := n } := by
  have h8 : ∀ v < 2 ^ 64, v % 256 ^ 8 = v := fun v hv => Nat.mod_eq_of_lt hv
  simp only [retargetEvents, finishEvents, replay_append, replay_cons, replay_nil, Event.act,
    entryAt]
  simp (disch := omega) only [Mem.load_store_same, Mem.load_store_of_disjoint, h8 _ ho, h8 _ hcap,
    h8 _ hn]

/-- **What a relocating resize writes.** -/
theorem writes_movingEvents (hr : Relocates bs b t pre f post pre' post') (h : HeapInv G m bs)
    (hb : b ∈ bs) (ht : 64 ≤ t) {x : Nat}
    (hx : Writes (movingEvents G bs pre f post pre' post' b i t n) x) :
    Touchable G bs b x ∨ slotAddr i + 56 ≤ x ∧ x < slotAddr i + 80 := by
  rw [movingEvents_eq] at hx
  rcases writes_append.1 hx with hx | hx
  · exact .inl (hr.touchable h hb ht hx)
  · exact .inr (writes_retarget_finish hx)

section

variable (hr : Relocates bs b t pre f post pre' post') (h : Inv G m bs) (hb : b ∈ bs)
  (ht : 64 ≤ t)
include hr h hb ht

theorem moving_entry_other {j : Nat} (hj : j < G.dirCap) (hji : j ≠ i) :
    entryAt (replay (movingEvents G bs pre f post pre' post' b i t n) m) j = entryAt m j :=
  entryAt_replay fun x hx hs => by
    have hsb := hs.lt_base hj
    rcases writes_movingEvents hr h.heap hb ht hx with hx | hx
    · have := hx.ge
      omega
    · exact hji (hs.eq (j := i) ⟨by omega, by omega⟩)

theorem moving_entry_self (hi : i < G.dirCap) (hn : n < 2 ^ 64) :
    entryAt (replay (movingEvents G bs pre f post pre' post' b i t n) m) i
      = { entryAt m i with off := f.off + 56, cap := (taken f t).cap, used := n } := by
  have hfm := hr.mem
  have hfb := h.heap.bounds hfm
  have hcap := hr.taken_cap_le h.heap ht
  have := G.size_lt
  have := G.size_eq
  rw [movingEvents_eq, replay_append, entryAt_retarget (by omega) (by omega) hn]
  rw [entryAt_replay fun x hx hs => by
    have := (hr.touchable h.heap hb ht hx).ge
    have := hs.lt_base hi
    omega]

theorem moving_nextId :
    nextIdOf (replay (movingEvents G bs pre f post pre' post' b i t n) m) = nextIdOf m :=
  load_replay fun x hx => by
    have hD := G.base_ge
    have hs := slotAddr_ge i
    rcases writes_movingEvents hr h.heap hb ht hx with hx | hx
    · have := hx.ge
      omega
    · have := hx.1
      omega

end

/-- **A relocating resize keeps the region invariant.** -/
theorem Inv.relocate (h : Inv G m bs) (hr : Relocates bs b t pre f post pre' post')
    (hb : b ∈ bs) (hh : Holds G m i b) (ht : 64 ≤ t) (ht8 : t % 8 = 0) (hn : n + 56 ≤ t)
    (hn' : n < 2 ^ 64) :
    Inv G (replay (movingEvents G bs pre f post pre' post' b i t n) m)
      (insertFree pre' b.freed post') := by
  have hD := G.base_ge
  have hs' := slotAddr_ge i
  have hs := G.slotAddr_lt hh.lt
  have hne := hr.off_ne h.heap.toRep hb hh.live
  have hfm := hr.mem
  have hmoved := hr.moved_heap (liveBytes bs) (liveBlks bs).length h.heap hb hh.live ht ht8
  have hrel := hmoved.release hh.live (liveBytes bs + (taken f t).total)
    ((liveBlks bs).length + 1)
  have hsum := hr.liveBytes_moved
  have hdrop := liveBytes_drop pre' post' hh.live
  have hroom := h.heap.room f hfm hr.free
  have htc := hr.taken_cap_le h.heap ht
  have hcnt := h.heap.count_lt
  have hlive : liveBlks (insertFree pre' b.freed post') = liveBlks pre' ++ liveBlks post' :=
    liveBlks_insertFree rfl pre' post'
  have hslot : ∀ x, Writes (retargetEvents i f.off (taken f t).cap ++ finishEvents i n) x →
      200 ≤ x ∧ x < G.base := fun x hx => by
    have := writes_retarget_finish hx
    omega
  refine ⟨h.layout.of_writes fun x hx => ?_, ⟨?_, hrel.coalesced⟩, ?_, ?_, ?_⟩
  · rcases writes_movingEvents hr h.heap hb ht hx with hx | hx
    · exact hx.ge.1
    · have := hx.1
      omega
  · have := hrel.of_header_writes fun x hx => .inl (by have := hslot x hx; omega)
    rw [movingEvents_eq]
    simpa only [replay_append] using this
  · rw [movingEvents_eq, replay_append, load_replay fun x hx => .inr (by
      have := hslot x hx
      omega), ← List.append_assoc, replay_append, load_used_release (by omega)]
    simp only [liveBytes, hlive, List.map_append, List.sum_append] at hsum hdrop ⊢
    omega
  · rw [movingEvents_eq, replay_append, load_replay fun x hx => .inr (by
      have := hslot x hx
      omega), ← List.append_assoc, replay_append, load_count_release (by omega), hlive,
      List.length_append]
    omega
  · refine h.dir.update (i := i) (fun j hj hji => moving_entry_other hr h hb ht hj hji)
      (fun j c hj hji ha hc hl hm => ?_) fun _ => ?_
    · refine mem_insertFree b.freed_live (hr.other_mem hc hl fun e => hji ?_) hl
      exact h.dir.inj j i hj hh.lt ha hh.alive (by rw [hm.off, hh.mirrors.off, e])
    · rw [moving_entry_self hr h hb ht hh.lt hn']
      have hm := hh.mirrors
      have hfit := detached_total_ge hr.fits
      refine ⟨⟨(taken f t).adopted b, hr.adopted_mem_freed hne, rfl,
        ⟨?_, hm.id, hm.owner, hm.tag, rfl, ?_⟩⟩, fun j hj hji ha hoff => ?_⟩
      · rw [Blk.adopted_off, taken_off]
      · show n + 56 ≤ (detached f t).total
        omega
      · obtain ⟨c, hc, hl, hcm⟩ := h.dir.entry j hj ha
        have hcf : c.off = f.off := by
          have h1 := hcm.off
          have h2 : (entryAt m j).off = f.off + 56 := hoff
          omega
        rw [h.heap.eq_of_off hc hfm hcf, hr.free] at hl
        exact Bool.noConfusion hl

/-- **A relocating resize keeps ids in order.** -/
theorem FullInv.relocate (h : FullInv G m bs) (hr : Relocates bs b t pre f post pre' post')
    (hb : b ∈ bs) (hh : Holds G m i b) (ht : 64 ≤ t) (ht8 : t % 8 = 0) (hn : n + 56 ≤ t)
    (hn' : n < 2 ^ 64) :
    FullInv G (replay (movingEvents G bs pre f post pre' post' b i t n) m)
      (insertFree pre' b.freed post') := by
  have hself := moving_entry_self hr h.toInv hb ht (n := n) hh.lt hn'
  have hmoved := hr.moved_heap (liveBytes bs) (liveBlks bs).length h.heap hb hh.live ht ht8
  refine ⟨h.toInv.relocate hr hb hh ht ht8 hn hn', ?_⟩
  rw [moving_nextId hr h.toInv hb ht]
  refine h.ids.update hh.lt (fun j hj hji => moving_entry_other hr h.toInv hb ht hj hji)
    (Nat.le_refl _) (fun _ => ?_) fun c hc hl => ?_
  · rw [hself]
    exact ⟨h.ids.id_pos i hh.lt hh.alive, h.ids.id_lt i hh.lt hh.alive, fun j hj hji ha hid =>
      hji (h.ids.distinct j i hj hh.lt ha hh.alive hid)⟩
  · have hm : c ∈ liveBlks (insertFree pre' b.freed post') := mem_liveBlks.2 ⟨hc, hl⟩
    rw [liveBlks_insertFree rfl, List.mem_append, mem_liveBlks, mem_liveBlks] at hm
    have hm' : c ∈ pre' ∨ c ∈ post' := hm.imp And.left And.left
    rcases hr.of_mem hm' hl with rfl | hcb
    · -- the new block: its entry had the permissions of the old one
      obtain ⟨j, hj, ha, hoff, hperms⟩ := h.ids.onto b hb hh.live
      have hji := h.dir.inj j i hj hh.lt ha hh.alive (hoff.trans hh.mirrors.off.symm)
      subst hji
      rw [hself, Blk.adopted_off, taken_off]
      exact .inl ⟨ha, rfl, hperms⟩
    · refine .inr ⟨c, hcb, hl, rfl, rfl, fun _ hoff => ?_⟩
      have h1 := hmoved.off_ne_of_mem hm'
      have h2 := hh.mirrors.off
      omega

end

/-! ## Running the code -/

section

variable {b c : Blk}

/-- **Copying the payload** to a block whose capacity is not smaller. -/
theorem exec_copyPayload (hB : BlkAt G m b) (hC : BlkAt G m c) (hb : b.off + 56 ≤ G.heapSize)
    (hc : c.off + c.total ≤ G.heapSize) (hct : c.cap + 56 ≤ c.total) (hcap : b.cap ≤ c.cap) :
    Exec G.size (copyPayload (G.base + b.off) (G.base + c.off)) m () (copyEvents G b c) := by
  have hsz := G.size_eq
  have hlt := G.size_lt
  have hcap' : (m.copy (G.base + c.off + 56) (G.base + b.off + 56) b.cap).load
      (G.base + c.off + 32) 8 = c.cap := by
    rw [Mem.load_copy_of_disjoint (by omega)]
    exact hC.cap
  refine Exec.load_bind hB.cap (by simp; omega) (.emit_bind
    (Exec.load_bind hcap' (by simp; omega) ?_))
  rw [sub64_eq hcap (by omega), clearExtra, extraEvents]
  by_cases h0 : 0 < c.cap - b.cap
  · rw [if_pos h0, if_pos h0, blockHdrSize, add64_eq (by omega)]
    exact .emit
  · rw [if_neg h0, if_neg h0]
    exact .pure _

/-- **Where the copy to a block of too small a capacity goes wrong.** -/
theorem trace_copyPayload_short (hB : BlkAt G m b) (hC : BlkAt G m c)
    (hb : b.off + 56 ≤ G.heapSize) (hc : c.off + c.total ≤ G.heapSize) (hbc : b.cap + 56 ≤ c.total)
    (hcap : ¬ b.cap ≤ c.cap) :
    ∃ T, effects T = [.copy (G.base + c.off + 56) (G.base + b.off + 56) b.cap] ∧
      (copyPayload (G.base + b.off) (G.base + c.off)).trace m
        = T ++ [.fill (G.base + c.off + 56 + b.cap) (c.cap + 2 ^ 64 - b.cap) 0] := by
  have hsz := G.size_eq
  have hlt := G.size_lt
  have hcap' : (m.copy (G.base + c.off + 56) (G.base + b.off + 56) b.cap).load
      (G.base + c.off + 32) 8 = c.cap := by
    rw [Mem.load_copy_of_disjoint (by omega)]
    exact hC.cap
  have hsub : sub64 c.cap b.cap = c.cap + 2 ^ 64 - b.cap := by
    rw [sub64]
    omega
  have e1 : Exec G.size (Prog.get (G.base + b.off) BlockHdr.payloadCap) m b.cap [] :=
    .load hB.cap (by simp; omega)
  have e2 : Exec G.size (Prog.emit (.copy (G.base + c.off + 56) (G.base + b.off + 56) b.cap)) m ()
      [.copy (G.base + c.off + 56) (G.base + b.off + 56) b.cap] := .emit
  have e3 : Exec G.size (Prog.get (G.base + c.off) BlockHdr.payloadCap)
      (m.copy (G.base + c.off + 56) (G.base + b.off + 56) b.cap) c.cap [] :=
    .load hcap' (by simp; omega)
  refine ⟨(Prog.get (G.base + b.off) BlockHdr.payloadCap).trace m ++ ((Prog.emit (.copy
    (G.base + c.off + 56) (G.base + b.off + 56) b.cap)).trace m ++ (Prog.get (G.base + c.off)
      BlockHdr.payloadCap).trace (m.copy (G.base + c.off + 56) (G.base + b.off + 56) b.cap)), ?_,
      ?_⟩
  · rw [effects_append, effects_append, e1.eff, e2.eff, e3.eff]
    rfl
  · rw [copyPayload, e1.trace_bind_nil]
    show _ ++ (Prog.emit (.copy (G.base + c.off + 56) (G.base + b.off + 56) b.cap) >>= _).trace m
      = _
    rw [e2.trace_bind]
    show _ ++ (_ ++ (Prog.get (G.base + c.off) BlockHdr.payloadCap >>= _).trace
      (m.copy (G.base + c.off + 56) (G.base + b.off + 56) b.cap)) = _
    rw [e3.trace_bind_nil, hsub, clearExtra, if_pos (by omega), blockHdrSize, add64_eq (by omega)]
    simp only [List.append_assoc, Prog.trace_emit]

theorem exec_copyIdentity (hB : BlkAt G m b) (hC : BlkAt G m c) (hb : b.off + 56 ≤ G.heapSize)
    (hc : c.off + 56 ≤ G.heapSize) (hne : b.off + 56 ≤ c.off ∨ c.off + 56 ≤ b.off) :
    Exec G.size (copyIdentity (G.base + b.off) (G.base + c.off)) m () (adoptEvents G b c) := by
  have hsz := G.size_eq
  have h1 : (m.store (G.base + c.off + 4) 4 b.tag).load (G.base + b.off + 8) 4 = b.owner := by
    rw [Mem.load_store_of_disjoint (by omega)]
    exact hB.owner
  have h2 : ((m.store (G.base + c.off + 4) 4 b.tag).store (G.base + c.off + 8) 4 b.owner).load
      (G.base + b.off + 12) 4 = b.perms := by
    rw [Mem.load_store_of_disjoint (by omega), Mem.load_store_of_disjoint (by omega)]
    exact hB.perms
  have h3 : (((m.store (G.base + c.off + 4) 4 b.tag).store (G.base + c.off + 8) 4 b.owner).store
      (G.base + c.off + 12) 4 b.perms).load (G.base + b.off + 24) 8 = b.id := by
    rw [Mem.load_store_of_disjoint (by omega), Mem.load_store_of_disjoint (by omega),
      Mem.load_store_of_disjoint (by omega)]
    exact hB.id
  have h4 : ((((m.store (G.base + c.off + 4) 4 b.tag).store (G.base + c.off + 8) 4 b.owner).store
      (G.base + c.off + 12) 4 b.perms).store (G.base + c.off + 24) 8 b.id).load
        (G.base + c.off + 32) 8 = c.cap := by
    rw [Mem.load_store_of_disjoint (by omega), Mem.load_store_of_disjoint (by omega),
      Mem.load_store_of_disjoint (by omega), Mem.load_store_of_disjoint (by omega)]
    exact hC.cap
  refine Exec.load_bind hB.tag (by simp; omega) (.emit_bind
    (Exec.load_bind h1 (by simp; omega) (.emit_bind
      (Exec.load_bind h2 (by simp; omega) (.emit_bind
        (Exec.load_bind h3 (by simp; omega) (.emit_bind
          (Exec.load_bind h4 (by simp; omega) ?_))))))))
  exact .emit_bind .emit

theorem exec_retargetSlot (hL : LayoutOk G m) {i : Nat} (hC : BlkAt G m c)
    (hc : c.off + 56 ≤ G.heapSize) (hi : i < G.dirCap) :
    Exec G.size (retargetSlot (slotAddr i) (G.base + c.off)) m ()
      (retargetEvents i c.off c.cap) := by
  have hsz := G.size_eq
  have hs := G.slotAddr_lt hi
  have hcap : (m.store (slotAddr i + 56) 8 (c.off + 56)).load (G.base + c.off + 32) 8 = c.cap := by
    rw [Mem.load_store_of_disjoint (by omega)]
    exact hC.cap
  exact (exec_poffOfBlk hL hc).bind_nil (.emit_bind (Exec.load_bind hcap (by simp; omega) .emit))

end

section

variable {b f : Blk} {t i n : Nat} {pre' post' : List Blk}

theorem exec_finishResize {sz : Nat} (i n : Nat) :
    Exec sz (finishResize (slotAddr i) n) m .ok (finishEvents i n) :=
  .emit_bind (.emit_bind (.emit_bind (exec_unlockReturn _)))

theorem exec_finishInPlace (hB : BlkAt G m b) (hb : b.off + 56 ≤ G.heapSize)
    (n : Nat) :
    Exec G.size (finishInPlace (slotAddr i) (G.base + b.off) n) m .ok
      (inPlaceEvents i b.cap n) := by
  have hsz := G.size_eq
  exact Exec.load_bind hB.cap (by simp; omega) (.emit_bind (exec_finishResize i n))

/-- **Moving the object**, step by step: the payload is copied, and then the identity. -/
theorem HeapInv.exec_move {c : Blk} (h : HeapInv G m (pre ++ c :: post)) (hb : b ∈ pre ++ c :: post)
    (hne : b.off ≠ c.off) (hcap : b.cap ≤ c.cap) :
    Exec G.size (copyPayload (G.base + b.off) (G.base + c.off)) m () (copyEvents G b c) ∧
      Exec G.size (copyIdentity (G.base + b.off) (G.base + c.off)) (replay (copyEvents G b c) m) ()
        (adoptEvents G b c) := by
  have hcm : c ∈ pre ++ c :: post := by simp
  have hbb := h.bounds hb
  have hcb := h.bounds hcm
  have hcc := (h.wf c hcm).cap_le
  have hap := h.node_apart ⟨b, hb, rfl⟩ ⟨c, hcm, rfl⟩ hne
  -- the copy stays in the payload of `c`
  have hcopied := h.scribble (W := copyEvents G b c) hcm fun x hx => by
    have := writes_copyEvents hcap hx
    omega
  exact ⟨exec_copyPayload (h.blk b hb) (h.blk c hcm) (by omega) (by omega) hcc hcap,
    exec_copyIdentity (hcopied.blk b hb) (hcopied.blk c hcm) (by omega) (by omega) (by omega)⟩

namespace Relocates

section

variable (hr : Relocates bs b t pre f post pre' post') (h : Inv G m bs) (hb : b ∈ bs)
  (hl : b.live = true) (ht : 64 ≤ t) (ht8 : t % 8 = 0)
include hr h hb hl ht ht8

/-- **The old block is given back** when the object has moved. -/
theorem exec_release :
    Exec G.size (heapFreeBlock (G.base + b.off)) (replay (takeEvents G pre f post t (liveBytes bs)
        (liveBlks bs).length ++ moveEvents G b (taken f t)) m) ()
      (releaseEvents G pre' b post' (liveBytes bs + (taken f t).total)
        ((liveBlks bs).length + 1)) := by
  have hD := G.base_ge
  have hmoved := hr.moved_heap (liveBytes bs) (liveBlks bs).length h.heap hb hl ht ht8
  have hroom := h.heap.room f hr.mem hr.free
  have hdrop := liveBytes_drop pre' post' hl
  have hsum := hr.liveBytes_moved
  have hL : LayoutOk G (replay (takeEvents G pre f post t (liveBytes bs) (liveBlks bs).length ++
      moveEvents G b (taken f t)) m) := h.layout.of_writes fun x hx =>
    (hr.touchable h.heap hb ht (u := 0) (k := 0) (by
      rw [← List.append_assoc]
      exact writes_append.2 (.inl hx))).ge.1
  -- moving the object leaves the counters alone
  have hkeep : ∀ {a k : Nat}, a + k ≤ G.base → (replay (takeEvents G pre f post t (liveBytes bs)
      (liveBlks bs).length ++ moveEvents G b (taken f t)) m).load a k =
        (replay (takeEvents G pre f post t (liveBytes bs) (liveBlks bs).length) m).load a k :=
    fun ha => by
      rw [replay_append]
      refine load_replay fun x hx => .inr ?_
      have := (writes_moveEvents hr.cap_le (hr.taken_cap_le h.heap ht).1 hx).1
      omega
  exact exec_heapFreeBlock _ _ hL (Listed.around hmoved.toRep hl)
    ((hkeep (by omega)).trans (load_used_take hr.fits hroom))
    ((hkeep (by omega)).trans (load_count_take h.heap.count_lt)) (by omega) (by omega)

/-- **The slot is pointed at the new block** when the old one has been given back. -/
theorem exec_retarget (hi : i < G.dirCap) (used count : Nat) :
    Exec G.size (retargetSlot (slotAddr i) (G.base + f.off)) (replay (takeEvents G pre f post t
        (liveBytes bs) (liveBlks bs).length ++ (moveEvents G b (taken f t) ++
          releaseEvents G pre' b post' used count)) m) ()
      (retargetEvents i f.off (taken f t).cap) := by
  have hmoved := hr.moved_heap (liveBytes bs) (liveBlks bs).length h.heap hb hl ht ht8
  have hfreed := hmoved.release hl used count
  rw [← replay_append, List.append_assoc] at hfreed
  have hL : LayoutOk G (replay (takeEvents G pre f post t (liveBytes bs) (liveBlks bs).length ++
      (moveEvents G b (taken f t) ++ releaseEvents G pre' b post' used count)) m) :=
    h.layout.of_writes fun x hx => (hr.touchable h.heap hb ht hx).ge.1
  have hfb := h.heap.bounds hr.mem
  have hret := exec_retargetSlot hL
    (hfreed.blk _ (hr.adopted_mem_freed (hr.off_ne h.heap.toRep hb hl)))
    (by rw [Blk.adopted_off, taken_off]; omega) hi
  rwa [Blk.adopted_off, Blk.adopted_cap, taken_off] at hret

end

end Relocates

/-- **The relocation, once the space has been taken.** -/
theorem exec_relocateTo (h : Inv G m bs) (hr : Relocates bs b t pre f post pre' post')
    (hb : b ∈ bs) (hh : Holds G m i b) (ht : 64 ≤ t) (ht8 : t % 8 = 0) :
    Exec G.size (relocateTo (slotAddr i) (G.base + b.off) (G.base + f.off))
      (replay (takeEvents G pre f post t (liveBytes bs) (liveBlks bs).length) m) ()
      (moveEvents G b (taken f t) ++ (releaseEvents G pre' b post'
        (liveBytes bs + (taken f t).total) ((liveBlks bs).length + 1) ++
          retargetEvents i f.off (taken f t).cap)) := by
  have hne := hr.off_ne h.heap.toRep hb hh.live
  have htaken := (hr.split ▸ h.heap).take (liveBytes bs) (liveBlks bs).length hr.free ht ht8 hr.fits
  obtain ⟨hcopy, hadopt⟩ := HeapInv.exec_move htaken (mem_takeFree hr.free (hr.split ▸ hb) hh.live)
    (by rwa [taken_off]) hr.cap_le
  have hrelease := hr.exec_release h hb hh.live ht ht8
  have hretarget := hr.exec_retarget h hb hh.live ht ht8 hh.lt
    (liveBytes bs + (taken f t).total) ((liveBlks bs).length + 1)
  rw [taken_off] at hcopy hadopt
  rw [moveEvents, replay_append, replay_append] at hrelease
  rw [moveEvents, replay_append, replay_append, replay_append] at hretarget
  refine (hcopy.seq (hadopt.seq (hrelease.seq hretarget))).congr ?_
  simp only [moveEvents, List.append_assoc]

end

end ShmAlloc
