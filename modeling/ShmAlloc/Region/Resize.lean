import ShmAlloc.Region.Free

/-!
# `shm_resize`: shrinking, and growing in place

A resize that leaves the object where it is edits the heap, and then brings the slot up to date.
What the invariant needs to know of the edit is the same for shrinking and for growing, and is a
structure (`InPlace`); that the two edits have it is shown in the second half.

## What is here

* `InPlace`: a trace turns a block into another one of the same object, and what follows it into
  something with the same live blocks.
* `Touchable`: the bytes such an edit, or a relocation, may write.
* `Inv.inPlace` and `FullInv.inPlace`: **a resize in place keeps the region invariant**, and the ids
  in order.
* `InPlace.refl`, `InPlace.cutTail` and `InPlace.grow`: **leaving the heap alone, shrinking and
  growing into the neighbour are such edits.**
* `grownBlk` and `grownRest`: what growing leaves, with what was too much cut off again.
-/

set_option autoImplicit false

namespace ShmAlloc

open Tiling Links

variable {G : Geometry} {m m' : Mem} {bs pre post : List Blk}

/-! ## The effects -/

/-- The end of every successful resize. -/
def finishEvents (i n : Nat) : List Event :=
  [.store (slotAddr i + 72) 8 n, .persist (slotAddr i) 96, .drain, .unlock]

/-- A byte an in-place resize or a relocation of `b` may write, the slot aside. -/
def Touchable (G : Geometry) (bs : List Blk) (b : Blk) (x : Nat) : Prop :=
  88 ≤ x ∧ x < 112 ∨ InBlk G b x ∨ ∃ c ∈ bs, c.live = false ∧ InBlk G c x

/-- The events `W` turn the block `b` of a represented heap into `b'`, of the same object, and what
follows it into `post'`. -/
structure InPlace (G : Geometry) (m : Mem) (pre : List Blk) (b : Blk) (post : List Blk)
    (W : List Event) (b' : Blk) (post' : List Blk) : Prop where
  heap : HeapInv G (replay W m) (pre ++ b' :: post')
  off : b'.off = b.off
  live : b'.live = true
  id : b'.id = b.id
  owner : b'.owner = b.owner
  perms : b'.perms = b.perms
  tag : b'.tag = b.tag
  others : liveBlks post' = liveBlks post
  used : (replay W m).load 96 8 = liveBytes (pre ++ b' :: post')
  writes : ∀ x, Writes W x → Touchable G (pre ++ b :: post) b x ∧ ¬ (104 ≤ x ∧ x < 112)

/-- `slot->capacity = ...` and the end of a resize that did not move the block. -/
def inPlaceEvents (i cap n : Nat) : List Event :=
  .store (slotAddr i + 64) 8 cap :: finishEvents i n

theorem Touchable.ge {b : Blk} {x : Nat} (h : Touchable G bs b x) :
    88 ≤ x ∧ (x < 112 ∨ G.base ≤ x) := by
  have hD := G.base_ge
  rcases h with h | h | ⟨c, -, -, h⟩
  · omega
  · have := h.1
    omega
  · have := h.1
    omega

theorem writes_finishEvents {i n x : Nat} (h : Writes (finishEvents i n) x) :
    slotAddr i + 72 ≤ x ∧ x < slotAddr i + 80 := by
  simp only [finishEvents, writes_cons, not_writes_nil, Event.Touches, or_false] at h
  omega

theorem writes_inPlaceEvents {i cap n x : Nat} (h : Writes (inPlaceEvents i cap n) x) :
    slotAddr i + 64 ≤ x ∧ x < slotAddr i + 80 := by
  simp only [inPlaceEvents, finishEvents, writes_cons, not_writes_nil, Event.Touches,
    or_false] at h
  omega

/-! ## The updated entry

Only `capacity` and `used` of the slot change, and the latter must fit in the block. -/

theorem entryAt_inPlace {i cap n : Nat} (hcap : cap < 2 ^ 64) (hn : n < 2 ^ 64) (m : Mem) :
    entryAt (replay (inPlaceEvents i cap n) m) i = { entryAt m i with cap, used := n } := by
  have h8 : ∀ v < 2 ^ 64, v % 256 ^ 8 = v := fun v hv => Nat.mod_eq_of_lt hv
  simp only [inPlaceEvents, finishEvents, replay_cons, replay_nil, Event.act, entryAt]
  simp (disch := omega) only [Mem.load_store_same, Mem.load_store_of_disjoint, h8 _ hcap, h8 _ hn]

section

variable {b b' : Blk} {post' : List Blk} {i n : Nat} {W : List Event}

theorem inPlace_entry_other (hp : InPlace G m pre b post W b' post') {j : Nat}
    (hj : j < G.dirCap) (hji : j ≠ i) :
    entryAt (replay (W ++ inPlaceEvents i b'.cap n) m) j = entryAt m j :=
  entryAt_replay fun x hx hs => by
    have hb := hs.lt_base hj
    rcases writes_append.1 hx with hx | hx
    · have := (hp.writes x hx).1.ge
      omega
    · have := writes_inPlaceEvents hx
      exact hji (hs.eq (j := i) ⟨by omega, by omega⟩)

theorem inPlace_entry_self (hh : Holds G m i b)
    (hp : InPlace G m pre b post W b' post') (hn : n < 2 ^ 64) :
    entryAt (replay (W ++ inPlaceEvents i b'.cap n) m) i
      = { entryAt m i with cap := b'.cap, used := n } := by
  have hbb := hp.heap.bounds (show b' ∈ pre ++ b' :: post' by simp)
  have hcap := (hp.heap.wf b' (by simp)).cap_le
  have := G.size_lt
  have := G.size_eq
  have hent : entryAt (replay W m) i = entryAt m i := entryAt_replay fun x hx hs => by
    have := (hp.writes x hx).1.ge
    have := hs.lt_base hh.lt
    omega
  rw [replay_append, entryAt_inPlace (by omega) hn, hent]

/-- Exchanging a live block. -/
theorem liveBytes_swap (pre : List Blk) {post' : List Blk} (hb : b.live = true)
    (hb' : b'.live = true) (ho : liveBlks post' = liveBlks post) :
    liveBytes (pre ++ b' :: post') + b.total = liveBytes (pre ++ b :: post) + b'.total ∧
      (liveBlks (pre ++ b' :: post')).length = (liveBlks (pre ++ b :: post)).length := by
  simp only [liveBytes, liveBlks_append, liveBlks_cons_live hb, liveBlks_cons_live hb', ho,
    List.map_append, List.map_cons, List.sum_append, List.sum_cons, List.length_append,
    List.length_cons, and_true]
  omega

/-- **An in-place resize keeps the region invariant.** -/
theorem Inv.inPlace (h : Inv G m (pre ++ b :: post)) (hh : Holds G m i b)
    (hp : InPlace G m pre b post W b' post') (hn : n + 56 ≤ b'.total) :
    Inv G (replay (W ++ inPlaceEvents i b'.cap n) m) (pre ++ b' :: post') := by
  have hD := G.base_ge
  have hs := G.slotAddr_lt hh.lt
  have hs' := slotAddr_ge i
  have hbb := hp.heap.bounds (show b' ∈ pre ++ b' :: post' by simp)
  have hszlt := G.size_lt
  have hsz := G.size_eq
  have hswap := liveBytes_swap pre hh.live hp.live hp.others
  have hslot : ∀ x, Writes (inPlaceEvents i b'.cap n) x → 200 ≤ x ∧ x < G.base := fun x hx => by
    have := writes_inPlaceEvents hx
    omega
  refine ⟨h.layout.of_writes fun x hx => ?_, ⟨?_, hp.heap.coalesced⟩, ?_, ?_, ?_⟩
  · rcases writes_append.1 hx with hx | hx
    · exact (hp.writes x hx).1.ge.1
    · have := hslot x hx
      omega
  · rw [replay_append]
    exact hp.heap.of_header_writes fun x hx => by
      have := hslot x hx
      omega
  · rw [replay_append, load_replay fun x hx => .inr (by have := hslot x hx; omega)]
    exact hp.used
  · rw [load_replay fun x hx => ?_, h.count, hswap.2]
    rcases writes_append.1 hx with hx | hx
    · have := (hp.writes x hx).2
      omega
    · have := hslot x hx
      omega
  · refine h.dir.update (i := i) (fun j hj hji => inPlace_entry_other hp hj hji)
      (fun j c hj hji ha hc hl hm => ?_) fun _ => ?_
    · rcases h.mem_of_mirrors hh hj hji ha hc hm with hc | hc
      · simp [hc]
      · have := mem_liveBlks.2 ⟨hc, hl⟩
        rw [← hp.others] at this
        simp [(mem_liveBlks.1 this).1]
    · rw [inPlace_entry_self hh hp (by omega)]
      have hm := hh.mirrors
      refine ⟨⟨b', by simp, hp.live, ⟨hm.off.trans (by rw [hp.off]), hm.id.trans hp.id.symm,
        hm.owner.trans hp.owner.symm, hm.tag.trans hp.tag.symm, rfl, hn⟩⟩,
        fun j hj hji ha hoff => hji (h.dir.inj j i hj hh.lt ha hh.alive hoff)⟩

/-- **An in-place resize keeps ids in order.** -/
theorem FullInv.inPlace (h : FullInv G m (pre ++ b :: post)) (hh : Holds G m i b)
    (hp : InPlace G m pre b post W b' post') (hn : n + 56 ≤ b'.total) :
    FullInv G (replay (W ++ inPlaceEvents i b'.cap n) m) (pre ++ b' :: post') := by
  have hbb := hp.heap.bounds (show b' ∈ pre ++ b' :: post' by simp)
  have hszlt := G.size_lt
  have hsz := G.size_eq
  have hD := G.base_ge
  have hs' := slotAddr_ge i
  have hnext : nextIdOf (replay (W ++ inPlaceEvents i b'.cap n) m) = nextIdOf m :=
    load_replay fun x hx => by
      rcases writes_append.1 hx with hx | hx
      · have := (hp.writes x hx).1.ge
        omega
      · have := writes_inPlaceEvents hx
        omega
  have hself := inPlace_entry_self hh hp (show n < 2 ^ 64 by omega)
  refine ⟨h.toInv.inPlace hh hp hn, ?_⟩
  rw [hnext]
  refine h.ids.update hh.lt (fun j hj hji => inPlace_entry_other hp hj hji) (Nat.le_refl _)
    (fun _ => ?_) fun c hc hl => ?_
  · rw [hself]
    exact ⟨h.ids.id_pos i hh.lt hh.alive, h.ids.id_lt i hh.lt hh.alive, fun j hj hji ha hid =>
      hji (h.ids.distinct j i hj hh.lt ha hh.alive hid)⟩
  · have hold : c ∈ pre ∨ c ∈ post → ∃ d ∈ pre ++ b :: post, d.live = true ∧ d.off = c.off ∧
        d.perms = c.perms ∧ ((entryAt m i).alive = true → (entryAt m i).off ≠ d.off + 56) :=
      fun hc => ⟨c, by rcases hc with hc | hc <;> simp [hc], hl, rfl, rfl, fun _ hoff => by
        have h1 := h.heap.off_ne_of_mem hc
        have h2 := hh.mirrors.off
        omega⟩
    simp only [List.mem_append, List.mem_cons] at hc
    rcases hc with hc | rfl | hc
    · exact .inr (hold (.inl hc))
    · -- the resized block: its entry had the permissions of the block before
      obtain ⟨j, hj, ha, hoff, hperms⟩ := h.ids.onto b (by simp) hh.live
      have hji := h.dir.inj j i hj hh.lt ha hh.alive (hoff.trans hh.mirrors.off.symm)
      subst hji
      rw [hself]
      exact .inl ⟨ha, hoff.trans (by rw [hp.off]), hperms.trans hp.perms.symm⟩
    · have := mem_liveBlks.2 ⟨hc, hl⟩
      rw [hp.others] at this
      exact .inr (hold (.inr (mem_liveBlks.1 this).1))

end

/-! ## The two edits -/

section

variable {b c : Blk} {t used : Nat}

/-- **What cutting off a tail writes**: the list head and `used_bytes`, the header of the block, the
tail, and headers of free blocks. -/
theorem writes_cutTailEvents {x : Nat} (hb : b.live = true) (hrem : t + 64 ≤ b.total)
    (h : Writes (cutTailEvents G pre b post t used) x) :
    88 ≤ x ∧ x < 104 ∨ InHdr G b x ∨
      (G.base + b.off + t ≤ x ∧ x < G.base + b.off + b.total) ∨
      ∃ d ∈ pre ++ post, d.live = false ∧ InHdr G d x := by
  have htail : InHdr G (b.tail t) x →
      G.base + b.off + t ≤ x ∧ x < G.base + b.off + b.total := fun hx => by
    obtain ⟨h1, h2⟩ := hx
    rw [Blk.tail_off] at h1 h2
    omega
  rcases writes_append.1 h with h | h
  · rcases writes_trimEvents h with h | h | h
    · exact .inl (by omega)
    · exact .inr (.inl h)
    · exact .inr (.inr (.inl (htail h)))
  · rcases writes_insertEvents h with h | ⟨d, hd, hl, hx⟩
    · exact .inl (by omega)
    · simp only [Blk.tail_freed, List.append_assoc, List.mem_append, List.mem_cons,
        List.not_mem_nil, or_false] at hd
      rcases hd with hd | rfl | rfl | hd
      · exact .inr (.inr (.inr ⟨d, by simp [hd], hl, hx⟩))
      · rw [Blk.resized_live, hb] at hl
        exact Bool.noConfusion hl
      · exact .inr (.inr (.inl (htail hx)))
      · exact .inr (.inr (.inr ⟨d, by simp [hd], hl, hx⟩))

theorem load_used_cutTail (hu : used < 2 ^ 64) :
    (replay (cutTailEvents G pre b post t used) m).load 96 8 = used - (b.total - t) := by
  have hD := G.base_ge
  rw [cutTailEvents, replay_append, load_replay fun x hx => ?_]
  · simp only [trimEvents, cutEvents, replay_append, replay_cons, replay_nil, Event.act]
    rw [Mem.load_store_of_disjoint (by omega), Mem.load_store_of_disjoint (by omega),
      Mem.load_store_same]
    exact Nat.mod_eq_of_lt (show used - (b.total - t) < 2 ^ 64 by omega)
  · rcases writes_insertEvents hx with hx | ⟨d, -, -, hx⟩
    · omega
    · have := hx.1
      omega

/-- A header of a free block is touchable. -/
theorem Rep.touchable_of_hdr {fl : List Nat} {x : Nat} (h : Rep G m bs fl)
    (hx : ∃ d ∈ bs, d.live = false ∧ InHdr G d x) : Touchable G bs b x := by
  obtain ⟨d, hd, hl, hx⟩ := hx
  exact .inr (.inr ⟨d, hd, hl, h.inBlk_of_inHdr hd hx⟩)

/-- Not cutting anything off is an in-place edit. -/
theorem InPlace.refl (h : Inv G m (pre ++ b :: post)) (hb : b.live = true) :
    InPlace G m pre b post [] b post :=
  ⟨h.heap, rfl, hb, rfl, rfl, rfl, rfl, rfl, h.used, fun x hx => absurd hx (not_writes_nil x)⟩

theorem liveBlks_absorbTail (b : Blk) (t : Nat) (post : List Blk) :
    liveBlks (absorbNext (b.tail t) post) = liveBlks post := by
  have := liveBlks_insertFree (b := b.tail t) rfl [] post
  rw [insertFree] at this
  obtain ⟨c, rest, he, -⟩ := absorbNext_eq_cons (b.tail t) post
  rw [he] at this ⊢
  exact this

/-- **Shrinking** with a tail is an in-place edit. -/
theorem InPlace.cutTail (h : Inv G m (pre ++ b :: post)) (hb : b.live = true) (ht : 64 ≤ t)
    (ht8 : t % 8 = 0) (hrem : t + 64 ≤ b.total) :
    InPlace G m pre b post (cutTailEvents G pre b post t (liveBytes (pre ++ b :: post)))
      (b.resized t) (absorbNext (b.tail t) post) := by
  have hD := G.base_ge
  have hbm : b ∈ pre ++ b :: post := by simp
  have hrep := Listed.around h.heap.toRep hb
  have hc := coalesced_append.1 h.heap.coalesced
  have hwr : ∀ x, Writes (cutTailEvents G pre b post t (liveBytes (pre ++ b :: post))) x →
      Touchable G (pre ++ b :: post) b x ∧ ¬ (104 ≤ x ∧ x < 112) := fun x hx => by
    rcases writes_cutTailEvents hb hrem hx with hx | hx | hx | ⟨d, hd, hl, hx⟩
    · exact ⟨.inl (by omega), by omega⟩
    · have := hrep.inBlk_of_inHdr hbm hx
      exact ⟨.inr (.inl this), by have := this.1; omega⟩
    · exact ⟨.inr (.inl ⟨by omega, hx.2⟩), by omega⟩
    · refine ⟨hrep.touchable_of_hdr ⟨d, ?_, hl, hx⟩, by have := hx.1; omega⟩
      rcases List.mem_append.1 hd with hd | hd <;> simp [hd]
  refine ⟨⟨hrep.cutTail hb ht ht8 hrem, coalesced_cutTail hb hc.1 (coalesced_cons.1 hc.2.1).2⟩,
    rfl, hb, rfl, rfl, rfl, rfl, liveBlks_absorbTail b t post, ?_, hwr⟩
  have hle := h.heap.liveBytes_le
  have h1 := G.size_lt
  have h2 := G.size_eq
  have hbl := total_le_liveBytes hbm hb
  have hb' : (b.resized t).live = true := hb
  have hswap := (liveBytes_swap pre hb hb' (liveBlks_absorbTail b t post)).1
  rw [Blk.resized_total] at hswap
  rw [load_used_cutTail (by omega)]
  omega

/-- **What growing in place writes**: the list head and `used_bytes`, the headers of the block and
its neighbour, the part of the neighbour that is cut off again, and headers of free blocks. -/
theorem writes_growEvents {x : Nat} (hb : b.live = true) (hc : c.live = false)
    (hbc : c.off = b.off + b.total) (h : Writes (growEvents G pre b c post t used) x) :
    88 ≤ x ∧ x < 104 ∨ InHdr G b x ∨ InHdr G c x ∨
      (G.base + b.off + t ≤ x ∧ x < G.base + c.off + c.total) ∨
      ∃ d ∈ pre ++ post, d.live = false ∧ InHdr G d x := by
  simp only [growEvents, writes_append] at h
  rcases h with h | h | h | h
  · rcases writes_removeEvents hc h with h | ⟨d, hd, hl, hx⟩
    · exact .inl (by omega)
    · simp only [List.append_assoc, List.mem_append, List.mem_cons, List.not_mem_nil,
        or_false] at hd
      rcases hd with hd | rfl | rfl | hd
      · exact .inr (.inr (.inr (.inr ⟨d, by simp [hd], hl, hx⟩)))
      · rw [hb] at hl
        exact Bool.noConfusion hl
      · exact .inr (.inr (.inl hx))
      · exact .inr (.inr (.inr (.inr ⟨d, by simp [hd], hl, hx⟩)))
  · rcases writes_swallowEvents h with h | h | h
    · exact .inl (by omega)
    · exact .inr (.inl h)
    · exact .inr (.inr (.inl h))
  · rw [trimGrownEvents] at h
    split at h
    · rename_i hrem
      rcases writes_cutTailEvents (b := swallowed b c) hb (by omega) h with h | h | h | h
      · exact .inl h
      · exact .inr (.inl h)
      · refine .inr (.inr (.inr (.inl ?_)))
        have h1 : (swallowed b c).off = b.off := rfl
        have h2 : (swallowed b c).total = b.total + c.total := rfl
        omega
      · exact .inr (.inr (.inr (.inr h)))
    · simp [Event.Touches] at h
  · simp [Event.Touches] at h

theorem load_used_grow (hu : used + c.total < 2 ^ 64) :
    (replay (growEvents G pre b c post t used) m).load 96 8
      = if 64 ≤ b.total + c.total - t then used + c.total - (b.total + c.total - t)
        else used + c.total := by
  have hD := G.base_ge
  have hsw : (swallowed b c).total = b.total + c.total := rfl
  simp only [growEvents, replay_append, replay_cons, replay_nil, Event.act, trimGrownEvents, hsw]
  split
  · rw [load_used_cutTail hu, hsw]
  · simp only [swallowEvents, cutEvents, replay_cons, replay_append, replay_nil, Event.act]
    simp (disch := omega) only [Mem.load_store_same, Mem.load_store_of_disjoint]
    exact Nat.mod_eq_of_lt hu

/-- The block an in-place growth leaves. -/
def grownBlk (b c : Blk) (t : Nat) : Blk :=
  if 64 ≤ b.total + c.total - t then (swallowed b c).resized t else swallowed b c

/-- What follows the block after an in-place growth. -/
def grownRest (b c : Blk) (t : Nat) (post : List Blk) : List Blk :=
  if 64 ≤ b.total + c.total - t then absorbNext ((swallowed b c).tail t) post else post

theorem trimmed_swallowed (b c : Blk) (t : Nat) (post : List Blk) :
    trimmed (swallowed b c) t post = grownBlk b c t :: grownRest b c t post := by
  have hsw : (swallowed b c).total = b.total + c.total := rfl
  rw [trimmed, grownBlk, grownRest, hsw]
  split <;> rfl

/-- **Growing into the free neighbour** is an in-place edit. -/
theorem InPlace.grow (h : Inv G m (pre ++ b :: c :: post)) (hb : b.live = true)
    (hc : c.live = false) (ht : 64 ≤ t) (ht8 : t % 8 = 0) (hle : t ≤ b.total + c.total) :
    InPlace G m pre b (c :: post)
      (growEvents G pre b c post t (liveBytes (pre ++ b :: c :: post)))
      (grownBlk b c t) (grownRest b c t post) := by
  have hD := G.base_ge
  have hbm : b ∈ pre ++ b :: c :: post := by simp
  have hcm : c ∈ pre ++ b :: c :: post := by simp
  have hrep := h.heap.toRep
  have hbc : c.off = b.off + b.total := (tiles_mid.1 hrep.tiles).2.1
  have hco := coalesced_append.1 h.heap.coalesced
  have hco2 := coalesced_cons.1 (coalesced_cons.1 hco.2.1).2
  have hroom := h.heap.room c hcm hc
  have hsw : (swallowed b c).live = true := hb
  have hothers : liveBlks (grownRest b c t post) = liveBlks (c :: post) := by
    rw [liveBlks_cons_free hc, grownRest]
    split
    · exact liveBlks_absorbTail _ t post
    · rfl
  have hlive : (grownBlk b c t).live = true := by
    rw [grownBlk]
    split <;> exact hb
  have hcoal : Coalesced (pre ++ grownBlk b c t :: grownRest b c t post) := by
    rw [grownBlk, grownRest]
    split
    · exact coalesced_cutTail hsw hco.1 hco2.2
    · refine coalesced_append.2 ⟨hco.1, coalesced_cons.2 ⟨fun d _ => .inl hb, hco2.2⟩,
        fun d _ e he => ?_⟩
      simp only [List.head?_cons, Option.mem_some_iff] at he
      subst he
      exact .inr hb
  have hwr : ∀ x, Writes (growEvents G pre b c post t (liveBytes (pre ++ b :: c :: post))) x →
      Touchable G (pre ++ b :: c :: post) b x ∧ ¬ (104 ≤ x ∧ x < 112) := fun x hx => by
    rcases writes_growEvents hb hc hbc hx with hx | hx | hx | hx | ⟨d, hd, hl, hx⟩
    · exact ⟨.inl (by omega), by omega⟩
    · have := hrep.inBlk_of_inHdr hbm hx
      exact ⟨.inr (.inl this), by have := this.1; omega⟩
    · exact ⟨hrep.touchable_of_hdr ⟨c, hcm, hc, hx⟩, by have := hx.1; omega⟩
    · refine ⟨.inr ?_, by omega⟩
      by_cases hlt : x < G.base + b.off + b.total
      · exact .inl ⟨by omega, hlt⟩
      · exact .inr ⟨c, hcm, hc, by omega, hx.2⟩
    · refine ⟨hrep.touchable_of_hdr ⟨d, ?_, hl, hx⟩, by have := hx.1; omega⟩
      rcases List.mem_append.1 hd with hd | hd <;> simp [hd]
  refine ⟨⟨?_, hcoal⟩, ?_, hlive, ?_, ?_, ?_, ?_, hothers, ?_, hwr⟩
  · rw [← trimmed_swallowed]
    exact Rep.grow hrep hb hc ht ht8 hle
  · rw [grownBlk]
    split <;> rfl
  · rw [grownBlk]
    split <;> rfl
  · rw [grownBlk]
    split <;> rfl
  · rw [grownBlk]
    split <;> rfl
  · rw [grownBlk]
    split <;> rfl
  · have hswap := (liveBytes_swap pre hb hlive hothers).1
    have hbl := total_le_liveBytes hbm hb
    rw [load_used_grow hroom]
    rw [grownBlk] at hswap ⊢
    split <;> rename_i hrem
    · rw [if_pos hrem] at hswap
      have : ((swallowed b c).resized t).total = t := rfl
      omega
    · rw [if_neg hrem] at hswap
      have : (swallowed b c).total = b.total + c.total := rfl
      omega

theorem le_grownBlk_total (hle : t ≤ b.total + c.total) : t ≤ (grownBlk b c t).total := by
  rw [grownBlk]
  split
  · exact Nat.le_refl _
  · exact hle

end

end ShmAlloc
