import ShmAlloc.Heap.Insert

/-!
# Taking blocks from the free list

`heap_alloc_block` run on a memory that represents a heap.  It takes the first free block that is
large enough.  What that block becomes is `taken`, and what is left of it `remnant`: a fresh free
block if the rest can hold one, and nothing otherwise, the rest being absorbed.

As for insertion, the effects are lists of events built from the abstract heap (`takeEvents`), and
each stage of the operation has a lemma about the heap it leaves.

## What is here

* `Rep.cut`: a block is cut in two, once the header of the second part is in place.  It is shared
  with the tails of `shm_resize`, whose header holds different fields.
* `Rep.detach` and `Rep.mark`: the block leaves the list, and gets its tag bit.  Between the two the
  heap is represented, but with a block that is neither allocated nor listed.
* `HeapInv.take`: **what the finished operation leaves**, that is `takeFree`.
* `writes_takeEvents`: it writes the three heap counters and free blocks only.
* `exec_heapAllocBlock`: **the code is first fit**.  It fails without an effect if every free block
  is too small, and takes the first one that is not otherwise.

The walk is an induction over the blocks behind the cursor.  `FirstFits` is what is claimed of it,
and `exec_firstFit_hit` and `exec_firstFit_miss` are its two kinds of step.
-/

set_option autoImplicit false

namespace ShmAlloc

open Tiling Links

variable {G : Geometry} {m m' : Mem} {bs pre post : List Blk} {fl : List Nat}

/-! ## Cutting a block in two

A block is cut by writing the header of the second part and then the size of the first.  The order
matters only for a crash; here both stores are in the past. -/

/-- The header of the remainder, as `heap_alloc_block` writes it. -/
def freshEvents (p t next : Nat) : List Event :=
  [.store p 4 SHM_ALLOC_MAGIC_BLOCK, .store (p + 4) 4 0, .store (p + 8) 4 0, .store (p + 12) 4 0,
    .store (p + 16) 1 0, .store (p + 24) 8 0, .store (p + 32) 8 (t - 56), .store (p + 40) 8 t,
    .store (p + 48) 8 next]

/-- The header of a tail fragment, as `shm_resize` writes it. -/
def tailEvents (p t : Nat) : List Event :=
  [.store p 4 SHM_ALLOC_MAGIC_BLOCK, .store (p + 16) 1 0, .store (p + 24) 8 0, .store (p + 8) 4 0,
    .store (p + 12) 4 0, .store (p + 4) 4 0, .store (p + 40) 8 t, .store (p + 32) 8 (t - 56),
    .store (p + 48) 8 0]

/-- The block at `p` is given the size `t`. -/
def cutEvents (p t : Nat) : List Event := [.store (p + 40) 8 t, .store (p + 32) 8 (t - 56)]

theorem writes_freshEvents {p t n x : Nat} (h : Writes (freshEvents p t n) x) :
    p ≤ x ∧ x < p + 56 := by
  simp only [freshEvents, writes_cons, not_writes_nil, Event.Touches, or_false] at h
  omega

theorem writes_tailEvents {p t x : Nat} (h : Writes (tailEvents p t) x) : p ≤ x ∧ x < p + 56 := by
  simp only [tailEvents, writes_cons, not_writes_nil, Event.Touches, or_false] at h
  omega

theorem writes_cutEvents {p t x : Nat} (h : Writes (cutEvents p t) x) :
    p + 32 ≤ x ∧ x < p + 48 := by
  simp only [cutEvents, writes_cons, not_writes_nil, Event.Touches, or_false] at h
  omega

theorem blkAt_freshEvents {o t : Nat} (ht : t < 2 ^ 64) (n : Nat) :
    BlkAt G (replay (freshEvents (G.base + o) t n) m) (Blk.fresh o t) := by
  have ht' : (t - 56) % 256 ^ 8 = t - 56 := Nat.mod_eq_of_lt (Nat.lt_of_le_of_lt (Nat.sub_le ..) ht)
  have ht'' : t % 256 ^ 8 = t := Nat.mod_eq_of_lt ht
  simp only [freshEvents, replay_cons, replay_nil, Event.act]
  refine .intro ?_ ?_ ?_ ?_ ?_ ?_ ?_ ?_ <;>
    simp (disch := omega) only [Blk.fresh, Mem.load_store_same, Mem.load_store_of_disjoint, ht',
      ht''] <;> rfl

theorem blkAt_tailEvents {o t : Nat} (ht : t < 2 ^ 64) :
    BlkAt G (replay (tailEvents (G.base + o) t) m) (Blk.fresh o t) := by
  have ht' : (t - 56) % 256 ^ 8 = t - 56 := Nat.mod_eq_of_lt (Nat.lt_of_le_of_lt (Nat.sub_le ..) ht)
  have ht'' : t % 256 ^ 8 = t := Nat.mod_eq_of_lt ht
  simp only [tailEvents, replay_cons, replay_nil, Event.act]
  refine .intro ?_ ?_ ?_ ?_ ?_ ?_ ?_ ?_ <;>
    simp (disch := omega) only [Blk.fresh, Mem.load_store_same, Mem.load_store_of_disjoint, ht',
      ht''] <;> rfl

/-- **A block is cut in two** once the header of the second part is in place. -/
theorem Rep.cut {b : Blk} {t : Nat} (h : Rep G m (pre ++ b :: post) fl) (ht : 64 ≤ t)
    (ht8 : t % 8 = 0) (hrem : t + 64 ≤ b.total)
    (htail : BlkAt G m (Blk.fresh (b.off + t) (b.total - t))) :
    Rep G (replay (cutEvents (G.base + b.off) t) m)
      (pre ++ b.resized t :: Blk.fresh (b.off + t) (b.total - t) :: post) fl := by
  have hbm : b ∈ pre ++ b :: post := by simp
  have hB := h.blk b hbm
  have hbb := h.bounds hbm
  have hwf := h.wf b hbm
  have hsz := G.size_eq
  have hlt := G.size_lt
  refine h.carve rfl rfl ?_ (hwf.resized ht) (Blk.fresh_wf ?_ (by omega)) ?_ (htail.congr ?_)
    fun x hx => ?_
  · simp only [Blk.resized_total, Blk.fresh_total]
    omega
  · have := hwf.aligned
    omega
  · have ht' : (t - 56) % 256 ^ 8 = t - 56 :=
      Nat.mod_eq_of_lt (show t - 56 < 2 ^ 64 by omega)
    have ht'' : t % 256 ^ 8 = t := Nat.mod_eq_of_lt (show t < 2 ^ 64 by omega)
    simp only [cutEvents, replay_cons, replay_nil, Event.act]
    refine .intro ?_ ?_ ?_ ?_ ?_ ?_ ?_ ?_ <;>
      simp (disch := omega) only [Blk.resized, Mem.load_store_same, Mem.load_store_of_disjoint,
        ht', ht'']
    · exact hB.magic
    · exact hB.tag
    · exact hB.owner
    · exact hB.perms
    · exact hB.live
    · exact hB.id
  · intro x h1 h2
    refine replay_of_not_writes (fun hw => ?_) m
    have := writes_cutEvents hw
    rw [Blk.fresh_off] at h1
    omega
  · refine replay_of_not_writes (fun hw => ?_) m
    have := writes_cutEvents hw
    omega

/-! ## First fit -/

/-- First fit either finds all free blocks too small or a first one that is not. -/
theorem firstFit_cases (need : Nat) (bs : List Blk) :
    (∀ c ∈ bs, c.live = false → c.total < need) ∨ ∃ pre b post, bs = pre ++ b :: post ∧
      b.live = false ∧ need ≤ b.total ∧ ∀ c ∈ pre, c.live = false → c.total < need := by
  induction bs with
  | nil => exact .inl (by simp)
  | cons c cs ih =>
    by_cases hc : c.live = false ∧ need ≤ c.total
    · exact .inr ⟨[], c, cs, rfl, hc.1, hc.2, by simp⟩
    · have hsmall : c.live = false → c.total < need := fun hl =>
        Nat.lt_of_not_le fun hle => hc ⟨hl, hle⟩
      rcases ih with ih | ⟨pre, b, post, rfl, hb, hn, hpre⟩
      · refine .inl fun d hd => ?_
        rcases List.mem_cons.1 hd with rfl | hd
        · exact hsmall
        · exact ih d hd
      · refine .inr ⟨c :: pre, b, post, rfl, hb, hn, fun d hd => ?_⟩
        rcases List.mem_cons.1 hd with rfl | hd
        · exact hsmall
        · exact hpre d hd

/-- The free block `b` once it is cut down to `need` bytes, or left whole. -/
def detached (b : Blk) (need : Nat) : Blk := if 64 ≤ b.total - need then b.resized need else b

/-- What becomes of the free block `b` when `need` bytes are taken from it. -/
def taken (b : Blk) (need : Nat) : Blk := { detached b need with live := true }

/-- What stays free of `b`. -/
def remnant (b : Blk) (need : Nat) : List Blk :=
  if 64 ≤ b.total - need then [Blk.fresh (b.off + need) (b.total - need)] else []

@[simp] theorem detached_off (b : Blk) (need : Nat) : (detached b need).off = b.off := by
  rw [detached]
  split <;> rfl

@[simp] theorem taken_off (b : Blk) (need : Nat) : (taken b need).off = b.off := detached_off b need

@[simp] theorem taken_live (b : Blk) (need : Nat) : (taken b need).live = true := rfl

@[simp] theorem taken_total (b : Blk) (need : Nat) :
    (taken b need).total = (detached b need).total := rfl

theorem detached_total_ge {b : Blk} {need : Nat} (h : need ≤ b.total) :
    need ≤ (detached b need).total := by
  rw [detached]
  split
  · exact Nat.le_refl _
  · exact h

theorem detached_total_le {b : Blk} {need : Nat} (h : need ≤ b.total) :
    (detached b need).total ≤ b.total := by
  rw [detached]
  split
  · exact h
  · exact Nat.le_refl _

theorem detached_wf {b : Blk} {need : Nat} (h : b.WF) (hn : 64 ≤ need) :
    (detached b need).WF := by
  rw [detached]
  split
  · exact h.resized hn
  · exact h

/-- `heap_alloc_block` on the fitting block `b`: split it or not. -/
def detachEvents (G : Geometry) (pre : List Blk) (b : Blk) (post : List Blk) (need : Nat) :
    List Event :=
  if 64 ≤ b.total - need then
    freshEvents (G.base + (b.off + need)) (b.total - need) (firstLink (freeOffs post)) ++
      (cutEvents (G.base + b.off) need ++
        [.persist (G.base + (b.off + need)) 56,
          .store (linkAddr G (lastLink 0 (freeOffs pre))) 8 (b.off + need + 1)])
  else [.store (linkAddr G (lastLink 0 (freeOffs pre))) 8 (firstLink (freeOffs post))]

/-- `heap_alloc_block` on the block it has detached, `t` bytes large. -/
def markEvents (G : Geometry) (b : Blk) (t used count : Nat) : List Event :=
  [.store (G.base + b.off + 16) 1 1, .store (G.base + b.off + 48) 8 0,
    .store 96 8 (used + t), .store 104 8 (count + 1), .persist (G.base + b.off) 56,
    .persist 88 24]

/-- Everything `heap_alloc_block` does when `b` is the first block that fits. -/
def takeEvents (G : Geometry) (pre : List Blk) (b : Blk) (post : List Blk)
    (need used count : Nat) : List Event :=
  detachEvents G pre b post need ++ markEvents G b (detached b need).total used count

/-- The heap after an allocation. -/
def takeFree (pre : List Blk) (b : Blk) (post : List Blk) (need : Nat) : List Blk :=
  pre ++ taken b need :: (remnant b need ++ post)

/-- A live block is still there after an allocation. -/
theorem mem_takeFree {b f : Blk} {t : Nat} (hf : f.live = false) (hb : b ∈ pre ++ f :: post)
    (hl : b.live = true) : b ∈ takeFree pre f post t := by
  simp only [List.mem_append, List.mem_cons] at hb
  simp only [takeFree, List.mem_append, List.mem_cons]
  rcases hb with hb | rfl | hb
  · exact .inl hb
  · exact absurd (hl.symm.trans hf) (by decide)
  · exact .inr (.inr (.inr hb))

/-- A header inside the payload of a free block may be written freely. -/
theorem Rep.scribble {b : Blk} {W : List Event} (h : Rep G m bs fl) (hb : b ∈ bs)
    (hW : ∀ x, Writes W x → G.base + b.off + 56 ≤ x ∧ x < G.base + b.off + b.total) :
    Rep G (replay W m) bs fl := by
  have hD := G.base_ge
  refine h.of_writes fun x hx => ⟨?_, fun c hc => ?_⟩
  · have := hW x hx
    omega
  · exact h.not_inHdr_of_payload hb hc (hW x hx).1 (hW x hx).2

/-- **Detaching** the free block `b`: it leaves the list, and the rest it does not need, if that
can be a block, takes its place. -/
theorem Rep.detach {b : Blk} {need : Nat} (h : Listed G m (pre ++ b :: post))
    (hb : b.live = false) (hn : 64 ≤ need) (hn8 : need % 8 = 0) (hle : need ≤ b.total) :
    Rep G (replay (detachEvents G pre b post need) m)
      (pre ++ detached b need :: (remnant b need ++ post))
      (freeOffs pre ++ freeOffs (remnant b need ++ post)) := by
  have hbm : b ∈ pre ++ b :: post := by simp
  have hbb := h.bounds hbm
  have hsz := G.size_eq
  have hlt := G.size_lt
  have hs := h.freeOffs_lt
  rw [freeOffs_append, freeOffs_cons_free hb] at hs
  have hs1 := List.pairwise_append.1 hs
  have hlist : freeOffs (pre ++ b :: post) = freeOffs pre ++ b.off :: freeOffs post := by
    rw [freeOffs_append, freeOffs_cons_free hb]
  have hnx : (freeOffs pre).Nodup := hs1.1.imp Nat.ne_of_lt
  have hapart : ∀ o ∈ freeOffs post, o ∉ freeOffs pre := fun o ho hx =>
    Nat.lt_irrefl _ (hs1.2.2 o hx o (by simp [ho]))
  have hlt' : firstLink (freeOffs post) < 2 ^ 64 :=
    h.firstLink_lt fun o ho => mem_off_of_mem_freeOffs (by
      rw [hlist]
      simp [ho])
  rw [detachEvents, detached, remnant]
  by_cases hrem : 64 ≤ b.total - need
  · simp only [if_pos hrem, replay_append, replay_cons, replay_nil, List.cons_append,
      List.nil_append]
    -- the header of the remainder lies in the payload of `b`
    have h1 := Rep.scribble (W := freshEvents (G.base + (b.off + need)) (b.total - need)
      (firstLink (freeOffs post))) h hbm fun x hx => by
        have := writes_freshEvents hx
        omega
    have h2 := h1.cut hn hn8 (by omega) (blkAt_freshEvents (by omega) _)
    have hmem : Blk.fresh (b.off + need) (b.total - need) ∈
        pre ++ b.resized need :: Blk.fresh (b.off + need) (b.total - need) :: post := by simp
    rw [freeOffs_cons_free rfl, Blk.fresh_off]
    rw [hlist] at h2
    refine h2.setLink hnx (fun o ho => ?_) ⟨rfl, ?_⟩ (by omega) rfl
    · rcases List.mem_cons.1 ho with rfl | ho
      · refine ⟨fun hx => ?_, _, hmem, rfl⟩
        have := hs1.2.2 _ hx b.off (by simp)
        omega
      · obtain ⟨c, hc, rfl⟩ := mem_off_of_mem_freeOffs ho
        exact ⟨hapart _ ho, c, by simp [hc], rfl⟩
    · have hnext : nextAt G (replay (cutEvents (G.base + b.off) need)
          (replay (freshEvents (G.base + (b.off + need)) (b.total - need)
            (firstLink (freeOffs post))) m)) (b.off + need) = firstLink (freeOffs post) := by
        simp only [cutEvents, freshEvents, replay_cons, replay_nil, Event.act, nextAt]
        rw [Mem.load_store_of_disjoint (by omega), Mem.load_store_of_disjoint (by omega),
          Mem.load_store_same]
        exact Nat.mod_eq_of_lt hlt'
      rw [hnext]
      rw [show b.off :: freeOffs post = [b.off] ++ freeOffs post by rfl] at h2
      rw [← List.append_assoc] at h2
      exact h2.links.split.2
  · simp only [if_neg hrem, List.nil_append, replay_cons, replay_nil]
    have h' : Rep G m (pre ++ b :: post) (freeOffs pre ++ b.off :: freeOffs post) := hlist ▸ h
    refine h'.setLink hnx (fun o ho => ?_) ?_ hlt' rfl
    · obtain ⟨c, hc, rfl⟩ := mem_off_of_mem_freeOffs ho
      exact ⟨hapart _ ho, c, by simp [hc], rfl⟩
    · rw [show b.off :: freeOffs post = [b.off] ++ freeOffs post by rfl, ← List.append_assoc] at h'
      exact h'.links.split.2

/-- **Setting the tag bit** of a block that is not on the list. -/
theorem Rep.mark {b : Blk} (t used count : Nat) (h : Rep G m (pre ++ b :: post) fl)
    (hfl : b.off ∉ fl) :
    Rep G (replay (markEvents G b t used count) m) (pre ++ { b with live := true } :: post) fl := by
  have hbm : b ∈ pre ++ b :: post := by simp
  have hB := h.blk b hbm
  have hwf := h.wf b hbm
  have hbb := h.bounds hbm
  have hD := G.base_ge
  have h1 : Rep G (m.store (G.base + b.off + 16) 1 1) (pre ++ { b with live := true } :: post)
      fl := by
    refine h.modify rfl rfl ⟨hwf.aligned, hwf.min, hwf.cap_le⟩ ?_ fun x hx => ?_
    · refine .intro ?_ ?_ ?_ ?_ ?_ ?_ ?_ ?_ <;>
        simp (disch := omega) only [Mem.load_store_same, Mem.load_store_of_disjoint]
      · exact hB.magic
      · exact hB.tag
      · exact hB.owner
      · exact hB.perms
      · rfl
      · exact hB.id
      · exact hB.cap
      · exact hB.total
    · exact Mem.store_of_outside (by omega)
  have h2 := h1.setFreeNext (b := { b with live := true }) (v := 0) (by simp) hfl rfl
  -- the counters are in the region header, the write-backs change nothing
  refine h2.of_writes (W := [.store 96 8 (used + t), .store 104 8 (count + 1),
    .persist (G.base + b.off) 56, .persist 88 24]) fun x hx => ?_
  simp only [writes_cons, not_writes_nil, Event.Touches, or_false] at hx
  refine ⟨by omega, fun c hc hin => ?_⟩
  have := hin.1
  omega

/-- What is left free of a block is free. -/
theorem liveBlks_remnant (b : Blk) (need : Nat) : liveBlks (remnant b need) = [] := by
  rw [remnant]
  split <;> rfl

theorem coalesced_takeFree {b : Blk} (h : Coalesced (pre ++ b :: post)) (hb : b.live = false)
    (need : Nat) : Coalesced (takeFree pre b post need) := by
  have h1 := coalesced_append.1 h
  have h2 := coalesced_cons.1 h1.2.1
  have hpost : ∀ c ∈ post.head?, c.live = true := fun c hc => by simpa [hb] using h2.1 c hc
  refine coalesced_append.2 ⟨h1.1, coalesced_cons.2 ⟨fun c _ => .inl (taken_live b need), ?_⟩,
    fun p _ c hc => ?_⟩
  · rw [remnant]
    split
    · exact coalesced_cons.2 ⟨fun c hc => .inr (hpost c hc), h2.2⟩
    · exact h2.2
  · simp only [List.head?_cons, Option.mem_some_iff] at hc
    subst hc
    exact .inr (taken_live b need)

/-- **What `heap_alloc_block` leaves.** -/
theorem HeapInv.take {b : Blk} {need : Nat} (used count : Nat)
    (h : HeapInv G m (pre ++ b :: post)) (hb : b.live = false) (hn : 64 ≤ need)
    (hn8 : need % 8 = 0) (hle : need ≤ b.total) :
    HeapInv G (replay (takeEvents G pre b post need used count) m)
      (takeFree pre b post need) := by
  have h1 := Rep.detach h.toRep hb hn hn8 hle
  have h2 := h1.mark (detached b need).total used count h1.off_not_mem_freeOffs
  refine ⟨?_, coalesced_takeFree h.coalesced hb need⟩
  rw [takeEvents, replay_append, takeFree, freeOffs_mid_live (taken_live b need)]
  simpa [markEvents, taken] using h2

/-- The first block that fits is unique. -/
theorem firstFit_unique {bs pre₁ post₁ pre₂ post₂ : List Blk} {f g : Blk} {t : Nat}
    (hf : bs = pre₁ ++ f :: post₁) (hg : bs = pre₂ ++ g :: post₂) (hfl : f.live = false)
    (hgl : g.live = false) (hft : t ≤ f.total) (hgt : t ≤ g.total)
    (hf1 : ∀ c ∈ pre₁, c.live = false → c.total < t)
    (hg1 : ∀ c ∈ pre₂, c.live = false → c.total < t) : pre₁ = pre₂ ∧ f = g ∧ post₁ = post₂ := by
  subst hf
  induction pre₁ generalizing pre₂ with
  | nil =>
    cases pre₂ with
    | nil => simpa using hg
    | cons c cs =>
      obtain ⟨rfl, -⟩ := List.cons.inj hg
      have := hg1 f (by simp) hfl
      omega
  | cons a as ih =>
    cases pre₂ with
    | nil =>
      obtain ⟨rfl, -⟩ := List.cons.inj hg
      have := hf1 a (by simp) hgl
      omega
    | cons c cs =>
      obtain ⟨rfl, hrest⟩ := List.cons.inj hg
      obtain ⟨rfl, rfl, rfl⟩ := ih (fun d hd => hf1 d (by simp [hd]))
        (fun d hd => hg1 d (by simp [hd])) hrest
      exact ⟨rfl, rfl, rfl⟩

/-! ## What an allocation writes -/

theorem writes_detachEvents {b : Blk} {need x : Nat} (hn : 64 ≤ need) (hle : need ≤ b.total)
    (h : Writes (detachEvents G pre b post need) x) :
    FreeListByte G (pre ++ b :: post) x ∨ InBlk G b x := by
  have hlink : ∀ v, Writes [.store (linkAddr G (lastLink 0 (freeOffs pre))) 8 v] x →
      FreeListByte G (pre ++ b :: post) x := fun v hv => by
    simp only [writes_cons, not_writes_nil, Event.Touches, or_false] at hv
    exact (freeListByte_linkAddr hv.1 hv.2).mono fun c hc _ => by simp [hc]
  rw [detachEvents] at h
  split at h
  · rename_i hrem
    rcases writes_append.1 h with h | h
    · have := writes_freshEvents h
      exact .inr ⟨by omega, by omega⟩
    · rcases writes_append.1 h with h | h
      · have := writes_cutEvents h
        exact .inr ⟨by omega, by omega⟩
      · exact .inl (hlink (b.off + need + 1) (by simpa [Event.Touches] using h))
  · exact .inl (hlink _ h)

theorem writes_markEvents {b : Blk} {t used count x : Nat}
    (h : Writes (markEvents G b t used count) x) : 96 ≤ x ∧ x < 112 ∨ InHdr G b x := by
  simp only [markEvents, writes_cons, not_writes_nil, Event.Touches, or_false] at h
  rw [InHdr]
  omega

/-- **`heap_alloc_block` writes the three heap counters and free blocks only.** -/
theorem writes_takeEvents {b : Blk} {need used count x : Nat} (hn : 64 ≤ need)
    (hle : need ≤ b.total) (hb : b.live = false)
    (h : Writes (takeEvents G pre b post need used count) x) :
    96 ≤ x ∧ x < 112 ∨ FreeListByte G (pre ++ b :: post) x ∨ InBlk G b x := by
  rcases writes_append.1 h with h | h
  · exact .inr (writes_detachEvents hn hle h)
  · refine (writes_markEvents h).imp id fun hx => .inl (.inr ⟨b, by simp, hb, hx⟩)

/-! ## Running `heap_alloc_block`

The walk carries the link to the last free block it passed, since it is behind that link that the
list has to be redirected.  So the induction is on the blocks ahead, with the blocks passed as a
list of its own. -/

theorem exec_detachBlock (hL : LayoutOk G m) {b : Blk} {need : Nat}
    (h : Listed G m (pre ++ b :: post)) (hb : b.live = false) (hn : 64 ≤ need)
    (hle : need ≤ b.total) :
    Exec G.size (detachBlock (G.base + b.off) (lastLink 0 (freeOffs pre)) need b.total) m ()
      (detachEvents G pre b post need) := by
  have hbm : b ∈ pre ++ b :: post := by simp
  have hbb := h.bounds hbm
  have hsz := G.size_eq
  have hlt := G.size_lt
  have hD := G.base_ge
  have hpre : ∀ o ∈ freeOffs pre, o ≤ G.heapSize := fun o ho => by
    obtain ⟨c, hc, rfl⟩ := mem_off_of_mem_freeOffs ho
    have := h.bounds (show c ∈ pre ++ b :: post by simp [hc])
    omega
  have hnext : m.load (G.base + b.off + 48) 8 = firstLink (freeOffs post) := h.next_eq hb
  rw [detachBlock, sub64_eq hle (by omega), detachEvents]
  by_cases hrem : 64 ≤ b.total - need
  · rw [if_pos hrem, if_pos (show BLOCK_MIN ≤ b.total - need from hrem), splitBlock]
    simp only [add64_eq (show G.base + b.off + need < 2 ^ 64 by omega),
      sub64_eq (show 56 ≤ b.total - need by omega) (by omega),
      sub64_eq (show 56 ≤ need by omega) (by omega), Nat.add_assoc G.base b.off need]
    -- the stores to the new header are below the link of `b` that is read next
    have hL' : LayoutOk G (replay (freshEvents (G.base + (b.off + need)) (b.total - need)
        (firstLink (freeOffs post)) ++ cutEvents (G.base + b.off) need) m) :=
      hL.of_writes fun x hx => by
        rcases writes_append.1 hx with hx | hx
        · have := writes_freshEvents hx
          omega
        · have := writes_cutEvents hx
          omega
    have hset := exec_setLink hL' hpre (b.off + need + 1)
    refine .emit_bind (.emit_bind (.emit_bind (.emit_bind (.emit_bind (.emit_bind (.emit_bind
      (.emit_bind (Exec.load_bind ?_ (by simp; omega) (.emit_bind (.emit_bind (.emit_bind
        (.emit_bind ((exec_hoffOfBlk hL' (by omega)).bind_nil ?_)))))))))))))
    · simp only [Event.act, BlockHdr.magic, BlockHdr.typeTag, BlockHdr.owner, BlockHdr.perms,
        BlockHdr.allocated, BlockHdr.objId, BlockHdr.payloadCap, BlockHdr.totalSize,
        BlockHdr.nextFree]
      simp (disch := omega) only [Mem.load_store_of_disjoint]
      exact hnext
    · rw [linkEnc_eq (G := G) (by omega)]
      exact hset
  · rw [if_neg hrem, if_neg (show ¬ BLOCK_MIN ≤ b.total - need from hrem)]
    exact Exec.load_bind hnext (by simp; omega) (exec_setLink hL hpre _)

theorem exec_markAllocated {b : Blk} {t used count : Nat}
    (hb : b.off + 56 ≤ G.heapSize) (ht : m.load (G.base + b.off + 40) 8 = t)
    (hu : m.load 96 8 = used) (hc : m.load 104 8 = count) (hu' : used + t < 2 ^ 64)
    (hc' : count + 1 < 2 ^ 64) :
    Exec G.size (markAllocated (G.base + b.off)) m () (markEvents G b t used count) := by
  have hsz := G.size_eq
  have hD := G.base_ge
  rw [markAllocated]
  refine .emit_bind (.emit_bind (Exec.load_bind (v := t) ?_ (by simp; omega)
    (Exec.load_bind (v := used) ?_ (by simp; omega) ?_)))
  · simp only [Event.act, BlockHdr.allocated, BlockHdr.nextFree, BlockHdr.totalSize]
    simp (disch := omega) only [Mem.load_store_of_disjoint]
    exact ht
  · simp only [Event.act, BlockHdr.allocated, BlockHdr.nextFree, RegionHdr.usedBytes, shmRh]
    simp (disch := omega) only [Mem.load_store_of_disjoint]
    exact hu
  · rw [add64_eq hu']
    refine .emit_bind (Exec.load_bind (v := count) ?_ (by simp; omega) ?_)
    · simp only [Event.act, BlockHdr.allocated, BlockHdr.nextFree, RegionHdr.usedBytes,
        RegionHdr.blockCount, shmRh]
      simp (disch := omega) only [Mem.load_store_of_disjoint]
      exact hc
    · rw [add64_eq hc']
      exact .emit_bind (.emit_bind .emit)

/-- **Taking a block**: it is detached and marked, and the counters follow. -/
theorem exec_takeBlock (hL : LayoutOk G m) {b : Blk} {need used count : Nat}
    (h : Listed G m (pre ++ b :: post)) (hb : b.live = false) (hn : 64 ≤ need)
    (hn8 : need % 8 = 0) (hle : need ≤ b.total) (hu : m.load 96 8 = used)
    (hu' : used + b.total < 2 ^ 64) (hc : m.load 104 8 = count) (hc' : count + 1 < 2 ^ 64) :
    Exec G.size (takeBlock (G.base + b.off) (lastLink 0 (freeOffs pre)) need b.total) m ()
      (takeEvents G pre b post need used count) := by
  have hD := G.base_ge
  have hbb := h.bounds (show b ∈ pre ++ b :: post by simp)
  have hdet := exec_detachBlock hL h hb hn hle
  have htotal := ((Rep.detach h hb hn hn8 hle).blk (detached b need) (by simp)).total
  rw [detached_off] at htotal
  -- detaching leaves the counters alone
  have hkeep : ∀ a, 96 ≤ a → a + 8 ≤ 112 →
      (replay (detachEvents G pre b post need) m).load a 8 = m.load a 8 := fun a h1 h2 =>
    load_replay fun x hw => by
      rcases writes_detachEvents hn hle hw with (hx | ⟨d, -, -, hx⟩) | hx
      · omega
      · have := hx.1
        omega
      · have := hx.1
        omega
  have hmark := exec_markAllocated (b := b) (t := (detached b need).total) (by omega) htotal
    ((hkeep 96 (by omega) (by omega)).trans hu) ((hkeep 104 (by omega) (by omega)).trans hc)
    (Nat.lt_of_le_of_lt (Nat.add_le_add_left (detached_total_le hle) used) hu') hc'
  exact hdet.seq hmark

/-- What a walk `x` of first fit does over the blocks `post`, those of `pre` lying behind it: it
finds all free blocks too small, or takes the first one that is not. -/
def FirstFits (G : Geometry) (m : Mem) (need used count : Nat) (pre post : List Blk)
    (x : Prog (Option Nat)) : Prop :=
  (∀ c ∈ post, c.live = false → c.total < need) ∧ Exec G.size x m none [] ∨
    ∃ mid b rest, post = mid ++ b :: rest ∧ b.live = false ∧ need ≤ b.total ∧
      (∀ c ∈ mid, c.live = false → c.total < need) ∧
      Exec G.size x m (some (G.base + b.off)) (takeEvents G (pre ++ mid) b rest need used count)

/-- A block in front that does not fit changes nothing. -/
theorem FirstFits.cons {need used count : Nat} {c : Blk} {x y : Prog (Option Nat)}
    (h : FirstFits G m need used count (pre ++ [c]) post x) (hc : c.live = false → c.total < need)
    (hxy : ∀ v W, Exec G.size x m v W → Exec G.size y m v W) :
    FirstFits G m need used count pre (c :: post) y := by
  rcases h with ⟨hsmall, hx⟩ | ⟨mid, b, rest, rfl, hb, hfit, hsmall, hx⟩
  · exact .inl ⟨List.forall_mem_cons.2 ⟨hc, hsmall⟩, hxy _ _ hx⟩
  · refine .inr ⟨c :: mid, b, rest, rfl, hb, hfit, List.forall_mem_cons.2 ⟨hc, hsmall⟩, ?_⟩
    rw [List.append_assoc] at hx
    exact hxy _ _ hx

/-- **One step of the walk**, at a free block: it is taken if it fits, and passed if it does not. -/
theorem exec_firstFit_hit (hL : LayoutOk G m) {b : Blk} {need used count : Nat}
    (h : Listed G m (pre ++ b :: post)) (hb : b.live = false) (hn : 64 ≤ need)
    (hn8 : need % 8 = 0) (hle : need ≤ b.total) (hu : m.load 96 8 = used)
    (hu' : used + b.total < 2 ^ 64) (hc : m.load 104 8 = count) (hc' : count + 1 < 2 ^ 64)
    (fuel : Nat) :
    Exec G.size (firstFit need (fuel + 1) (lastLink 0 (freeOffs pre)) (b.off + 1)) m
      (some (G.base + b.off)) (takeEvents G pre b post need used count) := by
  have hbm : b ∈ pre ++ b :: post := by simp
  have hbb := h.bounds hbm
  have hsz := G.size_eq
  have htake := exec_takeBlock hL h hb hn hn8 hle hu hu' hc hc'
  rw [firstFit, if_neg (Nat.succ_ne_zero _)]
  refine (exec_blkOfLink hL (by omega)).bind_nil
    (Exec.load_bind (h.blk b hbm).total (by simp; omega) ?_)
  rw [if_pos hle]
  exact Exec.congr (htake.seq (Exec.pure (some (G.base + b.off)))) (List.append_nil _)

theorem exec_firstFit_miss (hL : LayoutOk G m) {b : Blk} {need fuel prevLnk : Nat}
    (h : Listed G m (pre ++ b :: post)) (hb : b.live = false) (hlt : ¬ need ≤ b.total)
    {v : Option Nat} {W : List Event}
    (hx : Exec G.size (firstFit need fuel (b.off + 1) (firstLink (freeOffs post))) m v W) :
    Exec G.size (firstFit need (fuel + 1) prevLnk (b.off + 1)) m v W := by
  have hbm : b ∈ pre ++ b :: post := by simp
  have hbb := h.bounds hbm
  have hsz := G.size_eq
  rw [firstFit, if_neg (Nat.succ_ne_zero _)]
  refine (exec_blkOfLink hL (by omega)).bind_nil
    (Exec.load_bind (h.blk b hbm).total (by simp; omega) ?_)
  rw [if_neg hlt]
  exact Exec.load_bind (h.next_eq hb) (by simp; omega) hx

/-- **The walk of first fit** over the blocks `post`, those of `pre` being behind it. -/
theorem exec_firstFit (hL : LayoutOk G m) {need : Nat} (hn : 64 ≤ need) (hn8 : need % 8 = 0)
    {used count : Nat} (hu : m.load 96 8 = used) (hc : m.load 104 8 = count)
    (hc' : count + 1 < 2 ^ 64) {post : List Blk} :
    ∀ {fuel : Nat} {pre : List Blk}, Listed G m (pre ++ post) → (freeOffs post).length < fuel →
      (∀ c ∈ post, c.live = false → used + c.total < 2 ^ 64) →
      FirstFits G m need used count pre post
        (firstFit need fuel (lastLink 0 (freeOffs pre)) (firstLink (freeOffs post))) := by
  induction post with
  | nil =>
    intro fuel pre h hf _
    obtain ⟨fuel, rfl⟩ : ∃ f, fuel = f + 1 := Nat.exists_eq_add_one.2 hf
    refine .inl ⟨List.forall_mem_nil _, ?_⟩
    rw [freeOffs_nil, firstLink_nil, firstFit, if_pos rfl]
    exact .pure _
  | cons c cs ih =>
    intro fuel pre h hf hu'
    obtain ⟨huc, hus⟩ := List.forall_mem_cons.1 hu'
    have h' : Listed G m ((pre ++ [c]) ++ cs) := by simpa using h
    cases hcl : c.live with
    | true =>
      -- a live block is not on the list, the walk does not see it
      rw [freeOffs_cons_live hcl] at hf ⊢
      have hrest := ih h' hf hus
      rw [freeOffs_concat_live hcl] at hrest
      exact hrest.cons (fun hfree => Bool.noConfusion (hcl.symm.trans hfree)) fun _ _ => id
    | false =>
      obtain ⟨fuel, rfl⟩ : ∃ f, fuel = f + 1 := Nat.exists_eq_add_one.2 (Nat.zero_lt_of_lt hf)
      rw [freeOffs_cons_free hcl, List.length_cons] at hf
      rw [freeOffs_cons_free hcl, firstLink_cons]
      by_cases hfit : need ≤ c.total
      · refine .inr ⟨[], c, cs, rfl, hcl, hfit, List.forall_mem_nil _, ?_⟩
        rw [List.append_nil]
        exact exec_firstFit_hit hL h hcl hn hn8 hfit hu (huc hcl) hc hc' fuel
      · have hrest := ih h' (Nat.lt_of_succ_lt_succ hf) hus
        rw [freeOffs_append, freeOffs_cons_free hcl, freeOffs_nil, lastLink_concat] at hrest
        exact hrest.cons (fun _ => Nat.lt_of_not_le hfit) fun _ _ hx =>
          exec_firstFit_miss hL h hcl hfit hx

/-- The free list is shorter than any walk the code takes. -/
theorem Rep.freeOffs_length (h : Rep G m bs fl) : (freeOffs bs).length < walkFuel := by
  have hfl := h.tiles.length_le fun c hc => (h.wf c hc).min
  have : (freeOffs bs).length ≤ bs.length := by
    rw [freeOffs, List.length_map]
    exact List.length_filter_le _ _
  have := G.size_eq
  have := G.size_lt
  rw [walkFuel]
  omega

/-- **`heap_alloc_block` is first fit**: it fails without an effect if every free block is too
small, and takes the first one that is not otherwise. -/
theorem exec_heapAllocBlock (hL : LayoutOk G m) (h : Listed G m bs) {need : Nat} (hn : 64 ≤ need)
    (hn8 : need % 8 = 0) {used count : Nat} (hu : m.load 96 8 = used) (hc : m.load 104 8 = count)
    (hu' : ∀ c ∈ bs, c.live = false → used + c.total < 2 ^ 64) (hc' : count + 1 < 2 ^ 64) :
    (∀ c ∈ bs, c.live = false → c.total < need) ∧
        Exec G.size (heapAllocBlock need) m none [] ∨
      ∃ pre b post, bs = pre ++ b :: post ∧ b.live = false ∧ need ≤ b.total ∧
        (∀ c ∈ pre, c.live = false → c.total < need) ∧
        Exec G.size (heapAllocBlock need) m (some (G.base + b.off))
          (takeEvents G pre b post need used count) := by
  have hsz := G.size_eq
  have hD := G.base_ge
  have hfit := exec_firstFit hL hn hn8 hu hc hc' (show Listed G m ([] ++ bs) from h)
    h.freeOffs_length hu'
  have hhead : m.load (shmRh + RegionHdr.freeList.off) RegionHdr.freeList.width
      = firstLink (freeOffs bs) := h.head_eq
  rcases hfit with ⟨h1, h2⟩ | ⟨mid, b, rest, rfl, hb, hnb, hmid, hx⟩
  · exact .inl ⟨h1, Exec.load_bind hhead (by simp; omega) h2⟩
  · exact .inr ⟨mid, b, rest, rfl, hb, hnb, hmid, Exec.load_bind hhead (by simp; omega) hx⟩

end ShmAlloc
