import ShmAlloc.Guarantees.Capacity
import ShmAlloc.Region.Progress
import ShmAlloc.Lib.Persist

/-!
# The order in which an object becomes durable

`shm_alloc` asks for the write-back of payload, header and directory entry in this order, and a
relocating `shm_resize` does, too; but the only fence comes at the end.  Until then every line goes
its own way.  The header of the block is in another cache line than the entry, or at least parts of
both are, so there is always a moment at which the entry can be durable and the header not.

## What is here

* `History`: a region with all that has been done to it since its device was created, which is what
  decides what may be durable.
* `Reach.anonymous`: in every reachable state free blocks carry no id.  So a header that lags behind
  is not that of the object.
* `Shows`, `HeaderIs` and `PublishesInOrder`: **a durable entry leads to a durable object**, at
  every moment of a call and for everything that may be durable then.
* `exists_lagging`: before the fence, any line may lag behind to any moment of the call.
* `Publication`: what an allocation and a relocation have in common, and the three ways in which a
  line that lags behind tears it.
* `publication_order`: **nothing is published in order**, whatever the history: neither the object
  of a successful allocation, its id being 0 apart, nor one that is moved.
-/

set_option autoImplicit false

namespace ShmAlloc

open Tiling Links

variable {G : Geometry} {m m' device : Mem} {bs bs' pre post : List Blk} {es : List Event}
  {C : Mem → Call → Prop} {i id : Nat}

/-! ## Histories -/

/-- The history of a region: what the device held before the region was created, everything done to
it since, and the memory now. -/
inductive History (G : Geometry) (C : Mem → Call → Prop) (device : Mem) : List Event → Mem → Prop
  | init (backend nsInode cgroupHash : Nat) (name : Option CStr) :
    History G C device ((regionInit G.size backend G.dirCap name nsInode cgroupHash).trace device)
      ((regionInit G.size backend G.dirCap name nsInode cgroupHash).mem device)
  | call {es : List Event} {m : Mem} (h : History G C device es m) (c : Call) (hl : Legal G m c)
      (hC : C m c) : History G C device (es ++ c.prog.trace m) (c.prog.mem m)
  | write {es : List Event} {m : Mem} (h : History G C device es m) (i k : Nat) (v : UInt8)
      (hi : i < G.dirCap) (ha : (entryAt m i).alive = true) (hk : k < (entryAt m i).used) :
    History G C device (es ++ [.store (G.base + (entryAt m i).off + k) 1 v.toNat])
      (m.store (G.base + (entryAt m i).off + k) 1 v.toNat)

theorem History.reach (h : History G C device es m) : Reach G C m := by
  induction h with
  | init => exact .init ..
  | call _ c hl hC ih => exact ih.step (.call c hl hC)
  | write _ i k v hi ha hk ih => exact ih.step (.write i k v hi ha hk)

/-- The memory is what the history has made of the device. -/
theorem History.replay (h : History G C device es m) : replay es device = m := by
  induction h with
  | init => rfl
  | call _ c _ _ ih =>
    rw [replay_append, ih]
    rfl
  | write _ i k v _ _ _ ih =>
    rw [replay_append, ih]
    rfl

/-! ## Free blocks belong to nobody -/

/-- A free block carries no id. -/
def Blk.Anonymous (b : Blk) : Prop := b.live = false → b.id = 0

theorem Blk.Anonymous.grown {b : Blk} (t : Nat) (h : b.Anonymous) : (b.grown t).Anonymous := h

theorem anonymous_fresh (o t : Nat) : (Blk.fresh o t).Anonymous := fun _ => rfl

theorem anonymous_of_live {b : Blk} (h : b.live = true) : b.Anonymous := fun h' =>
  Bool.noConfusion (h.symm.trans h')

theorem anonymous_remnant (b : Blk) (t : Nat) : ∀ c ∈ remnant b t, c.Anonymous := by
  rw [remnant]
  split
  · exact List.forall_mem_singleton.2 (anonymous_fresh _ _)
  · exact List.forall_mem_nil _

/-- Giving a block to the free list leaves no id in a free block. -/
theorem anonymous_insertFree {b : Blk} (h : ∀ c ∈ pre ++ b :: post, c.Anonymous) :
    ∀ c ∈ insertFree pre b.freed post, c.Anonymous := by
  rw [List.forall_mem_append, List.forall_mem_cons] at h
  exact forall_insertFree (fun _ t hb => hb.grown t)
    (List.forall_mem_append.2 ⟨h.1, List.forall_mem_cons.2 ⟨fun _ => rfl, h.2.2⟩⟩)

/-- Taking a live block out of a free one leaves no id in a free block. -/
theorem anonymous_taken {b b' : Blk} {t : Nat} (h : ∀ c ∈ pre ++ b :: post, c.Anonymous)
    (hl : b'.live = true) : ∀ c ∈ pre ++ b' :: (remnant b t ++ post), c.Anonymous := by
  rw [List.forall_mem_append, List.forall_mem_cons] at h
  exact List.forall_mem_append.2 ⟨h.1, List.forall_mem_cons.2 ⟨anonymous_of_live hl,
    List.forall_mem_append.2 ⟨anonymous_remnant b t, h.2.2⟩⟩⟩

theorem ResizeRun.anonymous {sz n : Nat} {b : Blk} {rc : Rc} {W : List Event}
    (h : ∀ c ∈ pre ++ b :: post, c.Anonymous) (hl : b.live = true)
    (hrun : ResizeRun G sz pre b post i n rc W bs') : ∀ c ∈ bs', c.Anonymous := by
  have hparts := h
  rw [List.forall_mem_append, List.forall_mem_cons] at hparts
  obtain ⟨hpre, -, hpost⟩ := hparts
  have htail : ∀ {b' : Blk} {t : Nat} {cs : List Blk}, (∀ c ∈ cs, c.Anonymous) →
      ∀ c ∈ absorbNext (b'.tail t) cs, c.Anonymous := fun hcs =>
    forall_absorbNext (fun _ t hb => hb.grown t)
      (List.forall_mem_cons.2 ⟨anonymous_fresh _ _, hcs⟩)
  cases hrun with
  | keep hle hrem => exact h
  | cut hrem =>
    exact List.forall_mem_append.2 ⟨hpre, List.forall_mem_cons.2 ⟨anonymous_of_live hl,
      htail hpost⟩⟩
  | grow c cs hp hlt hcan =>
    subst hp
    have hcs := (List.forall_mem_cons.1 hpost).2
    refine List.forall_mem_append.2 ⟨hpre, List.forall_mem_cons.2 ⟨anonymous_of_live ?_, ?_⟩⟩
    · rw [grownBlk]
      split <;> exact hl
    · rw [grownRest]
      split
      · exact htail hcs
      · exact hcs
  | noRoom hlt hcan hno => exact h
  | move pre₁ f post₁ pre₂ post₂ hlt hcan hr =>
    rw [hr.split] at h
    have hmoved : ∀ c ∈ movedBlks pre₁ f post₁ (blockSize n) b, c.Anonymous :=
      anonymous_taken h rfl
    rw [hr.moved] at hmoved
    exact anonymous_insertFree hmoved

/-- **A call leaves no id in a free block.** -/
theorem CallRun.anonymous {c : Call} {rc : Rc} {W : List Event} (h : ∀ c ∈ bs, c.Anonymous)
    (hrun : CallRun G m bs c rc W bs') : ∀ c ∈ bs', c.Anonymous := by
  cases hrun with
  | refused hrc hW => exact h
  | alloc ht => exact anonymous_taken h rfl
  | free hf hh hacc => exact anonymous_insertFree h
  | resize hf hh hacc hn hn' hrun => exact hrun.anonymous h hh.live
  | setPerms hh hf hacc =>
    rw [List.forall_mem_append, List.forall_mem_cons] at h ⊢
    exact ⟨h.1, anonymous_of_live hh.live, h.2.2⟩

/-- **In every reachable state free blocks belong to nobody.** -/
theorem Reach.anonymous (h : Reach G C m) : ∃ bs, Inv G m bs ∧ ∀ b ∈ bs, b.Anonymous := by
  induction h with
  | init m backend nsInode cgroupHash name =>
    rw [(exec_regionInit G m backend nsInode cgroupHash name).mem]
    exact ⟨_, (fullInv_init m).toInv, List.forall_mem_singleton.2 (anonymous_fresh _ _)⟩
  | step _ hs ih =>
    obtain ⟨bs, hI, ha⟩ := ih
    cases hs with
    | call c hl hC =>
      obtain ⟨rc, W, bs', hrun, hx⟩ := callRun hI hl
      rw [hx.mem]
      exact ⟨bs', hrun.inv hI, hrun.anonymous ha⟩
    | write i k v hi hal hk => exact ⟨bs, hI.write hi hal hk v.toNat, ha⟩

/-! ## The lines of entries and headers

Slots have 96 bytes and start at 200, headers start behind the last one.  That the tag bit or the id
of a block is in another line than its slot is arithmetic on these. -/

section Lines

variable {o x : Nat}

/-- A slot shares no line with the tag bit of a block, unless they are the last slot and the first
block. -/
theorem line_ne_tag (hx : InSlot i x) (hi : i < G.dirCap) (ho : o = 0 ∨ 64 ≤ o)
    (hne : ¬ (o = 0 ∧ i + 1 = G.dirCap)) : x / 64 ≠ (G.base + o + 16) / 64 := by
  obtain ⟨h1, h2⟩ := hx
  rw [slotAddr] at h1 h2
  rw [Geometry.base]
  omega

/-- With an odd `dir_capacity`, the first block has its id in a line behind the directory. -/
theorem line_ne_id (hx : InSlot i x) (hi : i < G.dirCap) (hodd : G.dirCap % 2 = 1) :
    x / 64 ≠ (G.base + 24) / 64 := by
  have := (hx.lt_base hi).2
  rw [Geometry.base] at this ⊢
  omega

theorem line_id (hodd : G.dirCap % 2 = 1) {k : Nat} (hk : k < 8) :
    (G.base + 24 + k) / 64 = (G.base + 24) / 64 := by
  rw [Geometry.base]
  omega

/-- With an even `dir_capacity`, the last slot has its id, its offset and its `alive` byte in three
lines, the last of which it shares with the header of the first block. -/
theorem line_last (hlast : i + 1 = G.dirCap) (heven : G.dirCap % 2 = 0) :
    (∀ k, k < 8 → (slotAddr i + k) / 64 + 2 = (G.base + 16) / 64) ∧
      (∀ k, 40 ≤ k → k < 64 → (slotAddr i + k) / 64 + 1 = (G.base + 16) / 64) ∧
      (slotAddr i + 92) / 64 = (G.base + 16) / 64 := by
  rw [slotAddr, Geometry.base]
  refine ⟨fun k hk => ?_, fun k hk hk' => ?_, ?_⟩ <;> omega

end Lines

/-! ## What recovery may find -/

/-- In the durable image `d`, slot `i` shows the object `id` alive, and not where it was in `m`. -/
structure Shows (m d : Mem) (i id : Nat) : Prop where
  live : (entryAt d i).Live
  id : (entryAt d i).id = id
  moved : (entryAt m i).Live → (entryAt d i).off ≠ (entryAt m i).off

/-- At `p` is the completed header of the object `id`, whose block is `b`. -/
structure HeaderIs (d : Mem) (p id : Nat) (b : Blk) : Prop where
  magic : d.load p 4 = SHM_ALLOC_MAGIC_BLOCK
  allocated : d.load (p + 16) 1 = 1
  objId : d.load (p + 24) 8 = id
  owner : d.load (p + 8) 4 = b.owner
  perms : d.load (p + 12) 4 = b.perms
  payloadCap : d.load (p + 32) 8 = b.cap
  totalSize : d.load (p + 40) 8 = b.total

/-- **A durable entry leads to a durable object.**  At every moment of the call `c`, made in `m`
after the history `es`, and for everything that may be durable then: if the entry of the object `id`
shows it alive, then right before the offset it shows is the header the call completes, and at that
offset the payload the call leaves.  The entry as it was before the call does not count. -/
def PublishesInOrder (G : Geometry) (device : Mem) (es : List Event) (m : Mem) (c : Call)
    (id : Nat) : Prop :=
  ∀ i, i < G.dirCap → (entryAt (c.prog.mem m) i).Live → (entryAt (c.prog.mem m) i).id = id →
    ∀ ps d, ps <+: c.prog.trace m → Durable SHM_CACHE_LINE_BYTES device (es ++ ps) d →
      Shows m d i id →
        HeaderIs d (sub64 (add64 G.base (entryAt d i).off) blockHdrSize) id
            (blkOfSlot G (c.prog.mem m) i) ∧
          ∀ k, k < (blkOfSlot G (c.prog.mem m) i).cap →
            d (G.base + (entryAt d i).off + k)
              = c.prog.mem m (G.base + (entryAt (c.prog.mem m) i).off + k)

/-! ## One line lags behind -/

/-- **Before the fence, any line may lag behind** to any moment of the call, while everything else
is durable. -/
theorem exists_lagging {c : Call} {rc : Rc} {A B V : List Event} (h : History G C device es m)
    (hx : Exec G.size c.prog m rc (A ++ B)) (hA : .drain ∉ A) (hB : ∀ e ∈ B, e.isWrite = false)
    (hV : V <+: A) (l : Nat) :
    ∃ ps d, ps <+: c.prog.trace m ∧ Durable SHM_CACHE_LINE_BYTES device (es ++ ps) d ∧
      (∀ x, x / 64 = l → d x = replay V m x) ∧ ∀ x, x / 64 ≠ l → d x = c.prog.mem m x := by
  obtain ⟨U, rfl⟩ := hV
  obtain ⟨vs, ws, htrace, hvs, hws⟩ := exists_of_effects_eq (hx.eff.trans (List.append_assoc V U B))
  obtain ⟨us, ts, rfl, hus, -⟩ := exists_of_effects_eq hws
  have heff : effects (vs ++ us) = V ++ U := by rw [effects_append, hvs, hus]
  have hdrain : .drain ∉ vs ++ us := fun hd => hA (heff ▸ mem_effects.2 ⟨hd, rfl⟩)
  have hmem : c.prog.mem m = replay (vs ++ us) m := by
    rw [hx.mem, replay_append, replay_of_no_write hB, ← heff, replay_effects]
  refine ⟨vs ++ us, _, ⟨ts, by rw [htrace, List.append_assoc]⟩,
    durable_lagging l h.replay hdrain ⟨us, rfl⟩, fun x hx => ?_, fun x hx => ?_⟩
  · rw [lagging_of_line hx, ← hvs, replay_effects]
  · rw [lagging_of_other hx, hmem]

/-- What the call does: it turns what was a free block at `o` into the block of the object `id` in
slot `i`. -/
structure Publication (G : Geometry) (m m' : Mem) (i id o : Nat) : Prop where
  lt : i < G.dirCap
  live : (entryAt m' i).Live
  id : (entryAt m' i).id = id
  off : (entryAt m' i).off = o + 56
  moved : (entryAt m i).Live → (entryAt m i).off ≠ o + 56
  /-- There was a free block at `o`, which belonged to nobody. -/
  free : m.load (G.base + o + 16) 1 = 0
  noId : m.load (G.base + o + 24) 8 = 0
  place : o = 0 ∨ 64 ≤ o
  room : o + 56 ≤ G.heapSize

namespace Publication

variable {o : Nat}

theorem header_addr (hp : Publication G m m' i id o) :
    sub64 (add64 G.base (o + 56)) blockHdrSize = G.base + o := by
  have h1 := hp.room
  have h2 := G.size_eq
  have h3 := G.size_lt
  have hadd : add64 G.base (o + 56) = G.base + (o + 56) := add64_eq (by omega)
  have hsub : sub64 (G.base + (o + 56)) 56 = G.base + (o + 56) - 56 :=
    sub64_eq (by omega) (by omega)
  rw [hadd, hsub]
  omega

/-- An image in which the slot is as the call leaves it shows the object. -/
theorem shows (hp : Publication G m m' i id o) {d : Mem}
    (hd : ∀ x, InSlot i x → d x = m' x) : Shows m d i id ∧ (entryAt d i).off = o + 56 := by
  have hent : entryAt d i = entryAt m' i := entryAt_congr fun x h1 h2 => hd x ⟨h1, h2⟩
  refine ⟨⟨?_, ?_, fun hl => ?_⟩, ?_⟩
  · rw [hent]
    exact hp.live
  · rw [hent]
    exact hp.id
  · rw [hent, hp.off]
    exact (hp.moved hl).symm
  · rw [hent]
    exact hp.off

/-- An image that shows the object and has no completed header for it breaks the order. -/
theorem not_inOrder {c : Call} (hp : Publication G m (c.prog.mem m) i id o) {ps : List Event}
    {d : Mem} (hps : ps <+: c.prog.trace m)
    (hd : Durable SHM_CACHE_LINE_BYTES device (es ++ ps) d) (hs : Shows m d i id)
    (hoff : (entryAt d i).off = o + 56)
    (hhdr : d.load (G.base + o + 16) 1 = 0 ∨ d.load (G.base + o + 24) 8 = 0) :
    ¬ PublishesInOrder G device es m c id := by
  intro hord
  have hh := (hord i hp.lt hp.live hp.id ps d hps hd hs).1
  rw [hoff, hp.header_addr] at hh
  rcases hhdr with h0 | h0
  · have := hh.allocated
    omega
  · exact hp.live.2 (hp.id.trans (hh.objId.symm.trans h0))

/-- **The header lags behind.**  The tag bit of the block, or at least its id, is in another line
than the slot, unless the last slot gets the first block and `dir_capacity` is even. -/
theorem torn {c : Call} {rc : Rc} {A B : List Event}
    (hp : Publication G m (c.prog.mem m) i id o) (h : History G C device es m)
    (hx : Exec G.size c.prog m rc (A ++ B)) (hA : .drain ∉ A) (hB : ∀ e ∈ B, e.isWrite = false)
    (hcase : ¬ (o = 0 ∧ i + 1 = G.dirCap) ∨ o = 0 ∧ G.dirCap % 2 = 1) :
    ¬ PublishesInOrder G device es m c id := by
  rcases hcase with hne | ⟨rfl, hodd⟩
  · obtain ⟨ps, d, hps, hd, hline, hother⟩ :=
      exists_lagging h hx hA hB List.nil_prefix ((G.base + o + 16) / 64)
    obtain ⟨hs, hoff⟩ := hp.shows fun x hx =>
      hother x (line_ne_tag hx hp.lt hp.place hne)
    have hload : d.load (G.base + o + 16) 1 = m.load (G.base + o + 16) 1 := by
      rw [Mem.load_one, Mem.load_one, hline _ rfl]
      rfl
    exact hp.not_inOrder hps hd hs hoff (.inl (hload.trans hp.free))
  · obtain ⟨ps, d, hps, hd, hline, hother⟩ :=
      exists_lagging h hx hA hB List.nil_prefix ((G.base + 24) / 64)
    obtain ⟨hs, hoff⟩ := hp.shows fun x hx => hother x (line_ne_id hx hp.lt hodd)
    have hload : d.load (G.base + 0 + 24) 8 = m.load (G.base + 0 + 24) 8 := by
      rw [Nat.add_zero]
      exact Mem.load_congr fun k hk => hline _ (line_id hodd hk)
    exact hp.not_inOrder hps hd hs hoff (.inr (hload.trans hp.noId))

section Last

variable {c : Call} {rc : Rc} {A B : List Event} (hp : Publication G m (c.prog.mem m) i id 0)
  (h : History G C device es m) (hx : Exec G.size c.prog m rc (A ++ B)) (hA : .drain ∉ A)
  (hB : ∀ e ∈ B, e.isWrite = false) (hlast : i + 1 = G.dirCap) (heven : G.dirCap % 2 = 0)
include hp h hx hA hB hlast heven

/-- **The header lags behind**, together with the `alive` byte of an object that is moved: the
byte is set anyway. -/
theorem torn_moved (ha : (entryAt m i).alive = true) :
    ¬ PublishesInOrder G device es m c id := by
  obtain ⟨hid, hoff, halive⟩ := line_last hlast heven
  obtain ⟨ps, d, hps, hd, hline, hother⟩ :=
    exists_lagging h hx hA hB List.nil_prefix ((G.base + 16) / 64)
  have hid' : (entryAt d i).id = (entryAt (c.prog.mem m) i).id :=
    Mem.load_congr fun k hk => hother _ (by have := hid k hk; omega)
  have hoff' : (entryAt d i).off = (entryAt (c.prog.mem m) i).off :=
    Mem.load_congr fun k hk => hother _ (by
      have := hoff (56 + k) (by omega) (by omega)
      rw [← Nat.add_assoc] at this
      omega)
  have halive' : (entryAt d i).alive = true := by
    have hb : d (slotAddr i + 92) = m (slotAddr i + 92) := hline _ halive
    rw [← ha]
    show (d.load (slotAddr i + 92) 1 != 0) = (m.load (slotAddr i + 92) 1 != 0)
    rw [Mem.load_one, Mem.load_one, hb]
  have hload : d.load (G.base + 0 + 16) 1 = m.load (G.base + 0 + 16) 1 := by
    rw [Mem.load_one, Mem.load_one, hline _ rfl]
    rfl
  refine hp.not_inOrder hps hd ⟨⟨halive', ?_⟩, hid'.trans hp.id, fun hl => ?_⟩
    (hoff'.trans hp.off) (.inl (hload.trans hp.free))
  · rw [hid']
    exact hp.live.2
  · rw [hoff', hp.off]
    exact (hp.moved hl).symm

/-- **The offset lags behind**: id and `alive` byte of a new object are durable, and its offset is
still 0 as when the slot was cleared. -/
theorem torn_slot {V : List Event} (hV : V <+: A) (hz : ∀ x, InSlot i x → replay V m x = 0)
    (hdead : ¬ (entryAt m i).Live) : ¬ PublishesInOrder G device es m c id := by
  intro hord
  obtain ⟨hid, hoff, halive⟩ := line_last hlast heven
  obtain ⟨ps, d, hps, hd, hline, hother⟩ := exists_lagging h hx hA hB hV ((slotAddr i + 56) / 64)
  have hl56 := hoff 56 (by omega) (by omega)
  have hid' : (entryAt d i).id = (entryAt (c.prog.mem m) i).id :=
    Mem.load_congr fun k hk => hother _ (by have := hid k hk; omega)
  have halive' : (entryAt d i).alive = (entryAt (c.prog.mem m) i).alive := by
    have hb : d (slotAddr i + 92) = c.prog.mem m (slotAddr i + 92) := hother _ (by omega)
    show (d.load (slotAddr i + 92) 1 != 0) = ((c.prog.mem m).load (slotAddr i + 92) 1 != 0)
    rw [Mem.load_one, Mem.load_one, hb]
  have hzero : ∀ k, 40 ≤ k → k < 64 → d (slotAddr i + k) = 0 := fun k h1 h2 => by
    rw [hline _ (by have := hoff k h1 h2; omega)]
    exact hz _ ⟨by omega, by omega⟩
  have hoff' : (entryAt d i).off = 0 := Mem.load_eq_zero fun k hk => by
    rw [Nat.add_assoc]
    exact hzero _ (by omega) (by omega)
  have hs : Shows m d i id :=
    ⟨⟨halive'.trans hp.live.1, by rw [hid']; exact hp.live.2⟩, hid'.trans hp.id,
      fun hl => absurd hl hdead⟩
  -- what lies right before offset 0 of the heap is the slot itself
  have haddr : sub64 (add64 G.base (entryAt d i).off) blockHdrSize = slotAddr i + 40 := by
    have h1 := G.base_lt
    have hbase : G.base = slotAddr i + 96 := by
      rw [Geometry.base, slotAddr]
      omega
    have hsub : sub64 G.base 56 = G.base - 56 := sub64_eq (by omega) h1
    rw [hoff', add64_eq (by omega), Nat.add_zero, hsub]
    omega
  have hmagic := (hord i hp.lt hp.live hp.id ps d hps hd hs).1.magic
  rw [haddr, Mem.load_eq_zero fun k hk => by
    rw [Nat.add_assoc]
    exact hzero _ (by omega) (by omega)] at hmagic
  exact absurd hmagic (by decide)

end Last

end Publication

/-! ## What the operations do before their fence

The trace of a call is cut at one store to the slot; all of it comes before the one `drain`. -/

theorem Edits.no_drain {W : List Event} (h : Edits W) : .drain ∉ W := fun hd =>
  Bool.noConfusion (h _ hd)

theorem no_drain_lockEvents (r : Region) : .drain ∉ lockEvents r := by
  rw [lockEvents]
  split <;> simp

/-- A block is the first of the heap, or behind one. -/
theorem Rep.off_cases {b : Blk} {fl : List Nat} (h : Rep G m (pre ++ b :: post) fl) :
    b.off = 0 ∨ 64 ≤ b.off := by
  cases pre with
  | nil => exact .inl (tiles_cons.1 h.tiles).1
  | cons c cs =>
    have h1 := h.bounds_mid.1 c (by simp)
    have h2 := (h.wf c (by simp)).min
    exact .inr (by omega)

section

variable {b : Blk} {q : Request} {r : Region}

/-- The effects of `shm_alloc` before its fence, the clearing of the slot being the last of the
first part. -/
def allocStart (G : Geometry) (r : Region) (pre : List Blk) (b : Blk) (post : List Blk) (i id : Nat)
    (q : Request) : List Event :=
  lockEvents r ++ (takeEvents G pre b post (blockSize q.size) (liveBytes (pre ++ b :: post))
      (liveBlks (pre ++ b :: post)).length ++ (identEvents (G.base + b.off) id q ++
        (zeroEvents (G.base + b.off) (taken b (blockSize q.size)).cap ++
          [.fill (slotAddr i) 96 0])))

/-- The rest of them. -/
def allocMiddle (b : Blk) (i id : Nat) (q : Request) : List Event :=
  (slotEvents (slotAddr i) id (b.off + 56) (taken b (blockSize q.size)).cap q).tail ++
    (nameEvents (slotAddr i) q.name ++ [.persist (slotAddr i) 96, .persist 112 8])

theorem allocEvents_split (id : Nat) :
    lockEvents r ++ allocEvents G pre b post i id q =
      (allocStart G r pre b post i id q ++ allocMiddle b i id q) ++
        [.drain, .out 0 id, .out 1 (b.off + 56), .unlock] := by
  simp only [allocEvents, bindEvents, answerEvents, allocStart, allocMiddle, slotEvents,
    List.append_assoc, List.cons_append, List.nil_append, List.tail_cons]

theorem no_drain_alloc (id : Nat) :
    .drain ∉ allocStart G r pre b post i id q ++ allocMiddle b i id q := by
  have hname : .drain ∉ nameEvents (slotAddr i) q.name := by
    cases q.name with
    | none => exact List.not_mem_nil
    | some s =>
      rw [nameEvents]
      split <;> simp
  simp [allocStart, allocMiddle, identEvents, zeroEvents, slotEvents, no_drain_lockEvents, hname,
    edits_takeEvents.no_drain]

theorem publication_alloc (hI : Inv G m (pre ++ b :: post)) (hanon : b.Anonymous)
    (ht : Takes G m pre b i q) (hid : nextIdOf m ≠ 0) :
    Publication G m (replay (lockEvents r ++ allocEvents G pre b post i (nextIdOf m) q) m) i
      (nextIdOf m) b.off := by
  have hB := hI.heap.blk b (by simp)
  have hbb := hI.heap.bounds (show b ∈ pre ++ b :: post by simp)
  have hent : entryAt (replay (lockEvents r ++ allocEvents G pre b post i (nextIdOf m) q) m) i
      = newEntry b.off (taken b (blockSize q.size)).cap (nextIdOf m) q := by
    rw [replay_append, replay_lockEvents, entryAt_alloc hI ht]
  refine ⟨ht.slot_lt, ?_, ?_, ?_, fun hl => absurd hl ht.slot_free,
    hB.allocated_eq_zero.2 ht.free, hB.id.trans (hanon ht.free), hI.heap.toRep.off_cases, by omega⟩
  all_goals rw [hent]
  · exact ⟨rfl, hid⟩
  · rfl
  · rfl

/-- **A new object is not published in order.** -/
theorem alloc_not_inOrder (h : History G C device es m) (hI : Inv G m (pre ++ b :: post))
    (hanon : b.Anonymous) (ht : Takes G m pre b i q) (hid : nextIdOf m ≠ 0)
    (hx : Exec G.size (Call.alloc (some r) q true true).prog m .ok
      (lockEvents r ++ allocEvents G pre b post i (nextIdOf m) q)) :
    ¬ PublishesInOrder G device es m (.alloc (some r) q true true) (nextIdOf m) := by
  have hp := publication_alloc (r := r) hI hanon ht hid
  rw [← hx.mem] at hp
  rw [allocEvents_split] at hx
  have hA : .drain ∉ allocStart G r pre b post i (nextIdOf m) q ++
      allocMiddle b i (nextIdOf m) q := no_drain_alloc _
  by_cases hcase : ¬ (b.off = 0 ∧ i + 1 = G.dirCap) ∨ b.off = 0 ∧ G.dirCap % 2 = 1
  · exact hp.torn h hx hA (by simp [Event.isWrite]) hcase
  · have hlast : b.off = 0 ∧ i + 1 = G.dirCap ∧ G.dirCap % 2 = 0 := by omega
    rw [hlast.1] at hp
    refine hp.torn_slot h hx hA (by simp [Event.isWrite]) hlast.2.1 hlast.2.2
      (List.prefix_append _ _) (fun x hx => ?_) ht.slot_free
    rw [allocStart, replay_append, replay_append, replay_append, replay_append]
    exact Mem.fill_of_inside hx.1 hx.2

end

section

variable {b f : Blk} {t n : Nat} {pre' post' : List Blk} {r : Region}

theorem movingEvents_split :
    lockEvents r ++ movingEvents G bs pre f post pre' post' b i t n =
      (lockEvents r ++ (relocateEvents G pre f post pre' post' b i t (liveBytes bs)
        (liveBlks bs).length ++ [.store (slotAddr i + 72) 8 n, .persist (slotAddr i) 96])) ++
        [.drain, .unlock] := by
  simp only [movingEvents, finishEvents, List.append_assoc, List.cons_append, List.nil_append]

theorem no_drain_relocateEvents {used count : Nat} :
    .drain ∉ relocateEvents G pre f post pre' post' b i t used count := by
  have hextra :
      .drain ∉ extraEvents (G.base + (taken f t).off) b.cap ((taken f t).cap - b.cap) := by
    rw [extraEvents]
    split <;> simp
  rw [taken_off] at hextra
  simp [relocateEvents, moveEvents, copyEvents, adoptEvents, retargetEvents, hextra,
    edits_takeEvents.no_drain, edits_releaseEvents.no_drain]

/-- **A moved object is not published in order.** -/
theorem move_not_inOrder {c : Call} (h : History G C device es m) (hI : Inv G m bs)
    (hanon : ∀ d ∈ bs, d.Anonymous) (hr : Relocates bs b t pre f post pre' post') (hb : b ∈ bs)
    (hh : Holds G m i b) (ht : 64 ≤ t) (hn : n < 2 ^ 64) (hid : (entryAt m i).id ≠ 0)
    (hx : Exec G.size c.prog m .ok
      (lockEvents r ++ movingEvents G bs pre f post pre' post' b i t n)) :
    ¬ PublishesInOrder G device es m c (entryAt m i).id := by
  have hsplit := hr.split
  have hf : f ∈ bs := by
    rw [hsplit]
    simp
  have hB := hI.heap.blk f hf
  have hbb := hI.heap.bounds hf
  have hent := moving_entry_self hr hI hb ht hh.lt hn
  have hplace : f.off = 0 ∨ 64 ≤ f.off := (hsplit ▸ hI.heap.toRep).off_cases
  have hp : Publication G m (c.prog.mem m) i (entryAt m i).id f.off := by
    rw [hx.mem, replay_append, replay_lockEvents]
    refine ⟨hh.lt, ?_, ?_, ?_, fun _ hoff => ?_, hB.allocated_eq_zero.2 hr.free,
      hB.id.trans (hanon f hf hr.free), hplace, by omega⟩
    · rw [hent]
      exact ⟨hh.alive, hid⟩
    · rw [hent]
    · rw [hent]
    · have := hh.mirrors.off
      exact hr.off_ne hI.heap.toRep hb hh.live (by omega)
  rw [movingEvents_split] at hx
  have hA : .drain ∉ lockEvents r ++ (relocateEvents G pre f post pre' post' b i t (liveBytes bs)
      (liveBlks bs).length ++ [.store (slotAddr i + 72) 8 n, .persist (slotAddr i) 96]) := by
    simp [no_drain_lockEvents, no_drain_relocateEvents]
  by_cases hcase : ¬ (f.off = 0 ∧ i + 1 = G.dirCap) ∨ f.off = 0 ∧ G.dirCap % 2 = 1
  · exact hp.torn h hx hA (by simp [Event.isWrite]) hcase
  · have hlast : f.off = 0 ∧ i + 1 = G.dirCap ∧ G.dirCap % 2 = 0 := by omega
    rw [hlast.1] at hp
    exact hp.torn_moved h hx hA (by simp [Event.isWrite]) hlast.2.1 hlast.2.2 hh.alive

end

/-! ## Publication order -/

/-- **Nothing is published in order.**  Whatever the history of the region, a successful `shm_alloc`
and a `shm_resize` that moves its object leave moments at which the directory entry may be durable
and the object behind it not.  The one exception is a `shm_alloc` that hands out the id 0, because
`next_id` has wrapped: no search takes such an entry for an object. -/
theorem publication_order (h : History G AnyCall device es m) {c : Call} (hl : Legal G m c)
    (hok : c.prog.val m = .ok) :
    (∀ r q outId outOff, c = .alloc r q outId outOff →
        (PublishesInOrder G device es m c (nextIdOf m) ↔ nextIdOf m = 0)) ∧
      ∀ r objId n userId callerPerms i, c = .resize r objId n userId callerPerms →
        Finds G m objId i → (entryAt (c.prog.mem m) i).off ≠ (entryAt m i).off →
        ¬ PublishesInOrder G device es m c objId := by
  obtain ⟨bs, hI, hanon⟩ := h.reach.anonymous
  obtain ⟨rc, W, bs', hrun, hx⟩ := callRun hI hl
  obtain rfl : rc = .ok := hx.val.symm.trans hok
  refine ⟨?_, ?_⟩
  · rintro r q outId outOff rfl
    refine ⟨fun hord => ?_, fun hid i hi hlive hid' => ?_⟩
    · cases hrun with
      | refused hrc hW => exact absurd rfl hrc
      | alloc ht =>
        by_contra hid
        exact alloc_not_inOrder h hI (hanon _ (by simp)) ht hid hx hord
    · exact absurd (hid'.trans hid) hlive.2
  · rintro r objId n userId callerPerms i rfl hf hmoved
    cases hrun with
    | refused hrc hW => exact absurd rfl hrc
    | resize hf' hh hacc hn hn' hrun =>
      rename_i pre b post j r W
      obtain rfl := hf.unique hf'
      rcases hrun.inPlace_of_ok hI hh.live hn with ⟨hne, -⟩ |
        ⟨V, b', post', rfl, rfl, -, hp, -⟩ | ⟨pre₁, f, post₁, pre₂, post₂, -, hr, rfl, rfl⟩
      · exact absurd rfl hne
      · refine absurd ?_ hmoved
        rw [hx.mem, replay_append, replay_lockEvents, inPlace_entry_self hh hp (by omega)]
      · have hid := (Entry.live_of_access hacc).2
        obtain rfl := hf.id
        exact move_not_inOrder h hI hanon hr (by simp) hh (blockSize_ge hn) (by omega) hid hx

/-- A device of zeros, on which the page is created. -/
def blankDevice : Mem := fun _ => 0

/-- What `region_init` does to it. -/
def pageCreation : List Event := (regionInit 4096 0 2 none 0 0).trace blankDevice

theorem history_fresh : History pageGeometry AnyCall blankDevice pageCreation
    (freshMem pageGeometry) := .init 0 0 0 none

/-- The page when two objects of eight bytes have been allocated. -/
def crowdedPage : Mem := (asks 8).prog.mem ((asks 8).prog.mem (freshMem pageGeometry))

theorem history_crowded : ∃ es, History pageGeometry AnyCall blankDevice es crowdedPage := by
  obtain ⟨bs, hI⟩ := history_fresh.reach.inv
  have h1 := history_fresh.call (asks 8) (legal_alloc hI rfl (by decide) (by decide)) trivial
  obtain ⟨bs', hI'⟩ := h1.reach.inv
  exact ⟨_, h1.call (asks 8) (legal_alloc hI' rfl (by decide) (by decide)) trivial⟩

/-- The first of the two objects has to move to grow, and is not published in order. -/
theorem publication_order_page : ∃ es, History pageGeometry AnyCall blankDevice es crowdedPage ∧
    ¬ PublishesInOrder pageGeometry blankDevice es crowdedPage
      (.resize (some pageHandle) 1 64 7 0xF) 1 := by
  obtain ⟨es, h⟩ := history_crowded
  have hl : Legal pageGeometry crowdedPage (.resize (some pageHandle) 1 64 7 0xF) :=
    ⟨show 64 ≤ 2 ^ 64 - 64 by decide, fun r hr => by cases hr; decide,
      fun r hr => by cases hr; decide +kernel⟩
  have hfinds : Finds pageGeometry crowdedPage 1 0 :=
    ⟨by decide, by decide +kernel, by decide +kernel, fun k hk => absurd hk (Nat.not_lt_zero k)⟩
  exact ⟨es, h, (publication_order h hl (by decide +kernel)).2 _ _ _ _ _ 0 rfl hfinds
    (by decide +kernel)⟩

/-- **The first object of a page**: its entry may be durable while the block it leads to is free. -/
theorem publication_order_fails :
    ¬ PublishesInOrder pageGeometry blankDevice pageCreation (freshMem pageGeometry) (asks 8) 1 ∧
      ∃ ps d, ps <+: (asks 8).prog.trace (freshMem pageGeometry) ∧
        Durable SHM_CACHE_LINE_BYTES blankDevice (pageCreation ++ ps) d ∧
        (entryAt d 0).Live ∧ (entryAt d 0).id = 1 ∧ (entryAt d 0).off = 56 ∧
        d.load (pageGeometry.base + 16) 1 = 0 := by
  have hI : Inv pageGeometry (freshMem pageGeometry)
      ([] ++ Blk.fresh 0 pageGeometry.heapSize :: []) :=
    (inv_fresh pageGeometry).toInv
  have ht : Takes pageGeometry (freshMem pageGeometry) [] (Blk.fresh 0 pageGeometry.heapSize) 0
      eightBytes := takes_fresh (by decide) (by decide) (by decide) (by decide)
  have hx := exec_first (G := pageGeometry) (q := eightBytes) (by decide) (by decide) (by decide)
    (by decide) pageHandle
  have hid := nextIdOf_fresh pageGeometry
  rw [← hid] at hx
  have hp := publication_alloc (r := pageHandle) hI (anonymous_fresh 0 _) ht (by rw [hid]; decide)
  rw [← hx.mem, Blk.fresh_off] at hp
  refine ⟨?_, ?_⟩
  · have hno := alloc_not_inOrder history_fresh hI (anonymous_fresh 0 _) ht (by rw [hid]; decide) hx
    rwa [hid] at hno
  · rw [allocEvents_split] at hx
    obtain ⟨ps, d, hps, hd, hline, hother⟩ := exists_lagging history_fresh hx (no_drain_alloc _)
      (by simp [Event.isWrite]) List.nil_prefix ((pageGeometry.base + 0 + 16) / 64)
    obtain ⟨hs, hoff⟩ := hp.shows fun x hx =>
      hother x (line_ne_tag hx (by decide) (.inl rfl) (by decide))
    have hload : d.load (pageGeometry.base + 0 + 16) 1
        = (freshMem pageGeometry).load (pageGeometry.base + 0 + 16) 1 := by
      rw [Mem.load_one, Mem.load_one, hline _ rfl, replay_nil]
    exact ⟨ps, d, hps, hd, hs.live, hs.id.trans hid, hoff, hload.trans hp.free⟩

end ShmAlloc
