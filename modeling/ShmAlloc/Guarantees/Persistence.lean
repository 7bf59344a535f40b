import ShmAlloc.Guarantees.Capacity
import ShmAlloc.Heap.Dirty

/-!
# Metadata that is written back before a call returns

A call that succeeds has passed a fence, and so everything whose write-back it has asked for is
durable.  It does not always ask: the link in the header of a free block *before* the one at hand is
stored to by a helper and written back by nobody, and the counters are written back only where the
list head is.

## What is here

* `Metadata` and `FlushesMetadata`: what a call ought to write back, and that it does.
* `Call.FlushesAll`: **the condition on a call and the heap it finds.**  For an allocation it is
  about the link before the block that is taken; for a free, whether a free block lies before; for a
  resize it depends on the way it goes (`ResizeFlushes`); changing permissions misses nothing.
* `unflushed_alloc`, `unflushed_free`, `unflushed_inPlace` and `unflushed_move`: what each kind of
  call leaves unflushed.
* `metadata_flushed`: **a successful call leaves no line of metadata dirty exactly under
  `Call.FlushesAll`.**
* `metadata_flushed_fails`: freeing an object behind a free block leaves `used_bytes` dirty.

What an operation on the heap leaves dirty is known (`Heap/Dirty`); a call adds stores and
write-backs of its own, and what is left to see is which of these share a line with it.
-/

set_option autoImplicit false

namespace ShmAlloc

open Tiling Links

variable {G : Geometry} {m m' : Mem} {bs bs' pre post : List Blk} {b c f p : Blk} {x i n : Nat}

/-! ## Metadata -/

/-- A byte of the region header, of a directory entry, or of the header of one of the blocks. -/
inductive Metadata (G : Geometry) (bs : List Blk) (x : Nat) : Prop
  | region (h : x < regionHdrSize)
  | entry (i : Nat) (hi : i < G.dirCap) (h : InSlot i x)
  | block (b : Blk) (hb : b ∈ bs) (h : InHdr G b x)

/-- **No metadata line is left dirty.**  The trace of a call flushes, after its last store to them,
the lines of all metadata; `bs` and `bs'` are the blocks before and after the call. -/
def FlushesMetadata (G : Geometry) (bs bs' : List Blk) (es : List Event) : Prop :=
  ∀ x, Metadata G bs x ∨ Metadata G bs' x → ¬ Unflushed SHM_CACHE_LINE_BYTES x es

/-- The write-back of `n` bytes at `a` takes along the link in the header of `p`. -/
def CoversLink (G : Geometry) (p : Blk) (a n : Nat) : Prop :=
  (Event.persist a n).Flushes SHM_CACHE_LINE_BYTES ((G.base + p.off + 48) / SHM_CACHE_LINE_BYTES)

/-! ## When a call flushes everything -/

/-- A resize of the block `b` of slot `i` to `n` bytes misses no line. -/
structure ResizeFlushes (G : Geometry) (sz : Nat) (pre : List Blk) (b : Blk) (post : List Blk)
    (i n : Nat) : Prop where
  /-- Where a tail is cut off, no free block lies before. -/
  shrinks : blockSize n + 64 ≤ b.total → lastFree pre = none
  /-- Where the block grows in place and nothing is cut off again, no free block lies before, or
  its link is in the line of the block's header or of the entry. -/
  grows : ∀ c cs, post = c :: cs → b.total < blockSize n → CanGrow G sz b (blockSize n) post →
    b.total + c.total < blockSize n + 64 → ∀ p, lastFree pre = some p →
      CoversLink G p (G.base + b.off) 56 ∨ CoversLink G p (slotAddr i) 96
  /-- Where the object moves to `f`, no free block but `f` lies before the old place, and the free
  block before `f`, if there is one, directly follows the old place. -/
  moves : b.total < blockSize n → ¬ CanGrow G sz b (blockSize n) post →
    ∀ pre₁ f post₁, pre ++ b :: post = pre₁ ++ f :: post₁ → f.live = false →
      blockSize n ≤ f.total → (∀ c ∈ pre₁, c.live = false → c.total < blockSize n) →
      (∀ c ∈ pre, c.live = false → c = f ∧ f.total < blockSize n + 64) ∧
        ∀ p, lastFree pre₁ = some p → post.head? = some p

/-- **The call misses no line**, the heap being `bs`. -/
def Call.FlushesAll (G : Geometry) (m : Mem) (bs : List Blk) : Call → Prop
  | .alloc _ q _ _ => ∀ pre f post i, bs = pre ++ f :: post → Takes G m pre f i q →
      ∀ p, lastFree pre = some p → CoversLink G p (slotAddr i) 96
  | .free _ objId _ _ => ∀ pre b post i, bs = pre ++ b :: post → Finds G m objId i →
      Holds G m i b → lastFree pre = none
  | .resize region objId n _ _ => ∀ r pre b post i, region = some r → bs = pre ++ b :: post →
      Finds G m objId i → Holds G m i b → ResizeFlushes G r.size pre b post i n
  | .setPerms .. => True

/-! ## Around a block -/

/-- A heap is split at a block in one way only. -/
theorem Rep.split_unique {fl : List Nat} {pre' post' : List Blk} (h : Rep G m bs fl)
    (hb : bs = pre ++ b :: post) (hc : bs = pre' ++ c :: post') (hoff : b.off = c.off) :
    pre = pre' ∧ b = c ∧ post = post' := by
  obtain rfl : b = c := h.eq_of_off (by simp [hb]) (by simp [hc]) hoff
  subst hb
  have hmid := h.bounds_mid
  have hmin := fun d hd => (h.wf d hd).min
  refine (List.append_cons_inj_of_notMem (fun hm => ?_) fun hm => ?_).1 hc
  · have := hmid.1 b hm
    have := hmin b (by simp)
    omega
  · have := hmid.2 b hm
    have := hmin b (by simp)
    omega

/-- Two free blocks are not next to each other. -/
theorem HeapInv.free_apart (h : HeapInv G m (pre ++ b :: post)) (hb : b.live = false)
    (hp : p ∈ pre) (hpl : p.live = false) : p.off + 128 ≤ b.off := by
  obtain ⟨front, mid, rfl⟩ := List.append_of_mem hp
  have hmin := fun d hd => (h.wf d hd).min
  have hpm := hmin p (by simp)
  cases mid with
  | nil =>
    have hco : Coalesced (front ++ p :: b :: post) := by simpa using h.coalesced
    have := (coalesced_cons_cons.1 (coalesced_append.1 hco).2.1).1
    simp [hb, hpl] at this
  | cons d ds =>
    have h1 := h.bounds_mid.1 d (by simp)
    have h2 := (show Rep G m (front ++ p :: (d :: ds ++ b :: post)) _ by
      simpa using h.toRep).bounds_mid.2 d (by simp)
    have := hmin d (by simp)
    omega

theorem HeapInv.lastFree_apart (h : HeapInv G m (pre ++ b :: post)) (hb : b.live = false)
    (hp : lastFree pre = some p) : p.off + 128 ≤ b.off :=
  h.free_apart hb (mem_of_lastFree hp).1 (mem_of_lastFree hp).2

/-- The link in a free block before is well below a free block. -/
theorem HeapInv.innerLink_low (h : HeapInv G m (pre ++ b :: post)) (hb : b.live = false)
    (hx : InnerLinkByte G pre x) : G.base + 48 ≤ x ∧ x + 72 ≤ G.base + b.off := by
  obtain ⟨p, hp, h1, h2⟩ := hx
  have := h.lastFree_apart hb hp
  omega

/-! ## Which lines are meant

A line is a multiple of 64.  A link has 8 bytes at a multiple of 8, so it is in one line, and the
counters are in the line of the list head. -/

/-- A link lies in one line. -/
theorem line_of_link (hp : p.WF) (h1 : G.base + p.off + 48 ≤ x) (h2 : x < G.base + p.off + 56) :
    x / 64 = (G.base + p.off + 48) / 64 := by
  have hbase : G.base = 200 + 96 * G.dirCap := rfl
  have := hp.aligned
  omega

/-- What may be dirty is a link: the lines `F` hold all metadata if they hold that. -/
theorem flushes_iff_link {F : Nat → Prop} (h : HeapInv G m bs) (hpre : ∀ p ∈ pre, p ∈ bs) :
    (∀ x, Metadata G bs x ∨ Metadata G bs' x → ¬ (InnerLinkByte G pre x ∧ ¬ F (x / 64))) ↔
      ∀ p, lastFree pre = some p → F ((G.base + p.off + 48) / 64) := by
  constructor
  · intro hall p hp
    have hpm := hpre p (mem_of_lastFree hp).1
    refine Classical.byContradiction fun hno => ?_
    refine hall (G.base + p.off + 48) (.inl (.block p hpm ⟨by omega, by omega⟩)) ⟨?_, hno⟩
    exact ⟨p, hp, Nat.le_refl _, by omega⟩
  · rintro hall x - ⟨⟨p, hp, h1, h2⟩, hno⟩
    refine hno ?_
    rw [line_of_link (h.wf p (hpre p (mem_of_lastFree hp).1)) h1 h2]
    exact hall p hp

/-- What may be dirty are the counters. -/
theorem flushes_iff_counters {hi : Nat} (hhi : 96 < hi) :
    (∀ x, Metadata G bs x ∨ Metadata G bs' x → ¬ (lastFree pre ≠ none ∧ 96 ≤ x ∧ x < hi)) ↔
      lastFree pre = none := by
  constructor
  · intro hall
    refine Classical.byContradiction fun hp => ?_
    exact hall 96 (.inl (.region (by decide))) ⟨hp, Nat.le_refl _, hhi⟩
  · rintro hnone x - ⟨hp, -⟩
    exact hp hnone

theorem dirty_locked {r : Region} {es : List Event} :
    Dirty 64 x (lockEvents r ++ es) ↔ Dirty 64 x es := by
  have hno : ¬ Dirty 64 x (lockEvents r) := fun h => by
    have := h.writes
    rw [lockEvents] at this
    split at this <;> simp [Event.Touches] at this
  rw [dirty_append, or_iff_right fun h => hno h.1]

/-! ## Allocation -/

section Alloc

variable {q : Request} {r : Region} {id : Nat}

/-- Header, payload, entry and `next_id` are all written back. -/
theorem not_dirty_fill {o cap : Nat} : ¬ Dirty 64 x (bindEvents G o cap i id q ++
    (nameEvents (slotAddr i) q.name ++ [.persist (slotAddr i) 96, .persist 112 8])) := by
  have hlast : ¬ Dirty 64 x [.persist (slotAddr i) 96, .persist 112 8] := by
    simp [Dirty, Event.Touches]
  have hslot : InSlot i x → WritesBack 64 (x / 64) [.persist (slotAddr i) 96, .persist 112 8] :=
    fun hx => writesBack_cons.2 (.inl (flushes_of_mem hx.1 hx.2))
  have hentry : ¬ Dirty 64 x (slotEvents (slotAddr i) id (o + 56) cap q ++
      (nameEvents (slotAddr i) q.name ++ [.persist (slotAddr i) 96, .persist 112 8])) := by
    refine not_dirty_append (not_dirty_append hlast fun h => ?_) fun h => ?_
    · have := writes_nameEvents h
      exact hslot ⟨by omega, by omega⟩
    · exact writesBack_append.2 (.inr (hslot (writes_slotEvents h)))
  rw [bindEvents, List.append_assoc, List.append_assoc]
  refine not_dirty_append ?_ fun h => ?_
  · rintro (⟨h, hno⟩ | ⟨h, -⟩ | ⟨h, -⟩ | h)
    · exact hno (writesBack_cons.2 (.inl (flushes_of_mem h.1 h.2)))
    · exact h
    · exact h
    · exact hentry h
  · simp only [zeroEvents, writesBack_append, writesBack_cons]
    rcases writes_identEvents h with h | h
    · exact .inr (.inr (.inr (.inr (.inl (flushes_of_mem h.1 h.2)))))
    · exact .inl (.inr (.inr (.inl (flushes_of_mem (by omega) (by omega)))))

/-- Of what is written back there, only the entry can share its line with the header of a free block
below. -/
theorem writesBack_fill {o cap : Nat} (hlow : G.base + 48 ≤ x) (hx : x + 72 ≤ G.base + o) :
    WritesBack 64 (x / 64) (bindEvents G o cap i id q ++
      (nameEvents (slotAddr i) q.name ++ [.persist (slotAddr i) 96, .persist 112 8])) ↔
      (Event.persist (slotAddr i) 96).Flushes 64 (x / 64) := by
  have hD := G.base_ge
  have hname : ¬ WritesBack 64 (x / 64) (nameEvents (slotAddr i) q.name) := by
    cases q.name with
    | none => exact not_writesBack_nil
    | some s =>
      rw [nameEvents]
      split <;> simp [Event.Flushes]
  simp only [bindEvents, identEvents, zeroEvents, slotEvents, writesBack_append, writesBack_cons,
    not_writesBack_nil, hname, Event.Flushes, or_false, false_or]
  omega

/-- **What `shm_alloc` leaves unflushed** is the link in the header of the free block before. -/
theorem unflushed_alloc (h : HeapInv G m (pre ++ b :: post)) (hb : b.live = false) :
    Unflushed 64 x (lockEvents r ++ allocEvents G pre b post i id q) ↔
      InnerLinkByte G pre x ∧ ¬ (Event.persist (slotAddr i) 96).Flushes 64 (x / 64) := by
  have hsplit : lockEvents r ++ allocEvents G pre b post i id q =
      (lockEvents r ++ (takeEvents G pre b post (blockSize q.size) (liveBytes (pre ++ b :: post))
        (liveBlks (pre ++ b :: post)).length ++
          (bindEvents G b.off (taken b (blockSize q.size)).cap i id q ++
            (nameEvents (slotAddr i) q.name ++ [.persist (slotAddr i) 96, .persist 112 8])))) ++
        .drain :: [.out 0 id, .out 1 (b.off + 56), .unlock] := by
    simp only [allocEvents, answerEvents, List.append_assoc, List.cons_append, List.nil_append]
  rw [hsplit, unflushed_iff_dirty (by simp [Event.Touches]) (by simp), dirty_locked, dirty_append,
    or_iff_left not_dirty_fill]
  constructor
  · rintro ⟨hd, hno⟩
    have hx := dirty_takeEvents hd
    have hlow := h.innerLink_low hb hx
    exact ⟨hx, (writesBack_fill hlow.1 hlow.2).not.1 hno⟩
  · rintro ⟨hx, hno⟩
    have hlow := h.innerLink_low hb hx
    refine ⟨?_, (writesBack_fill hlow.1 hlow.2).not.2 hno⟩
    obtain ⟨p, hp, h1, h2⟩ := hx
    exact dirty_takeEvents_link hp (h.lastFree_apart hb hp) h1 h2

end Alloc

/-! ## The other calls -/

section Entry

variable {r : Region} {V ws : List Event}

/-- **Every other call ends with stores to an entry, its write-back and the fence.**  It leaves
unflushed what was dirty before, unless it shares a line with the entry. -/
theorem unflushed_entry (hw : ∀ y, Writes ws y → InSlot i y) (hno : ¬ WritesBack 64 (x / 64) ws) :
    Unflushed 64 x (lockEvents r ++ (V ++ (ws ++ [.persist (slotAddr i) 96, .drain, .unlock]))) ↔
      Dirty 64 x V ∧ ¬ (Event.persist (slotAddr i) 96).Flushes 64 (x / 64) := by
  have hsplit : lockEvents r ++ (V ++ (ws ++ [.persist (slotAddr i) 96, .drain, .unlock])) =
      (lockEvents r ++ (V ++ (ws ++ [.persist (slotAddr i) 96]))) ++ .drain :: [.unlock] := by
    simp only [List.append_assoc, List.cons_append, List.nil_append]
  have hws : ¬ Dirty 64 x (ws ++ [.persist (slotAddr i) 96]) :=
    not_dirty_append (by simp [Dirty, Event.Touches]) fun h =>
      writesBack_cons.2 (.inl (flushes_of_mem (hw x h).1 (hw x h).2))
  rw [hsplit, unflushed_iff_dirty (by simp [Event.Touches]) (by simp), dirty_locked, dirty_append,
    or_iff_left hws, writesBack_append, or_iff_right hno, writesBack_cons,
    or_iff_left not_writesBack_nil]

/-- The counters are in no line of an entry. -/
theorem not_flushes_entry (hx : x < 128) :
    ¬ (Event.persist (slotAddr i) 96).Flushes 64 (x / 64) := by
  have := slotAddr_ge i
  rw [Event.Flushes]
  omega

/-- **What `shm_free` leaves unflushed** are the counters. -/
theorem unflushed_free : Unflushed 64 x (lockEvents r ++ freeEvents G pre b post i) ↔
    lastFree pre ≠ none ∧ 96 ≤ x ∧ x < 112 := by
  have hend : clearSlotEvents i =
      [.fill (slotAddr i) 96 0] ++ [.persist (slotAddr i) 96, .drain, .unlock] := rfl
  rw [freeEvents, hend, unflushed_entry (by simp [Event.Touches, InSlot]) (by simp [Event.Flushes]),
    dirty_releaseEvents]
  exact and_iff_left_of_imp fun h => not_flushes_entry (by omega)

/-- `shm_block_set_perms` leaves nothing unflushed. -/
theorem not_unflushed_setPerms {perms : UInt32} :
    ¬ Unflushed 64 x (lockEvents r ++ setPermsEvents G b i perms) := by
  have hend : setPermsEvents G b i perms =
      [.store (G.base + b.off + 12) 4 perms.toNat, .persist (G.base + b.off) 56] ++
        ([.store (slotAddr i + 88) 4 perms.toNat] ++
          [.persist (slotAddr i) 96, .drain, .unlock]) := rfl
  rw [hend, unflushed_entry (fun y hy => ?_) (by simp [Event.Flushes])]
  · rintro ⟨⟨h, hno⟩ | ⟨h, -⟩ | h, -⟩
    · have h1 : G.base + b.off + 12 ≤ x := h.1
      have h2 : x < G.base + b.off + 12 + 4 := h.2
      exact hno (writesBack_cons.2 (.inl (flushes_of_mem (by omega) (by omega))))
    · exact h
    · exact h
  · simp only [writes_cons, not_writes_nil, Event.Touches, or_false] at hy
    exact ⟨by omega, by omega⟩

/-- A resize in place leaves unflushed what its edit of the heap does. -/
theorem unflushed_inPlace {cap : Nat} :
    Unflushed 64 x (lockEvents r ++ (V ++ inPlaceEvents i cap n)) ↔
      Dirty 64 x V ∧ ¬ (Event.persist (slotAddr i) 96).Flushes 64 (x / 64) := by
  have hend : inPlaceEvents i cap n =
      [.store (slotAddr i + 64) 8 cap, .store (slotAddr i + 72) 8 n] ++
        [.persist (slotAddr i) 96, .drain, .unlock] := rfl
  rw [hend, unflushed_entry (fun y hy => ?_) (by simp [Event.Flushes])]
  simp only [writes_cons, not_writes_nil, Event.Touches, or_false] at hy
  exact ⟨by omega, by omega⟩

end Entry

/-! ## Moving an object

A relocation is an allocation and a free, and misses what either misses, unless the other one, or
its own write-backs, make up for it. -/

theorem not_dirty_moveEvents (hcap : b.cap ≤ c.cap) : ¬ Dirty 64 x (moveEvents G b c) := by
  have hend : adoptEvents G b c = [.store (G.base + c.off + 4) 4 b.tag,
      .store (G.base + c.off + 8) 4 b.owner, .store (G.base + c.off + 12) 4 b.perms,
      .store (G.base + c.off + 24) 8 b.id] ++
        [.persist (G.base + c.off + 56) c.cap, .persist (G.base + c.off) 56] := rfl
  have hhdr : ¬ Dirty 64 x (adoptEvents G b c) := by
    rw [hend]
    refine not_dirty_append (by simp [Dirty, Event.Touches]) fun h => ?_
    simp only [writes_cons, not_writes_nil, Event.Touches, or_false] at h
    exact writesBack_cons.2 (.inr (writesBack_cons.2 (.inl
      (flushes_of_mem (by omega) (by omega)))))
  refine not_dirty_append hhdr fun h => ?_
  have := writes_copyEvents hcap h
  rw [hend]
  exact writesBack_append.2 (.inr (writesBack_cons.2 (.inl (flushes_of_mem this.1 this.2))))

/-- Only the new place is written back. -/
theorem writesBack_moveEvents {l : Nat} (h : WritesBack 64 l (moveEvents G b c)) :
    (G.base + c.off) / 64 ≤ l := by
  have hextra : ¬ WritesBack 64 l (extraEvents (G.base + c.off) b.cap (c.cap - b.cap)) := by
    rw [extraEvents]
    split <;> simp [Event.Flushes]
  simp only [moveEvents, copyEvents, adoptEvents, List.cons_append, writesBack_append,
    writesBack_cons, not_writesBack_nil, hextra, Event.Flushes, or_false, false_or] at h
  omega

section Move

variable {pre₁ post₁ pre₂ post₂ : List Blk} {t : Nat} {r : Region}

/-- **What a relocation leaves unflushed**: the link before the block it takes, and the counters. -/
theorem unflushed_move (hr : Relocates bs b t pre₁ f post₁ pre₂ post₂) :
    Unflushed 64 x (lockEvents r ++ movingEvents G bs pre₁ f post₁ pre₂ post₂ b i t n) ↔
      (Dirty 64 x (takeEvents G pre₁ f post₁ t (liveBytes bs) (liveBlks bs).length) ∧
          ¬ WritesBack 64 (x / 64) (moveEvents G b (taken f t)) ∧
          ¬ WritesBack 64 (x / 64) (insertEvents G pre₂ b post₂) ∨
        lastFree pre₂ ≠ none ∧ 96 ≤ x ∧ x < 112) ∧
      ¬ (Event.persist (slotAddr i) 96).Flushes 64 (x / 64) := by
  have hend : movingEvents G bs pre₁ f post₁ pre₂ post₂ b i t n =
      (takeEvents G pre₁ f post₁ t (liveBytes bs) (liveBlks bs).length ++
        (moveEvents G b (taken f t) ++ releaseEvents G pre₂ b post₂
          (liveBytes bs + (taken f t).total) ((liveBlks bs).length + 1))) ++
      ([.store (slotAddr i + 56) 8 (f.off + 56), .store (slotAddr i + 64) 8 (taken f t).cap,
          .store (slotAddr i + 72) 8 n] ++ [.persist (slotAddr i) 96, .drain, .unlock]) := by
    simp only [movingEvents, relocateEvents, retargetEvents, finishEvents, List.append_assoc,
      List.cons_append, List.nil_append]
  have hcount : ¬ WritesBack 64 (x / 64) (uncountEvents b.total
      (liveBytes bs + (taken f t).total) ((liveBlks bs).length + 1)) := by
    simp [uncountEvents, Event.Flushes]
  have hmove : ¬ Dirty 64 x (moveEvents G b (taken f t)) := not_dirty_moveEvents hr.cap_le
  rw [hend, unflushed_entry (fun y hy => ?_) (by simp [Event.Flushes]), dirty_append, dirty_append,
    or_iff_right fun h => hmove (And.left h), dirty_releaseEvents, writesBack_append, releaseEvents,
    writesBack_append, or_iff_right hcount, not_or]
  simp only [writes_cons, not_writes_nil, Event.Touches, or_false] at hy
  exact ⟨by omega, by omega⟩

/-- **When a relocation misses nothing**: the list head is written back, and the block before the
one it takes is swallowed by the one it gives back. -/
theorem flushes_move (hr : Relocates bs b t pre₁ f post₁ pre₂ post₂) (h : HeapInv G m bs)
    (hb : b ∈ bs) (hl : b.live = true) (ht : 64 ≤ t) (ht8 : t % 8 = 0) (hi : i < G.dirCap) :
    FlushesMetadata G bs bs'
        (lockEvents r ++ movingEvents G bs pre₁ f post₁ pre₂ post₂ b i t n) ↔
      lastFree pre₂ = none ∧ ∀ p, lastFree pre₁ = some p → post₂.head? = some p := by
  have hD := G.base_ge
  have hs := G.slotAddr_lt hi
  have hmoved := hr.moved_heap (liveBytes bs) (liveBlks bs).length h hb hl ht ht8
  have hsplit := hr.split
  have htf : (taken f t).off = f.off := taken_off f t
  constructor
  · intro hall
    have hnone : lastFree pre₂ = none := Classical.byContradiction fun hno =>
      hall 96 (.inl (.region (by decide))) ((unflushed_move hr).2
        ⟨.inr ⟨hno, by decide, by decide⟩, not_flushes_entry (by decide)⟩)
    refine ⟨hnone, fun p hp => Classical.byContradiction fun hhead => ?_⟩
    obtain ⟨hp₁, hpl⟩ := mem_of_lastFree hp
    have hpf := (hsplit ▸ h).lastFree_apart hr.free hp
    have hpm : p ∈ bs := by simp [hsplit, hp₁]
    -- the block before lies behind the old place, and not next to it
    have hpost : p ∈ post₂ := by
      have hm : p ∈ pre₂ ++ b :: post₂ := by
        rw [← hr.moved, movedBlks]
        simp [hp₁]
      simp only [List.mem_append, List.mem_cons] at hm
      rcases hm with hm | rfl | hm
      · exact absurd ((lastFree_eq_none.1 hnone p hm).symm.trans hpl) (by decide)
      · exact absurd (hl.symm.trans hpl) (by decide)
      · exact hm
    obtain ⟨d, ds, rfl⟩ := List.exists_cons_of_ne_nil (List.ne_nil_of_mem hpost)
    have hds : p ∈ ds := (List.mem_cons.1 hpost).resolve_left fun e => hhead (by rw [e]; rfl)
    obtain ⟨mid, rest, rfl⟩ := List.append_of_mem hds
    have hm := hmoved
    rw [show pre₂ ++ b :: d :: (mid ++ p :: rest) = (pre₂ ++ b :: d :: mid) ++ p :: rest by
      simp] at hm
    have hdp : d.live = false → d.off + 128 ≤ p.off := hm.free_apart hpl (by simp)
    have hbd := hmoved.bounds_mid.2 d (by simp)
    have hdstop := hm.bounds_mid.1 d (by simp)
    have hbmin := (hmoved.wf b (by simp)).min
    have hdmin := (hmoved.wf d (by simp)).min
    have hmem : Metadata G bs (G.base + p.off + 48) := .block p hpm ⟨by omega, by omega⟩
    refine hall (G.base + p.off + 48) (.inl hmem) ((unflushed_move hr).2 ⟨.inl ⟨?_, ?_, ?_⟩, ?_⟩)
    · exact dirty_takeEvents_link hp hpf (Nat.le_refl _) (by omega)
    · intro hw
      have := writesBack_moveEvents hw
      omega
    · intro hw
      rcases writesBack_insertEvents hw with ⟨-, hw⟩ | ⟨c, hc, hw⟩
      · omega
      · rw [Event.Flushes] at hw
        rcases hc with hc | ⟨hc, hcl⟩ | hc
        · omega
        · obtain rfl : d = c := by simpa using hc
          have := hdp hcl
          omega
        · rw [hnone] at hc
          cases hc
    · rw [Event.Flushes]
      have := slotAddr_ge i
      omega
  · rintro ⟨hnone, hhead⟩ x - hx
    rcases ((unflushed_move hr).1 hx).1 with ⟨hd, -, hno⟩ | ⟨hno, -⟩
    · obtain ⟨p, hp, h1, h2⟩ := dirty_takeEvents hd
      obtain ⟨cs, rfl⟩ : ∃ cs, post₂ = p :: cs := List.head?_eq_some_iff.1 (hhead p hp)
      exact hno (writesBack_insertEvents_next (mem_of_lastFree hp).2 ⟨by omega, h2⟩)
    · exact hno hnone

/-- The block the object moves to was before or behind the old place, and everything else is where
it was. -/
theorem Relocates.around (hr : Relocates (pre ++ b :: post) b t pre₁ f post₁ pre₂ post₂)
    (h : HeapInv G m (pre ++ b :: post)) (hl : b.live = true) (ht : 64 ≤ t) (ht8 : t % 8 = 0) :
    (∃ mid, post = mid ++ f :: post₁ ∧ pre₁ = pre ++ b :: mid ∧ pre₂ = pre ∧
      post₂ = mid ++ (taken f t).adopted b :: (remnant f t ++ post₁)) ∨
    ∃ mid, pre = pre₁ ++ f :: mid ∧ post₁ = mid ++ b :: post ∧
      pre₂ = pre₁ ++ (taken f t).adopted b :: (remnant f t ++ mid) ∧ post₂ = post := by
  have hne : b ≠ f := fun e => by
    have := hr.free
    rw [← e, hl] at this
    cases this
  have hmoved := (hr.moved_heap 0 0 h (by simp) hl ht ht8).toRep
  have hm := hr.moved
  rcases List.append_eq_append_iff.1 hr.split with ⟨l, rfl, hpost⟩ | ⟨l, rfl, hpost⟩
  · cases l with
    | nil => exact absurd (List.cons.inj hpost).1 hne
    | cons d mid =>
      rw [List.cons_append] at hpost
      obtain ⟨rfl, rfl⟩ := List.cons.inj hpost
      refine .inl ⟨mid, rfl, rfl, ?_⟩
      rw [movedBlks, List.append_assoc, List.cons_append] at hm
      obtain ⟨h1, -, h2⟩ := hmoved.split_unique rfl hm.symm rfl
      exact ⟨h1, h2⟩
  · cases l with
    | nil => exact absurd (List.cons.inj hpost).1.symm hne
    | cons d mid =>
      rw [List.cons_append] at hpost
      obtain ⟨rfl, rfl⟩ := List.cons.inj hpost
      refine .inr ⟨mid, rfl, rfl, ?_⟩
      rw [movedBlks, ← List.append_assoc, ← List.cons_append, ← List.append_assoc] at hm
      obtain ⟨h1, -, h2⟩ := hmoved.split_unique rfl hm.symm rfl
      exact ⟨h1, h2⟩

/-- The condition in terms of the heap before the call. -/
theorem Relocates.flushes_iff (hr : Relocates (pre ++ b :: post) b t pre₁ f post₁ pre₂ post₂)
    (h : HeapInv G m (pre ++ b :: post)) (hl : b.live = true) (ht : 64 ≤ t) (ht8 : t % 8 = 0) :
    (lastFree pre₂ = none ∧ ∀ p, lastFree pre₁ = some p → post₂.head? = some p) ↔
      (∀ c ∈ pre, c.live = false → c = f ∧ f.total < t + 64) ∧
        ∀ p, lastFree pre₁ = some p → post.head? = some p := by
  have hfit := hr.fits
  have hfree := hr.free
  rcases hr.around h hl ht ht8 with ⟨mid, rfl, rfl, rfl, rfl⟩ | ⟨mid, rfl, rfl, rfl, rfl⟩
  · -- `f` lies behind the old place
    have hf : f ∉ pre₂ := fun hf => by
      have h1 := h.bounds_mid.1 f hf
      have h2 := h.bounds_mid.2 f (by simp)
      have := (h.wf b (by simp)).min
      omega
    have h1 : lastFree pre₂ = none ↔ ∀ c ∈ pre₂, c.live = false → c = f ∧ f.total < t + 64 := by
      rw [lastFree_eq_none]
      refine forall₂_congr fun c hc => ⟨fun hcl hcf => ?_, fun hcf => ?_⟩
      · rw [hcl] at hcf
        cases hcf
      · refine Bool.eq_true_of_not_eq_false fun hcl => hf ?_
        exact (hcf hcl).1 ▸ hc
    rw [← h1]
    refine and_congr_right fun hnone => forall₂_congr fun p hp => ?_
    -- the free block before `f` is between the two
    have hpm : p ∈ mid := by
      obtain ⟨hm, hpl⟩ := mem_of_lastFree hp
      simp only [List.mem_append, List.mem_cons] at hm
      rcases hm with hm | rfl | hm
      · exact absurd ((lastFree_eq_none.1 hnone p hm).symm.trans hpl) (by decide)
      · exact absurd (hl.symm.trans hpl) (by decide)
      · exact hm
    obtain ⟨d, ds, rfl⟩ := List.exists_cons_of_ne_nil (List.ne_nil_of_mem hpm)
    rfl
  · -- `f` lies before it
    refine and_congr_left fun _ => ?_
    have hsplit : pre₁ ++ f :: mid ++ b :: post₂ = pre₁ ++ f :: (mid ++ b :: post₂) := by simp
    have hmid := (hsplit ▸ h).bounds_mid
    have hfm := (h.wf f (by simp)).min
    simp only [lastFree_eq_none, List.mem_append, List.mem_cons]
    constructor
    · intro hall c hc hcl
      have hrem : f.total < t + 64 := by
        refine Decidable.byContradiction fun hno => ?_
        have := hall (Blk.fresh (f.off + t) (f.total - t)) (.inr (.inr (.inl ?_)))
        · cases this
        · rw [remnant, if_pos (by omega)]
          exact List.mem_singleton.2 rfl
      rcases hc with hc | hc | hc
      · exact absurd ((hall c (.inl hc)).symm.trans hcl) (by decide)
      · exact ⟨hc, hrem⟩
      · exact absurd ((hall c (.inr (.inr (.inr hc)))).symm.trans hcl) (by decide)
    · intro hall c hc
      refine Bool.eq_true_of_not_eq_false fun hcl => ?_
      rcases hc with hc | rfl | hc | hc
      · have := (hall c (.inl hc) hcl).1
        subst this
        have := hmid.1 c hc
        omega
      · cases hcl
      · rw [remnant, if_neg (by have := (hall f (.inr (.inl rfl)) hfree).2; omega)] at hc
        exact absurd hc List.not_mem_nil
      · have := (hall c (.inr (.inr hc)) hcl).1
        subst this
        have := hmid.2 c (by simp [hc])
        omega

end Move

/-! ## Each call -/

theorem flushes_alloc {q : Request} {r : Region} {id : Nat} (h : HeapInv G m (pre ++ b :: post))
    (hb : b.live = false) :
    FlushesMetadata G (pre ++ b :: post) bs' (lockEvents r ++ allocEvents G pre b post i id q) ↔
      ∀ p, lastFree pre = some p → CoversLink G p (slotAddr i) 96 := by
  simp only [FlushesMetadata, unflushed_alloc h hb]
  exact flushes_iff_link (F := fun l => (Event.persist (slotAddr i) 96).Flushes 64 l) h
    fun p hp => by simp [hp]

theorem flushes_free {r : Region} :
    FlushesMetadata G bs bs' (lockEvents r ++ freeEvents G pre b post i) ↔
      lastFree pre = none := by
  simp only [FlushesMetadata, unflushed_free]
  exact flushes_iff_counters (by decide)

/-- **A resize misses nothing exactly under `ResizeFlushes`.** -/
theorem flushes_resize {sz : Nat} {r : Region} {W : List Event} (h : Inv G m (pre ++ b :: post))
    (hh : Holds G m i b) (hn : n ≠ 0) {bs'' : List Blk}
    (hrun : ResizeRun G sz pre b post i n .ok W bs'') :
    FlushesMetadata G (pre ++ b :: post) bs' (lockEvents r ++ W) ↔
      ResizeFlushes G sz pre b post i n := by
  have ht := blockSize_ge hn
  have ht8 := blockSize_mod n
  have hbm : b ∈ pre ++ b :: post := by simp
  cases hrun with
  | keep hle hrem =>
    refine iff_of_true (fun x _ hx => ?_) ⟨fun hc => ?_, fun c cs _ hlt => ?_, fun hlt => ?_⟩
    · exact ((unflushed_inPlace (V := [])).1 hx).1
    all_goals omega
  | cut hrem =>
    have hiff : FlushesMetadata G (pre ++ b :: post) bs' (lockEvents r ++
        (cutTailEvents G pre b post (blockSize n) (liveBytes (pre ++ b :: post)) ++
          inPlaceEvents i (b.resized (blockSize n)).cap n)) ↔ lastFree pre = none := by
      rw [← flushes_iff_counters (G := G) (show 96 < 104 by decide)]
      refine forall₂_congr fun x _ => not_congr ?_
      rw [unflushed_inPlace, dirty_cutTailEvents hh.live]
      exact and_iff_left_of_imp fun hx => not_flushes_entry (by omega)
    rw [hiff]
    exact ⟨fun hp => ⟨fun _ => hp, fun c cs _ hlt => by omega, fun hlt => by omega⟩,
      fun hf => hf.shrinks hrem⟩
  | grow c cs hpost hlt hcan =>
    subst hpost
    have hc : HeapInv G m ((pre ++ [b]) ++ c :: cs) := by simpa using h.heap
    have hapart : ∀ p, lastFree pre = some p → p.off + 128 ≤ c.off := fun p hp =>
      hc.lastFree_apart hcan.1 ((lastFree_concat_live hh.live pre).trans hp)
    have hiff : FlushesMetadata G (pre ++ b :: c :: cs) bs' (lockEvents r ++
        (growEvents G pre b c cs (blockSize n) (liveBytes (pre ++ b :: c :: cs)) ++
          inPlaceEvents i (grownBlk b c (blockSize n)).cap n)) ↔
        (b.total + c.total < blockSize n + 64 → ∀ p, lastFree pre = some p →
          CoversLink G p (G.base + b.off) 56 ∨ CoversLink G p (slotAddr i) 96) := by
      by_cases hrem : 64 ≤ b.total + c.total - blockSize n
      · refine iff_of_true (fun x _ hx => ?_) fun _ => by omega
        exact ((dirty_growEvents hh.live hapart).1 (unflushed_inPlace.1 hx).1).1 hrem
      · rw [forall_prop_of_true (by omega)]
        refine Iff.trans (forall₂_congr fun x _ => not_congr ?_) (flushes_iff_link (F := fun l =>
          (Event.persist (G.base + b.off) 56).Flushes 64 l ∨
            (Event.persist (slotAddr i) 96).Flushes 64 l) h.heap fun p hp => by simp [hp])
        rw [unflushed_inPlace, dirty_growEvents hh.live hapart, not_or]
        tauto
    rw [hiff]
    refine ⟨fun hp => ⟨fun _ => by omega, fun d ds he _ _ => ?_, fun _ hno => absurd hcan hno⟩,
      fun hf => hf.grows c cs rfl hlt hcan⟩
    obtain ⟨rfl, rfl⟩ := List.cons.inj he
    exact hp
  | move pre₁ f post₁ pre₂ post₂ hlt hcan hr =>
    rw [flushes_move hr h.heap hbm hh.live ht ht8 hh.lt,
      hr.flushes_iff h.heap hh.live ht ht8]
    refine ⟨fun hp => ⟨fun _ => by omega, fun c cs _ _ hc => absurd hc hcan,
      fun _ _ pre' f' post' hs hf hfit hfirst => ?_⟩,
      fun hf => hf.moves hlt hcan pre₁ f post₁ hr.split hr.free hr.fits hr.first⟩
    obtain ⟨rfl, rfl, rfl⟩ := firstFit_unique hr.split hs hr.free hf hr.fits hfit hr.first hfirst
    exact hp

/-- The slot and the block of an allocation are determined. -/
theorem Takes.unique {q : Request} {pre' post' : List Blk} {j : Nat} (ht : Takes G m pre b i q)
    (ht' : Takes G m pre' c j q) (hb : bs = pre ++ b :: post) (hc : bs = pre' ++ c :: post') :
    pre = pre' ∧ i = j := by
  refine ⟨(firstFit_unique hb hc ht.free ht'.free ht.fits ht'.fits ht.first ht'.first).1, ?_⟩
  rcases Nat.lt_trichotomy i j with hij | hij | hij
  · exact absurd (ht'.slot_first i hij) ht.slot_free
  · exact hij
  · exact absurd (ht.slot_first j hij) ht'.slot_free

/-! ## Every call -/

/-- **Which calls write all metadata back.**  In every reachable state, a successful call leaves no
line of metadata dirty exactly under `Call.FlushesAll`. -/
theorem metadata_flushed (h : Reach G AnyCall m) {c : Call} (hl : Legal G m c)
    (hok : c.prog.val m = .ok) :
    FlushesMetadata G (blocks G m) (blocks G (c.prog.mem m)) (c.prog.trace m) ↔
      c.FlushesAll G m (blocks G m) := by
  obtain ⟨bs, hI⟩ := h.inv
  rw [hI.heap.toRep.blocks_eq]
  obtain ⟨rc, W, bs', hrun, hx⟩ := callRun hI hl
  obtain rfl : rc = .ok := hx.val.symm.trans hok
  have heff : FlushesMetadata G bs (blocks G (c.prog.mem m)) (c.prog.trace m) ↔
      FlushesMetadata G bs (blocks G (c.prog.mem m)) W := by
    refine forall₂_congr fun x _ => not_congr ?_
    rw [← hx.eff, unflushed_iff_effects]
  rw [heff]
  cases hrun with
  | refused hrc hW => exact absurd rfl hrc
  | alloc ht =>
    rename_i pre b post i q r
    rw [flushes_alloc hI.heap ht.free]
    refine ⟨fun hp pre' f post' j hs ht' => ?_, fun hf => hf pre b post i rfl ht⟩
    obtain ⟨rfl, rfl⟩ := ht.unique ht' rfl hs
    exact hp
  | free hf hh hacc =>
    rename_i pre b post i objId r userId callerPerms
    rw [flushes_free]
    refine ⟨fun hp pre' c post' j hs hf' hh' => ?_, fun hall => hall pre b post i rfl hf hh⟩
    obtain rfl := hf.unique hf'
    have hoff : b.off = c.off := Nat.add_right_cancel (hh.mirrors.off.symm.trans hh'.mirrors.off)
    obtain ⟨rfl, -, -⟩ := hI.heap.toRep.split_unique rfl hs hoff
    exact hp
  | resize hf hh hacc hn hn' hrun =>
    rename_i pre b post i objId n r userId callerPerms W
    rw [flushes_resize hI hh hn hrun]
    refine ⟨fun hp r' pre' c post' j hr hs hf' hh' => ?_,
      fun hall => hall r pre b post i rfl rfl hf hh⟩
    obtain rfl := Option.some.inj hr
    obtain rfl := hf.unique hf'
    have hoff : b.off = c.off := Nat.add_right_cancel (hh.mirrors.off.symm.trans hh'.mirrors.off)
    obtain ⟨rfl, rfl, rfl⟩ := hI.heap.toRep.split_unique rfl hs hoff
    exact hp
  | setPerms hh hf hacc => exact iff_of_true (fun x _ => not_unflushed_setPerms) trivial

/-- The first allocation on a page writes everything back. -/
theorem metadata_flushed_page : FlushesMetadata pageGeometry
    (blocks pageGeometry (freshMem pageGeometry))
    (blocks pageGeometry ((asks 8).prog.mem (freshMem pageGeometry)))
    ((asks 8).prog.trace (freshMem pageGeometry)) := by
  have hI := (inv_fresh pageGeometry).toInv
  refine (metadata_flushed (reach_fresh pageGeometry AnyCall) (legal_alloc (r := pageHandle) hI rfl
    (by decide) (by decide)) (by decide +kernel)).2 ?_
  rw [hI.heap.toRep.blocks_eq]
  rintro pre f post i hs - p hp
  -- the one block of the heap has none before it
  have hpre : pre = [] := by
    cases pre with
    | nil => rfl
    | cons d ds => simp at hs
  rw [hpre] at hp
  cases hp

/-- The page when the first of two objects has been freed. -/
def freedBelow : Mem :=
  (frees 1).prog.mem ((asks 8).prog.mem ((asks 8).prog.mem (freshMem pageGeometry)))

/-- **Freeing the second one**, which has a free block before it, leaves `used_bytes` dirty. -/
theorem metadata_flushed_fails : Reach pageGeometry AnyCall freedBelow ∧
    (frees 2).prog.val freedBelow = .ok ∧
    ¬ FlushesMetadata pageGeometry (blocks pageGeometry freedBelow)
      (blocks pageGeometry ((frees 2).prog.mem freedBelow)) ((frees 2).prog.trace freedBelow) := by
  refine ⟨?_, by decide +kernel, fun hall => ?_⟩
  · have h1 := (reach_fresh pageGeometry AnyCall).alloc (r := pageHandle)
      (q := ⟨8, none, 7, 0xF, 0⟩) rfl (by decide) (by decide) trivial
    have h2 := h1.alloc (r := pageHandle) (q := ⟨8, none, 7, 0xF, 0⟩) rfl (by decide) (by decide)
      trivial
    exact h2.free (r := pageHandle) rfl (by decide) trivial
  · exact hall 96 (.inl (.region (by decide))) (by decide +kernel)

end ShmAlloc
