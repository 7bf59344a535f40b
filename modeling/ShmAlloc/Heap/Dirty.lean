import ShmAlloc.Heap.Resize
import ShmAlloc.Lib.Persist

/-!
# What the heap operations leave dirty

For each operation on the heap, the bytes it stores to without asking for the write-back of their
lines afterwards.  There are two kinds: the link by which a free block is unlinked or replaced, if
it is in the header of another free block, and the counters, if the list head is not written back.

## What is here

* `dirty_takeEvents`: `heap_alloc_block` leaves dirty at most the link in the header of a free block
  before the one it takes.
* `not_dirty_insertEvents`: `freelist_insert` leaves nothing dirty.
* `dirty_releaseEvents` and `dirty_cutTailEvents`: giving a block or a tail back leaves dirty the
  counters, unless the list head is written back with them.  That is so exactly when no free block
  lies before (`writesBack_insertEvents_head`, `not_writesBack_insertEvents`).
* `dirty_growEvents`: growing in place leaves dirty the link before the neighbour, if nothing is cut
  off again and the block that grows has its header in another line.

Statements come as equivalences where the converse is needed to exhibit a call whose stores are
lost, and as bounds otherwise.  Lines have 64 bytes, and headers start at multiples of 8, so
whether two fields share a line is arithmetic.
-/

set_option autoImplicit false

namespace ShmAlloc

open Tiling Links

variable {G : Geometry} {m : Mem} {bs pre post : List Blk} {b c p : Blk} {x : Nat}

/-! ## The link behind the free blocks

Where the link to a block is stored depends on what is before it: the last free block of `pre`, if
there is one, and the region header otherwise. -/

/-- A byte of the link that leads to what follows the free blocks of `pre`. -/
def LinkByte (G : Geometry) (pre : List Blk) (x : Nat) : Prop :=
  linkAddr G (lastLink 0 (freeOffs pre)) ≤ x ∧ x < linkAddr G (lastLink 0 (freeOffs pre)) + 8

theorem linkByte_none (h : lastFree pre = none) : LinkByte G pre x ↔ 88 ≤ x ∧ x < 96 := by
  rw [LinkByte, lastLink_freeOffs, h, linkAddr_zero]

theorem linkByte_some (h : lastFree pre = some p) :
    LinkByte G pre x ↔ G.base + p.off + 48 ≤ x ∧ x < G.base + p.off + 56 := by
  rw [LinkByte, lastLink_freeOffs, h, linkAddr_succ]

/-- A byte of the link in the header of the last free block of `pre`. -/
def InnerLinkByte (G : Geometry) (pre : List Blk) (x : Nat) : Prop :=
  ∃ p, lastFree pre = some p ∧ G.base + p.off + 48 ≤ x ∧ x < G.base + p.off + 56

theorem LinkByte.cases (h : LinkByte G pre x) : 88 ≤ x ∧ x < 96 ∨ InnerLinkByte G pre x := by
  cases hp : lastFree pre with
  | none => exact .inl ((linkByte_none hp).1 h)
  | some p => exact .inr ⟨p, hp, (linkByte_some hp).1 h⟩

theorem InnerLinkByte.linkByte (h : InnerLinkByte G pre x) : LinkByte G pre x := by
  obtain ⟨p, hp, hx⟩ := h
  exact (linkByte_some hp).2 hx

theorem lastFree_eq_none : lastFree pre = none ↔ ∀ c ∈ pre, c.live = true := by
  simp [lastFree, freeBlks]

/-! ## Taking a block -/

theorem dirty_detachEvents {need : Nat} (h : Dirty 64 x (detachEvents G pre b post need)) :
    InHdr G b x ∨ LinkByte G pre x := by
  rw [detachEvents] at h
  split at h
  · rw [dirty_append] at h
    rcases h with ⟨h, hno⟩ | h
    · -- the header of the remainder is written back
      have := writes_freshEvents h.writes
      refine absurd ?_ hno
      simp only [writesBack_append, writesBack_cons]
      exact .inr (.inl (flushes_of_mem this.1 this.2))
    · rcases writes_append.1 h.writes with h | h
      · have := writes_cutEvents h
        exact .inl ⟨by omega, by omega⟩
      · exact .inr (by simpa [Event.Touches, LinkByte] using h)
  · exact .inr (by simpa [Event.Touches, LinkByte] using h.writes)

theorem not_dirty_markEvents {t used count : Nat} : ¬ Dirty 64 x (markEvents G b t used count) := by
  show ¬ Dirty 64 x ([.store (G.base + b.off + 16) 1 1, .store (G.base + b.off + 48) 8 0,
    .store 96 8 (used + t), .store 104 8 (count + 1)] ++
      [.persist (G.base + b.off) 56, .persist 88 24])
  refine not_dirty_append (by simp [Dirty, Event.Touches]) fun h => ?_
  simp only [writes_cons, not_writes_nil, Event.Touches, or_false] at h
  simp only [writesBack_cons, not_writesBack_nil, or_false]
  by_cases hx : x < 112 ∧ 96 ≤ x
  · exact .inr (flushes_of_mem (by omega) (by omega))
  · exact .inl (flushes_of_mem (by omega) (by omega))

/-- `heap_alloc_block` writes back the header of the block it takes, and the list head. -/
theorem writesBack_markEvents {t used count : Nat} (h : InHdr G b x ∨ 88 ≤ x ∧ x < 112) :
    WritesBack 64 (x / 64) (markEvents G b t used count) := by
  simp only [markEvents, writesBack_cons]
  rcases h with h | h
  · exact .inr (.inr (.inr (.inr (.inl (flushes_of_mem h.1 h.2)))))
  · exact .inr (.inr (.inr (.inr (.inr (.inl (flushes_of_mem h.1 h.2))))))

/-- **`heap_alloc_block` leaves dirty at most the link in the header of a free block before the one
it takes.** -/
theorem dirty_takeEvents {need used count : Nat}
    (h : Dirty 64 x (takeEvents G pre b post need used count)) : InnerLinkByte G pre x := by
  rw [takeEvents, dirty_append] at h
  rcases h with ⟨h, hno⟩ | h
  · rcases dirty_detachEvents h with h | h
    · exact absurd (writesBack_markEvents (.inl h)) hno
    · refine h.cases.resolve_left fun h => hno (writesBack_markEvents (.inr ?_))
      omega
  · exact absurd h not_dirty_markEvents

/-- The link is the last thing written before the block is marked. -/
theorem dirty_detachEvents_link {need : Nat} (h : LinkByte G pre x) :
    Dirty 64 x (detachEvents G pre b post need) := by
  rw [detachEvents]
  split
  · refine dirty_append.2 (.inr (dirty_append.2 (.inr (.inr (.inl ⟨h, not_writesBack_nil⟩)))))
  · exact .inl ⟨h, not_writesBack_nil⟩

/-- It is dirty, if the block that holds it is not next to the one that is taken. -/
theorem dirty_takeEvents_link {need used count : Nat} (hp : lastFree pre = some p)
    (hapart : p.off + 128 ≤ b.off) (h1 : G.base + p.off + 48 ≤ x) (h2 : x < G.base + p.off + 56) :
    Dirty 64 x (takeEvents G pre b post need used count) := by
  have hD := G.base_ge
  refine dirty_append.2 (.inl ⟨dirty_detachEvents_link ((linkByte_some hp).2 ⟨h1, h2⟩), ?_⟩)
  simp only [markEvents, writesBack_cons, not_writesBack_nil, Event.Flushes, or_false, false_or]
  omega

/-! ## Giving a block back -/

theorem dirty_nextEvents (h : Dirty 64 x (nextEvents G b post)) : InHdr G b x := by
  cases post with
  | nil => exact absurd h id
  | cons c cs =>
    rw [nextEvents] at h
    split at h
    · exact absurd h id
    · rw [dirty_append] at h
      obtain ⟨h, hno⟩ := h.resolve_right (by simp [Dirty, Event.Touches])
      refine (writes_mergeEvents h.writes).resolve_right fun h => hno ?_
      exact writesBack_cons.2 (.inl (flushes_of_mem h.1 h.2))

theorem not_dirty_prevEvents : ¬ Dirty 64 x (prevEvents G pre (b :: post)) := by
  rw [prevEvents]
  cases hp : lastFree pre with
  | none => simp [Dirty, Event.Touches]
  | some p =>
    by_cases hadj : p.stop = b.off
    · simp only [hadj, if_true]
      refine not_dirty_append (by simp [Dirty, Event.Touches]) fun h => ?_
      simp only [writesBack_cons]
      rcases writes_mergeEvents h with h | h
      · exact .inr (.inl (flushes_of_mem h.1 h.2))
      · exact .inl (flushes_of_mem h.1 h.2)
    · simp [hadj, Dirty, Event.Touches]

/-- The write-backs at the end of `freelist_insert`. -/
theorem writesBack_prevEvents (h : InHdr G b x ∨ LinkByte G pre x) :
    WritesBack 64 (x / 64) (prevEvents G pre (b :: post)) := by
  rw [prevEvents]
  cases hp : lastFree pre with
  | none =>
    rw [linkByte_none hp] at h
    simp only [writesBack_cons]
    rcases h with h | h
    · exact .inr (.inl (flushes_of_mem h.1 h.2))
    · exact .inl (flushes_of_mem h.1 h.2)
  | some p =>
    rw [linkByte_some hp] at h
    by_cases hadj : p.stop = b.off
    · simp only [hadj, if_true, writesBack_append, writesBack_cons]
      rcases h with h | h
      · exact .inr (.inl (flushes_of_mem h.1 h.2))
      · exact .inr (.inr (.inl (flushes_of_mem (by omega) h.2)))
    · simp only [hadj, if_false, writesBack_cons]
      rcases h with h | h
      · exact .inr (.inl (flushes_of_mem h.1 h.2))
      · exact .inl (flushes_of_mem (by omega) h.2)

/-- **`freelist_insert` leaves nothing dirty.** -/
theorem not_dirty_insertEvents : ¬ Dirty 64 x (insertEvents G pre b post) := by
  obtain ⟨t, rest, he, -⟩ := absorbNext_eq_cons b.freed post
  rw [insertEvents, he]
  have hwb : InHdr G b x ∨ LinkByte G pre x → WritesBack 64 (x / 64)
      (prevEvents G pre ({ b.freed with total := t } :: rest)) :=
    writesBack_prevEvents (b := { b.freed with total := t })
  have hnext : ¬ Dirty 64 x (nextEvents G b.freed post ++
      prevEvents G pre ({ b.freed with total := t } :: rest)) := by
    rw [dirty_append]
    rintro (⟨h, hno⟩ | h)
    · exact hno (hwb (.inl (dirty_nextEvents h)))
    · exact not_dirty_prevEvents h
  refine not_dirty_append (not_dirty_append hnext fun h => ?_) fun h => ?_
  · simp only [linkEvents, writes_cons, not_writes_nil, Event.Touches, or_false] at h
    refine writesBack_append.2 (.inr (hwb ?_))
    rcases h with h | h
    · exact .inl ⟨by omega, by omega⟩
    · exact .inr h
  · have := writes_clearEvents h
    exact writesBack_append.2 (.inr (writesBack_append.2 (.inr (hwb (.inl ⟨by omega, by omega⟩)))))

/-- It writes back the header of the block and the link that leads to it. -/
theorem writesBack_insertEvents_of (h : InHdr G b x ∨ LinkByte G pre x) :
    WritesBack 64 (x / 64) (insertEvents G pre b post) := by
  obtain ⟨t, rest, he, -⟩ := absorbNext_eq_cons b.freed post
  rw [insertEvents, he]
  refine writesBack_append.2 (.inr (writesBack_append.2 (.inr (writesBack_append.2 (.inr ?_)))))
  exact writesBack_prevEvents (b := { b.freed with total := t }) h

/-- It writes back the header of a block it swallows. -/
theorem writesBack_insertEvents_next {cs : List Blk} (hc : c.live = false) (h : InHdr G c x) :
    WritesBack 64 (x / 64) (insertEvents G pre b (c :: cs)) := by
  refine writesBack_append.2 (.inr (writesBack_append.2 (.inr (writesBack_append.2 (.inl ?_)))))
  rw [nextEvents, hc]
  exact writesBack_append.2 (.inr (writesBack_cons.2 (.inl (flushes_of_mem h.1 h.2))))

/-- Apart from the list head, it writes back headers of free blocks. -/
theorem writesBack_insertEvents {l : Nat} (h : WritesBack 64 l (insertEvents G pre b post)) :
    lastFree pre = none ∧ l = 1 ∨
      ∃ c, (c.off = b.off ∨ c ∈ post.head? ∧ c.live = false ∨ lastFree pre = some c) ∧
        (Event.persist (G.base + c.off) 56).Flushes 64 l := by
  obtain ⟨t, rest, he, -⟩ := absorbNext_eq_cons b.freed post
  rw [insertEvents, he] at h
  simp only [clearEvents, linkEvents, writesBack_append, writesBack_cons, not_writesBack_nil,
    Event.Flushes, false_or, or_false] at h
  rcases h with h | h
  · cases post with
    | nil => exact absurd h not_writesBack_nil
    | cons c cs =>
      rw [nextEvents] at h
      split at h
      · exact absurd h not_writesBack_nil
      · rename_i hc
        refine .inr ⟨c, .inr (.inl ⟨rfl, Bool.eq_false_iff.2 hc⟩), ?_⟩
        simpa [mergeEvents, Event.Flushes] using h
  · rw [prevEvents] at h
    cases hp : lastFree pre with
    | none =>
      simp only [hp, writesBack_cons, not_writesBack_nil, or_false] at h
      rcases h with h | h
      · refine .inl ⟨rfl, ?_⟩
        rw [Event.Flushes] at h
        omega
      · exact .inr ⟨b, .inl rfl, h⟩
    | some p =>
      have h' : (Event.persist (G.base + b.off) 56).Flushes 64 l ∨
          (Event.persist (G.base + p.off) 56).Flushes 64 l := by
        simp only [hp] at h
        split at h
        · simpa [mergeEvents, Event.Flushes] using h
        · simpa [or_comm] using h
      rcases h' with h | h
      · exact .inr ⟨b, .inl rfl, h⟩
      · exact .inr ⟨p, .inr (.inr rfl), h⟩

/-- The counters share their line with the list head. -/
theorem writesBack_insertEvents_head (hpre : lastFree pre = none) (hx : 64 ≤ x ∧ x < 128) :
    WritesBack 64 (x / 64) (insertEvents G pre b post) := by
  obtain ⟨t, rest, he, -⟩ := absorbNext_eq_cons b.freed post
  rw [insertEvents, he, prevEvents, hpre]
  refine writesBack_append.2 (.inr (writesBack_append.2 (.inr (writesBack_append.2 (.inr ?_)))))
  exact writesBack_cons.2 (.inl ⟨by omega, by omega⟩)

/-- Otherwise its write-backs are all behind the region header. -/
theorem not_writesBack_insertEvents (hpre : lastFree pre = some p) (hx : x < 128) :
    ¬ WritesBack 64 (x / 64) (insertEvents G pre b post) := fun h => by
  have hD := G.base_ge
  rcases writesBack_insertEvents h with ⟨h, -⟩ | ⟨c, -, h⟩
  · rw [hpre] at h
    cases h
  · rw [Event.Flushes] at h
    omega

/-- **`heap_free_block` leaves dirty the counters**, unless the list head is written back with
them. -/
theorem dirty_releaseEvents {used count : Nat} :
    Dirty 64 x (releaseEvents G pre b post used count) ↔
      lastFree pre ≠ none ∧ 96 ≤ x ∧ x < 112 := by
  rw [releaseEvents, dirty_append, or_iff_left not_dirty_insertEvents]
  constructor
  · rintro ⟨h, hno⟩
    have hx := writes_uncountEvents h.writes
    exact ⟨fun hp => hno (writesBack_insertEvents_head hp (by omega)), hx⟩
  · rintro ⟨hp, hx⟩
    obtain ⟨p, hp⟩ := Option.ne_none_iff_exists'.1 hp
    refine ⟨?_, not_writesBack_insertEvents hp (by omega)⟩
    simp only [uncountEvents, Dirty, writesBack_cons, not_writesBack_nil, Event.Touches,
      Event.Flushes, or_false, false_or, not_false_eq_true, and_true]
    omega

/-! ## Cutting off a tail -/

theorem dirty_trimEvents {t used : Nat} (h : Dirty 64 x (trimEvents G b t used)) :
    96 ≤ x ∧ x < 104 ∨ InHdr G (b.tail t) x := by
  rcases writes_trimEvents h.writes with hx | hx | hx
  · exact .inl hx
  · -- the header of the block is written back at the end
    rw [trimEvents, ← List.append_assoc, ← List.append_assoc, dirty_append] at h
    obtain ⟨-, hno⟩ := h.resolve_right (by simp [Dirty, Event.Touches])
    exact absurd (writesBack_cons.2 (.inl (flushes_of_mem hx.1 hx.2))) hno
  · exact .inr hx

theorem lastFree_concat_resized (hb : b.live = true) (pre : List Blk) (t : Nat) :
    lastFree (pre ++ [b.resized t]) = lastFree pre := lastFree_concat_live (p := b.resized t) hb pre

/-- **Cutting off a tail leaves dirty `used_bytes`**, unless the list head is written back with
it. -/
theorem dirty_cutTailEvents {t used : Nat} (hb : b.live = true) :
    Dirty 64 x (cutTailEvents G pre b post t used) ↔ lastFree pre ≠ none ∧ 96 ≤ x ∧ x < 104 := by
  have hD := G.base_ge
  have hlast := lastFree_concat_resized hb pre t
  rw [cutTailEvents, dirty_append, or_iff_left not_dirty_insertEvents]
  constructor
  · rintro ⟨h, hno⟩
    rcases dirty_trimEvents h with hx | hx
    · exact ⟨fun hp => hno (writesBack_insertEvents_head (hlast.trans hp) (by omega)), hx⟩
    · exact absurd (writesBack_insertEvents_of (.inl hx)) hno
  · rintro ⟨hp, hx⟩
    obtain ⟨p, hp⟩ := Option.ne_none_iff_exists'.1 hp
    refine ⟨?_, not_writesBack_insertEvents (hlast.trans hp) (by omega)⟩
    refine dirty_append.2 (.inr (dirty_append.2 (.inl ⟨.inr (.inl ⟨hx, not_writesBack_nil⟩), ?_⟩)))
    simp only [cutEvents, writesBack_append, writesBack_cons, not_writesBack_nil, Event.Flushes,
      or_false, false_or]
    omega

/-- It writes back the header of the block, and the link before it. -/
theorem writesBack_cutTailEvents {t used : Nat} (hb : b.live = true)
    (h : InHdr G b x ∨ LinkByte G pre x) :
    WritesBack 64 (x / 64) (cutTailEvents G pre b post t used) := by
  rw [cutTailEvents, writesBack_append]
  rcases h with h | h
  · refine .inl (writesBack_append.2 (.inr (writesBack_append.2 (.inr (writesBack_append.2
      (.inr ?_))))))
    exact writesBack_cons.2 (.inl (flushes_of_mem h.1 h.2))
  · refine .inr (writesBack_insertEvents_of (.inr ?_))
    rwa [LinkByte, lastLink_freeOffs, lastFree_concat_resized hb, ← lastLink_freeOffs]

/-! ## Growing in place -/

theorem dirty_swallowEvents {used : Nat} (h : Dirty 64 x (swallowEvents G b c used)) :
    96 ≤ x ∧ x < 104 ∨ InHdr G b x := by
  rcases writes_swallowEvents h.writes with hx | hx | hx
  · exact .inl hx
  · exact .inr hx
  · -- the header of the swallowed block is written back at the end
    have hsplit : swallowEvents G b c used = (.store 96 8 (used + c.total) ::
        (cutEvents (G.base + b.off) (b.total + c.total) ++ [.store (G.base + c.off) 4 0])) ++
          [.persist (G.base + c.off) 56] := by simp [swallowEvents]
    rw [hsplit, dirty_append] at h
    obtain ⟨-, hno⟩ := h.resolve_right (by simp [Dirty, Event.Touches])
    exact absurd (writesBack_cons.2 (.inl (flushes_of_mem hx.1 hx.2))) hno

theorem writesBack_trimGrownEvents {t used : Nat} (hb : b.live = true) (h : InHdr G b x) :
    WritesBack 64 (x / 64) (trimGrownEvents G pre b post t used) := by
  rw [trimGrownEvents]
  split
  · exact writesBack_cutTailEvents hb (.inl h)
  · exact writesBack_cons.2 (.inl (flushes_of_mem h.1 h.2))

theorem dirty_trimGrownEvents {t used : Nat} (hb : b.live = true)
    (h : Dirty 64 x (trimGrownEvents G pre b post t used)) : 96 ≤ x ∧ x < 104 := by
  rw [trimGrownEvents] at h
  split at h
  · exact ((dirty_cutTailEvents hb).1 h).2
  · exact absurd h (by simp [Dirty, Event.Touches])

/-- **Growing in place leaves dirty the link in the header of the free block before**, if nothing is
cut off again, and the header of the block that grows is in another line. -/
theorem dirty_growEvents {t used : Nat} (hb : b.live = true)
    (hapart : ∀ p, lastFree pre = some p → p.off + 128 ≤ c.off) :
    Dirty 64 x (growEvents G pre b c post t used) ↔ ¬ 64 ≤ b.total + c.total - t ∧
      InnerLinkByte G pre x ∧ ¬ (Event.persist (G.base + b.off) 56).Flushes 64 (x / 64) := by
  have hD := G.base_ge
  have hsw : (swallowed b c).total = b.total + c.total := rfl
  have hlink : lastLink 0 (freeOffs (pre ++ [b])) = lastLink 0 (freeOffs pre) := by
    rw [lastLink_freeOffs, lastFree_concat_live hb, ← lastLink_freeOffs]
  have hcount : 96 ≤ x ∧ x < 104 → (Event.persist 96 8).Flushes 64 (x / 64) := fun hx => by
    rw [Event.Flushes]
    omega
  constructor
  · intro h
    rw [growEvents, dirty_append, dirty_append, dirty_append] at h
    simp only [writesBack_append, writesBack_cons, not_writesBack_nil, or_false, not_or] at h
    rcases h with ⟨h, h1, h2, h3⟩ | ⟨h, h1, h2⟩ | ⟨h, h1⟩ | h
    · have hw := h.writes
      simp only [removeEvents, hlink, writes_cons, not_writes_nil, Event.Touches, or_false] at hw
      rcases hw with hw | hw
      · have hlink : LinkByte G pre x := hw
        rcases hlink.cases with hx | hx
        · refine absurd ?_ h3
          rw [Event.Flushes]
          omega
        · rw [trimGrownEvents, hsw] at h2
          split at h2
          · exact absurd (writesBack_cutTailEvents (b := swallowed b c) hb (.inr hw)) h2
          · rename_i hrem
            exact ⟨hrem, hx, fun hf => h2 (writesBack_cons.2 (.inl hf))⟩
      · refine absurd ?_ h1
        simp only [swallowEvents, writesBack_append, writesBack_cons]
        exact .inr (.inr (.inr (.inl (flushes_of_mem (by omega) (by omega)))))
    · rcases dirty_swallowEvents h with hx | hx
      · exact absurd (hcount hx) h2
      · exact absurd (writesBack_trimGrownEvents (b := swallowed b c) hb hx) h1
    · exact absurd (hcount (dirty_trimGrownEvents (b := swallowed b c) hb h)) h1
    · exact absurd h (by simp [Dirty, Event.Touches])
  · rintro ⟨hrem, hx, hno⟩
    have hl := hx.linkByte
    obtain ⟨p, hp, hx⟩ := hx
    have := hapart p hp
    rw [Event.Flushes] at hno
    refine dirty_append.2 (.inl ⟨?_, ?_⟩)
    · refine .inl ⟨?_, by simp [Event.Flushes]⟩
      rwa [hlink]
    · rw [trimGrownEvents, hsw, if_neg hrem]
      simp only [swallowEvents, cutEvents, writesBack_append, writesBack_cons, not_writesBack_nil,
        Event.Flushes, or_false, false_or]
      have : (swallowed b c).off = b.off := rfl
      omega

end ShmAlloc
