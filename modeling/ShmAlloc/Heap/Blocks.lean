import ShmAlloc.Lib.Tiling

/-!
# The abstract heap

What the allocator maintains, with the memory taken away: a list of blocks in address order that
tile the heap, each either live, with the identity of the object it holds, or free.  The free list
is not a second thing to keep track of, it is the free blocks of the list (`freeOffs`), and a heap
is fully coalesced when no two neighbours are both free (`Coalesced`).

## What is here

* `Blk` and `Blk.WF`: a block as its header describes it, and what every header satisfies on its
  own.  `Blk.cap` is `payload_cap` as it stands in memory.  Merging does not bring it up to date, so
  a block may be larger than its capacity says.
* `Blk.freed`, `Blk.fresh`, `Blk.grown` and `Blk.resized`: what the code makes of a block.
* `liveBlks`, `freeBlks` and `freeOffs`, and how they split along a list of blocks.
* `insertFree`: the one edit that changes the shape of the list in more than one way.  Giving a
  block back merges it with a free successor, a free predecessor, both or neither.
* `liveBlks_insertFree`, `forall_insertFree` and `coalesced_insertFree`: it leaves the live blocks
  alone, keeps what holds of all blocks however large, and **restores full coalescing**.
-/

set_option autoImplicit false

namespace ShmAlloc

open Tiling

/-- A heap block: where it is, how large, and what the header says about its object. -/
structure Blk where
  /-- Heap offset of the header. -/
  off : Nat
  /-- Header and payload together. -/
  total : Nat
  /-- `payload_cap`. -/
  cap : Nat
  /-- The tag bit. -/
  live : Bool
  id : Nat
  owner : Nat
  perms : Nat
  tag : Nat
  deriving DecidableEq, Repr

namespace Blk

/-- Heap offset of the first byte behind the block. -/
def stop (b : Blk) : Nat := b.off + b.total

/-- What every header in the heap satisfies on its own. -/
structure WF (b : Blk) : Prop where
  /-- Blocks start at multiples of 8. -/
  aligned : b.off % 8 = 0
  /-- No block is smaller than `BLOCK_MIN`. -/
  min : 64 ≤ b.total
  /-- The capacity in the header never exceeds the payload the block really has. -/
  cap_le : b.cap + 56 ≤ b.total

/-- The header `freelist_insert` leaves of a block it is given, before any merging. -/
def freed (b : Blk) : Blk := { b with live := false, id := 0, owner := 0, perms := 0, tag := 0 }

/-- A free block of `t` bytes at `o` as `heap_alloc_block` and `shm_resize` create it. -/
def fresh (o t : Nat) : Blk :=
  { off := o, total := t, cap := t - 56, live := false, id := 0, owner := 0, perms := 0, tag := 0 }

/-- The block with its free physical successor, of `t` bytes, merged into it.  The capacity is not
updated. -/
def grown (b : Blk) (t : Nat) : Blk := { b with total := b.total + t }

/-- The block cut down, or grown, to `t` bytes, its capacity with it. -/
def resized (b : Blk) (t : Nat) : Blk := { b with total := t, cap := t - 56 }

@[simp] theorem freed_off (b : Blk) : b.freed.off = b.off := rfl
@[simp] theorem freed_total (b : Blk) : b.freed.total = b.total := rfl
@[simp] theorem freed_cap (b : Blk) : b.freed.cap = b.cap := rfl
@[simp] theorem freed_live (b : Blk) : b.freed.live = false := rfl
@[simp] theorem fresh_off (o t : Nat) : (fresh o t).off = o := rfl
@[simp] theorem fresh_total (o t : Nat) : (fresh o t).total = t := rfl
@[simp] theorem fresh_cap (o t : Nat) : (fresh o t).cap = t - 56 := rfl
@[simp] theorem fresh_live (o t : Nat) : (fresh o t).live = false := rfl
@[simp] theorem fresh_freed (o t : Nat) : (fresh o t).freed = fresh o t := rfl
@[simp] theorem grown_off (b : Blk) (t : Nat) : (b.grown t).off = b.off := rfl
@[simp] theorem grown_total (b : Blk) (t : Nat) : (b.grown t).total = b.total + t := rfl
@[simp] theorem grown_cap (b : Blk) (t : Nat) : (b.grown t).cap = b.cap := rfl
@[simp] theorem grown_live (b : Blk) (t : Nat) : (b.grown t).live = b.live := rfl
@[simp] theorem resized_off (b : Blk) (t : Nat) : (b.resized t).off = b.off := rfl
@[simp] theorem resized_total (b : Blk) (t : Nat) : (b.resized t).total = t := rfl
@[simp] theorem resized_cap (b : Blk) (t : Nat) : (b.resized t).cap = t - 56 := rfl
@[simp] theorem resized_live (b : Blk) (t : Nat) : (b.resized t).live = b.live := rfl

theorem WF.freed {b : Blk} (h : b.WF) : b.freed.WF := ⟨h.aligned, h.min, h.cap_le⟩

theorem WF.grown {b : Blk} (h : b.WF) (t : Nat) : (b.grown t).WF :=
  ⟨h.aligned, by have := h.min; rw [grown_total]; omega,
    by have := h.cap_le; rw [grown_total, grown_cap]; omega⟩

theorem WF.resized {b : Blk} (h : b.WF) {t : Nat} (ht : 64 ≤ t) : (b.resized t).WF :=
  ⟨h.aligned, ht, by rw [resized_total, resized_cap]; omega⟩

theorem fresh_wf {o t : Nat} (ho : o % 8 = 0) (ht : 64 ≤ t) : (fresh o t).WF :=
  ⟨ho, ht, by rw [fresh_total, fresh_cap]; omega⟩

end Blk

/-! ## Live blocks and free blocks

Almost every list of blocks met later has the form `pre ++ b :: post`, so the lemmas are about
appending and about one block in the middle. -/

/-- The blocks tile `[s, e)` of the heap. -/
abbrev Tiles (s : Nat) (bs : List Blk) (e : Nat) : Prop := Tiled Blk.off Blk.total s bs e

theorem tiles_mid {pre post : List Blk} {b : Blk} {s e : Nat} :
    Tiles s (pre ++ b :: post) e ↔ Tiles s pre b.off ∧ Tiles b.stop post e := tiled_mid

theorem tiles_cons {b : Blk} {bs : List Blk} {s e : Nat} :
    Tiles s (b :: bs) e ↔ b.off = s ∧ Tiles (s + b.total) bs e := Iff.rfl

/-- The live blocks, in address order. -/
def liveBlks (bs : List Blk) : List Blk := bs.filter fun b => b.live

/-- The free blocks, in address order. -/
def freeBlks (bs : List Blk) : List Blk := bs.filter fun b => !b.live

/-- The offsets of the free blocks, in address order: what the free list holds. -/
def freeOffs (bs : List Blk) : List Nat := (freeBlks bs).map Blk.off

/-- No two physically adjacent blocks are both free. -/
def Coalesced (bs : List Blk) : Prop := bs.IsChain fun b c => b.live = true ∨ c.live = true

@[simp] theorem liveBlks_append (bs cs : List Blk) :
    liveBlks (bs ++ cs) = liveBlks bs ++ liveBlks cs := List.filter_append ..

@[simp] theorem liveBlks_nil : liveBlks [] = [] := rfl

@[simp] theorem freeOffs_nil : freeOffs [] = [] := rfl

@[simp] theorem freeOffs_append (bs cs : List Blk) :
    freeOffs (bs ++ cs) = freeOffs bs ++ freeOffs cs := by
  simp [freeOffs, freeBlks]

theorem liveBlks_cons_live {b : Blk} (h : b.live = true) (bs : List Blk) :
    liveBlks (b :: bs) = b :: liveBlks bs := by
  simp [liveBlks, h]

theorem liveBlks_cons_free {b : Blk} (h : b.live = false) (bs : List Blk) :
    liveBlks (b :: bs) = liveBlks bs := by
  simp [liveBlks, h]

theorem freeOffs_cons_live {b : Blk} (h : b.live = true) (bs : List Blk) :
    freeOffs (b :: bs) = freeOffs bs := by
  simp [freeOffs, freeBlks, h]

/-- A live block is not on the free list, wherever it stands. -/
theorem freeOffs_mid_live {b : Blk} (h : b.live = true) (pre post : List Blk) :
    freeOffs (pre ++ b :: post) = freeOffs pre ++ freeOffs post := by
  rw [freeOffs_append, freeOffs_cons_live h]

theorem freeOffs_concat_live {b : Blk} (h : b.live = true) (pre : List Blk) :
    freeOffs (pre ++ [b]) = freeOffs pre := by
  rw [freeOffs_mid_live h, freeOffs_nil, List.append_nil]

theorem freeOffs_cons_free {b : Blk} (h : b.live = false) (bs : List Blk) :
    freeOffs (b :: bs) = b.off :: freeOffs bs := by
  simp [freeOffs, freeBlks, h]

theorem mem_liveBlks {bs : List Blk} {b : Blk} : b ∈ liveBlks bs ↔ b ∈ bs ∧ b.live = true := by
  simp [liveBlks]

theorem mem_freeOffs {bs : List Blk} {o : Nat} :
    o ∈ freeOffs bs ↔ ∃ b ∈ bs, b.live = false ∧ b.off = o := by
  simp [freeOffs, freeBlks, and_assoc]

/-- The offsets of the free blocks ascend strictly. -/
theorem freeOffs_sorted {bs : List Blk} {s e : Nat} (h : Tiles s bs e)
    (hwf : ∀ b ∈ bs, b.WF) : (freeOffs bs).Pairwise (· < ·) := by
  rw [freeOffs, List.pairwise_map]
  refine List.Pairwise.imp_of_mem ?_ (h.pairwise.filter _)
  intro a b ha _ hab
  have := (hwf a (List.mem_filter.1 ha).1).min
  omega

theorem coalesced_append {bs cs : List Blk} : Coalesced (bs ++ cs) ↔
    Coalesced bs ∧ Coalesced cs ∧
      ∀ b ∈ bs.getLast?, ∀ c ∈ cs.head?, b.live = true ∨ c.live = true :=
  List.isChain_append

@[simp] theorem coalesced_nil : Coalesced [] := List.isChain_nil

@[simp] theorem coalesced_singleton (b : Blk) : Coalesced [b] := List.isChain_singleton b

@[simp] theorem coalesced_cons_cons {b c : Blk} {bs : List Blk} : Coalesced (b :: c :: bs) ↔
    (b.live = true ∨ c.live = true) ∧ Coalesced (c :: bs) := List.isChain_cons_cons

theorem coalesced_cons {b : Blk} {bs : List Blk} : Coalesced (b :: bs) ↔
    (∀ c ∈ bs.head?, b.live = true ∨ c.live = true) ∧ Coalesced bs := by
  cases bs <;> simp

/-- Whether a list is coalesced only depends on which blocks are live. -/
theorem Coalesced.mid_congr {pre post : List Blk} {b c : Blk} (h : Coalesced (pre ++ b :: post))
    (hl : b.live = c.live) : Coalesced (pre ++ c :: post) := by
  simp only [coalesced_append, coalesced_cons, List.head?_cons, Option.mem_some_iff,
    forall_eq', hl] at h ⊢
  exact h

/-! ## Giving a block back

The merge with the successor comes first, as in `freelist_insert`, and the merge with the
predecessor sees its result. -/

/-- The free block `b` in front of `post`, merged with its successor if that is free. -/
def absorbNext (b : Blk) : List Blk → List Blk
  | [] => [b]
  | c :: cs => if c.live then b :: c :: cs else b.grown c.total :: cs

/-- The list `pre ++ bs`, with the head of `bs` merged into the last block of `pre` if that is
free. -/
def absorbPrev (pre : List Blk) : List Blk → List Blk
  | [] => pre
  | b :: bs =>
    match pre.getLast? with
    | none => b :: bs
    | some p => if p.live then pre ++ b :: bs else pre.dropLast ++ p.grown b.total :: bs

/-- What becomes of `pre ++ b :: post` when the free block `b` joins the free list. -/
def insertFree (pre : List Blk) (b : Blk) (post : List Blk) : List Blk :=
  absorbPrev pre (absorbNext b post)

@[simp] theorem absorbNext_live {b c : Blk} (h : c.live = true) (cs : List Blk) :
    absorbNext b (c :: cs) = b :: c :: cs := by
  rw [absorbNext, if_pos h]

@[simp] theorem absorbNext_free {b c : Blk} (h : c.live = false) (cs : List Blk) :
    absorbNext b (c :: cs) = b.grown c.total :: cs := by
  rw [absorbNext, h]
  rfl

@[simp] theorem absorbPrev_nil (b : Blk) (bs : List Blk) : absorbPrev [] (b :: bs) = b :: bs := rfl

@[simp] theorem absorbPrev_live {p : Blk} (h : p.live = true) (pre : List Blk) (b : Blk)
    (bs : List Blk) : absorbPrev (pre ++ [p]) (b :: bs) = pre ++ [p] ++ b :: bs := by
  simp [absorbPrev, h]

@[simp] theorem absorbPrev_free {p : Blk} (h : p.live = false) (pre : List Blk) (b : Blk)
    (bs : List Blk) :
    absorbPrev (pre ++ [p]) (b :: bs) = pre ++ p.grown b.total :: bs := by
  simp [absorbPrev, h]

/-- The head of `absorbNext` is `b`, possibly larger. -/
theorem absorbNext_eq_cons (b : Blk) (post : List Blk) : ∃ t rest,
    absorbNext b post = { b with total := t } :: rest ∧ b.total ≤ t ∧
      (rest = post ∧ t = b.total ∨ ∃ c, c.live = false ∧ post = c :: rest ∧
        t = b.total + c.total) := by
  cases post with
  | nil => exact ⟨b.total, [], rfl, Nat.le_refl _, .inl ⟨rfl, rfl⟩⟩
  | cons c cs =>
    cases hc : c.live with
    | true => exact ⟨b.total, c :: cs, by simp [hc], Nat.le_refl _, .inl ⟨rfl, rfl⟩⟩
    | false =>
      exact ⟨b.total + c.total, cs, by simp [hc, Blk.grown], by omega, .inr ⟨c, hc, rfl, rfl⟩⟩

/-- A list of blocks is empty or has a last block. -/
theorem eq_nil_or_last (pre : List Blk) : pre = [] ∨ ∃ pre' p, pre = pre' ++ [p] :=
  (List.eq_nil_or_concat pre).imp id fun ⟨l, b, h⟩ => ⟨l, b, by simpa using h⟩

/-- **Inserting a free block does not change which blocks are live.** -/
theorem liveBlks_insertFree {b : Blk} (hb : b.live = false) (pre post : List Blk) :
    liveBlks (insertFree pre b post) = liveBlks pre ++ liveBlks post := by
  have hnext : liveBlks (absorbNext b post) = liveBlks post := by
    cases post with
    | nil => simp [absorbNext, liveBlks, hb]
    | cons c cs =>
      cases hc : c.live <;> simp [absorbNext, liveBlks, hb, hc]
  obtain ⟨t, rest, he, -⟩ := absorbNext_eq_cons b post
  rw [insertFree, ← hnext, he]
  rcases eq_nil_or_last pre with rfl | ⟨pre', p, rfl⟩
  · rw [absorbPrev_nil]
    rfl
  · cases hp : p.live <;> simp [hp, liveBlks, hb]

/-- A live block on either side is still there. -/
theorem mem_insertFree {pre post : List Blk} {b c : Blk} (hb : b.live = false)
    (hc : c ∈ pre ∨ c ∈ post) (hl : c.live = true) : c ∈ insertFree pre b post := by
  have hm : c ∈ liveBlks (insertFree pre b post) := by
    rw [liveBlks_insertFree hb, List.mem_append, mem_liveBlks, mem_liveBlks]
    exact hc.imp (⟨·, hl⟩) (⟨·, hl⟩)
  exact (mem_liveBlks.1 hm).1

section

variable {P : Blk → Prop} (hP : ∀ (b : Blk) (t : Nat), P b → P (b.grown t))
include hP

/-- What holds of all blocks, however large, holds after merging with the successor. -/
theorem forall_absorbNext {post : List Blk} {b : Blk} (h : ∀ c ∈ b :: post, P c) :
    ∀ c ∈ absorbNext b post, P c := by
  cases post with
  | nil => exact h
  | cons d ds =>
    cases hd : d.live with
    | true => rwa [absorbNext_live hd]
    | false =>
      intro c hc
      rw [absorbNext_free hd, List.mem_cons] at hc
      rcases hc with rfl | hc
      · exact hP b _ (h b (by simp))
      · exact h c (by simp [hc])

/-- **What holds of all blocks, however large, holds after an insertion.** -/
theorem forall_insertFree {pre post : List Blk} {b : Blk} (h : ∀ c ∈ pre ++ b :: post, P c) :
    ∀ c ∈ insertFree pre b post, P c := by
  have hpre : ∀ c ∈ pre, P c := fun c hc => h c (by simp [hc])
  have hnext : ∀ c ∈ absorbNext b post, P c :=
    forall_absorbNext hP fun c hc => h c (List.mem_append_right _ hc)
  obtain ⟨t, rest, he, -⟩ := absorbNext_eq_cons b post
  rw [insertFree]
  rw [he] at hnext ⊢
  rcases eq_nil_or_last pre with rfl | ⟨pre', p, rfl⟩
  · exact hnext
  · intro c hc
    cases hp : p.live with
    | true =>
      rw [absorbPrev_live hp, List.mem_append] at hc
      exact hc.elim (hpre c) (hnext c)
    | false =>
      rw [absorbPrev_free hp, List.mem_append, List.mem_cons] at hc
      rcases hc with hc | rfl | hc
      · exact hpre c (List.mem_append_left _ hc)
      · exact hP p _ (hpre p (by simp))
      · exact hnext c (List.mem_cons_of_mem _ hc)

end

/-- **Inserting with two-sided merging restores full coalescing.** -/
theorem coalesced_insertFree {pre post : List Blk} {b : Blk} (hpre : Coalesced pre)
    (hpost : Coalesced post) : Coalesced (insertFree pre b post) := by
  -- what may follow: the rest behind the merged successor starts with a live block
  have hnext : ∃ t rest, absorbNext b post = { b with total := t } :: rest ∧ Coalesced rest ∧
      ∀ c ∈ rest.head?, c.live = true := by
    cases post with
    | nil => exact ⟨b.total, [], rfl, coalesced_nil, by simp⟩
    | cons c cs =>
      cases hc : c.live with
      | true => exact ⟨b.total, c :: cs, by simp [hc], hpost, by simp [hc]⟩
      | false =>
        refine ⟨b.total + c.total, cs, by simp [hc, Blk.grown], (coalesced_cons.1 hpost).2, ?_⟩
        intro d hd
        simpa [hc] using (coalesced_cons.1 hpost).1 d hd
  obtain ⟨t, rest, he, hrest, hhead⟩ := hnext
  rw [insertFree, he]
  rcases eq_nil_or_last pre with rfl | ⟨pre', p, rfl⟩
  · exact coalesced_cons.2 ⟨fun c hc => .inr (hhead c hc), hrest⟩
  · have hpre' := coalesced_append.1 hpre
    cases hp : p.live with
    | true =>
      rw [absorbPrev_live hp, coalesced_append]
      refine ⟨hpre, coalesced_cons.2 ⟨fun c hc => .inr (hhead c hc), hrest⟩, ?_⟩
      simp [hp]
    | false =>
      rw [absorbPrev_free hp, coalesced_append]
      refine ⟨hpre'.1, coalesced_cons.2 ⟨fun c hc => .inr (hhead c hc), hrest⟩, ?_⟩
      intro d hd c hc
      have := hpre'.2.2 d hd p (by simp)
      simpa [hp] using Or.inl (b := c.live = true) (by simpa [hp] using this)

end ShmAlloc
