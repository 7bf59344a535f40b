import ShmAlloc.Api
import ShmAlloc.Heap.Free

/-!
# Cutting off a tail and growing into a neighbour

The two in-place edits of `shm_resize`.  Shrinking cuts the tail off a live block and gives it to
the free list; growing swallows the free block behind it, and then cuts off whatever is too much.

## What is here

* `cutTailEvents`: the tail gets a header, the block its new size, and the tail is inserted.
* `Rep.cutTail` and `coalesced_cutTail`: what shrinking leaves.  The tail may meet a free successor,
  with which it is merged.
* `growEvents`: the neighbour leaves the list, the block takes it over, and what is too much is cut
  off as a tail.
* `Rep.grow`: what growing in place leaves.
* `exec_shrinkBlock` and `exec_growInPlace`: **the code does just that**.  Growing fails without an
  effect unless `CanGrow`.
-/

set_option autoImplicit false

namespace ShmAlloc

open Tiling Links

variable {G : Geometry} {m m' : Mem} {bs pre post : List Blk} {fl : List Nat}

/-! ## Cutting off a tail -/

/-- The tail of `b` behind its first `t` bytes. -/
def Blk.tail (b : Blk) (t : Nat) : Blk := Blk.fresh (b.off + t) (b.total - t)

@[simp] theorem Blk.tail_off (b : Blk) (t : Nat) : (b.tail t).off = b.off + t := rfl
@[simp] theorem Blk.tail_total (b : Blk) (t : Nat) : (b.tail t).total = b.total - t := rfl
@[simp] theorem Blk.tail_live (b : Blk) (t : Nat) : (b.tail t).live = false := rfl
@[simp] theorem Blk.tail_freed (b : Blk) (t : Nat) : (b.tail t).freed = b.tail t := rfl

/-- The part of `cutTailEvents` before the tail is given to the free list. -/
def trimEvents (G : Geometry) (b : Blk) (t used : Nat) : List Event :=
  tailEvents (G.base + (b.off + t)) (b.total - t) ++
    ([.sub used (b.total - t), .store 96 8 (used - (b.total - t))] ++
      (cutEvents (G.base + b.off) t ++ [.persist (G.base + b.off) 56]))

/-- Everything done to cut `b` down to `t` bytes and to free the tail. -/
def cutTailEvents (G : Geometry) (pre : List Blk) (b : Blk) (post : List Blk) (t used : Nat) :
    List Event :=
  trimEvents G b t used ++ insertEvents G (pre ++ [b.resized t]) (b.tail t) post

theorem writes_trimEvents {b : Blk} {t used x : Nat} (h : Writes (trimEvents G b t used) x) :
    96 ≤ x ∧ x < 104 ∨ InHdr G b x ∨ InHdr G (b.tail t) x := by
  simp only [trimEvents, writes_append] at h
  rcases h with h | h | h | h
  · have := writes_tailEvents h
    exact .inr (.inr ⟨this.1, this.2⟩)
  · simp only [writes_cons, not_writes_nil, Event.Touches, or_false, false_or] at h
    exact .inl h
  · have := writes_cutEvents h
    exact .inr (.inl ⟨by omega, by omega⟩)
  · simp [Event.Touches] at h

/-- The block is cut in two; the tail is a block, but not yet on the list. -/
theorem Rep.trim {b : Blk} {t : Nat} (used : Nat) (h : Rep G m (pre ++ b :: post) fl)
    (ht : 64 ≤ t) (ht8 : t % 8 = 0) (hrem : t + 64 ≤ b.total) :
    Rep G (replay (trimEvents G b t used) m) (pre ++ b.resized t :: b.tail t :: post) fl := by
  have hbm : b ∈ pre ++ b :: post := by simp
  have hbb := h.bounds hbm
  have hsz := G.size_eq
  have hlt := G.size_lt
  have hD := G.base_ge
  have h1 := h.scribble (W := tailEvents (G.base + (b.off + t)) (b.total - t)) hbm fun x hx => by
    have := writes_tailEvents hx
    omega
  have h2 := h1.of_header_writes
    (W := [.sub used (b.total - t), .store 96 8 (used - (b.total - t))]) fun x hx => by
      simp only [writes_cons, not_writes_nil, Event.Touches, or_false, false_or] at hx
      omega
  simp only [trimEvents, replay_append]
  have h3 : BlkAt G (replay (tailEvents (G.base + (b.off + t)) (b.total - t)) m)
      (Blk.fresh (b.off + t) (b.total - t)) := blkAt_tailEvents (by omega)
  refine h2.cut ht ht8 hrem (h3.congr fun x h1 h2 => ?_)
  refine replay_of_not_writes (fun hx => ?_) _
  simp only [writes_cons, not_writes_nil, Event.Touches, or_false, false_or] at hx
  omega

theorem Rep.cutTail {b : Blk} {t used : Nat}
    (h : Rep G m (pre ++ b :: post) (freeOffs pre ++ freeOffs post)) (hb : b.live = true)
    (ht : 64 ≤ t) (ht8 : t % 8 = 0) (hrem : t + 64 ≤ b.total) :
    Listed G (replay (cutTailEvents G pre b post t used) m)
      (pre ++ b.resized t :: absorbNext (b.tail t) post) := by
  have h1 := h.trim used ht ht8 hrem
  have hpre : freeOffs (pre ++ [b.resized t]) = freeOffs pre :=
    freeOffs_concat_live (b := b.resized t) hb pre
  have h2 : Listed G (replay (insertEvents G (pre ++ [b.resized t]) (b.tail t) post)
      (replay (trimEvents G b t used) m)) (insertFree (pre ++ [b.resized t]) (b.tail t) post) :=
    Rep.insert (by rw [hpre]; simpa using h1)
  rw [cutTailEvents, replay_append]
  obtain ⟨c, rest, he, -⟩ := absorbNext_eq_cons (b.tail t) post
  rw [insertFree, he, absorbPrev_live (p := b.resized t) hb] at h2
  rw [he]
  simpa using h2

theorem coalesced_cutTail {b : Blk} {t : Nat} (hb : b.live = true) (hpre : Coalesced pre)
    (hpost : Coalesced post) :
    Coalesced (pre ++ b.resized t :: absorbNext (b.tail t) post) := by
  have hpre' : Coalesced (pre ++ [b.resized t]) := by
    refine coalesced_append.2 ⟨hpre, coalesced_singleton _, fun c _ d hd => ?_⟩
    simp only [List.head?_cons, Option.mem_some_iff] at hd
    subst hd
    exact .inr hb
  have h := coalesced_insertFree (b := b.tail t) hpre' hpost
  obtain ⟨c, rest, he, -⟩ := absorbNext_eq_cons (b.tail t) post
  rw [insertFree, he, absorbPrev_live (p := b.resized t) hb] at h
  rw [he]
  simpa using h

theorem exec_cutTail (hL : LayoutOk G m) {b : Blk} {t used : Nat}
    (h : Rep G m (pre ++ b :: post) (freeOffs pre ++ freeOffs post)) (hb : b.live = true)
    (ht : 64 ≤ t) (ht8 : t % 8 = 0) (hrem : t + 64 ≤ b.total) (hu : m.load 96 8 = used)
    (hle : b.total ≤ used) :
    Exec G.size (cutTail (G.base + b.off) t (b.total - t)) m ()
      (cutTailEvents G pre b post t used) := by
  have hbm : b ∈ pre ++ b :: post := by simp
  have hbb := h.bounds hbm
  have hsz := G.size_eq
  have hlt := G.size_lt
  have hD := G.base_ge
  have hul : used < 2 ^ 64 := hu ▸ Mem.load_lt m 96 8
  have h1 := h.trim used ht ht8 hrem
  have hL1 : LayoutOk G (replay (trimEvents G b t used) m) := hL.of_writes fun x hx => by
    rcases writes_trimEvents hx with hx | hx | hx
    · omega
    · have := hx.1
      omega
    · have := hx.1
      omega
  have hpre : freeOffs (pre ++ [b.resized t]) = freeOffs pre :=
    freeOffs_concat_live (b := b.resized t) hb pre
  have hins : Exec G.size (freelistInsert (G.base + (b.off + t)))
      (replay (trimEvents G b t used) m) ()
      (insertEvents G (pre ++ [b.resized t]) (b.tail t) post) :=
    exec_freelistInsert (b := b.tail t) hL1 (by rw [hpre]; simpa using h1)
  simp only [cutTail, initTail, subCounter, add64_eq (show G.base + b.off + t < 2 ^ 64 by omega),
    sub64_eq (show 56 ≤ b.total - t by omega) (by omega),
    sub64_eq (show 56 ≤ t by omega) (by omega), Nat.add_assoc G.base b.off t]
  refine Exec.congr (Exec.seq
    (V := tailEvents (G.base + (b.off + t)) (b.total - t)) ?_
    (Exec.seq (V := [.sub used (b.total - t), .store 96 8 (used - (b.total - t))])
      (Exec.load_bind (v := used) ?_ (by simp; omega) (.emit_bind ?_))
      (.emit_bind (.emit_bind (.emit_bind hins))))) ?_
  · exact .emit_bind (.emit_bind (.emit_bind (.emit_bind (.emit_bind (.emit_bind (.emit_bind
      (.emit_bind .emit)))))))
  · exact (Mem.load_congr fun i hi => replay_of_not_writes (fun hx => by
      have := writes_tailEvents hx
      simp only [RegionHdr.usedBytes, shmRh] at this hi
      omega) m).trans hu
  · rw [sub64_eq (by omega) hul]
    exact .emit
  · simp [cutTailEvents, trimEvents, cutEvents, Nat.add_assoc]

/-! ## Growing into the neighbour -/

/-- `b` takes over the free block `c` behind it, which is off the list by now. -/
def swallowEvents (G : Geometry) (b c : Blk) (used : Nat) : List Event :=
  .store 96 8 (used + c.total) :: (cutEvents (G.base + b.off) (b.total + c.total) ++
    [.store (G.base + c.off) 4 0, .persist (G.base + c.off) 56])

/-- `b` once it has grown into `c`, before anything is cut off again. -/
def swallowed (b c : Blk) : Blk := b.resized (b.total + c.total)

/-- What in-place growth does with the space it does not need. -/
def trimGrownEvents (G : Geometry) (pre : List Blk) (b : Blk) (post : List Blk)
    (t used : Nat) : List Event :=
  if 64 ≤ b.total - t then cutTailEvents G pre b post t used else [.persist (G.base + b.off) 56]

/-- Everything done to grow `b` in place to `t` bytes, by swallowing `c`. -/
def growEvents (G : Geometry) (pre : List Blk) (b c : Blk) (post : List Blk) (t used : Nat) :
    List Event :=
  removeEvents G (pre ++ [b]) c post ++ (swallowEvents G b c used ++
    (trimGrownEvents G pre (swallowed b c) post t (used + c.total) ++
      [.persist 96 8]))

/-- The live block `b`, cut down to `t` bytes if what is cut off can be a block, and what follows
it then. -/
def trimmed (b : Blk) (t : Nat) (post : List Blk) : List Blk :=
  if 64 ≤ b.total - t then b.resized t :: absorbNext (b.tail t) post else b :: post

theorem writes_swallowEvents {b c : Blk} {used x : Nat} (h : Writes (swallowEvents G b c used) x) :
    96 ≤ x ∧ x < 104 ∨ InHdr G b x ∨ InHdr G c x := by
  simp only [swallowEvents, writes_cons, writes_append, not_writes_nil, Event.Touches,
    or_false] at h
  rcases h with h | h | h
  · exact .inl h
  · have := writes_cutEvents h
    exact .inr (.inl ⟨by omega, by omega⟩)
  · exact .inr (.inr ⟨by omega, by omega⟩)

/-- **Two neighbours become one block.** -/
theorem Rep.swallow {b c : Blk} (used : Nat) (h : Rep G m (pre ++ b :: c :: post) fl)
    (hfl : c.off ∉ fl) :
    Rep G (replay (swallowEvents G b c used) m) (pre ++ swallowed b c :: post) fl := by
  have hbm : b ∈ pre ++ b :: c :: post := by simp
  have hcm : c ∈ pre ++ b :: c :: post := by simp
  have hB := h.blk b hbm
  have hwf := h.wf b hbm
  have hbb := h.bounds hbm
  have hcb := h.bounds hcm
  have hsz := G.size_eq
  have hlt := G.size_lt
  have hD := G.base_ge
  have hbc : c.off = b.off + b.total := (tiles_mid.1 h.tiles).2.1
  have hmid := h.bounds_mid
  have hpost : ∀ d ∈ post, c.off + c.total ≤ d.off :=
    (show Rep G m ((pre ++ [b]) ++ c :: post) fl by simpa using h).bounds_mid.2
  -- where the events may write, and where they do not
  have hout : ∀ x, ¬ (96 ≤ x ∧ x < 104) → ¬ (G.base + b.off + 32 ≤ x ∧ x < G.base + b.off + 48) →
      ¬ (G.base + c.off ≤ x ∧ x < G.base + c.off + 4) →
      replay (swallowEvents G b c used) m x = m x := fun x h1 h2 h3 => by
    refine replay_of_not_writes (fun hw => ?_) m
    simp only [swallowEvents, writes_cons, writes_append, not_writes_nil, Event.Touches,
      or_false] at hw
    rcases hw with hw | hw | hw
    · omega
    · have := writes_cutEvents hw
      omega
    · omega
  have h' : Rep G m (pre ++ [b, c] ++ post) fl := by simpa using h
  rw [show pre ++ swallowed b c :: post = pre ++ [swallowed b c] ++ post by simp]
  refine h'.replace (s := b.off) (e := b.off + b.total + c.total) ⟨rfl, hbc, rfl⟩
    ⟨rfl, Nat.add_assoc .. |>.symm⟩ (by simp) (fun d hd x h1 h2 => ?_) ?_ ?_ ?_ fun o ho => ?_
  · rcases List.mem_append.1 hd with hd | hd
    · have := hmid.1 d hd
      have := (h.wf d (by simp [hd])).min
      exact hout x (by omega) (by omega) (by omega)
    · have := hpost d hd
      exact hout x (by omega) (by omega) (by omega)
  · simp only [List.mem_singleton, forall_eq]
    exact hwf.resized (t := b.total + c.total) (by omega)
  · simp only [List.mem_singleton, forall_eq]
    have ht' : (b.total + c.total - 56) % 256 ^ 8 = b.total + c.total - 56 :=
      Nat.mod_eq_of_lt (show b.total + c.total - 56 < 2 ^ 64 by omega)
    have ht'' : (b.total + c.total) % 256 ^ 8 = b.total + c.total :=
      Nat.mod_eq_of_lt (show b.total + c.total < 2 ^ 64 by omega)
    simp only [swallowEvents, cutEvents, replay_cons, replay_append, replay_nil, Event.act]
    refine .intro ?_ ?_ ?_ ?_ ?_ ?_ ?_ ?_ <;>
      simp (disch := omega) only [swallowed, Blk.resized, Mem.load_store_same,
        Mem.load_store_of_disjoint, ht', ht'']
    · exact hB.magic
    · exact hB.tag
    · exact hB.owner
    · exact hB.perms
    · exact hB.live
    · exact hB.id
  · rw [Linked, Mem.load_congr fun i hi => hout _ (by omega) (by omega) (by omega)]
    refine h.links.congr fun o ho => Mem.load_congr fun i hi => ?_
    obtain ⟨d, hd, rfl⟩ := h.nodes o ho
    have hdc : d.off ≠ c.off := fun e => hfl (e ▸ ho)
    have := h.apart hd hcm hdc
    have := (h.wf d hd).min
    by_cases hdb : d.off = b.off
    · exact hout _ (by omega) (by omega) (by omega)
    · have := h.apart hd hbm hdb
      exact hout _ (by omega) (by omega) (by omega)
  · obtain ⟨d, hd, rfl⟩ := h.nodes o ho
    have hdc : d.off ≠ c.off := fun e => hfl (e ▸ ho)
    simp only [List.mem_append, List.mem_cons] at hd
    rcases hd with hd | rfl | rfl | hd
    · exact ⟨d, by simp [hd], rfl⟩
    · exact ⟨swallowed d c, by simp, rfl⟩
    · exact absurd rfl hdc
    · exact ⟨d, by simp [hd], rfl⟩

/-- What is left when the space that is not needed has been cut off again. -/
theorem Rep.trimGrown {b : Blk} {t : Nat} (used : Nat)
    (h : Rep G m (pre ++ b :: post) (freeOffs pre ++ freeOffs post)) (hb : b.live = true)
    (ht : 64 ≤ t) (ht8 : t % 8 = 0) (hle : t ≤ b.total) :
    Listed G (replay (trimGrownEvents G pre b post t used) m) (pre ++ trimmed b t post) := by
  rw [trimGrownEvents, trimmed]
  split
  · exact h.cutTail hb ht ht8 (by omega)
  · rw [Listed, freeOffs_mid_live hb]
    exact h

/-- **What growing in place leaves.** -/
theorem Rep.grow {b c : Blk} {t used : Nat} (h : Listed G m (pre ++ b :: c :: post))
    (hb : b.live = true) (hc : c.live = false) (ht : 64 ≤ t) (ht8 : t % 8 = 0)
    (hle : t ≤ b.total + c.total) :
    Listed G (replay (growEvents G pre b c post t used) m)
      (pre ++ trimmed (swallowed b c) t post) := by
  have hpre := freeOffs_concat_live hb pre
  have h' : Listed G m ((pre ++ [b]) ++ c :: post) := by simpa using h
  have hc' := h'.off_not_mem_freeOffs
  have h1 := h'.remove hc
  rw [hpre] at h1 hc'
  have h1' : Rep G (replay (removeEvents G (pre ++ [b]) c post) m) (pre ++ b :: c :: post)
      (freeOffs pre ++ freeOffs post) := by
    simpa using h1
  have h2 := h1'.swallow used hc'
  have h3 := h2.trimGrown (used + c.total) hb ht ht8 hle
  simp only [growEvents, replay_append]
  exact h3

/-! ## Running the two edits

The code looks at the block behind only if its header lies within the heap as the handle sees it,
which is why `CanGrow` depends on the size of the handle. -/

theorem exec_shrinkBlock (hL : LayoutOk G m) {b : Blk} {t used : Nat}
    (h : Rep G m (pre ++ b :: post) (freeOffs pre ++ freeOffs post)) (hb : b.live = true)
    (ht : 64 ≤ t) (ht8 : t % 8 = 0) (hle : t ≤ b.total) (hu : m.load 96 8 = used)
    (hu' : b.total ≤ used) :
    Exec G.size (shrinkBlock (G.base + b.off) t b.total) m ()
      (if 64 ≤ b.total - t then cutTailEvents G pre b post t used else []) := by
  have hbb := h.bounds (show b ∈ pre ++ b :: post by simp)
  have hsz := G.size_eq
  have hlt := G.size_lt
  rw [shrinkBlock, sub64_eq hle (by omega)]
  by_cases hrem : 64 ≤ b.total - t
  · rw [if_pos hrem, if_pos (show BLOCK_MIN ≤ b.total - t from hrem)]
    exact exec_cutTail hL h hb ht ht8 (by omega) hu hu'
  · rw [if_neg hrem, if_neg (show ¬ BLOCK_MIN ≤ b.total - t from hrem)]
    exact .pure _

theorem exec_trimGrown (hL : LayoutOk G m) {b : Blk} {t used : Nat}
    (h : Rep G m (pre ++ b :: post) (freeOffs pre ++ freeOffs post)) (hb : b.live = true)
    (ht : 64 ≤ t) (ht8 : t % 8 = 0) (hu : m.load 96 8 = used) (hu' : b.total ≤ used) :
    Exec G.size (trimGrown (G.base + b.off) t (b.total - t)) m ()
      (trimGrownEvents G pre b post t used) := by
  rw [trimGrown, trimGrownEvents]
  by_cases hrem : 64 ≤ b.total - t
  · rw [if_pos hrem, if_pos (show BLOCK_MIN ≤ b.total - t from hrem)]
    exact exec_cutTail hL h hb ht ht8 (by omega) hu hu'
  · rw [if_neg hrem, if_neg (show ¬ BLOCK_MIN ≤ b.total - t from hrem)]
    exact .emit

theorem exec_growInto (hL : LayoutOk G m) {b c : Blk} {t used : Nat}
    (h : Listed G m (pre ++ b :: c :: post)) (hb : b.live = true) (hc : c.live = false)
    (ht : 64 ≤ t) (ht8 : t % 8 = 0) (hle : t ≤ b.total + c.total) (hu : m.load 96 8 = used)
    (hu' : b.total ≤ used) (hlt' : used + c.total < 2 ^ 64) :
    Exec G.size (growInto (G.base + b.off) (G.base + c.off) t (b.total + c.total)) m ()
      (growEvents G pre b c post t used) := by
  have hcm : c ∈ pre ++ b :: c :: post := by simp
  have hbb := h.bounds (show b ∈ pre ++ b :: c :: post by simp)
  have hcb := h.bounds hcm
  have hbc : c.off = b.off + b.total := (tiles_mid.1 h.tiles).2.1
  have hsz := G.size_eq
  have hlt := G.size_lt
  have hD := G.base_ge
  have hl : Listed G m ((pre ++ [b]) ++ c :: post) := by simpa using h
  have hpre := freeOffs_concat_live hb pre
  -- after the removal
  have hrem := exec_freelistRemove hL hl hc
  have h1 := Rep.remove hl hc
  have hWr : ∀ x, Writes (removeEvents G (pre ++ [b]) c post) x → 88 ≤ x ∧ (x < 96 ∨ 200 ≤ x) :=
    fun x hx => by
      rcases writes_removeEvents hc hx with hx | ⟨d, -, -, hx⟩
      · omega
      · have := hx.1
        omega
  have hL1 : LayoutOk G (replay (removeEvents G (pre ++ [b]) c post) m) :=
    hL.of_writes fun x hx => (hWr x hx).1
  have hu1 : (replay (removeEvents G (pre ++ [b]) c post) m).load 96 8 = used :=
    (Mem.load_congr fun i hi => replay_of_not_writes (fun hx => by
      have := hWr _ hx
      omega) m).trans hu
  -- after the neighbour has been swallowed
  have h1' : Rep G (replay (removeEvents G (pre ++ [b]) c post) m) (pre ++ b :: c :: post)
      (freeOffs pre ++ freeOffs post) := by
    rw [hpre] at h1
    simpa using h1
  have hc' := hl.off_not_mem_freeOffs
  rw [hpre] at hc'
  have h2 := h1'.swallow used hc'
  have hWs : ∀ x, Writes (swallowEvents G b c used) x → 96 ≤ x := fun x hx => by
    rcases writes_swallowEvents hx with hx | hx | hx
    · exact hx.1
    · have := hx.1
      omega
    · have := hx.1
      omega
  have hL2 := hL1.of_writes (W := swallowEvents G b c used) fun x hx => by
    have := hWs x hx
    omega
  have hu2 : (replay (swallowEvents G b c used)
      (replay (removeEvents G (pre ++ [b]) c post) m)).load 96 8 = used + c.total := by
    simp only [swallowEvents, cutEvents, replay_cons, replay_append, replay_nil, Event.act]
    simp (disch := omega) only [Mem.load_store_same, Mem.load_store_of_disjoint]
    exact Nat.mod_eq_of_lt hlt'
  have htrim := exec_trimGrown hL2 h2 (t := t) hb ht ht8 hu2 (by
    show b.total + c.total ≤ used + c.total
    omega)
  have hC := h1'.blk c (by simp)
  simp only [growInto, sub64_eq hle (show b.total + c.total < 2 ^ 64 by omega),
    sub64_eq (show 56 ≤ b.total + c.total by omega) (by omega)]
  refine Exec.congr (Exec.seq hrem (Exec.load_bind hu1 (by simp; omega)
    (Exec.load_bind hC.total (by simp; omega) ?_)))
    (W := growEvents G pre b c post t used) rfl
  rw [add64_eq hlt']
  exact Exec.congr (Exec.emit_bind (.emit_bind (.emit_bind (.emit_bind (.emit_bind
    (Exec.seq htrim .emit)))))) rfl

/-- The block behind `b` is free, is large enough to give `b` the size `t`, and its header lies
within the heap as a handle of size `sz` sees it. -/
def CanGrow (G : Geometry) (sz : Nat) (b : Blk) (t : Nat) : List Blk → Prop
  | [] => False
  | c :: _ => c.live = false ∧ t ≤ b.total + c.total ∧ b.stop + 56 < sz - G.base

/-- **The in-place part of growing** either swallows the next block or has no effect. -/
theorem exec_growInPlace (hL : LayoutOk G m) {r : Region} {b : Blk} {t used : Nat}
    (h : Listed G m (pre ++ b :: post)) (hb : b.live = true) (ht : 64 ≤ t) (ht8 : t % 8 = 0)
    (hr : G.base ≤ r.size) (hr' : r.size ≤ G.size) (hu : m.load 96 8 = used)
    (hu' : b.total ≤ used) (hlt' : ∀ c ∈ post, c.live = false → used + c.total < 2 ^ 64) :
    (∃ c cs, post = c :: cs ∧ CanGrow G r.size b t post ∧
        Exec G.size (growInPlace r (G.base + b.off) t) m true (growEvents G pre b c cs t used)) ∨
      ¬ CanGrow G r.size b t post ∧
        Exec G.size (growInPlace r (G.base + b.off) t) m false [] := by
  have hbm : b ∈ pre ++ b :: post := by simp
  have hB := h.blk b hbm
  have hbb := h.bounds hbm
  have hsz := G.size_eq
  have hlt := G.size_lt
  have hD := G.base_ge
  have hpost := (tiles_mid.1 h.tiles).2
  have hstop : b.stop = b.off + b.total := rfl
  have hprog : ∀ {v : Bool} {W : List Event},
      Exec G.size (if b.stop + 56 < r.size - G.base then do
          let next ← shmBlkAtHoff b.stop
          tryGrowNext (G.base + b.off) next t
        else return false) m v W →
      Exec G.size (growInPlace r (G.base + b.off) t) m v W := fun hx => by
    refine (exec_hoffOfBlk hL (by omega)).bind_nil (Exec.load_bind hB.total (by simp; omega)
      (Exec.bind_nil (a := r.size - G.base)
        (Exec.load_bind hL.dataOffset (by simp; omega) ?_) ?_))
    · rw [sub64_eq hr (by omega)]
      exact .pure _
    · rw [add64_eq (show b.off + b.total < 2 ^ 64 by omega), blockHdrSize,
        add64_eq (show b.off + b.total + 56 < 2 ^ 64 by omega)]
      exact hx
  cases post with
  | nil =>
    have hend : b.stop = G.heapSize := hpost
    refine .inr ⟨id, hprog ?_⟩
    rw [if_neg (by omega)]
    exact .pure _
  | cons c cs =>
    have hco : c.off = b.stop := hpost.1
    have hcm : c ∈ pre ++ b :: c :: cs := by simp
    have hC := h.blk c hcm
    have hcb := h.bounds hcm
    by_cases hin : b.stop + 56 < r.size - G.base
    · have hnext : ∀ {v : Bool} {W : List Event},
          Exec G.size (tryGrowNext (G.base + b.off) (G.base + c.off) t) m v W →
          Exec G.size (growInPlace r (G.base + b.off) t) m v W := fun hx => hprog (by
        rw [if_pos hin, ← hco]
        exact (exec_blkAtHoff hL (by omega)).bind_nil hx)
      cases hcl : c.live with
      | true =>
        refine .inr ⟨fun hg => by simp [CanGrow, hcl] at hg, hnext ?_⟩
        refine Exec.load_bind hC.magic (by simp; omega) (Exec.load_bind rfl (by simp; omega) ?_)
        rw [if_neg fun hz => by simpa [hcl] using hC.allocated_eq_zero.1 hz.2]
        exact .pure _
      | false =>
        have hfree := hC.allocated_eq_zero.2 hcl
        by_cases hfit : t ≤ b.total + c.total
        · refine .inl ⟨c, cs, rfl, ⟨hcl, hfit, hin⟩, hnext ?_⟩
          refine Exec.load_bind hC.magic (by simp; omega)
            (Exec.load_bind hfree (by simp; omega) ?_)
          rw [if_pos ⟨rfl, rfl⟩]
          refine Exec.load_bind hB.total (by simp; omega)
            (Exec.load_bind hC.total (by simp; omega) ?_)
          rw [add64_eq (by omega), if_pos hfit]
          exact Exec.congr (Exec.seq (exec_growInto hL h hb hcl ht ht8 hfit hu hu'
            (hlt' c List.mem_cons_self hcl))
            (.pure _)) (List.append_nil _)
        · refine .inr ⟨fun hg => hfit hg.2.1, hnext ?_⟩
          refine Exec.load_bind hC.magic (by simp; omega)
            (Exec.load_bind hfree (by simp; omega) ?_)
          rw [if_pos ⟨rfl, rfl⟩]
          refine Exec.load_bind hB.total (by simp; omega)
            (Exec.load_bind hC.total (by simp; omega) ?_)
          rw [add64_eq (by omega), if_neg hfit]
          exact .pure _
    · refine .inr ⟨fun hg => hin hg.2.2, hprog ?_⟩
      rw [if_neg hin]
      exact .pure _

end ShmAlloc
