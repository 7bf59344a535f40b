import ShmAlloc.Heap.Edit

/-!
# Giving a block to the free list

`freelist_insert` run on a memory that represents a heap.  Its effects are written out as a list of
events, a function of the abstract heap alone (`insertEvents`), because a crash can stop the
operation behind any of them.  What the finished operation leaves is `insertFree`: the block joined
to a free successor, a free predecessor, both or neither.

## What is here

* `clearEvents`, `linkEvents`, `nextEvents` and `prevEvents`: the four stages.  The header is
  cleared, the block is linked in, merged with the next one, and merged with the previous one.
* `Listed`: a heap whose list is in order but which need not be coalesced.  Each stage turns one
  such heap into another (`Rep.clear`, `Rep.link`, `Listed.next`, `Listed.prev`).
* `writes_insertEvents`: **it writes the list head and headers of free blocks only**.
* `exec_freelistInsert`: **the code does just these events**.  The block need not have been live,
  its header is cleared in any case.
* `HeapInv.insert`: what is left satisfies the heap invariant again.
-/

set_option autoImplicit false

namespace ShmAlloc

open Tiling Links

variable {G : Geometry} {m m' : Mem} {bs pre post : List Blk} {fl : List Nat}

/-! ## The effects -/

/-- The header at `p` becomes that of a free block. -/
def clearEvents (p : Nat) : List Event :=
  [.store (p + 16) 1 0, .store (p + 24) 8 0, .store (p + 8) 4 0, .store (p + 12) 4 0,
    .store (p + 4) 4 0]

/-- The block at `o` is linked in between the nodes `xs` and `ys`. -/
def linkEvents (G : Geometry) (xs : List Nat) (o : Nat) (ys : List Nat) : List Event :=
  [.store (G.base + o + 48) 8 (firstLink ys), .store (linkAddr G (lastLink 0 xs)) 8 (o + 1)]

/-- The free block `a` swallows its free successor `c`; the nodes behind `c` are `ys`. -/
def mergeEvents (G : Geometry) (a c : Blk) (ys : List Nat) : List Event :=
  [.store (G.base + a.off + 40) 8 (a.total + c.total),
    .store (G.base + a.off + 48) 8 (firstLink ys), .store (G.base + c.off) 4 0]

/-- Merging `b` with the head of `post`. -/
def nextEvents (G : Geometry) (b : Blk) : List Blk → List Event
  | [] => []
  | c :: cs =>
    if c.live then []
    else mergeEvents G b c (freeOffs cs) ++ [.persist (G.base + c.off) 56]

/-- The last free block of `pre`, or none. -/
def lastFree (pre : List Blk) : Option Blk := (freeBlks pre).getLast?

/-- Merging the last block of `pre` with the head of the second list, and the final write-backs. -/
def prevEvents (G : Geometry) (pre : List Blk) : List Blk → List Event
  | [] => []
  | b :: bs =>
    match lastFree pre with
    | none => [.persist 88 8, .persist (G.base + b.off) 56]
    | some p =>
      if p.stop = b.off then
        mergeEvents G p b (freeOffs bs) ++
          [.persist (G.base + b.off) 56, .persist (G.base + p.off) 56]
      else [.persist (G.base + p.off) 56, .persist (G.base + b.off) 56]

/-- Everything `freelist_insert` does to give back `b`. -/
def insertEvents (G : Geometry) (pre : List Blk) (b : Blk) (post : List Blk) : List Event :=
  clearEvents (G.base + b.off) ++ (linkEvents G (freeOffs pre) b.off (freeOffs post) ++
    (nextEvents G b.freed post ++ prevEvents G pre (absorbNext b.freed post)))

/-! ## The heap between two stages

While an insertion is under way two neighbours may both be free, so what holds between its stages
is the representation without coalescing. -/

/-- The memory holds the blocks, and its free list is the free ones of them in order. -/
abbrev Listed (G : Geometry) (m : Mem) (bs : List Blk) : Prop := Rep G m bs (freeOffs bs)

/-- A live block is not on the list. -/
theorem Listed.around {b : Blk} (h : Listed G m (pre ++ b :: post)) (hb : b.live = true) :
    Rep G m (pre ++ b :: post) (freeOffs pre ++ freeOffs post) :=
  freeOffs_mid_live hb pre post ▸ h

theorem Rep.freeOffs_lt (h : Rep G m bs fl) : (freeOffs bs).Pairwise (· < ·) :=
  freeOffs_sorted h.tiles h.wf

theorem Rep.freeOffs_nodup (h : Rep G m bs fl) : (freeOffs bs).Nodup :=
  h.freeOffs_lt.imp Nat.ne_of_lt

/-- The offsets of a list's free blocks are those of blocks of the list. -/
theorem mem_off_of_mem_freeOffs {o : Nat} (h : o ∈ freeOffs bs) : ∃ b ∈ bs, b.off = o := by
  obtain ⟨b, hb, -, rfl⟩ := mem_freeOffs.1 h
  exact ⟨b, hb, rfl⟩

/-- A block is not among the free blocks around it. -/
theorem Rep.off_not_mem_freeOffs {c : Blk} (h : Rep G m (pre ++ c :: post) fl) :
    c.off ∉ freeOffs pre ++ freeOffs post := by
  have hmid := h.bounds_mid
  have hc := (h.wf c (by simp)).min
  rw [List.mem_append, not_or]
  refine ⟨fun hx => ?_, fun hx => ?_⟩ <;> obtain ⟨d, hd, hoff⟩ := mem_off_of_mem_freeOffs hx
  · have := hmid.1 d hd
    have := (h.wf d (by simp [hd])).min
    omega
  · have := hmid.2 d hd
    omega

/-- The node of a listed free block holds the link to what comes behind it. -/
theorem Listed.next_eq {b : Blk} (h : Listed G m (pre ++ b :: post)) (hb : b.live = false) :
    nextAt G m b.off = firstLink (freeOffs post) := by
  have hl := h.links
  rw [freeOffs_append, freeOffs_cons_free hb] at hl
  exact hl.next_eq

theorem Rep.head_eq (h : Rep G m bs fl) : m.load 88 8 = firstLink fl := h.links.head

/-- The link to a free block of the list stays within the heap. -/
theorem Rep.firstLink_lt (h : Rep G m bs fl) {xs : List Nat}
    (hxs : ∀ o ∈ xs, ∃ b ∈ bs, b.off = o) : firstLink xs < 2 ^ 64 := by
  have h1 := G.size_lt
  have h2 := G.size_eq
  cases xs with
  | nil => exact Nat.two_pow_pos 64
  | cons x xs =>
    have := h.off_bounds (hxs x (by simp))
    rw [firstLink_cons]
    omega

/-! ## Stage lemmas -/

/-- **Clearing a header** makes the block at hand a free one. -/
theorem Rep.clear {b : Blk} (h : Rep G m (pre ++ b :: post) fl) :
    Rep G (replay (clearEvents (G.base + b.off)) m) (pre ++ b.freed :: post) fl := by
  have hb : b ∈ pre ++ b :: post := by simp
  have hB := h.blk b hb
  have hmin := (h.wf b hb).min
  refine h.modify rfl rfl (h.wf b hb).freed ?_ fun x hx => ?_
  · simp only [clearEvents, replay_cons, replay_nil, Event.act]
    refine .intro ?_ ?_ ?_ ?_ ?_ ?_ ?_ ?_
    all_goals rw [Blk.freed_off]
    · iterate 5 rw [Mem.load_store_of_disjoint (by omega)]
      exact hB.magic
    · exact Mem.load_store_same ..
    · iterate 2 rw [Mem.load_store_of_disjoint (by omega)]
      exact Mem.load_store_same ..
    · rw [Mem.load_store_of_disjoint (by omega)]
      exact Mem.load_store_same ..
    · iterate 4 rw [Mem.load_store_of_disjoint (by omega)]
      rw [Mem.load_store_same]
      rfl
    · iterate 3 rw [Mem.load_store_of_disjoint (by omega)]
      exact Mem.load_store_same ..
    · iterate 5 rw [Mem.load_store_of_disjoint (by omega)]
      exact hB.cap
    · iterate 5 rw [Mem.load_store_of_disjoint (by omega)]
      exact hB.total
  · refine replay_of_not_writes ?_ m
    simp only [clearEvents, writes_cons, not_writes_nil, Event.Touches, or_false]
    omega

/-- **Linking in**: the cleared block takes its place on the list. -/
theorem Rep.link {b : Blk} (h : Rep G m (pre ++ b :: post) (freeOffs pre ++ freeOffs post))
    (hb : b.live = false) :
    Listed G (replay (linkEvents G (freeOffs pre) b.off (freeOffs post)) m)
      (pre ++ b :: post) := by
  have hs := h.freeOffs_lt
  rw [freeOffs_append, freeOffs_cons_free hb] at hs
  have hs1 := List.pairwise_append.1 hs
  have hs2 := List.pairwise_cons.1 hs1.2.1
  have hspl := h.links.split
  rw [Listed, freeOffs_append, freeOffs_cons_free hb]
  refine h.splice (b := b) (by simp) (hs1.1.imp Nat.ne_of_lt)
    (fun hm => ?_) (fun hm => ?_) hspl.2 (h.firstLink_lt fun o ho => ?_) (fun o ho hm => ?_) rfl
  · exact Nat.lt_irrefl _ (hs1.2.2 b.off hm b.off (by simp))
  · exact Nat.lt_irrefl _ (hs2.1 b.off hm)
  · exact h.nodes o (by simp [ho])
  · exact Nat.lt_irrefl _ (hs1.2.2 o hm o (by simp [ho]))

/-- **Merging** two neighbours that are both free. -/
theorem Listed.merge {a c : Blk} (h : Listed G m (pre ++ a :: c :: post)) (ha : a.live = false)
    (hc : c.live = false) :
    Listed G (replay (mergeEvents G a c (freeOffs post)) m)
      (pre ++ a.grown c.total :: post) := by
  have hl : freeOffs (pre ++ a :: c :: post)
      = freeOffs pre ++ a.off :: c.off :: freeOffs post := by
    rw [freeOffs_append, freeOffs_cons_free ha, freeOffs_cons_free hc]
  have hn : nextAt G m c.off = firstLink (freeOffs post) := by
    have h' : Listed G m ((pre ++ [a]) ++ c :: post) := by simpa using h
    exact h'.next_eq hc
  have hr : Rep G m (pre ++ a :: c :: post)
      (freeOffs pre ++ a.off :: c.off :: freeOffs post) := hl ▸ h
  rw [Listed, freeOffs_append, freeOffs_cons_free (b := a.grown c.total) ha, Blk.grown_off]
  refine hr.merge (hl ▸ h.freeOffs_nodup) ?_
  rw [Rep.mergedMem, hn]
  rfl

theorem Listed.next {b : Blk} (h : Listed G m (pre ++ b :: post)) (hb : b.live = false) :
    Listed G (replay (nextEvents G b post) m) (pre ++ absorbNext b post) := by
  cases post with
  | nil => exact h
  | cons c cs =>
    cases hc : c.live with
    | true => simpa [nextEvents, hc] using h
    | false =>
      rw [nextEvents, hc, absorbNext_free hc]
      simpa [replay_append, Event.act] using h.merge hb hc

/-- The last free block of a list that ends in a free block is that block. -/
theorem lastFree_concat_free {p : Blk} (hp : p.live = false) (pre : List Blk) :
    lastFree (pre ++ [p]) = some p := by
  simp [lastFree, freeBlks, hp]

theorem lastFree_concat_live {p : Blk} (hp : p.live = true) (pre : List Blk) :
    lastFree (pre ++ [p]) = lastFree pre := by
  simp [lastFree, freeBlks, hp]

theorem mem_of_lastFree {p : Blk} (h : lastFree pre = some p) : p ∈ pre ∧ p.live = false := by
  have := List.mem_filter.1 (List.mem_of_getLast? h)
  simpa using this

/-- A live block between the last free one and the end keeps the two apart. -/
theorem Rep.lastFree_apart {p q b : Blk} (h : Rep G m (pre ++ q :: b :: post) fl)
    (hp : lastFree pre = some p) : p.stop < b.off := by
  have hmem := (mem_of_lastFree hp).1
  have h1 := h.bounds_mid.1 p hmem
  have h2 : b.off = q.off + q.total := (tiles_mid.1 h.tiles).2.1
  have h3 := (h.wf q (by simp)).min
  rw [Blk.stop]
  omega

theorem Listed.prev {b : Blk} (h : Listed G m (pre ++ b :: post)) (hb : b.live = false) :
    Listed G (replay (prevEvents G pre (b :: post)) m) (absorbPrev pre (b :: post)) := by
  rcases eq_nil_or_last pre with rfl | ⟨pre', p, rfl⟩
  · simpa [prevEvents, lastFree, freeBlks, Event.act] using h
  · cases hp : p.live with
    | true =>
      rw [absorbPrev_live hp, prevEvents, lastFree_concat_live hp]
      cases hl : lastFree pre' with
      | none => simpa [Event.act] using h
      | some q =>
        have := (show Rep G m (pre' ++ p :: b :: post) _ by simpa using h).lastFree_apart hl
        simpa [Nat.ne_of_lt this, Event.act] using h
    | false =>
      have h' : Listed G m (pre' ++ p :: b :: post) := by simpa using h
      have hadj : p.stop = b.off := ((tiles_mid.1 h'.tiles).2.1).symm
      rw [absorbPrev_free hp, prevEvents, lastFree_concat_free hp]
      simpa [hadj, replay_append, Event.act] using h'.merge hp hb

/-! ## What is written -/

/-- A byte of the list head, or of the header of a free block. -/
def FreeListByte (G : Geometry) (bs : List Blk) (x : Nat) : Prop :=
  88 ≤ x ∧ x < 96 ∨ ∃ b ∈ bs, b.live = false ∧ InHdr G b x

theorem FreeListByte.mono {x : Nat} {cs : List Blk} (h : FreeListByte G bs x)
    (hs : ∀ b ∈ bs, b.live = false → b ∈ cs) : FreeListByte G cs x :=
  h.imp id fun ⟨b, hb, hl, hx⟩ => ⟨b, hs b hb hl, hl, hx⟩

/-- The link behind the free blocks of `pre` is the list head or in one of their headers. -/
theorem freeListByte_linkAddr {x : Nat} (h1 : linkAddr G (lastLink 0 (freeOffs pre)) ≤ x)
    (h2 : x < linkAddr G (lastLink 0 (freeOffs pre)) + 8) : FreeListByte G pre x := by
  rcases lastLink_cases (freeOffs pre) with ⟨-, h⟩ | ⟨ys, o, ho, h⟩
  · rw [h, linkAddr_zero] at h1 h2
    exact .inl ⟨h1, h2⟩
  · obtain ⟨p, hp, hpl, rfl⟩ := mem_freeOffs.1 (show o ∈ freeOffs pre by simp [ho])
    rw [h, linkAddr_succ] at h1 h2
    exact .inr ⟨p, hp, hpl, by omega, by omega⟩

theorem writes_clearEvents {o x : Nat} (h : Writes (clearEvents o) x) : o + 4 ≤ x ∧ x < o + 32 := by
  simp only [clearEvents, writes_cons, not_writes_nil, Event.Touches, or_false] at h
  omega

theorem writes_linkEvents {b : Blk} {ys : List Nat} {x : Nat}
    (h : Writes (linkEvents G (freeOffs pre) b.off ys) x) :
    FreeListByte G pre x ∨ InHdr G b x := by
  simp only [linkEvents, writes_cons, not_writes_nil, Event.Touches, or_false] at h
  rcases h with h | h
  · exact .inr ⟨by omega, by omega⟩
  · exact .inl (freeListByte_linkAddr h.1 h.2)

theorem writes_mergeEvents {a c : Blk} {ys : List Nat} {x : Nat}
    (h : Writes (mergeEvents G a c ys) x) : InHdr G a x ∨ InHdr G c x := by
  simp only [mergeEvents, writes_cons, not_writes_nil, Event.Touches, or_false] at h
  rcases h with h | h | h
  · exact .inl ⟨by omega, by omega⟩
  · exact .inl ⟨by omega, by omega⟩
  · exact .inr ⟨by omega, by omega⟩

theorem writes_nextEvents {b : Blk} {x : Nat} (h : Writes (nextEvents G b post) x) :
    InHdr G b x ∨ FreeListByte G post x := by
  cases post with
  | nil => simp [nextEvents] at h
  | cons c cs =>
    cases hc : c.live with
    | true => simp [nextEvents, hc] at h
    | false =>
      simp only [nextEvents, hc, Bool.false_eq_true, if_false, writes_append, writes_cons,
        not_writes_nil, Event.Touches, or_false] at h
      exact (writes_mergeEvents h).imp id fun hx => .inr ⟨c, by simp, hc, hx⟩

theorem writes_prevEvents {b : Blk} {x : Nat} (h : Writes (prevEvents G pre (b :: post)) x) :
    FreeListByte G pre x ∨ InHdr G b x := by
  rw [prevEvents] at h
  cases hp : lastFree pre with
  | none => simp [hp, Event.Touches] at h
  | some p =>
    have hm := mem_of_lastFree hp
    by_cases hadj : p.stop = b.off
    · simp only [hp, hadj, if_true, writes_append, writes_cons, not_writes_nil, Event.Touches,
        or_false] at h
      exact (writes_mergeEvents h).imp (fun hx => .inr ⟨p, hm.1, hm.2, hx⟩) id
    · simp [hp, hadj, Event.Touches] at h

/-- **`freelist_insert` writes the list head and headers of free blocks only**, the block it is
given among them. -/
theorem writes_insertEvents {b : Blk} {x : Nat} (h : Writes (insertEvents G pre b post) x) :
    FreeListByte G (pre ++ b.freed :: post) x := by
  have hpre : FreeListByte G pre x → FreeListByte G (pre ++ b.freed :: post) x :=
    fun h => h.mono fun c hc _ => by simp [hc]
  have hpost : FreeListByte G post x → FreeListByte G (pre ++ b.freed :: post) x :=
    fun h => h.mono fun c hc _ => by simp [hc]
  have hb : InHdr G b x → FreeListByte G (pre ++ b.freed :: post) x :=
    fun h => .inr ⟨b.freed, by simp, rfl, h⟩
  simp only [insertEvents, writes_append] at h
  rcases h with h | h | h | h
  · have := writes_clearEvents h
    exact hb ⟨by omega, by omega⟩
  · exact (writes_linkEvents h).elim hpre hb
  · exact (writes_nextEvents h).elim hb hpost
  · obtain ⟨t, rest, he, -⟩ := absorbNext_eq_cons b.freed post
    rw [he] at h
    exact (writes_prevEvents h).elim hpre hb

/-! ## Running the code

The code finds neighbours by comparing offsets: two free blocks are adjacent when one stops where
the next on the list starts.  Since the list is in address order, that test misses no pair. -/

theorem LayoutOk.after_clear (hL : LayoutOk G m) (o : Nat) :
    LayoutOk G (replay (clearEvents (G.base + o)) m) := by
  refine hL.of_writes fun x hx => ?_
  have := G.base_ge
  simp only [clearEvents, writes_cons, not_writes_nil, Event.Touches, or_false] at hx
  omega

theorem le_linkAddr (G : Geometry) (lnk : Nat) : 88 ≤ linkAddr G lnk := by
  have := G.base_ge
  rw [linkAddr]
  split <;> omega

theorem LayoutOk.after_link (hL : LayoutOk G m) (xs ys : List Nat) (o : Nat) :
    LayoutOk G (replay (linkEvents G xs o ys) m) := by
  refine hL.of_writes fun x hx => ?_
  have := G.base_ge
  have := le_linkAddr G (lastLink 0 xs)
  simp only [linkEvents, writes_cons, not_writes_nil, Event.Touches, or_false] at hx
  omega

theorem LayoutOk.after_merge (hL : LayoutOk G m) (a c : Blk) (ys : List Nat) :
    LayoutOk G (replay (mergeEvents G a c ys) m) := by
  refine hL.of_writes fun x hx => ?_
  have := G.base_ge
  simp only [mergeEvents, writes_cons, not_writes_nil, Event.Touches, or_false] at hx
  omega

theorem LayoutOk.after_next (hL : LayoutOk G m) (b : Blk) (post : List Blk) :
    LayoutOk G (replay (nextEvents G b post) m) := by
  cases post with
  | nil => exact hL
  | cons c cs =>
    cases hc : c.live with
    | true => simpa [nextEvents, hc] using hL
    | false =>
      simpa [nextEvents, hc, replay_append, Event.act] using hL.after_merge b c (freeOffs cs)

/-- A free neighbour behind `b` is the next block. -/
theorem Rep.free_adjacent {b : Blk} {o : Nat} {os : List Nat} (h : Rep G m (pre ++ b :: post) fl)
    (ho : freeOffs post = o :: os) (hadj : b.off + b.total = o) :
    ∃ c cs, post = c :: cs ∧ c.live = false ∧ c.off = o := by
  obtain ⟨c, hc, hcl, hco⟩ := mem_freeOffs.1 (show o ∈ freeOffs post by simp [ho])
  obtain ⟨xs, ys, rfl⟩ := List.append_of_mem hc
  cases xs with
  | nil => exact ⟨c, ys, rfl, hcl, hco⟩
  | cons d ds =>
    have h1 : d.off = b.off + b.total := (tiles_mid.1 h.tiles).2.1
    have h2 := (h.wf d (by simp)).min
    have h3 := (show Rep G m ((pre ++ [b]) ++ d :: (ds ++ c :: ys)) fl by
      simpa using h).bounds_mid.2 c (by simp)
    omega

theorem exec_coalesceNext (hL : LayoutOk G m) {b : Blk} (h : Listed G m (pre ++ b :: post)) :
    Exec G.size (coalesceNext (G.base + b.off) b.off (firstLink (freeOffs post))) m ()
      (nextEvents G b post) := by
  have hbm : b ∈ pre ++ b :: post := by simp
  have hB := h.blk b hbm
  have hbb := h.bounds hbm
  have hsz := G.size_eq
  have hlt := G.size_lt
  rw [coalesceNext]
  cases ho : freeOffs post with
  | nil =>
    rw [firstLink_nil, if_pos rfl]
    -- no free block behind `b`, so the next one, if any, is live
    cases post with
    | nil => exact .pure _
    | cons c cs =>
      cases hc : c.live with
      | true => simpa [nextEvents, hc] using Exec.pure ()
      | false => simp [freeOffs_cons_free hc] at ho
  | cons o os =>
    obtain ⟨c, hcm, rfl⟩ := mem_off_of_mem_freeOffs (show o ∈ freeOffs post by simp [ho])
    have hcm' : c ∈ pre ++ b :: post := by simp [hcm]
    have hcb := h.bounds hcm'
    rw [firstLink_cons, if_neg (Nat.succ_ne_zero _)]
    refine (exec_blkOfLink hL (by omega)).bind_nil
      (Exec.load_bind hB.total (by simp; omega) ((exec_hoffOfBlk hL (by omega)).bind_nil ?_))
    rw [add64_eq (by omega)]
    by_cases hadj : b.off + b.total = c.off
    · obtain ⟨c', cs, rfl, hc, hco⟩ := h.free_adjacent ho hadj
      have hcc : c' = c := by
        refine h.tiles.eq_of_lo_eq (fun d hd => ?_) (by simp) hcm' hco
        have := (h.wf d hd).min
        omega
      subst hcc
      have hC := h.blk c' hcm'
      have hn : nextAt G m c'.off = firstLink (freeOffs cs) := by
        have h' : Listed G m ((pre ++ [b]) ++ c' :: cs) := by simpa using h
        exact h'.next_eq hc
      rw [if_pos hadj, nextEvents, hc]
      refine Exec.load_bind hC.total (by simp; omega) ?_
      rw [add64_eq (by omega)]
      refine .emit_bind (Exec.load_bind ?_ (by simp; omega) (.emit_bind (.emit_bind .emit)))
      simp only [Event.act]
      rw [Mem.load_store_of_disjoint (by simp; omega)]
      exact hn
    · rw [if_neg hadj]
      have hnil : nextEvents G b post = [] := by
        cases post with
        | nil => rfl
        | cons d ds =>
          cases hd : d.live with
          | true => simp [nextEvents, hd]
          | false =>
            rw [freeOffs_cons_free hd, List.cons.injEq] at ho
            have h1 : d.off = b.off + b.total := (tiles_mid.1 h.tiles).2.1
            omega
      rw [hnil]
      exact .pure _

theorem lastLink_freeOffs (pre : List Blk) :
    lastLink 0 (freeOffs pre) = match lastFree pre with
      | none => 0
      | some p => p.off + 1 := by
  rw [lastFree, freeOffs]
  rcases List.eq_nil_or_concat (freeBlks pre) with h | ⟨l, p, h⟩ <;> simp [h]

theorem exec_coalescePrev (hL : LayoutOk G m) {b : Blk} (h : Listed G m (pre ++ b :: post))
    (hb : b.live = false) :
    Exec G.size (coalescePrev (G.base + b.off) b.off (lastLink 0 (freeOffs pre))) m ()
      (prevEvents G pre (b :: post)) := by
  have hbm : b ∈ pre ++ b :: post := by simp
  have hB := h.blk b hbm
  have hbb := h.bounds hbm
  have hsz := G.size_eq
  have hlt := G.size_lt
  rw [lastLink_freeOffs, prevEvents, coalescePrev]
  cases hp : lastFree pre with
  | none =>
    rw [if_pos rfl]
    exact .emit_bind .emit
  | some p =>
    have hpm : p ∈ pre ++ b :: post := by simp [(mem_of_lastFree hp).1]
    have hP := h.blk p hpm
    have hpb := h.bounds hpm
    rw [if_neg (Nat.succ_ne_zero _)]
    refine (exec_blkOfLink hL (by omega)).bind_nil ((exec_hoffOfBlk hL (by omega)).bind_nil
      (Exec.load_bind hP.total (by simp; omega) ?_))
    rw [add64_eq (by omega)]
    by_cases hadj : p.stop = b.off
    · have hadj' : p.off + p.total = b.off := hadj
      simp only [if_pos hadj, if_pos hadj']
      refine Exec.load_bind hB.total (by simp; omega) ?_
      rw [add64_eq (by omega)]
      refine .emit_bind (Exec.load_bind ?_ (by simp; omega)
        (.emit_bind (.emit_bind (.emit_bind .emit))))
      simp only [Event.act]
      rw [Mem.load_store_of_disjoint (by simp; omega)]
      exact h.next_eq hb
    · have hadj' : ¬ p.off + p.total = b.off := hadj
      simp only [if_neg hadj, if_neg hadj']
      exact .emit_bind .emit

/-- **`freelist_insert` joins a block to the free list.**  The block need not have been live: its
header is cleared in any case. -/
theorem exec_freelistInsert (hL : LayoutOk G m) {b : Blk}
    (h : Rep G m (pre ++ b :: post) (freeOffs pre ++ freeOffs post)) :
    Exec G.size (freelistInsert (G.base + b.off)) m () (insertEvents G pre b post) := by
  have hbm : b ∈ pre ++ b :: post := by simp
  have hbb := h.bounds hbm
  have hsz := G.size_eq
  have hlt := G.size_lt
  have hD := G.base_ge
  have hL1 := hL.after_clear b.off
  have h1 := h.clear
  have hL2 := hL1.after_link (freeOffs pre) (freeOffs post) b.off
  have h2 := h1.link rfl
  have hL3 := hL2.after_next b.freed post
  have h3 := Listed.next h2 rfl
  -- the walk: past the free blocks below, up to the first one above
  have hmid := h.bounds_mid
  have hspl := h1.links.split
  have hlen : (freeOffs pre).length < walkFuel := by
    have hfl := h.tiles.length_le fun c hc => (h.wf c hc).min
    have : (freeOffs pre).length ≤ pre.length := by
      rw [freeOffs, List.length_map]
      exact List.length_filter_le _ _
    rw [List.length_append] at hfl
    rw [walkFuel]
    omega
  have hbehind : firstLink (freeOffs post) = 0 ∨
      ∃ y, firstLink (freeOffs post) = y + 1 ∧ b.off < y ∧ y ≤ G.heapSize := by
    cases ho : freeOffs post with
    | nil => exact .inl rfl
    | cons o os =>
      obtain ⟨c, hc, rfl⟩ := mem_off_of_mem_freeOffs (show o ∈ freeOffs post by simp [ho])
      have := hmid.2 c hc
      have := h.bounds (show c ∈ pre ++ b :: post by simp [hc])
      exact .inr ⟨c.off, rfl, by omega, by omega⟩
  have hbefore : ∀ o ∈ freeOffs pre, o ≤ b.off ∧ o + 56 ≤ G.heapSize := fun o ho => by
    obtain ⟨c, hc, rfl⟩ := mem_off_of_mem_freeOffs ho
    have := hmid.1 c hc
    have := (h.wf c (by simp [hc])).min
    omega
  have hwalk : Exec G.size
      (insertionPoint b.off walkFuel 0 ((replay (clearEvents (G.base + b.off)) m).load 88 8))
      (replay (clearEvents (G.base + b.off)) m)
      (lastLink 0 (freeOffs pre), firstLink (freeOffs post)) [] :=
    exec_insertionPoint hL1 hbehind hspl.1 hbefore hlen
  have hset := exec_setLink
    (m := replay [.store (G.base + b.off + 48) 8 (firstLink (freeOffs post))]
      (replay (clearEvents (G.base + b.off)) m))
    (hL1.of_writes fun x hx => by
      simp only [writes_cons, not_writes_nil, Event.Touches, or_false] at hx
      omega)
    (fun o ho => Nat.le_of_add_right_le (hbefore o ho).2) (b.off + 1)
  rw [freelistInsert]
  refine (exec_hoffOfBlk hL (by omega)).bind_nil ?_
  refine Exec.congr (.emit_bind (.emit_bind (.emit_bind (.emit_bind (.emit_bind
    (Exec.load_bind rfl (by simp; omega) (hwalk.bind_nil (.emit_bind
      (Exec.seq (V := [.store (linkAddr G (lastLink 0 (freeOffs pre))) 8 (b.off + 1)]) ?_
        (Exec.seq (V := nextEvents G b.freed post)
          ?_ (W := prevEvents G pre (absorbNext b.freed post)) ?_))))))))))
    ?_
  · rw [linkEnc_eq (G := G) (by omega)]
    exact hset
  · exact exec_coalesceNext (b := b.freed) hL2 h2
  · obtain ⟨t, rest, he, -⟩ := absorbNext_eq_cons b.freed post
    rw [he] at h3 ⊢
    exact exec_coalescePrev (b := { b.freed with total := t }) hL3 h3 rfl
  · rfl

/-- **What `freelist_insert` leaves.** -/
theorem Rep.insert {b : Blk} (h : Rep G m (pre ++ b :: post) (freeOffs pre ++ freeOffs post)) :
    Listed G (replay (insertEvents G pre b post) m) (insertFree pre b.freed post) := by
  have h3 := Listed.next (h.clear.link rfl) rfl
  rw [insertEvents, replay_append, replay_append, replay_append, insertFree]
  obtain ⟨t, rest, he, -⟩ := absorbNext_eq_cons b.freed post
  rw [he] at h3 ⊢
  exact Listed.prev (b := { b.freed with total := t }) h3 rfl

/-- `Rep.insert` as a statement about the heap invariant. -/
theorem HeapInv.insert {b : Blk}
    (h : Rep G m (pre ++ b :: post) (freeOffs pre ++ freeOffs post)) (hpre : Coalesced pre)
    (hpost : Coalesced post) :
    HeapInv G (replay (insertEvents G pre b post) m) (insertFree pre b.freed post) :=
  ⟨h.insert, coalesced_insertFree hpre hpost⟩

end ShmAlloc
