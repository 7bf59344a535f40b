import ShmAlloc.Heap.Rep

/-!
# The elementary edits of the heap

Every operation of the allocator is a sequence of a few edits, and each edit has its lemma here,
stated about the memory after its stores and not about a program.

## What is here

* `Rep.of_writes`: a heap survives stores that miss its headers and the list head.  `InHdr` and
  `InBlk` name the bytes of a header and of a block.
* `Rep.modify`: one header is rewritten in place, the block keeping its extent.
* `Rep.setLink_seg`: one link word is redirected.
* `Rep.splice`: a block joins the free list.
* `Rep.merge`: a free block swallows its free physical successor.
* `Rep.carve`: a block is cut in two.

The proofs have one shape.  The blocks before and behind the place of the edit are carried over by
`Rep.replace`, since none of their bytes is written, and what is at the place is read off the
stores.
-/

set_option autoImplicit false

namespace ShmAlloc

open Tiling Links

variable {G : Geometry} {m m' : Mem} {bs pre post : List Blk} {fl : List Nat}

/-- A header read field by field. -/
theorem BlkAt.intro {b : Blk} (hmagic : m.load (G.base + b.off) 4 = SHM_ALLOC_MAGIC_BLOCK)
    (htag : m.load (G.base + b.off + 4) 4 = b.tag)
    (howner : m.load (G.base + b.off + 8) 4 = b.owner)
    (hperms : m.load (G.base + b.off + 12) 4 = b.perms)
    (hlive : (m.load (G.base + b.off + 16) 1 != 0) = b.live)
    (hid : m.load (G.base + b.off + 24) 8 = b.id)
    (hcap : m.load (G.base + b.off + 32) 8 = b.cap)
    (htotal : m.load (G.base + b.off + 40) 8 = b.total) : BlkAt G m b := by
  refine ⟨hmagic, ?_⟩
  rw [blkAt, htag, howner, hperms, hlive, hid, hcap, htotal]

/-- The byte at `x` belongs to the header of `b`. -/
def InHdr (G : Geometry) (b : Blk) (x : Nat) : Prop :=
  G.base + b.off ≤ x ∧ x < G.base + b.off + 56

/-- The byte at `x` belongs to the block `b`. -/
def InBlk (G : Geometry) (b : Blk) (x : Nat) : Prop :=
  G.base + b.off ≤ x ∧ x < G.base + b.off + b.total

namespace Rep

/-! ## Apartness

Two blocks of a tiling share no byte, so a store to the header of one is a store elsewhere for the
other. -/

/-- Two blocks at different offsets are at least a minimal block apart. -/
theorem apart (h : Rep G m bs fl) {b c : Blk} (hb : b ∈ bs) (hc : c ∈ bs)
    (hne : b.off ≠ c.off) : b.off + b.total ≤ c.off ∨ c.off + c.total ≤ b.off := by
  rcases h.tiles.eq_or_disjoint hb hc with rfl | h' | h'
  · exact absurd rfl hne
  · exact .inl h'
  · exact .inr h'

/-- The same for two nodes of a list. -/
theorem node_apart (h : Rep G m bs fl) {o o' : Nat} (ho : ∃ b ∈ bs, b.off = o)
    (ho' : ∃ b ∈ bs, b.off = o') (hne : o ≠ o') : o + 64 ≤ o' ∨ o' + 64 ≤ o := by
  obtain ⟨b, hb, rfl⟩ := ho
  obtain ⟨c, hc, rfl⟩ := ho'
  have h1 := (h.wf b hb).min
  have h2 := (h.wf c hc).min
  rcases h.apart hb hc hne with h' | h' <;> omega

/-- A block offset is small. -/
theorem off_bounds (h : Rep G m bs fl) {o : Nat} (ho : ∃ b ∈ bs, b.off = o) :
    o + 64 ≤ G.heapSize := by
  obtain ⟨b, hb, rfl⟩ := ho
  have := h.bounds hb
  omega

/-! ## Writes that miss the heap structure -/

/-- Writes that miss the list head and every header keep what is represented. -/
theorem of_writes (h : Rep G m bs fl) {W : List Event}
    (hW : ∀ x, Writes W x → ¬ (88 ≤ x ∧ x < 96) ∧ ∀ b ∈ bs, ¬ InHdr G b x) :
    Rep G (replay W m) bs fl :=
  h.congr (fun x h1 h2 => replay_of_not_writes (fun hw => (hW x hw).1 ⟨h1, h2⟩) m)
    fun b hb x h1 h2 => replay_of_not_writes (fun hw => (hW x hw).2 b hb ⟨h1, h2⟩) m

/-- A byte of one block, behind its header, is in no header. -/
theorem not_inHdr_of_payload (h : Rep G m bs fl) {b c : Blk} (hb : b ∈ bs) (hc : c ∈ bs) {x : Nat}
    (h1 : G.base + b.off + 56 ≤ x) (h2 : x < G.base + b.off + b.total) : ¬ InHdr G c x := by
  rintro ⟨h3, h4⟩
  have := (h.wf c hc).min
  by_cases hbc : b.off = c.off
  · omega
  · rcases h.apart hb hc hbc with h' | h' <;> omega

/-- Two blocks that share a byte are the same block. -/
theorem eq_of_inBlk (h : Rep G m bs fl) {b c : Blk} (hb : b ∈ bs) (hc : c ∈ bs) {x : Nat}
    (hxb : InBlk G b x) (hxc : InBlk G c x) : b = c := by
  obtain ⟨h1, h2⟩ := hxb
  obtain ⟨h3, h4⟩ := hxc
  rcases h.tiles.eq_or_disjoint hb hc with h' | h' | h'
  · exact h'
  · omega
  · omega

/-- A header belongs to its block. -/
theorem inBlk_of_inHdr (h : Rep G m bs fl) {b : Blk} (hb : b ∈ bs) {x : Nat}
    (hx : InHdr G b x) : InBlk G b x := by
  obtain ⟨h1, h2⟩ := hx
  have := (h.wf b hb).min
  exact ⟨h1, by omega⟩

/-! ## Rewriting one header -/

/-- **One header rewritten.**  The block keeps its place and its extent. -/
theorem modify {b b' : Blk} (h : Rep G m (pre ++ b :: post) fl) (hoff : b'.off = b.off)
    (htotal : b'.total = b.total) (hwf : b'.WF) (hblk : BlkAt G m' b')
    (hag : ∀ x, x < G.base + b.off ∨ G.base + b.off + 48 ≤ x ∧ x < G.base + b.off + 56 ∨
      G.base + b.off + b.total ≤ x → m' x = m x) :
    Rep G m' (pre ++ b' :: post) fl := by
  have hb := h.bounds (show b ∈ pre ++ b :: post by simp)
  have hmid := h.bounds_mid
  have hD := G.base_ge
  have hh : m.Agree m' 88 96 := fun x _ _ => hag x (by omega)
  have hoffs : ∀ o, (∃ c ∈ pre ++ b :: post, c.off = o) ↔ ∃ c ∈ pre ++ b' :: post, c.off = o := by
    intro o
    simp only [List.mem_append, List.mem_cons, or_and_right, exists_or, exists_eq_left, hoff]
  rw [show pre ++ b :: post = pre ++ [b] ++ post by simp] at h
  rw [show pre ++ b' :: post = pre ++ [b'] ++ post by simp]
  refine h.replace (s := b.off) (e := b.off + b.total) ⟨rfl, rfl⟩
    ⟨hoff, by rw [htotal]; rfl⟩ (by simp) (fun c hc x h1 h2 => ?_) (by simpa using hwf)
    (by simpa using hblk) ?_ fun o ho => ?_
  · rcases List.mem_append.1 hc with hc | hc
    · have := hmid.1 c hc
      have := (h.wf c (by simp [hc])).min
      exact hag x (by omega)
    · have := hmid.2 c hc
      exact hag x (by omega)
  · rw [hh.load (Nat.le_refl _) (by omega)]
    refine h.links.congr fun o ho => nextAt_congr fun x h1 h2 => ?_
    by_cases hob : o = b.off
    · subst hob
      exact hag x (by omega)
    · have := h.node_apart (h.nodes o ho) ⟨b, by simp, rfl⟩ hob
      rcases h.nodes o ho with ⟨c, hc, rfl⟩
      have hcb := h.apart hc (show b ∈ pre ++ [b] ++ post by simp) hob
      have := (h.wf c hc).min
      exact hag x (by omega)
  · obtain ⟨c, hc, rfl⟩ := h.nodes o ho
    have := (hoffs c.off).1 ⟨c, by simpa using hc, rfl⟩
    simpa using this

/-! ## Redirecting a link

A link is 8 bytes in the region header or in the header of a free block.  Redirecting it touches no
other field, so of what is represented only the list changes. -/

/-- The list after the link behind `xs` has been redirected to `v`. -/
theorem setLink_seg (h : Rep G m bs fl) {xs : List Nat} {k v : Nat}
    (hxs : ∀ o ∈ xs, ∃ b ∈ bs, b.off = o) (hnd : xs.Nodup)
    (hseg : LinkSeg (nextAt G m) (m.load 88 8) xs k) (hv : v < 2 ^ 64)
    (hm' : m' = m.store (linkAddr G (lastLink 0 xs)) 8 v) :
    LinkSeg (nextAt G m') (m'.load 88 8) xs v := by
  subst hm'
  have hD := G.base_ge
  rcases lastLink_cases xs with ⟨rfl, hl⟩ | ⟨ys, o, rfl, hl⟩
  · rw [hl, linkAddr_zero, linkSeg_nil, Mem.load_store_same]
    exact Nat.mod_eq_of_lt hv
  · rw [hl, linkAddr_succ, Mem.load_store_of_disjoint (b := 88) (by omega)]
    refine hseg.redirect ?_ fun y hy => ?_
    · rw [nextAt, Mem.load_store_same]
      exact Nat.mod_eq_of_lt hv
    · have hne : y ≠ o := by
        rintro rfl
        exact (List.nodup_append.1 hnd).2.2 y hy y (by simp) rfl
      have := h.node_apart (hxs y (by simp [hy])) (hxs o (by simp)) hne
      rw [nextAt, nextAt, Mem.load_store_of_disjoint (by omega)]

/-- Redirecting the link behind `xs` changes no link field but that of the last node of `xs`. -/
theorem setLink_next (h : Rep G m bs fl) {xs : List Nat} {v o : Nat}
    (hxs : ∀ o ∈ xs, ∃ b ∈ bs, b.off = o) (ho : ∃ b ∈ bs, b.off = o) (hox : o ∉ xs)
    (hm' : m' = m.store (linkAddr G (lastLink 0 xs)) 8 v) : nextAt G m' o = nextAt G m o := by
  subst hm'
  have hD := G.base_ge
  rcases lastLink_cases xs with ⟨rfl, hl⟩ | ⟨ys, p, rfl, hl⟩
  · rw [hl, linkAddr_zero, nextAt, nextAt, Mem.load_store_of_disjoint (by omega)]
  · have hne : o ≠ p := by
      rintro rfl
      exact hox (by simp)
    have := h.node_apart ho (hxs p (by simp)) hne
    rw [hl, linkAddr_succ, nextAt, nextAt, Mem.load_store_of_disjoint (by omega)]

/-- Redirecting a link changes no header but in its link field. -/
theorem setLink_agree (h : Rep G m bs fl) {xs : List Nat} {v : Nat}
    (hxs : ∀ o ∈ xs, ∃ b ∈ bs, b.off = o) {b : Blk} (hb : b ∈ bs)
    (hm' : m' = m.store (linkAddr G (lastLink 0 xs)) 8 v) :
    m.Agree m' (G.base + b.off) (G.base + b.off + 48) := by
  subst hm'
  intro x h1 h2
  have hD := G.base_ge
  rcases lastLink_cases xs with ⟨rfl, hl⟩ | ⟨ys, p, rfl, hl⟩
  · rw [hl, linkAddr_zero]
    exact Mem.store_of_outside (by omega)
  · rw [hl, linkAddr_succ]
    refine Mem.store_of_outside ?_
    by_cases hp : b.off = p
    · omega
    · have := h.node_apart ⟨b, hb, rfl⟩ (hxs p (by simp)) hp
      omega

/-- **A link redirected**: the memory represents the same blocks, and the list in which what came
behind `xs` is replaced by what the new link leads to. -/
theorem setLink {xs ys zs : List Nat} {v : Nat} (h : Rep G m bs (xs ++ ys))
    (hnd : xs.Nodup) (hzs : ∀ o ∈ zs, o ∉ xs ∧ ∃ b ∈ bs, b.off = o)
    (hlink : Linked (nextAt G m) v zs) (hv : v < 2 ^ 64)
    (hm' : m' = m.store (linkAddr G (lastLink 0 xs)) 8 v) : Rep G m' bs (xs ++ zs) := by
  have hxs : ∀ o ∈ xs, ∃ b ∈ bs, b.off = o := fun o ho => h.nodes o (by simp [ho])
  obtain ⟨k, hseg, -⟩ := linkSeg_append.1 h.links
  refine ⟨h.tiles, h.wf, fun b hb => (h.blk b hb).congr (h.setLink_agree hxs hb hm'), ?_, ?_⟩
  · refine linkSeg_append.2 ⟨v, h.setLink_seg hxs hnd hseg hv hm', ?_⟩
    exact hlink.congr fun o ho => h.setLink_next hxs (hzs o ho).2 (hzs o ho).1 hm'
  · intro o ho
    rcases List.mem_append.1 ho with ho | ho
    · exact hxs o ho
    · exact (hzs o ho).2

/-- A link field outside the list may be written freely. -/
theorem setFreeNext {b : Blk} {v : Nat} (h : Rep G m bs fl) (hb : b ∈ bs) (hfl : b.off ∉ fl)
    (hm' : m' = m.store (G.base + b.off + 48) 8 v) : Rep G m' bs fl := by
  subst hm'
  have hD := G.base_ge
  refine ⟨h.tiles, h.wf, fun c hc => (h.blk c hc).congr fun x h1 h2 => ?_, ?_, h.nodes⟩
  · refine Mem.store_of_outside ?_
    by_cases hcb : c.off = b.off
    · omega
    · have := h.node_apart ⟨c, hc, rfl⟩ ⟨b, hb, rfl⟩ hcb
      omega
  · rw [Mem.load_store_of_disjoint (by omega)]
    refine h.links.congr fun o ho => ?_
    have hne : o ≠ b.off := fun e => hfl (e ▸ ho)
    have := h.node_apart (h.nodes o ho) ⟨b, hb, rfl⟩ hne
    rw [nextAt, nextAt, Mem.load_store_of_disjoint (by omega)]

/-- **A block joins the free list** between `xs` and `ys`. -/
theorem splice {xs ys : List Nat} {b : Blk} {k : Nat} (h : Rep G m bs (xs ++ ys)) (hb : b ∈ bs)
    (hnd : xs.Nodup) (hbx : b.off ∉ xs) (hby : b.off ∉ ys) (hk : Linked (nextAt G m) k ys)
    (hk' : k < 2 ^ 64) (hxy : ∀ o ∈ ys, o ∉ xs)
    (hm' : m' = (m.store (G.base + b.off + 48) 8 k).store (linkAddr G (lastLink 0 xs)) 8
      (b.off + 1)) : Rep G m' bs (xs ++ b.off :: ys) := by
  have hb64 := h.bounds hb
  have hlt := G.size_lt
  have hD := G.base_ge
  have hsz := G.size_eq
  refine (h.setFreeNext hb (by simp [hbx, hby]) rfl).setLink hnd ?_ ?_ (by omega) hm'
  · intro o ho
    rcases List.mem_cons.1 ho with rfl | ho
    · exact ⟨hbx, b, hb, rfl⟩
    · exact ⟨hxy o ho, h.nodes o (by simp [ho])⟩
  · refine ⟨rfl, ?_⟩
    have hn : nextAt G (m.store (G.base + b.off + 48) 8 k) b.off = k := by
      rw [nextAt, Mem.load_store_same]
      exact Nat.mod_eq_of_lt hk'
    rw [hn]
    refine hk.congr fun o ho => ?_
    have hne : o ≠ b.off := fun e => hby (e ▸ ho)
    have := h.node_apart (h.nodes o (by simp [ho])) ⟨b, hb, rfl⟩ hne
    rw [nextAt, nextAt, Mem.load_store_of_disjoint (by omega)]

/-! ## Merging and cutting

A merge is three stores, and the memory after them has a name of its own, since what is read off it
(sizes, links, the magic word) is needed in several places of the argument. -/

/-- The memory after the three stores of a merge: `a` gets the size of both and the link of `c`, and
the magic word of `c` is poisoned. -/
def mergedMem (G : Geometry) (m : Mem) (a c : Blk) : Mem :=
  ((m.store (G.base + a.off + 40) 8 (a.total + c.total)).store (G.base + a.off + 48) 8
    (nextAt G m c.off)).store (G.base + c.off) 4 0

section

variable {a c : Blk}

theorem mergedMem_of_outside {x : Nat}
    (ha : x < G.base + a.off + 40 ∨ G.base + a.off + 56 ≤ x)
    (hc : x < G.base + c.off ∨ G.base + c.off + 4 ≤ x) : mergedMem G m a c x = m x := by
  rw [mergedMem, Mem.store_of_outside hc, Mem.store_of_outside (by omega),
    Mem.store_of_outside (by omega)]

theorem load_mergedMem {x n : Nat} (ha : x + n ≤ G.base + a.off + 40 ∨ G.base + a.off + 56 ≤ x)
    (hc : x + n ≤ G.base + c.off ∨ G.base + c.off + 4 ≤ x) :
    (mergedMem G m a c).load x n = m.load x n :=
  Mem.load_congr fun i hi => mergedMem_of_outside (by omega) (by omega)

/-- The first block has its new size. -/
theorem blkAt_mergedMem (h : BlkAt G m a) (hac : a.off + 56 ≤ c.off)
    (hlt : a.total + c.total < 2 ^ 64) : BlkAt G (mergedMem G m a c) (a.grown c.total) := by
  have hs : ∀ k n, k + n ≤ 40 → (mergedMem G m a c).load (G.base + a.off + k) n
      = m.load (G.base + a.off + k) n := fun k n hk =>
    load_mergedMem (.inl (by omega)) (.inl (by omega))
  refine .intro ((hs 0 4 (by decide)).trans h.magic) ((hs 4 4 (by decide)).trans h.tag)
    ((hs 8 4 (by decide)).trans h.owner) ((hs 12 4 (by decide)).trans h.perms) ?_
    ((hs 24 8 (by decide)).trans h.id) ((hs 32 8 (by decide)).trans h.cap) ?_
  · rw [Blk.grown_off, hs 16 1 (by decide)]
    exact h.live
  · rw [Blk.grown_off, mergedMem, Mem.load_store_of_disjoint (by omega),
      Mem.load_store_of_disjoint (by omega), Mem.load_store_same]
    exact Nat.mod_eq_of_lt hlt

/-- It leads where the second one led. -/
theorem nextAt_mergedMem_self (hac : a.off + 56 ≤ c.off) :
    nextAt G (mergedMem G m a c) a.off = nextAt G m c.off := by
  rw [nextAt, mergedMem, Mem.load_store_of_disjoint (by omega), Mem.load_store_same]
  exact Nat.mod_eq_of_lt (Mem.load_lt ..)

variable {xs ys : List Nat}

/-- The other nodes of the list. -/
theorem other_nodes (h : Rep G m bs (xs ++ a.off :: c.off :: ys))
    (hnd : (xs ++ a.off :: c.off :: ys).Nodup) {o : Nat} (ho : o ∈ xs ∨ o ∈ ys) :
    (∃ b ∈ bs, b.off = o) ∧ o ≠ a.off ∧ o ≠ c.off := by
  obtain ⟨-, hnd', hapart⟩ := List.nodup_append.1 hnd
  obtain ⟨ha, hnd''⟩ := List.nodup_cons.1 hnd'
  obtain ⟨hc, -⟩ := List.nodup_cons.1 hnd''
  rcases ho with ho | ho
  · exact ⟨h.nodes o (by simp [ho]), hapart o ho _ (by simp), hapart o ho _ (by simp)⟩
  · refine ⟨h.nodes o (by simp [ho]), ?_, ?_⟩
    · rintro rfl
      exact ha (List.mem_cons_of_mem _ ho)
    · rintro rfl
      exact hc ho

/-- **The list after a merge**: `a` leads over `c`, and no other link is touched. -/
theorem linked_mergedMem (h : Rep G m bs (xs ++ a.off :: c.off :: ys))
    (hnd : (xs ++ a.off :: c.off :: ys).Nodup) (hac : a.off + 56 ≤ c.off) :
    Linked (nextAt G (mergedMem G m a c)) ((mergedMem G m a c).load 88 8) (xs ++ a.off :: ys) := by
  have hD := G.base_ge
  obtain ⟨j, hx, ha, -, hy⟩ := linkSeg_append.1 h.links
  have hnext : ∀ o, o ∈ xs ∨ o ∈ ys → nextAt G (mergedMem G m a c) o = nextAt G m o := by
    intro o ho
    obtain ⟨hblk, hoa, hoc⟩ := h.other_nodes hnd ho
    have h1 := h.node_apart hblk (h.nodes a.off (by simp)) hoa
    have h2 := h.node_apart hblk (h.nodes c.off (by simp)) hoc
    exact load_mergedMem (by omega) (by omega)
  rw [Linked, load_mergedMem (.inl (by omega)) (.inl (by omega)), linkSeg_append]
  refine ⟨j, hx.congr fun o ho => hnext o (.inl ho), ha, ?_⟩
  rw [nextAt_mergedMem_self hac]
  exact hy.congr fun o ho => hnext o (.inr ho)

end

/-- **A free block swallows its free physical successor**, which is also its successor on the
list: its size grows, it takes over the successor's link, and the successor's magic is
poisoned. -/
theorem merge {a c : Blk} {xs ys : List Nat}
    (h : Rep G m (pre ++ a :: c :: post) (xs ++ a.off :: c.off :: ys))
    (hnd : (xs ++ a.off :: c.off :: ys).Nodup) (hm' : m' = mergedMem G m a c) :
    Rep G m' (pre ++ a.grown c.total :: post) (xs ++ a.off :: ys) := by
  subst hm'
  have ha : a ∈ pre ++ a :: c :: post := by simp
  have hc : c ∈ pre ++ a :: c :: post := by simp
  have hadj : c.off = a.off + a.total := (tiles_mid.1 h.tiles).2.1
  have hamin := (h.wf a ha).min
  have hcb := h.bounds hc
  have hlt := G.size_lt
  have hsz := G.size_eq
  have hpre := h.bounds_mid.1
  have hpost := (show Rep G m ((pre ++ [a]) ++ c :: post) _ by simpa using h).bounds_mid.2
  have h' := h
  rw [show pre ++ a :: c :: post = pre ++ [a, c] ++ post by simp] at h'
  rw [show pre ++ a.grown c.total :: post = pre ++ [a.grown c.total] ++ post by simp]
  refine h'.replace (s := a.off) (e := a.off + a.total + c.total) ⟨rfl, hadj, rfl⟩ ⟨rfl, ?_⟩
    (by simp) (fun d hd x h1 h2 => ?_) ?_ ?_ (h.linked_mergedMem hnd (by omega)) fun o ho => ?_
  · rw [Blk.grown_total, ← Nat.add_assoc]
    rfl
  · -- the headers in front of `a` and behind `c`
    rcases List.mem_append.1 hd with hd | hd
    · have h3 := hpre d hd
      have h4 := (h.wf d (by simp [hd])).min
      exact mergedMem_of_outside (by omega) (by omega)
    · have h3 := hpost d hd
      exact mergedMem_of_outside (by omega) (by omega)
  · simpa using (h.wf a ha).grown c.total
  · simpa using blkAt_mergedMem (h.blk a ha) (by omega) (by omega)
  · -- the nodes of the list are blocks still
    have ho' : o = a.off ∨ o ∈ xs ∨ o ∈ ys := by
      rcases List.mem_append.1 ho with ho | ho
      · exact .inr (.inl ho)
      · exact (List.mem_cons.1 ho).imp id .inr
    rcases ho' with rfl | ho'
    · exact ⟨a.grown c.total, by simp, rfl⟩
    · obtain ⟨⟨d, hd, rfl⟩, hda, hdc⟩ := h.other_nodes hnd ho'
      refine ⟨d, ?_, rfl⟩
      simp only [List.mem_append, List.mem_cons] at hd ⊢
      rcases hd with hd | rfl | rfl | hd
      · exact .inl (.inl hd)
      · exact absurd rfl hda
      · exact absurd rfl hdc
      · exact .inr hd

/-- **A block is cut in two.**  The memory changes only inside the block, not in its link field,
and holds the headers of the two parts. -/
theorem carve {b b' c : Blk} (h : Rep G m (pre ++ b :: post) fl)
    (hoff : b'.off = b.off) (hc : c.off = b.off + b'.total)
    (htotal : b'.total + c.total = b.total) (hb' : b'.WF) (hcwf : c.WF)
    (hblk : BlkAt G m' b') (hblkc : BlkAt G m' c)
    (hag : ∀ x, x < G.base + b.off ∨ G.base + b.off + 48 ≤ x ∧ x < G.base + b.off + 56 ∨
      G.base + b.off + b.total ≤ x → m' x = m x) :
    Rep G m' (pre ++ b' :: c :: post) fl := by
  have hmid := h.bounds_mid
  have hb : b ∈ pre ++ b :: post := by simp
  have hbb := h.bounds hb
  have hD := G.base_ge
  rw [show pre ++ b :: post = pre ++ [b] ++ post by simp] at h
  rw [show pre ++ b' :: c :: post = pre ++ [b', c] ++ post by simp]
  refine h.replace (s := b.off) (e := b.off + b.total) ⟨rfl, rfl⟩
    ⟨hoff, hc, ?_⟩ (by simp) (fun d hd x h1 h2 => ?_)
    (by simpa using ⟨hb', hcwf⟩) (by simpa using ⟨hblk, hblkc⟩) ?_ fun o ho => ?_
  · show b.off + b'.total + c.total = b.off + b.total
    omega
  · rcases List.mem_append.1 hd with hd | hd
    · have := hmid.1 d hd
      have := (h.wf d (by simp [hd])).min
      exact hag x (by omega)
    · have := hmid.2 d hd
      exact hag x (by omega)
  · have hh : m.Agree m' 88 96 := fun x _ _ => hag x (by omega)
    rw [hh.load (Nat.le_refl _) (by omega)]
    refine h.links.congr fun o ho => nextAt_congr fun x h1 h2 => ?_
    by_cases hob : o = b.off
    · subst hob
      exact hag x (by omega)
    · obtain ⟨d, hd, rfl⟩ := h.nodes o ho
      have := h.apart hd (by simp) hob
      have := (h.wf d hd).min
      exact hag x (by omega)
  · obtain ⟨d, hd, rfl⟩ := h.nodes o ho
    simp only [List.mem_append, List.mem_singleton] at hd
    rcases hd with (hd | rfl) | hd
    · exact ⟨d, by simp [hd], rfl⟩
    · exact ⟨b', by simp, hoff⟩
    · exact ⟨d, by simp [hd], rfl⟩

end Rep

end ShmAlloc
