import ShmAlloc.Heap.Free

/-!
# Where blocks used to be

Freeing a block does not remove its header from memory.  It is the header of a free block for a
while; if a neighbour swallows the block, at once or when that neighbour is freed later, the magic
word goes.  So in the end the place is the start of a free block, or lies inside one and holds no
magic word: it is `Vacant`, and giving back other blocks, in whatever order, keeps it so.

## What is here

* `Vacant.not_header`: **no block header can be read at a vacant place.**
* `Vacant.of_header_writes` and `Vacant.of_live_writes`: what is done to headers of free blocks, or
  inside live blocks, keeps it vacant.
* `vacant_insert`: **`freelist_insert` vacates the block it is given**, and keeps vacant places
  vacant.  `vacant_release` says the same of `heap_free_block`.
-/

set_option autoImplicit false

namespace ShmAlloc

open Tiling Links

variable {G : Geometry} {m m' : Mem} {bs bs' pre post : List Blk} {fl : List Nat} {b : Blk}
  {o : Nat}

/-- A free block starts at `o`, or has `o` behind its header and no magic word there. -/
def Vacant (G : Geometry) (m : Mem) (bs : List Blk) (o : Nat) : Prop :=
  ∃ c ∈ bs, c.live = false ∧
    (c.off = o ∨ c.off + 56 ≤ o ∧ o + 56 ≤ c.stop ∧ m.load (G.base + o) 4 = 0)

/-- **No block header can be read at a vacant place.** -/
theorem Vacant.not_header (h : Vacant G m bs o) (hr : Rep G m bs fl) :
    m.load (G.base + o) 4 ≠ SHM_ALLOC_MAGIC_BLOCK ∨ m.load (G.base + o + 16) 1 = 0 := by
  obtain ⟨c, hc, hl, rfl | ⟨-, -, h0⟩⟩ := h
  · exact .inr ((hr.blk c hc).allocated_eq_zero.2 hl)
  · rw [h0]
    exact .inl (by decide)

/-- A vacant place is inside the heap, with room for a header. -/
theorem Vacant.bounds (h : Vacant G m bs o) (hr : Rep G m bs fl) : o + 56 ≤ G.heapSize := by
  obtain ⟨c, hc, -, hco⟩ := h
  have h1 := hr.bounds hc
  have h2 := (hr.wf c hc).min
  rcases hco with rfl | ⟨-, hstop, -⟩
  · omega
  · rw [Blk.stop] at hstop
    omega

/-! ## What keeps a place vacant

A payload byte of a live block is nobody's header, so users may write what they like. -/

/-- Free blocks may grow, as long as what is behind their headers stays. -/
theorem Vacant.frame (h : Vacant G m bs o)
    (hkeep : ∀ d ∈ bs, d.live = false →
      ∃ d' ∈ bs', d'.live = false ∧ d'.off = d.off ∧ d.stop ≤ d'.stop)
    (hag : ∀ d ∈ bs, d.live = false → m.Agree m' (G.base + d.off + 56) (G.base + d.stop)) :
    Vacant G m' bs' o := by
  obtain ⟨d, hd, hl, hdo⟩ := h
  obtain ⟨d', hd', hl', hoff, hstop⟩ := hkeep d hd hl
  refine ⟨d', hd', hl', hdo.imp (fun ho => hoff.trans ho) fun ⟨h1, h2, h3⟩ =>
    ⟨by omega, by omega, ?_⟩⟩
  rw [(hag d hd hl).load (by omega) (by omega)]
  exact h3

/-- A trace that writes below the heap and in headers misses what is behind the headers. -/
theorem Rep.agree_payload {W : List Event} (h : Rep G m bs fl)
    (hW : ∀ x, Writes W x → x < G.base ∨ ∃ c ∈ bs, InHdr G c x) {d : Blk} (hd : d ∈ bs) :
    m.Agree (replay W m) (G.base + d.off + 56) (G.base + d.stop) := fun x h1 h2 =>
  replay_of_not_writes (fun hx => by
    rcases hW x hx with hlow | ⟨c, hc, hin⟩
    · omega
    · exact h.not_inHdr_of_payload hd hc h1 (by rw [Blk.stop] at h2; omega) hin) m

/-- Writes below the heap and in headers keep a place vacant. -/
theorem Vacant.of_header_writes {W : List Event} (h : Vacant G m bs o) (hr : Rep G m bs fl)
    (hW : ∀ x, Writes W x → x < G.base ∨ ∃ c ∈ bs, InHdr G c x) : Vacant G (replay W m) bs o :=
  h.frame (fun d hd hl => ⟨d, hd, hl, rfl, Nat.le_refl _⟩) fun _ hd _ => hr.agree_payload hW hd

/-- Writes to live blocks keep a place vacant. -/
theorem Vacant.of_live_writes {W : List Event} (h : Vacant G m bs o) (hr : Rep G m bs fl)
    (hW : ∀ x, Writes W x → x < G.base ∨ ∃ c ∈ bs, c.live = true ∧ InBlk G c x) :
    Vacant G (replay W m) bs o := by
  refine h.frame (fun d hd hl => ⟨d, hd, hl, rfl, Nat.le_refl _⟩) fun d hd hl x h1 h2 =>
    replay_of_not_writes (fun hx => ?_) m
  rw [Blk.stop] at h2
  rcases hW x hx with hlow | ⟨c, hc, hcl, hin⟩
  · omega
  · have hdc := hr.eq_of_inBlk hd hc ⟨by omega, by omega⟩ hin
    rw [hdc, hcl] at hl
    exact Bool.noConfusion hl

/-- A free block that is not the live block `b` is before or behind it. -/
theorem mem_of_free {d : Blk} (hd : d ∈ pre ++ b :: post) (hl : d.live = false)
    (hb : b.live = true) : d ∈ pre ∨ d ∈ post := by
  simp only [List.mem_append, List.mem_cons] at hd
  rcases hd with hd | rfl | hd
  · exact .inl hd
  · rw [hb] at hl
    exact Bool.noConfusion hl
  · exact .inr hd

/-! ## Giving a block back -/

/-- Clearing the header of a live block. -/
theorem Vacant.clear (h : Vacant G m (pre ++ b :: post) o) (hr : Rep G m (pre ++ b :: post) fl)
    (hb : b.live = true) :
    Vacant G (replay (clearEvents (G.base + b.off)) m) (pre ++ b.freed :: post) o := by
  refine h.frame (fun d hd hl => ⟨d, ?_, hl, rfl, Nat.le_refl _⟩) fun d hd _ =>
    hr.agree_payload (fun x hx => ?_) hd
  · rcases mem_of_free hd hl hb with hd | hd <;> simp [hd]
  · have := writes_clearEvents hx
    exact .inr ⟨b, by simp, by omega, by omega⟩

/-- The block just cleared. -/
theorem vacant_freed (m : Mem) (pre : List Blk) (b : Blk) (post : List Blk) :
    Vacant G m (pre ++ b.freed :: post) b.off :=
  ⟨b.freed, by simp, rfl, .inl rfl⟩

/-- Linking the cleared block in. -/
theorem Vacant.link (h : Vacant G m (pre ++ b :: post) o) (hr : Rep G m (pre ++ b :: post) fl)
    (ys : List Nat) :
    Vacant G (replay (linkEvents G (freeOffs pre) b.off ys) m) (pre ++ b :: post) o := by
  refine h.of_header_writes hr fun x hx => ?_
  have hD := G.base_ge
  rcases writes_linkEvents hx with (hlow | ⟨c, hc, -, hin⟩) | hin
  · exact .inl (by omega)
  · exact .inr ⟨c, by simp [hc], hin⟩
  · exact .inr ⟨b, by simp, hin⟩

/-- **Merging.**  The block that is swallowed loses its magic word and lies inside the other. -/
theorem Vacant.merge {a c : Blk} (h : Vacant G m (pre ++ a :: c :: post) o)
    (hr : Rep G m (pre ++ a :: c :: post) fl) (ha : a.live = false) (ys : List Nat) :
    Vacant G (replay (mergeEvents G a c ys) m) (pre ++ a.grown c.total :: post) o := by
  have ham : a ∈ pre ++ a :: c :: post := by simp
  have hcm : c ∈ pre ++ a :: c :: post := by simp
  have hamin := (hr.wf a ham).min
  have hcmin := (hr.wf c hcm).min
  have hadj : c.off = a.off + a.total := (tiles_mid.1 hr.tiles).2.1
  have hW : ∀ x, Writes (mergeEvents G a c ys) x →
      x < G.base ∨ ∃ d ∈ pre ++ a :: c :: post, InHdr G d x :=
    fun x hx => .inr ((writes_mergeEvents hx).elim (fun h => ⟨a, ham, h⟩) fun h => ⟨c, hcm, h⟩)
  have hgrown : (a.grown c.total).stop = c.stop := by
    rw [Blk.stop, Blk.stop, Blk.grown_off, Blk.grown_total]
    omega
  have hmem : a.grown c.total ∈ pre ++ a.grown c.total :: post := by simp
  obtain ⟨d, hd, hl, hdo⟩ := h
  by_cases hdc : d = c
  · subst hdc
    refine ⟨_, hmem, ha, .inr ?_⟩
    rw [hgrown, Blk.grown_off]
    rcases hdo with rfl | ⟨h1, h2, h3⟩
    · refine ⟨by omega, by rw [Blk.stop]; omega, ?_⟩
      simp only [mergeEvents, replay_cons, replay_nil, Event.act]
      rw [Mem.load_store_same]
      rfl
    · refine ⟨by omega, h2, ?_⟩
      rw [(hr.agree_payload hW hd).load (by omega) (by omega)]
      exact h3
  · -- any other free block is still there, the first of the two with its new size
    have hone : Vacant G m [d] o := ⟨d, by simp, hl, hdo⟩
    refine hone.frame (fun e he _ => ?_) fun e he _ => ?_
    · obtain rfl := List.mem_singleton.1 he
      simp only [List.mem_append, List.mem_cons] at hd
      rcases hd with hd | rfl | rfl | hd
      · exact ⟨e, by simp [hd], hl, rfl, Nat.le_refl _⟩
      · refine ⟨_, hmem, hl, rfl, ?_⟩
        rw [Blk.stop, Blk.stop, Blk.grown_off, Blk.grown_total]
        omega
      · exact absurd rfl hdc
      · exact ⟨e, by simp [hd], hl, rfl, Nat.le_refl _⟩
    · obtain rfl := List.mem_singleton.1 he
      exact hr.agree_payload hW hd

theorem Vacant.next (h : Vacant G m (pre ++ b :: post) o) (hr : Rep G m (pre ++ b :: post) fl)
    (hb : b.live = false) :
    Vacant G (replay (nextEvents G b post) m) (pre ++ absorbNext b post) o := by
  cases post with
  | nil => exact h
  | cons c cs =>
    cases hc : c.live with
    | true => simpa [nextEvents, hc] using h
    | false =>
      rw [nextEvents, hc, absorbNext_free hc]
      simpa [replay_append, Event.act] using h.merge hr hb (freeOffs cs)

theorem Vacant.prev (h : Vacant G m (pre ++ b :: post) o) (hr : Rep G m (pre ++ b :: post) fl) :
    Vacant G (replay (prevEvents G pre (b :: post)) m) (absorbPrev pre (b :: post)) o := by
  rcases eq_nil_or_last pre with rfl | ⟨pre', p, rfl⟩
  · simpa [prevEvents, lastFree, freeBlks, Event.act] using h
  · cases hp : p.live with
    | true =>
      rw [absorbPrev_live hp, prevEvents, lastFree_concat_live hp]
      cases hl : lastFree pre' with
      | none => simpa [Event.act] using h
      | some q =>
        have := (show Rep G m (pre' ++ p :: b :: post) _ by simpa using hr).lastFree_apart hl
        simpa [Nat.ne_of_lt this, Event.act] using h
    | false =>
      have hr' : Rep G m (pre' ++ p :: b :: post) fl := by simpa using hr
      have h' : Vacant G m (pre' ++ p :: b :: post) o := by simpa using h
      have hadj : p.stop = b.off := ((tiles_mid.1 hr'.tiles).2.1).symm
      rw [absorbPrev_free hp, prevEvents, lastFree_concat_free hp]
      simpa [hadj, replay_append, Event.act] using h'.merge hr' hp (freeOffs post)

/-- **`freelist_insert` vacates the block it is given, and keeps vacant places vacant.** -/
theorem vacant_insert (hr : Rep G m (pre ++ b :: post) (freeOffs pre ++ freeOffs post))
    (h : o = b.off ∨ b.live = true ∧ Vacant G m (pre ++ b :: post) o) :
    Vacant G (replay (insertEvents G pre b post) m) (insertFree pre b.freed post) o := by
  have h1 : Vacant G (replay (clearEvents (G.base + b.off)) m) (pre ++ b.freed :: post) o := by
    rcases h with rfl | ⟨hb, h⟩
    · exact vacant_freed _ pre b post
    · exact h.clear hr hb
  have hr1 := hr.clear
  have hr2 := hr1.link rfl
  have h3 := (h1.link hr1 (freeOffs post)).next hr2 rfl
  have hr3 := Listed.next hr2 rfl
  rw [insertEvents, replay_append, replay_append, replay_append, insertFree]
  obtain ⟨t, rest, he, -⟩ := absorbNext_eq_cons b.freed post
  rw [he] at h3 hr3 ⊢
  exact h3.prev hr3

/-- **`heap_free_block`** likewise. -/
theorem vacant_release (hr : HeapInv G m (pre ++ b :: post)) (hb : b.live = true)
    (h : o = b.off ∨ Vacant G m (pre ++ b :: post) o) (used count : Nat) :
    Vacant G (replay (releaseEvents G pre b post used count) m)
      (insertFree pre b.freed post) o := by
  have hD := G.base_ge
  have hW : ∀ x, Writes (uncountEvents b.total used count) x → 96 ≤ x ∧ x < G.base := fun x hx => by
    have := writes_uncountEvents hx
    omega
  have hr' := Listed.around hr.toRep hb
  rw [releaseEvents, replay_append]
  exact vacant_insert (hr'.of_header_writes fun x hx => .inl (hW x hx)) (h.imp id fun h =>
    ⟨hb, h.of_header_writes hr' fun x hx => .inl (hW x hx).2⟩)

end ShmAlloc
