import ShmAlloc.Guarantees.Content

/-!
# Where objects are placed

First fit, exactly.  `shm_alloc` and the relocating path of `shm_resize` take the first block of the
free list that is large enough, and since the list is in address order that is the lowest one; they
fail only if there is none.  `shm_resize` leaves the object where it is whenever the block, alone or
together with a free block behind it, has the room.

The request is `blockSize n` bytes, header and payload rounded up.  A block is cut down to that if
what is cut off can be a block, so no object has more than 63 bytes it did not ask for.

## What is here

* `AllocatesFirstFit` and `alloc_exact`: **allocation is exact first fit**, with both errors, the
  block that is taken, how it is cut, and all other blocks where they were.
* `ResizesExactly`: what is expected of a resize: it stays, or moves, or fails, by the blocks alone.
* `MoveHasCapacity`: where the object would move to has the capacity for its payload.  It can be
  evaluated before the call.
* `ResizeOf`: a resize with access to an object, and what is granted of it.  Its lemmas take the
  cases one by one (`ResizeOf.stays`, `ResizeOf.moves`, `ResizeOf.fails`).
* `resize_exact`: **a resize is exact if and only if `MoveHasCapacity`**; and whatever the capacity,
  the payload goes to the lowest block that is large enough.
* `resize_exact_fails`: an object that is to move to a merged block is not moved.
-/

set_option autoImplicit false

namespace ShmAlloc

open Tiling Links

variable {G : Geometry} {m m' : Mem} {bs bs' pre post : List Blk}

/-- The call returns `rc`, without leaving the mapping. -/
def Returns (r : Region) (p : Prog Rc) (m : Mem) (rc : Rc) : Prop :=
  Completed r.size (p.trace m) ∧ p.val m = rc

/-- No free block has `need` bytes. -/
theorem firstFitOf_eq_none {need : Nat} :
    firstFitOf bs need = none ↔ ∀ c ∈ bs, c.live = false → c.total < need := by
  simp [firstFitOf]

/-- First fit, when there is one, is the first free block that is large enough. -/
theorem firstFitOf_eq_some {need : Nat} {f : Blk} (h : firstFitOf bs need = some f) :
    ∃ pre post, bs = pre ++ f :: post ∧ f.live = false ∧ need ≤ f.total ∧
      ∀ c ∈ pre, c.live = false → c.total < need := by
  rcases firstFit_cases need bs with hno | ⟨pre, b, post, rfl, hb, hfit, hfirst⟩
  · rw [firstFitOf_eq_none.2 hno] at h
    cases h
  · rw [firstFitOf_eq hb hfit hfirst] at h
    obtain rfl : b = f := Option.some.inj h
    exact ⟨pre, post, rfl, hb, hfit, hfirst⟩

/-- A block is cut down to the request, or the rest could not be a block. -/
theorem detached_slack {b : Blk} {need : Nat} (h : need ≤ b.total) :
    need ≤ (detached b need).total ∧ (detached b need).total ≤ need + 63 := by
  rw [detached]
  split
  · rw [Blk.resized_total]
    omega
  · omega

/-! ## Allocation -/

/-- What becomes of the free block `f` when `need` bytes are taken from it: the block `b` at its
start, and what is left of it. -/
structure CutFrom (f : Blk) (need : Nat) (b : Blk) (rest : List Blk) : Prop where
  off : b.off = f.off
  live : b.live = true
  /-- Enough is left for a block, which is free and lies right behind `b`. -/
  split : 64 ≤ f.total - need → b.total = need ∧
    ∃ c, rest = [c] ∧ c.live = false ∧ c.off = f.off + need ∧ c.total = f.total - need
  /-- Otherwise `b` has all of `f`. -/
  whole : ¬ 64 ≤ f.total - need → b.total = f.total ∧ rest = []

theorem cutFrom_taken (f : Blk) (need id : Nat) (q : Request) :
    CutFrom f need ((taken f need).named id q) (remnant f need) := by
  refine ⟨taken_off f need, rfl, fun h => ?_, fun h => ?_⟩
  · refine ⟨?_, Blk.fresh (f.off + need) (f.total - need), ?_, rfl, rfl, rfl⟩
    · show (detached f need).total = need
      rw [detached, if_pos h, Blk.resized_total]
    · rw [remnant, if_pos h]
  · refine ⟨?_, ?_⟩
    · show (detached f need).total = f.total
      rw [detached, if_neg h]
    · rw [remnant, if_neg h]

/-- **What a successful `shm_alloc` of `q` leaves** of the heap `pre ++ f :: post`, having taken its
block from `f`. -/
structure PlacedAt (G : Geometry) (m m' : Mem) (q : Request) (pre : List Blk) (f : Blk)
    (post : List Blk) (b : Blk) (rest : List Blk) : Prop where
  cut : CutFrom f (blockSize q.size) b rest
  /-- All other blocks are where they were, and as they were. -/
  chain : Chain G m' (pre ++ b :: (rest ++ post))
  links : Linked (nextAt G m') (m'.load 88 8) (freeOffs (pre ++ b :: (rest ++ post)))
  /-- The new object. -/
  entry : ∃ i, i < G.dirCap ∧ (entryAt m i).alive = false ∧
    entryAt m' i = newEntry b.off b.cap (nextIdOf m) q
  /-- Its payload meets no other. -/
  disjoint : ∀ j, j < G.dirCap → (entryAt m j).alive = true → ∀ x, (entryAt m j).off ≤ x →
    x < (entryAt m j).off + ((blkOfSlot G m j).total - 56) → ¬ (b.off + 56 ≤ x ∧ x < b.stop)

/-- **`shm_alloc` of `q` is exact first fit** on the blocks `bs`. -/
structure AllocatesFirstFit (G : Geometry) (m : Mem) (bs : List Blk) (q : Request) (r : Region)
    (p : Prog Rc) : Prop where
  returns : Completed r.size (p.trace m)
  /-- It answers `ENOSPC` exactly when every slot is in use. -/
  full : p.val m = .enospc ↔ ∀ j, j < G.dirCap → (entryAt m j).alive = true
  /-- Otherwise `ENOMEM` exactly when no free block is large enough. -/
  noRoom : (∃ j, j < G.dirCap ∧ (entryAt m j).alive = false) →
    (p.val m = .enomem ↔ ∀ c ∈ bs, c.live = false → c.total < blockSize q.size)
  /-- Otherwise it takes the lowest block that is. -/
  placed : (∃ j, j < G.dirCap ∧ (entryAt m j).alive = false) → ∀ pre f post,
    bs = pre ++ f :: post → f.live = false → blockSize q.size ≤ f.total →
    (∀ c ∈ pre, c.live = false → c.total < blockSize q.size) →
    p.val m = .ok ∧ lastOut 1 (p.trace m) = some (f.off + 56) ∧
      ∃ b rest, PlacedAt G m (p.mem m) q pre f post b rest

theorem FullInv.not_live_iff (h : FullInv G m bs) {i : Nat} (hi : i < G.dirCap) :
    ¬ (entryAt m i).Live ↔ (entryAt m i).alive = false := by
  rw [← Bool.not_eq_true, not_iff_not]
  exact ⟨fun hl => hl.1, h.entry_live hi⟩

/-- **What `shm_alloc` leaves.** -/
theorem placedAt_alloc {f : Blk} {i : Nat} {q : Request} (h : FullInv G m (pre ++ f :: post))
    (ht : Takes G m pre f i q) :
    PlacedAt G m (replay (allocEvents G pre f post i (nextIdOf m) q) m) q pre f post
      ((taken f (blockSize q.size)).named (nextIdOf m) q) (remnant f (blockSize q.size)) := by
  have hI := h.toInv.alloc ht
  have hoff : (taken f (blockSize q.size)).off = f.off := taken_off f _
  refine ⟨cutFrom_taken f _ _ q, hI.heap.toRep.chain, hI.heap.links,
    ⟨i, ht.slot_lt, (h.not_live_iff ht.slot_lt).1 ht.slot_free, ?_⟩, fun j hj ha x h1 h2 hx => ?_⟩
  · rw [entryAt_alloc h.toInv ht]
    show _ = newEntry (taken f (blockSize q.size)).off _ _ q
    rw [hoff]
    rfl
  · -- the block of the other object is not the free block, so the two lie apart
    obtain ⟨pre', c, post', hbs, hh⟩ := h.toInv.holds hj ha
    have hcm : c ∈ pre ++ f :: post := by simp [hbs]
    have hfm : f ∈ pre ++ f :: post := by simp
    rw [hh.blkOfSlot h.heap.toRep hcm] at h2
    have hoffc := hh.mirrors.off
    have hne : c.off ≠ f.off := fun e => by
      have hl := hh.live
      rw [h.heap.toRep.eq_of_off hcm hfm e, ht.free] at hl
      exact Bool.noConfusion hl
    have hap := h.heap.apart hcm hfm hne
    have htd := detached_total_le ht.fits
    have hmin := (h.heap.wf c hcm).min
    have hx2 : x < (taken f (blockSize q.size)).off + (detached f (blockSize q.size)).total := hx.2
    have hx1 : (taken f (blockSize q.size)).off + 56 ≤ x := hx.1
    omega

/-- **Allocation is exact first fit.**  In every reachable state and for every size that does not
wrap, `shm_alloc` fails with `ENOSPC` exactly when the directory is full and otherwise with `ENOMEM`
exactly when no free block is large enough; otherwise it places the object at the start of the
lowest free block that is, cuts the block down if the rest can be a block, and leaves all other
blocks where they are. -/
theorem alloc_exact (h : Reach G NoWrap m) : Chain G m (blocks G m) ∧
    Linked (nextAt G m) (m.load 88 8) (freeOffs (blocks G m)) ∧
    ∀ (r : Region) (q : Request), r.size = G.size → q.size ≠ 0 → q.size ≤ 2 ^ 64 - 64 →
      AllocatesFirstFit G m (blocks G m) q r
        (shmAlloc (some r) q.size q.name q.userId q.perms q.typeTag true true) := by
  obtain ⟨bs, hI⟩ := h.fullInv
  rw [hI.heap.toRep.blocks_eq]
  refine ⟨hI.heap.toRep.chain, hI.heap.links, fun r q hr hq hq' => ?_⟩
  have hlegal := legal_alloc hI.toInv hr hq hq'
  have hargs : ¬ (q.size = 0 ∨ true = false ∨ true = false) := by simpa using hq
  have hfree : ∀ j, j < G.dirCap → (entryAt m j).alive = false → ¬ (entryAt m j).Live :=
    fun j hj => (hI.not_live_iff hj).2
  have hret : Completed r.size
      ((shmAlloc (some r) q.size q.name q.userId q.perms q.typeTag true true).trace m) :=
    hlegal.completed r rfl
  rw [shmAlloc, if_neg hargs] at hret ⊢
  rcases exec_allocLocked hI.toInv hq hq' with
    ⟨hfull, hx⟩ | ⟨⟨j, hj, hjl⟩, hno, hx⟩ | ⟨pre, f, post, i, rfl, ht, hx⟩
  · -- the directory is full
    have hx := exec_locked r hx
    have hall : ∀ j, j < G.dirCap → (entryAt m j).alive = true := fun j hj => (hfull j hj).1
    have hcontra : ¬ ∃ j, j < G.dirCap ∧ (entryAt m j).alive = false := by
      rintro ⟨j, hj, hjl⟩
      exact hfree j hj hjl (hfull j hj)
    exact ⟨hret, ⟨fun _ => hall, fun _ => hx.val⟩, fun he => absurd he hcontra,
      fun he => absurd he hcontra⟩
  · -- no block is large enough
    have hx := exec_locked r hx
    refine ⟨hret, ⟨fun hv => ?_, fun hall => ?_⟩, fun _ => ⟨fun _ => hno, fun _ => hx.val⟩,
      fun _ pre f post hbs hf hfit _ => ?_⟩
    · rw [hx.val] at hv
      cases hv
    · exact absurd (hI.entry_live hj (hall j hj)) hjl
    · have := hno f (by simp [hbs]) hf
      omega
  · -- the first block that is
    have hx := exec_locked r hx
    have hif := (hI.not_live_iff ht.slot_lt).1 ht.slot_free
    refine ⟨hret, ⟨fun hv => ?_, fun hall => ?_⟩, fun _ => ⟨fun hv => ?_, fun hno => ?_⟩,
      fun _ pre' f' post' hbs hf hfit hfirst => ?_⟩
    · rw [hx.val] at hv
      cases hv
    · rw [hall i ht.slot_lt] at hif
      cases hif
    · rw [hx.val] at hv
      cases hv
    · have := hno f (by simp) ht.free
      have := ht.fits
      omega
    · obtain ⟨rfl, rfl, rfl⟩ := firstFit_unique hbs rfl hf ht.free hfit ht.fits hfirst ht.first
      have hout : lastOut 1 (lockEvents r ++ allocEvents G pre' f' post' i (nextIdOf m) q) = _ :=
        (lastOut_allocEvents r (nextIdOf m)).2
      rw [← hx.eff, lastOut_effects] at hout
      refine ⟨hx.val, hout, (taken f' (blockSize q.size)).named (nextIdOf m) q,
        remnant f' (blockSize q.size), ?_⟩
      rw [hx.mem, replay_locked]
      exact placedAt_alloc hI ht

/-- A second object on the page, of 16 bytes, is cut off the free block behind the first one: its
block has the 72 bytes asked for, and the rest of the page stays free. -/
theorem alloc_exact_page :
    (asks 16).prog.val (firstMem pageGeometry pageHandle eightBytes) = .ok ∧
    lastOut 1 ((asks 16).prog.trace (firstMem pageGeometry pageHandle eightBytes)) = some 120 ∧
    ∃ a b c, Chain pageGeometry
        ((asks 16).prog.mem (firstMem pageGeometry pageHandle eightBytes)) [a, b, c] ∧
      b.off = 64 ∧ b.total = 72 ∧ c.live = false ∧ c.off = 136 ∧ c.total = 3568 := by
  have hex := (alloc_exact page_reach).2.2 pageHandle ⟨16, none, 7, 0xF, 0⟩ rfl (by decide)
    (by decide)
  obtain ⟨a, f, hbs, hf⟩ : ∃ a f, blocks pageGeometry (firstMem pageGeometry pageHandle eightBytes)
      = [a, f] ∧ a.live = true ∧ f.live = false ∧ f.off = 64 ∧ f.total = 3640 :=
    ⟨⟨0, 64, 8, true, 1, 7, 0xF, 0⟩, ⟨64, 3640, 3584, false, 0, 0, 0, 0⟩, by decide +kernel⟩
  rw [hbs] at hex
  obtain ⟨ha, hfree, hoff, htotal⟩ := hf
  obtain ⟨hok, hout, b, rest, hplaced⟩ := hex.placed ⟨1, by decide, by decide +kernel⟩ [a] f [] rfl
    hfree (by rw [htotal]; decide) fun c hc hl => by
      rw [List.mem_singleton.1 hc, ha] at hl
      cases hl
  -- 3568 bytes are left of the free block, which is a block
  obtain ⟨hb, c, rfl, hc⟩ := hplaced.cut.split (by rw [htotal]; decide)
  have hboff := hplaced.cut.off
  rw [hoff] at hout hboff hc
  rw [htotal] at hc
  exact ⟨hok, hout, a, b, c, hplaced.chain, hboff, hb, hc⟩

/-! ## Resizing -/

/-- The block behind `b` is free, and the two together have `t` bytes. -/
def RoomBehind (b : Blk) (t : Nat) : List Blk → Prop
  | [] => False
  | c :: _ => c.live = false ∧ t ≤ b.total + c.total

/-- Through a handle that maps the whole region that is what the code asks before it grows a block
in place. -/
theorem Rep.canGrow_iff {b : Blk} {t : Nat} {fl : List Nat} (h : Rep G m (pre ++ b :: post) fl) :
    CanGrow G G.size b t post ↔ RoomBehind b t post := by
  cases post with
  | nil => exact Iff.rfl
  | cons c cs =>
    -- a block behind `b` has its header inside the heap
    have hc := tiles_cons.1 (tiles_mid.1 h.tiles).2
    have hoff : c.off = b.stop := hc.1
    have hcb := h.bounds (show c ∈ pre ++ b :: c :: cs by simp)
    have hsz := G.size_eq
    exact ⟨fun hcan => ⟨hcan.1, hcan.2.1⟩, fun hroom => ⟨hroom.1, hroom.2, by omega⟩⟩

/-- **What a successful resize to `n` bytes leaves of the object in slot `i`**, its payload being at
`off` then. -/
structure ResizedTo (G : Geometry) (m m' : Mem) (i n off : Nat) : Prop where
  off : (entryAt m' i).off = off
  used : (entryAt m' i).used = n
  /-- The block has what was asked for, and less than a block more. -/
  total_ge : blockSize n ≤ (blkOfSlot G m' i).total
  total_le : (blkOfSlot G m' i).total ≤ blockSize n + 63
  /-- It is the same object: id, name, owner and type tag. -/
  same : SameIdentity m m' i
  perms : (entryAt m' i).perms = (entryAt m i).perms
  /-- The header agrees with the entry. -/
  block : SameObject (entryAt m' i) (blkOfSlot G m' i)

/-- **A resize to `n` bytes of the object in slot `i`**, whose block is `b`, goes where the blocks
of the heap say. -/
structure ResizesExactly (G : Geometry) (m : Mem) (pre : List Blk) (b : Blk) (post : List Blk)
    (i n : Nat) (r : Region) (p : Prog Rc) : Prop where
  /-- The block is large enough. -/
  stays : blockSize n ≤ b.total →
    Returns r p m .ok ∧ ResizedTo G m (p.mem m) i n (entryAt m i).off
  /-- The block and a free block behind it are; the list walk finds that block. -/
  grows : b.total < blockSize n → RoomBehind b (blockSize n) post →
    Returns r p m .ok ∧ ResizedTo G m (p.mem m) i n (entryAt m i).off ∧
      ∀ c cs, post = c :: cs →
        ((removalPoint (shmLinkEnc c.off) walkFuel 0 (m.load 88 8)).val m).2 = shmLinkEnc c.off
  /-- Some other free block is: the object moves to the lowest one. -/
  moves : b.total < blockSize n → ¬ RoomBehind b (blockSize n) post →
    ∀ f, firstFitOf (pre ++ b :: post) (blockSize n) = some f →
      Returns r p m .ok ∧ ResizedTo G m (p.mem m) i n (f.off + 56)
  /-- None is. -/
  fails : b.total < blockSize n → ¬ RoomBehind b (blockSize n) post →
    firstFitOf (pre ++ b :: post) (blockSize n) = none →
      Returns r p m .enomem ∧ p.mem m = m

/-- **The block an object would move to can take its payload**, as far as the headers say: it is cut
down to the request, which sets its `payload_cap`, or it has on record the capacity that `b` has.  A
block handed out whole may have a `payload_cap` from before it was merged. -/
def MoveHasCapacity (pre : List Blk) (b : Blk) (post : List Blk) (n : Nat) : Prop :=
  b.total < blockSize n → ¬ RoomBehind b (blockSize n) post →
    ∀ f, firstFitOf (pre ++ b :: post) (blockSize n) = some f →
      64 ≤ f.total - blockSize n ∨ b.cap ≤ f.cap

section

variable {b : Blk} {i n : Nat} {r : Region} {V : List Event}

/-- An object whose entry has been updated to the block `c`. -/
theorem resizedTo_of_block {c : Blk} (h : FullInv G m' bs') (hi : i < G.dirCap)
    (ha : (entryAt m i).alive = true)
    (hent : entryAt m' i = { entryAt m i with off := c.off + 56, cap := c.cap, used := n })
    (hc : c ∈ bs') (hge : blockSize n ≤ c.total) (hle : c.total ≤ blockSize n + 63)
    (hsame : SameIdentity m m' i) : ResizedTo G m m' i n (c.off + 56) := by
  obtain ⟨pre, d, post, rfl, hh⟩ := h.toInv.holds hi (by rw [hent, ha])
  have hdm : d ∈ pre ++ d :: post := by simp
  have hoff := hh.mirrors.off
  rw [hent] at hoff
  obtain rfl : c = d := h.heap.toRep.eq_of_off hc hdm (Nat.add_right_cancel hoff)
  have hblk := hh.blkOfSlot h.heap.toRep hdm
  refine ⟨by rw [hent], by rw [hent], by rwa [hblk], by rwa [hblk], hsame, by rw [hent], ?_⟩
  rw [hblk]
  exact h.sameObject hh hdm

theorem grownBlk_slack {c : Blk} {t : Nat} (h : t ≤ b.total + c.total) :
    t ≤ (grownBlk b c t).total ∧ (grownBlk b c t).total ≤ t + 63 := by
  rw [grownBlk]
  split
  · rw [Blk.resized_total]
    omega
  · rw [swallowed, Blk.resized_total]
    omega

/-- **Where a resize that succeeded has put the object**: it stayed if its block was large enough or
could grow, and is in the lowest block that was large enough otherwise. -/
theorem ResizeRun.placed (h : FullInv G m (pre ++ b :: post)) (hh : Holds G m i b) (hn : n ≠ 0)
    (hn' : n ≤ 2 ^ 64 - 64) (hsame : SameIdentity m (replay V m) i)
    (hrun : ResizeRun G G.size pre b post i n .ok V bs') :
    (blockSize n ≤ b.total ∨ RoomBehind b (blockSize n) post) ∧
        ResizedTo G m (replay V m) i n (entryAt m i).off ∨
      (b.total < blockSize n ∧ ¬ RoomBehind b (blockSize n) post) ∧
        ∃ f, firstFitOf (pre ++ b :: post) (blockSize n) = some f ∧
          ResizedTo G m (replay V m) i n (f.off + 56) := by
  have hI' := hrun.fullInv h hh hn hn'
  have hI := h.toInv
  have ht := blockSize_ge hn
  have ht8 := blockSize_mod n
  have hroom := h.heap.toRep.canGrow_iff (t := blockSize n)
  have hnlt : n < 2 ^ 64 := by omega
  -- an in-place edit leaves the offset in the entry alone
  have hstay : ∀ {W : List Event} {c : Blk} {post' : List Blk}, InPlace G m pre b post W c post' →
      entryAt (replay (W ++ inPlaceEvents i c.cap n) m) i
        = { entryAt m i with off := c.off + 56, cap := c.cap, used := n } := fun hp => by
    rw [inPlace_entry_self hh hp hnlt, hp.off, ← hh.mirrors.off]
  rw [hh.mirrors.off]
  cases hrun with
  | keep hle hrem =>
    have hent := hstay (.refl hI hh.live)
    rw [List.nil_append] at hent
    exact .inl ⟨.inl hle, resizedTo_of_block hI' hh.lt hh.alive hent (by simp) hle (by omega) hsame⟩
  | cut hrem =>
    have hp := InPlace.cutTail hI hh.live ht ht8 hrem
    have hres := resizedTo_of_block hI' hh.lt hh.alive (hstay hp) (by simp) (Nat.le_refl _)
      (Nat.le_add_right _ _) hsame
    exact .inl ⟨.inl (by omega), hres⟩
  | grow c cs hpost hlt hcan =>
    subst hpost
    have hp := InPlace.grow hI hh.live hcan.1 ht ht8 hcan.2.1
    have hsl := grownBlk_slack hcan.2.1
    have hres := resizedTo_of_block hI' hh.lt hh.alive (hstay hp) (by simp) hsl.1 hsl.2 hsame
    rw [hp.off] at hres
    exact .inl ⟨.inr (hroom.1 hcan), hres⟩
  | move pre₁ f post₁ pre₂ post₂ hlt hcan hr =>
    have hsl := detached_slack hr.fits
    have hff : firstFitOf (pre₁ ++ f :: post₁) (blockSize n) = some f :=
      firstFitOf_eq hr.free hr.fits hr.first
    rw [← hr.split] at hff
    have hmem := hr.adopted_mem_freed (hr.off_ne h.heap.toRep (by simp) hh.live)
    have hent := moving_entry_self (n := n) hr hI (by simp) ht hh.lt hnlt
    have hoff : ((taken f (blockSize n)).adopted b).off = f.off := taken_off f _
    have hres := resizedTo_of_block (c := (taken f (blockSize n)).adopted b) hI' hh.lt hh.alive
      (by rw [hent, hoff]; rfl) hmem hsl.1 hsl.2 hsame
    rw [hoff] at hres
    exact .inr ⟨⟨hlt, fun hno => hcan (hroom.2 hno)⟩, f, hff, hres⟩

/-- **When a resize fails**: the block cannot hold the object, nor can it grow, and no free block is
large enough. -/
theorem ResizeRun.ok_or_full {rc : Rc} (h : Inv G m (pre ++ b :: post))
    (hrun : ResizeRun G G.size pre b post i n rc V bs') :
    rc = .ok ∨ rc = .enomem ∧ V = [.unlock] ∧ b.total < blockSize n ∧
      ¬ RoomBehind b (blockSize n) post ∧ firstFitOf (pre ++ b :: post) (blockSize n) = none := by
  cases hrun with
  | keep | cut | grow | move => exact .inl rfl
  | noRoom hlt hcan hfull =>
    exact .inr ⟨rfl, rfl, hlt, fun hno => hcan (h.heap.toRep.canGrow_iff.2 hno),
      firstFitOf_eq_none.2 hfull⟩

/-- **A resize with no room where the object is copies it to the lowest block that is large
enough**, whatever the payload fill does then. -/
theorem copy_mem_resizeObject {f : Blk} (h : Inv G m (pre ++ b :: post)) (hh : Holds G m i b)
    (hr : r.size = G.size) (hn : n ≠ 0) (hn' : n ≤ 2 ^ 64 - 64) (hlt : b.total < blockSize n)
    (hroom : ¬ RoomBehind b (blockSize n) post)
    (hff : firstFitOf (pre ++ b :: post) (blockSize n) = some f) :
    .copy (G.base + f.off + 56) (G.base + b.off + 56) b.cap
      ∈ (resizeObject r n (slotAddr i)).trace m := by
  have hbm : b ∈ pre ++ b :: post := by simp
  have hbb := h.heap.bounds hbm
  have ht := blockSize_ge hn
  have ht8 := blockSize_mod n
  have hsz := G.size_eq
  obtain ⟨V, -, -, htr⟩ := (exec_resizeStart h hh r (blockSize_eq hn')).2
  rw [htr, if_neg (Nat.not_le.2 hlt)]
  refine List.mem_append_right _ ?_
  -- the block cannot grow where it is
  rcases exec_growInPlace h.layout h.heap.toRep hh.live ht ht8 (r := r) (by omega)
    (Nat.le_of_eq hr) h.used (total_le_liveBytes hbm hh.live)
    fun c hc => h.heap.room c (by simp [hc]) with ⟨c, cs, rfl, hcan, -⟩ | ⟨-, hx⟩
  · rw [hr] at hcan
    exact absurd (h.heap.toRep.canGrow_iff.1 hcan) hroom
  rw [hx.trace_bind_nil, if_neg Bool.false_ne_true]
  refine List.mem_append_right _ ?_
  -- first fit finds `f`
  obtain ⟨pre₁, post₁, hsplit, hf, hfit, hfirst⟩ := firstFitOf_eq_some hff
  rcases exec_heapAllocBlock h.layout h.heap.toRep ht ht8 h.used h.count h.heap.room
    h.heap.count_lt with ⟨hno, -⟩ | ⟨pre₂, g, post₂, hsplit', hg, hgfit, hgfirst, hx⟩
  · have := hno f (by simp [hsplit]) hf
    omega
  obtain ⟨rfl, rfl, rfl⟩ := firstFit_unique hsplit hsplit' hf hg hfit hgfit hfirst hgfirst
  rw [growByMoving, hx.trace_bind]
  refine List.mem_append_right _ ?_
  -- the header of `b` is as it was, and the copy is the first thing done with it
  have htk := (hsplit ▸ h.heap).take (liveBytes (pre ++ b :: post))
    (liveBlks (pre ++ b :: post)).length hf ht ht8 hfit
  have hB := htk.blk b (mem_takeFree hf (hsplit ▸ hbm) hh.live)
  have hcap : Exec G.size (Prog.get (G.base + b.off) BlockHdr.payloadCap)
      (replay (takeEvents G pre₁ f post₁ (blockSize n) (liveBytes (pre ++ b :: post))
        (liveBlks (pre ++ b :: post)).length) m) b.cap [] :=
    .load hB.cap (show G.base + b.off + 32 + 8 ≤ G.size by omega)
  show _ ∈ (relocateTo (slotAddr i) (G.base + b.off) (G.base + f.off) >>= _).trace _
  rw [Prog.trace_bind, relocateTo, Prog.trace_bind, copyPayload, hcap.trace_bind_nil,
    Prog.trace_bind]
  simp

/-- First fit decides whether an object can be moved. -/
theorem movable_iff {t : Nat} :
    Movable bs b t ↔ ∀ f, firstFitOf bs t = some f → b.cap ≤ (taken f t).cap := by
  constructor
  · intro hmov f hf
    obtain ⟨pre, post, hsplit, hl, hfit, hfirst⟩ := firstFitOf_eq_some hf
    exact hmov pre f post hsplit hl hfit hfirst
  · intro hall pre f post hsplit hl hfit hfirst
    exact hall f (hsplit ▸ firstFitOf_eq hl hfit hfirst)

/-- A block that is cut down to more bytes than `b` has can take the payload of `b`. -/
theorem le_taken_cap_iff {f : Blk} {t : Nat} (hb : b.cap + 56 ≤ b.total) (hlt : b.total < t) :
    b.cap ≤ (taken f t).cap ↔ 64 ≤ f.total - t ∨ b.cap ≤ f.cap := by
  show b.cap ≤ (detached f t).cap ↔ _
  rw [detached]
  split
  · rename_i hsplit
    rw [Blk.resized_cap]
    exact iff_of_true (by omega) (.inl hsplit)
  · rename_i hwhole
    exact ⟨.inr, fun h => h.resolve_left hwhole⟩

theorem moveHasCapacity_iff (hb : b.cap + 56 ≤ b.total) :
    MoveHasCapacity pre b post n ↔
      (b.total < blockSize n → ¬ RoomBehind b (blockSize n) post →
        Movable (pre ++ b :: post) b (blockSize n)) := by
  refine forall₂_congr fun hlt _ => ?_
  rw [movable_iff]
  exact forall₂_congr fun f _ => (le_taken_cap_iff hb hlt).symm

end

/-! ### The call

`ResizeOf` is what all that follows takes for granted of a call.  That it returns is one question,
which `MoveHasCapacity` decides; where the object is if it does is another, which the blocks
decide. -/

/-- A `shm_resize` with access to the object in slot `i`, in the block `b`, to `n` bytes. -/
structure ResizeOf (G : Geometry) (m : Mem) (pre : List Blk) (b : Blk) (post : List Blk)
    (i objId n : Nat) (userId callerPerms : UInt32) (r : Region) : Prop where
  inv : FullInv G m (pre ++ b :: post)
  finds : Finds G m objId i
  holds : Holds G m i b
  access : (entryAt m i).access userId callerPerms SHM_PERM_RESIZE = .ok
  size : r.size = G.size
  pos : n ≠ 0
  le : n ≤ 2 ^ 64 - 64

namespace ResizeOf

variable {b : Blk} {i objId n : Nat} {userId callerPerms : UInt32} {r : Region}

theorem id_ne_zero (h : ResizeOf G m pre b post i objId n userId callerPerms r) : objId ≠ 0 := by
  have hpos := h.inv.ids.id_pos i h.finds.lt h.finds.alive
  rw [h.finds.id] at hpos
  omega

theorem cap_le (h : ResizeOf G m pre b post i objId n userId callerPerms r) :
    b.cap + 56 ≤ b.total :=
  (h.inv.heap.wf b (by simp)).cap_le

/-- Through a handle that maps the region the code asks what `RoomBehind` says. -/
theorem canGrow_iff (h : ResizeOf G m pre b post i objId n userId callerPerms r) :
    CanGrow G r.size b (blockSize n) post ↔ RoomBehind b (blockSize n) post := by
  rw [h.size]
  exact h.inv.heap.toRep.canGrow_iff

/-- The call comes to `resizeObject`, with what that does and whether it completes. -/
theorem comesTo (h : ResizeOf G m pre b post i objId n userId callerPerms r) :
    (∀ rc W, Exec G.size (resizeObject r n (slotAddr i)) m rc W →
      Exec G.size (shmResize (some r) objId n userId callerPerms) m rc (lockEvents r ++ W)) ∧
    ∀ size, Completed size ((shmResize (some r) objId n userId callerPerms).trace m) →
      Completed size ((resizeObject r n (slotAddr i)).trace m) := by
  rcases exec_shmResize_object h.inv.toInv r h.id_ne_zero h.pos userId callerPerms with
    ⟨rc, -, hno, -⟩ | ⟨pre', b', post', i', -, hf, -, -, hrun, hcomp⟩
  · exact absurd h.access (hno i h.finds)
  · obtain rfl : i = i' := h.finds.unique hf
    exact ⟨hrun, hcomp⟩

/-- **If the call returns, the object could be moved** if that had to be. -/
theorem capacity_of_completed (h : ResizeOf G m pre b post i objId n userId callerPerms r)
    (hc : Completed r.size ((shmResize (some r) objId n userId callerPerms).trace m)) :
    MoveHasCapacity pre b post n := by
  have hres := resizable_of_completed h.inv.toInv h.holds (Nat.le_of_eq h.size) h.pos h.le
    (h.comesTo.2 r.size hc)
  rw [moveHasCapacity_iff h.cap_le]
  exact fun hlt hno => hres.movable hlt fun hcan => hno (h.canGrow_iff.1 hcan)

/-- **If the object can be moved if that has to be, the call returns**, and goes one of the ways
resizes go. -/
theorem returns (h : ResizeOf G m pre b post i objId n userId callerPerms r)
    (hcap : MoveHasCapacity pre b post n) :
    ∃ rc, Returns r (shmResize (some r) objId n userId callerPerms) m rc ∧ ∃ V bs',
      ResizeRun G G.size pre b post i n rc V bs' ∧
      (shmResize (some r) objId n userId callerPerms).mem m = replay V m ∧
      SameIdentity m (replay V m) i := by
  have hbase : G.base ≤ r.size := by
    rw [h.size, G.size_eq]
    exact Nat.le_add_right ..
  have hmov := (moveHasCapacity_iff h.cap_le).1 hcap
  obtain ⟨rc, V, bs', hrun, hx⟩ := exec_resizeObject h.inv.toInv h.holds (Nat.le_of_eq h.size) h.pos
    h.le ⟨hbase, fun hlt hcan => hmov hlt fun hno => hcan (h.canGrow_iff.2 hno)⟩
  have hx := h.comesTo.1 _ _ hx
  have hcr := CallRun.resize (r := r) h.finds h.holds h.access h.pos h.le hrun
  have hsame : SameIdentity m (replay V m) i := by
    have hs := hcr.slot h.inv.toInv h.finds.lt
    rw [replay_locked] at hs
    rcases hs with hs | ⟨-, -, ⟨_, _, hc, -⟩, -⟩ | ⟨-, -, ⟨_, _, _, hc⟩, -⟩
    · exact hs
    · cases hc
    · cases hc
  refine ⟨rc, ⟨?_, hx.val⟩, V, bs', h.size ▸ hrun, by rw [hx.mem, replay_locked], hsame⟩
  exact completed_of_exec h.size hx (hrun.within h.inv.toInv h.holds h.pos)

/-- **The object stays** where it is if its block, alone or with a free block behind it, has the
room. -/
theorem stays (h : ResizeOf G m pre b post i objId n userId callerPerms r)
    (hor : blockSize n ≤ b.total ∨ RoomBehind b (blockSize n) post) :
    Returns r (shmResize (some r) objId n userId callerPerms) m .ok ∧
      ResizedTo G m ((shmResize (some r) objId n userId callerPerms).mem m) i n
        (entryAt m i).off := by
  have hnot : b.total < blockSize n → ¬ RoomBehind b (blockSize n) post → False := fun hlt hno =>
    hor.elim (Nat.not_le.2 hlt) hno
  obtain ⟨rc, hret, V, bs', hrun, hmem, hsame⟩ := h.returns fun hlt hno => absurd hno (hnot hlt)
  rcases hrun.ok_or_full h.inv.toInv with rfl | ⟨-, -, hlt, hno, -⟩
  · rcases hrun.placed h.inv h.holds h.pos h.le hsame with ⟨-, hres⟩ | ⟨⟨hlt, hno⟩, -⟩
    · exact ⟨hret, hmem ▸ hres⟩
    · exact absurd hno (hnot hlt)
  · exact absurd hno (hnot hlt)

/-- The neighbour a block grows into is on the free list, and the list walk finds it. -/
theorem finds_neighbour (h : ResizeOf G m pre b post i objId n userId callerPerms r) {t : Nat}
    (hroom : RoomBehind b t post) : ∀ c cs, post = c :: cs →
      ((removalPoint (shmLinkEnc c.off) walkFuel 0 (m.load 88 8)).val m).2 = shmLinkEnc c.off := by
  rintro c cs rfl
  have hc : Listed G m (pre ++ b :: c :: cs) := h.inv.heap.toRep
  rw [show pre ++ b :: c :: cs = (pre ++ [b]) ++ c :: cs by simp] at hc
  have hcb := hc.bounds (show c ∈ (pre ++ [b]) ++ c :: cs by simp)
  have hszlt := G.size_lt
  have hsz := G.size_eq
  rw [linkEnc_eq (G := G) (by omega), (hc.exec_removalPoint h.inv.layout hroom.1).val]

/-- **The object moves** to the lowest block with the room, if that can take its payload. -/
theorem moves (h : ResizeOf G m pre b post i objId n userId callerPerms r)
    (hcap : MoveHasCapacity pre b post n) (hlt : b.total < blockSize n)
    (hno : ¬ RoomBehind b (blockSize n) post) {f : Blk}
    (hff : firstFitOf (pre ++ b :: post) (blockSize n) = some f) :
    Returns r (shmResize (some r) objId n userId callerPerms) m .ok ∧
      ResizedTo G m ((shmResize (some r) objId n userId callerPerms).mem m) i n (f.off + 56) := by
  obtain ⟨rc, hret, V, bs', hrun, hmem, hsame⟩ := h.returns hcap
  rcases hrun.ok_or_full h.inv.toInv with rfl | ⟨-, -, -, -, hnone⟩
  · rcases hrun.placed h.inv h.holds h.pos h.le hsame with ⟨hor, -⟩ | ⟨-, g, hg, hres⟩
    · exact absurd hor (not_or.2 ⟨Nat.not_le.2 hlt, hno⟩)
    · obtain rfl := Option.some.inj (hff.symm.trans hg)
      exact ⟨hret, hmem ▸ hres⟩
  · exact nomatch hff.symm.trans hnone

/-- **The call fails** if there is no block with the room. -/
theorem fails (h : ResizeOf G m pre b post i objId n userId callerPerms r)
    (hlt : b.total < blockSize n) (hno : ¬ RoomBehind b (blockSize n) post)
    (hff : firstFitOf (pre ++ b :: post) (blockSize n) = none) :
    Returns r (shmResize (some r) objId n userId callerPerms) m .enomem ∧
      (shmResize (some r) objId n userId callerPerms).mem m = m := by
  obtain ⟨rc, hret, V, bs', hrun, hmem, hsame⟩ := h.returns fun _ _ f hf =>
    nomatch hff.symm.trans hf
  rcases hrun.ok_or_full h.inv.toInv with rfl | ⟨rfl, rfl, -⟩
  · rcases hrun.placed h.inv h.holds h.pos h.le hsame with ⟨hor, -⟩ | ⟨-, g, hg, -⟩
    · exact absurd hor (not_or.2 ⟨Nat.not_le.2 hlt, hno⟩)
    · exact nomatch hff.symm.trans hg
  · exact ⟨hret, hmem⟩

/-- **Where the payload goes**, whatever becomes of the call: to the lowest block with the room. -/
theorem copies (h : ResizeOf G m pre b post i objId n userId callerPerms r)
    (hlt : b.total < blockSize n) (hno : ¬ RoomBehind b (blockSize n) post) {f : Blk}
    (hff : firstFitOf (pre ++ b :: post) (blockSize n) = some f) :
    .copy (G.base + f.off + 56) (G.base + b.off + 56) b.cap
      ∈ (shmResize (some r) objId n userId callerPerms).trace m := by
  have hmem := copy_mem_resizeObject h.inv.toInv h.holds h.size h.pos h.le hlt hno hff
  rw [shmResize, if_neg (by simp [h.id_ne_zero, h.pos]), (exec_regionLock G.size r m).trace_bind,
    replay_lockEvents]
  exact List.mem_append_right _ (mem_trace_withEntry h.inv.layout h.finds h.access hmem)

end ResizeOf

/-- **When resizing is exact.**  In every reachable state, a `shm_resize` with access to an object,
to a size that does not wrap, leaves the object where it is if its block has the room, alone or with
a free block behind it; moves it to the lowest free block that is large enough otherwise; and fails
with `ENOMEM` and without an effect if there is none, if and only if the block it has to be moved
to, if it has to be moved, can take the payload as far as the headers say.  Where the payload is
copied to does not depend on that. -/
theorem resize_exact (h : Reach G NoWrap m) : Chain G m (blocks G m) ∧
    Linked (nextAt G m) (m.load 88 8) (freeOffs (blocks G m)) ∧
    ∀ (r : Region) (objId n i : Nat) (userId callerPerms : UInt32) (pre : List Blk) (b : Blk)
      (post : List Blk), r.size = G.size → n ≠ 0 → n ≤ 2 ^ 64 - 64 → Finds G m objId i →
      (entryAt m i).access userId callerPerms SHM_PERM_RESIZE = .ok →
      blocks G m = pre ++ b :: post → (entryAt m i).off = b.off + 56 →
      (ResizesExactly G m pre b post i n r (shmResize (some r) objId n userId callerPerms) ↔
        MoveHasCapacity pre b post n) ∧
      (b.total < blockSize n → ¬ RoomBehind b (blockSize n) post →
        ∀ f, firstFitOf (pre ++ b :: post) (blockSize n) = some f →
          .copy (G.base + f.off + 56) (G.base + b.off + 56) b.cap
            ∈ (shmResize (some r) objId n userId callerPerms).trace m) := by
  obtain ⟨bs, hI⟩ := h.fullInv
  rw [hI.heap.toRep.blocks_eq]
  refine ⟨hI.heap.toRep.chain, hI.heap.links, ?_⟩
  rintro r objId n i userId callerPerms pre b post hr hn hn' hf hacc rfl hoff
  -- the object's block is `b`
  obtain ⟨pre', b', post', hbs, hh⟩ := hI.toInv.holds hf.lt hf.alive
  obtain rfl : b = b' := hI.heap.toRep.eq_of_off (by simp) (by simp [hbs])
    (Nat.add_right_cancel (hoff.symm.trans hh.mirrors.off))
  have hc : ResizeOf G m pre b post i objId n userId callerPerms r :=
    ⟨hI, hf, hh, hacc, hr, hn, hn'⟩
  refine ⟨⟨fun hex hlt hno f hff => ?_, fun hcap => ⟨fun hle => hc.stays (.inl hle),
    fun hlt hrm => ?_, fun hlt hno f hff => hc.moves hcap hlt hno hff,
    fun hlt hno hff => hc.fails hlt hno hff⟩⟩, fun hlt hno f hff => hc.copies hlt hno hff⟩
  · exact hc.capacity_of_completed (hex.moves hlt hno f hff).1.1 hlt hno f hff
  · obtain ⟨hret, hres⟩ := hc.stays (.inr hrm)
    exact ⟨hret, hres, hc.finds_neighbour hrm⟩

/-! ### On a page -/

/-- The page with two objects of eight bytes, without a wrap. -/
theorem reach_pair : Reach pageGeometry NoWrap (twoObjects 8 8) :=
  page_reach.alloc rfl (by decide) (by decide) (by unfold NoWrap; decide +kernel)

/-- To hold 100 bytes, the first object moves behind the second one. -/
theorem resize_exact_page : Returns pageHandle (shmResize (some pageHandle) 1 100 7 0xF)
      (twoObjects 8 8) .ok ∧
    ResizedTo pageGeometry (twoObjects 8 8) ((resizes 1 100).prog.mem (twoObjects 8 8)) 0 100
      184 := by
  obtain ⟨b, c, f, hbs, hfacts⟩ : ∃ b c f, blocks pageGeometry (twoObjects 8 8) = [b, c, f] ∧
      b.off = 0 ∧ b.total = 64 ∧ c.live = true ∧ f.off = 128 ∧ f.total = 3576 ∧
      firstFitOf [b, c, f] (blockSize 100) = some f :=
    ⟨⟨0, 64, 8, true, 1, 7, 0xF, 0⟩, ⟨64, 64, 8, true, 2, 7, 0xF, 0⟩,
      ⟨128, 3576, 3520, false, 0, 0, 0, 0⟩, by decide +kernel⟩
  obtain ⟨hoff, htotal, hc, hfoff, hftotal, hff⟩ := hfacts
  have hex := ((resize_exact reach_pair).2.2 pageHandle 1 100 0 7 0xF [] b [c, f] rfl (by decide)
    (by decide) ⟨by decide, by decide +kernel, by decide +kernel,
      fun k hk => absurd hk (Nat.not_lt_zero k)⟩ (by decide +kernel) hbs
    (by rw [hoff]; decide +kernel)).1.2 ?_
  · have hmoves := hex.moves (by rw [htotal]; decide)
      (fun hroom => Bool.noConfusion (hc.symm.trans hroom.1)) f hff
    rw [hfoff] at hmoves
    exact hmoves
  · -- first fit has far more than 100 bytes, so the block is cut down
    intro _ _ g hg
    obtain rfl := Option.some.inj (hff.symm.trans hg)
    exact .inl (by rw [hftotal]; decide)

/-- The page of `staleFront`, without a wrap. -/
theorem reach_staleFront_noWrap : Reach pageGeometry NoWrap (staleFront 3568 16) := by
  have hpair : Reach pageGeometry NoWrap (twoObjects 3568 16) :=
    (reach_first rfl (by decide) (by decide) (by decide) (by decide)).alloc rfl (by decide)
      (by decide) (by unfold NoWrap; decide +kernel)
  have hl : Legal pageGeometry (twoObjects 3568 16) (resizes 1 8) :=
    legal_resize (by decide) (by decide) (by decide +kernel)
  -- neither call moves `next_id`
  obtain ⟨bs, hI⟩ := hpair.inv
  have hcut := hpair.step (.call _ hl (noWrap_of_not_alloc hI hl nofun))
  obtain ⟨bs', hI'⟩ := hcut.inv
  exact hcut.free rfl (by decide)
    (noWrap_of_not_alloc hI' (legal_free hI' rfl (by decide) 7 0xF) nofun)

/-- **An object that is to move to a merged block is not moved.**  The free block in front of the
second object has the 3624 bytes it asks for, and on record the capacity of the eight bytes that
once were its first part; the object has a capacity of 24, and the call leaves the mapping. -/
theorem resize_exact_fails : Reach pageGeometry NoWrap (staleFront 3568 16) ∧
    Finds pageGeometry (staleFront 3568 16) 2 1 ∧
    (entryAt (staleFront 3568 16) 1).access 7 0xF SHM_PERM_RESIZE = .ok ∧
    (blkOfSlot pageGeometry (staleFront 3568 16) 1).total < blockSize 3568 ∧
    ¬ GrowsInPlace pageGeometry (staleFront 3568 16) pageHandle.size
      (blkOfSlot pageGeometry (staleFront 3568 16) 1) (blockSize 3568) ∧
    (∃ f ∈ blocks pageGeometry (staleFront 3568 16),
      f.live = false ∧ blockSize 3568 ≤ f.total) ∧
    ∀ rc, ¬ Returns pageHandle (shmResize (some pageHandle) 2 3568 7 0xF) (staleFront 3568 16)
      rc := by
  have hfacts : ((entryAt (staleFront 3568 16) 1).alive = true ∧
      (entryAt (staleFront 3568 16) 1).id = 2 ∧ (entryAt (staleFront 3568 16) 0).alive = false) ∧
      (entryAt (staleFront 3568 16) 1).access 7 0xF SHM_PERM_RESIZE = .ok ∧
      (blkOfSlot pageGeometry (staleFront 3568 16) 1).total < blockSize 3568 ∧
      ¬ GrowsInPlace pageGeometry (staleFront 3568 16) pageHandle.size
        (blkOfSlot pageGeometry (staleFront 3568 16) 1) (blockSize 3568) ∧
      (∃ f ∈ blocks pageGeometry (staleFront 3568 16),
        f.live = false ∧ blockSize 3568 ≤ f.total) ∧
      ¬ Completed 4096 ((shmResize (some pageHandle) 2 3568 7 0xF).trace (staleFront 3568 16)) := by
    decide +kernel
  obtain ⟨⟨halive, hid, hempty⟩, hacc, hlt, hno, hfree, hstop⟩ := hfacts
  refine ⟨reach_staleFront_noWrap, ⟨by decide, halive, hid, fun k hk ha => ?_⟩, hacc, hlt, hno,
    hfree, fun rc hret => hstop hret.1⟩
  obtain rfl : k = 0 := Nat.lt_one_iff.1 hk
  exact Bool.noConfusion (hempty.symm.trans ha)

end ShmAlloc
