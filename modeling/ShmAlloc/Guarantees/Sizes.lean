import ShmAlloc.Guarantees.Content

/-!
# Request sizes

The size of a block is computed modulo 2^64, in two steps: the header is added to the request, and
the sum is rounded up.  Up to requests of 2^64 - 64 bytes neither wraps, and then a successful call
leaves a block that holds header and request, and a request larger than the heap is refused.  The
code does not check; above that bound a huge request looks tiny.

## What is here

* `alloc_too_large` and `resize_too_large`: a request larger than the heap fails, and which way.
* `HoldsBytes` and `HonoursSize`: what a call does fits its size, computed without a wrap.
* `honoursSize_of_legal`: a size that does not wrap is honoured.
* `wrapped_blockSize` and `wrapped_outcome`: **what becomes of a size that wraps**: where nothing
  else stops the call, it says `ok`.
* `SizeOk`: the size does not wrap, or the call fails before it matters.
* `sizes_fit`: **a call honours its size exactly under `SizeOk`**, for every size of 64 bits, in
  every state reached by calls whose sizes did not wrap.
* `sizes_fit_fails`: a request for 2^64 - 1 bytes gets a header without payload.
-/

set_option autoImplicit false

namespace ShmAlloc

open Tiling Links

variable {G : Geometry} {m m' : Mem} {bs bs' pre post : List Blk}

/-- A block in use holds its header and what is used of it. -/
theorem Inv.used_le_total (h : Inv G m bs) {i : Nat} (hi : i < G.dirCap)
    (ha : (entryAt m i).alive = true) :
    blockHdrSize + (entryAt m i).used ≤ (blkOfSlot G m i).total := by
  obtain ⟨pre, b, post, rfl, hh⟩ := h.holds hi ha
  rw [hh.blkOfSlot h.heap.toRep (by simp), Nat.add_comm]
  exact hh.mirrors.used

/-- No block is larger than the heap. -/
theorem Inv.total_le (h : Inv G m bs) {b : Blk} (hb : b ∈ bs) : b.total ≤ G.heapSize := by
  have := h.heap.bounds hb
  omega

/-- A request the heap cannot hold fits no block. -/
theorem Inv.too_large (h : Inv G m bs) {n : Nat} (hn : G.heapSize < blockHdrSize + n) :
    ∀ b ∈ bs, b.total < blockSize n := fun b hb => by
  have h1 := h.total_le hb
  have h2 := le_blockSize n
  have h3 : G.heapSize < 56 + n := hn
  omega

/-- **`shm_alloc` of more than the heap** fails, with `ENOMEM` unless the directory is full, and
without an effect. -/
theorem alloc_too_large (h : Inv G m bs) (r : Region) {q : Request} (hq : q.size ≠ 0)
    (hq' : q.size ≤ 2 ^ 64 - 64) (hlarge : G.heapSize < blockHdrSize + q.size) :
    (shmAlloc (some r) q.size q.name q.userId q.perms q.typeTag true true).mem m = m ∧
      ((∃ j, j < G.dirCap ∧ ¬ (entryAt m j).Live) →
        (shmAlloc (some r) q.size q.name q.userId q.perms q.typeTag true true).val m
          = .enomem) := by
  have hargs : ¬ (q.size = 0 ∨ true = false ∨ true = false) := by simpa using hq
  rw [shmAlloc, if_neg hargs]
  have hmem : replay (lockEvents r ++ [.unlock]) m = m := replay_locked m
  rcases exec_allocLocked h hq hq' with ⟨hfull, hx⟩ | ⟨-, -, hx⟩ | ⟨pre, b, post, i, rfl, ht, -⟩
  · have hx := exec_locked r hx
    refine ⟨hx.mem.trans hmem, ?_⟩
    rintro ⟨j, hj, hfree⟩
    exact absurd (hfull j hj) hfree
  · have hx := exec_locked r hx
    exact ⟨hx.mem.trans hmem, fun _ => hx.val⟩
  · have := h.too_large hlarge b (by simp)
    have := ht.fits
    omega

/-- A resize to more than the heap finds no room, neither in place nor elsewhere. -/
theorem ResizeRun.too_large {sz i n : Nat} {b : Blk} {rc : Rc} {W : List Event}
    (h : Inv G m (pre ++ b :: post)) (hlarge : G.heapSize < blockHdrSize + n)
    (hrun : ResizeRun G sz pre b post i n rc W bs') : rc = .enomem ∧ W = [.unlock] := by
  have hbig := h.too_large hlarge
  have hb := hbig b (by simp)
  have hneed : G.heapSize < blockSize n := Nat.lt_of_lt_of_le hlarge (by
    rw [Nat.add_comm]
    exact le_blockSize n)
  cases hrun with
  | keep hle => omega
  | cut hrem => omega
  | grow c cs hpost hlt hcan =>
    -- the block and its neighbour are both inside the heap
    subst hpost
    have htiles := tiles_mid.1 h.heap.tiles
    have hc := tiles_cons.1 htiles.2
    have hend := hc.2.le
    have h1 : b.stop = b.off + b.total := rfl
    have h2 := hcan.2.1
    omega
  | noRoom => exact ⟨rfl, rfl⟩
  | move pre₁ f post₁ pre₂ post₂ hlt hcan hr =>
    have hf := hbig f (by rw [hr.split]; simp)
    have := hr.fits
    omega

/-- **`shm_resize` to more than the heap** fails, with `ENOMEM` if the object is found and access
granted, and without an effect. -/
theorem resize_too_large (h : Inv G m bs) {r : Region} (hsize : r.size ≤ G.size) {objId n : Nat}
    (hid : objId ≠ 0) (hn : n ≠ 0) (hn' : n ≤ 2 ^ 64 - 64) {userId callerPerms : UInt32}
    (hc : Completed r.size ((shmResize (some r) objId n userId callerPerms).trace m))
    (hlarge : G.heapSize < blockHdrSize + n) :
    (shmResize (some r) objId n userId callerPerms).mem m = m ∧
      ∀ i, Finds G m objId i → (entryAt m i).access userId callerPerms SHM_PERM_RESIZE = .ok →
        (shmResize (some r) objId n userId callerPerms).val m = .enomem := by
  have hmem : replay (lockEvents r ++ [.unlock]) m = m := replay_locked m
  rcases exec_shmResize_object h r hid hn userId callerPerms with
    ⟨rc, -, hno, hx⟩ | ⟨pre, b, post, i, rfl, hf, hh, hacc, hrun, hrest⟩
  · exact ⟨hx.mem.trans hmem, fun i hf hacc => absurd hacc (hno i hf)⟩
  · obtain ⟨rc, W, bs', hres, hx⟩ := exec_resizeObject h hh hsize hn hn'
      (resizable_of_completed h hh hsize hn hn' (hrest _ hc))
    obtain ⟨rfl, rfl⟩ := hres.too_large h hlarge
    have hx := hrun _ _ hx
    exact ⟨hx.mem.trans hmem, fun _ _ _ => hx.val⟩

/-! ## Sizes are honoured -/

/-- The size a call asks for. -/
def Call.size : Call → Nat
  | .alloc _ q _ _ => q.size
  | .resize _ _ n _ _ => n
  | _ => 0

/-- The arguments pass the first check. -/
def Call.Valid : Call → Prop
  | .alloc region q outId outOff => region ≠ none ∧ q.size ≠ 0 ∧ outId = true ∧ outOff = true
  | .free region objId _ _ => region ≠ none ∧ objId ≠ 0
  | .resize region objId n _ _ => region ≠ none ∧ objId ≠ 0 ∧ n ≠ 0
  | .setPerms region .. => region ≠ none

/-- What does not pass it does nothing. -/
theorem Call.prog_of_not_valid {c : Call} (h : ¬ c.Valid) : c.prog = pure .einval := by
  cases c with
  | alloc region q outId outOff =>
    cases region with
    | none => rfl
    | some r =>
      refine if_pos ?_
      by_contra hno
      simp only [not_or, Bool.not_eq_false] at hno
      exact h ⟨by simp, hno⟩
  | free region objId userId callerPerms =>
    cases region with
    | none => rfl
    | some r => exact if_pos (by_contra fun hno => h ⟨by simp, hno⟩)
  | resize region objId n userId callerPerms =>
    cases region with
    | none => rfl
    | some r => exact if_pos (by_contra fun hno => h ⟨by simp, not_or.1 hno⟩)
  | setPerms region off userId callerPerms newPerms =>
    cases region with
    | none => rfl
    | some r => exact absurd (by simp [Call.Valid]) h

/-- Nothing but its size can make the call fail: there is a slot for the new object, or the object
to resize is there and the caller may resize it. -/
def Call.Admitted (G : Geometry) (m : Mem) (c : Call) : Prop :=
  c.Valid ∧ match c with
    | .alloc .. => ∃ j, j < G.dirCap ∧ ¬ (entryAt m j).Live
    | .resize _ objId _ userId callerPerms => ∃ i, Finds G m objId i ∧
      (entryAt m i).access userId callerPerms SHM_PERM_RESIZE = .ok
    | _ => False

/-- Slot `i` is in use, and its block holds the header and `n` bytes. -/
structure HoldsBytes (G : Geometry) (m : Mem) (i n : Nat) : Prop where
  lt : i < G.dirCap
  alive : (entryAt m i).alive = true
  fits : blockHdrSize + n ≤ (blkOfSlot G m i).total

/-- What the call does fits its size, computed without a wrap. -/
structure HonoursSize (G : Geometry) (m : Mem) (c : Call) : Prop where
  /-- The object a successful `shm_alloc` tells of has room for what was asked. -/
  alloc : ∀ region q outId outOff, c = .alloc region q outId outOff → c.prog.val m = .ok →
    ∃ i, HoldsBytes G (c.prog.mem m) i q.size ∧
      lastOut 1 (c.prog.trace m) = some (entryAt (c.prog.mem m) i).off
  /-- So has an object after a successful `shm_resize`. -/
  resize : ∀ region objId n userId callerPerms, c = .resize region objId n userId callerPerms →
    c.prog.val m = .ok → ∃ i, Finds G m objId i ∧ HoldsBytes G (c.prog.mem m) i n
  /-- More than the heap is refused, with `ENOMEM` if nothing else is wrong, and without an
  effect. -/
  large : G.heapSize < blockHdrSize + c.size →
    c.prog.mem m = m ∧ (c.Admitted G m → c.prog.val m = .enomem)

/-- Requests for more than the heap. -/
theorem large_refused (h : Inv G m bs) {c : Call} (hl : Legal G m c)
    (hlarge : G.heapSize < blockHdrSize + c.size) :
    c.prog.mem m = m ∧ (c.Admitted G m → c.prog.val m = .enomem) := by
  by_cases hv : c.Valid
  · cases c with
    | alloc region q outId outOff =>
      obtain ⟨hr, hq, rfl, rfl⟩ := hv
      obtain ⟨r, rfl⟩ := Option.ne_none_iff_exists'.1 hr
      obtain ⟨h1, h2⟩ := alloc_too_large h r hq hl.args hlarge
      exact ⟨h1, fun hadm => h2 hadm.2⟩
    | resize region objId n userId callerPerms =>
      obtain ⟨hr, hid, hn⟩ := hv
      obtain ⟨r, rfl⟩ := Option.ne_none_iff_exists'.1 hr
      obtain ⟨h1, h2⟩ := resize_too_large h (hl.handle r rfl) hid hn hl.args (hl.completed r rfl)
        hlarge
      exact ⟨h1, fun ⟨_, i, hf, hacc⟩ => h2 i hf hacc⟩
    | free | setPerms =>
      -- nothing is asked for, and the heap holds a header
      have hG := G.heap_ge
      have hnone : G.heapSize < 56 := hlarge
      omega
  · rw [Call.prog_of_not_valid hv]
    exact ⟨Prog.mem_pure .., fun hadm => absurd hadm.1 hv⟩

/-- Every call honours a size up to 2^64 - 64. -/
theorem honoursSize_of_legal (h : Inv G m bs) {c : Call} (hl : Legal G m c) :
    HonoursSize G m c := by
  obtain ⟨rc, W, bs', hrun, hx⟩ := callRun h hl
  have hI' := hrun.inv h
  refine ⟨fun region q outId outOff hc hok => ?_,
    fun region objId n userId callerPerms hc hok => ?_, large_refused h hl⟩
  · obtain rfl : rc = .ok := hx.val.symm.trans hok
    subst hc
    obtain ⟨i, o, cap, hi, hent, -, hout⟩ := hrun.alloc_entry h
    have ha : (entryAt (replay W m) i).alive = true := by rw [hent, newEntry]
    have hused := hI'.used_le_total hi ha
    rw [hx.mem, ← lastOut_effects, hx.eff]
    rw [hent] at hused
    exact ⟨i, ⟨hi, ha, hused⟩, by rw [hout, hent, newEntry]⟩
  · obtain rfl : rc = .ok := hx.val.symm.trans hok
    subst hc
    obtain ⟨i, off, cap, hf, hent⟩ := hrun.resize_entry h
    have ha : (entryAt (replay W m) i).alive = true := by rw [hent, hf.alive]
    have hused := hI'.used_le_total hf.lt ha
    rw [hx.mem]
    rw [hent] at hused
    exact ⟨i, hf, hf.lt, ha, hused⟩

/-! ## Sizes that wrap

The block asked for then has at most 56 bytes, and every block has 64. -/

/-- Above 2^64 - 64 the block asked for is smaller than any block. -/
theorem wrapped_blockSize {n : Nat} (hn : 2 ^ 64 - 64 < n) (hn' : n < 2 ^ 64) :
    shmAlignUp (add64 blockHdrSize n) HEAP_ALIGN ≤ 56 := by
  by_cases hsum : 56 + n < 2 ^ 64
  · -- the rounding wraps
    have h1 : add64 blockHdrSize n = 56 + n := add64_eq hsum
    have h2 : sub64 (add64 (56 + n) 8) 1 ≤ 56 := by
      rw [add64, sub64]
      omega
    rw [h1, shmAlignUp]
    exact Nat.le_trans Nat.and_le_left h2
  · -- the sum wraps
    have h1 : add64 blockHdrSize n = 56 + n - 2 ^ 64 := by
      rw [add64]
      show (56 + n) % 2 ^ 64 = _
      omega
    rw [h1, shmAlignUp_eight (by omega)]
    omega

/-- For a size smaller than any block, first fit takes the first free block, if there is one. -/
theorem val_heapAllocBlock (h : Inv G m bs) {need : Nat} (hneed : need ≤ 64) :
    m.load 88 8 = 0 ∧ Exec G.size (heapAllocBlock need) m none [] ∨
      m.load 88 8 ≠ 0 ∧ ∃ p, (heapAllocBlock need).val m = some p := by
  have hR := h.heap.toRep
  have hD := G.base_ge
  have hsz := G.size_eq
  obtain ⟨k, hk⟩ : ∃ k, walkFuel = k + 1 :=
    ⟨walkFuel - 1, by have := hR.freeOffs_length; omega⟩
  have hlist : Exec G.size (Prog.get shmRh RegionHdr.freeList) m (m.load 88 8) [] :=
    .load rfl (show 0 + 88 + 8 ≤ G.size by omega)
  rw [heapAllocBlock, hk]
  by_cases hhead : m.load 88 8 = 0
  · refine .inl ⟨hhead, hlist.bind_nil ?_⟩
    rw [firstFit, if_pos hhead]
    exact .pure _
  · -- the head of the list is a free block, and large enough
    refine .inr ⟨hhead, ?_⟩
    have hfirst : m.load 88 8 = firstLink (freeOffs bs) := hR.head_eq
    cases hf : freeOffs bs with
    | nil => exact absurd (by rw [hfirst, hf, firstLink_nil]) hhead
    | cons o os =>
      obtain ⟨b, hb, -, rfl⟩ := mem_freeOffs.1 (hf ▸ List.mem_cons_self : o ∈ freeOffs bs)
      have hbb := hR.bounds hb
      have hmin := (hR.wf b hb).min
      have htotal : Exec G.size (Prog.get (G.base + b.off) BlockHdr.totalSize) m b.total [] :=
        .load (hR.blk b hb).total (show G.base + b.off + 40 + 8 ≤ G.size by omega)
      rw [hf, firstLink_cons] at hfirst
      refine ⟨G.base + b.off, ?_⟩
      rw [hlist.val_bind_nil, firstFit, if_neg hhead, hfirst,
        (exec_blkOfLink h.layout (by omega)).val_bind_nil, htotal.val_bind_nil,
        if_pos (by omega)]
      rfl

/-- No free block for the call. -/
def Call.FindsNoBlock (m : Mem) : Call → Prop
  | .alloc .. => m.load 88 8 = 0
  | _ => False

/-- `shm_alloc` of a size that wraps. -/
theorem alloc_wrapped (h : Inv G m bs) (r : Region) {q : Request} (hn : 2 ^ 64 - 64 < q.size)
    (hn' : q.size < 2 ^ 64) :
    (((∃ j, j < G.dirCap ∧ ¬ (entryAt m j).Live) ∧ m.load 88 8 ≠ 0) ∧
        (shmAlloc (some r) q.size q.name q.userId q.perms q.typeTag true true).val m = .ok) ∨
      ∃ rc, rc ≠ .ok ∧
        ((∃ j, j < G.dirCap ∧ ¬ (entryAt m j).Live) → m.load 88 8 = 0 ∧ rc = .enomem) ∧
        Exec G.size (shmAlloc (some r) q.size q.name q.userId q.perms q.typeTag true true) m rc
          (lockEvents r ++ [.unlock]) := by
  have hargs : ¬ (q.size = 0 ∨ true = false ∨ true = false) := by
    simp only [Bool.true_eq_false, or_false]
    omega
  have hneed := wrapped_blockSize hn hn'
  rw [shmAlloc, if_neg hargs]
  rcases exec_dirFindFreeSlot h.layout with ⟨hfull, hx⟩ | ⟨j, hj, hfree, -, hx⟩
  · refine .inr ⟨.enospc, by decide, ?_, exec_locked r (hx.bind_nil (exec_unlockReturn _))⟩
    rintro ⟨j, hj, hfree⟩
    exact absurd (hfull j hj) hfree
  · rcases val_heapAllocBlock h (Nat.le_trans hneed (by decide)) with
      ⟨hnil, hx'⟩ | ⟨hne, p, hp⟩
    · refine .inr ⟨.enomem, by decide, fun _ => ⟨hnil, rfl⟩, ?_⟩
      exact exec_locked r (hx.bind_nil (hx'.bind_nil (exec_unlockReturn _)))
    · refine .inl ⟨⟨⟨j, hj, hfree⟩, hne⟩, ?_⟩
      rw [(exec_regionLock G.size r m).val_bind, replay_lockEvents, allocLocked, hx.val_bind_nil]
      show (heapAllocBlock _ >>= _).val m = _
      rw [Prog.val_bind, hp]
      rfl

/-- `shm_resize` to a size that wraps. -/
theorem resize_wrapped (h : Inv G m bs) (r : Region) {objId n : Nat} (hid : objId ≠ 0)
    (hn : 2 ^ 64 - 64 < n) (hn' : n < 2 ^ 64) (userId callerPerms : UInt32) :
    ((∃ i, Finds G m objId i ∧ (entryAt m i).access userId callerPerms SHM_PERM_RESIZE = .ok) ∧
        (shmResize (some r) objId n userId callerPerms).val m = .ok) ∨
      (¬ ∃ i, Finds G m objId i ∧
        (entryAt m i).access userId callerPerms SHM_PERM_RESIZE = .ok) ∧
        ∃ rc, rc ≠ .ok ∧ Exec G.size (shmResize (some r) objId n userId callerPerms) m rc
          (lockEvents r ++ [.unlock]) := by
  have hn0 : n ≠ 0 := by omega
  have hsz := G.size_eq
  rcases exec_shmResize_object h r hid hn0 userId callerPerms with
    ⟨rc, hrc, hno, hx⟩ | ⟨pre, b, post, i, rfl, hf, hh, hacc, -, -⟩
  · exact .inr ⟨fun ⟨i, hf, hacc⟩ => hno i hf hacc, rc, hrc, hx⟩
  · refine .inl ⟨⟨i, hf, hacc⟩, ?_⟩
    have hbm : b ∈ pre ++ b :: post := by simp
    have hbb := h.heap.bounds hbm
    have hmin := (h.heap.wf b hbm).min
    have hneed := wrapped_blockSize hn hn'
    have hoff : Exec G.size (Prog.get (slotAddr i) ObjEntry.off) m (b.off + 56) [] :=
      .load hh.mirrors.off (slot_field_le hf.lt (show 56 + 8 ≤ 96 by decide))
    have htotal : Exec G.size (Prog.get (G.base + b.off) BlockHdr.totalSize) m b.total [] :=
      .load (h.heap.blk b hbm).total (show G.base + b.off + 40 + 8 ≤ G.size by omega)
    rw [shmResize, if_neg (by simp [hid, hn0]), (exec_regionLock G.size r m).val_bind,
      replay_lockEvents, val_withEntry h.layout hf hacc, resizeObject, hoff.val_bind_nil,
      (exec_blkOfPoff h.layout (o := b.off) (by omega)).val_bind_nil, htotal.val_bind_nil,
      if_pos (by omega)]
    rfl

/-- **What becomes of a size that wraps**: where nothing else stops the call, it says `ok`. -/
theorem wrapped_outcome (h : Inv G m bs) {c : Call} (hn : 2 ^ 64 - 64 < c.size)
    (hn' : c.size < 2 ^ 64) :
    (c.Admitted G m ∧ ¬ c.FindsNoBlock m ∧ c.prog.val m = .ok) ∨
      (c.Admitted G m → c.FindsNoBlock m ∧ c.prog.val m = .enomem) ∧ c.prog.val m ≠ .ok ∧
        c.prog.mem m = m := by
  have hmem : ∀ r, replay (lockEvents r ++ [.unlock]) m = m := fun r => replay_locked m
  by_cases hv : c.Valid
  · cases c with
    | alloc region q outId outOff =>
      obtain ⟨hr, hq, rfl, rfl⟩ := hv
      obtain ⟨r, rfl⟩ := Option.ne_none_iff_exists'.1 hr
      rcases alloc_wrapped h r hn hn' with ⟨⟨hfree, hne⟩, hok⟩ | ⟨rc, hrc, hno, hx⟩
      · exact .inl ⟨⟨⟨hr, hq, rfl, rfl⟩, hfree⟩, hne, hok⟩
      · exact .inr ⟨fun hadm => ⟨(hno hadm.2).1, hx.val.trans (hno hadm.2).2⟩,
          hx.val.trans_ne hrc, hx.mem.trans (hmem r)⟩
    | resize region objId n userId callerPerms =>
      obtain ⟨hr, hid, hn0⟩ := hv
      obtain ⟨r, rfl⟩ := Option.ne_none_iff_exists'.1 hr
      rcases resize_wrapped h r hid hn hn' userId callerPerms with
        ⟨hfound, hok⟩ | ⟨hno, rc, hrc, hx⟩
      · exact .inl ⟨⟨⟨hr, hid, hn0⟩, hfound⟩, id, hok⟩
      · exact .inr ⟨fun hadm => absurd hadm.2 hno, hx.val.trans_ne hrc, hx.mem.trans (hmem r)⟩
    | free | setPerms => exact absurd hn (Nat.not_lt_zero _)
  · rw [Call.prog_of_not_valid hv]
    exact .inr ⟨fun hadm => absurd hadm.1 hv, by rw [Prog.val_pure]; decide, Prog.mem_pure ..⟩

/-- The size does not wrap, or the call fails before it matters. -/
def SizeOk (G : Geometry) (m : Mem) (c : Call) : Prop :=
  c.size ≤ 2 ^ 64 - 64 ∨ ¬ c.Admitted G m ∨ c.FindsNoBlock m

/-- **Request sizes are honoured exactly up to 2^64 - 64.**  In every state reached by calls with
sizes up to there, a call honours the size it is given if and only if that is not larger, or the
call fails before it looks at a block. -/
theorem sizes_fit (h : Reach G AnyCall m) {c : Call} (hsize : c.size < 2 ^ 64)
    (hl : c.size ≤ 2 ^ 64 - 64 → Legal G m c) : HonoursSize G m c ↔ SizeOk G m c := by
  obtain ⟨bs, hI⟩ := h.inv
  by_cases hn : c.size ≤ 2 ^ 64 - 64
  · exact ⟨fun _ => .inl hn, fun _ => honoursSize_of_legal hI (hl hn)⟩
  · have hlarge : G.heapSize < blockHdrSize + c.size := by
      have h1 := G.size_lt
      have h2 := G.size_eq
      have h3 := G.base_ge
      omega
    rcases wrapped_outcome hI (Nat.lt_of_not_le hn) hsize with ⟨hadm, hblk, hok⟩ | ⟨hno, hne, hmem⟩
    · refine ⟨fun hh => ?_, fun hs => ?_⟩
      · have hrc := (hh.large hlarge).2 hadm
        rw [hok] at hrc
        cases hrc
      · rcases hs with hs | hs | hs
        · exact absurd hs hn
        · exact absurd hadm hs
        · exact absurd hs hblk
    · refine ⟨fun _ => ?_, fun _ => ⟨fun _ _ _ _ _ hok => absurd hok hne,
        fun _ _ _ _ _ _ hok => absurd hok hne, fun _ => ⟨hmem, fun hadm => (hno hadm).2⟩⟩⟩
      by_cases hadm : c.Admitted G m
      · exact .inr (.inr (hno hadm).1)
      · exact .inr (.inl hadm)

/-- The second object of the page, of sixteen bytes, has room for them. -/
theorem sizes_fit_page : ∃ i, HoldsBytes pageGeometry
    ((asks 16).prog.mem (firstMem pageGeometry pageHandle eightBytes)) i 16 := by
  obtain ⟨bs, hI⟩ := page_reach.inv
  have hl : Legal pageGeometry (firstMem pageGeometry pageHandle eightBytes) (asks 16) :=
    legal_alloc hI rfl (by decide) (by decide)
  have hh := (sizes_fit (page_reach.mono fun _ _ _ => trivial) (by decide) fun _ => hl).2
    (.inl (by decide))
  obtain ⟨i, hi, -⟩ := hh.alloc _ _ _ _ rfl (by decide +kernel)
  exact ⟨i, hi⟩

/-- **Above 2^64 - 64 the size wraps**: the first `shm_alloc` of a page gives out a header without
payload for 2^64 - 1 bytes, and a `shm_resize` to that size says `ok` and leaves a block of 64
bytes. -/
theorem sizes_fit_fails :
    (Completed 4096 ((asks (2 ^ 64 - 1)).prog.trace (freshMem pageGeometry)) ∧
      (asks (2 ^ 64 - 1)).prog.val (freshMem pageGeometry) = .ok ∧
      (entryAt ((asks (2 ^ 64 - 1)).prog.mem (freshMem pageGeometry)) 0).alive = true ∧
      (blkOfSlot pageGeometry ((asks (2 ^ 64 - 1)).prog.mem (freshMem pageGeometry)) 0).total
        = 56) ∧
    Completed 4096 ((resizes 1 (2 ^ 64 - 1)).prog.trace ((asks 8).prog.mem
        (freshMem pageGeometry))) ∧
      (resizes 1 (2 ^ 64 - 1)).prog.val ((asks 8).prog.mem (freshMem pageGeometry)) = .ok ∧
      (blkOfSlot pageGeometry ((resizes 1 (2 ^ 64 - 1)).prog.mem ((asks 8).prog.mem
        (freshMem pageGeometry))) 0).total = 64 := by
  decide +kernel

end ShmAlloc
