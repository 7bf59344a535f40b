import ShmAlloc.Lib.Crash
import ShmAlloc.Region.Relocate

/-!
# What a resize can do

The five ways a resize can go once access is granted, with the effects of each and the heap it
leaves, and the proof that there are no others.

One of the branches needs care.  Relocation clears what lies behind the copied payload, and the
number of bytes to clear is a difference of capacities that can be negative.  The code then clears
almost the whole address space, so such a call never returns, and a resize that did return did not
take it.

## What is here

* `ResizeRun`: **how a resize can go**, one constructor for each way: the block is kept, its tail is
  cut off, it grows into its neighbour, there is no room, or the object moves.
* `exec_resizeObject`: **a resize goes one of these ways**, if it is `Resizable`.
* `resizable_of_completed`: a resize that returned was.  The other case is `Overruns`, and
  `trace_growByMoving_short` is its trace.
* `ResizeRun.inv`, `ResizeRun.fullInv` and `ResizeRun.writes`: what all five have in common.
* `exec_shmResize`: the whole call, from the lock to the answer.
* `stopped_resizeObject`: **what a resize has done when it is stopped**, overrunning ones included.
-/

set_option autoImplicit false

namespace ShmAlloc

open Tiling Links

variable {G : Geometry} {m m' : Mem} {bs pre post : List Blk}

/-- **How a resize of the block `b` of slot `i` to `n` bytes can go**: its return code, its effects
under the lock, and the heap it leaves. -/
inductive ResizeRun (G : Geometry) (sz : Nat) (pre : List Blk) (b : Blk) (post : List Blk)
    (i n : Nat) : Rc → List Event → List Blk → Prop
  /-- The block is large enough, and what could be cut off is too small to be a block. -/
  | keep (hle : blockSize n ≤ b.total) (hrem : ¬ 64 ≤ b.total - blockSize n) :
    ResizeRun G sz pre b post i n .ok (inPlaceEvents i b.cap n) (pre ++ b :: post)
  /-- The block is shrunk and its tail freed. -/
  | cut (hrem : blockSize n + 64 ≤ b.total) :
    ResizeRun G sz pre b post i n .ok
      (cutTailEvents G pre b post (blockSize n) (liveBytes (pre ++ b :: post)) ++
        inPlaceEvents i (b.resized (blockSize n)).cap n)
      (pre ++ b.resized (blockSize n) :: absorbNext (b.tail (blockSize n)) post)
  /-- The block grows into its free neighbour. -/
  | grow (c : Blk) (cs : List Blk) (hpost : post = c :: cs) (hlt : b.total < blockSize n)
    (hcan : CanGrow G sz b (blockSize n) post) :
    ResizeRun G sz pre b post i n .ok
      (growEvents G pre b c cs (blockSize n) (liveBytes (pre ++ b :: post)) ++
        inPlaceEvents i (grownBlk b c (blockSize n)).cap n)
      (pre ++ grownBlk b c (blockSize n) :: grownRest b c (blockSize n) cs)
  /-- The block cannot grow, and no free block is large enough. -/
  | noRoom (hlt : b.total < blockSize n) (hcan : ¬ CanGrow G sz b (blockSize n) post)
    (hfull : ∀ c ∈ pre ++ b :: post, c.live = false → c.total < blockSize n) :
    ResizeRun G sz pre b post i n .enomem [.unlock] (pre ++ b :: post)
  /-- The object moves to a new block. -/
  | move (pre₁ : List Blk) (f : Blk) (post₁ pre₂ post₂ : List Blk)
    (hlt : b.total < blockSize n) (hcan : ¬ CanGrow G sz b (blockSize n) post)
    (hr : Relocates (pre ++ b :: post) b (blockSize n) pre₁ f post₁ pre₂ post₂) :
    ResizeRun G sz pre b post i n .ok
      (movingEvents G (pre ++ b :: post) pre₁ f post₁ pre₂ post₂ b i (blockSize n) n)
      (insertFree pre₂ b.freed post₂)

section

variable {b : Blk} {i n : Nat}

/-- Wherever first fit finds `t` bytes, the block taken has the capacity to hold the payload of
`b`. -/
def Movable (bs : List Blk) (b : Blk) (t : Nat) : Prop :=
  ∀ pre f post, bs = pre ++ f :: post → f.live = false → t ≤ f.total →
    (∀ c ∈ pre, c.live = false → c.total < t) → b.cap ≤ (taken f t).cap

/-- What the code relies on to resize `b` to `n` bytes: the handle maps the directory, and the
object can be moved if it has to be. -/
structure Resizable (G : Geometry) (sz : Nat) (pre : List Blk) (b : Blk) (post : List Blk)
    (n : Nat) : Prop where
  base_le : G.base ≤ sz
  movable : b.total < blockSize n → ¬ CanGrow G sz b (blockSize n) post →
    Movable (pre ++ b :: post) b (blockSize n)

/-- The object of `b` cannot be moved to `t` bytes taken from `f`, the first free block that fits:
the capacity is too small. -/
structure Overruns (bs : List Blk) (b : Blk) (t : Nat) (pre : List Blk) (f : Blk)
    (post : List Blk) : Prop where
  split : bs = pre ++ f :: post
  free : f.live = false
  fits : t ≤ f.total
  first : ∀ c ∈ pre, c.live = false → c.total < t
  short : ¬ b.cap ≤ (taken f t).cap

/-- **Where a relocation goes wrong that lacks the capacity**: behind the copy, where it clears more
than is mapped. -/
theorem trace_growByMoving_short (h : Inv G m (pre ++ b :: post)) (hh : Holds G m i b) (hn : n ≠ 0)
    (hlt : b.total < blockSize n) (hmov : ¬ Movable (pre ++ b :: post) b (blockSize n)) :
    ∃ pre₁ f post₁ T e, Overruns (pre ++ b :: post) b (blockSize n) pre₁ f post₁ ∧
      effects T = takeEvents G pre₁ f post₁ (blockSize n) (liveBytes (pre ++ b :: post))
        (liveBlks (pre ++ b :: post)).length ++
          [.copy (G.base + f.off + 56) (G.base + b.off + 56) b.cap] ∧
      T ++ [e] <+: (growByMoving (slotAddr i) (G.base + b.off) (blockSize n) n).trace m ∧
      ∀ size, size ≤ G.size → ¬ e.Within size := by
  have hbm : b ∈ pre ++ b :: post := by simp
  have ht := blockSize_ge hn
  have ht8 := blockSize_mod n
  have hbb := h.heap.bounds hbm
  have hwf := (h.heap.wf b hbm).cap_le
  have hszlt := G.size_lt
  have hsz := G.size_eq
  rcases exec_heapAllocBlock h.layout h.heap.toRep ht ht8 h.used h.count h.heap.room
    h.heap.count_lt with ⟨hfull, -⟩ | ⟨pre₁, f, post₁, hsplit, hf, hfit, hfirst, hx⟩
  · refine absurd (fun pre₁ f post₁ hsplit hf hfit _ => ?_) hmov
    have := hfull f (by rw [hsplit]; simp) hf
    omega
  · have hcap : ¬ b.cap ≤ (taken f (blockSize n)).cap := fun hcap =>
      hmov fun pre₂ g post₂ hsplit' hg hgfit hgfirst => by
        obtain ⟨rfl, rfl, rfl⟩ := firstFit_unique hsplit hsplit' hf hg hfit hgfit hfirst hgfirst
        exact hcap
    have hfm : f ∈ pre ++ b :: post := by
      rw [hsplit]
      simp
    have hfb := h.heap.bounds hfm
    have htd := detached_total_le hfit
    have htg := detached_total_ge hfit
    have hoff : (taken f (blockSize n)).off = f.off := taken_off f _
    have htk := (hsplit ▸ h.heap).take (liveBytes (pre ++ b :: post))
      (liveBlks (pre ++ b :: post)).length hf ht ht8 hfit
    obtain ⟨T, hT, htr⟩ := trace_copyPayload_short (c := taken f (blockSize n))
      (htk.blk b (mem_takeFree hf (hsplit ▸ hbm) hh.live)) (htk.blk _ (by simp [takeFree]))
      (by omega) (by rw [hoff, taken_total]; omega) (by rw [taken_total]; omega) hcap
    rw [hoff] at hT htr
    refine ⟨pre₁, f, post₁, (heapAllocBlock (blockSize n)).trace m ++ T,
      .fill (G.base + f.off + 56 + b.cap) ((taken f (blockSize n)).cap + 2 ^ 64 - b.cap) 0,
      ⟨hsplit, hf, hfit, hfirst, hcap⟩, ?_, ?_, fun size hsize hw => ?_⟩
    · rw [effects_append, hx.eff, hT]
    · rw [growByMoving, hx.trace_bind, List.append_assoc, List.prefix_append_right_inj, ← htr]
      show _ <+: (relocateTo (slotAddr i) (G.base + b.off) (G.base + f.off) >>= _).trace _
      rw [Prog.trace_bind, relocateTo, Prog.trace_bind, List.append_assoc]
      exact List.prefix_append ..
    · simp only [Event.Within] at hw
      omega

/-- A relocation that completed had the capacity it needed. -/
theorem movable_of_completed (h : Inv G m (pre ++ b :: post)) (hh : Holds G m i b) {size : Nat}
    (hsize : size ≤ G.size) (hn : n ≠ 0) (hlt : b.total < blockSize n)
    (hc : Completed size
      ((growByMoving (slotAddr i) (G.base + b.off) (blockSize n) n).trace m)) :
    Movable (pre ++ b :: post) b (blockSize n) := by
  refine Classical.byContradiction fun hmov => ?_
  obtain ⟨-, -, -, T, e, -, -, htr, he⟩ := trace_growByMoving_short h hh hn hlt hmov
  exact he size hsize (hc e (htr.subset (by simp)))

/-- A relocation that is stopped and lacks the capacity is stopped before it clears anything. -/
theorem stopped_growByMoving (h : Inv G m (pre ++ b :: post)) (hh : Holds G m i b) {size : Nat}
    (hsize : size ≤ G.size) (hn : n ≠ 0) (hlt : b.total < blockSize n)
    (hmov : ¬ Movable (pre ++ b :: post) b (blockSize n)) {V : List Event}
    (hV : V <+: (growByMoving (slotAddr i) (G.base + b.off) (blockSize n) n).trace m)
    (hc : Completed size V) :
    ∃ pre₁ f post₁, Overruns (pre ++ b :: post) b (blockSize n) pre₁ f post₁ ∧
      effects V <+: takeEvents G pre₁ f post₁ (blockSize n) (liveBytes (pre ++ b :: post))
        (liveBlks (pre ++ b :: post)).length ++
          [.copy (G.base + f.off + 56) (G.base + b.off + 56) b.cap] := by
  obtain ⟨pre₁, f, post₁, T, e, ho, hT, htr, he⟩ := trace_growByMoving_short h hh hn hlt hmov
  have hout : e ∉ V := fun heV => he size hsize (hc e heV)
  refine ⟨pre₁, f, post₁, ho, hT ▸ effects_prefix ?_⟩
  rcases List.prefix_or_prefix_of_prefix hV htr with hV | hV
  · rcases List.prefix_concat_iff.1 hV with rfl | hV
    · exact absurd (by simp) hout
    · exact hV
  · exact absurd (hV.subset (by simp)) hout

/-- The relocating part of the grow path. -/
theorem exec_growByMoving (h : Inv G m (pre ++ b :: post)) (hh : Holds G m i b) {size : Nat}
    (hn : n ≠ 0) (hlt : b.total < blockSize n) (hcan : ¬ CanGrow G size b (blockSize n) post)
    (hmov : Movable (pre ++ b :: post) b (blockSize n)) :
    ∃ rc W bs', ResizeRun G size pre b post i n rc W bs' ∧
      Exec G.size (growByMoving (slotAddr i) (G.base + b.off) (blockSize n) n) m rc W := by
  have hbm : b ∈ pre ++ b :: post := by simp
  have ht := blockSize_ge hn
  have ht8 := blockSize_mod n
  rcases exec_heapAllocBlock h.layout h.heap.toRep ht ht8 h.used h.count h.heap.room
    h.heap.count_lt with ⟨hfull, hx⟩ | ⟨pre₁, f, post₁, hsplit, hf, hfit, hfirst, hx⟩
  · exact ⟨_, _, _, .noRoom hlt hcan hfull, hx.bind_nil (exec_unlockReturn _)⟩
  · have hcap := hmov pre₁ f post₁ hsplit hf hfit hfirst
    obtain ⟨pre₂, post₂, hr⟩ := relocates (t := blockSize n) hf (hsplit ▸ hbm) hh.live hfit hfirst
      hcap
    rw [← hsplit] at hr
    refine ⟨_, _, _, .move pre₁ f post₁ pre₂ post₂ hlt hcan hr, ?_⟩
    refine Exec.congr (hx.bind (Exec.seq (exec_relocateTo h hr hbm hh ht ht8)
      (exec_finishResize i n))) ?_
    simp only [movingEvents, relocateEvents, List.append_assoc]

/-- The start of `resizeObject`, up to the comparison of the sizes. -/
theorem exec_resizeStart (h : Inv G m (pre ++ b :: post)) (hh : Holds G m i b) (r : Region)
    {t : Nat} (ht : shmAlignUp (add64 blockHdrSize n) HEAP_ALIGN = t) :
    (∀ rc W, Exec G.size (if t ≤ b.total then do
          shrinkBlock (G.base + b.off) t b.total
          finishInPlace (slotAddr i) (G.base + b.off) n
        else do
          let grew ← growInPlace r (G.base + b.off) t
          if grew then finishInPlace (slotAddr i) (G.base + b.off) n
          else growByMoving (slotAddr i) (G.base + b.off) t n) m rc W →
        Exec G.size (resizeObject r n (slotAddr i)) m rc W) ∧
      ∃ V, .load (G.base + b.off + 40) 8 ∈ V ∧ effects V = [] ∧
        (resizeObject r n (slotAddr i)).trace m = V ++ (if t ≤ b.total then do
          shrinkBlock (G.base + b.off) t b.total
          finishInPlace (slotAddr i) (G.base + b.off) n
        else do
          let grew ← growInPlace r (G.base + b.off) t
          if grew then finishInPlace (slotAddr i) (G.base + b.off) n
          else growByMoving (slotAddr i) (G.base + b.off) t n : Prog Rc).trace m := by
  subst ht
  have hbm : b ∈ pre ++ b :: post := by simp
  have hbb := h.heap.bounds hbm
  have hB := h.heap.blk b hbm
  have hsz := G.size_eq
  have e1 : Exec G.size (Prog.get (slotAddr i) ObjEntry.off) m (b.off + 56) [] :=
    .load hh.mirrors.off (slot_field_le hh.lt (show 56 + 8 ≤ 96 by decide))
  have e2 := exec_blkOfPoff h.layout (o := b.off) (by omega)
  have e3 : Exec G.size (Prog.get (G.base + b.off) BlockHdr.totalSize) m b.total [] :=
    .load hB.total (show G.base + b.off + 40 + 8 ≤ G.size by omega)
  refine ⟨fun rc W hx => e1.bind_nil (e2.bind_nil (e3.bind_nil hx)),
    (Prog.get (slotAddr i) ObjEntry.off).trace m ++ ((shmBlkOfPoff (b.off + 56)).trace m ++
      (Prog.get (G.base + b.off) BlockHdr.totalSize).trace m), ?_, ?_, ?_⟩
  · exact List.mem_append_right _ (List.mem_append_right _ (by simp [Prog.get]))
  · rw [effects_append, effects_append, e1.eff, e2.eff, e3.eff]
    rfl
  · rw [resizeObject, e1.trace_bind_nil, e2.trace_bind_nil, e3.trace_bind_nil]
    simp only [List.append_assoc]

/-- **A completed resize was possible.** -/
theorem resizable_of_completed (h : Inv G m (pre ++ b :: post)) (hh : Holds G m i b) {r : Region}
    (hsize : r.size ≤ G.size) (hn : n ≠ 0) (hn' : n ≤ 2 ^ 64 - 64)
    (hc : Completed r.size ((resizeObject r n (slotAddr i)).trace m)) :
    Resizable G r.size pre b post n := by
  obtain ⟨V, hV, -, htr⟩ := (exec_resizeStart h hh r (blockSize_eq hn')).2
  rw [htr] at hc
  have hload : G.base + b.off + 40 + 8 ≤ r.size := hc _ (List.mem_append_left _ hV)
  have hc1 := fun e he => hc e (List.mem_append_right V he)
  have hbase : G.base ≤ r.size := by omega
  refine ⟨hbase, fun hlt hcan => ?_⟩
  rw [if_neg (by omega)] at hc1
  rcases exec_growInPlace h.layout h.heap.toRep hh.live (blockSize_ge hn) (blockSize_mod n) (r := r)
    hbase hsize h.used (total_le_liveBytes (by simp) hh.live)
    fun c hc' => h.heap.room c (by simp [hc']) with ⟨c, cs, rfl, hcan', -⟩ | ⟨-, hx⟩
  · exact absurd hcan' hcan
  · have hc2 := hx.completed_rest_nil hc1
    rw [if_neg Bool.false_ne_true] at hc2
    exact movable_of_completed h hh hsize hn hlt hc2

/-- **A resize goes one of five ways.** -/
theorem exec_resizeObject (h : Inv G m (pre ++ b :: post)) (hh : Holds G m i b) {r : Region}
    (hsize : r.size ≤ G.size) (hn : n ≠ 0) (hn' : n ≤ 2 ^ 64 - 64)
    (hres : Resizable G r.size pre b post n) :
    ∃ rc W bs', ResizeRun G r.size pre b post i n rc W bs' ∧
      Exec G.size (resizeObject r n (slotAddr i)) m rc W := by
  have hbm : b ∈ pre ++ b :: post := by simp
  have ht := blockSize_ge hn
  have ht8 := blockSize_mod n
  have hbb := h.heap.bounds hbm
  have hB := h.heap.blk b hbm
  have hrep := Listed.around h.heap.toRep hh.live
  have htot := total_le_liveBytes hbm hh.live
  have hrun := (exec_resizeStart h hh r (blockSize_eq hn')).1
  by_cases hle : blockSize n ≤ b.total
  · have hsh := exec_shrinkBlock h.layout hrep hh.live ht ht8 hle h.used htot
    by_cases hrem : 64 ≤ b.total - blockSize n
    · rw [if_pos hrem] at hsh
      have hp := InPlace.cutTail h hh.live ht ht8 (show blockSize n + 64 ≤ b.total by omega)
      refine ⟨_, _, _, .cut (by omega), hrun _ _ ?_⟩
      rw [if_pos hle]
      exact hsh.seq (exec_finishInPlace (b := b.resized (blockSize n))
        (hp.heap.blk _ (by simp)) (show b.off + 56 ≤ G.heapSize by omega) n)
    · rw [if_neg hrem] at hsh
      refine ⟨_, _, _, .keep hle hrem, hrun _ _ ?_⟩
      rw [if_pos hle]
      exact hsh.seq (exec_finishInPlace hB (by omega) n)
  · rcases exec_growInPlace h.layout h.heap.toRep hh.live ht ht8 (r := r) hres.base_le hsize h.used
      htot fun c hc' => h.heap.room c (by simp [hc']) with
      ⟨c, cs, rfl, hcan, hx⟩ | ⟨hcan, hx⟩
    · have hp := InPlace.grow h hh.live hcan.1 ht ht8 hcan.2.1
      have hoff := hp.off
      refine ⟨_, _, _, .grow c cs rfl (by omega) hcan, hrun _ _ ?_⟩
      rw [if_neg hle]
      refine hx.bind ?_
      rw [if_pos rfl, ← hoff]
      exact exec_finishInPlace (hp.heap.blk _ (by simp)) (by omega) n
    · obtain ⟨rc, W, bs', hrun', hx'⟩ :=
        exec_growByMoving h hh hn (by omega) hcan (hres.movable (by omega) hcan)
      refine ⟨rc, W, bs', hrun', hrun _ _ ?_⟩
      rw [if_neg hle]
      refine hx.bind_nil ?_
      rw [if_neg Bool.false_ne_true]
      exact hx'

namespace ResizeRun

variable {sz : Nat} {rc : Rc} {W : List Event} {bs' : List Blk}

/-- The in-place branches as in-place edits. -/
theorem inPlace_of_ok (h : Inv G m (pre ++ b :: post)) (hl : b.live = true) (hn : n ≠ 0)
    (hrun : ResizeRun G sz pre b post i n rc W bs') :
    (rc ≠ .ok ∧ W = [.unlock] ∧ bs' = pre ++ b :: post) ∨
      (∃ V b' post', W = V ++ inPlaceEvents i b'.cap n ∧ bs' = pre ++ b' :: post' ∧ rc = .ok ∧
        InPlace G m pre b post V b' post' ∧ blockSize n ≤ b'.total) ∨
      ∃ pre₁ f post₁ pre₂ post₂, rc = .ok ∧
        Relocates (pre ++ b :: post) b (blockSize n) pre₁ f post₁ pre₂ post₂ ∧
        W = movingEvents G (pre ++ b :: post) pre₁ f post₁ pre₂ post₂ b i (blockSize n) n ∧
        bs' = insertFree pre₂ b.freed post₂ := by
  have ht := blockSize_ge hn
  have ht8 := blockSize_mod n
  cases hrun with
  | keep hle hrem => exact .inr (.inl ⟨[], b, post, rfl, rfl, rfl, InPlace.refl h hl, hle⟩)
  | cut hrem =>
    exact .inr (.inl ⟨_, _, _, rfl, rfl, rfl, InPlace.cutTail h hl ht ht8 hrem, Nat.le_refl _⟩)
  | grow c cs hpost hlt hcan =>
    subst hpost
    exact .inr (.inl ⟨_, _, _, rfl, rfl, rfl, InPlace.grow h hl hcan.1 ht ht8 hcan.2.1,
      le_grownBlk_total hcan.2.1⟩)
  | noRoom hlt hcan hfull => exact .inl ⟨by decide, rfl, rfl⟩
  | move pre₁ f post₁ pre₂ post₂ hlt hcan hr =>
    exact .inr (.inr ⟨pre₁, f, post₁, pre₂, post₂, rfl, hr, rfl, rfl⟩)

/-- **Every resize keeps the region invariant.** -/
theorem inv (h : Inv G m (pre ++ b :: post)) (hh : Holds G m i b) (hn : n ≠ 0)
    (hn' : n ≤ 2 ^ 64 - 64) (hrun : ResizeRun G sz pre b post i n rc W bs') :
    Inv G (replay W m) bs' := by
  have hle := le_blockSize n
  rcases hrun.inPlace_of_ok h hh.live hn with ⟨-, rfl, rfl⟩ |
    ⟨V, b', post', rfl, rfl, -, hp, ht⟩ | ⟨pre₁, f, post₁, pre₂, post₂, -, hr, rfl, rfl⟩
  · exact h
  · exact h.inPlace hh hp (by omega)
  · exact h.relocate hr (by simp) hh (blockSize_ge hn) (blockSize_mod n) hle (by omega)

/-- **Every resize keeps ids in order.** -/
theorem fullInv (h : FullInv G m (pre ++ b :: post)) (hh : Holds G m i b) (hn : n ≠ 0)
    (hn' : n ≤ 2 ^ 64 - 64) (hrun : ResizeRun G sz pre b post i n rc W bs') :
    FullInv G (replay W m) bs' := by
  have hle := le_blockSize n
  rcases hrun.inPlace_of_ok h.toInv hh.live hn with ⟨-, rfl, rfl⟩ |
    ⟨V, b', post', rfl, rfl, -, hp, ht⟩ | ⟨pre₁, f, post₁, pre₂, post₂, -, hr, rfl, rfl⟩
  · exact h
  · exact h.inPlace hh hp (by omega)
  · exact h.relocate hr (by simp) hh (blockSize_ge hn) (blockSize_mod n) hle (by omega)

/-- **What a resize writes**: of the slot, only where the object is and how large. -/
theorem writes (h : Inv G m (pre ++ b :: post)) (hl : b.live = true) (hn : n ≠ 0)
    (hrun : ResizeRun G sz pre b post i n rc W bs') {x : Nat} (hx : Writes W x) :
    Touchable G (pre ++ b :: post) b x ∨ slotAddr i + 56 ≤ x ∧ x < slotAddr i + 80 := by
  rcases hrun.inPlace_of_ok h hl hn with ⟨-, rfl, rfl⟩ |
    ⟨V, b', post', rfl, rfl, -, hp, ht⟩ | ⟨pre₁, f, post₁, pre₂, post₂, -, hr, rfl, rfl⟩
  · simp [Event.Touches] at hx
  · rcases writes_append.1 hx with hx | hx
    · exact .inl (hp.writes x hx).1
    · have := writes_inPlaceEvents hx
      exact .inr ⟨by omega, by omega⟩
  · exact writes_movingEvents hr h.heap (by simp) (blockSize_ge hn) hx

end ResizeRun

end

/-- **`shm_resize`** either fails without an effect but on the lock, or goes on with the first
object that has the id, access being granted. -/
theorem exec_shmResize_object (h : Inv G m bs) (r : Region) {objId n : Nat} (hid : objId ≠ 0)
    (hn : n ≠ 0) (userId callerPerms : UInt32) :
    (∃ rc, rc ≠ .ok ∧
        (∀ i, Finds G m objId i →
          (entryAt m i).access userId callerPerms SHM_PERM_RESIZE ≠ .ok) ∧
        Exec G.size (shmResize (some r) objId n userId callerPerms) m rc
          (lockEvents r ++ [.unlock])) ∨
      ∃ pre b post i, bs = pre ++ b :: post ∧ Finds G m objId i ∧ Holds G m i b ∧
        (entryAt m i).access userId callerPerms SHM_PERM_RESIZE = .ok ∧
        (∀ rc W, Exec G.size (resizeObject r n (slotAddr i)) m rc W →
          Exec G.size (shmResize (some r) objId n userId callerPerms) m rc
            (lockEvents r ++ W)) ∧
        ∀ size, Completed size ((shmResize (some r) objId n userId callerPerms).trace m) →
          Completed size ((resizeObject r n (slotAddr i)).trace m) := by
  rw [shmResize, if_neg (by simp [hid, hn])]
  rcases exec_withEntry h.layout objId userId callerPerms SHM_PERM_RESIZE (resizeObject r n) with
    ⟨habs, h1⟩ | ⟨i, hf, ⟨hacc, h1⟩ | ⟨hacc, h1, h2⟩⟩
  · exact .inl ⟨.enoent, by decide, fun i hf => absurd hf.id (habs i hf.lt hf.alive),
      exec_locked r h1⟩
  · exact .inl ⟨_, hacc, fun j hf' => hf.unique hf' ▸ hacc, exec_locked r h1⟩
  · obtain ⟨pre, b, post, rfl, hh⟩ := h.holds hf.lt hf.alive
    refine .inr ⟨pre, b, post, i, rfl, hf, hh, hacc, fun rc W hx => exec_locked r (h1 _ _ hx),
      fun size hc => h2 _ ?_⟩
    have hc1 := (exec_regionLock G.size r m).completed_rest hc
    rwa [replay_lockEvents] at hc1

/-- **A completed `shm_resize`** either fails without an effect but on the lock, or resizes the
first object that has the id, access being granted, in one of the five ways. -/
theorem exec_shmResize (h : Inv G m bs) {r : Region} {objId n : Nat} (hid : objId ≠ 0) (hn : n ≠ 0)
    (hn' : n ≤ 2 ^ 64 - 64) (hsize : r.size ≤ G.size) (userId callerPerms : UInt32)
    (hc : Completed r.size ((shmResize (some r) objId n userId callerPerms).trace m)) :
    (∃ rc, rc ≠ .ok ∧
        Exec G.size (shmResize (some r) objId n userId callerPerms) m rc
          (lockEvents r ++ [.unlock])) ∨
      ∃ pre b post i, bs = pre ++ b :: post ∧ Finds G m objId i ∧ Holds G m i b ∧
        (entryAt m i).access userId callerPerms SHM_PERM_RESIZE = .ok ∧
        ∃ rc W bs', ResizeRun G r.size pre b post i n rc W bs' ∧
          Exec G.size (shmResize (some r) objId n userId callerPerms) m rc
            (lockEvents r ++ W) := by
  rcases exec_shmResize_object h r hid hn userId callerPerms with
    ⟨rc, hrc, -, hx⟩ | ⟨pre, b, post, i, rfl, hf, hh, hacc, hrun, hcomp⟩
  · exact .inl ⟨rc, hrc, hx⟩
  · have hres := resizable_of_completed h hh hsize hn hn' (hcomp _ hc)
    obtain ⟨rc, W, bs', hrun', hx⟩ := exec_resizeObject h hh hsize hn hn' hres
    exact .inr ⟨pre, b, post, i, rfl, hf, hh, hacc, rc, W, bs', hrun', hrun _ _ hx⟩

/-! ## A resize that is stopped

A process may die in the branch that never returns, so here the five ways are six. -/

section

variable {b : Blk} {i n : Nat} {V : List Event}

/-- **What a resize has done when it is stopped.** -/
theorem stopped_resizeObject (h : Inv G m (pre ++ b :: post)) (hh : Holds G m i b) {r : Region}
    (hsize : r.size ≤ G.size) (hn : n ≠ 0) (hn' : n ≤ 2 ^ 64 - 64)
    (hV : V <+: (resizeObject r n (slotAddr i)).trace m) (hc : Completed r.size V) :
    effects V = [] ∨
      (∃ rc W bs', ResizeRun G r.size pre b post i n rc W bs' ∧ effects V <+: W) ∨
      b.total < blockSize n ∧ ¬ CanGrow G r.size b (blockSize n) post ∧
        ∃ pre₁ f post₁, Overruns (pre ++ b :: post) b (blockSize n) pre₁ f post₁ ∧
          effects V <+: takeEvents G pre₁ f post₁ (blockSize n) (liveBytes (pre ++ b :: post))
            (liveBlks (pre ++ b :: post)).length ++
              [.copy (G.base + f.off + 56) (G.base + b.off + 56) b.cap] := by
  obtain ⟨T, hload, hT, htr⟩ := (exec_resizeStart h hh r (blockSize_eq hn')).2
  have hV' := hV
  rw [htr] at hV'
  rcases prefix_or_append hV' with hV' | ⟨U, hU, rfl⟩
  · exact .inl (List.prefix_nil.1 (hT ▸ effects_prefix hV'))
  have hle : G.base + b.off + 40 + 8 ≤ r.size := hc _ (List.mem_append_left _ hload)
  by_cases hmov : b.total < blockSize n → ¬ CanGrow G r.size b (blockSize n) post →
      Movable (pre ++ b :: post) b (blockSize n)
  · obtain ⟨rc, W, bs', hrun, hx⟩ := exec_resizeObject h hh hsize hn hn' ⟨by omega, hmov⟩
    exact .inr (.inl ⟨rc, W, bs', hrun, hx.effects_prefix hV⟩)
  · simp only [Classical.not_imp] at hmov
    obtain ⟨hlt, hcan, hmov⟩ := hmov
    refine .inr (.inr ⟨hlt, hcan, ?_⟩)
    rw [effects_append, hT, List.nil_append]
    rw [if_neg (by omega)] at hU
    rcases exec_growInPlace h.layout h.heap.toRep hh.live (blockSize_ge hn) (blockSize_mod n)
      (r := r) (by omega) hsize h.used (total_le_liveBytes (by simp) hh.live)
      fun c hc' => h.heap.room c (by simp [hc']) with ⟨c, cs, rfl, hcan', -⟩ | ⟨-, hx⟩
    · exact absurd hcan' hcan
    · have hend : ∀ {U},
          U <+: (growByMoving (slotAddr i) (G.base + b.off) (blockSize n) n).trace m →
          Completed r.size U → ∃ pre₁ f post₁,
            Overruns (pre ++ b :: post) b (blockSize n) pre₁ f post₁ ∧
              effects U <+: takeEvents G pre₁ f post₁ (blockSize n) (liveBytes (pre ++ b :: post))
                (liveBlks (pre ++ b :: post)).length ++
                  [.copy (G.base + f.off + 56) (G.base + b.off + 56) b.cap] :=
        fun hU hc => stopped_growByMoving h hh hsize hn hlt hmov hU hc
      rcases hx.prefix_bind hU with hU | ⟨w, hw, rfl⟩
      · obtain ⟨pre₁, f, post₁, ho, -⟩ :=
          hend List.nil_prefix (fun e he => absurd he List.not_mem_nil)
        rw [List.prefix_nil.1 (hx.effects_prefix hU)]
        exact ⟨pre₁, f, post₁, ho, List.nil_prefix⟩
      · rw [effects_append, hx.eff, List.nil_append]
        rw [if_neg Bool.false_ne_true] at hw
        exact hend hw hc.right.right

end

/-- A resize of an object that is found comes to `resizeObject`. -/
theorem trace_shmResize (h : Inv G m bs) (r : Region) {objId n i : Nat} (hid : objId ≠ 0)
    (hn : n ≠ 0) {userId callerPerms : UInt32} (hf : Finds G m objId i)
    (hacc : (entryAt m i).access userId callerPerms SHM_PERM_RESIZE = .ok) :
    ∃ T, effects T = lockEvents r ∧ (shmResize (some r) objId n userId callerPerms).trace m
      = T ++ (resizeObject r n (slotAddr i)).trace m := by
  have hlock := exec_regionLock G.size r m
  obtain ⟨T, hT, htr⟩ := trace_withEntry h.layout hf hacc (resizeObject r n)
  refine ⟨(regionLock r).trace m ++ T, ?_, ?_⟩
  · rw [effects_append, hlock.eff, hT, List.append_nil]
  · rw [shmResize, if_neg (by simp [hid, hn]), hlock.trace_bind, replay_lockEvents]
    show _ ++ (withEntry objId userId callerPerms SHM_PERM_RESIZE (resizeObject r n)).trace m = _
    rw [htr, List.append_assoc]

end ShmAlloc
