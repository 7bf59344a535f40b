import ShmAlloc.Guarantees.Capacity
import ShmAlloc.Guarantees.Failure

/-!
# What a resize does to the payload

The bytes of an object survive a resize, wherever it leaves the object, and a relocation fills and
copies inside its new block only.  The in-place paths do not touch the payload at all.  The
relocating path copies `payload_cap` bytes and clears what lies behind them, so it is right as long
as capacities are.

## What is here

* `move_byte` and `moving_byte`: where a byte of the payload is after a relocation, and which bytes
  are 0.
* `ResizeRun.content`: the same for all five ways a resize can go.
* `resize_preserves`: **a resize preserves content**, in runs whose calls hand out no stale block
  (`KeepsCapacity`).
* `MovesInside` and `fills_stay_inside`: **fills stay inside the block**, in such runs.  A resize
  fills and copies nothing, or moves the object and stays inside the new block.
* `staleFront`, `resize_preserves_fails` and `fills_stay_inside_fails`: with a stale capacity a
  relocation loses what was written behind it, or clears almost the whole address space.
-/

set_option autoImplicit false

namespace ShmAlloc

open Tiling Links

variable {G : Geometry} {m m' : Mem} {bs bs' pre post : List Blk}

/-! ## The copied bytes

Of the three parts of a relocation, taking a block and giving one back miss the payload, and the
part in between copies it. -/

section

variable {b c f : Blk} {fl : List Nat} {x k : Nat}

/-- A byte of a payload is no free-list byte. -/
theorem Rep.not_freeListByte (h : Rep G m bs fl) (hb : b ∈ bs)
    (h1 : G.base + b.off + 56 ≤ x) (h2 : x < G.base + b.off + b.total) : ¬ FreeListByte G bs x := by
  have hD := G.base_ge
  rintro (h3 | ⟨c, hc, -, hx⟩)
  · omega
  · exact h.not_inHdr_of_payload hb hc h1 h2 hx

/-- Taking a free block leaves the payloads of live blocks alone. -/
theorem take_payload {need used count : Nat} (h : Rep G m (pre ++ f :: post) fl)
    (hf : f.live = false) (hneed : 64 ≤ need) (hfit : need ≤ f.total) (hb : b ∈ pre ++ f :: post)
    (hl : b.live = true) (h1 : G.base + b.off + 56 ≤ x) (h2 : x < G.base + b.off + b.total) :
    replay (takeEvents G pre f post need used count) m x = m x := by
  refine replay_of_not_writes (fun hw => ?_) m
  have hD := G.base_ge
  rcases writes_takeEvents hneed hfit hf hw with hw | hw | hw
  · omega
  · exact h.not_freeListByte hb h1 h2 hw
  · have hbf := h.eq_of_inBlk hb (by simp) (x := x) ⟨by omega, h2⟩ hw
    exact Bool.noConfusion (hl.symm.trans (hbf ▸ hf))

/-- Giving a block back leaves payloads alone. -/
theorem release_payload {used count : Nat} (h : Rep G m (pre ++ b :: post) fl)
    (hc : c ∈ pre ++ b :: post) (h1 : G.base + c.off + 56 ≤ x)
    (h2 : x < G.base + c.off + c.total) :
    ¬ Writes (releaseEvents G pre b post used count) x := fun hw => by
  have hD := G.base_ge
  rcases writes_releaseEvents hw with hw | hw | ⟨d, hd, -, hdx⟩
  · omega
  · omega
  · have hmem : ∃ e ∈ pre ++ b :: post, InHdr G e x := by
      rcases List.mem_append.1 hd with hd | hd
      · exact ⟨d, by simp [hd], hdx⟩
      · rcases List.mem_cons.1 hd with rfl | hd
        · exact ⟨b, by simp, hdx⟩
        · exact ⟨d, by simp [hd], hdx⟩
    obtain ⟨e, he, hex⟩ := hmem
    exact h.not_inHdr_of_payload hc he h1 h2 hex

/-- **A moved byte** is where its offset in the payload says, and what lies behind the payload that
was copied is cleared. -/
theorem move_byte (hcap : b.cap ≤ c.cap) (hk : k < c.cap) :
    replay (moveEvents G b c) m (G.base + c.off + 56 + k)
      = if k < b.cap then m (G.base + b.off + 56 + k) else 0 := by
  have hadopt : ∀ m : Mem, replay (adoptEvents G b c) m (G.base + c.off + 56 + k)
      = m (G.base + c.off + 56 + k) := fun m => replay_of_not_writes (fun hw => by
    have := writes_adoptEvents hw
    omega) m
  rw [moveEvents, copyEvents, replay_append, hadopt, replay_cons, Event.act]
  by_cases hin : k < b.cap
  · rw [if_pos hin, replay_of_not_writes, Mem.copy_of_inside (by omega) (by omega)]
    · congr 1
      omega
    · intro hw
      rw [extraEvents] at hw
      split at hw
      · simp only [writes_cons, not_writes_nil, Event.Touches, or_false] at hw
        omega
      · exact not_writes_nil _ hw
  · rw [if_neg hin, extraEvents, if_pos (by omega), replay_cons, replay_nil, Event.act,
      Mem.fill_of_inside (by omega) (by omega)]

end

/-- **A relocation moves the payload**, as far as the capacity goes, and clears what lies behind
it. -/
theorem moving_byte {f : Blk} {pre' post' : List Blk} {b : Blk} {t i n k : Nat}
    (hr : Relocates bs b t pre f post pre' post') (h : HeapInv G m bs) (hb : b ∈ bs)
    (hl : b.live = true) (ht : 64 ≤ t) (ht8 : t % 8 = 0) (hi : i < G.dirCap)
    (hk : k < (taken f t).cap) :
    replay (movingEvents G bs pre f post pre' post' b i t n) m (G.base + f.off + 56 + k)
      = if k < b.cap then m (G.base + b.off + 56 + k) else 0 := by
  have hne := hr.off_ne h.toRep hb hl
  have hbcap := (h.wf b hb).cap_le
  obtain ⟨hcap, -⟩ := hr.taken_cap_le h ht
  have hslot : ¬ Writes (retargetEvents i f.off (taken f t).cap ++ finishEvents i n)
      (G.base + f.off + 56 + k) := fun hw => by
    have := writes_retarget_finish hw
    have := G.slotAddr_lt hi
    omega
  have hrelease : ¬ Writes (releaseEvents G pre' b post' (liveBytes bs + (taken f t).total)
      ((liveBlks bs).length + 1)) (G.base + f.off + 56 + k) := by
    have hmoved := hr.moved_heap (liveBytes bs) (liveBlks bs).length h hb hl ht ht8
    refine release_payload hmoved.toRep (c := (taken f t).adopted b) ?_ ?_ ?_
    · rcases hr.adopted_mem hne with hc | hc <;> simp [hc]
    · rw [Blk.adopted_off, taken_off]
      omega
    · rw [Blk.adopted_off, taken_off, Blk.adopted_total]
      omega
  have hmove := move_byte (G := G) (m := replay (takeEvents G pre f post t (liveBytes bs)
    (liveBlks bs).length) m) (c := taken f t) hr.cap_le hk
  rw [taken_off] at hmove
  rw [movingEvents_eq, replay_append, replay_of_not_writes hslot, replay_append, replay_append,
    replay_of_not_writes hrelease, hmove]
  split
  · exact take_payload (hr.split ▸ h.toRep) hr.free ht hr.fits (hr.split ▸ hb) hl (by omega)
      (by omega)
  · rfl

/-! ## The payload after a resize -/

/-- **A resize preserves the payload** as far as the capacity goes. -/
theorem ResizeRun.content_of_cap {sz n i k : Nat} {b : Blk} {W : List Event}
    (h : Inv G m (pre ++ b :: post)) (hh : Holds G m i b) (hn : n ≠ 0) (hn' : n ≤ 2 ^ 64 - 64)
    (hrun : ResizeRun G sz pre b post i n .ok W bs')
    (hk : k < min (min (entryAt m i).used n) b.cap) :
    replay W m (G.base + (entryAt (replay W m) i).off + k)
      = m (G.base + (entryAt m i).off + k) := by
  have hD := G.base_ge
  have hoff := hh.mirrors.off
  have hused := hh.mirrors.used
  have hle := le_blockSize n
  have hbm : b ∈ pre ++ b :: post := by simp
  -- an edit that leaves the block where it is, and stays out of the bytes in question
  have hin : ∀ {V : List Event} {b' : Blk} {post' : List Blk}, InPlace G m pre b post V b' post' →
      ¬ Writes V (G.base + (b.off + 56) + k) →
      replay (V ++ inPlaceEvents i b'.cap n) m
          (G.base + (entryAt (replay (V ++ inPlaceEvents i b'.cap n) m) i).off + k)
        = m (G.base + (entryAt m i).off + k) := by
    intro V b' post' hp hV
    rw [inPlace_entry_self hh hp (by omega), hoff]
    refine replay_of_not_writes (fun hw => ?_) m
    rcases writes_append.1 hw with hw | hw
    · exact hV hw
    · have := writes_inPlaceEvents hw
      have := G.slotAddr_lt hh.lt
      omega
  have hfree : ∀ d ∈ pre ++ b :: post, ¬ InHdr G d (G.base + (b.off + 56) + k) := fun d hd =>
    h.heap.not_inHdr_of_payload hbm hd (by omega) (by omega)
  cases hrun with
  | keep hle' hrem => exact hin (InPlace.refl h hh.live) (not_writes_nil _)
  | cut hrem =>
    refine hin (InPlace.cutTail h hh.live (blockSize_ge hn) (blockSize_mod n) hrem) fun hw => ?_
    rcases writes_cutTailEvents hh.live hrem hw with hw | hw | hw | ⟨d, hd, -, hw⟩
    · omega
    · exact hfree b hbm hw
    · omega
    · exact hfree d (by rcases List.mem_append.1 hd with hd | hd <;> simp [hd]) hw
  | grow c cs hpost hlt hcan =>
    subst hpost
    have htiles := (tiles_mid.1 h.heap.tiles).2
    have hc : c.off = b.off + b.total := (tiles_cons.1 htiles).1
    refine hin (InPlace.grow h hh.live hcan.1 (blockSize_ge hn) (blockSize_mod n) hcan.2.1)
      fun hw => ?_
    rcases writes_growEvents hh.live hcan.1 hc hw with hw | hw | hw | hw | ⟨d, hd, -, hw⟩
    · omega
    · exact hfree b hbm hw
    · exact hfree c (by simp) hw
    · omega
    · exact hfree d (by rcases List.mem_append.1 hd with hd | hd <;> simp [hd]) hw
  | move pre₁ f post₁ pre₂ post₂ hlt hcan hr =>
    have ht := blockSize_ge hn
    have hmove := moving_byte (n := n) hr h.heap hbm hh.live ht (blockSize_mod n) hh.lt
      (show k < (taken f (blockSize n)).cap by have := hr.cap_le; omega)
    rw [if_pos (by omega)] at hmove
    rw [moving_entry_self hr h hbm ht hh.lt (by omega), hoff]
    rw [show G.base + (f.off + 56) + k = G.base + f.off + 56 + k by omega, hmove]
    congr 1

theorem ResizeRun.content {sz n i k : Nat} {b : Blk} {W : List Event}
    (h : Inv G m (pre ++ b :: post)) (hh : Holds G m i b) (hn : n ≠ 0) (hn' : n ≤ 2 ^ 64 - 64)
    (hrun : ResizeRun G sz pre b post i n .ok W bs') (hcap : (entryAt m i).used ≤ b.cap)
    (hk : k < min (entryAt m i).used n) :
    replay W m (G.base + (entryAt (replay W m) i).off + k) = m (G.base + (entryAt m i).off + k) :=
  hrun.content_of_cap h hh hn hn' (by omega)

/-- **A resize preserves content**, as long as no call has handed out a stale block: after a
successful `shm_resize` the bytes of the object that it had before and still has read the same at
its new place. -/
theorem resize_preserves (h : Reach G (KeepsCapacity G) m) {region : Option Region}
    {objId n : Nat} {userId callerPerms : UInt32}
    (hl : Legal G m (.resize region objId n userId callerPerms))
    (hok : (Call.resize region objId n userId callerPerms).prog.val m = .ok) :
    ∃ i, Finds G m objId i ∧ ∀ k, k < min (entryAt m i).used n →
      (Call.resize region objId n userId callerPerms).prog.mem m (G.base +
        (entryAt ((Call.resize region objId n userId callerPerms).prog.mem m) i).off + k)
          = m (G.base + (entryAt m i).off + k) := by
  obtain ⟨bs, hI, hfull⟩ := h.fullBlks
  obtain ⟨rc, W, bs', hrun, hx⟩ := callRun hI hl
  obtain rfl : rc = .ok := hx.val.symm.trans hok
  rw [hx.mem]
  cases hrun with
  | refused hrc hW => exact absurd rfl hrc
  | resize hf hh hacc hn hn' hrun =>
    rename_i pre b post i r V
    have hcov := hfull.coversUse hI hf.lt hf.alive
    have hcap : (entryAt m i).used ≤ b.cap := by
      rw [← hh.mirrors.cap]
      exact hcov.used_le
    refine ⟨i, hf, fun k hk => ?_⟩
    rw [replay_locked]
    exact hrun.content hI hh hn hn' hcap hk

/-! ## Fills and copies -/

/-- The payload of `b` is copied to `nb`, the number of bytes to clear behind it is no negative
number, and nothing is filled or copied over but the payload of `nb`. -/
structure MovesInside (G : Geometry) (b nb : Blk) (W : List Event) : Prop where
  cap_le : b.cap ≤ nb.cap
  cap_total : nb.cap + 56 ≤ nb.total
  inside : ∀ e ∈ W, e.isBulk = true → ∀ x, e.Touches x →
    G.base + nb.off + 56 ≤ x ∧ x < G.base + nb.off + 56 + nb.cap

/-- What a relocation fills and copies over is the payload of the new block. -/
theorem movingEvents_inside {f : Blk} {pre' post' : List Blk} {b : Blk} {t i n : Nat}
    (hr : Relocates bs b t pre f post pre' post') (h : HeapInv G m bs) (ht : 64 ≤ t) :
    MovesInside G b ((taken f t).adopted b) (movingEvents G bs pre f post pre' post' b i t n) := by
  have hle := hr.cap_le
  refine ⟨hle, (hr.taken_cap_le h ht).1, fun e he hbulk x hx => ?_⟩
  have hedit : ∀ {V : List Event}, Edits V → e ∉ V := fun hV he => by
    rw [Event.isBulk_of_isEdit (hV e he)] at hbulk
    exact Bool.noConfusion hbulk
  rw [movingEvents_eq] at he
  simp only [List.mem_append] at he
  rcases he with (he | he | he) | he | he
  · exact absurd he (hedit edits_takeEvents)
  · rcases List.mem_append.1 he with he | he
    · exact writes_copyEvents hle ⟨e, he, hx⟩
    · rw [adoptEvents] at he
      simp only [List.mem_cons, List.not_mem_nil, or_false] at he
      rcases he with rfl | rfl | rfl | rfl | rfl | rfl <;> exact Bool.noConfusion hbulk
  · exact absurd he (hedit edits_releaseEvents)
  · refine absurd he (hedit ?_)
    simp [retargetEvents, Event.isEdit]
  · rw [finishEvents] at he
    simp only [List.mem_cons, List.not_mem_nil, or_false] at he
    rcases he with rfl | rfl | rfl | rfl <;> exact Bool.noConfusion hbulk

/-- **A resize that does not move the object fills and copies nothing**; one that does stays inside
the new block. -/
theorem ResizeRun.inside {sz n i : Nat} {b : Blk} {rc : Rc} {W : List Event}
    (h : Inv G m (pre ++ b :: post)) (hh : Holds G m i b) (hn : n ≠ 0) (hn' : n ≤ 2 ^ 64 - 64)
    (hrun : ResizeRun G sz pre b post i n rc W bs') :
    (∀ e ∈ W, e.isBulk = false) ∨
      ∃ nb ∈ bs', Holds G (replay W m) i nb ∧ nb.off ≠ b.off ∧ MovesInside G b nb W := by
  have hend : ∀ cap, ∀ e ∈ inPlaceEvents i cap n, e.isBulk = false := fun cap e he => by
    rw [inPlaceEvents, finishEvents] at he
    simp only [List.mem_cons, List.not_mem_nil, or_false] at he
    rcases he with rfl | rfl | rfl | rfl | rfl <;> rfl
  have hedit : ∀ {V : List Event} {cap : Nat}, Edits V →
      ∀ e ∈ V ++ inPlaceEvents i cap n, e.isBulk = false := fun hV e he =>
    (List.mem_append.1 he).elim (fun he => Event.isBulk_of_isEdit (hV e he)) (hend _ e)
  have hinv := hrun.inv h hh hn hn'
  cases hrun with
  | keep hle hrem => exact .inl (hend _)
  | cut hrem => exact .inl (hedit edits_cutTailEvents)
  | grow c cs hpost hlt hcan => exact .inl (hedit edits_growEvents)
  | noRoom hlt hcan hfull => exact .inl (by simp [Event.isBulk])
  | move pre₁ f post₁ pre₂ post₂ hlt hcan hr =>
    have hbm : b ∈ pre ++ b :: post := by simp
    have hne := hr.off_ne h.heap.toRep hbm hh.live
    have ht := blockSize_ge hn
    have he := moving_entry_self (n := n) hr h hbm ht hh.lt (by omega)
    obtain ⟨pre', nb, post', hsplit, hh'⟩ := hinv.holds hh.lt (by rw [he]; exact hh.alive)
    -- the block the slot holds now is the one the object has moved to
    have hmem := hr.adopted_mem_freed hne
    have hoff : nb.off = ((taken f (blockSize n)).adopted b).off := by
      have := hh'.mirrors.off
      rw [he] at this
      rw [Blk.adopted_off, taken_off]
      exact (Nat.add_right_cancel this).symm
    obtain rfl := hinv.heap.eq_of_off (b := nb) (by rw [hsplit]; simp) hmem hoff
    refine .inr ⟨_, hmem, hh', ?_, movingEvents_inside hr h.heap ht⟩
    rw [Blk.adopted_off, taken_off]
    exact Ne.symm hne

theorem not_isBulk_lockEvents (r : Region) : ∀ e ∈ lockEvents r, e.isBulk = false := by
  intro e he
  rw [lockEvents] at he
  split at he
  · rcases List.mem_cons.1 he with rfl | he
    · rfl
    · rw [List.mem_singleton.1 he]
      rfl
  · rw [List.mem_singleton.1 he]
    rfl

/-- With full blocks, an object that has to move can move: what it moves to is larger. -/
theorem FullBlks.resizable {sz n : Nat} {b : Blk} (h : Inv G m (pre ++ b :: post))
    (hfull : FullBlks (pre ++ b :: post)) (hl : b.live = true) (hn : n ≠ 0) (hbase : G.base ≤ sz)
    (hC : b.total < blockSize n → ¬ CanGrow G sz b (blockSize n) post →
      TakesFull G m (blockSize n)) : Resizable G sz pre b post n := by
  refine ⟨hbase, fun hlt hcan pre₁ f post₁ hsplit hf hfit hfirst => ?_⟩
  have hb : b.Full := (hfull.mid hl).2.1
  have hrep := h.heap.toRep
  rw [hsplit] at hrep
  have htaken := taken_full (blockSize_ge hn) (hrep.takesFull (hC hlt hcan) hf hfit hfirst)
  have hge := detached_total_ge hfit
  rw [Blk.Full, taken_total] at htaken
  rw [Blk.Full] at hb
  omega

/-- **Fills stay inside the block**, as long as no call hands out a stale block: a `shm_resize`
either fills and copies nothing, or it moves the object to another live block, which has the larger
capacity, and fills and copies inside the payload of that block only. -/
theorem fills_stay_inside (h : Reach G (KeepsCapacity G) m) {r : Region} (hbase : G.base ≤ r.size)
    (hsize : r.size ≤ G.size) {objId n : Nat} {userId callerPerms : UInt32}
    (hn' : n ≤ 2 ^ 64 - 64)
    (hC : KeepsCapacity G m (.resize (some r) objId n userId callerPerms)) :
    (∀ e ∈ (shmResize (some r) objId n userId callerPerms).trace m, e.isBulk = false) ∨
      ∃ i nb, Finds G m objId i ∧
        nb ∈ blocks G ((shmResize (some r) objId n userId callerPerms).mem m) ∧
        Holds G ((shmResize (some r) objId n userId callerPerms).mem m) i nb ∧
        nb.off ≠ (blkOfSlot G m i).off ∧
        MovesInside G (blkOfSlot G m i) nb
          ((shmResize (some r) objId n userId callerPerms).trace m) := by
  obtain ⟨bs, hI, hfull⟩ := h.fullBlks
  have hnone : ∀ {V : List Event} {rc : Rc},
      Exec G.size (shmResize (some r) objId n userId callerPerms) m rc (lockEvents r ++ V) →
      (∀ e ∈ V, e.isBulk = false) →
      ∀ e ∈ (shmResize (some r) objId n userId callerPerms).trace m, e.isBulk = false := by
    intro V rc hx hV e he
    by_contra hbulk
    have hbulk : e.isBulk = true := by simpa using hbulk
    rcases List.mem_append.1 (hx.mem_of_isBulk he hbulk) with he | he
    · exact Bool.noConfusion ((not_isBulk_lockEvents r e he).symm.trans hbulk)
    · exact Bool.noConfusion ((hV e he).symm.trans hbulk)
  by_cases hargs : objId = 0 ∨ n = 0
  · refine .inl fun e he => ?_
    rw [shmResize, if_pos hargs] at he
    simp at he
  rw [not_or] at hargs
  rcases exec_shmResize_object hI r hargs.1 hargs.2 userId callerPerms with
    ⟨rc, -, -, hx⟩ | ⟨pre, b, post, i, rfl, hf, hh, hacc, hrun, -⟩
  · exact .inl (hnone hx (by simp [Event.isBulk]))
  · have hblk := hh.blkOfSlot hI.heap.toRep (by simp)
    have hres := hfull.resizable hI hh.live hargs.2 hbase fun hlt hcan => by
      refine hC i hf hacc (by rwa [hblk]) ?_
      rwa [hblk, hI.heap.toRep.growsInPlace]
    obtain ⟨rc, W, bs', hrun', hx⟩ := exec_resizeObject hI hh hsize hargs.2 hn' hres
    have hx := hrun _ _ hx
    have hI' := hrun'.inv hI hh hargs.2 hn'
    rcases hrun'.inside hI hh hargs.2 hn' with hquiet | ⟨nb, hnb, hh', hne, hin⟩
    · exact .inl (hnone hx hquiet)
    · have hmem : (shmResize (some r) objId n userId callerPerms).mem m = replay W m := by
        rw [hx.mem, replay_locked]
      refine .inr ⟨i, nb, hf, ?_, ?_, ?_, ?_⟩
      · rwa [hmem, hI'.heap.toRep.blocks_eq]
      · rwa [hmem]
      · rwa [hblk]
      · rw [hblk]
        refine ⟨hin.cap_le, hin.cap_total, fun e he hbulk => ?_⟩
        rcases List.mem_append.1 (hx.mem_of_isBulk he hbulk) with he | he
        · exact Bool.noConfusion ((not_isBulk_lockEvents r e he).symm.trans hbulk)
        · exact hin.inside e he hbulk

/-! ## Runs on one page

The failing runs merge a tail with the block it was cut from, which is the shortest way to a stale
capacity. -/

/-- User 7 resizes an object to `n` bytes. -/
def resizes (objId n : Nat) : Call := .resize (some pageHandle) objId n 7 0xF

/-- A page with two objects, of `a` and `c` bytes. -/
def twoObjects (a c : Nat) : Mem := (asks c).prog.mem ((asks a).prog.mem (freshMem pageGeometry))

theorem reach_twoObjects : Reach pageGeometry (KeepsCapacity pageGeometry) (twoObjects 8 8) :=
  page_keepsCapacity.alloc rfl (by decide) (by decide) fun _ _ => by decide +kernel

/-- To hold 100 bytes, the first object moves behind the second one. -/
theorem resize_preserves_page : ∃ i, Finds pageGeometry (twoObjects 8 8) 1 i ∧
    ∀ k, k < min (entryAt (twoObjects 8 8) i).used 100 →
      (resizes 1 100).prog.mem (twoObjects 8 8) (pageGeometry.base +
        (entryAt ((resizes 1 100).prog.mem (twoObjects 8 8)) i).off + k)
          = twoObjects 8 8 (pageGeometry.base + (entryAt (twoObjects 8 8) i).off + k) :=
  resize_preserves reach_twoObjects
    (legal_resize (by decide) (by decide) (by decide +kernel)) (by decide +kernel)

theorem fills_stay_inside_page :
    (∀ e ∈ (resizes 1 100).prog.trace (twoObjects 8 8), e.isBulk = false) ∨
      ∃ i nb, Finds pageGeometry (twoObjects 8 8) 1 i ∧
        nb ∈ blocks pageGeometry ((resizes 1 100).prog.mem (twoObjects 8 8)) ∧
        Holds pageGeometry ((resizes 1 100).prog.mem (twoObjects 8 8)) i nb ∧
        nb.off ≠ (blkOfSlot pageGeometry (twoObjects 8 8) i).off ∧
        MovesInside pageGeometry (blkOfSlot pageGeometry (twoObjects 8 8) i) nb
          ((resizes 1 100).prog.trace (twoObjects 8 8)) :=
  fills_stay_inside reach_twoObjects (by decide) (by decide) (by decide)
    fun _ _ _ _ _ => by decide +kernel

/-- The page when the first object has been shrunk to 8 bytes, which cuts a tail off, and freed,
which merges it with the tail: a free block with the capacity of 8 bytes. -/
def staleFront (a c : Nat) : Mem := (frees 1).prog.mem ((resizes 1 8).prog.mem (twoObjects a c))

theorem reach_staleFront {a c : Nat} (ha : a ≠ 0) (ha' : a ≤ 2 ^ 64 - 64) (hc : c ≠ 0)
    (hc' : c ≤ 2 ^ 64 - 64)
    (hcomp : Completed 4096 ((resizes 1 8).prog.trace (twoObjects a c))) :
    Reach pageGeometry AnyCall (staleFront a c) := by
  have h : Reach pageGeometry AnyCall (twoObjects a c) :=
    ((reach_fresh ..).alloc rfl ha ha' trivial).alloc rfl hc hc' trivial
  have hl : Legal pageGeometry (twoObjects a c) (resizes 1 8) :=
    legal_resize (by decide) (by decide) hcomp
  exact (h.step (.call _ hl trivial)).free rfl (by decide) trivial

/-- An object of 72 bytes in that block, whose owner has written its byte 20. -/
def writtenBehind : Mem := Mem.store ((asks 72).prog.mem (staleFront 72 8)) 468 1 0xAA

theorem reach_writtenBehind : Reach pageGeometry AnyCall writtenBehind := by
  have h : Reach pageGeometry AnyCall ((asks 72).prog.mem (staleFront 72 8)) :=
    (reach_staleFront (by decide) (by decide) (by decide) (by decide)
      (by decide +kernel)).alloc rfl (by decide) (by decide) trivial
  have hentry : (entryAt ((asks 72).prog.mem (staleFront 72 8)) 0).alive = true ∧
      20 < (entryAt ((asks 72).prog.mem (staleFront 72 8)) 0).used ∧
      (entryAt ((asks 72).prog.mem (staleFront 72 8)) 0).off = 56 := by decide +kernel
  have hs := Step.write (G := pageGeometry) (C := AnyCall) 0 20 0xAA (by decide) hentry.1 hentry.2.1
  rw [hentry.2.2] at hs
  exact h.step hs

/-- **A relocation loses what lies behind a stale capacity.** -/
theorem resize_preserves_fails : Reach pageGeometry AnyCall writtenBehind ∧
    (resizes 3 200).prog.val writtenBehind = .ok ∧
    (entryAt writtenBehind 0).id = 3 ∧ (entryAt writtenBehind 0).used = 72 ∧
    writtenBehind (pageGeometry.base + (entryAt writtenBehind 0).off + 20) = 0xAA ∧
    (resizes 3 200).prog.mem writtenBehind (pageGeometry.base +
      (entryAt ((resizes 3 200).prog.mem writtenBehind) 0).off + 20) = 0 := by
  refine ⟨reach_writtenBehind, ?_⟩
  decide +kernel

/-- **A relocation into a stale block clears almost the whole address space**: the second object
has a capacity of 24 bytes, the block it is to move to one of 8. -/
theorem fills_stay_inside_fails : Reach pageGeometry AnyCall (staleFront 3568 16) ∧
    Event.fill 472 (2 ^ 64 - 16) 0 ∈ (resizes 2 3568).prog.trace (staleFront 3568 16) := by
  refine ⟨reach_staleFront (by decide) (by decide) (by decide) (by decide) ?_, ?_⟩ <;>
    decide +kernel

end ShmAlloc
