import ShmAlloc.Guarantees.Content

/-!
# Stale data

What can a user read in an object that he has not written there himself?  An allocation clears as
much of the payload as `payload_cap` says, and a relocation everything behind what it copies, up to
the new `payload_cap`; growing in place clears nothing.  So an object shows zeros only, as long as
no call grows an object in place and none hands out a block whose capacity is stale
(`ClearsPayload`).

## What is here

* `Written`: the states of a run together with the payload bytes users have written since their
  objects were allocated.
* `ClearsPayload`: the condition on a call, a predicate on the memory it finds.
* `payloadByte`, `InPayload` and `ClearOrKept`: the bytes of a payload, used or not, and what may
  become of one in a call.
* `CallRun.payload`: **a call that clears what it adds leaves every payload byte clear or as it
  was.**
* `Written.clear`: along a run of such calls, every payload byte that no user has written is zero.
* `no_stale_data`: **in such a run the used bytes of an object that its user has not written are
  zero.**
* `no_stale_data_fails`: growing in place shows what was behind the object, and so does an object in
  a block with a stale capacity.
-/

set_option autoImplicit false

namespace ShmAlloc

open Tiling Links

variable {G : Geometry} {m m' : Mem} {bs bs' pre post : List Blk} {C : Mem → Call → Prop}
  {w : Nat → Nat → Prop} {i k : Nat}

/-! ## Runs that record what users write -/

/-- The call puts a new object into slot `i`. -/
def Call.FillsSlot (c : Call) (m : Mem) (i : Nat) : Prop :=
  (∃ region q outId outOff, c = .alloc region q outId outOff) ∧ c.prog.val m = .ok ∧
    ¬ (entryAt m i).Live ∧ ∀ k, k < i → (entryAt m k).Live

/-- A run leads to the state, and `w i k` says that the `k`-th payload byte of the object in slot
`i` has been written by a user since that object was allocated. -/
inductive Written (G : Geometry) (C : Mem → Call → Prop) : Mem → (Nat → Nat → Prop) → Prop
  | init (m : Mem) (backend nsInode cgroupHash : Nat) (name : Option CStr) :
    Written G C ((regionInit G.size backend G.dirCap name nsInode cgroupHash).mem m)
      fun _ _ => False
  | call {m : Mem} {w : Nat → Nat → Prop} (h : Written G C m w) (c : Call) (hl : Legal G m c)
      (hC : C m c) : Written G C (c.prog.mem m) fun i k => w i k ∧ ¬ c.FillsSlot m i
  | write {m : Mem} {w : Nat → Nat → Prop} (h : Written G C m w) (i k : Nat) (v : UInt8)
      (hi : i < G.dirCap) (ha : (entryAt m i).alive = true) (hk : k < (entryAt m i).used) :
    Written G C (m.store (G.base + (entryAt m i).off + k) 1 v.toNat)
      fun j l => w j l ∨ (j = i ∧ l = k)

theorem Written.reach (h : Written G C m w) : Reach G C m := by
  induction h with
  | init m backend nsInode cgroupHash name => exact .init m backend nsInode cgroupHash name
  | call _ c hl hC ih => exact ih.step (.call c hl hC)
  | write _ i k v hi ha hk ih => exact ih.step (.write i k v hi ha hk)

/-! ## The condition on calls -/

/-- If the call makes a block larger, it is not by growing it in place. -/
def GrowsByMoving (G : Geometry) (m : Mem) : Call → Prop
  | .resize (some r) objId n userId callerPerms =>
    ∀ i, Finds G m objId i → (entryAt m i).access userId callerPerms SHM_PERM_RESIZE = .ok →
      (blkOfSlot G m i).total < blockSize n →
      ¬ GrowsInPlace G m r.size (blkOfSlot G m i) (blockSize n)
  | _ => True

/-- The call clears all payload bytes it adds to an object. -/
def ClearsPayload (G : Geometry) (m : Mem) (c : Call) : Prop :=
  KeepsCapacity G m c ∧ GrowsByMoving G m c

/-! ## Payloads after a call -/

/-- The `k`-th byte of the payload of the object in slot `i`. -/
def payloadByte (G : Geometry) (m : Mem) (i k : Nat) : UInt8 := m (G.base + (entryAt m i).off + k)

/-- The payload of the object in slot `i` has a `k`-th byte, used or not. -/
def InPayload (G : Geometry) (m : Mem) (i k : Nat) : Prop := k + 56 < (blkOfSlot G m i).total

/-- The payload byte is zero, or it is one the object had before the call. -/
def ClearOrKept (G : Geometry) (m m' : Mem) (c : Call) (i k : Nat) : Prop :=
  payloadByte G m' i k = 0 ∨ (entryAt m i).alive = true ∧ ¬ c.FillsSlot m i ∧ InPayload G m i k ∧
    payloadByte G m' i k = payloadByte G m i k

theorem Holds.payloadByte {b : Blk} (hh : Holds G m i b) (k : Nat) :
    payloadByte G m i k = m (G.base + b.off + 56 + k) := by
  rw [ShmAlloc.payloadByte, hh.mirrors.off]
  congr 1

/-- **An object no byte of which changes** keeps its payload. -/
theorem payload_of_bytes (h : Inv G m bs) (hi : i < G.dirCap)
    (hx : ∀ x, OfObject G m i x → m' x = m x) (ha : (entryAt m' i).alive = true)
    (hk : InPayload G m' i k) : (entryAt m i).alive = true ∧ InPayload G m i k ∧
      payloadByte G m' i k = payloadByte G m i k := by
  have he : entryAt m' i = entryAt m i := entryAt_congr fun x h1 h2 => hx x (.inl ⟨h1, h2⟩)
  rw [he] at ha
  obtain ⟨pre, b, post, rfl, hh⟩ := h.holds hi ha
  have hb := hh.blkOfSlot h.heap.toRep (by simp)
  have hmin := (h.heap.wf b (by simp)).min
  have hbytes : ∀ x, G.base + b.off ≤ x → x < G.base + b.off + b.total → m' x = m x :=
    fun x h1 h2 => hx x (.inr (by
      show InBlk G (blkOfSlot G m i) x
      rw [hb]
      exact ⟨h1, h2⟩))
  have hblk : blkOfSlot G m' i = b := by
    have hoff : (entryAt m i).off - 56 = b.off := by
      rw [hh.mirrors.off, Nat.add_sub_cancel]
    rw [blkOfSlot, he, hoff]
    exact ((h.heap.blk b (by simp)).congr fun x h1 h2 => hbytes x h1 (by omega)).fields
  rw [InPayload, hblk] at hk
  refine ⟨ha, ?_, ?_⟩
  · rwa [InPayload, hb]
  · rw [ShmAlloc.payloadByte, he, hh.payloadByte, hh.mirrors.off]
    exact hbytes _ (by omega) (by omega)

/-- The block of a slot is the block of the heap at its offset. -/
theorem Inv.blkOfSlot_eq (h : Inv G m bs) {b : Blk} (hb : b ∈ bs)
    (hoff : (entryAt m i).off = b.off + 56) : blkOfSlot G m i = b := by
  rw [blkOfSlot, hoff, Nat.add_sub_cancel]
  exact (h.heap.blk b hb).fields

/-! ## What the paths clear

One lemma for each path; a payload is carried along byte by byte, as a relocation copies one part of
it and clears the other. -/

/-- **A new object is clear**, as far as its capacity goes. -/
theorem alloc_clear {b : Blk} {q : Request} {n : Nat} (hi : i < G.dirCap)
    (hk : k < (taken b (blockSize q.size)).cap) :
    replay (allocEvents G pre b post i n q) m (G.base + b.off + 56 + k) = 0 := by
  have hs := G.slotAddr_lt hi
  have hslot : ∀ {V : List Event}, (∀ x, Writes V x → InSlot i x) →
      ¬ Writes V (G.base + b.off + 56 + k) := fun hV hw => by
    have := (hV _ hw).2
    omega
  rw [allocEvents, replay_append, replay_append,
    replay_of_not_writes (hslot fun x hx => writes_answerEvents hx), bindEvents, replay_append,
    replay_append, replay_of_not_writes (hslot fun x hx => writes_slotEvents hx), zeroEvents,
    replay_cons, Event.act]
  exact Mem.fill_of_inside (by omega) (by omega)

/-- **A resize in place that adds nothing to the block** leaves the payload alone. -/
theorem shrink_keeps {b b' : Blk} {V : List Event} {post' : List Blk} {n : Nat}
    (h : Inv G m (pre ++ b :: post)) (hh : Holds G m i b) (hp : InPlace G m pre b post V b' post')
    (hn : n + 56 ≤ b'.total) (hle : b'.total ≤ b.total)
    (hV : ∀ x, G.base + b.off + 56 ≤ x → x < G.base + b.off + b'.total → ¬ Writes V x)
    (hk : InPayload G (replay (V ++ inPlaceEvents i b'.cap n) m) i k) :
    InPayload G m i k ∧ payloadByte G (replay (V ++ inPlaceEvents i b'.cap n) m) i k
      = payloadByte G m i k := by
  have hs := G.slotAddr_lt hh.lt
  have hbb := h.heap.bounds (b := b) (by simp)
  have hsz := G.size_lt
  have hsz' := G.size_eq
  have he := inPlace_entry_self hh hp (n := n) (by omega)
  have hblk : blkOfSlot G (replay (V ++ inPlaceEvents i b'.cap n) m) i = b' := by
    refine (h.inPlace hh hp hn).blkOfSlot_eq (by simp) ?_
    rw [he, hp.off]
    exact hh.mirrors.off
  rw [InPayload, hblk] at hk
  refine ⟨?_, ?_⟩
  · rw [InPayload, hh.blkOfSlot h.heap.toRep (by simp)]
    omega
  · rw [hh.payloadByte, payloadByte, he]
    show replay _ m (G.base + (entryAt m i).off + k) = _
    rw [hh.mirrors.off, show G.base + (b.off + 56) + k = G.base + b.off + 56 + k by omega]
    refine replay_of_not_writes (fun hw => ?_) m
    rcases writes_append.1 hw with hw | hw
    · exact hV _ (by omega) (by omega) hw
    · have := writes_inPlaceEvents hw
      omega

/-- Where blocks are full, the payload is as large as the capacity in the directory says. -/
theorem InPayload.lt_cap (hk : InPayload G m i k) (h : Inv G m bs) (hfull : FullBlks bs)
    (hi : i < G.dirCap) (ha : (entryAt m i).alive = true) : k < (entryAt m i).cap := by
  have hcov := hfull.coversUse h hi ha
  have h1 := hcov.cap_eq
  have h2 := hcov.full
  rw [InPayload] at hk
  omega

section

variable {sz n : Nat} {b : Blk} {rc : Rc} {W : List Event}

/-- **A resize that does not grow in place** leaves the payload clear or as it was. -/
theorem ResizeRun.payload_self (h : Inv G m (pre ++ b :: post)) (hh : Holds G m i b)
    (hfull : FullBlks (pre ++ b :: post)) (hn : n ≠ 0) (hn' : n ≤ 2 ^ 64 - 64)
    (hC : b.total < blockSize n → ¬ CanGrow G sz b (blockSize n) post → TakesFull G m (blockSize n))
    (hgrow : b.total < blockSize n → ¬ CanGrow G sz b (blockSize n) post)
    (hrun : ResizeRun G sz pre b post i n rc W bs') (ha : (entryAt (replay W m) i).alive = true)
    (hk : InPayload G (replay W m) i k) :
    payloadByte G (replay W m) i k = 0 ∨
      InPayload G m i k ∧ payloadByte G (replay W m) i k = payloadByte G m i k := by
  have hle := le_blockSize n
  have ht := blockSize_ge hn
  have hbm : b ∈ pre ++ b :: post := by simp
  have hD := G.base_ge
  have hcap := hk.lt_cap (hrun.inv h hh hn hn') (hrun.fullBlks h hh.live hn hfull hC) hh.lt ha
  cases hrun with
  | keep hle' hrem =>
    exact .inr (shrink_keeps h hh (InPlace.refl h hh.live) (by omega) (Nat.le_refl _)
      (fun _ _ _ => not_writes_nil _) hk)
  | cut hrem =>
    refine .inr (shrink_keeps h hh (InPlace.cutTail h hh.live ht (blockSize_mod n) hrem) hle
      (by rw [Blk.resized_total]; omega) (fun x h1 h2 hw => ?_) hk)
    rw [Blk.resized_total] at h2
    rcases writes_cutTailEvents hh.live hrem hw with hw | hw | hw | ⟨d, hd, -, hw⟩
    · omega
    · exact h.heap.not_inHdr_of_payload hbm hbm h1 (by omega) hw
    · omega
    · refine h.heap.not_inHdr_of_payload hbm (c := d) ?_ h1 (by omega) hw
      rcases List.mem_append.1 hd with hd | hd <;> simp [hd]
  | grow c cs hpost hlt hcan => exact absurd hcan (hgrow hlt)
  | noRoom hlt hcan hno => exact .inr ⟨hk, rfl⟩
  | move pre₁ f post₁ pre₂ post₂ hlt hcan hr =>
    have he := moving_entry_self (n := n) hr h hbm ht hh.lt (by omega)
    have hbcap := (h.heap.wf b hbm).cap_le
    rw [he] at hcap
    have hbyte := moving_byte (n := n) hr h.heap hbm hh.live ht (blockSize_mod n) hh.lt hcap
    have hpay : payloadByte G (replay (movingEvents G (pre ++ b :: post) pre₁ f post₁ pre₂ post₂ b
        i (blockSize n) n) m) i k = if k < b.cap then m (G.base + b.off + 56 + k) else 0 := by
      rw [← hbyte, payloadByte, he]
      rfl
    rw [hpay]
    split
    · refine .inr ⟨?_, (hh.payloadByte k).symm⟩
      rw [InPayload, hh.blkOfSlot h.heap.toRep hbm]
      omega
    · exact .inl rfl

/-- **A resize of another object** leaves the payload as it was. -/
theorem ResizeRun.payload_other {j : Nat} (h : Inv G m (pre ++ b :: post)) (hh : Holds G m j b)
    (hn : n ≠ 0) (hrun : ResizeRun G sz pre b post j n rc W bs') (hji : j ≠ i) (hi : i < G.dirCap)
    (ha : (entryAt (replay W m) i).alive = true) (hk : InPayload G (replay W m) i k) :
    (entryAt m i).alive = true ∧ InPayload G m i k ∧
      payloadByte G (replay W m) i k = payloadByte G m i k := by
  have he : entryAt (replay W m) i = entryAt m i := entryAt_replay fun x hx hs => by
    have hlt := hs.lt_base hi
    rcases hrun.writes h hh.live hn hx with hx | hx
    · have := hx.ge
      omega
    · exact hji ((hs.eq (j := j) ⟨by omega, by omega⟩).symm)
  obtain ⟨pre', c, post', hbs, hh'⟩ := h.holds hi (he ▸ ha)
  exact payload_of_bytes h hi (fun x hx => replay_of_not_writes
    (not_writes_resize h hh' (by rw [hbs]; simp) hx hh hji hn hrun) m) ha hk

end

/-- **`shm_block_set_perms`** leaves payloads alone. -/
theorem setPerms_keeps {b : Blk} {j l : Nat} (h : Inv G m (pre ++ b :: post)) (hh : Holds G m j b)
    (hf : Finds G m b.id l) (hi : i < G.dirCap) (p : UInt32)
    (ha : (entryAt (replay (setPermsEvents G b l p) m) i).alive = true)
    (hk : InPayload G (replay (setPermsEvents G b l p) m) i k) :
    (entryAt m i).alive = true ∧ InPayload G m i k ∧
      payloadByte G (replay (setPermsEvents G b l p) m) i k = payloadByte G m i k := by
  have he : (entryAt (replay (setPermsEvents G b l p) m) i).alive = (entryAt m i).alive ∧
      (entryAt (replay (setPermsEvents G b l p) m) i).off = (entryAt m i).off := by
    by_cases hil : i = l
    · subst hil
      rw [setPerms_entry_self hi]
      exact ⟨rfl, rfl⟩
    · rw [setPerms_entry_other hi hil]
      exact ⟨rfl, rfl⟩
  rw [he.1] at ha
  obtain ⟨pre', c, post', hbs, hh'⟩ := h.holds hi ha
  have hc : c ∈ pre ++ b :: post := by rw [hbs]; simp
  have hI := h.setPerms hh.live hf.lt (p := p)
  -- the block is still there, with other permissions perhaps
  obtain ⟨d, hd, hoff, htotal⟩ : ∃ d ∈ pre ++ b.permitted p :: post, d.off = c.off ∧
      d.total = c.total := by
    simp only [List.mem_append, List.mem_cons] at hc ⊢
    rcases hc with hc | rfl | hc
    · exact ⟨c, .inl hc, rfl, rfl⟩
    · exact ⟨c.permitted p, .inr (.inl rfl), rfl, rfl⟩
    · exact ⟨c, .inr (.inr hc), rfl, rfl⟩
  have hmem : c ∈ pre ++ b :: post := by rw [hbs]; simp
  rw [InPayload, hI.blkOfSlot_eq hd (by rw [he.2, hh'.mirrors.off, hoff]), htotal] at hk
  refine ⟨ha, ?_, ?_⟩
  · rwa [InPayload, hh'.blkOfSlot h.heap.toRep hmem]
  · rw [payloadByte, payloadByte, he.2, hh'.mirrors.off]
    refine replay_of_not_writes (fun hw => ?_) m
    rcases writes_setPermsEvents hw with hw | hw
    · have hbm : b ∈ pre ++ b :: post := by simp
      exact h.heap.not_inHdr_of_payload (x := G.base + (c.off + 56) + k) hmem hbm (by omega)
        (by omega) ⟨by omega, by omega⟩
    · have := G.slotAddr_lt hf.lt
      omega

/-- **A call that clears what it adds** leaves every payload byte clear or as it was. -/
theorem CallRun.payload {c : Call} {rc : Rc} {W : List Event} (h : Inv G m bs)
    (hfull : FullBlks bs) (hC : ClearsPayload G m c) (hrun : CallRun G m bs c rc W bs')
    (hrc : c.prog.val m = rc) (hi : i < G.dirCap) (ha : (entryAt (replay W m) i).alive = true)
    (hk : InPayload G (replay W m) i k) : ClearOrKept G m (replay W m) c i k := by
  have hlt := fun hfull' => hk.lt_cap (hrun.inv h) hfull' hi ha
  have hcap := hlt (hrun.fullBlks h hfull hC.1)
  cases hrun with
  | refused hne hW =>
    rw [replay_refused hW] at ha hk ⊢
    exact .inr ⟨ha, fun hf => hne (hrc.symm.trans hf.2.1), hk, rfl⟩
  | alloc ht =>
    rename_i pre b post j q r
    rw [replay_locked] at ha hk hcap ⊢
    by_cases hji : j = i
    · subst hji
      rw [entryAt_alloc h ht] at hcap
      refine .inl ?_
      rw [payloadByte, entryAt_alloc h ht]
      exact alloc_clear hi hcap
    · have ha' := ha
      rw [entryAt_alloc_other h ht hi (Ne.symm hji)] at ha'
      obtain ⟨pre', c, post', hbs, hh⟩ := h.holds hi ha'
      obtain ⟨-, hk, hb⟩ := payload_of_bytes h hi (fun x hx => replay_of_not_writes
        (not_writes_allocEvents h hh (by rw [hbs]; simp) hx ht hji) m) ha hk
      refine .inr ⟨ha', fun hf => ?_, hk, hb⟩
      -- the slot filled is the first one that holds no object
      rcases Nat.lt_or_gt_of_ne hji with hlt | hlt
      · exact ht.slot_free (hf.2.2.2 j hlt)
      · exact hf.2.2.1 (ht.slot_first i hlt)
  | free hf hh hacc =>
    rename_i pre b post j objId r userId callerPerms
    rw [replay_locked] at ha hk ⊢
    have hji : j ≠ i := by
      rintro rfl
      exact Bool.noConfusion ((free_entry_self m).symm.trans ha)
    have ha' := ha
    rw [free_entry_other hi (Ne.symm hji)] at ha'
    obtain ⟨pre', c, post', hbs, hh'⟩ := h.holds hi ha'
    obtain ⟨-, hk, hb⟩ := payload_of_bytes h hi (fun x hx => replay_of_not_writes
      (not_writes_freeEvents h hh' (by rw [hbs]; simp) hx hh hji) m) ha hk
    refine .inr ⟨ha', ?_, hk, hb⟩
    rintro ⟨⟨_, _, _, _, hc⟩, -⟩
    cases hc
  | resize hf hh hacc hn hn' hrun =>
    rename_i pre b post j objId n r userId callerPerms V
    rw [replay_locked] at ha hk ⊢
    have hb := hh.blkOfSlot h.heap.toRep (by simp)
    have hno : ∀ k, ¬ (Call.resize (some r) objId n userId callerPerms).FillsSlot m k := by
      rintro k ⟨⟨_, _, _, _, hc⟩, -⟩
      cases hc
    by_cases hji : j = i
    · subst hji
      refine (hrun.payload_self h hh hfull hn hn' (fun hlt hcan => ?_) (fun hlt => ?_) ha hk).imp id
        fun hkept => ⟨hh.alive, hno _, hkept⟩
      · refine hC.1 j hf hacc (by rwa [hb]) ?_
        rwa [hb, h.heap.toRep.growsInPlace]
      · have := hC.2 j hf hacc (by rwa [hb])
        rwa [hb, h.heap.toRep.growsInPlace] at this
    · obtain ⟨ha, hk, hbyte⟩ := hrun.payload_other h hh hn hji hi ha hk
      exact .inr ⟨ha, hno _, hk, hbyte⟩
  | setPerms hh hf hacc =>
    rename_i pre b post j k' r userId callerPerms newPerms
    rw [replay_locked] at ha hk ⊢
    obtain ⟨ha, hk, hb⟩ := setPerms_keeps h hh hf hi newPerms ha hk
    refine .inr ⟨ha, ?_, hk, hb⟩
    rintro ⟨⟨_, _, _, _, hc⟩, -⟩
    cases hc

/-! ## Along a run -/

/-- Every payload byte that no user has written is zero. -/
def Clear (G : Geometry) (m : Mem) (w : Nat → Nat → Prop) : Prop :=
  ∀ i k, i < G.dirCap → (entryAt m i).alive = true → InPayload G m i k → ¬ w i k →
    payloadByte G m i k = 0

/-- Used bytes are payload bytes. -/
theorem Holds.inPayload {b : Blk} (hh : Holds G m i b) (h : Inv G m bs) (hb : b ∈ bs)
    (hk : k < (entryAt m i).used) : InPayload G m i k := by
  have hused := hh.mirrors.used
  rw [InPayload, hh.blkOfSlot h.heap.toRep hb]
  omega

/-- **A write changes the byte it names**, and no other payload byte. -/
theorem payload_write {j l : Nat} (v : UInt8) (h : Inv G m bs) (hj : j < G.dirCap)
    (hja : (entryAt m j).alive = true) (hl : l < (entryAt m j).used) (hi : i < G.dirCap)
    (ha : (entryAt (m.store (G.base + (entryAt m j).off + l) 1 v.toNat) i).alive = true)
    (hk : InPayload G (m.store (G.base + (entryAt m j).off + l) 1 v.toNat) i k)
    (hne : ¬ (i = j ∧ k = l)) :
    (entryAt m i).alive = true ∧ InPayload G m i k ∧
      payloadByte G (m.store (G.base + (entryAt m j).off + l) 1 v.toNat) i k
        = payloadByte G m i k := by
  have hI := h.write hj hja hl v.toNat
  have he : entryAt (m.store (G.base + (entryAt m j).off + l) 1 v.toNat) i = entryAt m i :=
    entryAt_congr fun x h1 h2 => Mem.store_of_outside (.inl (by
      have := G.slotAddr_lt hi
      omega))
  rw [he] at ha
  obtain ⟨pre, b, post, rfl, hh⟩ := h.holds hi ha
  obtain ⟨pre', c, post', hbs, hh'⟩ := h.holds hj hja
  have hb : b ∈ pre ++ b :: post := by simp
  have hc : c ∈ pre ++ b :: post := by rw [hbs]; simp
  rw [InPayload, hI.blkOfSlot_eq hb (by rw [he, hh.mirrors.off])] at hk
  refine ⟨ha, by rwa [InPayload, hh.blkOfSlot h.heap.toRep hb], ?_⟩
  rw [payloadByte, payloadByte, he]
  refine Mem.store_of_outside ?_
  by_contra hin
  -- the byte is in both payloads, so the object is the same, and so is the byte
  have hpay := hh'.payload hl
  have hoff := hh.mirrors.off
  have hbc : c = b := h.heap.eq_of_inBlk hc hb (x := G.base + (entryAt m i).off + k)
    ⟨by omega, by omega⟩ ⟨by omega, by omega⟩
  by_cases hij : i = j
  · subst hij
    exact hne ⟨rfl, by omega⟩
  · exact hh.blk_ne h hh' (Ne.symm hij) hbc

/-- **In a run whose calls clear what they add** every payload byte that no user has written is
zero. -/
theorem Written.clear (h : Written G (ClearsPayload G) m w) : Clear G m w := by
  induction h with
  | init m backend nsInode cgroupHash name =>
    intro i k hi ha
    rw [(exec_regionInit G m backend nsInode cgroupHash name).mem, entryAt_init hi] at ha
    exact Bool.noConfusion ha
  | call hw c hl hC ih =>
    intro i k hi ha hk hnw
    obtain ⟨bs, hI, hfull⟩ := (hw.reach.mono fun _ _ hC => hC.1).fullBlks
    obtain ⟨rc, W, bs', hrun, hx⟩ := callRun hI hl
    rw [hx.mem] at ha hk ⊢
    rcases hrun.payload hI hfull hC hx.val hi ha hk with hzero | ⟨ha', hfill, hk', hkept⟩
    · exact hzero
    · rw [hkept]
      exact ih i k hi ha' hk' fun hwik => hnw ⟨hwik, hfill⟩
  | write hw j l v hj hja hl ih =>
    intro i k hi ha hk hnw
    rw [not_or] at hnw
    obtain ⟨bs, hI⟩ := hw.reach.inv
    obtain ⟨ha', hk', hkept⟩ := payload_write v hI hj hja hl hi ha hk hnw.2
    rw [hkept]
    exact ih i k hi ha' hk' hnw.1

/-- **No stale data is exposed**, as long as no call grows an object in place or hands out a block
whose capacity is stale: the used bytes of an object that no user has written since the object was
allocated are zero. -/
theorem no_stale_data (h : Written G (ClearsPayload G) m w) (hi : i < G.dirCap)
    (ha : (entryAt m i).alive = true) (hk : k < (entryAt m i).used) (hw : ¬ w i k) :
    m (G.base + (entryAt m i).off + k) = 0 := by
  obtain ⟨bs, hI⟩ := h.reach.inv
  obtain ⟨pre, b, post, rfl, hh⟩ := hI.holds hi ha
  exact h.clear i k hi ha (hh.inPayload hI (by simp) hk) hw

/-! ## Runs on one page -/

theorem written_fresh (G : Geometry) (C : Mem → Call → Prop) :
    Written G C (freshMem G) fun _ _ => False := .init ..

/-- An object of 8 bytes that has moved to hold 100 shows a zero in between. -/
theorem no_stale_data_page : (resizes 1 100).prog.mem (twoObjects 8 8) (pageGeometry.base +
    (entryAt ((resizes 1 100).prog.mem (twoObjects 8 8)) 0).off + 50) = 0 := by
  have h1 := (written_fresh pageGeometry (ClearsPayload pageGeometry)).call (asks 8)
    (legal_alloc (r := pageHandle) (inv_fresh pageGeometry).toInv rfl (by decide) (by decide))
    ⟨fun _ _ => by decide +kernel, trivial⟩
  obtain ⟨bs, hI⟩ := h1.reach.inv
  have h2 := h1.call (asks 8) (legal_alloc (r := pageHandle) hI rfl (by decide) (by decide))
    ⟨fun _ _ => by decide +kernel, trivial⟩
  have hmove : ClearsPayload pageGeometry (twoObjects 8 8) (resizes 1 100) := by
    refine ⟨fun _ _ _ _ _ => by decide +kernel, fun i hf _ _ => ?_⟩
    have hfirst : Finds pageGeometry (twoObjects 8 8) 1 0 :=
      ⟨by decide, by decide +kernel, by decide +kernel, fun k hk => absurd hk (Nat.not_lt_zero k)⟩
    obtain rfl := hf.unique hfirst
    decide +kernel
  have h3 := h2.call (resizes 1 100)
    (legal_resize (by decide) (by decide) (by decide +kernel)) hmove
  refine no_stale_data h3 (by decide) (by decide +kernel) (by decide +kernel) ?_
  rintro ⟨⟨⟨hw, -⟩, -⟩, -⟩
  exact hw

/-- **Growing in place shows what was behind the object**, the size in the old neighbour's header
for one; **and so does an object in a block with a stale capacity.** -/
theorem no_stale_data_fails :
    (∃ w, Written pageGeometry AnyCall ((resizes 1 100).prog.mem
        ((asks 8).prog.mem (freshMem pageGeometry))) w ∧ ¬ w 0 48 ∧
      (entryAt ((resizes 1 100).prog.mem ((asks 8).prog.mem (freshMem pageGeometry))) 0).used
        = 100 ∧
      payloadByte pageGeometry ((resizes 1 100).prog.mem
        ((asks 8).prog.mem (freshMem pageGeometry))) 0 48 ≠ 0) ∧
    ∃ w, Written pageGeometry AnyCall ((asks 3648).prog.mem mergedPage) w ∧ ¬ w 0 48 ∧
      (entryAt ((asks 3648).prog.mem mergedPage) 0).used = 3648 ∧
      payloadByte pageGeometry ((asks 3648).prog.mem mergedPage) 0 48 ≠ 0 := by
  have h1 := (written_fresh pageGeometry AnyCall).call (asks 8)
    (legal_alloc (r := pageHandle) (inv_fresh pageGeometry).toInv rfl (by decide) (by decide))
    trivial
  obtain ⟨bs, hI⟩ := h1.reach.inv
  have h2 := h1.call (frees 1) (legal_free (r := pageHandle) hI rfl (by decide) 7 0xF) trivial
  obtain ⟨bs', hI'⟩ := h2.reach.inv
  refine ⟨⟨_, h1.call (resizes 1 100)
    (legal_resize (by decide) (by decide) (by decide +kernel)) trivial, ?_, ?_⟩,
    ⟨_, h2.call (asks 3648)
      (legal_alloc (r := pageHandle) hI' rfl (by decide) (by decide)) trivial, ?_, ?_⟩⟩
  · rintro ⟨⟨hw, -⟩, -⟩
    exact hw
  · decide +kernel
  · rintro ⟨⟨⟨hw, -⟩, -⟩, -⟩
    exact hw
  · decide +kernel

end ShmAlloc
