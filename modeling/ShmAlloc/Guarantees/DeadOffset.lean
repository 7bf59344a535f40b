import ShmAlloc.Guarantees.Capability
import ShmAlloc.Heap.Vacant
import ShmAlloc.Region.Raw
import Mathlib.Logic.Relation

/-!
# Dead offsets

The payload offset of an object that was freed, or moved by a resize, stays dead until the allocator
hands memory out again.  What frees blocks keeps the place vacant (`Vacant`), and everything else
that may happen until then writes live blocks, the region header and the directory.

## What is here

* `DeadOffset`: nothing can be reached through the offset, by anyone: neither its address, nor its
  header, nor a capability.
* `deadOffset_of_vacant`: a vacant place is one.
* `Call.Quiet`, `QuietStep` and `QuietRun`: steps that hand out no memory.  Among them are frees,
  changes of permissions, lookups, iteration over the directory and users' writes.
* `QuietStep.vacant`: **a quiet step keeps vacant places vacant.**
* `Vacates` and `Vacates.vacant`: a successful free, or a resize that moves the object, vacates the
  offset.
* `freed_offset_dead`: **the offset is dead from then on, until memory is handed out again.**
-/

set_option autoImplicit false

namespace ShmAlloc

open Tiling Links

variable {G : Geometry} {m m' : Mem} {bs bs' pre post : List Blk} {o : Nat}

/-- Nothing can be reached through the offset, by anyone. -/
structure DeadOffset (m : Mem) (o : Nat) : Prop where
  ptr : ∀ region userId callerPerms required,
    (shmPtr region o userId callerPerms required).val m = none
  setPerms : ∀ region userId callerPerms newPerms,
    (shmBlockSetPerms region o userId callerPerms newPerms).val m = .einval
  derive : ∀ region userId callerPerms grant,
    (shmCapDerive region o userId callerPerms grant).val m = SHM_CAP_NULL
  deref : ∀ region cap required, cap.addr = o → (shmCapDeref region cap required).val m = none
  valid : ∀ region cap, cap.addr = o → (shmCapIsValid region cap).val m = false

/-- **An offset is dead if no header of an allocated block is read there.** -/
theorem deadOffset_of_not_passes (h : ∀ r, ¬ PassesLive r m (hdrOf m o)) : DeadOffset m o := by
  have hvalid : ∀ region cap, cap.addr = o → (shmCapIsValid region cap).val m = false := by
    rintro region cap rfl
    cases region with
    | none =>
      rw [shmCapIsValid]
      split <;> rfl
    | some r =>
      rw [← Bool.not_eq_true, val_shmCapIsValid]
      exact fun hv => h r hv.2.1
  refine ⟨fun region _ _ _ => ?_, fun region _ _ _ => ?_,
    fun region userId callerPerms grant => ?_, fun region cap required ho => ?_, hvalid⟩
  · cases region with
    | none => rfl
    | some r => rw [val_shmPtr, if_neg fun hp => h r hp.1]
  · cases region with
    | none => rfl
    | some r => exact val_shmBlockSetPerms_of_not_live (h r) _ _ _
  · cases region with
    | none => rfl
    | some r =>
      rcases val_shmCapDerive r m o userId callerPerms grant with ⟨hp, -⟩ | ⟨-, hv⟩
      · exact absurd hp.live (h r)
      · exact hv
  · by_contra hderef
    have hv := isValid_of_deref hderef
    rw [hvalid region cap ho] at hv
    exact Bool.noConfusion hv

/-- The offset of a vacant place is dead. -/
theorem deadOffset_of_vacant (h : Inv G m bs) (hv : Vacant G m bs o) : DeadOffset m (o + 56) := by
  have hhdr : hdrOf m (o + 56) = G.base + o := by
    rw [← val_blkOfPoff]
    exact (exec_blkOfPoff h.layout (hv.bounds h.heap.toRep)).val
  refine deadOffset_of_not_passes fun r hp => ?_
  rw [hhdr] at hp
  rcases hv.not_header h.heap.toRep with hmagic | hfree
  · exact hmagic hp.magic
  · exact hp.allocated hfree

/-! ## Runs

Users may write anywhere in the payload of a live block, not only in the bytes that are in use, so
the runs here are more than those of `Reach`. -/

/-- The states reached from a freshly initialised region by completed calls, and by users that write
anywhere in the payload of a live block. -/
inductive PayloadReach (G : Geometry) : Mem → Prop
  | init (m : Mem) (backend nsInode cgroupHash : Nat) (name : Option CStr) :
    PayloadReach G ((regionInit G.size backend G.dirCap name nsInode cgroupHash).mem m)
  | call {m : Mem} (h : PayloadReach G m) (c : Call) (hl : Legal G m c) :
    PayloadReach G (c.prog.mem m)
  | write {m : Mem} (h : PayloadReach G m) (i k : Nat) (v : UInt8) (hi : i < G.dirCap)
      (ha : (entryAt m i).alive = true) (hk : k + 56 < (blkOfSlot G m i).total) :
    PayloadReach G (m.store (G.base + (entryAt m i).off + k) 1 v.toNat)

/-- A write into the payload of a live block. -/
theorem Inv.payload_write {i k : Nat} (h : Inv G m bs) (hi : i < G.dirCap)
    (ha : (entryAt m i).alive = true) (hk : k + 56 < (blkOfSlot G m i).total) (v : Nat) :
    ∃ b ∈ bs, b.live = true ∧
      ∀ x, Writes [.store (G.base + (entryAt m i).off + k) 1 v] x →
        G.base + b.off + 56 ≤ x ∧ x < G.base + b.off + b.total := by
  obtain ⟨pre, b, post, rfl, hh⟩ := h.holds hi ha
  rw [hh.blkOfSlot h.heap.toRep (by simp)] at hk
  refine ⟨b, by simp, hh.live, fun x hx => ?_⟩
  have hoff := hh.mirrors.off
  simp only [writes_cons, not_writes_nil, Event.Touches, or_false] at hx
  omega

theorem PayloadReach.inv (h : PayloadReach G m) : ∃ bs, Inv G m bs := by
  induction h with
  | init m backend nsInode cgroupHash name =>
    rw [(exec_regionInit G m backend nsInode cgroupHash name).mem]
    exact ⟨_, (fullInv_init m).toInv⟩
  | call _ c hl ih =>
    obtain ⟨bs, hI⟩ := ih
    obtain ⟨rc, W, bs', hrun, hx⟩ := callRun hI hl
    rw [hx.mem]
    exact ⟨bs', hrun.inv hI⟩
  | write _ i k v hi ha hk ih =>
    obtain ⟨bs, hI⟩ := ih
    obtain ⟨b, hb, -, hW⟩ := hI.payload_write hi ha hk v.toNat
    exact ⟨bs, hI.scribble hb hW⟩

/-- The states of the other runs are among these. -/
theorem Reach.payload {C : Mem → Call → Prop} (h : Reach G C m) : PayloadReach G m := by
  induction h with
  | init m backend nsInode cgroupHash name => exact .init m backend nsInode cgroupHash name
  | step h hs ih =>
    cases hs with
    | call c hl _ => exact ih.call c hl
    | write i k v hi ha hk =>
      obtain ⟨bs, hI⟩ := h.inv
      obtain ⟨pre, b, post, rfl, hh⟩ := hI.holds hi ha
      refine ih.write i k v hi ha ?_
      rw [hh.blkOfSlot hI.heap.toRep (by simp)]
      have := hh.mirrors.used
      omega

/-- A call that hands out no memory. -/
def Call.Quiet : Call → Prop
  | .free .. | .setPerms .. => True
  | _ => False

/-- One step that hands out no memory: a free, a change of permissions, a lookup, a step of an
iteration over the directory, or a write into the payload of a live block. -/
inductive QuietStep (G : Geometry) (m : Mem) : Mem → Prop
  | call (c : Call) (hl : Legal G m c) (hq : c.Quiet) : QuietStep G m (c.prog.mem m)
  | lookup (region : Option Region) (objId : Nat) (userId callerPerms : UInt32)
      (outOff outUsedSize : Bool) :
    QuietStep G m ((shmLookup region objId userId callerPerms outOff outUsedSize).mem m)
  | lookupByName (region : Option Region) (name : Option CStr) (userId callerPerms : UInt32)
      (outId outOff : Bool) :
    QuietStep G m ((shmLookupByName region name userId callerPerms outId outOff).mem m)
  | dirNext (region : Option Region) (cursor : Option Nat) (out : Bool) :
    QuietStep G m ((shmDirNext region cursor out).mem m)
  | write (i k : Nat) (v : UInt8) (hi : i < G.dirCap) (ha : (entryAt m i).alive = true)
      (hk : k + 56 < (blkOfSlot G m i).total) :
    QuietStep G m (m.store (G.base + (entryAt m i).off + k) 1 v.toNat)

/-- Any number of quiet steps. -/
abbrev QuietRun (G : Geometry) : Mem → Mem → Prop := Relation.ReflTransGen (QuietStep G)

/-! ## What a quiet step keeps -/

/-- **A free vacates the freed block**, and keeps vacant places vacant. -/
theorem vacant_free {b : Blk} {i : Nat} (h : Inv G m (pre ++ b :: post)) (hh : Holds G m i b)
    (hv : o = b.off ∨ Vacant G m (pre ++ b :: post) o) :
    Vacant G (replay (freeEvents G pre b post i) m) (insertFree pre b.freed post) o := by
  rw [freeEvents, replay_append]
  exact (vacant_release h.heap hh.live hv _ _).of_header_writes (h.heap.release hh.live _ _).toRep
    fun x hx => .inl ((writes_clearSlotEvents hx).lt_base hh.lt).2

/-- Setting permissions keeps vacant places vacant. -/
theorem Vacant.setPerms {b : Blk} {j : Nat} (hv : Vacant G m (pre ++ b :: post) o)
    (h : Inv G m (pre ++ b :: post)) (hb : b.live = true) (hj : j < G.dirCap) (p : UInt32) :
    Vacant G (replay (setPermsEvents G b j p) m) (pre ++ b.permitted p :: post) o := by
  refine hv.frame (fun d hd hl => ⟨d, ?_, hl, rfl, Nat.le_refl _⟩) fun d hd _ =>
    h.heap.agree_payload (fun x hx => ?_) hd
  · rcases mem_of_free hd hl hb with hd | hd <;> simp [hd]
  · have hs := G.slotAddr_lt hj
    rcases writes_setPermsEvents hx with hx | hx
    · exact .inr ⟨b, by simp, by omega, by omega⟩
    · exact .inl (by omega)

/-- **A quiet step keeps vacant places vacant.** -/
theorem QuietStep.vacant (hs : QuietStep G m m') (h : Inv G m bs) (hv : Vacant G m bs o) :
    ∃ bs', Inv G m' bs' ∧ Vacant G m' bs' o := by
  cases hs with
  | call c hl hq =>
    obtain ⟨rc, W, bs', hrun, hx⟩ := callRun h hl
    rw [hx.mem]
    refine ⟨bs', hrun.inv h, ?_⟩
    cases hrun with
    | refused hrc hW => rwa [replay_refused hW]
    | alloc ht => exact hq.elim
    | resize hf hh hacc hn hn' hrun => exact hq.elim
    | free hf hh hacc =>
      rw [replay_append, replay_lockEvents]
      exact vacant_free h hh (.inr hv)
    | setPerms hh hf hacc =>
      rw [replay_append, replay_lockEvents]
      exact hv.setPerms h hh.live hf.lt _
  | lookup region objId userId callerPerms outOff outUsedSize =>
    rw [WritesNothing.mem (writesNothing_shmLookup _ _ _ _ _ _)]
    exact ⟨bs, h, hv⟩
  | lookupByName region name userId callerPerms outId outOff =>
    rw [WritesNothing.mem (writesNothing_shmLookupByName _ _ _ _ _ _)]
    exact ⟨bs, h, hv⟩
  | dirNext region cursor out =>
    rw [(readsOnly_shmDirNext region cursor out m).mem]
    exact ⟨bs, h, hv⟩
  | write i k v hi ha hk =>
    obtain ⟨b, hb, hl, hW⟩ := h.payload_write hi ha hk v.toNat
    have hlive : ∀ x, Writes [.store (G.base + (entryAt m i).off + k) 1 v.toNat] x →
        x < G.base ∨ ∃ c ∈ bs, c.live = true ∧ InBlk G c x := fun x hx => by
      have hx' := hW x hx
      exact .inr ⟨b, hb, hl, by omega, hx'.2⟩
    exact ⟨bs, h.scribble hb hW, hv.of_live_writes h.heap.toRep hlive⟩

theorem QuietRun.vacant (hrun : QuietRun G m m') (h : Inv G m bs) (hv : Vacant G m bs o) :
    ∃ bs', Inv G m' bs' ∧ Vacant G m' bs' o := by
  induction hrun with
  | refl => exact ⟨bs, h, hv⟩
  | tail _ hs ih =>
    obtain ⟨bs₁, h₁, hv₁⟩ := ih
    exact hs.vacant h₁ hv₁

/-! ## What vacates an offset -/

/-- A successful call takes the object at payload offset `o` away from there: it frees the object,
or it resizes it and moves it. -/
inductive Vacates (G : Geometry) (m : Mem) (o : Nat) : Mem → Prop
  | free (region : Option Region) (objId i : Nat) (userId callerPerms : UInt32)
      (hl : Legal G m (.free region objId userId callerPerms)) (hf : Finds G m objId i)
      (hoff : (entryAt m i).off = o)
      (hok : (shmFree region objId userId callerPerms).val m = .ok) :
    Vacates G m o ((shmFree region objId userId callerPerms).mem m)
  | move (region : Option Region) (objId i n : Nat) (userId callerPerms : UInt32)
      (hl : Legal G m (.resize region objId n userId callerPerms)) (hf : Finds G m objId i)
      (hoff : (entryAt m i).off = o)
      (hok : (shmResize region objId n userId callerPerms).val m = .ok)
      (hmoved : (entryAt ((shmResize region objId n userId callerPerms).mem m) i).off ≠ o) :
    Vacates G m o ((shmResize region objId n userId callerPerms).mem m)

/-- A relocation vacates the old block. -/
theorem vacant_moving {b f : Blk} {i t n : Nat} {pre₁ post₁ pre₂ post₂ : List Blk}
    (hr : Relocates bs b t pre₁ f post₁ pre₂ post₂) (h : Inv G m bs) (hb : b ∈ bs)
    (hl : b.live = true) (hi : i < G.dirCap) (ht : 64 ≤ t) (ht8 : t % 8 = 0) :
    Vacant G (replay (movingEvents G bs pre₁ f post₁ pre₂ post₂ b i t n) m)
      (insertFree pre₂ b.freed post₂) b.off := by
  have hmoved := hr.moved_heap (liveBytes bs) (liveBlks bs).length h.heap hb hl ht ht8
  have hs := G.slotAddr_lt hi
  have hv := (vacant_release hmoved hl (.inl rfl) (liveBytes bs + (taken f t).total)
    ((liveBlks bs).length + 1)).of_header_writes
    (W := retargetEvents i f.off (taken f t).cap ++ finishEvents i n)
    (hmoved.release hl _ _).toRep fun x hx => .inl (by
      have := writes_retarget_finish hx
      omega)
  rw [movingEvents_eq]
  simpa only [replay_append] using hv

theorem Vacates.vacant (hvac : Vacates G m o m') (h : Inv G m bs) :
    ∃ bs' p, o = p + 56 ∧ Inv G m' bs' ∧ Vacant G m' bs' p := by
  cases hvac with
  | free region objId i userId callerPerms hl hf hoff hok =>
    obtain ⟨rc, W, bs', hrun, hx⟩ := callRun h hl
    have hrc : rc = .ok := hx.val.symm.trans hok
    have hmem : (shmFree region objId userId callerPerms).mem m = replay W m := hx.mem
    have hI' := hrun.inv h
    rw [hmem]
    cases hrun with
    | refused hno hW => exact absurd hrc hno
    | free hf' hh hacc =>
      rename_i pre b post j r
      obtain rfl := hf'.unique hf
      refine ⟨_, b.off, hoff.symm.trans hh.mirrors.off, hI', ?_⟩
      rw [replay_append, replay_lockEvents]
      exact vacant_free h hh (.inl rfl)
  | move region objId i n userId callerPerms hl hf hoff hok hmoved =>
    obtain ⟨rc, W, bs', hrun, hx⟩ := callRun h hl
    have hrc : rc = .ok := hx.val.symm.trans hok
    have hmem : (shmResize region objId n userId callerPerms).mem m = replay W m := hx.mem
    have hI' := hrun.inv h
    rw [hmem] at hmoved ⊢
    cases hrun with
    | refused hno hW => exact absurd hrc hno
    | resize hf' hh hacc hn hn' hrun =>
      rename_i pre b post j r V
      obtain rfl := hf'.unique hf
      rw [replay_append, replay_lockEvents] at hmoved hI' ⊢
      rcases hrun.inPlace_of_ok h hh.live hn with ⟨hne, -⟩ |
        ⟨V, b', post', rfl, rfl, -, hp, ht⟩ | ⟨pre₁, f, post₁, pre₂, post₂, -, hr, rfl, rfl⟩
      · exact absurd hrc hne
      · -- what was resized in place has not moved
        rw [inPlace_entry_self hh hp (by omega)] at hmoved
        exact absurd hoff hmoved
      · exact ⟨_, b.off, hoff.symm.trans hh.mirrors.off, hI',
          vacant_moving hr h (by simp) hh.live hh.lt (blockSize_ge hn) (blockSize_mod n)⟩

/-- **The offset of a freed or moved object is dead** until memory is handed out again, whoever asks
and whatever else is freed in the meantime. -/
theorem freed_offset_dead {m₁ m₂ : Mem} (h : PayloadReach G m) (hvac : Vacates G m o m₁)
    (hrun : QuietRun G m₁ m₂) : DeadOffset m₂ o := by
  obtain ⟨bs, hI⟩ := h.inv
  obtain ⟨bs₁, p, rfl, hI₁, hv₁⟩ := hvac.vacant hI
  obtain ⟨bs₂, hI₂, hv₂⟩ := hrun.vacant hI₁ hv₁
  exact deadOffset_of_vacant hI₂ hv₂

/-- Two objects side by side. -/
def pairPage : Mem := (asks 16).prog.mem (firstMem pageGeometry pageHandle eightBytes)

/-- The first is freed, and then the second, which merges the two blocks. -/
theorem freed_offset_dead_page :
    DeadOffset ((frees 2).prog.mem ((frees 1).prog.mem pairPage)) 56 := by
  have hreach : Reach pageGeometry AnyCall pairPage :=
    (page_reach.mono fun _ _ _ => trivial).alloc rfl (by decide) (by decide) trivial
  obtain ⟨bs, hI⟩ := hreach.inv
  have hreach₁ : Reach pageGeometry AnyCall ((frees 1).prog.mem pairPage) :=
    hreach.free rfl (by decide) trivial
  obtain ⟨bs₁, hI₁⟩ := hreach₁.inv
  have hf : Finds pageGeometry pairPage 1 0 :=
    ⟨by decide, by decide +kernel, by decide +kernel, fun k hk => absurd hk (Nat.not_lt_zero k)⟩
  exact freed_offset_dead hreach.payload
    (.free (some pageHandle) 1 0 7 0xF (legal_free hI rfl (by decide) 7 0xF) hf (by decide +kernel)
      (by decide +kernel))
    (.single (.call (frees 2) (legal_free hI₁ rfl (by decide) 7 0xF) trivial))

end ShmAlloc
