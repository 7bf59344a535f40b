import ShmAlloc.Guarantees.Mirror

/-!
# Isolation of objects

A call changes no byte of an object, neither its slot nor its block, unless it is directed at that
object by somebody who may do what it does.

## What is here

* `MayAccess` and `Entry.access_eq_ok`: **the access check grants exactly this**: the caller holds
  `ADMIN`, or owns the object and has the permission both from the object and by himself.
* `Authorised`: the call is directed at the object in slot `i`, and its caller may do what it does.
* `OfObject`: the bytes of an object, its slot and its whole block.
* `CallRun.not_writes`: a call that is not authorised for an object writes none of its bytes, from
  one lemma for each kind of call.
* `isolation`: **the same of a completed call in a reachable state**, in terms of the memory it
  leaves.
-/

set_option autoImplicit false

namespace ShmAlloc

open Tiling Links

variable {G : Geometry} {m m' : Mem} {bs pre post : List Blk}

/-! ## Authority -/

/-- The caller holds `ADMIN`, or owns the object and has the required permission both in the
object's permissions and in his own. -/
def MayAccess (e : Entry) (caller callerPerms required : UInt32) : Prop :=
  callerPerms &&& SHM_PERM_ADMIN ≠ 0 ∨
    caller.toNat = e.owner ∧ e.perms &&& required.toNat = required.toNat ∧
      callerPerms &&& required = required

instance (e : Entry) (caller callerPerms required : UInt32) :
    Decidable (MayAccess e caller callerPerms required) := by
  unfold MayAccess
  infer_instance

theorem checkOwner_eq_ok {owner perms : Nat} {caller callerPerms required : UInt32} :
    checkOwner owner perms caller callerPerms required = .ok ↔
      callerPerms &&& SHM_PERM_ADMIN ≠ 0 ∨
        caller.toNat = owner ∧ perms &&& required.toNat = required.toNat ∧
          callerPerms &&& required = required := by
  rw [checkOwner]
  by_cases hadmin : callerPerms &&& SHM_PERM_ADMIN ≠ 0
  · simp [hadmin]
  · rw [if_neg hadmin]
    by_cases howner : caller.toNat = owner
    · by_cases hperms : perms &&& required.toNat = required.toNat
      · by_cases hcaller : callerPerms &&& required = required
        · simp [howner, hperms, hcaller]
        · simp [howner, hperms, hcaller, hadmin]
      · simp [howner, hperms, hadmin]
    · simp [howner, hadmin]

/-- **The access check grants exactly this.** -/
theorem Entry.access_eq_ok {e : Entry} (he : e.Live) {caller callerPerms required : UInt32} :
    e.access caller callerPerms required = .ok ↔ MayAccess e caller callerPerms required := by
  rw [Entry.access_live he]
  exact checkOwner_eq_ok

/-- The call is directed at the object in slot `i`, and its caller may do what it does. -/
def Authorised (m : Mem) (i : Nat) : Call → Prop
  | .alloc .. => False
  | .free _ objId userId callerPerms =>
    objId = (entryAt m i).id ∧ MayAccess (entryAt m i) userId callerPerms SHM_PERM_FREE
  | .resize _ objId _ userId callerPerms =>
    objId = (entryAt m i).id ∧ MayAccess (entryAt m i) userId callerPerms SHM_PERM_RESIZE
  | .setPerms _ off userId callerPerms _ =>
    off = (entryAt m i).off ∧ MayAccess (entryAt m i) userId callerPerms SHM_PERM_WRITE

/-! ## The bytes of an object -/

/-- The byte at `x` belongs to the object in slot `i`: to the slot, or to the block, header or
payload, it points to. -/
def OfObject (G : Geometry) (m : Mem) (i x : Nat) : Prop :=
  InSlot i x ∨ InBlk G (blkAt G m ((entryAt m i).off - 56)) x

namespace OfObject

variable {i x : Nat} {b c : Blk} {fl : List Nat}

/-- The block the slot points to is the block of the object. -/
theorem inBlk (hx : OfObject G m i x) (h : Rep G m bs fl) (hh : Holds G m i b) (hb : b ∈ bs) :
    InSlot i x ∨ InBlk G b x := by
  have hoff : (entryAt m i).off - 56 = b.off := by
    have := hh.mirrors.off
    omega
  rw [OfObject, hoff, (h.blk b hb).fields] at hx
  exact hx

section

variable (hx : OfObject G m i x) (h : Rep G m bs fl) (hh : Holds G m i b) (hb : b ∈ bs)
include hx h hh hb

/-- The object is no part of the region header. -/
theorem ge : 200 ≤ x := by
  have hD := G.base_ge
  rcases hx.inBlk h hh hb with hs | hs
  · have := hs.lt_base hh.lt
    omega
  · have := hs.1
    omega

/-- Nor of another slot. -/
theorem not_inSlot {j : Nat} (hj : j < G.dirCap) (hji : j ≠ i) : ¬ InSlot j x := fun hjx => by
  rcases hx.inBlk h hh hb with hs | hs
  · exact hji (hjx.eq hs)
  · have := hjx.lt_base hj
    have := hs.1
    omega

/-- Nor of another block. -/
theorem not_inBlk (hc : c ∈ bs) (hne : c ≠ b) : ¬ InBlk G c x := fun hcx => by
  rcases hx.inBlk h hh hb with hs | hs
  · have := hs.lt_base hh.lt
    have := hcx.1
    omega
  · exact hne (h.eq_of_inBlk hc hb hcx hs)

/-- Nor of a free block. -/
theorem not_inBlk_free (hc : c ∈ bs) (hl : c.live = false) : ¬ InBlk G c x :=
  hx.not_inBlk h hh hb hc fun e => Bool.noConfusion (hl.symm.trans (e ▸ hh.live))

theorem not_freeListByte : ¬ FreeListByte G bs x := by
  have hge := hx.ge h hh hb
  rintro (h1 | ⟨c, hc, hl, hcx⟩)
  · omega
  · exact hx.not_inBlk_free h hh hb hc hl (h.inBlk_of_inHdr hc hcx)

end

end OfObject

/-! ## Calls on other objects

A call writes its own object, free blocks and the region header.  Another object is apart from all
of these: its block by the tiling, its slot by its number. -/

section

variable {b c : Blk} {i j x : Nat}

/-- Two slots in use hold different blocks. -/
theorem Holds.blk_ne (h : Inv G m bs) (hi : Holds G m i b) (hj : Holds G m j c) (hji : j ≠ i) :
    c ≠ b := fun e => by
  refine hji (h.dir.inj j i hj.lt hi.lt hj.alive hi.alive ?_)
  rw [hj.mirrors.off, hi.mirrors.off, e]

variable {pre' post' : List Blk} (h : Inv G m (pre ++ c :: post)) (hh : Holds G m i b)
  (hb : b ∈ pre ++ c :: post) (hx : OfObject G m i x)
include h hh hb hx

/-- **`shm_alloc` leaves the objects in other slots alone.** -/
theorem not_writes_allocEvents {q : Request} (ht : Takes G m pre c j q) (hji : j ≠ i) :
    ¬ Writes (allocEvents G pre c post j (nextIdOf m) q) x := fun hw => by
  have hR := h.heap.toRep
  have hge := hx.ge hR hh hb
  rcases writes_allocEvents h ht hw with hw | hw | hw | hw
  · omega
  · exact hx.not_inSlot hR hh hb ht.slot_lt hji hw
  · exact hx.not_freeListByte hR hh hb hw
  · exact hx.not_inBlk_free hR hh hb (by simp) ht.free hw

/-- **`shm_free` leaves the other objects alone.** -/
theorem not_writes_freeEvents (hj : Holds G m j c) (hji : j ≠ i) :
    ¬ Writes (freeEvents G pre c post j) x := fun hw => by
  have hR := h.heap.toRep
  have hge := hx.ge hR hh hb
  rcases writes_freeEvents hw with hw | hw | hw
  · omega
  · exact hx.not_inSlot hR hh hb hj.lt hji hw
  · rcases hw with hw | ⟨d, hd, hl, hdx⟩
    · omega
    · -- a free block, or the block that is freed
      rcases List.mem_append.1 hd with hd | hd
      · exact hx.not_inBlk_free hR hh hb (by simp [hd]) hl (hR.inBlk_of_inHdr (by simp [hd]) hdx)
      · rcases List.mem_cons.1 hd with rfl | hd
        · exact hx.not_inBlk hR hh hb (c := c) (by simp) (hh.blk_ne h hj hji)
            (hR.inBlk_of_inHdr (by simp) hdx)
        · exact hx.not_inBlk_free hR hh hb (by simp [hd]) hl (hR.inBlk_of_inHdr (by simp [hd]) hdx)

/-- **`shm_resize` leaves the other objects alone**, neighbours included. -/
theorem not_writes_resize (hj : Holds G m j c) (hji : j ≠ i) {sz n : Nat} (hn : n ≠ 0) {rc : Rc}
    {W : List Event} (hrun : ResizeRun G sz pre c post j n rc W bs) : ¬ Writes W x := fun hw => by
  have hR := h.heap.toRep
  have hge := hx.ge hR hh hb
  rcases hrun.writes h hj.live hn hw with (hw | hw | ⟨d, hd, hl, hdx⟩) | hw
  · omega
  · exact hx.not_inBlk hR hh hb (by simp) (hh.blk_ne h hj hji) hw
  · exact hx.not_inBlk_free hR hh hb hd hl hdx
  · exact hx.not_inSlot hR hh hb hj.lt hji ⟨by omega, by omega⟩

/-- **`shm_block_set_perms` leaves the other objects alone.** -/
theorem not_writes_setPermsEvents (hj : Holds G m j c) (hji : j ≠ i) (p : UInt32) :
    ¬ Writes (setPermsEvents G c j p) x := fun hw => by
  have hR := h.heap.toRep
  rcases writes_setPermsEvents hw with hw | hw
  · refine hx.not_inBlk hR hh hb (c := c) (by simp) (hh.blk_ne h hj hji) ?_
    exact hR.inBlk_of_inHdr (by simp) ⟨by omega, by omega⟩
  · exact hx.not_inSlot hR hh hb hj.lt hji ⟨by omega, by omega⟩

end

/-- A call that is not authorised for an object does not write to it. -/
theorem CallRun.spares {i x : Nat} {b : Blk} {c : Call} {rc : Rc} {W : List Event}
    {bs' : List Blk} (h : FullInv G m bs) (hh : Holds G m i b) (hb : b ∈ bs)
    (hx : OfObject G m i x) (hrun : CallRun G m bs c rc W bs') (hna : ¬ Authorised m i c) :
    ¬ Writes W x := by
  have hskip : ∀ {r : Region} {V : List Event}, ¬ Writes V x → ¬ Writes (lockEvents r ++ V) x :=
    fun {r V} hV hw => hV ((writes_append.1 hw).resolve_left (not_writes_lockEvents r x))
  have hlive := h.entry_live hh.lt hh.alive
  cases hrun with
  | refused hrc hW =>
    rcases hW with rfl | ⟨r, rfl⟩
    · exact not_writes_nil x
    · exact hskip (by simp [Event.Touches])
  | alloc ht =>
    refine hskip (not_writes_allocEvents h.toInv hh hb hx ht ?_)
    rintro rfl
    exact ht.slot_free hlive
  | free hf hj hacc =>
    refine hskip (not_writes_freeEvents h.toInv hh hb hx hj fun hji => hna ?_)
    subst hji
    exact ⟨hf.id.symm, (Entry.access_eq_ok hlive).1 hacc⟩
  | resize hf hj hacc hn hn' hrun =>
    refine hskip (not_writes_resize h.toInv hh hb hx hj (fun hji => hna ?_) hn hrun)
    subst hji
    exact ⟨hf.id.symm, (Entry.access_eq_ok hlive).1 hacc⟩
  | setPerms hj hf hacc =>
    rename_i pre c post j k r userId callerPerms newPerms
    -- the entry found by the id of the block is the one the offset was taken from
    have hkj : k = j := hf.eq h.ids hj.lt hj.alive hj.mirrors.id
    subst hkj
    refine hskip (not_writes_setPermsEvents h.toInv hh hb hx hj (fun hji => hna ?_) newPerms)
    subst hji
    refine ⟨hj.mirrors.off.symm, (Entry.access_eq_ok hlive).1 ?_⟩
    rw [(h.sameObject hj (by simp)).access hlive hj.live]
    exact hacc

/-- A call that is not authorised for an object writes no byte of it. -/
theorem CallRun.not_writes {i x : Nat} {b : Blk} {c : Call} {rc : Rc} {W : List Event}
    {bs' : List Blk} (h : FullInv G m bs) (hh : Holds G m i b) (hb : b ∈ bs)
    (hx : OfObject G m i x) (hrun : CallRun G m bs c rc W bs') (hna : ¬ Authorised m i c) :
    replay W m x = m x :=
  replay_of_not_writes (hrun.spares h hh hb hx hna) m

/-- **Isolation.**  In every reachable state, a completed call that is not a `shm_free` or
`shm_resize` of an object's id or a `shm_block_set_perms` at its offset by a caller with the
authority for it leaves every byte of the object's slot and of its block unchanged. -/
theorem isolation (h : Reach G NoWrap m) {i : Nat} (hi : i < G.dirCap)
    (ha : (entryAt m i).alive = true) {c : Call} (hl : Legal G m c) (hna : ¬ Authorised m i c)
    {x : Nat} (hx : OfObject G m i x) : c.prog.mem m x = m x := by
  obtain ⟨bs, hI⟩ := h.fullInv
  obtain ⟨pre, b, post, rfl, hh⟩ := hI.holds hi ha
  obtain ⟨rc, W, bs', hrun, hexec⟩ := callRun hI.toInv hl
  rw [hexec.mem]
  exact hrun.not_writes hI hh (by simp) hx hna

/-- User 8 allocates a second object next to that of user 7, whose slot starts at byte 200. -/
theorem isolation_page :
    (Call.alloc (some pageHandle) ⟨16, none, 8, 0xF, 0⟩ true true).prog.mem
      (firstMem pageGeometry pageHandle eightBytes) 200
        = firstMem pageGeometry pageHandle eightBytes 200 := by
  obtain ⟨bs, hI⟩ := page_reach.fullInv
  exact isolation page_reach (i := 0) (by decide) page_alive
    (legal_alloc hI.toInv rfl (by decide) (by decide)) not_false (.inl (by decide))

end ShmAlloc
