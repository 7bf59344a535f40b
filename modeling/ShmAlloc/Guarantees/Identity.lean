import ShmAlloc.Guarantees.Isolation
import ShmAlloc.Region.Naming

/-!
# Identity of objects

Ids are handed out in order and never again.  `next_id` is past every id in use, so an id that has
been freed is in no entry, now or later; and an object keeps its slot, and in it the bytes that say
which object it is, until it is freed.

## What is here

* `IdentByte` and `SameIdentity`: the bytes of a slot that identify its object, and when two
  memories agree on them.
* `CallRun.slot`: **what a call does to a slot.**  It leaves the identity in it alone, puts a new
  object into an unused slot, or frees the object of this one.
* `CallRun.newId`: **ids are handed out in order.**
* `Retired`: an id that has been handed out and is in no entry in use.  `Retired.call` says it stays
  so.
* `NotFound`: nobody finds an object with this id, by a lookup, a free or a resize.
* `object_identity`: **along every run in which `next_id` does not wrap** ids are consecutive, freed
  ids are not found again, and objects that are not freed keep their identity.
* `object_identity_fails`: two inputs at which more was claimed than holds: a resize to 0 does not
  look the id up, and a handle that maps more than the region lets its owner grow an object around
  the address space.
-/

set_option autoImplicit false

namespace ShmAlloc

open Tiling Links

variable {G : Geometry} {m m' : Mem} {bs bs' pre post : List Blk} {log : List Answer}

/-! ## The bytes that identify an object -/

/-- The byte at `x` says which object slot `i` holds: it belongs to the slot, but neither to the
place and size of the object nor to its permissions. -/
def IdentByte (i x : Nat) : Prop :=
  InSlot i x ∧ ¬ (slotAddr i + 56 ≤ x ∧ x < slotAddr i + 80) ∧
    ¬ (slotAddr i + 88 ≤ x ∧ x < slotAddr i + 92)

/-- Slot `i` still holds the object it held: same id, name, owner and type tag. -/
structure SameIdentity (m m' : Mem) (i : Nat) : Prop where
  alive : (entryAt m' i).alive = (entryAt m i).alive
  id : (entryAt m' i).id = (entryAt m i).id
  owner : (entryAt m' i).owner = (entryAt m i).owner
  tag : (entryAt m' i).tag = (entryAt m i).tag
  name : m.Agree m' (slotAddr i + 8) (slotAddr i + 56)

theorem SameIdentity.refl (m : Mem) (i : Nat) : SameIdentity m m i :=
  ⟨rfl, rfl, rfl, rfl, .refl _ _ _⟩

theorem SameIdentity.trans {m'' : Mem} {i : Nat} (h : SameIdentity m m' i)
    (h' : SameIdentity m' m'' i) : SameIdentity m m'' i :=
  ⟨h'.alive.trans h.alive, h'.id.trans h.id, h'.owner.trans h.owner, h'.tag.trans h.tag,
    h.name.trans h'.name⟩

theorem sameIdentity_of_bytes {i : Nat} (h : ∀ x, IdentByte i x → m' x = m x) :
    SameIdentity m m' i := by
  have hload : ∀ k n, k + n ≤ 96 → k + n ≤ 56 ∨ 80 ≤ k ∧ k + n ≤ 88 ∨ 92 ≤ k →
      m'.load (slotAddr i + k) n = m.load (slotAddr i + k) n := by
    intro k n hk hkn
    refine Mem.load_congr fun j hj => h _ ⟨⟨?_, ?_⟩, ?_, ?_⟩ <;> omega
  have halive : m'.load (slotAddr i + 92) 1 = m.load (slotAddr i + 92) 1 :=
    hload 92 1 (by decide) (by decide)
  refine ⟨?_, hload 0 8 (by decide) (by decide), hload 84 4 (by decide) (by decide),
    hload 80 4 (by decide) (by decide), fun x h1 h2 => h x ⟨⟨?_, ?_⟩, ?_, ?_⟩⟩
  · show (m'.load (slotAddr i + 92) 1 != 0) = (m.load (slotAddr i + 92) 1 != 0)
    rw [halive]
  all_goals omega

/-! ## What a call does to a slot -/

section

variable {c : Call} {rc : Rc} {W : List Event}

theorem replay_locked {r : Region} {V : List Event} (m : Mem) :
    replay (lockEvents r ++ V) m = replay V m := by
  rw [replay_append, replay_lockEvents]

/-- A new object leaves the other slots alone. -/
theorem sameIdentity_alloc {b : Blk} {i : Nat} {q : Request} (h : Inv G m (pre ++ b :: post))
    (ht : Takes G m pre b i q) {j : Nat} (hj : j < G.dirCap)
    (hji : j ≠ i) : SameIdentity m (replay (allocEvents G pre b post i (nextIdOf m) q) m) j := by
  refine sameIdentity_of_bytes fun x hx => replay_of_not_writes (fun hw => ?_) m
  have hs := hx.1.lt_base hj
  have hD := G.base_ge
  rcases writes_allocEvents h ht hw with hw | hw | hw | hw
  · omega
  · exact hji (hx.1.eq hw)
  · exact not_freeListByte_counter (by omega) hs.2 hw
  · have := hw.1
    omega

/-- **What a call does to a slot**: it leaves the identity in it alone, or it is a `shm_alloc` that
puts a new object, with a name, into an unused slot, or a `shm_free` of the object in it. -/
theorem CallRun.slot (h : Inv G m bs) (hrun : CallRun G m bs c rc W bs') {j : Nat}
    (hj : j < G.dirCap) :
    SameIdentity m (replay W m) j ∨
      (¬ (entryAt m j).Live ∧ rc = .ok ∧ (∃ r q, c = .alloc r q true true ∧
          NameIs (replay W m) j (storedName q.name)) ∧
        (entryAt (replay W m) j).id = nextIdOf m) ∨
      ((entryAt m j).alive = true ∧ rc = .ok ∧
        (∃ r userId callerPerms, c = .free r (entryAt m j).id userId callerPerms) ∧
        (entryAt (replay W m) j).alive = false) := by
  have hD := G.base_ge
  have hbytes : ∀ {V : List Event}, (∀ x, IdentByte j x → ¬ Writes V x) →
      SameIdentity m (replay V m) j := fun hV =>
    sameIdentity_of_bytes fun x hx => replay_of_not_writes (hV x hx) m
  cases hrun with
  | refused hrc hW =>
    rw [replay_refused hW]
    exact .inl (.refl m j)
  | alloc ht =>
    rename_i pre b post i q r
    rw [replay_locked]
    by_cases hji : j = i
    · subst hji
      refine .inr (.inl ⟨ht.slot_free, rfl, ⟨_, _, rfl, nameIs_alloc m (nextIdOf m)⟩, ?_⟩)
      rw [entryAt_alloc h ht]
      rfl
    · exact .inl (sameIdentity_alloc h ht hj hji)
  | free hf hh hacc =>
    rename_i pre b post i objId r userId callerPerms
    rw [replay_locked]
    by_cases hji : j = i
    · subst hji
      exact .inr (.inr ⟨hf.alive, rfl, ⟨some r, userId, callerPerms, by rw [hf.id]⟩,
        free_entry_self m⟩)
    · refine .inl (hbytes fun x hx hw => ?_)
      have hs := hx.1.lt_base hj
      rcases writes_freeEvents hw with hw | hw | hw
      · omega
      · exact hji (hx.1.eq hw)
      · exact not_freeListByte_counter (by omega) hs.2 hw
  | resize hf hh hacc hn hn' hrun =>
    rename_i pre b post i objId n r userId callerPerms V
    rw [replay_locked]
    refine .inl (hbytes fun x hx hw => ?_)
    have hs := hx.1.lt_base hj
    rcases hrun.writes h hh.live hn hw with hw | hw
    · have := hw.ge
      omega
    · obtain rfl := hx.1.eq (j := i) ⟨by omega, by omega⟩
      exact hx.2.1 hw
  | setPerms hh hf hacc =>
    rename_i pre b post i k r userId callerPerms newPerms
    rw [replay_locked]
    refine .inl (hbytes fun x hx hw => ?_)
    have hs := hx.1.lt_base hj
    rcases writes_setPermsEvents hw with hw | hw
    · omega
    · obtain rfl := hx.1.eq (j := k) ⟨by omega, by omega⟩
      exact hx.2.2 hw

/-- **Ids are handed out in order**: a call either gives back no id and leaves `next_id` alone, or
gives back `next_id` and moves it on. -/
theorem CallRun.newId (h : Inv G m bs) (hrun : CallRun G m bs c rc W bs')
    (hx : Exec G.size c.prog m rc W) :
    ((c.answer m).newId = none ∧ nextIdOf (replay W m) = nextIdOf m) ∨
      ((c.answer m).newId = some (nextIdOf m) ∧
        nextIdOf (replay W m) = add64 (nextIdOf m) 1) := by
  have hD := G.base_ge
  have hrc : (c.answer m).rc = rc := hx.val
  have hsame : ∀ {V : List Event}, (∀ x, Writes V x → x < 112 ∨ 120 ≤ x) →
      nextIdOf (replay V m) = nextIdOf m := fun hV => load_replay fun x hw => hV x hw
  cases hrun with
  | refused hne hW =>
    refine .inl ⟨?_, by rw [replay_refused hW]⟩
    rw [Answer.newId]
    split
    · rename_i hc hok
      exact absurd (hrc.symm.trans hok) hne
    · rfl
  | alloc ht =>
    rename_i pre b post i q r
    refine .inr ⟨?_, by rw [replay_locked, nextIdOf_alloc ht]⟩
    have hout : lastOut 0 (lockEvents r ++ allocEvents G pre b post i (nextIdOf m) q) = _ :=
      (lastOut_allocEvents r (nextIdOf m)).1
    rw [Answer.newId, hrc, ← hout, ← hx.eff, lastOut_effects]
    rfl
  | free hf hh hacc =>
    rename_i pre b post i objId r userId callerPerms
    exact .inl ⟨rfl, by rw [replay_locked, nextIdOf_free]⟩
  | resize hf hh hacc hn hn' hrun =>
    rename_i pre b post i objId n r userId callerPerms V
    refine .inl ⟨rfl, ?_⟩
    rw [replay_locked]
    refine hsame fun x hw => ?_
    rcases hrun.writes h hh.live hn hw with hw | hw
    · have := hw.ge
      omega
    · have := slotAddr_ge i
      omega
  | setPerms hh hf hacc =>
    rename_i pre b post i k r userId callerPerms newPerms
    refine .inl ⟨rfl, ?_⟩
    rw [replay_locked]
    refine hsame fun x hw => ?_
    have := slotAddr_ge k
    rcases writes_setPermsEvents hw with hw | hw
    · omega
    · omega

/-- Only `shm_alloc` moves it. -/
theorem noWrap_of_not_alloc (h : Inv G m bs) (hl : Legal G m c)
    (hc : ∀ region q outId outOff, c ≠ .alloc region q outId outOff) : NoWrap m c := by
  obtain ⟨rc, W, bs', hrun, hx⟩ := callRun h hl
  rw [NoWrap, hx.mem]
  rcases hrun.newId h hx with ⟨-, hnext⟩ | ⟨hnew, -⟩
  · exact Nat.le_of_eq hnext.symm
  · rw [Answer.newId] at hnew
    split at hnew
    · rename_i hcall _
      exact absurd hcall (hc _ _ _ _)
    · cases hnew

/-- A successful `shm_free` empties the slot of the object. -/
theorem CallRun.freed {region : Option Region} {objId : Nat} {userId callerPerms : UInt32}
    (hrun : CallRun G m bs (.free region objId userId callerPerms) .ok W bs') :
    ∃ i, i < G.dirCap ∧ (entryAt m i).alive = true ∧ (entryAt m i).id = objId ∧
      (entryAt (replay W m) i).alive = false := by
  cases hrun with
  | refused hrc hW => exact absurd rfl hrc
  | free hf hh hacc =>
    refine ⟨_, hf.lt, hf.alive, hf.id, ?_⟩
    rw [replay_locked]
    exact free_entry_self m

end

/-! ## What a user's write does to a slot -/

/-- Writes above the directory leave slots and `next_id` alone. -/
theorem sameIdentity_write {a v i : Nat} (ha : G.base ≤ a) (hi : i < G.dirCap) :
    SameIdentity m (m.store a 1 v) i := by
  refine sameIdentity_of_bytes fun x hx => Mem.store_of_outside (.inl ?_)
  have := hx.1.lt_base hi
  omega

theorem nextIdOf_write {a v : Nat} (ha : G.base ≤ a) : nextIdOf (m.store a 1 v) = nextIdOf m := by
  have hD := G.base_ge
  exact Mem.load_store_of_disjoint (.inl (by omega))

/-! ## Names -/

/-- **A step keeps names in order.** -/
theorem Step.named {C : Mem → Call → Prop} (h : Inv G m bs) (hn : Named G m) (hs : Step G C m m') :
    Named G m' := by
  intro i hi ha
  have hkeep : SameIdentity m m' i → ∃ s, NameIs m' i s := fun hs => by
    obtain ⟨s, hname⟩ := hn i hi (hs.alive.symm.trans ha)
    exact ⟨s, hname.congr hs.name⟩
  cases hs with
  | call c hlegal hC =>
    obtain ⟨rc, W, bs', hrun, hx⟩ := callRun h hlegal
    rw [hx.mem] at ha hkeep ⊢
    rcases hrun.slot h hi with hs | ⟨-, -, ⟨r, q, -, hname⟩, -⟩ | ⟨-, -, -, hdead⟩
    · exact hkeep hs
    · exact ⟨_, hname⟩
    · exact Bool.noConfusion (ha.symm.trans hdead)
  | write j k v hj ha hk => exact hkeep (sameIdentity_write (by omega) hi)

/-- **In every reachable state** the stored names are strings within their fields. -/
theorem Reach.named {C : Mem → Call → Prop} (h : Reach G C m) : Named G m := by
  induction h with
  | init m backend nsInode cgroupHash name =>
    intro i hi ha
    rw [(exec_regionInit G m backend nsInode cgroupHash name).mem, entryAt_init hi] at ha
    exact Bool.noConfusion ha
  | step h hs ih =>
    obtain ⟨bs, hI⟩ := h.inv
    exact hs.named hI ih

/-! ## Ids that are gone -/

/-- What the record of a freed id says about the call. -/
theorem Answer.freedId_answer {c : Call} {objId : Nat}
    (h : objId ∈ [c.answer m].filterMap Answer.freedId) :
    ∃ region userId callerPerms, c = .free region objId userId callerPerms ∧
      c.prog.val m = .ok := by
  rw [List.mem_filterMap] at h
  obtain ⟨a, ha, hid⟩ := h
  obtain rfl := List.mem_singleton.1 ha
  cases c with
  | free region id userId callerPerms =>
    rw [Answer.freedId] at hid
    split at hid
    · rename_i hc hok
      obtain ⟨rfl, rfl, rfl, rfl⟩ := Call.free.inj hc
      obtain rfl := Option.some.inj hid
      exact ⟨_, _, _, rfl, hok⟩
    · cases hid
  | _ => cases hid

/-- The id has been handed out, and no entry in use has it. -/
structure Retired (G : Geometry) (m : Mem) (objId : Nat) : Prop where
  pos : 0 < objId
  lt : objId < nextIdOf m
  absent : Absent G m objId

/-- **A retired id stays retired**: new objects get ids from `next_id` on, old ones keep theirs. -/
theorem Retired.call {c : Call} {rc : Rc} {W : List Event} {objId : Nat}
    (hr : Retired G m objId) (h : FullInv G m bs) (hrun : CallRun G m bs c rc W bs')
    (hnext : nextIdOf m ≤ nextIdOf (replay W m)) : Retired G (replay W m) objId := by
  refine ⟨hr.pos, by have := hr.lt; omega, fun j hj ha hid => ?_⟩
  rcases hrun.slot h.toInv hj with hs | ⟨-, -, -, hnew⟩ | ⟨-, -, -, hdead⟩
  · rw [hs.alive] at ha
    rw [hs.id] at hid
    exact hr.absent j hj ha hid
  · have := hr.lt
    omega
  · exact Bool.noConfusion (ha.symm.trans hdead)

theorem Retired.write {objId a v : Nat} (hr : Retired G m objId) (ha : G.base ≤ a) :
    Retired G (m.store a 1 v) objId := by
  refine ⟨hr.pos, by rw [nextIdOf_write ha]; exact hr.lt, fun j hj halive hid => ?_⟩
  have hs : SameIdentity m (m.store a 1 v) j := sameIdentity_write ha hj
  rw [hs.alive] at halive
  rw [hs.id] at hid
  exact hr.absent j hj halive hid

/-- A successful `shm_free` retires the id: ids being distinct, no other entry has it. -/
theorem retired_of_freed {region : Option Region} {objId : Nat} {userId callerPerms : UInt32}
    {W : List Event} (h : FullInv G m bs)
    (hrun : CallRun G m bs (.free region objId userId callerPerms) .ok W bs')
    (hnext : nextIdOf m ≤ nextIdOf (replay W m)) : Retired G (replay W m) objId := by
  obtain ⟨i, hi, ha, rfl, hdead⟩ := hrun.freed
  have hpos := h.ids.id_pos i hi ha
  have hlt := h.ids.id_lt i hi ha
  refine ⟨hpos, by omega, fun j hj halive hid => ?_⟩
  rcases hrun.slot h.toInv hj with hs | ⟨-, -, ⟨r, q, hc, -⟩, -⟩ | ⟨-, -, -, hj'⟩
  · rw [hs.alive] at halive
    rw [hs.id] at hid
    obtain rfl := h.ids.distinct j i hj hi halive ha hid
    rw [hs.alive, ha] at hdead
    exact Bool.noConfusion hdead
  · exact Call.noConfusion hc
  · exact Bool.noConfusion (halive.symm.trans hj')

/-- Nobody finds an object with this id. -/
structure NotFound (m : Mem) (objId : Nat) : Prop where
  lookup : ∀ r userId callerPerms outOff outUsedSize,
    (shmLookup (some r) objId userId callerPerms outOff outUsedSize).val m = .enoent
  free : ∀ r userId callerPerms, (shmFree (some r) objId userId callerPerms).val m = .enoent
  resize : ∀ r newSize userId callerPerms, newSize ≠ 0 →
    (shmResize (some r) objId newSize userId callerPerms).val m = .enoent

theorem Retired.notFound {objId : Nat} (hr : Retired G m objId) (hL : LayoutOk G m) :
    NotFound m objId := by
  have hid : objId ≠ 0 := Nat.ne_of_gt hr.pos
  -- the search runs into the end of the directory, whatever the call is for
  have hwith : ∀ (r : Region) (userId callerPerms required : UInt32) (body : Nat → Prog Rc),
      (regionLock r >>= fun _ => withEntry objId userId callerPerms required body).val m
        = .enoent := by
    intro r userId callerPerms required body
    rcases exec_withEntry hL objId userId callerPerms required body with ⟨-, hx⟩ | ⟨i, hf, -⟩
    · exact (exec_locked r hx).val
    · exact absurd hf.id (hr.absent i hf.lt hf.alive)
  refine ⟨fun r userId callerPerms outOff outUsedSize => ?_, fun r userId callerPerms => ?_,
    fun r newSize userId callerPerms hn => ?_⟩
  · rw [shmLookup, if_neg hid]
    exact hwith r userId callerPerms _ _
  · rw [shmFree, if_neg hid]
    exact hwith r userId callerPerms _ _
  · rw [shmResize, if_neg (not_or.2 ⟨hid, hn⟩)]
    exact hwith r userId callerPerms _ _

/-! ## Along a run

Each of the three parts is an induction over `Run`, with the lemma about one call as its step. -/

/-- **The ids a run hands out are consecutive**, from `next_id` on. -/
theorem Run.newIds (h : Reach G NoWrap m) (hrun : Run G NoWrap m log m') :
    nextIdOf m ≤ nextIdOf m' ∧
      log.filterMap Answer.newId = List.range' (nextIdOf m) (nextIdOf m' - nextIdOf m) := by
  induction hrun with
  | refl => simp
  | @call log m₁ hrun c hl hC ih =>
    obtain ⟨hle, ih⟩ := ih
    obtain ⟨bs, hI⟩ := (hrun.reach h).fullInv
    obtain ⟨rc, W, bs', hcall, hx⟩ := callRun hI.toInv hl
    rw [NoWrap, hx.mem] at hC
    rw [hx.mem, List.filterMap_append, ih]
    rcases hcall.newId hI.toInv hx with ⟨hnone, hsame⟩ | ⟨hsome, hnext⟩
    · rw [hsame]
      exact ⟨hle, by simp [hnone]⟩
    · have hnext : nextIdOf (replay W m₁) = nextIdOf m₁ + 1 := by
        have hpos := hI.ids.next_pos
        rw [hnext, add64] at hC ⊢
        omega
      refine ⟨by omega, ?_⟩
      rw [hnext, Nat.sub_add_comm hle, List.range'_1_concat, Nat.add_sub_cancel' hle]
      simp [hsome]
  | write hrun i k v hi ha hk ih =>
    rw [nextIdOf_write (G := G) (by omega)]
    exact ih

/-- **Freed ids stay retired.** -/
theorem Run.retired (h : Reach G NoWrap m) (hrun : Run G NoWrap m log m') :
    ∀ objId ∈ log.filterMap Answer.freedId, Retired G m' objId := by
  induction hrun with
  | refl => simp
  | @call log m₁ hrun c hl hC ih =>
    intro objId hid
    obtain ⟨bs, hI⟩ := (hrun.reach h).fullInv
    obtain ⟨rc, W, bs', hcall, hx⟩ := callRun hI.toInv hl
    rw [NoWrap, hx.mem] at hC
    rw [hx.mem]
    rw [List.filterMap_append, List.mem_append] at hid
    rcases hid with hid | hid
    · exact (ih objId hid).call hI hcall hC
    · -- the last call of the run freed it
      obtain ⟨region, userId, callerPerms, rfl, hok⟩ := Answer.freedId_answer hid
      rw [hx.val] at hok
      subst hok
      exact retired_of_freed hI hcall hC
  | write hrun i k v hi ha hk ih =>
    intro objId hid
    exact (ih objId hid).write (by omega)

/-- **An object that is not freed stays the same object in the same slot.** -/
theorem Run.sameIdentity (h : Reach G NoWrap m) (hrun : Run G NoWrap m log m') {i : Nat}
    (hi : i < G.dirCap) (ha : (entryAt m i).alive = true)
    (hnf : (entryAt m i).id ∉ log.filterMap Answer.freedId) : SameIdentity m m' i := by
  induction hrun with
  | refl => exact .refl m i
  | @call log m₁ hrun c hl hC ih =>
    rw [List.filterMap_append, List.mem_append, not_or] at hnf
    have hs := ih hnf.1
    obtain ⟨bs, hI⟩ := (hrun.reach h).fullInv
    obtain ⟨rc, W, bs', hcall, hx⟩ := callRun hI.toInv hl
    rw [hx.mem]
    rcases hcall.slot hI.toInv hi with hs' | ⟨hdead, -⟩ | ⟨-, rfl, ⟨r, userId, callerPerms, rfl⟩, -⟩
    · exact hs.trans hs'
    · exact absurd (hI.entry_live hi (hs.alive.trans ha)) hdead
    · refine absurd ?_ hnf.2
      have hrc : ((Call.free r (entryAt m₁ i).id userId callerPerms).answer m₁).rc = .ok := hx.val
      refine List.mem_filterMap.2 ⟨_, List.mem_singleton_self _, ?_⟩
      rw [Answer.freedId, hrc, ← hs.id]
      rfl
  | write hrun j k v hj hja hk ih => exact (ih hnf).trans (sameIdentity_write (by omega) hi)

/-- The ids in use are distinct, not 0 and below `next_id`. -/
structure IdsInOrder (G : Geometry) (m : Mem) : Prop where
  pos : ∀ i, i < G.dirCap → (entryAt m i).alive = true → (entryAt m i).id ≠ 0
  lt : ∀ i, i < G.dirCap → (entryAt m i).alive = true → (entryAt m i).id < nextIdOf m
  distinct : ∀ i j, i < G.dirCap → j < G.dirCap → (entryAt m i).alive = true →
    (entryAt m j).alive = true → (entryAt m i).id = (entryAt m j).id → i = j

/-- **Object identity.**  Along every run in which `next_id` does not wrap, from any reachable
state: the successful `shm_alloc`s return consecutive ids, and nothing else moves `next_id`; the
ids in use are in order; an id that has been freed is not found again; and an object that has not
been freed keeps its id, name, owner and type tag. -/
theorem object_identity (h : Reach G NoWrap m) (hrun : Run G NoWrap m log m') :
    log.filterMap Answer.newId = List.range' (nextIdOf m) (nextIdOf m' - nextIdOf m) ∧
      IdsInOrder G m' ∧ (∀ objId ∈ log.filterMap Answer.freedId, NotFound m' objId) ∧
      ∀ i, i < G.dirCap → (entryAt m i).alive = true →
        (entryAt m i).id ∉ log.filterMap Answer.freedId → SameIdentity m m' i := by
  obtain ⟨bs, hI⟩ := (hrun.reach h).fullInv
  refine ⟨(hrun.newIds h).2, ⟨fun i hi ha => ?_, hI.ids.id_lt, hI.ids.distinct⟩,
    fun objId hid => (hrun.retired h objId hid).notFound hI.layout, fun i hi ha hnf => ?_⟩
  · exact Nat.ne_of_gt (hI.ids.id_pos i hi ha)
  · exact hrun.sameIdentity h hi ha hnf

/-- The owner of the first object frees it: the id is retired, and no id has been handed out. -/
theorem object_identity_page :
    ∃ log m', Run pageGeometry NoWrap (firstMem pageGeometry pageHandle eightBytes) log m' ∧
      log.filterMap Answer.freedId = [1] ∧ log.filterMap Answer.newId = [] ∧ NotFound m' 1 := by
  obtain ⟨bs, hI⟩ := page_reach.fullInv
  have hl := legal_free hI.toInv (r := pageHandle) rfl Nat.one_ne_zero 7 0xF
  have hrun := (Run.refl (C := NoWrap)).call _ hl (noWrap_of_not_alloc hI.toInv hl nofun)
  have hfreed : [(Call.free (some pageHandle) 1 7 0xF).answer
      (firstMem pageGeometry pageHandle eightBytes)].filterMap Answer.freedId = [1] := by
    decide +kernel
  obtain ⟨hnew, -, hgone, -⟩ := object_identity page_reach hrun
  exact ⟨_, _, hrun, hfreed, rfl, hgone 1 (by rw [List.nil_append, hfreed]; simp)⟩

/-! ## What is asked of handles and sizes

The handle maps two pages of a device on which the region takes up one, and what lies behind the
region was there before. -/

/-- A device that holds, right behind the place of a region of one page, what looks like a free
block of almost the whole address space. -/
def usedDevice : Mem :=
  Mem.store (Mem.store (fun _ => 0) 4096 4 SHM_ALLOC_MAGIC_BLOCK) 4136 8 (2 ^ 64 - 3832)

/-- A handle that maps two pages. -/
def twoPageHandle : Region :=
  ⟨4096, 8192, .acquired, pageHandle.aligned, pageHandle.pos, by decide⟩

/-- The region on that device, with one object that takes up the whole heap. -/
def fullRegion : Mem :=
  (Call.alloc (some twoPageHandle) ⟨3648, none, 7, 0xF, 0⟩ true true).prog.mem
    ((regionInit 4096 0 2 none 0 0).mem usedDevice)

/-- **A resize to 0 does not look the id up**, so it answers `EINVAL` for a freed id, too; **and a
handle that maps more than the region** lets its owner grow an object over the end of the region
and around the address space, into the directory, where the object's own id is lost. -/
theorem object_identity_fails :
    ((shmFree (some pageHandle) 1 7 0xF).val (firstMem pageGeometry pageHandle eightBytes) = .ok ∧
      (shmResize (some pageHandle) 1 0 7 0xF).val ((shmFree (some pageHandle) 1 7 0xF).mem
        (firstMem pageGeometry pageHandle eightBytes)) = .einval) ∧
    (shmLookup (some pageHandle) 1 7 0xF true true).val fullRegion = .ok ∧
      (shmResize (some twoPageHandle) 1 (2 ^ 64 - 248) 7 0xF).val fullRegion = .ok ∧
      Completed 8192 ((shmResize (some twoPageHandle) 1 (2 ^ 64 - 248) 7 0xF).trace fullRegion) ∧
      (shmLookup (some pageHandle) 1 7 0xF true true).val
        ((shmResize (some twoPageHandle) 1 (2 ^ 64 - 248) 7 0xF).mem fullRegion) = .enoent := by
  refine ⟨⟨?_, rfl⟩, ?_, ?_, ?_, ?_⟩ <;> decide +kernel

end ShmAlloc
