import ShmAlloc.Guarantees.Placement
import ShmAlloc.Guarantees.Stale
import ShmAlloc.Store

/-!
# The store in the memory

`storeOf` reads the store off the memory: the object under an id is the one in the slot the search
finds, with its name and the bytes of its payload.  A call touches one slot, and that makes it one
operation on the store.

## What is here

* `objOf` and `dataOf`: the object in a slot, and the used bytes of its payload.
* `storeOf`: the store a memory holds, as a registry of objects by id.
* `Inv.objOf_apart`: **no two objects share a byte.**
* `FullInv.store_full` and `FullInv.store_not_full`: the store is full exactly if the directory is.
* `storeOf_add`, `storeOf_put` and `storeOf_erase`: **one slot changes**: an object is added,
  changed or dropped, the others being the same (`OthersSame`).
* `CallRun.othersSame`: a call leaves the objects in other slots alone.
* `Roomy` and `Reach.roomy`: the block of every object is as large as its used size asks for.

The store is a function from ids to objects and has no slots, so two memories that differ in where
the entries are may hold the same one.
-/

set_option autoImplicit false

namespace ShmAlloc

open Tiling Links

variable {G : Geometry} {m m' : Mem} {bs bs' pre post : List Blk} {i objId : Nat}

/-! ## Objects

The payload is read up to the used size and not up to the capacity: what lies behind is nobody's
data. -/

/-- The used bytes of the payload of the object in slot `i`. -/
def dataOf (G : Geometry) (m : Mem) (i : Nat) : List UInt8 :=
  (List.range (entryAt m i).used).map fun k => m (G.base + (entryAt m i).off + k)

/-- The object in slot `i`. -/
def objOf (G : Geometry) (m : Mem) (i : Nat) : Obj where
  place := (entryAt m i).off
  cap := (entryAt m i).cap
  tag := (entryAt m i).tag
  owner := (entryAt m i).owner
  perms := (entryAt m i).perms
  name := nameOf m i
  data := dataOf G m i

@[simp] theorem objOf_place : (objOf G m i).place = (entryAt m i).off := rfl

@[simp] theorem objOf_cap : (objOf G m i).cap = (entryAt m i).cap := rfl

@[simp] theorem objOf_data : (objOf G m i).data = dataOf G m i := by rw [objOf]

@[simp] theorem length_dataOf : (dataOf G m i).length = (entryAt m i).used := by simp [dataOf]

theorem dataOf_getElem? {k : Nat} (hk : k < (entryAt m i).used) :
    (dataOf G m i)[k]? = some (m (G.base + (entryAt m i).off + k)) := by
  simp [dataOf, List.getElem?_range hk]

/-- The slot the search finds for an id. -/
def slotOf (G : Geometry) (m : Mem) (objId : Nat) : Option Nat :=
  (List.range G.dirCap).find? fun i => (entryAt m i).alive && (entryAt m i).id == objId

/-- The store a memory holds. -/
def storeOf (G : Geometry) (m : Mem) : Store :=
  ⟨nextIdOf m, fun objId => (slotOf G m objId).map (objOf G m)⟩

theorem slotOf_eq_some : slotOf G m objId = some i ↔ Finds G m objId i := by
  rw [slotOf, List.find?_range_eq_some]
  simp only [Bool.and_eq_true, beq_iff_eq, List.mem_range, Bool.not_eq_true', Bool.and_eq_false_iff,
    beq_eq_false_iff_ne]
  refine ⟨fun ⟨⟨ha, hid⟩, hi, hfirst⟩ => ⟨hi, ha, hid, fun k hk hka => ?_⟩,
    fun h => ⟨⟨h.alive, h.id⟩, h.lt, fun k hk => ?_⟩⟩
  · exact (hfirst k hk).resolve_left (by rw [hka]; exact Bool.noConfusion)
  · cases hka : (entryAt m k).alive with
    | false => exact .inl rfl
    | true => exact .inr (h.first k hk hka)

theorem get_eq_some {o : Obj} :
    (storeOf G m).get objId = some o ↔ ∃ i, Finds G m objId i ∧ o = objOf G m i := by
  show (slotOf G m objId).map (objOf G m) = some o ↔ _
  rw [Option.map_eq_some_iff]
  exact exists_congr fun i => and_congr slotOf_eq_some eq_comm

theorem Finds.get (h : Finds G m objId i) : (storeOf G m).get objId = some (objOf G m i) :=
  get_eq_some.2 ⟨i, h, rfl⟩

theorem Absent.get (h : Absent G m objId) : (storeOf G m).get objId = none := by
  cases ho : (storeOf G m).get objId with
  | none => rfl
  | some o =>
    obtain ⟨j, hf, -⟩ := get_eq_some.1 ho
    exact absurd hf.id (h j hf.lt hf.alive)

/-- Ids being distinct, the id of an entry in use finds its slot. -/
theorem IdsOk.finds {next : Nat} (h : IdsOk G.dirCap (entryAt m) next bs) (hi : i < G.dirCap)
    (ha : (entryAt m i).alive = true) : Finds G m (entryAt m i).id i :=
  ⟨hi, ha, rfl, fun k hk hka hid =>
    absurd (h.distinct k i (Nat.lt_trans hk hi) hi hka ha hid) (Nat.ne_of_lt hk)⟩

/-! ## Objects lie apart -/

/-- Where the object of a slot lies in the heap. -/
theorem Holds.place {b : Blk} (hh : Holds G m i b) :
    (objOf G m i).place = b.off + 56 ∧ (objOf G m i).data.length + 56 ≤ b.total :=
  ⟨hh.mirrors.off, by
    rw [objOf_data, length_dataOf]
    exact hh.mirrors.used⟩

/-- **No two objects share a byte.** -/
theorem Inv.objOf_apart (h : Inv G m bs) {j : Nat} (hi : i < G.dirCap) (hj : j < G.dirCap)
    (ha : (entryAt m i).alive = true) (hb : (entryAt m j).alive = true) (hij : i ≠ j) :
    (objOf G m i).Apart (objOf G m j) := by
  obtain ⟨pre, b, post, hbs, hhb⟩ := h.holds hi ha
  obtain ⟨pre', c, post', hbs', hhc⟩ := h.holds hj hb
  have hbm : b ∈ bs := by simp [hbs]
  have hcm : c ∈ bs := by simp [hbs']
  have hoff : b.off ≠ c.off := fun e => by
    refine hij (h.dir.inj i j hi hj ha hb ?_)
    rw [hhb.mirrors.off, hhc.mirrors.off, e]
  obtain ⟨hp, hl⟩ := hhb.place
  obtain ⟨hp', hl'⟩ := hhc.place
  have hap := h.heap.apart hbm hcm hoff
  refine ⟨fun e => hoff ?_, ?_⟩
  · rw [hp, hp'] at e
    exact Nat.add_right_cancel e
  · rw [hp, hp']
    omega

/-! ## How many objects there are -/

/-- The slots in use. -/
def usedSlots (G : Geometry) (m : Mem) : Finset Nat :=
  (Finset.range G.dirCap).filter fun i => (entryAt m i).alive = true

theorem mem_usedSlots : i ∈ usedSlots G m ↔ i < G.dirCap ∧ (entryAt m i).alive = true := by
  rw [usedSlots, Finset.mem_filter, Finset.mem_range]

/-- **There are as many objects as slots in use.** -/
theorem FullInv.ncard_ids (h : FullInv G m bs) :
    (storeOf G m).ids.ncard = (usedSlots G m).card := by
  have hids : (storeOf G m).ids = ↑((usedSlots G m).image fun i => (entryAt m i).id) := by
    ext id
    rw [Finset.mem_coe, Finset.mem_image]
    constructor
    · intro hid
      obtain ⟨o, ho⟩ := Option.ne_none_iff_exists'.1 hid
      obtain ⟨j, hf, -⟩ := get_eq_some.1 ho
      exact ⟨j, mem_usedSlots.2 ⟨hf.lt, hf.alive⟩, hf.id⟩
    · rintro ⟨j, hj, rfl⟩
      obtain ⟨hj, ha⟩ := mem_usedSlots.1 hj
      show (storeOf G m).get _ ≠ none
      rw [(h.ids.finds hj ha).get]
      exact Option.some_ne_none _
  rw [hids, Set.ncard_coe_finset]
  refine Finset.card_image_of_injOn fun j hj k hk hid => ?_
  obtain ⟨hj, ha⟩ := mem_usedSlots.1 (Finset.mem_coe.1 hj)
  obtain ⟨hk, hb⟩ := mem_usedSlots.1 (Finset.mem_coe.1 hk)
  exact h.ids.distinct j k hj hk ha hb hid

/-- The store is full when every slot is in use. -/
theorem FullInv.store_full (h : FullInv G m bs)
    (hall : ∀ j, j < G.dirCap → (entryAt m j).alive = true) :
    (storeOf G m).ids.ncard = G.dirCap := by
  rw [h.ncard_ids, usedSlots, Finset.filter_true_of_mem fun j hj => hall j (Finset.mem_range.1 hj),
    Finset.card_range]

/-- And is not when one is not. -/
theorem FullInv.store_not_full (h : FullInv G m bs) (hi : i < G.dirCap)
    (ha : (entryAt m i).alive = false) : (storeOf G m).ids.ncard < G.dirCap := by
  rw [h.ncard_ids]
  calc (usedSlots G m).card < (Finset.range G.dirCap).card := by
        refine Finset.card_lt_card (Finset.filter_ssubset.2 ⟨i, Finset.mem_range.2 hi, ?_⟩)
        rw [ha]
        exact Bool.noConfusion
    _ = G.dirCap := Finset.card_range _

/-! ## One slot changes -/

/-- What is kept of an object that is left alone. -/
structure SameObj (G : Geometry) (m m' : Mem) (j : Nat) : Prop where
  entry : entryAt m' j = entryAt m j
  obj : objOf G m' j = objOf G m j
  blk : blkOfSlot G m' j = blkOfSlot G m j

/-- The objects in the other slots are the same. -/
def OthersSame (G : Geometry) (m m' : Mem) (i : Nat) : Prop :=
  ∀ j, j < G.dirCap → j ≠ i → (entryAt m' j).alive = (entryAt m j).alive ∧
    ((entryAt m j).alive = true → SameObj G m m' j)

/-- An id that neither the old nor the new entry of the slot has finds what it found. -/
theorem OthersSame.get_eq (h : OthersSame G m m' i) (hI : FullInv G m bs) (hI' : FullInv G m' bs')
    (hold : (entryAt m i).alive = true → (entryAt m i).id ≠ objId)
    (hnew : (entryAt m' i).alive = true → (entryAt m' i).id ≠ objId) :
    (storeOf G m').get objId = (storeOf G m).get objId := by
  refine Option.ext fun o => ?_
  rw [get_eq_some, get_eq_some]
  constructor
  · rintro ⟨j, hf, rfl⟩
    have hji : j ≠ i := by
      rintro rfl
      exact hnew hf.alive hf.id
    obtain ⟨halive, hsame⟩ := h j hf.lt hji
    have ha := halive.symm.trans hf.alive
    have hs := hsame ha
    exact ⟨j, ((congrArg Entry.id hs.entry).symm.trans hf.id) ▸ hI.ids.finds hf.lt ha, hs.obj⟩
  · rintro ⟨j, hf, rfl⟩
    have hji : j ≠ i := by
      rintro rfl
      exact hold hf.alive hf.id
    obtain ⟨halive, hsame⟩ := h j hf.lt hji
    have hs := hsame hf.alive
    exact ⟨j, ((congrArg Entry.id hs.entry).trans hf.id) ▸
      hI'.ids.finds hf.lt (halive.trans hf.alive), hs.obj.symm⟩

section

variable (h : OthersSame G m m' i) (hI : FullInv G m bs) (hI' : FullInv G m' bs')
  (hi : i < G.dirCap)
include h hI hI' hi

/-- **A slot is taken**: an object is added. -/
theorem storeOf_add (ha : (entryAt m i).alive = false) (ha' : (entryAt m' i).alive = true)
    (hid : (entryAt m' i).id = nextIdOf m) (hnext : nextIdOf m' = nextIdOf m + 1) :
    storeOf G m' = (storeOf G m).add (objOf G m' i) := by
  refine Registry.ext hnext (funext fun objId => ?_)
  by_cases he : objId = nextIdOf m
  · subst he
    rw [← hid, (hI'.ids.finds hi ha').get, hid]
    exact Registry.get_add_next.symm
  · rw [Registry.get_add_of_ne he]
    refine h.get_eq hI hI' (fun ha'' => ?_) fun _ => hid ▸ Ne.symm he
    exact Bool.noConfusion (ha.symm.trans ha'')

/-- **An object changes in its slot.** -/
theorem storeOf_put (ha' : (entryAt m' i).alive = true)
    (hid : (entryAt m' i).id = (entryAt m i).id) (hnext : nextIdOf m' = nextIdOf m) :
    storeOf G m' = (storeOf G m).put (entryAt m i).id (objOf G m' i) := by
  refine Registry.ext hnext (funext fun objId => ?_)
  by_cases he : objId = (entryAt m i).id
  · subst he
    rw [← hid, (hI'.ids.finds hi ha').get, hid]
    exact Registry.get_put_self.symm
  · rw [Registry.get_put_of_ne he]
    exact h.get_eq hI hI' (fun _ => Ne.symm he) fun _ => hid ▸ Ne.symm he

/-- **A slot is emptied**: its object is dropped. -/
theorem storeOf_erase (ha : (entryAt m i).alive = true) (ha' : (entryAt m' i).alive = false)
    (hnext : nextIdOf m' = nextIdOf m) :
    storeOf G m' = (storeOf G m).erase (entryAt m i).id := by
  have hdead : ∀ {P : Prop}, (entryAt m' i).alive = true → P := fun ha'' =>
    Bool.noConfusion (ha'.symm.trans ha'')
  refine Registry.ext hnext (funext fun objId => ?_)
  by_cases he : objId = (entryAt m i).id
  · subst he
    rw [Registry.get_erase_self]
    -- another slot with the id would have had it before
    refine Absent.get fun j hj hja hjid => ?_
    by_cases hji : j = i
    · exact hdead (hji ▸ hja)
    · obtain ⟨halive, hsame⟩ := h j hj hji
      have hb := halive.symm.trans hja
      exact hji (hI.ids.distinct j i hj hi hb ha
        ((congrArg Entry.id (hsame hb).entry).symm.trans hjid))
  · rw [Registry.get_erase_of_ne he]
    exact h.get_eq hI hI' (fun _ => Ne.symm he) hdead

end

/-- The object in the slot fits in with the others. -/
theorem OthersSame.fits (h : OthersSame G m m' i) (hI' : Inv G m' bs') (hi : i < G.dirCap)
    (ha' : (entryAt m' i).alive = true)
    (hold : (entryAt m i).alive = true → (entryAt m i).id = objId) :
    (storeOf G m).Fits Obj.Apart objId (objOf G m' i) := by
  intro id o ho hne
  obtain ⟨j, hf, rfl⟩ := get_eq_some.1 ho
  have hji : j ≠ i := by
    rintro rfl
    exact hne (hf.id.symm.trans (hold hf.alive))
  obtain ⟨halive, hsame⟩ := h j hf.lt hji
  have hb := halive.trans hf.alive
  rw [← (hsame hf.alive).obj]
  exact ⟨hI'.objOf_apart hi hf.lt ha' hb (Ne.symm hji),
    hI'.objOf_apart hf.lt hi hb ha' hji⟩

/-! ## What a call leaves in the other slots -/

/-- An object none of whose bytes has changed is left alone. -/
theorem sameObj_of_bytes {b : Blk} (hI : Inv G m bs) (hh : Holds G m i b) (hb : b ∈ bs)
    (hbytes : ∀ x, OfObject G m i x → m' x = m x) : SameObj G m m' i := by
  have hslot : m.Agree m' (slotAddr i) (slotAddr i + 96) := fun x h1 h2 =>
    hbytes x (.inl ⟨h1, h2⟩)
  have hent := entryAt_congr hslot
  have hoff : (entryAt m i).off - 56 = b.off := by rw [hh.mirrors.off, Nat.add_sub_cancel]
  have hblk : ∀ x, InBlk G b x → m' x = m x := fun x hx => hbytes x (.inr (by
    rw [hoff, (hI.heap.blk b hb).fields]
    exact hx))
  have hmin := (hI.heap.wf b hb).min
  refine ⟨hent, ?_, ?_⟩
  · have hdata : dataOf G m' i = dataOf G m i := by
      rw [dataOf, dataOf, hent]
      refine List.map_congr_left fun k hk => hblk _ ?_
      have hk := List.mem_range.1 hk
      have h1 := hh.mirrors.off
      have h2 := hh.mirrors.used
      exact ⟨by omega, by omega⟩
    rw [objOf, objOf, hdata, hent, nameOf_congr (hslot.mono (by omega) (by omega))]
  · rw [blkOfSlot, blkOfSlot, hent, hoff, (hI.heap.blk b hb).fields]
    exact ((hI.heap.blk b hb).congr fun x h1 h2 => hblk x ⟨h1, by omega⟩).fields

/-- **A call that is not for the objects in other slots leaves them alone.** -/
theorem CallRun.othersSame {c : Call} {rc : Rc} {r : Region} {W : List Event}
    (h : FullInv G m bs) (hrun : CallRun G m bs c rc (lockEvents r ++ W) bs')
    (hna : ∀ j, j < G.dirCap → j ≠ i → (entryAt m j).alive = true → ¬ Authorised m j c)
    (hnew : ∀ j, j < G.dirCap → j ≠ i → (entryAt m j).alive = false →
      (entryAt (replay W m) j).alive = false) : OthersSame G m (replay W m) i := by
  intro j hj hji
  cases ha : (entryAt m j).alive with
  | false => exact ⟨hnew j hj hji ha, fun hb => Bool.noConfusion hb⟩
  | true =>
    obtain ⟨pre, b, post, rfl, hh⟩ := h.holds hj ha
    have hs : SameObj G m (replay W m) j := sameObj_of_bytes h.toInv hh (by simp) fun x hx => by
      rw [← replay_locked (r := r)]
      exact hrun.not_writes h hh (by simp) hx (hna j hj hji ha)
    rw [hs.entry]
    exact ⟨ha, fun _ => hs⟩

section

variable {b : Blk} (h : FullInv G m (pre ++ b :: post)) (r : Region)
  {userId callerPerms : UInt32}
include h r

theorem othersSame_alloc {q : Request} (ht : Takes G m pre b i q) :
    OthersSame G m (replay (allocEvents G pre b post i (nextIdOf m) q) m) i := by
  refine CallRun.othersSame h (.alloc (r := r) ht) (fun j hj hji ha hauth => hauth)
    fun j hj hji ha => ?_
  rw [entryAt_alloc_other h.toInv ht hj hji, ha]

theorem othersSame_free (hf : Finds G m objId i) (hh : Holds G m i b)
    (hacc : (entryAt m i).access userId callerPerms SHM_PERM_FREE = .ok) :
    OthersSame G m (replay (freeEvents G pre b post i) m) i := by
  refine CallRun.othersSame h (.free (r := r) hf hh hacc) (fun j hj hji ha hauth => ?_)
    fun j hj hji ha => ?_
  · exact hji (hf.eq h.ids hj ha hauth.1.symm).symm
  · rw [free_entry_other hj hji, ha]

theorem othersSame_resize {n : Nat} {rc : Rc} {W : List Event} (hf : Finds G m objId i)
    (hh : Holds G m i b) (hacc : (entryAt m i).access userId callerPerms SHM_PERM_RESIZE = .ok)
    (hn : n ≠ 0) (hn' : n ≤ 2 ^ 64 - 64) (hres : ResizeRun G r.size pre b post i n rc W bs') :
    OthersSame G m (replay W m) i := by
  have hrun : CallRun G m (pre ++ b :: post) _ _ _ _ := .resize (r := r) hf hh hacc hn hn' hres
  refine hrun.othersSame h (fun j hj hji ha hauth => ?_) fun j hj hji ha => ?_
  · exact hji (hf.eq h.ids hj ha hauth.1.symm).symm
  · rcases hrun.slot h.toInv hj with hs | ⟨-, -, ⟨_, _, hc, -⟩, -⟩ | ⟨hlive, -⟩
    · rw [replay_locked] at hs
      rw [hs.alive, ha]
    · exact nomatch hc
    · exact Bool.noConfusion (ha.symm.trans hlive)

theorem othersSame_setPerms (hh : Holds G m i b) (newPerms : UInt32)
    (hacc : b.access userId callerPerms SHM_PERM_WRITE = .ok) :
    OthersSame G m (replay (setPermsEvents G b i newPerms) m) i := by
  have hf : Finds G m b.id i := hh.mirrors.id ▸ h.ids.finds hh.lt hh.alive
  have hrun : CallRun G m (pre ++ b :: post)
      (.setPerms (some r) (b.off + 56) userId callerPerms newPerms) .ok
      (lockEvents r ++ setPermsEvents G b i newPerms) (pre ++ b.permitted newPerms :: post) :=
    .setPerms hh hf hacc
  refine hrun.othersSame h (fun j hj hji ha hauth => ?_) fun j hj hji ha => ?_
  · exact hji (h.dir.inj j i hj hh.lt ha hh.alive (hauth.1.symm.trans hh.mirrors.off.symm))
  · rw [setPerms_entry_other hj hji, ha]

end

/-! ## What a user's write leaves -/

section

variable {k : Nat} (h : Inv G m bs) (hi : i < G.dirCap) (ha : (entryAt m i).alive = true)
  (hk : k < (entryAt m i).used) (v : UInt8)
include h hi ha hk

theorem othersSame_write :
    OthersSame G m (m.store (G.base + (entryAt m i).off + k) 1 v.toNat) i := by
  obtain ⟨b, hb, hh, hW⟩ := write_payload h hi ha hk v.toNat
  intro j hj hji
  cases hja : (entryAt m j).alive with
  | false =>
    have hs : SameIdentity m (m.store (G.base + (entryAt m i).off + k) 1 v.toNat) j :=
      sameIdentity_write (by omega) hj
    exact ⟨hs.alive.trans hja, fun hjb => Bool.noConfusion hjb⟩
  | true =>
    obtain ⟨pre, c, post, rfl, hhc⟩ := h.holds hj hja
    have hs : SameObj G m (m.store (G.base + (entryAt m i).off + k) 1 v.toNat) j := by
      refine sameObj_of_bytes h hhc (by simp) fun x hx => Mem.store_of_outside ?_
      refine Decidable.or_iff_not_not_and_not.2 fun hin => ?_
      have hx' := hW x ⟨_, List.mem_singleton_self _, by omega, by omega⟩
      exact hx.not_inBlk h.heap.toRep hhc (by simp) hb (hhc.blk_ne h hh (Ne.symm hji))
        ⟨by omega, by omega⟩
    rw [hs.entry]
    exact ⟨hja, fun _ => hs⟩

/-- The entry is left alone, and so is the header of the block. -/
theorem entryAt_write :
    entryAt (m.store (G.base + (entryAt m i).off + k) 1 v.toNat) i = entryAt m i ∧
      blkOfSlot G (m.store (G.base + (entryAt m i).off + k) 1 v.toNat) i = blkOfSlot G m i := by
  have hslot := G.slotAddr_lt hi
  obtain ⟨b, hb, hh, -⟩ := write_payload h hi ha hk v.toNat
  have hent : entryAt (m.store (G.base + (entryAt m i).off + k) 1 v.toNat) i = entryAt m i :=
    entryAt_congr fun x h1 h2 => Mem.store_of_outside (.inl (by omega))
  have hoff := hh.mirrors.off
  refine ⟨hent, ?_⟩
  rw [(h.write hi ha hk v.toNat).blkOfSlot_eq hb (by rw [hent, hoff]), h.blkOfSlot_eq hb hoff]

/-- **A user's write is a write to the data.** -/
theorem objOf_write : objOf G (m.store (G.base + (entryAt m i).off + k) 1 v.toNat) i
    = { objOf G m i with data := (dataOf G m i).set k v } := by
  have hslot := G.slotAddr_lt hi
  have hent := (entryAt_write h hi ha hk v).1
  have hname : nameOf (m.store (G.base + (entryAt m i).off + k) 1 v.toNat) i = nameOf m i :=
    nameOf_congr fun x h1 h2 => Mem.store_of_outside (.inl (by omega))
  have hdata : dataOf G (m.store (G.base + (entryAt m i).off + k) 1 v.toNat) i
      = (dataOf G m i).set k v := by
    refine List.ext_getElem? fun l => ?_
    rw [List.getElem?_set]
    by_cases hl : l < (entryAt m i).used
    · rw [dataOf_getElem? (by rw [hent]; exact hl), hent, dataOf_getElem? hl, Mem.store]
      by_cases hkl : k = l
      · rw [if_pos (by omega), if_pos hkl, if_pos (by simpa using hk), hkl]
        simp
      · rw [if_neg (by omega), if_neg hkl]
    · rw [if_neg (by omega), List.getElem?_eq_none (by simpa [hent] using hl),
        List.getElem?_eq_none (by simpa using hl)]
  rw [objOf, objOf, hdata, hname, hent]

end

/-! ## Room for what is used

A resize that answers `ENOMEM` was asked for more than the object uses; that takes a block as large
as the used size asks for, which the region invariant alone does not say. -/

/-- The block of every object is as large as its used size asks for. -/
def Roomy (G : Geometry) (m : Mem) : Prop :=
  ∀ i, i < G.dirCap → (entryAt m i).alive = true →
    blockSize (entryAt m i).used ≤ (blkOfSlot G m i).total

theorem OthersSame.roomy (h : OthersSame G m m' i) (hroom : Roomy G m)
    (hself : (entryAt m' i).alive = true →
      blockSize (entryAt m' i).used ≤ (blkOfSlot G m' i).total) : Roomy G m' := by
  intro j hj ha
  by_cases hji : j = i
  · subst hji
    exact hself ha
  · obtain ⟨halive, hsame⟩ := h j hj hji
    have hb := halive.symm.trans ha
    have hs := hsame hb
    rw [hs.entry, hs.blk]
    exact hroom j hj hb

/-- A resize leaves room for what it was asked for. -/
theorem ResizeRun.roomy_self {sz n : Nat} {b : Blk} {rc : Rc} {W : List Event}
    (h : Inv G m (pre ++ b :: post)) (hh : Holds G m i b) (hn : n ≠ 0) (hn' : n ≤ 2 ^ 64 - 64)
    (hroom : blockSize (entryAt m i).used ≤ b.total)
    (hrun : ResizeRun G sz pre b post i n rc W bs') :
    blockSize (entryAt (replay W m) i).used ≤ (blkOfSlot G (replay W m) i).total := by
  have hI' := hrun.inv h hh hn hn'
  have ht := blockSize_ge hn
  rcases hrun.inPlace_of_ok h hh.live hn with ⟨-, rfl, rfl⟩ |
    ⟨V, b', post', rfl, rfl, -, hp, hle⟩ | ⟨pre₁, f, post₁, pre₂, post₂, -, hr, rfl, rfl⟩
  · rw [hI'.blkOfSlot_eq (b := b) (by simp) hh.mirrors.off]
    exact hroom
  · have hent := inPlace_entry_self (n := n) hh hp (by omega)
    rw [hI'.blkOfSlot_eq (b := b') (by simp) (by rw [hent, hp.off]; exact hh.mirrors.off), hent]
    exact hle
  · have hent := moving_entry_self (n := n) hr h (by simp) ht hh.lt (by omega)
    have hmem := hr.adopted_mem_freed (hr.off_ne h.heap.toRep (by simp) hh.live)
    rw [hI'.blkOfSlot_eq hmem (by rw [hent, Blk.adopted_off, taken_off]), hent]
    exact detached_total_ge hr.fits

/-- **A call leaves room for what is used.** -/
theorem CallRun.roomy {c : Call} {rc : Rc} {W : List Event} (h : FullInv G m bs)
    (hroom : Roomy G m) (hrun : CallRun G m bs c rc W bs') : Roomy G (replay W m) := by
  have hI' := hrun.inv h.toInv
  cases hrun with
  | refused hrc hW =>
    rw [replay_refused hW]
    exact hroom
  | alloc ht =>
    rename_i pre b post i q r
    rw [replay_locked] at hI' ⊢
    refine (othersSame_alloc h r ht).roomy hroom fun _ => ?_
    have hent := entryAt_alloc h.toInv ht
    have hblk := hI'.blkOfSlot_eq (i := i) (b := (taken b (blockSize q.size)).named (nextIdOf m) q)
      (by simp [allocBlks]) (by rw [hent]; exact congrArg (· + 56) (taken_off b _).symm)
    rw [hblk, hent]
    exact detached_total_ge ht.fits
  | free hf hh hacc =>
    rename_i pre b post i objId r userId callerPerms
    rw [replay_locked]
    refine (othersSame_free h r hf hh hacc).roomy hroom fun ha => ?_
    exact Bool.noConfusion ((free_entry_self m).symm.trans ha)
  | resize hf hh hacc hn hn' hres =>
    rename_i pre b post i objId n r userId callerPerms V
    rw [replay_locked] at hI' ⊢
    refine (othersSame_resize h r hf hh hacc hn hn' hres).roomy hroom fun _ =>
      hres.roomy_self h.toInv hh hn hn' ?_
    have hold := hroom i hf.lt hf.alive
    rwa [h.toInv.blkOfSlot_eq (b := b) (by simp) hh.mirrors.off] at hold
  | setPerms hh hf hacc =>
    rename_i pre b post i j r userId callerPerms newPerms
    obtain rfl : j = i := hf.eq h.ids hh.lt hh.alive hh.mirrors.id
    rw [replay_locked] at hI' ⊢
    refine (othersSame_setPerms h r hh newPerms hacc).roomy hroom fun ha => ?_
    have hent := setPerms_entry_self (G := G) (m := m) (b := b) (p := newPerms) hh.lt
    have hblk := hI'.blkOfSlot_eq (i := j) (b := b.permitted newPerms) (by simp)
      (by rw [hent]; exact hh.mirrors.off)
    have hold := hroom j hh.lt hh.alive
    rw [h.toInv.blkOfSlot_eq (b := b) (by simp) hh.mirrors.off] at hold
    rw [hblk, hent]
    exact hold

/-- **In every reachable state there is room for what is used.** -/
theorem Reach.roomy (h : Reach G NoWrap m) : Roomy G m := by
  induction h with
  | init m backend nsInode cgroupHash name =>
    intro i hi ha
    rw [(exec_regionInit G m backend nsInode cgroupHash name).mem, entryAt_init hi] at ha
    exact Bool.noConfusion ha
  | step h hs ih =>
    obtain ⟨bs, hI⟩ := h.fullInv
    cases hs with
    | call c hl hC =>
      obtain ⟨rc, W, bs', hrun, hx⟩ := callRun hI.toInv hl
      rw [hx.mem]
      exact hrun.roomy hI ih
    | write i k v hi ha hk =>
      obtain ⟨hent, hblk⟩ := entryAt_write hI.toInv hi ha hk v
      refine (othersSame_write hI.toInv hi ha hk v).roomy ih fun _ => ?_
      rw [hent, hblk]
      exact ih i hi ha

end ShmAlloc
