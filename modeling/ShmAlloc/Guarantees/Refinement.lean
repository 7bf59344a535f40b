import ShmAlloc.Guarantees.Content
import ShmAlloc.Guarantees.Objects

/-!
# The allocator is an object store

Every call that takes the mutex does to the memory what `Does` allows it to do to the store the
memory holds, answers and out-parameters included, and a write to the payload of an object is a
write to its data.  So every run of the allocator is a run of the store.

This is for handles that map the region: one that maps less can take a block for the null pointer.
And it is for runs in which `next_id` does not wrap, without which ids do not say which object is
meant.

## What is here

* `Refines`: a call does to the store in memory what it may do, and tells its caller so.
* `refines_alloc`, `refines_free`, `refines_resize`, `refines_setPerms`, `refines_lookup` and
  `refines_lookupByName`: **each call refines the store.**  `refines_withEntry` is the part of three
  of them that looks the object up.
* `Admissible`: what is asked of a call.  Lookups may be made at any time.
* `HoldsStore`: what the refinement needs of a memory, and what every call keeps
  (`HoldsStore.call`, `HoldsStore.write`).
* `allocator_is_store`: **the allocator is an object store**: a run on a fresh region has the
  answers of a run of the store, and leaves the memory of the store that one leaves.
-/

set_option autoImplicit false

namespace ShmAlloc

open Tiling Links

variable {G : Geometry} {m m' : Mem} {bs bs' pre post : List Blk} {i : Nat}

/-! ## What the caller is told

The code writes through out-pointers in the middle of a call, so what a caller finds there is the
last write of the trace to each. -/

section

variable {sz : Nat} {p : Prog Rc} {rc : Rc} {W : List Event}

theorem reply_eq (hx : Exec sz p m rc W) : replyOf p m = ⟨rc, lastOut 0 W, lastOut 1 W⟩ := by
  rw [replyOf, hx.val, ← lastOut_effects 0, ← lastOut_effects 1, hx.eff]

theorem not_out_lockEvents (r : Region) (j v : Nat) : Event.out j v ∉ lockEvents r := by
  rw [lockEvents]
  split <;> simp

theorem Edits.not_out (hW : Edits W) (j v : Nat) : Event.out j v ∉ W := fun hmem =>
  Bool.noConfusion (hW _ hmem)

theorem not_out_inPlaceEvents (i cap n j v : Nat) : Event.out j v ∉ inPlaceEvents i cap n := by
  simp [inPlaceEvents, finishEvents]

theorem not_out_freeEvents {b : Blk} (i j v : Nat) : Event.out j v ∉ freeEvents G pre b post i := by
  rw [freeEvents, List.mem_append, not_or]
  exact ⟨edits_releaseEvents.not_out j v, by simp [clearSlotEvents]⟩

/-- No resize writes an out-parameter: it has none. -/
theorem ResizeRun.not_out {sz n : Nat} {b : Blk} (hrun : ResizeRun G sz pre b post i n rc W bs')
    (j v : Nat) : Event.out j v ∉ W := by
  cases hrun with
  | keep hle hrem => exact not_out_inPlaceEvents _ _ _ j v
  | cut hrem =>
    rw [List.mem_append, not_or]
    exact ⟨edits_cutTailEvents.not_out j v, not_out_inPlaceEvents _ _ _ j v⟩
  | grow c cs hpost hlt hcan =>
    rw [List.mem_append, not_or]
    exact ⟨edits_growEvents.not_out j v, not_out_inPlaceEvents _ _ _ j v⟩
  | noRoom hlt hcan hfull => simp
  | move pre₁ f post₁ pre₂ post₂ hlt hcan hr =>
    rw [movingEvents_eq]
    simp only [List.mem_append, not_or]
    refine ⟨⟨edits_takeEvents.not_out j v, ?_, edits_releaseEvents.not_out j v⟩, ?_, ?_⟩
    · rw [moveEvents, List.mem_append, not_or, copyEvents, extraEvents]
      refine ⟨?_, by simp [adoptEvents]⟩
      split <;> simp
    · simp [retargetEvents]
    · simp [finishEvents]

/-- Taking the lock writes no out-parameter. -/
theorem lastOut_lockEvents (r : Region) (W : List Event) (j : Nat) :
    lastOut j (lockEvents r ++ W) = lastOut j W := by
  have h := lastOut_eq_none (not_out_lockEvents r j)
  rw [lastOut] at h ⊢
  rw [List.foldl_append, h]
  rfl

end

/-! ## Refinement of a call

A call that is refused need not be looked at further: it leaves the memory alone, and `Does` leaves
the store alone. -/

/-- The call does to the store in memory what it may do. -/
def Refines (G : Geometry) (m : Mem) (c : LockedCall) : Prop :=
  Does G.dirCap (storeOf G m) c (replyOf c.prog m) (storeOf G (c.prog.mem m))

section

variable {sz : Nat} {c : LockedCall} {rc : Rc} {r : Region} {W : List Event}

/-- What is to be shown of a call that took the lock and did `W`. -/
theorem refines_of_exec (hx : Exec sz c.prog m rc (lockEvents r ++ W))
    (hd : Does G.dirCap (storeOf G m) c ⟨rc, lastOut 0 W, lastOut 1 W⟩
      (storeOf G (replay W m))) : Refines G m c := by
  rw [Refines, reply_eq hx, hx.mem, replay_locked, lastOut_lockEvents, lastOut_lockEvents]
  exact hd

/-- And if `W` writes no out-parameter. -/
theorem refines_of_silent (hx : Exec sz c.prog m rc (lockEvents r ++ W))
    (hW : ∀ j v, Event.out j v ∉ W)
    (hd : Does G.dirCap (storeOf G m) c { rc } (storeOf G (replay W m))) : Refines G m c := by
  refine refines_of_exec hx ?_
  rw [lastOut_eq_none (hW 0), lastOut_eq_none (hW 1)]
  exact hd

/-- And if it only took and released the lock. -/
theorem refines_of_refused (hx : Exec sz c.prog m rc (lockEvents r ++ [.unlock]))
    (hd : Does G.dirCap (storeOf G m) c { rc } (storeOf G m)) : Refines G m c :=
  refines_of_silent hx (by simp) hd

end

/-! ## Calls that are turned down -/

/-- **Bad arguments** are turned down before the mutex is taken. -/
theorem refines_invalid {c : LockedCall} (h : c.Invalid) : Refines G m c := by
  have hret : c.prog = pure .einval → Refines G m c := fun hprog => by
    rw [Refines, hprog]
    exact .invalid h
  refine hret ?_
  cases c with
  | mutate c =>
    cases c with
    | alloc region q outId outOff =>
      cases region with
      | none => rfl
      | some r => exact if_pos (h.resolve_left nofun)
    | free region objId userId callerPerms =>
      cases region with
      | none => rfl
      | some r => exact if_pos (h.resolve_left nofun)
    | resize region objId n userId callerPerms =>
      cases region with
      | none => rfl
      | some r => exact if_pos (h.resolve_left nofun)
    | setPerms region off userId callerPerms newPerms =>
      cases region with
      | none => rfl
      | some r => exact nomatch h
  | lookup region objId userId callerPerms outOff outUsedSize =>
    cases region with
    | none => rfl
    | some r => exact if_pos (h.resolve_left nofun)
  | lookupByName region name userId callerPerms outId outOff =>
    cases region with
    | none => rfl
    | some r =>
      cases name with
      | none => rfl
      | some s => exact absurd h (by simp [LockedCall.Invalid])

/-- The check of an entry in use is the check of its object. -/
theorem FullInv.access_eq (h : FullInv G m bs) (hi : i < G.dirCap)
    (ha : (entryAt m i).alive = true) (userId callerPerms required : UInt32) :
    (entryAt m i).access userId callerPerms required
      = checkOwner (objOf G m i).owner (objOf G m i).perms userId callerPerms required :=
  Entry.access_live (h.entry_live hi ha) ..

/-- **Calls that name their object by its id** are turned down as they should be, or go on with the
object, access being granted. -/
theorem refines_withEntry (h : FullInv G m bs) {c : LockedCall} (hv : ¬ c.Invalid)
    (hc : c.isAlloc = false) {r : Region} {objId : Nat} {userId callerPerms required : UInt32}
    {body : Nat → Prog Rc}
    (hprog : c.prog = regionLock r >>= fun _ => withEntry objId userId callerPerms required body)
    (habout : ∀ id o, c.IsAbout id o ↔ id = objId)
    (hverdict : ∀ o, c.verdict o = checkOwner o.owner o.perms userId callerPerms required) :
    Refines G m c ∨ ∃ i, Finds G m objId i ∧ c.Granted (storeOf G m) objId (objOf G m i) ∧
      (entryAt m i).access userId callerPerms required = .ok ∧
      ∀ v W, Exec G.size (body (slotAddr i)) m v W →
        Exec G.size c.prog m v (lockEvents r ++ W) := by
  rcases exec_withEntry h.layout objId userId callerPerms required body with
    ⟨habs, hx⟩ | ⟨i, hf, hx⟩
  · refine .inl (refines_of_refused (hprog ▸ exec_locked r hx)
      (.absent hv hc fun id o ho hab => ?_))
    have hab := (habout id o).1 hab
    subst hab
    exact nomatch (Absent.get habs).symm.trans ho
  · have hacc := h.access_eq hf.lt hf.alive userId callerPerms required
    rcases hx with ⟨hno, hx⟩ | ⟨hok, hx, -⟩
    · refine .inl (refines_of_refused (hprog ▸ exec_locked r hx) ?_)
      rw [hacc, ← hverdict] at hno ⊢
      exact .denied hv hf.get ((habout _ _).2 rfl) hno
    · refine .inr ⟨i, hf, ⟨hv, hf.get, (habout _ _).2 rfl, ?_⟩, hok, fun v W hb => ?_⟩
      · rw [hverdict, ← hacc, hok]
      · rw [hprog]
        exact exec_locked r (hx v W hb)

/-! ## Each call -/

section

variable {r : Region} {objId : Nat} {userId callerPerms : UInt32}

/-- **`shm_free`** drops the object. -/
theorem refines_free (h : FullInv G m bs) (hid : objId ≠ 0) :
    Refines G m (.mutate (.free (some r) objId userId callerPerms)) := by
  have hv : ¬ (LockedCall.mutate (.free (some r) objId userId callerPerms)).Invalid := fun hv =>
    hid (hv.resolve_left nofun)
  rcases refines_withEntry h hv rfl (if_neg hid) (fun _ _ => Iff.rfl) (fun _ => rfl) with
    hdone | ⟨i, hf, hg, hacc, hx⟩
  · exact hdone
  · obtain ⟨pre, b, post, rfl, hh⟩ := h.holds hf.lt hf.alive
    have hothers := othersSame_free h r hf hh hacc
    refine refines_of_silent (hx _ _ (exec_freeObject h.toInv hh)) (not_out_freeEvents i) ?_
    rw [storeOf_erase hothers h (h.free hh) hf.lt hf.alive (free_entry_self m) nextIdOf_free, hf.id]
    exact .free hg

/-- **`shm_lookup`** answers from the object. -/
theorem refines_lookup (h : FullInv G m bs) (hid : objId ≠ 0) (outOff outUsedSize : Bool) :
    Refines G m (.lookup (some r) objId userId callerPerms outOff outUsedSize) := by
  have hv : ¬ (LockedCall.lookup (some r) objId userId callerPerms outOff outUsedSize).Invalid :=
    fun hv => hid (hv.resolve_left nofun)
  rcases refines_withEntry h hv rfl (if_neg hid) (fun _ _ => Iff.rfl) (fun _ => rfl) with
    hdone | ⟨i, hf, hg, hacc, hx⟩
  · exact hdone
  · refine refines_of_exec (hx _ _ (exec_answerLookup hf.lt outOff outUsedSize)) ?_
    have hmem : replay (lookupEvents (entryAt m i) outOff outUsedSize) m = m := by
      rw [lookupEvents]
      cases outOff <;> cases outUsedSize <;> rfl
    have hreply : (⟨.ok, lastOut 0 (lookupEvents (entryAt m i) outOff outUsedSize),
          lastOut 1 (lookupEvents (entryAt m i) outOff outUsedSize)⟩ : Reply)
        = { rc := .ok, out0 := if outOff then some (objOf G m i).place else none,
            out1 := if outUsedSize then some (objOf G m i).data.length else none } := by
      rw [objOf_place, objOf_data, length_dataOf, lookupEvents]
      cases outOff <;> cases outUsedSize <;> rfl
    rw [hmem, hreply]
    exact .lookup hg

/-- The end of `shm_lookup_by_name`. -/
theorem exec_answerLookupByName (hi : i < G.dirCap) (outId outOff : Bool) :
    Exec G.size (answerLookupByName outId outOff (slotAddr i)) m .ok
      ((if outId then [.out 0 (entryAt m i).id] else []) ++
        ((if outOff then [.out 1 (entryAt m i).off] else []) ++ [.unlock])) := by
  refine Exec.load_bind (v := (entryAt m i).id) rfl (slot_field_le (k := 0) hi (by decide)) ?_
  refine (exec_setOut outId 0 _).seq ?_
  rw [replay_setOut]
  refine Exec.load_bind (v := (entryAt m i).off) rfl (slot_field_le hi (by decide)) ?_
  exact (exec_setOut outOff 1 _).seq (exec_unlockReturn _)

/-- Once the entry is found, access to it decides. -/
theorem exec_lookupByName_found {s : CStr} (hi : i < G.dirCap)
    (hx : Exec G.size (dirFindByName s) m (some (slotAddr i)) []) (userId callerPerms : UInt32)
    (outId outOff : Bool) :
    ((entryAt m i).access userId callerPerms SHM_PERM_READ = .ok →
      Exec G.size (lookupByNameLocked s userId callerPerms outId outOff) m .ok
        ((if outId then [.out 0 (entryAt m i).id] else []) ++
          ((if outOff then [.out 1 (entryAt m i).off] else []) ++ [.unlock]))) ∧
    ((entryAt m i).access userId callerPerms SHM_PERM_READ ≠ .ok →
      Exec G.size (lookupByNameLocked s userId callerPerms outId outOff) m
        ((entryAt m i).access userId callerPerms SHM_PERM_READ) [.unlock]) := by
  have hchk := exec_checkDirAccess (m := m) hi userId callerPerms SHM_PERM_READ
  refine ⟨fun hok => hx.bind_nil (hchk.bind_nil ?_), fun hno => hx.bind_nil (hchk.bind_nil ?_)⟩
  · rw [if_pos hok]
    exact exec_answerLookupByName hi outId outOff
  · rw [if_neg hno]
    exact exec_unlockReturn _

/-- **`shm_lookup_by_name`** answers from an object with the name. -/
theorem refines_lookupByName (h : FullInv G m bs) (hn : Named G m) (s : CStr)
    (outId outOff : Bool) :
    Refines G m (.lookupByName (some r) (some s) userId callerPerms outId outOff) := by
  have hv : ¬ (LockedCall.lookupByName (some r) (some s) userId callerPerms outId outOff).Invalid :=
    by simp [LockedCall.Invalid]
  rcases exec_dirFindByName h.layout hn s with ⟨hnone, hx⟩ | ⟨i, hi, ha, hname, hx⟩
  · refine refines_of_refused (exec_locked r (hx.bind_nil (exec_unlockReturn _)))
      (.absent hv rfl fun id o ho hab => ?_)
    obtain ⟨j, hf, rfl⟩ := get_eq_some.1 ho
    exact hnone j hf.lt hf.alive (Option.some.inj hab).symm
  · have hacc := h.access_eq hi ha userId callerPerms SHM_PERM_READ
    have hget := (h.ids.finds hi ha).get
    have habout : (LockedCall.lookupByName (some r) (some s) userId callerPerms outId
        outOff).IsAbout (entryAt m i).id (objOf G m i) := congrArg some hname.symm
    obtain ⟨hgranted, hdenied⟩ := exec_lookupByName_found hi hx userId callerPerms outId outOff
    by_cases hok : (entryAt m i).access userId callerPerms SHM_PERM_READ = .ok
    · have hx := hgranted hok
      have hg : (LockedCall.lookupByName (some r) (some s) userId callerPerms outId outOff).Granted
          (storeOf G m) (entryAt m i).id (objOf G m i) := ⟨hv, hget, habout, hacc.symm.trans hok⟩
      have hmem : replay ((if outId then [.out 0 (entryAt m i).id] else []) ++
          ((if outOff then [.out 1 (entryAt m i).off] else []) ++ [.unlock])) m = m := by
        cases outId <;> cases outOff <;> rfl
      refine refines_of_exec (exec_locked r hx) ?_
      rw [hmem]
      cases outId <;> cases outOff <;> exact Does.lookupByName hg
    · refine refines_of_refused (exec_locked r (hdenied hok)) ?_
      rw [hacc] at hok ⊢
      exact .denied hv hget habout hok

/-- **`shm_block_set_perms`** at the offset of an object sets its permissions. -/
theorem refines_setPerms (h : FullInv G m bs) (hr : r.size = G.size) (hi : i < G.dirCap)
    (ha : (entryAt m i).alive = true) (newPerms : UInt32) :
    Refines G m (.mutate (.setPerms (some r) (entryAt m i).off userId callerPerms newPerms)) := by
  obtain ⟨pre, b, post, rfl, hh⟩ := h.holds hi ha
  have hbm : b ∈ pre ++ b :: post := by simp
  have hbb := h.heap.bounds hbm
  have hsz := G.size_eq
  have hv : ¬ (LockedCall.mutate (.setPerms (some r) (entryAt m i).off userId callerPerms
    newPerms)).Invalid := nofun
  have hget := (h.ids.finds hi ha).get
  have hacc : b.access userId callerPerms SHM_PERM_WRITE
      = checkOwner (objOf G m i).owner (objOf G m i).perms userId callerPerms SHM_PERM_WRITE := by
    rw [← (h.sameObject hh hbm).access (h.entry_live hi ha) hh.live]
    exact h.access_eq hi ha userId callerPerms SHM_PERM_WRITE
  have hoff := exec_blkOfPoff h.layout (o := b.off) (by omega)
  have hchk := exec_checkBlockAccess (r := r) (h.heap.blk b hbm) (by omega) userId callerPerms
    SHM_PERM_WRITE
  have hnull : isNull r (G.base + b.off) = false := isNull_of_mapped (by omega)
  rw [hnull, if_neg Bool.false_ne_true] at hchk
  have hlock : ∀ {rc : Rc} {W : List Event}, Exec G.size
      (if b.access userId callerPerms SHM_PERM_WRITE = .ok then
          setBlockPerms newPerms (G.base + b.off)
        else unlockReturn (b.access userId callerPerms SHM_PERM_WRITE)) m rc W →
      Exec G.size (shmBlockSetPerms (some r) (entryAt m i).off userId callerPerms newPerms) m rc
        (lockEvents r ++ W) := fun hx => by
    rw [hh.mirrors.off]
    exact exec_locked r (hoff.bind_nil (hchk.bind_nil hx))
  by_cases hok : b.access userId callerPerms SHM_PERM_WRITE = .ok
  · rw [if_pos hok] at hlock
    obtain ⟨j, hf, hx⟩ := exec_setBlockPerms h.toInv hh newPerms
    -- the search by the id of the block finds its entry
    obtain rfl : j = i := hf.eq h.ids hi ha hh.mirrors.id
    have hI' := h.setPerms (p := newPerms) hh
    have hent := setPerms_entry_self (G := G) (m := m) (b := b) (p := newPerms) hi
    have hothers := othersSame_setPerms h r hh newPerms hok
    have hnext : nextIdOf (replay (setPermsEvents G b j newPerms) m) = nextIdOf m :=
      load_replay fun x hx => by
        have hD := G.base_ge
        have := slotAddr_ge j
        rcases writes_setPermsEvents hx with hx | hx <;> omega
    -- neither the name nor the data is touched
    have hobj : objOf G (replay (setPermsEvents G b j newPerms) m) j
        = { objOf G m j with perms := newPerms.toNat } := by
      have hname : nameOf (replay (setPermsEvents G b j newPerms) m) j = nameOf m j :=
        nameOf_congr fun x h1 h2 => replay_of_not_writes (fun hw => by
          have := G.slotAddr_lt hi
          rcases writes_setPermsEvents hw with hw | hw <;> omega) m
      have hdata : dataOf G (replay (setPermsEvents G b j newPerms) m) j = dataOf G m j := by
        rw [dataOf, dataOf, hent]
        show (List.range _).map _ = (List.range _).map _
        rw [hh.mirrors.off]
        refine List.map_congr_left fun k hk => ?_
        refine replay_of_not_writes (fun hw => ?_) m
        have := G.slotAddr_lt hi
        rcases writes_setPermsEvents hw with hw | hw <;> omega
      rw [objOf, objOf, hname, hdata, hent]
    refine refines_of_silent (hlock hx) (by simp [setPermsEvents]) ?_
    rw [storeOf_put hothers h hI' hi (by rw [hent]; exact ha) (by rw [hent]) hnext, hobj]
    exact .setPerms ⟨hv, hget, rfl, hacc.symm.trans hok⟩
  · rw [if_neg hok] at hlock
    refine refines_of_refused (hlock (exec_unlockReturn _)) ?_
    rw [hacc] at hok ⊢
    exact .denied hv hget rfl hok

/-- The object of a new entry is as it was asked for. -/
theorem isNew_of_entry {o cap id : Nat} {q : Request} (hent : entryAt m' i = newEntry o cap id q)
    (hname : nameOf m' i = storedName q.name)
    (hzero : ∀ k, k < cap → m' (G.base + o + 56 + k) = 0) : (objOf G m' i).IsNew q := by
  have hused : (entryAt m' i).used = q.size := by rw [hent]; rfl
  have hoff : (entryAt m' i).off = o + 56 := by rw [hent]; rfl
  have hcap : (entryAt m' i).cap = cap := by rw [hent]; rfl
  refine ⟨?_, ?_, ?_, hname, ?_, fun k hk => ?_⟩
  · rw [objOf, hent, newEntry]
  · rw [objOf, hent, newEntry]
  · rw [objOf, hent, newEntry]
  · rw [objOf_data, length_dataOf, hused]
  · rw [objOf_cap, hcap] at hk
    rw [objOf_data, dataOf_getElem? (by omega), hoff, ← Nat.add_assoc G.base, hzero k (by omega)]

/-- **`shm_alloc`** adds an object, or there is no room. -/
theorem refines_alloc (h : FullInv G m bs) {q : Request} (hq : q.size ≠ 0)
    (hq' : q.size ≤ 2 ^ 64 - 64)
    (hnext : nextIdOf m ≤ nextIdOf ((Call.alloc (some r) q true true).prog.mem m)) :
    Refines G m (.mutate (.alloc (some r) q true true)) := by
  have hv : ¬ (LockedCall.mutate (.alloc (some r) q true true)).Invalid := by
    simp [LockedCall.Invalid, hq]
  have hargs : ¬ (q.size = 0 ∨ true = false ∨ true = false) := by simpa using hq
  have hprog : (LockedCall.mutate (.alloc (some r) q true true)).prog
      = regionLock r >>= fun _ => allocLocked q.size q.name q.userId q.perms q.typeTag :=
    if_neg hargs
  have hdead : ∀ {j}, j < G.dirCap → ¬ (entryAt m j).Live → (entryAt m j).alive = false :=
    fun hj hl => by
      rw [← Bool.not_eq_true]
      exact fun ha => hl (h.entry_live hj ha)
  rcases exec_allocLocked h.toInv hq hq' with
    ⟨hfull, hx⟩ | ⟨⟨j, hj, hjl⟩, hno, hx⟩ | ⟨pre, b, post, i, rfl, ht, hx⟩
  · exact refines_of_refused (hprog ▸ exec_locked r hx)
      (.full hv rfl (h.store_full fun j hj => (hfull j hj).1))
  · exact refines_of_refused (hprog ▸ exec_locked r hx)
      (.noRoom hv rfl (h.store_not_full hj (hdead hj hjl)))
  · have hx : Exec G.size (LockedCall.mutate (.alloc (some r) q true true)).prog m .ok _ :=
      hprog ▸ exec_locked r hx
    have hlt := h.store_not_full ht.slot_lt (hdead ht.slot_lt ht.slot_free)
    have hent := entryAt_alloc h.toInv ht
    rw [show (Call.alloc (some r) q true true).prog.mem m = _ from hx.mem, replay_locked,
      nextIdOf_alloc ht] at hnext
    have hpos := h.ids.next_pos
    have hmod := nextIdOf_lt m
    have hnext' : add64 (nextIdOf m) 1 = nextIdOf m + 1 := by
      rw [add64] at hnext ⊢
      omega
    have hI' := h.alloc ht (by rw [← hnext', add64]; exact Nat.mod_lt _ (by decide))
    have hothers := othersSame_alloc h r ht
    refine refines_of_exec hx ?_
    have hout : lastOut 0 (lockEvents r ++ allocEvents G pre b post i (nextIdOf m) q) = _ ∧
      lastOut 1 (lockEvents r ++ allocEvents G pre b post i (nextIdOf m) q) = _ :=
        lastOut_allocEvents r (nextIdOf m)
    rw [lastOut_lockEvents, lastOut_lockEvents] at hout
    rw [hout.1, hout.2, storeOf_add hothers h hI' ht.slot_lt (hdead ht.slot_lt ht.slot_free)
      (by rw [hent]; rfl) (by rw [hent]; rfl) ((nextIdOf_alloc ht).trans hnext')]
    have hplace : (objOf G (replay (allocEvents G pre b post i (nextIdOf m) q) m) i).place
        = b.off + 56 := by
      rw [objOf_place, hent, newEntry]
    rw [← hplace]
    refine .alloc hv hlt (isNew_of_entry hent (nameIs_alloc m _).nameOf_eq fun k =>
      alloc_clear ht.slot_lt)
      (hothers.fits hI'.toInv ht.slot_lt (by rw [hent]; rfl) fun ha => ?_)
    exact absurd (h.entry_live ht.slot_lt ha) ht.slot_free

/-- A resize that failed found no room, and did nothing. -/
theorem ResizeRun.of_ne_ok {sz n : Nat} {b : Blk} {rc : Rc} {W : List Event}
    (hrun : ResizeRun G sz pre b post i n rc W bs') (hrc : rc ≠ .ok) :
    rc = .enomem ∧ W = [.unlock] ∧ b.total < blockSize n := by
  cases hrun with
  | noRoom hlt hcan hfull => exact ⟨rfl, rfl, hlt⟩
  | _ => exact absurd rfl hrc

/-- The object of an entry that was resized is the object, resized. -/
theorem isResized_of_entry {off cap n : Nat}
    (hent : entryAt m' i = { entryAt m i with off, cap, used := n })
    (hname : nameOf m' i = nameOf m i)
    (hkept : ∀ k, k < min (min (entryAt m i).used n) (entryAt m i).cap →
      m' (G.base + (entryAt m' i).off + k) = m (G.base + (entryAt m i).off + k)) :
    (objOf G m i).IsResized (objOf G m' i) n := by
  have hused : (entryAt m' i).used = n := by rw [hent]
  refine ⟨?_, ?_, fun k hk => ?_⟩
  · rw [objOf, objOf, hent, hname]
  · rw [objOf_data, length_dataOf, hused]
  · rw [objOf_cap, objOf_data, length_dataOf] at hk
    rw [objOf_data, objOf_data, dataOf_getElem? (by omega), dataOf_getElem? (by omega),
      hkept k hk]

/-- **`shm_resize`** resizes the object, or there is no room. -/
theorem refines_resize (h : FullInv G m bs) (hroom : Roomy G m) (hr : r.size ≤ G.size)
    (hid : objId ≠ 0) {n : Nat} (hn : n ≠ 0) (hn' : n ≤ 2 ^ 64 - 64)
    (hc : Completed r.size ((shmResize (some r) objId n userId callerPerms).trace m)) :
    Refines G m (.mutate (.resize (some r) objId n userId callerPerms)) := by
  have hargs : ¬ (objId = 0 ∨ n = 0) := by simp [hid, hn]
  have hv : ¬ (LockedCall.mutate (.resize (some r) objId n userId callerPerms)).Invalid := fun hv =>
    hargs (hv.resolve_left nofun)
  rcases refines_withEntry h hv rfl (if_neg hargs) (fun _ _ => Iff.rfl) (fun _ => rfl) with
    hdone | ⟨i, hf, hg, hacc, hx⟩
  · exact hdone
  rcases exec_shmResize_object h.toInv r hid hn userId callerPerms with
    ⟨rc, -, hno, -⟩ | ⟨pre, b, post, j, rfl, hf', hh, -, -, hcomp⟩
  · exact absurd hacc (hno i hf)
  obtain rfl := hf.unique hf'
  obtain ⟨rc, W, bs', hres, hbody⟩ := exec_resizeObject h.toInv hh hr hn hn'
    (resizable_of_completed h.toInv hh hr hn hn' (hcomp _ hc))
  have hx := hx _ _ hbody
  by_cases hok : rc = .ok
  · subst hok
    have hrun : CallRun G m (pre ++ b :: post) _ _ _ _ := .resize (r := r) hf hh hacc hn hn' hres
    have hI' := hres.fullInv h hh hn hn'
    have hothers := othersSame_resize h r hf hh hacc hn hn' hres
    obtain ⟨j, off, cap, hf'', hent⟩ := hrun.resize_entry h.toInv
    obtain rfl := hf.unique hf''
    rw [replay_locked] at hent
    have hnext : nextIdOf (replay W m) = nextIdOf m := by
      rcases hrun.newId h.toInv hx with ⟨-, hsame⟩ | ⟨hnew, -⟩
      · rwa [replay_locked] at hsame
      · exact nomatch hnew
    have hname : nameOf (replay W m) i = nameOf m i := by
      rcases hrun.slot h.toInv hf.lt with hs | ⟨-, -, ⟨_, _, hc, -⟩, -⟩ | ⟨-, -, ⟨_, _, _, hc⟩, -⟩
      · rw [replay_locked] at hs
        exact nameOf_congr hs.name
      · exact nomatch hc
      · exact nomatch hc
    refine refines_of_silent hx hres.not_out ?_
    have ha' : (entryAt (replay W m) i).alive = true := by rw [hent]; exact hf.alive
    rw [storeOf_put hothers h hI' hf.lt ha' (by rw [hent]) hnext, hf.id]
    refine .resize hg (isResized_of_entry hent hname fun k hk => ?_)
      (hothers.fits hI'.toInv hf.lt ha' fun _ => hf.id)
    rw [hh.mirrors.cap] at hk
    exact hres.content_of_cap h.toInv hh hn hn' hk
  · obtain ⟨rfl, rfl, hlt⟩ := hres.of_ne_ok hok
    refine refines_of_refused hx (.cannotGrow hg ?_)
    rw [objOf_data, length_dataOf]
    have hold := hroom i hf.lt hf.alive
    rw [h.toInv.blkOfSlot_eq (b := b) (by simp) hh.mirrors.off] at hold
    -- sizes are rounded up monotonically
    by_contra hle
    have hmono : blockSize n ≤ blockSize (entryAt m i).used :=
      Nat.mul_le_mul_right 8 (Nat.div_le_div_right (by omega))
    omega

end

/-! ## Runs -/

/-- The call is made through a handle that maps the region, and `next_id` does not wrap. -/
def ThroughWhole (G : Geometry) (m : Mem) (c : Call) : Prop :=
  NoWrap m c ∧ ∀ r, c.region = some r → r.size = G.size

/-- What is asked of a call that takes the mutex; a lookup may be made at any time. -/
def Admissible (G : Geometry) (m : Mem) : LockedCall → Prop
  | .mutate c => Legal G m c ∧ ThroughWhole G m c
  | _ => True

/-- **The memory holds a store**: what that takes, and what every call keeps. -/
structure HoldsStore (G : Geometry) (m : Mem) : Prop where
  inv : ∃ bs, FullInv G m bs
  roomy : Roomy G m
  named : Named G m

theorem Reach.holdsStore (h : Reach G NoWrap m) : HoldsStore G m := ⟨h.fullInv, h.roomy, h.named⟩

/-- A call leaves a memory that holds a store. -/
theorem HoldsStore.call (h : HoldsStore G m) {c : LockedCall} (hc : Admissible G m c) :
    HoldsStore G (c.prog.mem m) := by
  rcases c.mutates_or_quiet with ⟨d, rfl⟩ | ⟨-, hquiet⟩
  · obtain ⟨bs, hI⟩ := h.inv
    have hs : Step G NoWrap m (d.prog.mem m) := .call d hc.1 hc.2.1
    obtain ⟨rc, W, bs', hrun, hx⟩ := callRun hI.toInv hc.1
    refine ⟨hs.fullInv hI, ?_, hs.named hI.toInv h.named⟩
    show Roomy G (d.prog.mem m)
    rw [hx.mem]
    exact hrun.roomy hI h.roomy
  · rwa [hquiet.mem]

/-- So does a write to a payload. -/
theorem HoldsStore.write (h : HoldsStore G m) {k : Nat} (hi : i < G.dirCap)
    (ha : (entryAt m i).alive = true) (hk : k < (entryAt m i).used) (v : UInt8) :
    HoldsStore G (m.store (G.base + (entryAt m i).off + k) 1 v.toNat) := by
  obtain ⟨bs, hI⟩ := h.inv
  have hs : Step G NoWrap m _ := .write i k v hi ha hk
  obtain ⟨hent, hblk⟩ := entryAt_write hI.toInv hi ha hk v
  refine ⟨hs.fullInv hI, ?_, hs.named hI.toInv h.named⟩
  refine (othersSame_write hI.toInv hi ha hk v).roomy h.roomy fun _ => ?_
  rw [hent, hblk]
  exact h.roomy i hi ha

/-- **Every call refines the store.** -/
theorem HoldsStore.refines (h : HoldsStore G m) {c : LockedCall} (hc : Admissible G m c) :
    Refines G m c := by
  obtain ⟨bs, hI⟩ := h.inv
  by_cases hv : c.Invalid
  · exact refines_invalid hv
  cases c with
  | mutate c =>
    obtain ⟨hl, hnext, hsize⟩ := hc
    cases c with
    | alloc region q outId outOff =>
      simp only [LockedCall.Invalid, not_or, Bool.not_eq_false] at hv
      obtain ⟨hr, hq, rfl, rfl⟩ := hv
      obtain ⟨r, rfl⟩ := Option.ne_none_iff_exists'.1 hr
      exact refines_alloc hI hq hl.args hnext
    | free region objId userId callerPerms =>
      simp only [LockedCall.Invalid, not_or] at hv
      obtain ⟨r, rfl⟩ := Option.ne_none_iff_exists'.1 hv.1
      exact refines_free hI hv.2
    | resize region objId n userId callerPerms =>
      simp only [LockedCall.Invalid, not_or] at hv
      obtain ⟨r, rfl⟩ := Option.ne_none_iff_exists'.1 hv.1
      exact refines_resize hI h.roomy (Nat.le_of_eq (hsize r rfl)) hv.2.1 hv.2.2 hl.args
        (hl.completed r rfl)
    | setPerms region off userId callerPerms newPerms =>
      obtain ⟨r, rfl⟩ := Option.ne_none_iff_exists'.1 hv
      obtain ⟨i, hi, ha, rfl⟩ := hl.args
      exact refines_setPerms hI (hsize r rfl) hi ha newPerms
  | lookup region objId userId callerPerms outOff outUsedSize =>
    simp only [LockedCall.Invalid, not_or] at hv
    obtain ⟨r, rfl⟩ := Option.ne_none_iff_exists'.1 hv.1
    exact refines_lookup hI hv.2 outOff outUsedSize
  | lookupByName region name userId callerPerms outId outOff =>
    simp only [LockedCall.Invalid, not_or] at hv
    obtain ⟨r, rfl⟩ := Option.ne_none_iff_exists'.1 hv.1
    obtain ⟨s, rfl⟩ := Option.ne_none_iff_exists'.1 hv.2
    exact refines_lookupByName hI h.named s outId outOff

/-- **A write to a payload refines a write to the data.** -/
theorem HoldsStore.refines_write (h : HoldsStore G m) {k : Nat} (hi : i < G.dirCap)
    (ha : (entryAt m i).alive = true) (hk : k < (entryAt m i).used) (v : UInt8) :
    (storeOf G m).get (entryAt m i).id = some (objOf G m i) ∧
      storeOf G (m.store (G.base + (entryAt m i).off + k) 1 v.toNat)
        = (storeOf G m).put (entryAt m i).id
            { objOf G m i with data := (objOf G m i).data.set k v } := by
  obtain ⟨bs, hI⟩ := h.inv
  have hent := (entryAt_write hI.toInv hi ha hk v).1
  refine ⟨(hI.ids.finds hi ha).get, ?_⟩
  rw [objOf_data, ← objOf_write hI.toInv hi ha hk v]
  refine storeOf_put (othersSame_write hI.toInv hi ha hk v) hI (hI.write hi ha hk v.toNat) hi
    (by rw [hent]; exact ha) (by rw [hent]) (nextIdOf_write (G := G) (by omega))

/-- The call, and what its caller was told. -/
def Answer.told (a : Answer) : LockedCall × Reply :=
  (.mutate a.call, ⟨a.rc, lastOut 0 a.trace, lastOut 1 a.trace⟩)

theorem Run.storeRun (h : HoldsStore G m) {log : List Answer}
    (hrun : Run G (ThroughWhole G) m log m') :
    HoldsStore G m' ∧ StoreRun G.dirCap (storeOf G m) (log.map Answer.told) (storeOf G m') := by
  induction hrun with
  | refl => exact ⟨h, .refl⟩
  | call hrun c hl hC ih =>
    have hc : Admissible G _ (.mutate c) := ⟨hl, hC⟩
    rw [List.map_append]
    exact ⟨ih.1.call hc, ih.2.call (ih.1.refines hc)⟩
  | write hrun i k v hi ha hk ih =>
    obtain ⟨hget, hput⟩ := ih.1.refines_write hi ha hk v
    refine ⟨ih.1.write hi ha hk v, ?_⟩
    rw [hput]
    exact ih.2.write hget k v

/-- A freshly initialised region holds the empty store. -/
theorem storeOf_init (backend nsInode cgroupHash : Nat) (name : Option CStr) (m : Mem) :
    storeOf G ((regionInit G.size backend G.dirCap name nsInode cgroupHash).mem m)
      = Registry.empty 1 := by
  rw [(exec_regionInit G m backend nsInode cgroupHash name).mem]
  refine Registry.ext (counters_init m).2.2 (funext fun objId => ?_)
  refine Absent.get fun j hj ha => ?_
  rw [entryAt_init hj] at ha
  exact Bool.noConfusion ha

/-- **The allocator is an object store.**  A run that starts on a fresh region, whose calls return
and go through handles that map it and in which `next_id` does not wrap, is a run of the store that
starts empty, with the same calls and the same answers, and the memory holds the store it leads to;
in that, no two objects share a byte.  Any further call refines the store in turn, lookups
included. -/
theorem allocator_is_store {backend nsInode cgroupHash : Nat} {name : Option CStr} {m₀ m : Mem}
    {log : List Answer}
    (hrun : Run G (ThroughWhole G)
      ((regionInit G.size backend G.dirCap name nsInode cgroupHash).mem m₀) log m) :
    StoreRun G.dirCap (Registry.empty 1) (log.map Answer.told) (storeOf G m) ∧
      Store.Ok (storeOf G m) ∧ ∀ c, Admissible G m c → Refines G m c := by
  have h₀ : Reach G NoWrap _ := .init m₀ backend nsInode cgroupHash name
  obtain ⟨h, hstore⟩ := hrun.storeRun h₀.holdsStore
  rw [storeOf_init] at hstore
  exact ⟨hstore, hstore.ok (Registry.ok_empty _ 1), fun c => h.refines⟩

/-- On the page, the first object is the first of the store. -/
theorem allocator_is_store_page : ∃ (a : Reply) (σ : Store),
    StoreRun pageGeometry.dirCap (Registry.empty 1) [(.mutate (asks 8), a)] σ ∧ a.rc = .ok ∧
      Store.Ok σ := by
  have hl : Legal pageGeometry (freshMem pageGeometry) (asks 8) :=
    legal_alloc (inv_fresh pageGeometry).toInv rfl (by decide) (by decide)
  have hC : ThroughWhole pageGeometry (freshMem pageGeometry) (asks 8) :=
    ⟨noWrap_first (by decide) (by decide) (by decide) (by decide), fun r hr =>
      Option.some.inj hr ▸ rfl⟩
  obtain ⟨hrun, hok, -⟩ := allocator_is_store (Run.refl.call (asks 8) hl hC)
  exact ⟨_, _, hrun, (exec_first (by decide) (by decide) (by decide) (by decide) pageHandle).val,
    hok⟩

end ShmAlloc
