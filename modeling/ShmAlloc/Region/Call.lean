import ShmAlloc.Region.Inv

/-!
# What the calls have in common

Taking and releasing the lock, the rounding of sizes, and the prologue of `shm_free`,
`shm_resize` and `shm_lookup`, which looks an object up and checks the caller's access.

## What is here

* `lockEvents`, `exec_locked` and `exec_unlockReturn`: the lock writes no memory in the model, so a
  call under it starts on the memory its caller left.
* `blockSize`: the size of the block for an object of `n` bytes, header and payload rounded up, and
  its bounds.  `blockSize_eq` says when the code's 64-bit arithmetic computes it.
* `Finds` and `Absent`: what the search by id has to find.
* `exec_withEntry`: **lookup and access check.**  Either the call goes on with the slot found, or it
  returns an error and has no effect but on the lock.
-/

set_option autoImplicit false

namespace ShmAlloc

open Tiling Links

variable {G : Geometry} {m m' : Mem} {bs : List Blk}

/-! ## Taking the lock -/

/-- What `region_lock` does. -/
def lockEvents (r : Region) : List Event :=
  .lock r.lockRc :: if r.lockRc = .ownerDead then [.consistent] else []

theorem exec_regionLock (sz : Nat) (r : Region) (m : Mem) :
    Exec sz (regionLock r) m () (lockEvents r) := by
  rw [regionLock, lockEvents]
  by_cases h : r.lockRc = .ownerDead
  · rw [if_pos h, if_pos h]
    exact .emit_bind .emit
  · rw [if_neg h, if_neg h]
    exact .emit_bind (.pure _)

theorem not_writes_lockEvents (r : Region) (x : Nat) : ¬ Writes (lockEvents r) x := by
  rw [lockEvents]
  split <;> simp [Event.Touches]

@[simp] theorem replay_lockEvents (r : Region) (m : Mem) : replay (lockEvents r) m = m :=
  funext fun x => replay_of_not_writes (not_writes_lockEvents r x) m

theorem mem_regionLock (r : Region) (m : Mem) : (regionLock r).mem m = m := by
  rw [(exec_regionLock 0 r m).mem, replay_lockEvents]

/-- A call runs its body under the lock. -/
theorem exec_locked {sz : Nat} {α : Type} (r : Region) {x : Prog α} {v : α} {W : List Event}
    (h : Exec sz x m v W) : Exec sz (regionLock r >>= fun _ => x) m v (lockEvents r ++ W) :=
  (exec_regionLock sz r m).seq ((replay_lockEvents r m).symm ▸ h)

theorem exec_unlockReturn {sz : Nat} (rc : Rc) : Exec sz (unlockReturn rc) m rc [.unlock] :=
  .emit_bind (.pure _)

/-! ## Sizes -/

/-- The size of the block for an object of `n` bytes: header and payload, rounded up. -/
def blockSize (n : Nat) : Nat := (n + 63) / 8 * 8

theorem blockSize_eq {n : Nat} (h : n ≤ 2 ^ 64 - 64) :
    shmAlignUp (add64 blockHdrSize n) HEAP_ALIGN = blockSize n := by
  rw [blockHdrSize, add64_eq (by omega), HEAP_ALIGN, shmAlignUp_eight (by omega), blockSize,
    show 56 + n + 7 = n + 63 by omega]

theorem blockSize_mod (n : Nat) : blockSize n % 8 = 0 := by
  rw [blockSize]
  omega

theorem le_blockSize (n : Nat) : n + 56 ≤ blockSize n := by
  rw [blockSize]
  omega

theorem blockSize_ge {n : Nat} (h : n ≠ 0) : 64 ≤ blockSize n := by
  rw [blockSize]
  omega

/-! ## Looking an object up

Until `next_id` wraps at most one entry has a given id; in general it is the first that
counts. -/

/-- The first slot in use with this id, if any, is slot `i`. -/
structure Finds (G : Geometry) (m : Mem) (objId i : Nat) : Prop where
  lt : i < G.dirCap
  alive : (entryAt m i).alive = true
  id : (entryAt m i).id = objId
  first : ∀ k, k < i → (entryAt m k).alive = true → (entryAt m k).id ≠ objId

/-- No slot in use has this id. -/
def Absent (G : Geometry) (m : Mem) (objId : Nat) : Prop :=
  ∀ j, j < G.dirCap → (entryAt m j).alive = true → (entryAt m j).id ≠ objId

/-- **Lookup and access check.**  Either the call goes on with `body` on the slot found, or it
returns an error and has no effect but on the lock. -/
theorem exec_withEntry (hL : LayoutOk G m) (objId : Nat) (userId callerPerms required : UInt32)
    (body : Nat → Prog Rc) :
    (Absent G m objId ∧
        Exec G.size (withEntry objId userId callerPerms required body) m .enoent [.unlock]) ∨
      ∃ i, Finds G m objId i ∧
        ((entryAt m i).access userId callerPerms required ≠ .ok ∧
            Exec G.size (withEntry objId userId callerPerms required body) m
              ((entryAt m i).access userId callerPerms required) [.unlock] ∨
          (entryAt m i).access userId callerPerms required = .ok ∧
            (∀ v W, Exec G.size (body (slotAddr i)) m v W →
              Exec G.size (withEntry objId userId callerPerms required body) m v W) ∧
            ∀ size, Completed size ((withEntry objId userId callerPerms required body).trace m) →
              Completed size ((body (slotAddr i)).trace m)) := by
  rcases exec_dirFindById hL objId with ⟨h1, h2⟩ | ⟨i, h1, h2, h3, h4, h5⟩
  · exact .inl ⟨h1, h2.bind_nil (exec_unlockReturn _)⟩
  · refine .inr ⟨i, ⟨h1, h2, h3, h4⟩, ?_⟩
    by_cases hacc : (entryAt m i).access userId callerPerms required = .ok
    · refine .inr ⟨hacc, fun v W hx => h5.bind_nil ?_, fun size hc => ?_⟩
      · refine (exec_checkDirAccess h1 userId callerPerms required).bind_nil ?_
        rw [hacc, if_pos rfl]
        exact hx
      · have hb := (exec_checkDirAccess h1 userId callerPerms required).completed_rest_nil
          (h5.completed_rest_nil hc)
        rwa [hacc, if_pos rfl] at hb
    · refine .inl ⟨hacc, h5.bind_nil ?_⟩
      refine (exec_checkDirAccess h1 userId callerPerms required).bind_nil ?_
      rw [if_neg hacc]
      exact exec_unlockReturn _

/-- An id finds one slot only. -/
theorem Finds.unique {i j objId : Nat} (h : Finds G m objId i) (h' : Finds G m objId j) :
    i = j := by
  rcases Nat.lt_trichotomy i j with hij | hij | hij
  · exact absurd h.id (h'.first i hij h.alive)
  · exact hij
  · exact absurd h'.id (h.first j hij h'.alive)

/-- What a call with access returns, whatever its body does. -/
theorem val_withEntry (hL : LayoutOk G m) {i objId : Nat} (hf : Finds G m objId i)
    {userId callerPerms required : UInt32}
    (hacc : (entryAt m i).access userId callerPerms required = .ok) (body : Nat → Prog Rc) :
    (withEntry objId userId callerPerms required body).val m = (body (slotAddr i)).val m := by
  rcases exec_dirFindById hL objId with ⟨habs, -⟩ | ⟨j, hj, ha, hid, hfirst, hx⟩
  · exact absurd hf.id (habs i hf.lt hf.alive)
  · obtain rfl : i = j := hf.unique ⟨hj, ha, hid, hfirst⟩
    have hchk := exec_checkDirAccess (m := m) hj userId callerPerms required
    rw [withEntry, hx.val_bind_nil]
    show (checkDirAccess (slotAddr i) userId callerPerms required >>= _).val m = _
    rw [hchk.val_bind_nil, if_pos hacc]

/-- What a call with access does ends in what its body does, and has no effect before that. -/
theorem trace_withEntry (hL : LayoutOk G m) {i objId : Nat} (hf : Finds G m objId i)
    {userId callerPerms required : UInt32}
    (hacc : (entryAt m i).access userId callerPerms required = .ok) (body : Nat → Prog Rc) :
    ∃ T, effects T = [] ∧ (withEntry objId userId callerPerms required body).trace m
      = T ++ (body (slotAddr i)).trace m := by
  rcases exec_dirFindById hL objId with ⟨habs, -⟩ | ⟨j, hj, ha, hid, hfirst, hx⟩
  · exact absurd hf.id (habs i hf.lt hf.alive)
  · obtain rfl : i = j := hf.unique ⟨hj, ha, hid, hfirst⟩
    have hchk := exec_checkDirAccess (m := m) hj userId callerPerms required
    refine ⟨(dirFindById objId).trace m ++
      (checkDirAccess (slotAddr i) userId callerPerms required).trace m, ?_, ?_⟩
    · rw [effects_append, hx.eff, hchk.eff]
      rfl
    · rw [withEntry, hx.trace_bind_nil]
      show _ ++ (checkDirAccess (slotAddr i) userId callerPerms required >>= _).trace m = _
      rw [hchk.trace_bind_nil, if_pos hacc, List.append_assoc]

theorem mem_trace_withEntry (hL : LayoutOk G m) {i objId : Nat} (hf : Finds G m objId i)
    {userId callerPerms required : UInt32}
    (hacc : (entryAt m i).access userId callerPerms required = .ok) {body : Nat → Prog Rc}
    {e : Event} (he : e ∈ (body (slotAddr i)).trace m) :
    e ∈ (withEntry objId userId callerPerms required body).trace m := by
  obtain ⟨T, -, htr⟩ := trace_withEntry hL hf hacc body
  rw [htr]
  exact List.mem_append_right T he

/-- With distinct ids, an id finds the one slot that has it. -/
theorem Finds.eq {i j : Nat} {objId next : Nat} (h : Finds G m objId i)
    (hids : IdsOk G.dirCap (entryAt m) next bs) (hj : j < G.dirCap)
    (ha : (entryAt m j).alive = true) (hid : (entryAt m j).id = objId) : i = j :=
  hids.distinct i j h.lt hj h.alive ha (h.id.trans hid.symm)

end ShmAlloc
