import ShmAlloc.Guarantees.Refinement

/-!
# Every call returns

A call takes the mutex once and releases it once, walks the free list and the directory to the end
and no further, and touches no byte outside the mapping.  There is one exception.  A `shm_resize`
that moves an object to a block whose capacity field is smaller than that of the old block computes
the length of what is to be cleared by a subtraction that wraps, and clears all there is mapped and
more.  The process dies of it, holding the mutex.

## What is here

* `Balanced`: the trace takes the mutex once and releases it once, in this order, or does not touch
  it.
* `GoesWrongHolding`: the trace leaves the mapping or hangs, with the mutex taken and not released.
* `balanced_of_guarded` and `goesWrongHolding_of_guarded`: what a call does to the mutex, from its
  text.
* `LockedCall.ArgsOk` and `Overshoots`: what is asked of the arguments, and the exception, both as
  conditions on the state before the call.
* `completed_iff`: a call returns exactly if it does not overshoot.
* `calls_return`: **every call returns and is balanced, but for one that overshoots, which goes
  wrong with the mutex taken.**
-/

set_option autoImplicit false

namespace ShmAlloc

open Tiling

variable {G : Geometry} {m m' : Mem} {bs bs' pre post : List Blk} {r : Region}

/-! ## The mutex -/

/-- The trace takes the mutex once and releases it once, in this order, or does not touch it. -/
def Balanced (W : List Event) : Prop :=
  W.filter Event.isLockOp = [] ∨ ∃ rc, W.filter Event.isLockOp = [.lock rc, .unlock]

/-- The trace leaves a mapping of `size` bytes, or hangs, with the event `e`, and by then it has
taken the mutex and not released it. -/
def GoesWrongHolding (size : Nat) (W : List Event) : Prop :=
  ∃ V e rest rc, W = V ++ e :: rest ∧ Completed size V ∧ ¬ e.Within size ∧
    V.filter Event.isLockOp = [.lock rc]

/-- What stays off the lock has no operation on it. -/
theorem filter_isLockOp_eq_nil {V : List Event} (h : ∀ e ∈ V, e.isLockOp = false) :
    V.filter Event.isLockOp = [] :=
  List.filter_eq_nil_iff.2 fun e he hop => Bool.noConfusion ((h e he).symm.trans hop)

/-- **A call takes the mutex once and releases it once**, if it takes it at all. -/
theorem balanced_of_guarded {α : Type} {x : Prog α} (hx : Guarded x) (m : Mem) :
    Balanced (x.trace m) := by
  rcases hx.trace m with hnil | ⟨rc, V, htrace, hoff⟩
  · rw [hnil]
    exact .inl rfl
  · refine .inr ⟨rc, ?_⟩
    rw [htrace, List.filter_cons_of_pos rfl, List.filter_append, filter_isLockOp_eq_nil hoff]
    rfl

/-- **A call that does not return goes wrong with the mutex taken**: an operation on the lock is no
access to memory. -/
theorem goesWrongHolding_of_guarded {α : Type} {x : Prog α} (hx : Guarded x) {size : Nat}
    (h : ¬ Completed size (x.trace m)) : GoesWrongHolding size (x.trace m) := by
  rcases hx.trace m with hnil | ⟨rc, V, htrace, hoff⟩
  · rw [hnil] at h
    exact absurd (List.forall_mem_nil _) h
  -- the first access that goes wrong is in the body
  have hbody : ¬ Completed size V := fun hV => h fun e he => by
    rw [htrace, List.mem_cons, List.mem_append, List.mem_singleton] at he
    rcases he with rfl | he | rfl
    · trivial
    · exact hV e he
    · trivial
  obtain ⟨V₁, e, V₂, rfl, hin, he⟩ := exists_first_not_within hbody
  refine ⟨.lock rc :: V₁, e, V₂ ++ [.unlock], rc, ?_, List.forall_mem_cons.2 ⟨trivial, hin⟩, he, ?_⟩
  · rw [htrace, List.append_assoc]
    rfl
  · rw [List.filter_cons_of_pos rfl,
      filter_isLockOp_eq_nil fun f hf => hoff f (List.mem_append_left _ hf)]

/-! ## Staying inside the mapping

Where a call loads is known from running it on a memory that holds a region, and where it writes is
known of each way a call can go. -/

/-- **A call that goes one of the ways calls go stays inside the region.** -/
theorem CallRun.within {c : Call} {rc : Rc} {W : List Event} (h : Inv G m bs)
    (hrun : CallRun G m bs c rc W bs') : ∀ e ∈ W, e.Within G.size := by
  have hlock : ∀ {r : Region} {V : List Event}, (∀ e ∈ V, e.Within G.size) →
      ∀ e ∈ lockEvents r ++ V, e.Within G.size := fun hV => within_append (within_lockEvents _) hV
  cases hrun with
  | refused hrc hW =>
    rcases hW with rfl | ⟨r, rfl⟩
    · exact nofun
    · exact hlock within_unlock
  | alloc ht => exact hlock (allocEvents_within h ht)
  | free hf hh hacc => exact hlock (freeEvents_within h hf.lt)
  | resize hf hh hacc hn hn' hrun => exact hlock (hrun.within h hh hn)
  | setPerms hh hf hacc => exact hlock (setPermsEvents_within h hf.lt)

section

variable {userId callerPerms : UInt32}

theorem completed_lookup (hL : LayoutOk G m) {objId : Nat} (outOff outUsedSize : Bool) :
    Completed G.size
      ((shmLookup (some r) objId userId callerPerms outOff outUsedSize).trace m) := by
  by_cases hid : objId = 0
  · rw [shmLookup, if_pos hid]
    exact List.forall_mem_nil _
  rcases exec_shmLookup hL r hid userId callerPerms outOff outUsedSize with
    ⟨rc, -, hx⟩ | ⟨i, -, -, hx⟩
  · exact hx.completed (within_append (within_lockEvents r) within_unlock)
  · refine hx.completed (within_append (within_lockEvents r) ?_)
    cases outOff <;> cases outUsedSize <;> simp [lookupEvents, Event.Within]

theorem completed_lookupByName (hL : LayoutOk G m) (hn : Named G m) (name : Option CStr)
    (outId outOff : Bool) :
    Completed G.size
      ((shmLookupByName (some r) name userId callerPerms outId outOff).trace m) := by
  cases name with
  | none => exact nofun
  | some s =>
    have hdone : ∀ {rc : Rc} {W : List Event},
        Exec G.size (lookupByNameLocked s userId callerPerms outId outOff) m rc W →
        (∀ e ∈ W, e.Within G.size) → Completed G.size
          ((shmLookupByName (some r) (some s) userId callerPerms outId outOff).trace m) :=
      fun hx hW => (exec_locked r hx).completed (within_append (within_lockEvents r) hW)
    rcases exec_dirFindByName hL hn s with ⟨-, hx⟩ | ⟨i, hi, ha, -, hx⟩
    · exact hdone (hx.bind_nil (exec_unlockReturn _)) within_unlock
    · obtain ⟨hgranted, hdenied⟩ := exec_lookupByName_found hi hx userId callerPerms outId outOff
      by_cases hok : (entryAt m i).access userId callerPerms SHM_PERM_READ = .ok
      · refine hdone (hgranted hok) ?_
        cases outId <;> cases outOff <;> simp [Event.Within]
      · exact hdone (hdenied hok) within_unlock

end

/-! ## The exception -/

/-- The handle the call is made through. -/
def LockedCall.region : LockedCall → Option Region
  | mutate c => c.region
  | lookup region .. | lookupByName region .. => region

/-- What is asked of the arguments. -/
def LockedCall.ArgsOk (G : Geometry) (m : Mem) : LockedCall → Prop
  | mutate c => c.ArgsOk G m
  | _ => True

/-- The call moves an object to a block that lacks the capacity of the old one. -/
def Overshoots (G : Geometry) (m : Mem) : LockedCall → Prop
  | .mutate (.resize (some r) objId n userId callerPerms) =>
    objId ≠ 0 ∧ n ≠ 0 ∧ ∃ i, Finds G m objId i ∧
      (entryAt m i).access userId callerPerms SHM_PERM_RESIZE = .ok ∧
      (blkOfSlot G m i).total < blockSize n ∧
      ¬ GrowsInPlace G m r.size (blkOfSlot G m i) (blockSize n) ∧
      ∃ f, firstFitOf (blocks G m) (blockSize n) = some f ∧
        (taken f (blockSize n)).cap < (blkOfSlot G m i).cap
  | _ => False

/-- **When a resize returns.** -/
theorem completed_resize_iff (h : Inv G m bs) (hr : r.size = G.size) {objId n : Nat}
    {userId callerPerms : UInt32} (hn' : n ≤ 2 ^ 64 - 64) :
    Completed G.size ((shmResize (some r) objId n userId callerPerms).trace m) ↔
      ¬ Overshoots G m (.mutate (.resize (some r) objId n userId callerPerms)) := by
  by_cases hbad : objId = 0 ∨ n = 0
  · rw [shmResize, if_pos hbad]
    refine iff_of_true (List.forall_mem_nil _) fun ho => ?_
    exact hbad.elim ho.1 ho.2.1
  obtain ⟨hid, hn⟩ := not_or.1 hbad
  rcases exec_shmResize_object h r hid hn userId callerPerms with
    ⟨rc, -, hno, hx⟩ | ⟨pre, b, post, i, rfl, hf, hh, hacc, hrun, hcomp⟩
  · refine iff_of_true (hx.completed (within_append (within_lockEvents r) within_unlock)) ?_
    rintro ⟨-, -, j, hj, hacc, -⟩
    exact hno j hj hacc
  · have hR := h.heap.toRep
    have hblk : blkOfSlot G m i = b := hh.blkOfSlot hR (by simp)
    constructor
    · rintro hc ⟨-, -, j, hj, -, hlt, hcan, f, hff, hshort⟩
      obtain rfl : i = j := hf.unique hj
      rw [hblk] at hlt hcan hshort
      rw [hR.blocks_eq] at hff
      have hres := resizable_of_completed h hh (Nat.le_of_eq hr) hn hn' (hcomp r.size (hr ▸ hc))
      have hmov := hres.movable hlt fun hg => hcan (hR.growsInPlace.2 hg)
      exact absurd (movable_iff.1 hmov f hff) (Nat.not_le.2 hshort)
    · intro hno
      have hres : Resizable G r.size pre b post n := by
        refine ⟨by rw [hr, G.size_eq]; exact Nat.le_add_right .., fun hlt hcan => ?_⟩
        refine movable_iff.2 fun f hff => Nat.not_lt.1 fun hshort => hno ⟨hid, hn, i, hf, hacc, ?_⟩
        rw [hblk, hR.blocks_eq]
        exact ⟨hlt, fun hg => hcan (hR.growsInPlace.1 hg), f, hff, hshort⟩
      obtain ⟨rc, W, bs', hrun', hx⟩ :=
        exec_resizeObject h hh (Nat.le_of_eq hr) hn hn' hres
      exact (hrun rc W hx).completed
        (within_append (within_lockEvents r) (hrun'.within h hh hn))

/-- **When a call returns.** -/
theorem completed_iff (h : Inv G m bs) (hn : Named G m) {c : LockedCall} (hargs : c.ArgsOk G m)
    (hr : ∀ r, c.region = some r → r.size = G.size) :
    Completed G.size (c.prog.trace m) ↔ ¬ Overshoots G m c := by
  -- a mutator that is no resize
  have hrun : ∀ {d : Call}, d.ArgsOk G m → (∀ r objId n userId callerPerms,
      d ≠ .resize (some r) objId n userId callerPerms) → Completed G.size (d.prog.trace m) :=
    fun hargs hno => by
      obtain ⟨rc, W, bs', hrun, hx⟩ := callRun_of_resize h hargs
        fun r objId n userId callerPerms hd => absurd hd (hno r objId n userId callerPerms)
      exact hx.completed (hrun.within h)
  cases c with
  | mutate d =>
    cases d with
    | alloc region q outId outOff => exact iff_of_true (hrun hargs nofun) id
    | free region objId userId callerPerms => exact iff_of_true (hrun hargs nofun) id
    | setPerms region off userId callerPerms newPerms =>
      exact iff_of_true (hrun hargs nofun) id
    | resize region objId n userId callerPerms =>
      cases region with
      | none => exact iff_of_true nofun id
      | some r => exact completed_resize_iff h (hr r rfl) hargs
  | lookup region objId userId callerPerms outOff outUsedSize =>
    refine iff_of_true ?_ id
    cases region with
    | none => exact nofun
    | some r => exact completed_lookup h.layout outOff outUsedSize
  | lookupByName region name userId callerPerms outId outOff =>
    refine iff_of_true ?_ id
    cases region with
    | none => exact nofun
    | some r => exact completed_lookupByName h.layout hn name outId outOff

/-- **Every call returns, but for one.**  In every reachable state, a call through a handle that
maps the region, with sizes up to `2 ^ 64 - 64` and permissions set at the offset of a live object
only, stays inside the mapping with every access and ends every loop if and only if it is not a
`shm_resize` that moves an object to a block without the capacity for it.  A call that is no such
resize takes the mutex once and releases it once, or does not touch it; such a resize leaves the
mapping with the mutex taken, and so dies holding it. -/
theorem calls_return (h : Reach G AnyCall m) {c : LockedCall} (hargs : c.ArgsOk G m)
    (hr : ∀ r, c.region = some r → r.size = G.size) :
    (Completed G.size (c.prog.trace m) ↔ ¬ Overshoots G m c) ∧
      (¬ Overshoots G m c → Balanced (c.prog.trace m)) ∧
      (Overshoots G m c → GoesWrongHolding G.size (c.prog.trace m)) := by
  obtain ⟨bs, hI⟩ := h.inv
  have hreturns := completed_iff hI h.named hargs hr
  refine ⟨hreturns, fun _ => balanced_of_guarded c.guarded m, fun ho => ?_⟩
  exact goesWrongHolding_of_guarded c.guarded fun hc => hreturns.1 hc ho

/-- A resize on the page returns: the object grows into the free block behind it. -/
theorem calls_return_page :
    Completed pageGeometry.size ((shmResize (some pageHandle) 1 100 7 0xF).trace
        (firstMem pageGeometry pageHandle eightBytes)) ∧
      Balanced ((shmResize (some pageHandle) 1 100 7 0xF).trace
        (firstMem pageGeometry pageHandle eightBytes)) := by
  have h := calls_return (page_reach.mono fun _ _ _ => trivial)
    (c := .mutate (.resize (some pageHandle) 1 100 7 0xF)) (show 100 ≤ 2 ^ 64 - 64 by decide)
    fun r hr => Option.some.inj hr ▸ rfl
  have hgrows : ∀ i, i < pageGeometry.dirCap →
      (entryAt (firstMem pageGeometry pageHandle eightBytes) i).alive = true →
      GrowsInPlace pageGeometry (firstMem pageGeometry pageHandle eightBytes) pageHandle.size
        (blkOfSlot pageGeometry (firstMem pageGeometry pageHandle eightBytes) i)
        (blockSize 100) := by
    decide +kernel
  have hno : ¬ Overshoots pageGeometry (firstMem pageGeometry pageHandle eightBytes)
      (.mutate (.resize (some pageHandle) 1 100 7 0xF)) := by
    rintro ⟨-, -, i, hf, -, -, hcan, -⟩
    exact hcan (hgrows i hf.lt hf.alive)
  exact ⟨h.1.2 hno, h.2.1 hno⟩

end ShmAlloc
