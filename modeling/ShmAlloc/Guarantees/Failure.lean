import ShmAlloc.Region.ReadOnly

/-!
# Failed operations change nothing

An operation that returns an error has written nothing, neither to the region nor through its
out-pointers, and does not hold the mutex.  Nothing is assumed of the memory it ran on.

## What is here

* `FailsClean`: if a program fails, it has only read, and released the lock last.
* `Succeeds`: a program returns 0.  The exits that are not failures need no look at what they do.
* `FailsClean.locked`: a body that fails clean, run under the lock.
* `reads_heapAllocBlock` and `reads_growInPlace`: **a heap operation that finds nothing has only
  read.** These are the two that write on one path and report failure on another.
* `failed_operations_change_nothing`: **whatever the memory and the arguments, a call of
  `shm_alloc`, `shm_free`, `shm_resize`, `shm_block_set_perms`, `shm_lookup` or `shm_lookup_by_name`
  that returns an error leaves the region and its caller's variables as they were.**

The proof follows the structure of the code: every failing exit lies behind reads only, and there is
one lemma for each function under the lock.
-/

set_option autoImplicit false

namespace ShmAlloc

/-! ## Programs under the lock -/

/-- The program returns 0. -/
def Succeeds (x : Prog Rc) : Prop := ∀ m, x.val m = .ok

/-- If the run of the program on `m` fails, it has only read, and released the lock last. -/
def FailsCleanAt (x : Prog Rc) (m : Mem) : Prop :=
  x.val m ≠ .ok → ∃ V, x.trace m = V ++ [.unlock] ∧ ∀ e ∈ V, e.isRead = true

/-- If the program fails, it has only read, and released the lock last. -/
def FailsClean (x : Prog Rc) : Prop := ∀ m, FailsCleanAt x m

theorem Succeeds.bind {α : Type} {x : Prog α} {f : α → Prog Rc} (h : ∀ a, Succeeds (f a)) :
    Succeeds (x >>= f) := fun _ => h _ _

theorem succeeds_unlockReturn : Succeeds (unlockReturn .ok) := fun _ => rfl

theorem Succeeds.failsCleanAt {x : Prog Rc} (h : Succeeds x) (m : Mem) : FailsCleanAt x m :=
  fun hne => absurd (h m) hne

theorem failsClean_unlockReturn (rc : Rc) : FailsClean (unlockReturn rc) := fun _ _ =>
  ⟨[], rfl, by simp⟩

theorem failsCleanAt_reads {α : Type} {x : Prog α} {f : α → Prog Rc} {m : Mem} (hx : Reads x m)
    (hf : FailsCleanAt (f (x.val m)) m) : FailsCleanAt (x >>= f) m := fun hne => by
  rw [Prog.val_bind, hx.mem] at hne
  obtain ⟨V, hV, hr⟩ := hf hne
  refine ⟨x.trace m ++ V, ?_, fun e he => (List.mem_append.1 he).elim (hx e) (hr e)⟩
  rw [Prog.trace_bind, hx.mem, hV, List.append_assoc]

theorem failsClean_reads {α : Type} {x : Prog α} {f : α → Prog Rc} (hx : ReadsOnly x)
    (hf : ∀ a, FailsClean (f a)) : FailsClean (x >>= f) := fun m =>
  failsCleanAt_reads (hx m) (hf _ m)

/-- A program that either has only read, or is followed by one that succeeds. -/
theorem failsCleanAt_bind {α : Type} {x : Prog α} {f : α → Prog Rc} {m : Mem}
    (h : Reads x m ∧ FailsCleanAt (f (x.val m)) m ∨ Succeeds (f (x.val m))) :
    FailsCleanAt (x >>= f) m := by
  rcases h with ⟨hx, hf⟩ | hs
  · exact failsCleanAt_reads hx hf
  · intro hne
    rw [Prog.val_bind] at hne
    exact absurd (hs _) hne

/-! ## Where a heap operation fails

The walk writes in its last step if at all, so an induction over its fuel sees only loads until
then. -/

/-- **First fit that finds nothing has only read.** -/
theorem reads_firstFit (needTotal fuel : Nat) : ∀ {prevLnk curLnk : Nat} {m : Mem},
    (firstFit needTotal fuel prevLnk curLnk).val m = none →
      Reads (firstFit needTotal fuel prevLnk curLnk) m := by
  induction fuel with
  | zero => exact fun {_ _ m} _ => (ReadsOnly.hang.bind fun _ => .pure none) m
  | succ fuel ih =>
    intro prevLnk curLnk m hval
    rw [firstFit] at hval ⊢
    by_cases h0 : curLnk = 0
    · rw [if_pos h0]
      exact ReadsOnly.pure none m
    · rw [if_neg h0] at hval ⊢
      have hlink : ReadsOnly (shmBlkOfLink curLnk) := readsOnly_blkAtHoff _
      have htotal := ReadsOnly.get ((shmBlkOfLink curLnk).val m) BlockHdr.totalSize
      rw [Prog.val_bind, (hlink m).mem, Prog.val_bind, (htotal m).mem] at hval
      refine (hlink m).bind ((htotal m).bind ?_)
      split at hval
      · -- a block that fits is returned, whatever is done to it
        exact absurd hval (by simp)
      · rename_i hsmall
        have hnext := ReadsOnly.get ((shmBlkOfLink curLnk).val m) BlockHdr.nextFree
        rw [Prog.val_bind, (hnext m).mem] at hval
        rw [if_neg hsmall]
        exact (hnext m).bind (ih hval)

/-- **`heap_alloc_block` that finds nothing has only read.** -/
theorem reads_heapAllocBlock {needTotal : Nat} {m : Mem}
    (h : (heapAllocBlock needTotal).val m = none) : Reads (heapAllocBlock needTotal) m := by
  have hhead := ReadsOnly.get shmRh RegionHdr.freeList
  rw [heapAllocBlock, Prog.val_bind, (hhead m).mem] at h
  exact (hhead m).bind (reads_firstFit _ _ h)

/-- **An in-place growth that is not possible has only read.** -/
theorem reads_tryGrowNext {b next newTotal : Nat} {m : Mem}
    (h : (tryGrowNext b next newTotal).val m = false) : Reads (tryGrowNext b next newTotal) m := by
  have hget : ∀ p f, Reads (Prog.get p f) m := fun p f => ReadsOnly.get p f m
  rw [tryGrowNext, Prog.val_bind, (hget _ _).mem, Prog.val_bind, (hget _ _).mem] at h
  refine (hget _ _).bind ((hget _ _).bind ?_)
  split at h
  · rename_i hfree
    rw [if_pos hfree]
    rw [Prog.val_bind, (hget _ _).mem, Prog.val_bind, (hget _ _).mem] at h
    refine (hget _ _).bind ((hget _ _).bind ?_)
    split at h
    · exact absurd h (by simp)
    · rename_i hsmall
      rw [if_neg hsmall]
      exact ReadsOnly.pure false m
  · rename_i hfree
    rw [if_neg hfree]
    exact ReadsOnly.pure false m

theorem reads_growInPlace {r : Region} {b newTotal : Nat} {m : Mem}
    (h : (growInPlace r b newTotal).val m = false) : Reads (growInPlace r b newTotal) m := by
  have hho := readsOnly_hoffOfBlk b m
  have htotal := ReadsOnly.get b BlockHdr.totalSize m
  have hsize := readsOnly_heapSize r m
  rw [growInPlace, Prog.val_bind, hho.mem, Prog.val_bind, htotal.mem, Prog.val_bind, hsize.mem] at h
  refine hho.bind (htotal.bind (hsize.bind ?_))
  split at h
  · rename_i hin
    have hnext := readsOnly_blkAtHoff
      (add64 ((shmHoffOfBlk b).val m) ((Prog.get b BlockHdr.totalSize).val m)) m
    rw [Prog.val_bind, hnext.mem] at h
    rw [if_pos hin]
    exact hnext.bind (reads_tryGrowNext h)
  · rename_i hin
    rw [if_neg hin]
    exact ReadsOnly.pure false m

/-! ## The bodies of the calls -/

theorem succeeds_fillObject (slot b payloadSize : Nat) (name : Option CStr)
    (userId perms typeTag : UInt32) :
    Succeeds (fillObject slot b payloadSize name userId perms typeTag) := by
  refine .bind fun _ => .bind fun _ => .bind fun _ => .bind fun _ => .bind fun _ => .bind fun _ =>
    ?_
  exact .bind fun _ => .bind fun _ => .bind fun _ => .bind fun _ => .bind fun _ => .bind fun _ =>
    succeeds_unlockReturn

theorem failsClean_allocLocked (payloadSize : Nat) (name : Option CStr)
    (userId perms typeTag : UInt32) :
    FailsClean (allocLocked payloadSize name userId perms typeTag) := by
  refine failsClean_reads readsOnly_dirFindFreeSlot fun slot => ?_
  cases slot with
  | none => exact failsClean_unlockReturn _
  | some slot =>
    intro m
    refine failsCleanAt_bind ?_
    cases hb : (heapAllocBlock (shmAlignUp (add64 blockHdrSize payloadSize) HEAP_ALIGN)).val m with
    | none => exact .inl ⟨reads_heapAllocBlock hb, failsClean_unlockReturn _ m⟩
    | some b => exact .inr (succeeds_fillObject _ _ _ _ _ _ _)

/-- Lookup and access check fail clean if what follows them does. -/
theorem failsClean_withEntry (objId : Nat) (userId callerPerms required : UInt32)
    {body : Nat → Prog Rc} (hbody : ∀ slot, FailsClean (body slot)) :
    FailsClean (withEntry objId userId callerPerms required body) := by
  refine failsClean_reads (readsOnly_dirFindById objId) fun slot => ?_
  cases slot with
  | none => exact failsClean_unlockReturn _
  | some slot =>
    refine failsClean_reads (readsOnly_checkDirAccess slot userId callerPerms _) fun acc => ?_
    by_cases hacc : acc = .ok
    · rw [if_pos hacc]
      exact hbody slot
    · rw [if_neg hacc]
      exact failsClean_unlockReturn acc

theorem failsClean_freeObject (slot : Nat) : FailsClean (freeObject slot) := fun m =>
  Succeeds.failsCleanAt (.bind fun _ => .bind fun _ => .bind fun _ => .bind fun _ => .bind fun _ =>
    .bind fun _ => succeeds_unlockReturn) m

theorem succeeds_finishResize (slot newSize : Nat) : Succeeds (finishResize slot newSize) :=
  .bind fun _ => .bind fun _ => .bind fun _ => succeeds_unlockReturn

theorem succeeds_finishInPlace (slot b newSize : Nat) : Succeeds (finishInPlace slot b newSize) :=
  .bind fun _ => .bind fun _ => succeeds_finishResize slot newSize

theorem failsClean_growByMoving (slot b newTotal newSize : Nat) :
    FailsClean (growByMoving slot b newTotal newSize) := fun m => by
  refine failsCleanAt_bind ?_
  cases hnb : (heapAllocBlock newTotal).val m with
  | none => exact .inl ⟨reads_heapAllocBlock hnb, failsClean_unlockReturn _ m⟩
  | some nb => exact .inr (.bind fun _ => succeeds_finishResize slot newSize)

theorem failsClean_resizeObject (r : Region) (newSize slot : Nat) :
    FailsClean (resizeObject r newSize slot) := by
  refine failsClean_reads (.get _ _) fun off => failsClean_reads (readsOnly_blkOfPoff off)
    fun b => ?_
  refine failsClean_reads (.get _ _) fun total m => ?_
  split
  · exact Succeeds.failsCleanAt (.bind fun _ => succeeds_finishInPlace _ _ _) m
  · refine failsCleanAt_bind ?_
    cases hgrew : (growInPlace r b (shmAlignUp (add64 blockHdrSize newSize) HEAP_ALIGN)).val m with
    | true => exact .inr (succeeds_finishInPlace _ _ _)
    | false => exact .inl ⟨reads_growInPlace hgrew, failsClean_growByMoving slot b _ newSize m⟩

theorem failsClean_answerLookup (outOff outUsedSize : Bool) (slot : Nat) :
    FailsClean (answerLookup outOff outUsedSize slot) := fun m =>
  Succeeds.failsCleanAt (.bind fun _ => .bind fun _ => .bind fun _ => .bind fun _ =>
    succeeds_unlockReturn) m

theorem failsClean_lookupByNameLocked (name : CStr) (userId callerPerms : UInt32)
    (outId outOff : Bool) :
    FailsClean (lookupByNameLocked name userId callerPerms outId outOff) := by
  refine failsClean_reads (readsOnly_dirFindByName name) fun slot => ?_
  cases slot with
  | none => exact failsClean_unlockReturn _
  | some slot =>
    refine failsClean_reads (readsOnly_checkDirAccess slot userId callerPerms _) fun acc => ?_
    by_cases hacc : acc = .ok
    · rw [if_pos hacc]
      intro m
      exact Succeeds.failsCleanAt (.bind fun _ => .bind fun _ => .bind fun _ => .bind fun _ =>
        succeeds_unlockReturn) m
    · rw [if_neg hacc]
      exact failsClean_unlockReturn acc

theorem failsClean_setPermsLocked (r : Region) (off : Nat) (userId callerPerms newPerms : UInt32) :
    FailsClean (shmBlkOfPoff off >>= fun b =>
      checkBlockAccess r b userId callerPerms SHM_PERM_WRITE >>= fun acc =>
        if acc = .ok then setBlockPerms newPerms b else unlockReturn acc) := by
  refine failsClean_reads (readsOnly_blkOfPoff off) fun b => ?_
  refine failsClean_reads (readsOnly_checkBlockAccess r b userId callerPerms _) fun acc => ?_
  by_cases hacc : acc = .ok
  · rw [if_pos hacc]
    intro m
    exact Succeeds.failsCleanAt (.bind fun _ => .bind fun _ => .bind fun _ => .bind fun _ =>
      .bind fun _ => .bind fun _ => succeeds_unlockReturn) m
  · rw [if_neg hacc]
    exact failsClean_unlockReturn acc

/-! ## The calls -/

/-- If the run of an operation on `m` fails, it has left the memory as it was, by writing nothing at
all, has written through no out-pointer, and does not hold the mutex. -/
def FailsUnchangedAt (x : Prog Rc) (m : Mem) : Prop :=
  x.val m ≠ .ok → x.mem m = m ∧ (∀ e ∈ x.trace m, e.isWrite = false) ∧
    (∀ i v, Event.out i v ∉ x.trace m) ∧ holdsLock (x.trace m) = false

/-- An argument check that fails does nothing. -/
theorem failsUnchangedAt_pure (rc : Rc) (m : Mem) : FailsUnchangedAt (pure rc) m := fun _ =>
  ⟨rfl, by simp, by simp, rfl⟩

theorem holdsLock_concat_unlock (V : List Event) : holdsLock (V ++ [.unlock]) = false := by
  simp [holdsLock]

/-- **A body that fails clean, run under the lock.** -/
theorem FailsClean.locked {r : Region} {x : Prog Rc} (h : FailsClean x) (m : Mem) :
    FailsUnchangedAt (regionLock r >>= fun _ => x) m := by
  have hlock : ∀ e ∈ (regionLock r).trace m, e.isWrite = false ∧ ∀ i v, e ≠ .out i v := by
    rw [regionLock, Prog.trace_bind, Prog.trace_emit]
    split <;> simp [Event.isWrite]
  have hmem : (regionLock r).mem m = m := replay_of_no_write (fun e he => (hlock e he).1) m
  intro hne
  rw [Prog.val_bind, hmem] at hne
  obtain ⟨V, hV, hr⟩ := h m hne
  have htrace : (regionLock r >>= fun _ => x).trace m
      = ((regionLock r).trace m ++ V) ++ [.unlock] := by
    rw [Prog.trace_bind, hmem, hV, List.append_assoc]
  have hW : ∀ e ∈ (regionLock r >>= fun _ => x).trace m, e.isWrite = false ∧
      ∀ i v, e ≠ .out i v := by
    intro e he
    rw [htrace, List.mem_append, List.mem_append, List.mem_singleton] at he
    rcases he with (he | he) | rfl
    · exact hlock e he
    · have hread := hr e he
      refine ⟨Event.not_isWrite_of_isRead hread, fun i v hout => ?_⟩
      rw [hout] at hread
      exact Bool.noConfusion hread
    · exact ⟨rfl, fun i v hout => Event.noConfusion hout⟩
  refine ⟨replay_of_no_write (fun e he => (hW e he).1) m, fun e he => (hW e he).1,
    fun i v he => (hW _ he).2 i v rfl, ?_⟩
  rw [htrace]
  exact holdsLock_concat_unlock _

section

variable (m : Mem)

theorem failsUnchangedAt_shmAlloc (region : Option Region) (payloadSize : Nat)
    (name : Option CStr) (userId perms typeTag : UInt32) (outId outOff : Bool) :
    FailsUnchangedAt (shmAlloc region payloadSize name userId perms typeTag outId outOff) m := by
  cases region with
  | none => exact failsUnchangedAt_pure _ m
  | some r =>
    rw [shmAlloc]
    split
    · exact failsUnchangedAt_pure _ m
    · exact (failsClean_allocLocked payloadSize name userId perms typeTag).locked m

theorem failsUnchangedAt_shmFree (region : Option Region) (objId : Nat)
    (userId callerPerms : UInt32) :
    FailsUnchangedAt (shmFree region objId userId callerPerms) m := by
  cases region with
  | none => exact failsUnchangedAt_pure _ m
  | some r =>
    rw [shmFree]
    split
    · exact failsUnchangedAt_pure _ m
    · exact (failsClean_withEntry objId userId callerPerms _ failsClean_freeObject).locked m

theorem failsUnchangedAt_shmResize (region : Option Region) (objId newSize : Nat)
    (userId callerPerms : UInt32) :
    FailsUnchangedAt (shmResize region objId newSize userId callerPerms) m := by
  cases region with
  | none => exact failsUnchangedAt_pure _ m
  | some r =>
    rw [shmResize]
    split
    · exact failsUnchangedAt_pure _ m
    · exact (failsClean_withEntry objId userId callerPerms _
        (failsClean_resizeObject r newSize)).locked m

theorem failsUnchangedAt_shmBlockSetPerms (region : Option Region) (off : Nat)
    (userId callerPerms newPerms : UInt32) :
    FailsUnchangedAt (shmBlockSetPerms region off userId callerPerms newPerms) m := by
  cases region with
  | none => exact failsUnchangedAt_pure _ m
  | some r => exact (failsClean_setPermsLocked r off userId callerPerms newPerms).locked m

theorem failsUnchangedAt_shmLookup (region : Option Region) (objId : Nat)
    (userId callerPerms : UInt32) (outOff outUsedSize : Bool) :
    FailsUnchangedAt (shmLookup region objId userId callerPerms outOff outUsedSize) m := by
  cases region with
  | none => exact failsUnchangedAt_pure _ m
  | some r =>
    rw [shmLookup]
    split
    · exact failsUnchangedAt_pure _ m
    · exact (failsClean_withEntry objId userId callerPerms _
        (failsClean_answerLookup outOff outUsedSize)).locked m

theorem failsUnchangedAt_shmLookupByName (region : Option Region) (name : Option CStr)
    (userId callerPerms : UInt32) (outId outOff : Bool) :
    FailsUnchangedAt (shmLookupByName region name userId callerPerms outId outOff) m := by
  cases region with
  | none => exact failsUnchangedAt_pure _ m
  | some r =>
    cases name with
    | none => exact failsUnchangedAt_pure _ m
    | some s => exact (failsClean_lookupByNameLocked s userId callerPerms outId outOff).locked m

end

/-- **Failed operations change nothing.**  On every memory and for all arguments, an operation that
returns an error leaves the region as it was, writes through no out-pointer, and does not hold the
mutex. -/
theorem failed_operations_change_nothing (m : Mem) (region : Option Region)
    (userId callerPerms : UInt32) :
    (∀ payloadSize name perms typeTag outId outOff, FailsUnchangedAt
      (shmAlloc region payloadSize name userId perms typeTag outId outOff) m) ∧
    (∀ objId, FailsUnchangedAt (shmFree region objId userId callerPerms) m) ∧
    (∀ objId newSize, FailsUnchangedAt (shmResize region objId newSize userId callerPerms) m) ∧
    (∀ off newPerms, FailsUnchangedAt
      (shmBlockSetPerms region off userId callerPerms newPerms) m) ∧
    (∀ objId outOff outUsedSize, FailsUnchangedAt
      (shmLookup region objId userId callerPerms outOff outUsedSize) m) ∧
    ∀ name outId outOff, FailsUnchangedAt
      (shmLookupByName region name userId callerPerms outId outOff) m := by
  refine ⟨fun _ _ _ _ _ _ => ?_, fun _ => ?_, fun _ _ => ?_, fun _ _ => ?_, fun _ _ _ => ?_,
    fun _ _ _ => ?_⟩
  · exact failsUnchangedAt_shmAlloc m _ _ _ _ _ _ _ _
  · exact failsUnchangedAt_shmFree m _ _ _ _
  · exact failsUnchangedAt_shmResize m _ _ _ _ _
  · exact failsUnchangedAt_shmBlockSetPerms m _ _ _ _ _
  · exact failsUnchangedAt_shmLookup m _ _ _ _ _ _
  · exact failsUnchangedAt_shmLookupByName m _ _ _ _ _ _

end ShmAlloc
