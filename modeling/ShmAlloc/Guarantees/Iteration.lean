import ShmAlloc.Guarantees.Identity

/-!
# Iterating over the directory

The cursor only moves up, and an object never changes its slot.  So an object that is live all the
time is met exactly once, when the cursor passes its slot; and an object that has been met is, from
then on, either still in its slot below the cursor or gone for good, so it is not met again.

## What is here

* `Reach.namesOk`: in every reachable state the stored names are strings within their fields.
* `Step.stays_or_retires`: **an object stays in its slot or goes for good.**
* `Report` and `Iteration`: an iteration under way, with the states it has been through and what it
  has returned.  Calls and writes of others come in between, in any number.
* `IterInv` and `Iteration.inv`: **what holds all along an iteration**, in terms of the cursor.
* `iteration_complete`: **no id is reported twice, every report is true of the state it was made in,
  and whoever was there all the time has been reported when the iteration ends.**
* `iteration_complete_fails`: with a handle that maps more than the region, an object that is there
  all the time need not be reported.
-/

set_option autoImplicit false

namespace ShmAlloc

open Tiling Links

variable {G : Geometry} {m m' m₀ : Mem} {bs : List Blk} {C : Mem → Call → Prop} {i k : Nat}

/-! ## Names -/

/-- The entries in use have names that end within their fields. -/
def NamesOk (G : Geometry) (m : Mem) : Prop :=
  ∀ i, i < G.dirCap → (entryAt m i).Live → ∃ s, NameIs m i s

/-- **In every reachable state** the stored names are strings within their fields. -/
theorem Reach.namesOk (h : Reach G C m) : NamesOk G m := fun i hi hl => h.named i hi hl.1

/-! ## What a step does to an object -/

/-- A retired id stays retired. -/
theorem Step.retired {objId : Nat} (h : FullInv G m bs) (hs : Step G NoWrap m m')
    (hr : Retired G m objId) : Retired G m' objId := by
  cases hs with
  | call c hl hC =>
    obtain ⟨rc, W, bs', hrun, hx⟩ := callRun h.toInv hl
    rw [NoWrap, hx.mem] at hC
    rw [hx.mem]
    exact hr.call h hrun hC
  | write j k v hj ha hk => exact hr.write (by omega)

/-- **An object stays in its slot or goes for good.** -/
theorem Step.stays_or_retires (h : FullInv G m bs) (hs : Step G NoWrap m m') (hi : i < G.dirCap)
    (ha : (entryAt m i).alive = true) :
    SameIdentity m m' i ∨ Retired G m' (entryAt m i).id := by
  cases hs with
  | call c hl hC =>
    obtain ⟨rc, W, bs', hrun, hx⟩ := callRun h.toInv hl
    rw [NoWrap, hx.mem] at hC
    rw [hx.mem]
    rcases hrun.slot h.toInv hi with hs | ⟨hdead, -⟩ | ⟨-, rfl, ⟨r, userId, callerPerms, rfl⟩, -⟩
    · exact .inl hs
    · exact absurd (h.entry_live hi ha) hdead
    · exact .inr (retired_of_freed h hrun hC)
  | write j k v hj ha' hk => exact .inl (sameIdentity_write (by omega) hi)

/-- The object with this id is in slot `i`, or there is none any more. -/
def InSlotOrGone (G : Geometry) (m : Mem) (i objId : Nat) : Prop :=
  (entryAt m i).alive = true ∧ (entryAt m i).id = objId ∨ Retired G m objId

theorem Step.inSlotOrGone {objId : Nat} (h : FullInv G m bs) (hs : Step G NoWrap m m')
    (hi : i < G.dirCap) (ho : InSlotOrGone G m i objId) : InSlotOrGone G m' i objId := by
  rcases ho with ⟨ha, rfl⟩ | hr
  · rcases hs.stays_or_retires h hi ha with hsame | hr
    · exact .inl ⟨hsame.alive.trans ha, hsame.id⟩
    · exact .inr hr
  · exact .inr (hs.retired h hr)

/-- An object that is live is in its slot and in no other. -/
theorem InSlotOrGone.eq {j objId : Nat} (h : FullInv G m bs) (ho : InSlotOrGone G m i objId)
    (hi : i < G.dirCap) (hj : j < G.dirCap) (ha : (entryAt m j).alive = true)
    (hid : (entryAt m j).id = objId) : i = j := by
  rcases ho with ⟨ha', hid'⟩ | hr
  · exact h.ids.distinct i j hi hj ha' ha (hid'.trans hid.symm)
  · exact absurd hid (hr.absent j hj ha)

/-! ## Iterations

`InSlotOrGone` is what is known of an id that has been reported: it is in its slot, below the
cursor, or in no slot any more. -/

/-- A successful call of `shm_dir_next`: the state it was made in and the entry it returned. -/
structure Report where
  state : Mem
  entry : DirEntry

/-- An iteration under way.  It started in `m₀` with cursor 0; `seen` are the states since and
`reports` the entries returned, both newest first; the cursor is `k` and the state `m`.  Between two
calls of `shm_dir_next` users take any steps. -/
inductive Iteration (G : Geometry) (C : Mem → Call → Prop) (m₀ : Mem) :
    List Mem → List Report → Nat → Mem → Prop
  | start : Iteration G C m₀ [m₀] [] 0 m₀
  | step {seen : List Mem} {reports : List Report} {k : Nat} {m m' : Mem}
      (h : Iteration G C m₀ seen reports k m) (hs : Step G C m m') :
    Iteration G C m₀ (m' :: seen) reports k m'
  | next {seen : List Mem} {reports : List Report} {k k' : Nat} {m : Mem} {e : DirEntry}
      (h : Iteration G C m₀ seen reports k m) (r : Region)
      (hx : (shmDirNext (some r) (some k) true).val m = ⟨.ok, k', some e⟩) :
    Iteration G C m₀ ((shmDirNext (some r) (some k) true).mem m :: seen) (⟨m, e⟩ :: reports) k'
      ((shmDirNext (some r) (some k) true).mem m)

/-- The directory has an entry in use with this id. -/
def LiveIn (G : Geometry) (m : Mem) (objId : Nat) : Prop :=
  ∃ i, i < G.dirCap ∧ (entryAt m i).Live ∧ (entryAt m i).id = objId

/-- The ids that have been reported. -/
def reportedIds (reports : List Report) : List Nat := reports.map fun p => p.entry.id

/-- What `shm_dir_next` does in a reachable state, from a cursor within the directory. -/
theorem dirNext_cases (h : Reach G C m) (r : Region) (hk : k ≤ G.dirCap) :
    (shmDirNext (some r) (some k) true).mem m = m ∧
      ((∀ j, k ≤ j → j < G.dirCap → ¬ (entryAt m j).Live) ∧
          (shmDirNext (some r) (some k) true).val m = ⟨.enoent, G.dirCap, none⟩ ∨
        ∃ j, k ≤ j ∧ j < G.dirCap ∧ (entryAt m j).Live ∧
          (∀ l, k ≤ l → l < j → ¬ (entryAt m l).Live) ∧
          (shmDirNext (some r) (some k) true).val m = ⟨.ok, j + 1, some (snapshotOf m j)⟩) := by
  obtain ⟨bs, hI⟩ := h.inv
  rcases exec_shmDirNext hI.layout h.namesOk r hk with ⟨hno, hx⟩ | ⟨j, h1, h2, h3, h4, hx⟩
  · exact ⟨hx.mem, .inl ⟨hno, hx.val⟩⟩
  · exact ⟨hx.mem, .inr ⟨j, h1, h2, h3, h4, hx.val⟩⟩

/-- **What holds all along an iteration.** -/
structure IterInv (G : Geometry) (seen : List Mem) (reports : List Report) (k : Nat) (m : Mem) :
    Prop where
  reach : Reach G NoWrap m
  cursor_le : k ≤ G.dirCap
  /-- Every call that succeeded moved the cursor on. -/
  length_le : reports.length ≤ k
  nodup : (reportedIds reports).Nodup
  /-- What has been reported is below the cursor, or gone. -/
  behind : ∀ objId ∈ reportedIds reports, ∃ i, i < k ∧ InSlotOrGone G m i objId
  /-- What has been live all along is reported when the cursor has passed its slot. -/
  passed : ∀ objId, (∀ m' ∈ seen, LiveIn G m' objId) →
    ∃ i, i < G.dirCap ∧ (entryAt m i).Live ∧ (entryAt m i).id = objId ∧
      (i < k → objId ∈ reportedIds reports)

variable {seen : List Mem} {reports : List Report}

theorem IterInv.step (h : IterInv G seen reports k m) (hs : Step G NoWrap m m') :
    IterInv G (m' :: seen) reports k m' := by
  obtain ⟨bs, hI⟩ := h.reach.fullInv
  refine ⟨h.reach.step hs, h.cursor_le, h.length_le, h.nodup, fun objId hid => ?_,
    fun objId hlive => ?_⟩
  · obtain ⟨i, hi, ho⟩ := h.behind objId hid
    exact ⟨i, hi, hs.inSlotOrGone hI (Nat.lt_of_lt_of_le hi h.cursor_le) ho⟩
  · obtain ⟨i, hi, hl, hid, hrep⟩ := h.passed objId fun m₁ hm₁ =>
      hlive m₁ (List.mem_cons_of_mem _ hm₁)
    obtain ⟨j, hj, hlj, hidj⟩ := hlive m' List.mem_cons_self
    obtain ⟨bs', hI'⟩ := (h.reach.step hs).fullInv
    -- the object was in slot `i`, so that is where it still is
    have ho : InSlotOrGone G m' i objId := hs.inSlotOrGone hI hi (.inl ⟨hl.1, hid⟩)
    obtain rfl := ho.eq hI' hi hj hlj.1 hidj
    exact ⟨i, hi, hlj, hidj, hrep⟩

/-- `shm_dir_next` returns the object in slot `j`, the first in use from the cursor on. -/
theorem IterInv.next {j : Nat} (h : IterInv G seen reports k m) (hkj : k ≤ j) (hj : j < G.dirCap)
    (hl : (entryAt m j).Live) (hfirst : ∀ l, k ≤ l → l < j → ¬ (entryAt m l).Live) :
    IterInv G (m :: seen) (⟨m, snapshotOf m j⟩ :: reports) (j + 1) m := by
  obtain ⟨bs, hI⟩ := h.reach.fullInv
  have hlen := h.length_le
  refine ⟨h.reach, hj, by rw [List.length_cons]; omega, ?_, fun objId hid => ?_,
    fun objId hlive => ?_⟩
  · rw [reportedIds, List.map_cons, List.nodup_cons]
    refine ⟨fun hmem => ?_, h.nodup⟩
    -- an object reported before is in a slot below the cursor, or gone
    obtain ⟨i, hi, ho⟩ := h.behind _ hmem
    have := ho.eq hI (by omega) hj hl.1 rfl
    omega
  · rw [reportedIds, List.map_cons, List.mem_cons] at hid
    rcases hid with rfl | hid
    · exact ⟨j, Nat.lt_succ_self j, .inl ⟨hl.1, rfl⟩⟩
    · obtain ⟨i, hi, ho⟩ := h.behind objId hid
      exact ⟨i, by omega, ho⟩
  · obtain ⟨i, hi, hli, hid, hrep⟩ := h.passed objId fun m₁ hm₁ =>
      hlive m₁ (List.mem_cons_of_mem _ hm₁)
    refine ⟨i, hi, hli, hid, fun hlt => ?_⟩
    rw [reportedIds, List.map_cons, List.mem_cons]
    by_cases hik : i < k
    · exact .inr (hrep hik)
    · by_cases hij : i < j
      · exact absurd hli (hfirst i (by omega) hij)
      · obtain rfl : i = j := by omega
        exact .inl hid.symm

/-- **The invariant holds along every iteration.** -/
theorem Iteration.inv (h : Reach G NoWrap m₀) (hit : Iteration G NoWrap m₀ seen reports k m) :
    IterInv G seen reports k m := by
  induction hit with
  | start =>
    refine ⟨h, Nat.zero_le _, Nat.le_refl _, List.nodup_nil, fun objId hid => ?_,
      fun objId hlive => ?_⟩
    · exact absurd hid List.not_mem_nil
    · obtain ⟨i, hi, hl, hid⟩ := hlive m₀ List.mem_cons_self
      exact ⟨i, hi, hl, hid, fun hlt => absurd hlt (Nat.not_lt_zero i)⟩
  | step _ hs ih => exact ih.step hs
  | next _ r hx ih =>
    obtain ⟨hmem, hcase⟩ := dirNext_cases ih.reach r ih.cursor_le
    rw [hmem]
    rcases hcase with ⟨-, hv⟩ | ⟨j, h1, h2, h3, h4, hv⟩
    · rw [hx] at hv
      cases hv
    · rw [hx] at hv
      cases hv
      exact ih.next h1 h2 h3 h4

/-- What a report says is what the directory said when it was made. -/
theorem Iteration.reports_true (h : Reach G NoWrap m₀)
    (hit : Iteration G NoWrap m₀ seen reports k m) :
    ∀ p ∈ reports, ∃ i, i < G.dirCap ∧ (entryAt p.state i).Live ∧ p.entry = snapshotOf p.state i ∧
      ∃ s, NameIs p.state i s := by
  induction hit with
  | start => exact fun p hp => absurd hp List.not_mem_nil
  | step _ _ ih => exact ih
  | next hit r hx ih =>
    intro p hp
    rcases List.mem_cons.1 hp with rfl | hp
    · have hinv := hit.inv h
      rcases (dirNext_cases hinv.reach r hinv.cursor_le).2 with ⟨-, hv⟩ | ⟨j, -, h2, h3, -, hv⟩
      · rw [hx] at hv
        cases hv
      · rw [hx] at hv
        cases hv
        exact ⟨j, h2, h3, rfl, hinv.reach.namesOk j h2 h3⟩
    · exact ih p hp

/-- **Directory iteration.**  However an iteration from a reachable state is interleaved with calls
and writes: no id is reported twice; every report is a copy of an entry that was in use when it was
made, with all of its stored name and a NUL behind it; at most `dir_capacity` calls succeed, and
the one after them returns `ENOENT`; and when one does, every object that has been live all along
has been reported exactly once. -/
theorem iteration_complete (h : Reach G NoWrap m₀)
    (hit : Iteration G NoWrap m₀ seen reports k m) :
    (reportedIds reports).Nodup ∧
      (∀ p ∈ reports, ∃ i, i < G.dirCap ∧ (entryAt p.state i).Live ∧
        p.entry = snapshotOf p.state i ∧ ∃ s, NameIs p.state i s ∧
          p.entry.name = s ++ List.replicate (47 - s.length) 0 ++ [0]) ∧
      reports.length ≤ G.dirCap ∧
      ∀ r, ((shmDirNext (some r) (some k) true).val m).rc = .ok ∧ reports.length < G.dirCap ∨
        ((shmDirNext (some r) (some k) true).val m).rc = .enoent ∧
          ∀ objId, (∀ m' ∈ seen, LiveIn G m' objId) → (reportedIds reports).count objId = 1 := by
  have hinv := hit.inv h
  refine ⟨hinv.nodup, fun p hp => ?_, Nat.le_trans hinv.length_le hinv.cursor_le, fun r => ?_⟩
  · obtain ⟨i, hi, hl, he, s, hs⟩ := hit.reports_true h p hp
    exact ⟨i, hi, hl, he, s, hs, by rw [he]; exact hs.bytes⟩
  · rcases (dirNext_cases hinv.reach r hinv.cursor_le).2 with ⟨hno, hv⟩ | ⟨j, h1, h2, -, -, hv⟩
    · refine .inr ⟨by rw [hv], fun objId hlive => ?_⟩
      obtain ⟨i, hi, hl, -, hrep⟩ := hinv.passed objId hlive
      have hik : i < k := Nat.lt_of_not_le fun hki => hno i hki hi hl
      exact List.count_eq_one_of_mem hinv.nodup (hrep hik)
    · have := hinv.length_le
      exact .inl ⟨by rw [hv], by omega⟩

/-- A page with one object: it is reported once, and that is all. -/
theorem iteration_complete_page :
    ∃ seen reports k m,
      Iteration pageGeometry NoWrap (firstMem pageGeometry pageHandle eightBytes) seen reports k m ∧
      ((shmDirNext (some pageHandle) (some k) true).val m).rc = .enoent ∧
      (reportedIds reports).count 1 = 1 := by
  have hone : (shmDirNext (some pageHandle) (some 0) true).val
      (firstMem pageGeometry pageHandle eightBytes) =
        ⟨.ok, 1, some (snapshotOf (firstMem pageGeometry pageHandle eightBytes) 0)⟩ := by
    decide +kernel
  have hit := Iteration.next (.start (G := pageGeometry) (C := NoWrap)) pageHandle hone
  have hend : ((shmDirNext (some pageHandle) (some 1) true).val
      ((shmDirNext (some pageHandle) (some 0) true).mem
        (firstMem pageGeometry pageHandle eightBytes))).rc = .enoent := by decide +kernel
  refine ⟨_, _, _, _, hit, hend, ?_⟩
  rcases (iteration_complete page_reach hit).2.2.2 pageHandle with ⟨hok, -⟩ | ⟨-, hall⟩
  · exact Rc.noConfusion (hok.symm.trans hend)
  · refine hall 1 fun m' hm' => ⟨0, by decide, ?_⟩
    simp only [List.mem_cons, List.not_mem_nil, or_false] at hm'
    rcases hm' with rfl | rfl <;> decide +kernel

/-- **A handle that maps more than the region** lets its owner grow an object over the end of the
region and around the address space, into the region header, where `dir_capacity` becomes 0.  The
entry of the object is as it was, but an iteration ends without a report of it. -/
theorem iteration_complete_fails :
    (entryAt fullRegion 0).Live ∧ (entryAt fullRegion 0).id = 1 ∧
      (shmResize (some twoPageHandle) 1 (2 ^ 64 - 448) 7 0xF).val fullRegion = .ok ∧
      Completed 8192 ((shmResize (some twoPageHandle) 1 (2 ^ 64 - 448) 7 0xF).trace fullRegion) ∧
      (entryAt ((shmResize (some twoPageHandle) 1 (2 ^ 64 - 448) 7 0xF).mem fullRegion) 0).Live ∧
      (entryAt ((shmResize (some twoPageHandle) 1 (2 ^ 64 - 448) 7 0xF).mem fullRegion) 0).id = 1 ∧
      (shmDirNext (some pageHandle) (some 0) true).val
        ((shmResize (some twoPageHandle) 1 (2 ^ 64 - 448) 7 0xF).mem fullRegion)
          = ⟨.enoent, 0, none⟩ := by
  decide +kernel

end ShmAlloc
