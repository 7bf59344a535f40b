import ShmAlloc.Region.Run

/-!
# Calls that always return

Through a handle that maps the whole region, `shm_alloc`, `shm_free` and `shm_block_set_perms`
stay inside the mapping whatever the heap looks like, so they are legal steps whenever their
arguments are.  (`shm_resize` is another matter: see `ResizeRun`.)  This is what runs are built
from when one is needed as an example.

## What is here

* `Edits` and `Plain`: every event of a trace edits a field, or at least reads no memory.  A plain
  trace stays where its writes are.
* `allocEvents_within`, `freeEvents_within` and `setPermsEvents_within`: the effects of the calls
  are inside the region.
* `legal_alloc`, `legal_free`, `legal_setPerms` and `legal_resize`: **the calls are legal.**
* `Reach.alloc` and `Reach.free`: a run may go on with one.
* `freshMem`, `firstMem` and `exec_first`: a region before and after its first object.
* `pageGeometry`, `pageHandle` and `eightBytes`: one page, two slots and a small request, for the
  examples of the other modules.
-/

set_option autoImplicit false

namespace ShmAlloc

open Tiling Links

variable {G : Geometry} {m m' : Mem} {bs pre post : List Blk}

/-! ## Edits of the heap -/

/-- Every event of the trace edits a field. -/
def Edits (W : List Event) : Prop := ∀ e ∈ W, e.isEdit = true

@[simp] theorem edits_nil : Edits [] := by simp [Edits]

@[simp] theorem edits_cons {e : Event} {W : List Event} :
    Edits (e :: W) ↔ e.isEdit = true ∧ Edits W := by
  simp [Edits]

@[simp] theorem edits_append {V W : List Event} : Edits (V ++ W) ↔ Edits V ∧ Edits W := by
  simp only [Edits, List.mem_append, or_imp, forall_and]

theorem edits_takeEvents {b : Blk} {need used count : Nat} :
    Edits (takeEvents G pre b post need used count) := by
  have hdetach : Edits (detachEvents G pre b post need) := by
    rw [detachEvents]
    split <;> simp [freshEvents, cutEvents, Event.isEdit]
  refine edits_append.2 ⟨hdetach, ?_⟩
  simp [markEvents, Event.isEdit]

theorem edits_mergeEvents {a c : Blk} {ys : List Nat} : Edits (mergeEvents G a c ys) := by
  simp [mergeEvents, Event.isEdit]

theorem edits_nextEvents {b : Blk} : Edits (nextEvents G b post) := by
  cases post with
  | nil => exact edits_nil
  | cons c cs =>
    rw [nextEvents]
    split
    · exact edits_nil
    · exact edits_append.2 ⟨edits_mergeEvents, by simp [Event.isEdit]⟩

theorem edits_prevEvents : Edits (prevEvents G pre bs) := by
  cases bs with
  | nil => exact edits_nil
  | cons b bs =>
    rw [prevEvents]
    split
    · simp [Event.isEdit]
    · split
      · exact edits_append.2 ⟨edits_mergeEvents, by simp [Event.isEdit]⟩
      · simp [Event.isEdit]

theorem edits_insertEvents {b : Blk} : Edits (insertEvents G pre b post) := by
  refine edits_append.2 ⟨by simp [clearEvents, Event.isEdit], edits_append.2
    ⟨by simp [linkEvents, Event.isEdit], edits_append.2 ⟨edits_nextEvents, ?_⟩⟩⟩
  exact edits_prevEvents

theorem edits_releaseEvents {b : Blk} {used count : Nat} :
    Edits (releaseEvents G pre b post used count) :=
  edits_append.2 ⟨by simp [uncountEvents, Event.isEdit], edits_insertEvents⟩

theorem edits_cutTailEvents {b : Blk} {t used : Nat} :
    Edits (cutTailEvents G pre b post t used) := by
  refine edits_append.2 ⟨?_, edits_insertEvents⟩
  simp [trimEvents, tailEvents, cutEvents, Event.isEdit]

theorem edits_growEvents {b c : Blk} {t used : Nat} :
    Edits (growEvents G pre b c post t used) := by
  have htrim : Edits (trimGrownEvents G pre (swallowed b c) post t (used + c.total)) := by
    rw [trimGrownEvents]
    split
    · exact edits_cutTailEvents
    · simp [Event.isEdit]
  refine edits_append.2 ⟨by simp [removeEvents, Event.isEdit], edits_append.2 ⟨?_, ?_⟩⟩
  · simp [swallowEvents, cutEvents, Event.isEdit]
  · exact edits_append.2 ⟨htrim, by simp [Event.isEdit]⟩

/-! ## Plain traces -/

/-- Every event of the trace is plain. -/
def Plain (W : List Event) : Prop := ∀ e ∈ W, e.isPlain = true

theorem Edits.plain {W : List Event} (h : Edits W) : Plain W := fun e he =>
  Event.isPlain_of_isEdit (h e he)

@[simp] theorem plain_nil : Plain [] := by simp [Plain]

@[simp] theorem plain_cons {e : Event} {W : List Event} :
    Plain (e :: W) ↔ e.isPlain = true ∧ Plain W := by
  simp [Plain]

@[simp] theorem plain_append {V W : List Event} : Plain (V ++ W) ↔ Plain V ∧ Plain W := by
  simp only [Plain, List.mem_append, or_imp, forall_and]

theorem plain_lockEvents (r : Region) : Plain (lockEvents r) := by
  rw [lockEvents]
  split <;> simp [Event.isPlain]

theorem plain_allocEvents {b : Blk} {i id : Nat} {q : Request} :
    Plain (allocEvents G pre b post i id q) := by
  have hbind : ∀ cap, Plain (bindEvents G b.off cap i id q) := fun cap => by
    simp [bindEvents, identEvents, zeroEvents, slotEvents, Event.isPlain]
  have hname : Plain (nameEvents (slotAddr i) q.name) := by
    cases q.name with
    | none => exact plain_nil
    | some s =>
      rw [nameEvents]
      split <;> simp [Event.isPlain]
  refine plain_append.2 ⟨edits_takeEvents.plain,
    plain_append.2 ⟨hbind _, plain_append.2 ⟨hname, ?_⟩⟩⟩
  simp [Event.isPlain]

theorem plain_freeEvents {b : Blk} {i : Nat} : Plain (freeEvents G pre b post i) :=
  plain_append.2 ⟨edits_releaseEvents.plain, by simp [clearSlotEvents, Event.isPlain]⟩

/-! ## Staying inside the region

Blocks and slots are inside the region by the geometry, so it is enough that each event touches only
bytes of these. -/

theorem FreeListByte.lt_size {x : Nat} {fl : List Nat} {cs : List Blk} (h : Rep G m bs fl)
    (hx : FreeListByte G cs x) (hcs : ∀ c ∈ cs, ∃ b ∈ bs, b.off = c.off) : x < G.size := by
  have hD := G.base_ge
  have hsz := G.size_eq
  have hheap := G.heap_ge
  rcases hx with hx | ⟨c, hc, -, hx⟩
  · omega
  · obtain ⟨b, hb, hoff⟩ := hcs c hc
    have := h.bounds hb
    have := hx.2
    omega

theorem InSlot.lt_size {i x : Nat} (h : InSlot i x) (hi : i < G.dirCap) : x < G.size := by
  have := h.lt_base hi
  have := G.size_eq
  omega

section

variable {b : Blk} {i : Nat}

/-- `shm_alloc` writes inside the region. -/
theorem allocEvents_within {q : Request} (h : Inv G m (pre ++ b :: post))
    (ht : Takes G m pre b i q) :
    ∀ e ∈ allocEvents G pre b post i (nextIdOf m) q, e.Within G.size := by
  refine within_of_writes plain_allocEvents fun x hx => ?_
  have hD := G.base_ge
  have hsz := G.size_eq
  have hbb := h.heap.bounds (show b ∈ pre ++ b :: post by simp)
  rcases writes_allocEvents h ht hx with hx | hx | hx | hx
  · omega
  · exact hx.lt_size ht.slot_lt
  · exact hx.lt_size h.heap.toRep fun c hc => ⟨c, hc, rfl⟩
  · have := hx.2
    omega

/-- `shm_free` writes inside the region. -/
theorem freeEvents_within (h : Inv G m (pre ++ b :: post)) (hi : i < G.dirCap) :
    ∀ e ∈ freeEvents G pre b post i, e.Within G.size := by
  refine within_of_writes plain_freeEvents fun x hx => ?_
  have hD := G.base_ge
  have hsz := G.size_eq
  rcases writes_freeEvents hx with hx | hx | hx
  · omega
  · exact hx.lt_size hi
  · refine hx.lt_size h.heap.toRep fun c hc => ?_
    rcases List.mem_append.1 hc with hc | hc
    · exact ⟨c, by simp [hc], rfl⟩
    · rcases List.mem_cons.1 hc with rfl | hc
      · exact ⟨b, by simp, rfl⟩
      · exact ⟨c, by simp [hc], rfl⟩

/-- `shm_block_set_perms` writes inside the region. -/
theorem setPermsEvents_within {p : UInt32} (h : Inv G m (pre ++ b :: post)) (hi : i < G.dirCap) :
    ∀ e ∈ setPermsEvents G b i p, e.Within G.size := by
  refine within_of_writes (by simp [setPermsEvents, Event.isPlain]) fun x hx => ?_
  have hsz := G.size_eq
  have hbb := h.heap.bounds (show b ∈ pre ++ b :: post by simp)
  have hs := G.slotAddr_lt hi
  rcases writes_setPermsEvents hx with hx | hx
  · omega
  · omega

/-- An event of a trace that writes below `size` stays below it, unless it reads memory. -/
theorem Event.within_of_mem {size : Nat} {W : List Event} {e : Event} (he : e ∈ W)
    (hp : e.isPlain = true) (hw : ∀ x, Writes W x → x < size) : e.Within size := by
  have hone : ∀ f ∈ [e], f.Within size := within_of_writes (by simpa using hp) fun x hx => by
    obtain ⟨f, hf, hx⟩ := hx
    rw [List.mem_singleton.1 hf] at hx
    exact hw x ⟨e, he, hx⟩
  exact hone e (by simp)

/-- All that a relocation reads is the payload it copies. -/
theorem isPlain_movingEvents {f : Blk} {post₁ pre₁ pre₂ post₂ : List Blk} {t n : Nat} {e : Event}
    (he : e ∈ movingEvents G bs pre₁ f post₁ pre₂ post₂ b i t n) :
    e.isPlain = true ∨ e = .copy (G.base + f.off + 56) (G.base + b.off + 56) b.cap := by
  rw [movingEvents_eq, moveEvents, copyEvents, taken_off] at he
  simp only [List.mem_append, List.mem_cons] at he
  rcases he with (he | ((he | he) | he) | he) | he | he
  · exact .inl (edits_takeEvents.plain e he)
  · exact .inr he
  · rw [extraEvents] at he
    split at he
    · obtain rfl := List.mem_singleton.1 he
      exact .inl rfl
    · exact absurd he List.not_mem_nil
  · refine .inl ?_
    simp only [adoptEvents, List.mem_cons, List.not_mem_nil, or_false] at he
    rcases he with rfl | rfl | rfl | rfl | rfl | rfl <;> rfl
  · exact .inl (edits_releaseEvents.plain e he)
  · refine .inl ?_
    simp only [retargetEvents, List.mem_cons, List.not_mem_nil, or_false] at he
    rcases he with rfl | rfl <;> rfl
  · refine .inl ?_
    simp only [finishEvents, List.mem_cons, List.not_mem_nil, or_false] at he
    rcases he with rfl | rfl | rfl | rfl <;> rfl

/-- **A resize that goes one of the five ways stays inside the region.** -/
theorem ResizeRun.within {sz n : Nat} {rc : Rc} {W : List Event} {bs' : List Blk}
    (h : Inv G m (pre ++ b :: post)) (hh : Holds G m i b) (hn : n ≠ 0)
    (hrun : ResizeRun G sz pre b post i n rc W bs') : ∀ e ∈ W, e.Within G.size := by
  have hbm : b ∈ pre ++ b :: post := by simp
  have hsz := G.size_eq
  have hs := G.slotAddr_lt hh.lt
  have hbound : ∀ x, Writes W x → x < G.size := fun x hx => by
    rcases hrun.writes h hh.live hn hx with (hx | hx | ⟨c, hc, -, hx⟩) | hx
    · have := G.base_ge
      omega
    · have := h.heap.bounds hbm
      have := hx.2
      omega
    · have := h.heap.bounds hc
      have := hx.2
      omega
    · omega
  have hend : ∀ cap, Plain (inPlaceEvents i cap n) := fun cap => by
    simp [inPlaceEvents, finishEvents, Event.isPlain]
  intro e he
  cases hrun with
  | keep => exact Event.within_of_mem he (hend _ e he) hbound
  | cut =>
    exact Event.within_of_mem he (plain_append.2 ⟨edits_cutTailEvents.plain, hend _⟩ e he) hbound
  | grow =>
    exact Event.within_of_mem he (plain_append.2 ⟨edits_growEvents.plain, hend _⟩ e he) hbound
  | noRoom =>
    obtain rfl := List.mem_singleton.1 he
    trivial
  | move pre₁ f post₁ pre₂ post₂ hlt hcan hr =>
    rcases isPlain_movingEvents he with hp | rfl
    · exact Event.within_of_mem he hp hbound
    · -- both payloads are inside the heap
      have hfm : f ∈ pre ++ b :: post := by
        rw [hr.split]
        simp
      have h1 := h.heap.bounds hbm
      have h2 := h.heap.bounds hfm
      have h3 := (h.heap.wf b hbm).cap_le
      have h4 := hr.taken_cap_le h.heap (blockSize_ge hn)
      have h5 := hr.cap_le
      exact .inr ⟨by omega, by omega⟩

end

theorem within_lockEvents {sz : Nat} (r : Region) : ∀ e ∈ lockEvents r, e.Within sz := by
  refine within_of_writes (plain_lockEvents r) fun x hx => ?_
  exact absurd hx (not_writes_lockEvents r x)

theorem within_append {sz : Nat} {V W : List Event} (hV : ∀ e ∈ V, e.Within sz)
    (hW : ∀ e ∈ W, e.Within sz) : ∀ e ∈ V ++ W, e.Within sz := fun e he =>
  (List.mem_append.1 he).elim (hV e) (hW e)

/-! ## Legal calls -/

section

variable {r : Region}

theorem completed_of_exec {rc : Rc} {x : Prog Rc} {W : List Event} (hr : r.size = G.size)
    (hx : Exec G.size x m rc (lockEvents r ++ W)) (hW : ∀ e ∈ W, e.Within G.size) :
    Completed r.size (x.trace m) := by
  rw [hr]
  exact hx.completed (within_append (within_lockEvents r) hW)

theorem within_unlock {sz : Nat} : ∀ e ∈ [Event.unlock], e.Within sz := by
  intro e he
  rw [List.mem_singleton.1 he]
  trivial

/-- **`shm_alloc` always returns**, and is legal for every size that does not wrap. -/
theorem legal_alloc (h : Inv G m bs) (hr : r.size = G.size) {q : Request} (hq : q.size ≠ 0)
    (hq' : q.size ≤ 2 ^ 64 - 64) : Legal G m (.alloc (some r) q true true) := by
  refine ⟨hq', fun r' hr' => ?_, fun r' hr' => ?_⟩ <;> obtain rfl : r = r' := Option.some.inj hr'
  · exact Nat.le_of_eq hr
  · rcases exec_shmAlloc h r hq hq' with ⟨rc, -, hx⟩ | ⟨pre, b, post, i, rfl, ht, hx⟩
    · exact completed_of_exec hr hx within_unlock
    · exact completed_of_exec hr hx (allocEvents_within h ht)

/-- **`shm_free` always returns.** -/
theorem legal_free (h : Inv G m bs) (hr : r.size = G.size) {objId : Nat} (hid : objId ≠ 0)
    (userId callerPerms : UInt32) : Legal G m (.free (some r) objId userId callerPerms) := by
  refine ⟨trivial, fun r' hr' => ?_, fun r' hr' => ?_⟩ <;>
    obtain rfl : r = r' := Option.some.inj hr'
  · exact Nat.le_of_eq hr
  · rcases exec_shmFree h r hid userId callerPerms with
      ⟨rc, -, hx⟩ | ⟨pre, b, post, i, rfl, hf, hh, hacc, hx⟩
    · exact completed_of_exec hr hx within_unlock
    · exact completed_of_exec hr hx (freeEvents_within h hf.lt)

/-- **`shm_block_set_perms` always returns** when given the offset of a live object. -/
theorem legal_setPerms (h : Inv G m bs) (hr : r.size = G.size) {i : Nat} (hi : i < G.dirCap)
    (ha : (entryAt m i).alive = true) (userId callerPerms newPerms : UInt32) :
    Legal G m (.setPerms (some r) (entryAt m i).off userId callerPerms newPerms) := by
  refine ⟨⟨i, hi, ha, rfl⟩, fun r' hr' => ?_, fun r' hr' => ?_⟩ <;>
    obtain rfl : r = r' := Option.some.inj hr'
  · exact Nat.le_of_eq hr
  · obtain ⟨pre, b, post, rfl, hh⟩ := h.holds hi ha
    rw [hh.mirrors.off]
    rcases exec_shmBlockSetPerms h hh r userId callerPerms newPerms with
      ⟨rc, -, hx⟩ | ⟨j, hf, hacc, hx⟩
    · exact completed_of_exec hr hx within_unlock
    · exact completed_of_exec hr hx (setPermsEvents_within h hf.lt)

/-- A resize that stays inside the mapping is legal. -/
theorem legal_resize (hr : r.size ≤ G.size) {objId n : Nat} (hn : n ≤ 2 ^ 64 - 64)
    {userId callerPerms : UInt32}
    (hc : Completed r.size ((Call.resize (some r) objId n userId callerPerms).prog.trace m)) :
    Legal G m (.resize (some r) objId n userId callerPerms) := by
  refine ⟨hn, fun r' hr' => ?_, fun r' hr' => ?_⟩ <;> obtain rfl : r = r' := Option.some.inj hr'
  · exact hr
  · exact hc

/-! ## Extending a run -/

section

variable {C : Mem → Call → Prop} (h : Reach G C m) (hr : r.size = G.size)
include h hr

theorem Reach.alloc {q : Request} (hq : q.size ≠ 0) (hq' : q.size ≤ 2 ^ 64 - 64)
    (hC : C m (.alloc (some r) q true true)) :
    Reach G C ((Call.alloc (some r) q true true).prog.mem m) := by
  obtain ⟨bs, hI⟩ := h.inv
  exact h.step (.call _ (legal_alloc hI hr hq hq') hC)

theorem Reach.free {objId : Nat} (hid : objId ≠ 0) {userId callerPerms : UInt32}
    (hC : C m (.free (some r) objId userId callerPerms)) :
    Reach G C ((Call.free (some r) objId userId callerPerms).prog.mem m) := by
  obtain ⟨bs, hI⟩ := h.inv
  exact h.step (.call _ (legal_free hI hr hid userId callerPerms) hC)

end

end

/-! ## The first object of a region -/

/-- A freshly initialised region. -/
def freshMem (G : Geometry) : Mem := (regionInit G.size 0 G.dirCap none 0 0).mem fun _ => 0

theorem reach_fresh (G : Geometry) (C : Mem → Call → Prop) : Reach G C (freshMem G) := .init ..

theorem inv_fresh (G : Geometry) : FullInv G (freshMem G) [Blk.fresh 0 G.heapSize] := by
  rw [freshMem, (exec_regionInit G _ 0 0 0 none).mem]
  exact fullInv_init _

theorem nextIdOf_fresh (G : Geometry) : nextIdOf (freshMem G) = 1 := by
  rw [freshMem, (exec_regionInit G _ 0 0 0 none).mem]
  exact (counters_init _).2.2

theorem entryAt_fresh {i : Nat} (hi : i < G.dirCap) : (entryAt (freshMem G) i).alive = false := by
  rw [freshMem, (exec_regionInit G _ 0 0 0 none).mem]
  exact entryAt_init hi _

/-- The region after its first `shm_alloc`. -/
def firstMem (G : Geometry) (r : Region) (q : Request) : Mem :=
  (Call.alloc (some r) q true true).prog.mem (freshMem G)

section

variable {r : Region} {q : Request}

/-- A heap that is one free block, and an empty first slot: `shm_alloc` takes both. -/
theorem takes_only {b : Blk} (hcap : 0 < G.dirCap) (hslot : (entryAt m 0).alive = false)
    (hb : b.live = false) (hq : q.size ≠ 0) (hq' : q.size ≤ 2 ^ 64 - 64)
    (hfit : blockSize q.size ≤ b.total) : Takes G m [] b 0 q :=
  ⟨hcap, fun hl => Bool.noConfusion (hslot.symm.trans hl.1),
    fun k hk => absurd hk (Nat.not_lt_zero k), hb, hfit, by simp, hq, hq'⟩

/-- **`shm_alloc` succeeds** on a heap that is one free block large enough for the object. -/
theorem exec_only {b : Blk} (h : Inv G m [b]) (hcap : 0 < G.dirCap)
    (hslot : (entryAt m 0).alive = false) (hb : b.live = false) (hq : q.size ≠ 0)
    (hq' : q.size ≤ 2 ^ 64 - 64) (hfit : blockSize q.size ≤ b.total) (r : Region) :
    Exec G.size (Call.alloc (some r) q true true).prog m .ok
      (lockEvents r ++ allocEvents G [] b [] 0 (nextIdOf m) q) := by
  rcases exec_allocLocked h hq hq' with
    ⟨hfull, -⟩ | ⟨-, hsmall, -⟩ | ⟨pre, c, post, i, hbs, ht, hx⟩
  · exact Bool.noConfusion (hslot.symm.trans (hfull 0 hcap).1)
  · have := hsmall b (by simp) hb
    omega
  · obtain ⟨rfl, rfl, rfl⟩ : pre = [] ∧ c = b ∧ post = [] := by
      cases pre with
      | nil => simpa [eq_comm] using hbs
      | cons c cs => simp at hbs
    have hi : i = 0 := by
      by_contra hne
      exact Bool.noConfusion (hslot.symm.trans (ht.slot_first 0 (by omega)).1)
    subst hi
    have hargs : ¬ (q.size = 0 ∨ true = false ∨ true = false) := by simpa using hq
    rw [Call.prog, shmAlloc, if_neg hargs]
    exact exec_locked r hx

theorem takes_fresh (hcap : 0 < G.dirCap) (hq : q.size ≠ 0) (hq' : q.size ≤ 2 ^ 64 - 64)
    (hfit : blockSize q.size ≤ G.heapSize) :
    Takes G (freshMem G) [] (Blk.fresh 0 G.heapSize) 0 q :=
  takes_only hcap (entryAt_fresh hcap) rfl hq hq' hfit

/-- **The first `shm_alloc` succeeds** if the heap can hold the object. -/
theorem exec_first (hcap : 0 < G.dirCap) (hq : q.size ≠ 0) (hq' : q.size ≤ 2 ^ 64 - 64)
    (hfit : blockSize q.size ≤ G.heapSize) (r : Region) :
    Exec G.size (Call.alloc (some r) q true true).prog (freshMem G) .ok
      (lockEvents r ++ allocEvents G [] (Blk.fresh 0 G.heapSize) [] 0 1 q) := by
  have hx := exec_only (inv_fresh G).toInv hcap (entryAt_fresh hcap) rfl hq hq' hfit r
  rwa [nextIdOf_fresh] at hx

/-- The first object sits in slot 0, at the start of the heap. -/
theorem entryAt_first (hcap : 0 < G.dirCap) (hq : q.size ≠ 0) (hq' : q.size ≤ 2 ^ 64 - 64)
    (hfit : blockSize q.size ≤ G.heapSize) :
    entryAt (firstMem G r q) 0
      = newEntry 0 (taken (Blk.fresh 0 G.heapSize) (blockSize q.size)).cap 1 q := by
  have hI : Inv G (freshMem G) ([] ++ Blk.fresh 0 G.heapSize :: []) := (inv_fresh G).toInv
  have ht := takes_fresh hcap hq hq' hfit
  have hid := nextIdOf_fresh G
  rw [firstMem, (exec_first hcap hq hq' hfit r).mem, replay_append, replay_lockEvents, ← hid]
  exact entryAt_alloc hI ht

/-- The first object takes id 1. -/
theorem noWrap_first (hcap : 0 < G.dirCap) (hq : q.size ≠ 0) (hq' : q.size ≤ 2 ^ 64 - 64)
    (hfit : blockSize q.size ≤ G.heapSize) :
    NoWrap (freshMem G) (.alloc (some r) q true true) := by
  have ht := takes_fresh hcap hq hq' hfit
  have hnext : nextIdOf (replay (allocEvents G [] (Blk.fresh 0 G.heapSize) [] 0
      (nextIdOf (freshMem G)) q) (freshMem G)) = _ := nextIdOf_alloc ht
  rw [NoWrap, (exec_first hcap hq hq' hfit r).mem, replay_append, replay_lockEvents]
  rw [nextIdOf_fresh] at hnext ⊢
  rw [hnext]
  decide

/-- The state with one object is reached by a run. -/
theorem reach_first (hr : r.size = G.size) (hcap : 0 < G.dirCap) (hq : q.size ≠ 0)
    (hq' : q.size ≤ 2 ^ 64 - 64) (hfit : blockSize q.size ≤ G.heapSize) :
    Reach G NoWrap (firstMem G r q) :=
  (reach_fresh G NoWrap).step (.call _ (legal_alloc (inv_fresh G).toInv hr hq hq')
    (noWrap_first hcap hq hq' hfit))

end

/-- A region of one page, with two directory slots. -/
def pageGeometry : Geometry := ⟨2, 3704, by decide, by decide, by decide⟩

/-- A handle that maps the page. -/
def pageHandle : Region := ⟨4096, 4096, .acquired, by decide, by decide, by decide⟩

/-- A user asks for eight bytes. -/
def eightBytes : Request := ⟨8, none, 7, 0xF, 0⟩

theorem page_reach : Reach pageGeometry NoWrap (firstMem pageGeometry pageHandle eightBytes) :=
  reach_first rfl (by decide) (by decide) (by decide) (by decide)

theorem page_alive : (entryAt (firstMem pageGeometry pageHandle eightBytes) 0).alive = true := by
  rw [entryAt_first (by decide) (by decide) (by decide) (by decide)]
  rfl

end ShmAlloc
