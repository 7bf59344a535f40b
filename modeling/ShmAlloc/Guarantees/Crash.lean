import ShmAlloc.Guarantees.Capacity
import ShmAlloc.Guarantees.Heap
import ShmAlloc.Region.StoppedResize

/-!
# A process that dies holding the lock

The mutex is robust: the next caller is told that its holder died, marks the mutex consistent and
goes on.  Nothing is repaired.  So what it finds is what the stores of the dead process left, and
`Torn` lists where a call must not be stopped for that to be a usable region.

## What is here

* `Dies`: a process dies in a call, any number of accesses into it.
* `StoppedRun` and `Dies.stoppedRun`: **what a call that was stopped can have done**, call by call
  and, for a resize, way by way.
* `Torn`: the states in which a call must not be stopped, one constructor for each stretch.
* `Torn.not_usable` and `StoppedRun.usable`: **a region that is torn is not usable, and one that is
  not is**, from the lemmas about each call.
* `crash_leaves_usable`: **the next caller finds the region usable if and only if the call was not
  stopped in one of these stretches.**
* `crash_leaves_usable_fails`: an allocation that is stopped behind the store to the tag bit leaves
  a block that is allocated and that no entry points at.
-/

set_option autoImplicit false

namespace ShmAlloc

variable {G : Geometry} {m : Mem} {bs pre post : List Blk} {b : Blk} {i n sz : Nat}
  {U V W : List Event}

/-! ## Stopping a call -/

/-- The calling process dies when the call has done `V`: the arguments are in order, the handle maps
no more than the region, and `V` does not touch memory outside the mapping. -/
structure Dies (G : Geometry) (m : Mem) (c : Call) (V : List Event) : Prop where
  args : c.ArgsOk G m
  handle : ∀ r, c.region = some r → r.size ≤ G.size
  stops : V <+: c.prog.trace m
  completed : ∀ r, c.region = some r → Completed r.size V

/-- A call that can be made and would return may die at any point. -/
theorem Legal.dies {c : Call} (hl : Legal G m c) (hV : V <+: c.prog.trace m) : Dies G m c V :=
  ⟨hl.args, hl.handle, hV, fun r hr e he => hl.completed r hr e (hV.subset he)⟩

/-- **What a call that was stopped can have done.** -/
inductive StoppedRun (G : Geometry) (m : Mem) : List Blk → Call → List Event → Prop
  /-- The lock, at most. -/
  | lock {bs : List Blk} {c : Call} {V : List Event} (r : Region) (hV : V <+: lockEvents r) :
    StoppedRun G m bs c V
  /-- The start of what a call that returns does. -/
  | run {bs bs' : List Blk} {c : Call} {rc : Rc} {V W : List Event}
      (hrun : CallRun G m bs c rc W bs') (hV : V <+: W) : StoppedRun G m bs c V
  /-- The start of a relocation that cannot return. -/
  | overrun {pre : List Blk} {b : Blk} {post : List Blk} {i objId n : Nat} {r : Region}
      {userId callerPerms : UInt32} {pre₁ : List Blk} {f : Blk} {post₁ : List Blk}
      {V : List Event} (hf : Finds G m objId i) (hh : Holds G m i b)
      (hacc : (entryAt m i).access userId callerPerms SHM_PERM_RESIZE = .ok) (hn : n ≠ 0)
      (hlt : b.total < blockSize n) (hcan : ¬ CanGrow G r.size b (blockSize n) post)
      (ho : Overruns (pre ++ b :: post) b (blockSize n) pre₁ f post₁)
      (hV : V <+: lockEvents r ++ (takeEvents G pre₁ f post₁ (blockSize n)
        (liveBytes (pre ++ b :: post)) (liveBlks (pre ++ b :: post)).length ++
          [.copy (G.base + f.off + 56) (G.base + b.off + 56) b.cap])) :
    StoppedRun G m (pre ++ b :: post) (.resize (some r) objId n userId callerPerms) V

/-- **Every call that was stopped is on the list.** -/
theorem Dies.stoppedRun (h : Inv G m bs) {c : Call} (hd : Dies G m c V) :
    StoppedRun G m bs c (effects V) := by
  have hrun : ∀ {rc W bs'}, CallRun G m bs c rc W bs' → Exec G.size c.prog m rc W →
      StoppedRun G m bs c (effects V) := fun hrun hx => .run hrun (hx.effects_prefix hd.stops)
  by_cases hres : ∃ r objId n userId callerPerms, c = .resize (some r) objId n userId callerPerms ∧
      objId ≠ 0 ∧ n ≠ 0
  · obtain ⟨r, objId, n, userId, callerPerms, rfl, hid, hn⟩ := hres
    rcases exec_shmResize_object h r hid hn userId callerPerms with
      ⟨rc, hrc, -, hx⟩ | ⟨pre, b, post, i, rfl, hf, hh, hacc, -, -⟩
    · exact hrun (.refused hrc (.inr ⟨r, rfl⟩)) hx
    · obtain ⟨T, hT, htr⟩ := trace_shmResize (n := n) h r hid hn hf hacc
      have hV := hd.stops
      have hc := hd.completed r rfl
      rw [Call.prog, htr] at hV
      rcases prefix_or_append hV with hV | ⟨U, hU, rfl⟩
      · exact .lock r (hT ▸ effects_prefix hV)
      · rw [effects_append, hT]
        rcases stopped_resizeObject h hh (hd.handle r rfl) hn hd.args hU hc.right with
          hU | ⟨rc, W, bs', hrun, hU⟩ | ⟨hlt, hcan, pre₁, f, post₁, ho, hU⟩
        · rw [hU, List.append_nil]
          exact .lock r (List.prefix_refl _)
        · exact .run (.resize hf hh hacc hn hd.args hrun) ((List.prefix_append_right_inj _).2 hU)
        · exact .overrun hf hh hacc hn hlt hcan ho ((List.prefix_append_right_inj _).2 hU)
  · obtain ⟨rc, W, bs', hcall, hx⟩ := callRun_of_resize h hd.args
      fun r objId n userId callerPerms hc hid hn =>
        absurd ⟨r, objId, n, userId, callerPerms, hc, hid, hn⟩ hres
    exact hrun hcall hx

/-! ## Torn states

A call that never returns counts as well: the process dies of the fill at the latest, holding the
lock. -/

/-- **A resize stops in the middle.** -/
inductive TornResize (G : Geometry) (m : Mem) (sz : Nat) (pre : List Blk) (b : Blk)
    (post : List Blk) (i n : Nat) (U : List Event) : Prop
  /-- Shrinking, while the tail is torn. -/
  | cut (hrem : blockSize n + 64 ≤ b.total)
      (hU : TornTail G pre b post (blockSize n) (liveBytes (pre ++ b :: post)) [] U)
  /-- Shrinking, while the block is smaller than what the entry describes. -/
  | overhang (hrem : blockSize n + 64 ≤ b.total) (hover : blockSize n < (entryAt m i).used + 56)
      (hU : StopsInside (tailHdrEvents G b (blockSize n) (liveBytes (pre ++ b :: post)))
        (overhangEvents G pre b post i (blockSize n) n) U)
  /-- Growing in place, while the neighbour is off the list and not part of the block. -/
  | annex (c : Blk) (cs : List Blk) (hpost : post = c :: cs) (hlt : b.total < blockSize n)
      (hcan : CanGrow G sz b (blockSize n) post)
      (hU : StopsInside [] (annexEvents G pre b c cs (liveBytes (pre ++ b :: post))) U)
  /-- Growing in place, while what is too much of the neighbour is torn. -/
  | regrow (c : Blk) (cs : List Blk) (hpost : post = c :: cs) (hlt : b.total < blockSize n)
      (hcan : CanGrow G sz b (blockSize n) post) (hrem : blockSize n + 64 ≤ b.total + c.total)
      (hU : TornTail G pre (swallowed b c) cs (blockSize n)
        (liveBytes (pre ++ b :: post) + c.total)
          (annexEvents G pre b c cs (liveBytes (pre ++ b :: post)) ++ annexedEvents G b c) U)
  /-- Relocating, until the slot points at the new block. -/
  | move (pre₁ : List Blk) (f : Blk) (post₁ pre₂ post₂ : List Blk) (hlt : b.total < blockSize n)
      (hcan : ¬ CanGrow G sz b (blockSize n) post)
      (hr : Relocates (pre ++ b :: post) b (blockSize n) pre₁ f post₁ pre₂ post₂)
      (hU : StopsInside (prepareEvents G f post₁ (blockSize n))
        (relocatingEvents G pre₁ f post₁ pre₂ post₂ b i (blockSize n)
          (liveBytes (pre ++ b :: post)) (liveBlks (pre ++ b :: post)).length) U)
  /-- Relocating, if the call cannot return. -/
  | overrun (pre₁ : List Blk) (f : Blk) (post₁ : List Blk) (hlt : b.total < blockSize n)
      (hcan : ¬ CanGrow G sz b (blockSize n) post)
      (ho : Overruns (pre ++ b :: post) b (blockSize n) pre₁ f post₁)
      (hU : StopsInside (prepareEvents G f post₁ (blockSize n))
        (overrunEvents G pre₁ f post₁ b (blockSize n) (liveBytes (pre ++ b :: post))
          (liveBlks (pre ++ b :: post)).length) U)

/-- **A call stops in the middle**: what it has done is the lock, the stores before one of the
stretches below, and a part of the stretch. -/
inductive Torn (G : Geometry) (m : Mem) : List Blk → Call → List Event → Prop
  /-- `shm_alloc`, from the first store that takes the block until the slot is in use. -/
  | alloc {pre : List Blk} {b : Blk} {post : List Blk} {i : Nat} {q : Request} {r : Region}
      {U : List Event} (ht : Takes G m pre b i q)
      (hU : StopsInside (prepareEvents G b post (blockSize q.size))
        (adoptingEvents G pre b post (blockSize q.size) (liveBytes (pre ++ b :: post))
          (liveBlks (pre ++ b :: post)).length i (nextIdOf m) q) U) :
    Torn G m (pre ++ b :: post) (.alloc (some r) q true true) (lockEvents r ++ U)
  /-- `shm_free`, from the tag bit until the slot is cleared. -/
  | free {pre : List Blk} {b : Blk} {post : List Blk} {i objId : Nat} {r : Region}
      {userId callerPerms : UInt32} {U : List Event} (hf : Finds G m objId i) (hh : Holds G m i b)
      (hacc : (entryAt m i).access userId callerPerms SHM_PERM_FREE = .ok)
      (hU : StopsInside (uncountEvents b.total (liveBytes (pre ++ b :: post))
        (liveBlks (pre ++ b :: post)).length)
          (insertEvents G pre b post ++ [.fill (slotAddr i) 96 0]) U) :
    Torn G m (pre ++ b :: post) (.free (some r) objId userId callerPerms) (lockEvents r ++ U)
  /-- `shm_resize`. -/
  | resize {pre : List Blk} {b : Blk} {post : List Blk} {i objId n : Nat} {r : Region}
      {userId callerPerms : UInt32} {U : List Event} (hf : Finds G m objId i) (hh : Holds G m i b)
      (hacc : (entryAt m i).access userId callerPerms SHM_PERM_RESIZE = .ok) (hn : n ≠ 0)
      (hU : TornResize G m r.size pre b post i n U) :
    Torn G m (pre ++ b :: post) (.resize (some r) objId n userId callerPerms) (lockEvents r ++ U)

/-- Changing permissions has no such stretch. -/
theorem Torn.not_setPerms {region : Option Region} {off : Nat}
    {userId callerPerms newPerms : UInt32} :
    ¬ Torn G m bs (.setPerms region off userId callerPerms newPerms) V := nofun

theorem TornResize.not_usable (h : FullInv G m (pre ++ b :: post)) (hh : Holds G m i b)
    (hn : n ≠ 0) (hU : TornResize G m sz pre b post i n U) : ¬ Usable G (replay U m) := by
  have ht := blockSize_ge hn
  have ht8 := blockSize_mod n
  cases hU with
  | cut hrem hU => exact Listed.not_usable_of_tornTail h.heap.toRep hh.live ht ht8 hrem hU
  | overhang hrem hover hU => exact h.not_usable_of_overhang hh ht hrem hover hU
  | annex c cs hpost hlt hcan hU =>
    subst hpost
    exact Listed.not_usable_of_annex h.heap.toRep hcan.1 hU
  | regrow c cs hpost hlt hcan hrem hU =>
    subst hpost
    exact Listed.not_usable_of_regrow h.heap.toRep hh.live hcan.1 ht ht8 hrem hU
  | move pre₁ f post₁ pre₂ post₂ hlt hcan hr hU =>
    exact h.not_usable_of_relocating hr (by simp) hh ht ht8 hU
  | overrun pre₁ f post₁ hlt hcan ho hU =>
    rw [ho.split] at h hU
    exact h.not_usable_of_overrun ho.free ht ht8 ho.fits hU

theorem Torn.not_usable (h : FullInv G m bs) {c : Call} (hV : Torn G m bs c V) :
    ¬ Usable G (replay V m) := by
  cases hV with
  | alloc ht hU =>
    rw [replay_append, replay_lockEvents]
    exact h.not_usable_of_alloc ht hU
  | free hf hh hacc hU =>
    rw [replay_append, replay_lockEvents]
    exact h.not_usable_of_free hh hU
  | resize hf hh hacc hn hU =>
    rw [replay_append, replay_lockEvents]
    exact hU.not_usable h hh hn

/-- **A resize that does not stop in the middle leaves the region usable.** -/
theorem ResizeRun.usable {rc : Rc} {bs' : List Blk} (h : FullInv G m (pre ++ b :: post))
    (hh : Holds G m i b) (hn : n ≠ 0) (hn' : n ≤ 2 ^ 64 - 64)
    (hrun : ResizeRun G sz pre b post i n rc W bs') (hU : U <+: W)
    (hno : ¬ TornResize G m sz pre b post i n U) : Usable G (replay U m) := by
  have ht := blockSize_ge hn
  have ht8 := blockSize_mod n
  have hle := le_blockSize n
  cases hrun with
  | keep hfit hrem =>
    have := hh.mirrors.used
    exact h.usable_inPlace hh (InPlace.refl h.toInv hh.live) (by omega) (by omega) hU
  | cut hrem =>
    exact h.usable_cut hh ht ht8 hrem hle hU (fun hV => hno (.cut hrem hV))
      fun hover hV => hno (.overhang hrem hover hV)
  | grow c cs hpost hlt hcan =>
    subst hpost
    exact h.usable_grow hh hcan.1 ht ht8 hlt hcan.2.1 hle rfl hU
      (fun hV => hno (.annex c cs rfl hlt hcan hV))
      fun hrem hV => hno (.regrow c cs rfl hlt hcan hrem hV)
  | noRoom hlt hcan hfull =>
    refine Listed.usable_of_writes h.heap.toRep h.owned fun x hx => ?_
    have hx' := hx.of_prefix hU
    simp [Event.Touches] at hx'
  | move pre₁ f post₁ pre₂ post₂ hlt hcan hr =>
    exact h.usable_move hr (by simp) hh ht ht8 hlt hle (by omega) hU
      fun hV => hno (.move pre₁ f post₁ pre₂ post₂ hlt hcan hr hV)

theorem writes_lockEvents {r : Region} {x : Nat} : ¬ Writes (lockEvents r) x := by
  rw [lockEvents]
  split <;> simp [Event.Touches]

/-- **A call that does not stop in the middle leaves the region usable.** -/
theorem StoppedRun.usable (h : FullInv G m bs) {c : Call} (hV : StoppedRun G m bs c V)
    (hno : ¬ Torn G m bs c V) : Usable G (replay V m) := by
  have hlock : ∀ {V : List Event} {r : Region}, V <+: lockEvents r → Usable G (replay V m) :=
    fun hV => Listed.usable_of_writes h.heap.toRep h.owned fun x hx =>
      absurd (hx.of_prefix hV) writes_lockEvents
  -- otherwise what was done under the lock counts
  have hbody : ∀ {W V : List Event} {r : Region}, V <+: lockEvents r ++ W →
      (∀ U, U <+: W → V = lockEvents r ++ U → Usable G (replay U m)) → Usable G (replay V m) :=
    fun hV hU => by
      rcases prefix_or_append hV with hV | ⟨U, hU', rfl⟩
      · exact hlock hV
      · rw [replay_append, replay_lockEvents]
        exact hU U hU' rfl
  cases hV with
  | lock r hV => exact hlock hV
  | run hrun hV =>
    cases hrun with
    | refused hrc hW =>
      rcases hW with rfl | ⟨r, rfl⟩
      · rw [List.prefix_nil.1 hV]
        exact h.usable
      · refine hbody hV fun U hU _ => Listed.usable_of_writes h.heap.toRep h.owned fun x hx => ?_
        have hx' := hx.of_prefix hU
        simp [Event.Touches] at hx'
    | alloc ht => exact hbody hV fun U hU e => h.usable_alloc ht hU fun hi => hno (e ▸ .alloc ht hi)
    | free hf hh hacc =>
      exact hbody hV fun U hU e => h.usable_free hh hU fun hi => hno (e ▸ .free hf hh hacc hi)
    | resize hf hh hacc hn hn' hrun =>
      exact hbody hV fun U hU e => hrun.usable h hh hn hn' hU fun hi =>
        hno (e ▸ .resize hf hh hacc hn hi)
    | setPerms hh hf hacc =>
      exact hbody hV fun U hU _ => h.usable_setPerms (by simp) hf.lt hU
  | overrun hf hh hacc hn hlt hcan ho hV =>
    refine hbody hV fun U hU e => ?_
    have hno' := fun hi => hno (e ▸ .resize hf hh hacc hn (.overrun _ _ _ hlt hcan ho hi))
    rw [ho.split] at h hU hno'
    exact h.usable_overrun (blockSize_ge hn) ho.fits hU hno'

/-- **When a crash leaves the region usable.**  A process dies in a call, holding the lock; the next
caller finds the region usable if and only if the call was not stopped in the middle. -/
theorem crash_leaves_usable (h : Reach G NoWrap m) {c : Call} (hd : Dies G m c V) (r : Region) :
    Usable G ((regionLock r).mem (replay V m)) ↔ ¬ Torn G m (blocks G m) c (effects V) := by
  obtain ⟨bs, hI⟩ := h.fullInv
  rw [hI.heap.toRep.blocks_eq, mem_regionLock, ← replay_effects]
  exact ⟨fun hu ht => ht.not_usable hI hu, (hd.stoppedRun hI.toInv).usable hI⟩

/-! ## On a page -/

/-- The next caller: it maps the page, and is told that the holder of the mutex died. -/
def survivor : Region := { pageHandle with lockRc := .ownerDead }

/-- User 7 takes all permissions but one from the object at offset 56. -/
def restricts : Call := .setPerms (some pageHandle) 56 7 0xF 0x2

theorem legal_restricts :
    Legal pageGeometry (firstMem pageGeometry pageHandle eightBytes) restricts := by
  have hoff : (entryAt (firstMem pageGeometry pageHandle eightBytes) 0).off = 56 := by
    rw [entryAt_first (by decide) (by decide) (by decide) (by decide)]
    rfl
  have hl := legal_setPerms (r := pageHandle) (i := 0) page_reach.inv.choose_spec rfl (by decide)
    page_alive 7 0xF 0x2
  rwa [hoff] at hl

/-- **Between its two stores**, a process that changes permissions may die. -/
theorem crash_leaves_usable_page : Usable pageGeometry ((regionLock survivor).mem
    (replay ((restricts.prog.trace (firstMem pageGeometry pageHandle eightBytes)).take 9)
      (firstMem pageGeometry pageHandle eightBytes))) :=
  (crash_leaves_usable page_reach (legal_restricts.dies (List.take_prefix ..)) survivor).2
    Torn.not_setPerms

/-- A process asks a fresh page for eight bytes and dies after 40 of its 60 accesses, behind the
store to the tag bit. -/
def stoppedAsk : List Event := ((asks 8).prog.trace (freshMem pageGeometry)).take 40

/-- **The block it took is lost**: it is allocated, and no entry is in use. -/
theorem crash_leaves_usable_fails : Reach pageGeometry NoWrap (freshMem pageGeometry) ∧
    Dies pageGeometry (freshMem pageGeometry) (asks 8) stoppedAsk ∧
    ¬ Usable pageGeometry
      ((regionLock survivor).mem (replay stoppedAsk (freshMem pageGeometry))) := by
  have hl : Legal pageGeometry (freshMem pageGeometry) (asks 8) :=
    legal_alloc (inv_fresh pageGeometry).toInv rfl (by decide) (by decide)
  refine ⟨reach_fresh .., hl.dies (List.take_prefix ..), fun hu => ?_⟩
  rw [mem_regionLock] at hu
  have hwalk : WalksTo pageGeometry (replay stoppedAsk (freshMem pageGeometry)) [] 0 :=
    ⟨rfl, by decide⟩
  obtain ⟨i, hi⟩ := hu.entry hwalk (by decide +kernel)
  have hnone : ∀ i, i < 2 →
      (entryAt (replay stoppedAsk (freshMem pageGeometry)) i).alive = false := by decide +kernel
  exact Bool.noConfusion ((hnone i hi.lt).symm.trans hi.alive)

end ShmAlloc
