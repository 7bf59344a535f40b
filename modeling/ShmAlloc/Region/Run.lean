import ShmAlloc.Region.Init

/-!
# Runs

Users call the four mutators, each through a handle of its own, and write into the payloads of live
objects in between.  `Reach` are the states such runs reach from a freshly initialised region; its
parameter is a further condition on calls, so that statements about runs in which, say, `next_id`
never wraps are about the same runs.

## What is here

* `Call`: a call of one of the four mutators, with the handle it is made through and its arguments.
* `Legal`: the call can be made and returns.  Its handle maps no more than the region, sizes do not
  wrap when the header is added, permissions are set at the offset of a live object, and nothing
  outside the mapping is touched.
* `Step` and `Reach`: one step of a run, and the states of runs.
* `Run`: a run with the record of its calls and answers, for statements about what was answered.
* `CallRun` and `callRun`: **what a call that returned can have done**, with its effects and the
  heap it leaves.  Everything about calls is proved by going through that list.
* `CallRun.inv`, `Inv.write` and `Step.inv`: one step keeps the invariant.
* `Reach.inv` and `Reach.fullInv`: **every state of every run satisfies the region invariant**, and
  has its ids in order if `next_id` does not wrap.
-/

set_option autoImplicit false

namespace ShmAlloc

open Tiling Links

variable {G : Geometry} {m m' : Mem} {bs bs' pre post : List Blk}

/-! ## Calls -/

/-- A call of one of the four mutators. -/
inductive Call
  | alloc (region : Option Region) (q : Request) (outId outOff : Bool)
  | free (region : Option Region) (objId : Nat) (userId callerPerms : UInt32)
  | resize (region : Option Region) (objId newSize : Nat) (userId callerPerms : UInt32)
  | setPerms (region : Option Region) (off : Nat) (userId callerPerms newPerms : UInt32)

namespace Call

/-- The program the call runs. -/
def prog : Call → Prog Rc
  | alloc region q outId outOff =>
    shmAlloc region q.size q.name q.userId q.perms q.typeTag outId outOff
  | free region objId userId callerPerms => shmFree region objId userId callerPerms
  | resize region objId newSize userId callerPerms =>
    shmResize region objId newSize userId callerPerms
  | setPerms region off userId callerPerms newPerms =>
    shmBlockSetPerms region off userId callerPerms newPerms

/-- The handle the call is made through. -/
def region : Call → Option Region
  | alloc region .. | free region .. | resize region .. | setPerms region .. => region

/-- What is asked of the arguments: sizes do not wrap when the header is added, and permissions
are set at the payload offset of a live object. -/
def ArgsOk (G : Geometry) (m : Mem) : Call → Prop
  | alloc _ q _ _ => q.size ≤ 2 ^ 64 - 64
  | free .. => True
  | resize _ _ newSize _ _ => newSize ≤ 2 ^ 64 - 64
  | setPerms _ off _ _ _ =>
    ∃ i, i < G.dirCap ∧ (entryAt m i).alive = true ∧ (entryAt m i).off = off

end Call

/-- **The call can be made and returns.**  Its handle maps no more than the region, and it does not
touch memory outside the mapping. -/
structure Legal (G : Geometry) (m : Mem) (c : Call) : Prop where
  args : c.ArgsOk G m
  handle : ∀ r, c.region = some r → r.size ≤ G.size
  completed : ∀ r, c.region = some r → Completed r.size (c.prog.trace m)

/-- One step of a run. -/
inductive Step (G : Geometry) (C : Mem → Call → Prop) (m : Mem) : Mem → Prop
  /-- Some user makes a call. -/
  | call (c : Call) (hl : Legal G m c) (hC : C m c) : Step G C m (c.prog.mem m)
  /-- Some user writes the `k`-th payload byte of the object in slot `i`. -/
  | write (i k : Nat) (v : UInt8) (hi : i < G.dirCap) (ha : (entryAt m i).alive = true)
      (hk : k < (entryAt m i).used) :
    Step G C m (m.store (G.base + (entryAt m i).off + k) 1 v.toNat)

/-- The states reached from a freshly initialised region by runs whose calls all satisfy `C`. -/
inductive Reach (G : Geometry) (C : Mem → Call → Prop) : Mem → Prop
  | init (m : Mem) (backend nsInode cgroupHash : Nat) (name : Option CStr) :
    Reach G C ((regionInit G.size backend G.dirCap name nsInode cgroupHash).mem m)
  | step {m m' : Mem} (h : Reach G C m) (hs : Step G C m m') : Reach G C m'

/-- Any call will do. -/
def AnyCall (_ : Mem) (_ : Call) : Prop := True

/-- `next_id` does not wrap. -/
def NoWrap (m : Mem) (c : Call) : Prop := nextIdOf m ≤ nextIdOf (c.prog.mem m)

theorem Reach.mono {C C' : Mem → Call → Prop} (hC : ∀ m c, C m c → C' m c) (h : Reach G C m) :
    Reach G C' m := by
  induction h with
  | init => exact .init ..
  | step _ hs ih =>
    refine ih.step ?_
    cases hs with
    | call c hl hc => exact .call c hl (hC _ _ hc)
    | write i k v hi ha hk => exact .write i k v hi ha hk

/-! ## Runs with a record -/

/-- A call that was made, what it returned and what it did. -/
structure Answer where
  call : Call
  rc : Rc
  trace : List Event

/-- The call, made in the state `m`. -/
def Call.answer (c : Call) (m : Mem) : Answer := ⟨c, c.prog.val m, c.prog.trace m⟩

namespace Answer

/-- The id a successful `shm_alloc` gave back. -/
def newId (a : Answer) : Option Nat :=
  match a.call, a.rc with
  | .alloc .., .ok => lastOut 0 a.trace
  | _, _ => none

/-- The id a successful `shm_free` was given. -/
def freedId (a : Answer) : Option Nat :=
  match a.call, a.rc with
  | .free _ objId _ _, .ok => some objId
  | _, _ => none

end Answer

/-- A run from `m`, the record of its calls, oldest first, and the state it leads to. -/
inductive Run (G : Geometry) (C : Mem → Call → Prop) (m : Mem) : List Answer → Mem → Prop
  | refl : Run G C m [] m
  | call {log : List Answer} {m' : Mem} (h : Run G C m log m') (c : Call) (hl : Legal G m' c)
      (hC : C m' c) : Run G C m (log ++ [c.answer m']) (c.prog.mem m')
  | write {log : List Answer} {m' : Mem} (h : Run G C m log m') (i k : Nat) (v : UInt8)
      (hi : i < G.dirCap) (ha : (entryAt m' i).alive = true) (hk : k < (entryAt m' i).used) :
    Run G C m log (m'.store (G.base + (entryAt m' i).off + k) 1 v.toNat)

theorem Run.reach {C : Mem → Call → Prop} {log : List Answer} (h : Reach G C m)
    (hrun : Run G C m log m') : Reach G C m' := by
  induction hrun with
  | refl => exact h
  | call _ c hl hC ih => exact ih.step (.call c hl hC)
  | write _ i k v hi ha hk ih => exact ih.step (.write i k v hi ha hk)

/-! ## What a call does

A call that failed has done nothing but take the lock, whichever function and whichever error, so
all failures are one constructor. -/

/-- **What a call that returned did**: its return code, its effects, and the heap it left. -/
inductive CallRun (G : Geometry) (m : Mem) : List Blk → Call → Rc → List Event → List Blk → Prop
  /-- The call failed, and did nothing but take and release the lock, if that. -/
  | refused {bs : List Blk} {c : Call} {rc : Rc} {W : List Event} (hrc : rc ≠ .ok)
      (hW : W = [] ∨ ∃ r, W = lockEvents r ++ [.unlock]) : CallRun G m bs c rc W bs
  | alloc {pre : List Blk} {b : Blk} {post : List Blk} {i : Nat} {q : Request} {r : Region}
      (ht : Takes G m pre b i q) :
    CallRun G m (pre ++ b :: post) (.alloc (some r) q true true) .ok
      (lockEvents r ++ allocEvents G pre b post i (nextIdOf m) q)
      (allocBlks pre b post (nextIdOf m) q)
  | free {pre : List Blk} {b : Blk} {post : List Blk} {i objId : Nat} {r : Region}
      {userId callerPerms : UInt32} (hf : Finds G m objId i) (hh : Holds G m i b)
      (hacc : (entryAt m i).access userId callerPerms SHM_PERM_FREE = .ok) :
    CallRun G m (pre ++ b :: post) (.free (some r) objId userId callerPerms) .ok
      (lockEvents r ++ freeEvents G pre b post i) (insertFree pre b.freed post)
  | resize {pre : List Blk} {b : Blk} {post bs' : List Blk} {i objId n : Nat} {r : Region}
      {userId callerPerms : UInt32} {rc : Rc} {W : List Event} (hf : Finds G m objId i)
      (hh : Holds G m i b)
      (hacc : (entryAt m i).access userId callerPerms SHM_PERM_RESIZE = .ok) (hn : n ≠ 0)
      (hn' : n ≤ 2 ^ 64 - 64) (hrun : ResizeRun G r.size pre b post i n rc W bs') :
    CallRun G m (pre ++ b :: post) (.resize (some r) objId n userId callerPerms) rc
      (lockEvents r ++ W) bs'
  | setPerms {pre : List Blk} {b : Blk} {post : List Blk} {i j : Nat} {r : Region}
      {userId callerPerms newPerms : UInt32} (hh : Holds G m i b) (hf : Finds G m b.id j)
      (hacc : b.access userId callerPerms SHM_PERM_WRITE = .ok) :
    CallRun G m (pre ++ b :: post) (.setPerms (some r) (b.off + 56) userId callerPerms newPerms)
      .ok (lockEvents r ++ setPermsEvents G b j newPerms) (pre ++ b.permitted newPerms :: post)

/-- Taking and releasing the lock changes no byte. -/
theorem replay_refused {W : List Event} (hW : W = [] ∨ ∃ r, W = lockEvents r ++ [.unlock])
    (m : Mem) : replay W m = m := by
  rcases hW with rfl | ⟨r, rfl⟩
  · rfl
  · rw [replay_append, replay_lockEvents]
    rfl

/-- Every call is on the list if resizes are, which need not return. -/
theorem callRun_of_resize (h : Inv G m bs) {c : Call} (hargs : c.ArgsOk G m)
    (hresize : ∀ r objId n userId callerPerms, c = .resize (some r) objId n userId callerPerms →
      objId ≠ 0 → n ≠ 0 → ∃ rc W bs', CallRun G m bs c rc W bs' ∧ Exec G.size c.prog m rc W) :
    ∃ rc W bs', CallRun G m bs c rc W bs' ∧ Exec G.size c.prog m rc W := by
  have hbad : ∀ {c : Call}, Exec G.size c.prog m .einval [] →
      ∃ rc W bs', CallRun G m bs c rc W bs' ∧ Exec G.size c.prog m rc W := fun hx =>
    ⟨.einval, [], bs, .refused (by decide) (.inl rfl), hx⟩
  have hfail : ∀ {c : Call} {r : Region}, (∃ rc, rc ≠ .ok ∧
      Exec G.size c.prog m rc (lockEvents r ++ [.unlock])) →
      ∃ rc W bs', CallRun G m bs c rc W bs' ∧ Exec G.size c.prog m rc W :=
    fun {c r} ⟨rc, hrc, hx⟩ =>
      ⟨rc, _, bs, .refused hrc (.inr ⟨r, rfl⟩), hx⟩
  cases c with
  | alloc region q outId outOff =>
    cases region with
    | none => exact hbad (.pure _)
    | some r =>
      by_cases hnull : q.size = 0 ∨ outId = false ∨ outOff = false
      · refine hbad (c := .alloc (some r) q outId outOff) ?_
        rw [Call.prog, shmAlloc, if_pos hnull]
        exact .pure _
      · simp only [not_or, Bool.not_eq_false] at hnull
        obtain ⟨hq, rfl, rfl⟩ := hnull
        rcases exec_shmAlloc h r hq hargs with hx | ⟨pre, b, post, i, rfl, ht, hx⟩
        · exact hfail hx
        · exact ⟨_, _, _, .alloc ht, hx⟩
  | free region objId userId callerPerms =>
    cases region with
    | none => exact hbad (.pure _)
    | some r =>
      by_cases hid : objId = 0
      · refine hbad (c := .free (some r) objId userId callerPerms) ?_
        rw [Call.prog, shmFree, if_pos hid]
        exact .pure _
      · rcases exec_shmFree h r hid userId callerPerms with
          hx | ⟨pre, b, post, i, rfl, hf, hh, hacc, hx⟩
        · exact hfail hx
        · exact ⟨_, _, _, .free hf hh hacc, hx⟩
  | resize region objId n userId callerPerms =>
    cases region with
    | none => exact hbad (.pure _)
    | some r =>
      by_cases hnull : objId = 0 ∨ n = 0
      · refine hbad (c := .resize (some r) objId n userId callerPerms) ?_
        rw [Call.prog, shmResize, if_pos hnull]
        exact .pure _
      · rw [not_or] at hnull
        exact hresize r objId n userId callerPerms rfl hnull.1 hnull.2
  | setPerms region off userId callerPerms newPerms =>
    cases region with
    | none => exact hbad (.pure _)
    | some r =>
      obtain ⟨i, hi, ha, rfl⟩ := hargs
      obtain ⟨pre, b, post, rfl, hh⟩ := h.holds hi ha
      rw [hh.mirrors.off] at *
      rcases exec_shmBlockSetPerms h hh r userId callerPerms newPerms with hx | ⟨j, hf, hacc, hx⟩
      · exact hfail hx
      · exact ⟨_, _, _, .setPerms hh hf hacc, hx⟩

/-- **Every call that returned is on the list.** -/
theorem callRun (h : Inv G m bs) {c : Call} (hl : Legal G m c) :
    ∃ rc W bs', CallRun G m bs c rc W bs' ∧ Exec G.size c.prog m rc W := by
  refine callRun_of_resize h hl.args fun r objId n userId callerPerms hc hid hn => ?_
  subst hc
  rcases exec_shmResize h hid hn hl.args (hl.handle r rfl) userId callerPerms
    (hl.completed r rfl) with
      ⟨rc, hrc, hx⟩ | ⟨pre, b, post, i, rfl, hf, hh, hacc, rc, W, bs', hrun, hx⟩
  · exact ⟨rc, _, bs, .refused hrc (.inr ⟨r, rfl⟩), hx⟩
  · exact ⟨_, _, _, .resize hf hh hacc hn hl.args hrun, hx⟩

/-! ## The invariant along runs

One lemma for each kind of step, and an induction over the run.  A user's write falls into the
payload of a live block, and so misses every header and every slot. -/

/-- **A call keeps the region invariant.** -/
theorem CallRun.inv {c : Call} {rc : Rc} {W : List Event} (h : Inv G m bs)
    (hrun : CallRun G m bs c rc W bs') : Inv G (replay W m) bs' := by
  cases hrun with
  | refused hrc hW => rwa [replay_refused hW]
  | alloc ht =>
    rw [replay_append, replay_lockEvents]
    exact h.alloc ht
  | free hf hh hacc =>
    rw [replay_append, replay_lockEvents]
    exact h.free hh
  | resize hf hh hacc hn hn' hrun =>
    rw [replay_append, replay_lockEvents]
    exact hrun.inv h hh hn hn'
  | setPerms hh hf hacc =>
    rw [replay_append, replay_lockEvents]
    exact h.setPerms hh.live hf.lt

/-- **A call keeps ids in order** as long as `next_id` does not wrap. -/
theorem CallRun.fullInv {c : Call} {rc : Rc} {W : List Event} (h : FullInv G m bs)
    (hrun : CallRun G m bs c rc W bs') (hnext : nextIdOf m ≤ nextIdOf (replay W m)) :
    FullInv G (replay W m) bs' := by
  cases hrun with
  | refused hrc hW => rwa [replay_refused hW]
  | alloc ht =>
    rw [replay_append, replay_lockEvents] at hnext ⊢
    refine h.alloc ht ?_
    have h1 := nextIdOf_lt m
    have h2 := h.ids.next_pos
    rw [nextIdOf_alloc ht, add64] at hnext
    omega
  | free hf hh hacc =>
    rw [replay_append, replay_lockEvents]
    exact h.free hh
  | resize hf hh hacc hn hn' hrun =>
    rw [replay_append, replay_lockEvents]
    exact hrun.fullInv h hh hn hn'
  | setPerms hh hf hacc =>
    rename_i pre b post i j r userId callerPerms newPerms
    rw [replay_append, replay_lockEvents]
    -- the search by id finds the entry of the block, ids being distinct
    have hij : i = j := (hf.eq h.ids hh.lt hh.alive hh.mirrors.id).symm
    exact h.setPerms (hij ▸ hh)

/-- A successful `shm_alloc` leaves an entry for the object, and gives back its id and offset. -/
theorem CallRun.alloc_entry {region : Option Region} {q : Request} {outId outOff : Bool}
    {W : List Event} (h : Inv G m bs)
    (hrun : CallRun G m bs (.alloc region q outId outOff) .ok W bs') :
    ∃ i o cap, i < G.dirCap ∧ entryAt (replay W m) i = newEntry o cap (nextIdOf m) q ∧
      lastOut 0 W = some (nextIdOf m) ∧ lastOut 1 W = some (o + 56) := by
  cases hrun with
  | refused hrc hW => exact absurd rfl hrc
  | alloc ht =>
    rename_i pre b post i r
    refine ⟨i, b.off, (taken b (blockSize q.size)).cap, ht.slot_lt, ?_, ?_, ?_⟩
    · rw [replay_append, replay_lockEvents, entryAt_alloc h ht]
    · exact (lastOut_allocEvents r _).1
    · exact (lastOut_allocEvents r _).2

/-- A successful `shm_resize` updates place and size in the entry of the object. -/
theorem CallRun.resize_entry {region : Option Region} {objId n : Nat}
    {userId callerPerms : UInt32} {W : List Event} (h : Inv G m bs)
    (hrun : CallRun G m bs (.resize region objId n userId callerPerms) .ok W bs') :
    ∃ i off cap, Finds G m objId i ∧
      entryAt (replay W m) i = { entryAt m i with off, cap, used := n } := by
  cases hrun with
  | refused hrc hW => exact absurd rfl hrc
  | resize hf hh hacc hn hn' hrun =>
    rename_i pre b post i r V
    rw [replay_append, replay_lockEvents]
    rcases hrun.inPlace_of_ok h hh.live hn with ⟨hne, -⟩ |
      ⟨V, b', post', rfl, rfl, -, hp, ht⟩ | ⟨pre₁, f, post₁, pre₂, post₂, -, hr, rfl, rfl⟩
    · exact absurd rfl hne
    · exact ⟨i, (entryAt m i).off, b'.cap, hf, inPlace_entry_self hh hp (by omega)⟩
    · exact ⟨i, _, _, hf, moving_entry_self hr h (by simp) (blockSize_ge hn) hh.lt (by omega)⟩

/-- Writes into the payload of a block keep the invariant. -/
theorem Inv.scribble {b : Blk} {W : List Event} (h : Inv G m bs) (hb : b ∈ bs)
    (hW : ∀ x, Writes W x → G.base + b.off + 56 ≤ x ∧ x < G.base + b.off + b.total) :
    Inv G (replay W m) bs := by
  have hD := G.base_ge
  have hlow : ∀ x, Writes W x → G.base ≤ x := fun x hx => by
    have := hW x hx
    omega
  have hent : ∀ i, i < G.dirCap → entryAt (replay W m) i = entryAt m i := fun i hi =>
    entryAt_replay fun x hx hs => by
      have := hlow x hx
      have := hs.lt_base hi
      omega
  refine ⟨h.layout.of_writes fun x hx => by have := hlow x hx; omega,
    ⟨h.heap.scribble hb hW, h.heap.coalesced⟩, ?_, ?_, ⟨fun i hi ha => ?_,
      fun i j hi hj ha hb hoff => ?_⟩⟩
  · rw [load_replay fun x hx => .inr (by have := hlow x hx; omega)]
    exact h.used
  · rw [load_replay fun x hx => .inr (by have := hlow x hx; omega)]
    exact h.count
  · rw [hent i hi] at ha ⊢
    exact h.dir.entry i hi ha
  · rw [hent i hi] at ha hoff
    rw [hent j hj] at hb hoff
    exact h.dir.inj i j hi hj ha hb hoff

theorem IdsOk.congr {n next : Nat} {ent ent' : Nat → Entry} (h : IdsOk n ent next bs)
    (he : ∀ i, i < n → ent' i = ent i) : IdsOk n ent' next bs := by
  refine ⟨h.next_pos, fun i hi ha => ?_, fun i hi ha => ?_, fun i j hi hj ha hb hid => ?_,
    fun b hb hl => ?_⟩
  · rw [he i hi] at ha ⊢
    exact h.id_pos i hi ha
  · rw [he i hi] at ha ⊢
    exact h.id_lt i hi ha
  · rw [he i hi] at ha hid
    rw [he j hj] at hb hid
    exact h.distinct i j hi hj ha hb hid
  · obtain ⟨i, hi, hrest⟩ := h.onto b hb hl
    exact ⟨i, hi, by rwa [he i hi]⟩

theorem FullInv.scribble {b : Blk} {W : List Event} (h : FullInv G m bs) (hb : b ∈ bs)
    (hW : ∀ x, Writes W x → G.base + b.off + 56 ≤ x ∧ x < G.base + b.off + b.total) :
    FullInv G (replay W m) bs := by
  have hD := G.base_ge
  refine ⟨h.toInv.scribble hb hW, ?_⟩
  rw [nextIdOf, load_replay fun x hx => .inr (by have := hW x hx; omega)]
  refine h.ids.congr fun i hi => entryAt_replay fun x hx hs => ?_
  have := hW x hx
  have := hs.lt_base hi
  omega

/-- A user's write stays in the payload of a live block. -/
theorem Holds.payload {i k : Nat} {b : Blk} (hh : Holds G m i b) (hk : k < (entryAt m i).used) :
    G.base + b.off + 56 ≤ G.base + (entryAt m i).off + k ∧
      G.base + (entryAt m i).off + k + 1 ≤ G.base + b.off + b.total := by
  have h1 := hh.mirrors.off
  have h2 := hh.mirrors.used
  omega

/-- A user's write touches one byte of the payload of a live block. -/
theorem write_payload {i k : Nat} (h : Inv G m bs) (hi : i < G.dirCap)
    (ha : (entryAt m i).alive = true) (hk : k < (entryAt m i).used) (v : Nat) :
    ∃ b ∈ bs, Holds G m i b ∧
      ∀ x, Writes [.store (G.base + (entryAt m i).off + k) 1 v] x →
        G.base + b.off + 56 ≤ x ∧ x < G.base + b.off + b.total := by
  obtain ⟨pre, b, post, rfl, hh⟩ := h.holds hi ha
  have hp := hh.payload hk
  refine ⟨b, by simp, hh, fun x hx => ?_⟩
  simp only [writes_cons, not_writes_nil, Event.Touches, or_false] at hx
  omega

/-- **A user's write keeps the region invariant**, with the same blocks. -/
theorem Inv.write {i k : Nat} (h : Inv G m bs) (hi : i < G.dirCap)
    (ha : (entryAt m i).alive = true) (hk : k < (entryAt m i).used) (v : Nat) :
    Inv G (m.store (G.base + (entryAt m i).off + k) 1 v) bs := by
  obtain ⟨b, hb, -, hW⟩ := write_payload h hi ha hk v
  exact h.scribble hb hW

theorem FullInv.write {i k : Nat} (h : FullInv G m bs) (hi : i < G.dirCap)
    (ha : (entryAt m i).alive = true) (hk : k < (entryAt m i).used) (v : Nat) :
    FullInv G (m.store (G.base + (entryAt m i).off + k) 1 v) bs := by
  obtain ⟨b, hb, -, hW⟩ := write_payload h.toInv hi ha hk v
  exact h.scribble hb hW

theorem Step.inv {C : Mem → Call → Prop} (h : Inv G m bs) (hs : Step G C m m') :
    ∃ bs', Inv G m' bs' := by
  cases hs with
  | call c hl hC =>
    obtain ⟨rc, W, bs', hrun, hx⟩ := callRun h hl
    rw [hx.mem]
    exact ⟨bs', hrun.inv h⟩
  | write i k v hi ha hk => exact ⟨bs, h.write hi ha hk v.toNat⟩

theorem Step.fullInv (h : FullInv G m bs) (hs : Step G NoWrap m m') :
    ∃ bs', FullInv G m' bs' := by
  cases hs with
  | call c hl hC =>
    obtain ⟨rc, W, bs', hrun, hx⟩ := callRun h.toInv hl
    rw [NoWrap, hx.mem] at hC
    rw [hx.mem]
    exact ⟨bs', hrun.fullInv h hC⟩
  | write i k v hi ha hk => exact ⟨bs, h.write hi ha hk v.toNat⟩

/-- **Every state of every run satisfies the region invariant.** -/
theorem Reach.inv {C : Mem → Call → Prop} (h : Reach G C m) : ∃ bs, Inv G m bs := by
  induction h with
  | init m backend nsInode cgroupHash name =>
    rw [(exec_regionInit G m backend nsInode cgroupHash name).mem]
    exact ⟨_, (fullInv_init m).toInv⟩
  | step _ hs ih =>
    obtain ⟨bs, h⟩ := ih
    exact hs.inv h

/-- **Every state of a run without a wrap has its ids in order.** -/
theorem Reach.fullInv (h : Reach G NoWrap m) : ∃ bs, FullInv G m bs := by
  induction h with
  | init m backend nsInode cgroupHash name =>
    rw [(exec_regionInit G m backend nsInode cgroupHash name).mem]
    exact ⟨_, fullInv_init m⟩
  | step _ hs ih =>
    obtain ⟨bs, h⟩ := ih
    exact hs.fullInv h

end ShmAlloc
