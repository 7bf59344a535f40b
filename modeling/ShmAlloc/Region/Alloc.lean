import ShmAlloc.Region.Call

/-!
# `shm_alloc`

A call either fails without an effect but on the lock, or takes a free block, gives it an identity
and a zeroed payload, and fills a directory slot with the same identity.

## What is here

* `Request`: what the caller asks for.
* `allocEvents`: everything the call does under the lock when it takes the free block `b` and slot
  `i`.  It is put together from stages named after what they do (`identEvents`, `zeroEvents`,
  `slotEvents`, `nameEvents`), so that a crash can be placed between two of them.
* `Takes`: the conditions under which `b` and `i` are the ones taken, first fit for both.
* `Inv.alloc` and `FullInv.alloc`: **a successful call keeps the region invariant**, and the ids in
  order as long as `next_id` does not wrap.
* `exec_shmAlloc`: **the code does one or the other**, error by error.
* `writes_allocEvents`, `entryAt_alloc` and `entryAt_alloc_other`: what it writes, and the directory
  it leaves.

The new entry counts from the store that sets its `alive` byte, so the invariant is established
there (`Inv.bound`), and what follows, the name and the answer, is shown not to disturb it.
-/

set_option autoImplicit false

namespace ShmAlloc

open Tiling Links

variable {G : Geometry} {m m' : Mem} {bs pre post : List Blk}

/-- What the caller of `shm_alloc` asks for. -/
structure Request where
  size : Nat
  name : Option CStr
  userId : UInt32
  perms : UInt32
  typeTag : UInt32

/-! ## The effects

Each list is what one helper of the model emits, in the order of the source's statements. -/

/-- `next_id` moves on and the block gets its identity. -/
def identEvents (p id : Nat) (q : Request) : List Event :=
  [.store 112 8 (add64 id 1), .store (p + 4) 4 q.typeTag.toNat, .store (p + 8) 4 q.userId.toNat,
    .store (p + 12) 4 q.perms.toNat, .store (p + 24) 8 id]

/-- The payload is zeroed, it and the header are written back. -/
def zeroEvents (p cap : Nat) : List Event :=
  [.fill (p + 56) cap 0, .persist (p + 56) cap, .persist p 56]

/-- The slot is filled, up to its name. -/
def slotEvents (s id off cap : Nat) (q : Request) : List Event :=
  [.fill s 96 0, .store s 8 id, .store (s + 56) 8 off, .store (s + 64) 8 cap,
    .store (s + 72) 8 q.size, .store (s + 80) 4 q.typeTag.toNat,
    .store (s + 84) 4 q.userId.toNat, .store (s + 88) 4 q.perms.toNat, .store (s + 92) 1 1]

/-- The name is stored, if there is one. -/
def nameEvents (s : Nat) : Option CStr → List Event
  | none => []
  | some c => if c.1 = [] then [] else [.put (s + 8) (strncpyBytes c.1 47)]

/-- `shm_alloc` once the block at `o`, of capacity `cap`, and slot `i` are known, up to the name. -/
def bindEvents (G : Geometry) (o cap i id : Nat) (q : Request) : List Event :=
  identEvents (G.base + o) id q ++
    (zeroEvents (G.base + o) cap ++ slotEvents (slotAddr i) id (o + 56) cap q)

/-- The end of `shm_alloc`. -/
def answerEvents (o i id : Nat) (name : Option CStr) : List Event :=
  nameEvents (slotAddr i) name ++ [.persist (slotAddr i) 96, .persist 112 8, .drain, .out 0 id,
    .out 1 (o + 56), .unlock]

/-- Everything `shm_alloc` does under the lock when it takes the free block `b` and slot `i`. -/
def allocEvents (G : Geometry) (pre : List Blk) (b : Blk) (post : List Blk) (i id : Nat)
    (q : Request) : List Event :=
  takeEvents G pre b post (blockSize q.size) (liveBytes (pre ++ b :: post))
      (liveBlks (pre ++ b :: post)).length ++
    (bindEvents G b.off (taken b (blockSize q.size)).cap i id q ++ answerEvents b.off i id q.name)

/-- The block with the identity of an object. -/
def Blk.named (b : Blk) (id : Nat) (q : Request) : Blk :=
  { b with id, owner := q.userId.toNat, perms := q.perms.toNat, tag := q.typeTag.toNat }

/-- The heap after `shm_alloc`. -/
def allocBlks (pre : List Blk) (b : Blk) (post : List Blk) (id : Nat) (q : Request) : List Blk :=
  pre ++ (taken b (blockSize q.size)).named id q :: (remnant b (blockSize q.size) ++ post)

/-- The entry of the new object. -/
def newEntry (o cap id : Nat) (q : Request) : Entry where
  id
  off := o + 56
  cap
  used := q.size
  tag := q.typeTag.toNat
  owner := q.userId.toNat
  perms := q.perms.toNat
  alive := true

/-! ## What is written -/

theorem strncpyBytes_length (s : List UInt8) (n : Nat) : (strncpyBytes s n).length = n := by
  simp [strncpyBytes]
  omega

theorem writes_nameEvents {s x : Nat} {name : Option CStr} (h : Writes (nameEvents s name) x) :
    s + 8 ≤ x ∧ x < s + 55 := by
  cases name with
  | none => simp [nameEvents] at h
  | some c =>
    by_cases hc : c.1 = []
    · simp [nameEvents, hc] at h
    · simp only [nameEvents, if_neg hc, writes_cons, not_writes_nil, Event.Touches,
        strncpyBytes_length, or_false] at h
      omega

theorem writes_identEvents {p id x : Nat} {q : Request} (h : Writes (identEvents p id q) x) :
    112 ≤ x ∧ x < 120 ∨ p + 4 ≤ x ∧ x < p + 32 := by
  simp only [identEvents, writes_cons, not_writes_nil, Event.Touches, or_false] at h
  omega

theorem writes_zeroEvents {p cap x : Nat} (h : Writes (zeroEvents p cap) x) :
    p + 56 ≤ x ∧ x < p + 56 + cap := by
  simpa only [zeroEvents, writes_cons, not_writes_nil, Event.Touches, or_false] using h

theorem writes_slotEvents {s id off cap x : Nat} {q : Request}
    (h : Writes (slotEvents s id off cap q) x) : s ≤ x ∧ x < s + 96 := by
  simp only [slotEvents, writes_cons, not_writes_nil, Event.Touches, or_false] at h
  omega

theorem writes_answerEvents {o i id x : Nat} {name : Option CStr}
    (h : Writes (answerEvents o i id name) x) : InSlot i x := by
  rcases writes_append.1 h with h | h
  · have := writes_nameEvents h
    exact ⟨by omega, by omega⟩
  · simp [Event.Touches] at h

/-! ## The new header and the new entry -/

theorem blkAt_identEvents {b : Blk} {id : Nat} {q : Request} (hB : BlkAt G m b)
    (hid : id < 2 ^ 64) :
    BlkAt G (replay (identEvents (G.base + b.off) id q) m) (b.named id q) := by
  have hD := G.base_ge
  have h4 : ∀ u : UInt32, u.toNat % 256 ^ 4 = u.toNat := fun u => Nat.mod_eq_of_lt u.toNat_lt
  have h8 : id % 256 ^ 8 = id := Nat.mod_eq_of_lt hid
  simp only [identEvents, replay_cons, replay_nil, Event.act]
  refine .intro ?_ ?_ ?_ ?_ ?_ ?_ ?_ ?_ <;>
    simp (disch := omega) only [Blk.named, Mem.load_store_same, Mem.load_store_of_disjoint, h4, h8]
  · exact hB.magic
  · exact hB.live
  · exact hB.cap
  · exact hB.total

theorem entryAt_slotEvents {i id off cap : Nat} {q : Request} (hid : id < 2 ^ 64)
    (hoff : off + 56 < 2 ^ 64) (hcap : cap < 2 ^ 64) (hq : q.size < 2 ^ 64) :
    entryAt (replay (slotEvents (slotAddr i) id (off + 56) cap q) m) i = newEntry off cap id q := by
  have h4 : ∀ u : UInt32, u.toNat % 256 ^ 4 = u.toNat := fun u => Nat.mod_eq_of_lt u.toNat_lt
  have h8 : ∀ v < 2 ^ 64, v % 256 ^ 8 = v := fun v hv => Nat.mod_eq_of_lt hv
  simp only [slotEvents, replay_cons, replay_nil, Event.act, entryAt]
  simp (disch := omega) only [Mem.load_store_same, Mem.load_store_of_disjoint, h4, h8 _ hid,
    h8 _ hoff, h8 _ hcap, h8 _ hq]
  rfl

/-! ## What the call leaves -/

theorem not_freeListByte_counter {x : Nat} (h1 : 96 ≤ x) (h2 : x < G.base) :
    ¬ FreeListByte G bs x := by
  rintro (h | ⟨c, -, -, h⟩)
  · omega
  · have := h.1
    omega

section Take

variable {b : Blk} {need used count : Nat}

theorem takeEvents_above (hn : 64 ≤ need) (hle : need ≤ b.total) (hb : b.live = false) {x : Nat}
    (h : Writes (takeEvents G pre b post need used count) x) :
    88 ≤ x ∧ (x < 112 ∨ G.base ≤ x) := by
  have hD := G.base_ge
  rcases writes_takeEvents hn hle hb h with h | (h | ⟨c, -, -, h⟩) | h
  · omega
  · omega
  · have := h.1
    omega
  · have := h.1
    omega

theorem load_used_take (hle : need ≤ b.total) (hu : used + b.total < 2 ^ 64) :
    (replay (takeEvents G pre b post need used count) m).load 96 8
      = used + (taken b need).total := by
  have hD := G.base_ge
  have hle' := detached_total_le hle
  simp only [takeEvents, markEvents, replay_append, replay_cons, replay_nil, Event.act]
  rw [Mem.load_store_of_disjoint (by omega), Mem.load_store_same]
  exact Nat.mod_eq_of_lt (show used + (detached b need).total < 2 ^ 64 by omega)

theorem load_count_take (hc : count + 1 < 2 ^ 64) :
    (replay (takeEvents G pre b post need used count) m).load 104 8 = count + 1 := by
  simp only [takeEvents, markEvents, replay_append, replay_cons, replay_nil, Event.act]
  rw [Mem.load_store_same]
  exact Nat.mod_eq_of_lt hc

end Take

theorem writes_bindEvents {o cap i id x : Nat} {q : Request}
    (h : Writes (bindEvents G o cap i id q) x) :
    112 ≤ x ∧ x < 120 ∨ InSlot i x ∨ G.base + o + 4 ≤ x ∧ x < G.base + o + 56 + cap := by
  simp only [bindEvents, writes_append] at h
  rcases h with h | h | h
  · have := writes_identEvents h
    omega
  · have := writes_zeroEvents h
    omega
  · exact .inr (.inl (writes_slotEvents h))

/-- The block gets its identity, its payload is zeroed, and the slot is filled. -/
theorem HeapInv.bind {c : Blk} {i : Nat} (id : Nat) (q : Request)
    (h : HeapInv G m (pre ++ c :: post)) (hc : c.live = true) (hi : i < G.dirCap)
    (hid : id < 2 ^ 64) :
    HeapInv G (replay (bindEvents G c.off c.cap i id q) m) (pre ++ c.named id q :: post) := by
  have hcm : c ∈ pre ++ c :: post := by simp
  have hwf := h.wf c hcm
  have hcb := h.bounds hcm
  have hcap := hwf.cap_le
  have hD := G.base_ge
  have hs := G.slotAddr_lt hi
  have hs' := slotAddr_ge i
  have hoffs : freeOffs (pre ++ c.named id q :: post) = freeOffs (pre ++ c :: post) := by
    rw [freeOffs_append, freeOffs_append, freeOffs_cons_live hc,
      freeOffs_cons_live (b := c.named id q) hc]
  have h1 : Rep G (replay (identEvents (G.base + c.off) id q) m) (pre ++ c.named id q :: post)
      (freeOffs (pre ++ c :: post)) := by
    -- first `next_id`, which is no concern of the heap, then the header
    have h0 := h.of_header_writes (W := [.store 112 8 (add64 id 1)]) fun x hx => by
      simp only [writes_cons, not_writes_nil, Event.Touches, or_false] at hx
      omega
    refine h0.modify rfl rfl ⟨hwf.aligned, hwf.min, hwf.cap_le⟩
      (blkAt_identEvents (h.blk c hcm) hid) fun x hx => ?_
    refine replay_of_not_writes (W := [.store (G.base + c.off + 4) 4 q.typeTag.toNat,
      .store (G.base + c.off + 8) 4 q.userId.toNat, .store (G.base + c.off + 12) 4 q.perms.toNat,
      .store (G.base + c.off + 24) 8 id]) (fun hw => ?_) _
    simp only [writes_cons, not_writes_nil, Event.Touches, or_false] at hw
    omega
  have h2 := h1.scribble (W := zeroEvents (G.base + c.off) c.cap) (b := c.named id q) (by simp)
    fun x hx => by
      have := writes_zeroEvents hx
      simp only [Blk.named]
      omega
  have h3 := h2.of_header_writes (W := slotEvents (slotAddr i) id (c.off + 56) c.cap q)
    fun x hx => by
      have := writes_slotEvents hx
      omega
  refine ⟨?_, h.coalesced.mid_congr rfl⟩
  rw [bindEvents, replay_append, replay_append, hoffs]
  exact h3

theorem liveBytes_alloc (pre : List Blk) {b : Blk} (hb : b.live = false) (post : List Blk)
    (id : Nat) (q : Request) :
    liveBytes (allocBlks pre b post id q)
      = liveBytes (pre ++ b :: post) + (taken b (blockSize q.size)).total ∧
    (liveBlks (allocBlks pre b post id q)).length
      = (liveBlks (pre ++ b :: post)).length + 1 := by
  have h1 : liveBlks (allocBlks pre b post id q)
      = liveBlks pre ++ (taken b (blockSize q.size)).named id q :: liveBlks post := by
    rw [allocBlks, liveBlks_append, liveBlks_cons_live (b := Blk.named _ id q) rfl,
      liveBlks_append, liveBlks_remnant, List.nil_append]
  have h2 : liveBlks (pre ++ b :: post) = liveBlks pre ++ liveBlks post := by
    rw [liveBlks_append, liveBlks_cons_free hb]
  refine ⟨?_, ?_⟩
  · rw [liveBytes, liveBytes, h1, h2]
    simp only [List.map_append, List.map_cons, List.sum_append, List.sum_cons]
    have : ((taken b (blockSize q.size)).named id q).total
      = (taken b (blockSize q.size)).total := rfl
    omega
  · rw [h1, h2]
    simp only [List.length_append, List.length_cons]
    omega

/-- The memory once the new entry is marked alive. -/
abbrev boundMem (G : Geometry) (pre : List Blk) (b : Blk) (post : List Blk) (i : Nat)
    (q : Request) (m : Mem) : Mem :=
  replay (takeEvents G pre b post (blockSize q.size) (liveBytes (pre ++ b :: post))
      (liveBlks (pre ++ b :: post)).length ++
    bindEvents G b.off (taken b (blockSize q.size)).cap i (nextIdOf m) q) m

section Bound

variable {b : Blk} {i : Nat} {q : Request}

/-- The conditions under which `shm_alloc` takes `b` and slot `i`. -/
structure Takes (G : Geometry) (m : Mem) (pre : List Blk) (b : Blk) (i : Nat) (q : Request) :
    Prop where
  slot_lt : i < G.dirCap
  slot_free : ¬ (entryAt m i).Live
  slot_first : ∀ k, k < i → (entryAt m k).Live
  free : b.live = false
  fits : blockSize q.size ≤ b.total
  first : ∀ c ∈ pre, c.live = false → c.total < blockSize q.size
  size_pos : q.size ≠ 0
  size_le : q.size ≤ 2 ^ 64 - 64

/-- What `shm_alloc` leaves of the region header. -/
theorem boundMem_writes (h : Inv G m (pre ++ b :: post)) (ht : Takes G m pre b i q) {x : Nat}
    (hx : Writes (takeEvents G pre b post (blockSize q.size) (liveBytes (pre ++ b :: post))
      (liveBlks (pre ++ b :: post)).length ++
        bindEvents G b.off (taken b (blockSize q.size)).cap i (nextIdOf m) q) x) :
    88 ≤ x ∧ x < 120 ∨ InSlot i x ∨ FreeListByte G (pre ++ b :: post) x ∨ InBlk G b x := by
  have hwf := h.heap.wf b (by simp)
  have hcap := (detached_wf hwf (blockSize_ge ht.size_pos)).cap_le
  have hle := detached_total_le ht.fits
  rcases writes_append.1 hx with hx | hx
  · rcases writes_takeEvents (blockSize_ge ht.size_pos) ht.fits ht.free hx with hx | hx
    · exact .inl (by omega)
    · exact .inr (.inr hx)
  · rcases writes_bindEvents hx with hx | hx | hx
    · exact .inl (by omega)
    · exact .inr (.inl hx)
    · have : (taken b (blockSize q.size)).cap = (detached b (blockSize q.size)).cap := rfl
      exact .inr (.inr (.inr ⟨by omega, by omega⟩))

theorem boundMem_heap (h : Inv G m (pre ++ b :: post)) (ht : Takes G m pre b i q) :
    HeapInv G (boundMem G pre b post i q m) (allocBlks pre b post (nextIdOf m) q) := by
  have h1 := h.heap.take (liveBytes (pre ++ b :: post))
    (liveBlks (pre ++ b :: post)).length ht.free (blockSize_ge ht.size_pos)
    (blockSize_mod q.size) ht.fits
  have h2 := h1.bind (i := i) (nextIdOf m) q (taken_live b _) ht.slot_lt
    (nextIdOf_lt m)
  rw [taken_off] at h2
  rw [boundMem, replay_append]
  exact h2

theorem boundMem_entry (h : Inv G m (pre ++ b :: post)) (ht : Takes G m pre b i q) :
    entryAt (boundMem G pre b post i q m) i
      = newEntry b.off (taken b (blockSize q.size)).cap (nextIdOf m) q := by
  have hbb := h.heap.bounds (show b ∈ pre ++ b :: post by simp)
  have hwf := h.heap.wf b (by simp)
  have hcap := (detached_wf hwf (blockSize_ge ht.size_pos)).cap_le
  have hle := detached_total_le ht.fits
  have hc : (taken b (blockSize q.size)).cap = (detached b (blockSize q.size)).cap := rfl
  have hsz := ht.size_le
  have := G.size_lt
  have := G.size_eq
  rw [boundMem, bindEvents, ← List.append_assoc, ← List.append_assoc, replay_append]
  exact entryAt_slotEvents (nextIdOf_lt m) (by omega) (by omega) (by omega)

theorem boundMem_entry_other (h : Inv G m (pre ++ b :: post)) (ht : Takes G m pre b i q)
    {j : Nat} (hj : j < G.dirCap) (hji : j ≠ i) :
    entryAt (boundMem G pre b post i q m) j = entryAt m j := by
  refine entryAt_replay fun x hx hs => ?_
  have hb := hs.lt_base hj
  rcases boundMem_writes h ht hx with hx | hx | (hx | ⟨c, -, -, hx⟩) | hx
  · omega
  · exact hji (hs.eq hx)
  · omega
  · have := hx.1
    omega
  · have := hx.1
    omega

theorem boundMem_nextId (ht : Takes G m pre b i q) :
    nextIdOf (boundMem G pre b post i q m) = add64 (nextIdOf m) 1 := by
  have hD := G.base_ge
  have hs := G.slotAddr_lt ht.slot_lt
  have hs' := slotAddr_ge i
  have h1 : ∀ (W : List Event) (m' : Mem) (v : Nat),
      (∀ x, Writes W x → 120 ≤ x) → v < 2 ^ 64 →
      nextIdOf (replay (.store 112 8 v :: W) m') = v := fun W m' v hW hv => by
    rw [nextIdOf, replay_cons, load_replay fun x hx => .inr (hW x hx), Event.act,
      Mem.load_store_same]
    exact Nat.mod_eq_of_lt hv
  rw [boundMem, replay_append, bindEvents, identEvents, List.cons_append]
  refine h1 _ _ _ (fun x hx => ?_) (add64_lt ..)
  rcases writes_append.1 hx with hx | hx
  · simp only [writes_cons, not_writes_nil, Event.Touches, or_false] at hx
    omega
  · rcases writes_append.1 hx with hx | hx
    · have := writes_zeroEvents hx
      omega
    · have := writes_slotEvents hx
      omega

/-- The block the new entry mirrors. -/
theorem mirrors_newEntry (ht : Takes G m pre b i q) (id : Nat) :
    Mirrors (newEntry b.off (taken b (blockSize q.size)).cap id q)
      ((taken b (blockSize q.size)).named id q) := by
  refine ⟨?_, rfl, rfl, rfl, rfl, ?_⟩
  · show b.off + 56 = (taken b (blockSize q.size)).off + 56
    rw [taken_off]
  · have h1 := detached_total_ge ht.fits
    have h2 := le_blockSize q.size
    show q.size + 56 ≤ (detached b (blockSize q.size)).total
    omega

/-- **`shm_alloc` keeps the region invariant**, up to the point where the entry is alive. -/
theorem Inv.bound (h : Inv G m (pre ++ b :: post)) (ht : Takes G m pre b i q) :
    Inv G (boundMem G pre b post i q m) (allocBlks pre b post (nextIdOf m) q) := by
  have hbm : b ∈ pre ++ b :: post := by simp
  have hD := G.base_ge
  have hroom := h.heap.room b hbm ht.free
  have hle := detached_total_le ht.fits
  have hlive := liveBytes_alloc pre ht.free post (nextIdOf m) q
  have hmem : (taken b (blockSize q.size)).named (nextIdOf m) q ∈
      allocBlks pre b post (nextIdOf m) q := by simp [allocBlks]
  refine ⟨h.layout.of_writes fun x hx => ?_, boundMem_heap h ht, ?_, ?_, ?_⟩
  · rcases boundMem_writes h ht hx with hx | hx | (hx | ⟨c, -, -, hx⟩) | hx
    · exact hx.1
    · have := hx.1
      have := slotAddr_ge i
      omega
    · exact hx.1
    · have := hx.1
      omega
    · have := hx.1
      omega
  · rw [boundMem, replay_append, load_replay fun x hx => ?_,
      load_used_take ht.fits hroom, hlive.1]
    rcases writes_bindEvents hx with hx | hx | hx
    · omega
    · have := hx.1
      have := slotAddr_ge i
      omega
    · omega
  · rw [boundMem, replay_append, load_replay fun x hx => ?_, load_count_take h.heap.count_lt,
      hlive.2]
    rcases writes_bindEvents hx with hx | hx | hx
    · omega
    · have := hx.1
      have := slotAddr_ge i
      omega
    · omega
  · refine h.dir.update (i := i) (fun j hj hji => boundMem_entry_other h ht hj hji)
      (fun j c hj hji ha hc hl hm => ?_) fun _ => ?_
    · have hcb : c ≠ b := fun e => by
        rw [e, ht.free] at hl
        exact Bool.noConfusion hl
      simp only [allocBlks, List.mem_append, List.mem_cons] at hc ⊢
      rcases hc with hc | hc | hc
      · exact .inl hc
      · exact absurd hc hcb
      · exact .inr (.inr (.inr hc))
    · rw [boundMem_entry h ht]
      refine ⟨⟨_, hmem, rfl, mirrors_newEntry ht _⟩, fun j hj hji ha hoff => ?_⟩
      obtain ⟨c, hc, hl, hm⟩ := h.dir.entry j hj ha
      have : c.off = b.off := by
        have h1 := hm.off
        have h2 : (entryAt m j).off = b.off + 56 := hoff
        omega
      rw [h.heap.eq_of_off hc hbm this, ht.free] at hl
      exact Bool.noConfusion hl

/-- **`shm_alloc` keeps ids in order** as long as `next_id` does not wrap. -/
theorem FullInv.bound (h : FullInv G m (pre ++ b :: post)) (ht : Takes G m pre b i q)
    (hnext : nextIdOf m + 1 < 2 ^ 64) :
    FullInv G (boundMem G pre b post i q m) (allocBlks pre b post (nextIdOf m) q) := by
  have hn : nextIdOf (boundMem G pre b post i q m) = nextIdOf m + 1 := by
    rw [boundMem_nextId ht, add64_eq hnext]
  refine ⟨h.toInv.bound ht, ?_⟩
  rw [hn]
  refine h.ids.update ht.slot_lt (fun j hj hji => boundMem_entry_other h.toInv ht hj hji)
    (Nat.le_succ _) (fun _ => ?_) fun c hc hl => ?_
  · rw [boundMem_entry h.toInv ht]
    exact ⟨h.ids.next_pos, Nat.lt_succ_self _, fun j hj _ ha =>
      Nat.ne_of_lt (h.ids.id_lt j hj ha)⟩
  · rw [boundMem_entry h.toInv ht]
    simp only [allocBlks, List.mem_append, List.mem_cons] at hc
    have hold : c ∈ pre ∨ c ∈ post → ∃ d ∈ pre ++ b :: post, d.live = true ∧ d.off = c.off ∧
        d.perms = c.perms ∧ ((entryAt m i).alive = true → (entryAt m i).off ≠ d.off + 56) :=
      fun hc => ⟨c, by rcases hc with hc | hc <;> simp [hc], hl, rfl, rfl,
        fun ha => absurd ⟨ha, Nat.pos_iff_ne_zero.1 (h.ids.id_pos i ht.slot_lt ha)⟩
          ht.slot_free⟩
    rcases hc with hc | rfl | hc | hc
    · exact .inr (hold (.inl hc))
    · refine .inl ⟨rfl, ?_, rfl⟩
      show b.off + 56 = (taken b (blockSize q.size)).off + 56
      rw [taken_off]
    · have := liveBlks_remnant b (blockSize q.size)
      exact absurd (mem_liveBlks.2 ⟨hc, hl⟩) (by simp [this])
    · exact .inr (hold (.inr hc))

end Bound

/-! ## The rest of the call

The name is stored behind the other fields, and is not part of an entry as the invariant sees it. -/

/-- The name of a slot is no part of the entry. -/
theorem entryAt_of_name_writes {W : List Event} {i : Nat}
    (hW : ∀ x, Writes W x → slotAddr i + 8 ≤ x ∧ x < slotAddr i + 56) (j : Nat) :
    entryAt (replay W m) j = entryAt m j := by
  by_cases hji : j = i
  · subst hji
    have l : ∀ k n, 56 ≤ k → (replay W m).load (slotAddr j + k) n = m.load (slotAddr j + k) n :=
      fun k n hk => load_replay fun x hx => by
        have := hW x hx
        omega
    have l0 : (replay W m).load (slotAddr j) 8 = m.load (slotAddr j) 8 :=
      load_replay fun x hx => by
        have := hW x hx
        omega
    rw [entryAt, entryAt, l0, l 56 8 (by omega), l 64 8 (by omega), l 72 8 (by omega),
      l 80 4 (by omega), l 84 4 (by omega), l 88 4 (by omega), l 92 1 (by omega)]
  · refine entryAt_replay fun x hx hs => hji (hs.eq (j := i) ?_)
    have := hW x hx
    exact ⟨by omega, by omega⟩

/-- Writes to the name of a slot keep the invariant. -/
theorem Inv.of_name_writes {W : List Event} {i : Nat} (h : Inv G m bs) (hi : i < G.dirCap)
    (hW : ∀ x, Writes W x → slotAddr i + 8 ≤ x ∧ x < slotAddr i + 56) :
    Inv G (replay W m) bs := by
  have hs := G.slotAddr_lt hi
  have hs' := slotAddr_ge i
  have hent : entryAt (replay W m) = entryAt m := funext fun j => entryAt_of_name_writes hW j
  refine ⟨h.layout.of_writes fun x hx => ?_, ⟨h.heap.of_header_writes fun x hx => ?_,
    h.heap.coalesced⟩, ?_, ?_, ?_⟩
  · have := hW x hx
    omega
  · have := hW x hx
    omega
  · rw [load_replay fun x hx => .inr (by have := hW x hx; omega)]
    exact h.used
  · rw [load_replay fun x hx => .inr (by have := hW x hx; omega)]
    exact h.count
  · rw [hent]
    exact h.dir

theorem FullInv.of_name_writes {W : List Event} {i : Nat} (h : FullInv G m bs)
    (hi : i < G.dirCap)
    (hW : ∀ x, Writes W x → slotAddr i + 8 ≤ x ∧ x < slotAddr i + 56) :
    FullInv G (replay W m) bs := by
  have hs' := slotAddr_ge i
  have hent : entryAt (replay W m) = entryAt m := funext fun j => entryAt_of_name_writes hW j
  refine ⟨h.toInv.of_name_writes hi hW, ?_⟩
  rw [hent, nextIdOf, load_replay fun x hx => .inr (by have := hW x hx; omega)]
  exact h.ids

theorem writes_answerEvents_name {o i id x : Nat} {name : Option CStr}
    (h : Writes (answerEvents o i id name) x) : slotAddr i + 8 ≤ x ∧ x < slotAddr i + 56 := by
  rcases writes_append.1 h with h | h
  · have := writes_nameEvents h
    omega
  · simp [Event.Touches] at h

/-! ## Running the code -/

theorem exec_storeName {sz : Nat} (s : Nat) (name : Option CStr) :
    Exec sz (storeName s name) m () (nameEvents s name) := by
  cases name with
  | none => exact .pure _
  | some c =>
    rw [storeName, nameEvents]
    by_cases hc : c.1 = []
    · rw [if_pos hc, if_pos hc]
      exact .pure _
    · rw [if_neg hc, if_neg hc]
      exact .emit

theorem exec_identifyBlock {sz p id : Nat} {q : Request} :
    Exec sz (identifyBlock p id q.userId q.perms q.typeTag) m ()
      [.store (p + 4) 4 q.typeTag.toNat, .store (p + 8) 4 q.userId.toNat,
        .store (p + 12) 4 q.perms.toNat, .store (p + 24) 8 id] :=
  .emit_bind (.emit_bind (.emit_bind .emit))

theorem exec_zeroPayload {b : Blk} (hB : BlkAt G m b) (hb : b.off + 56 ≤ G.heapSize) :
    Exec G.size (zeroPayload (G.base + b.off)) m () (zeroEvents (G.base + b.off) b.cap) := by
  have hsz := G.size_eq
  exact Exec.load_bind hB.cap (by simp; omega) (.emit_bind (.emit_bind .emit))

theorem exec_fillSlot (hL : LayoutOk G m) {b : Blk} {i id : Nat} {q : Request}
    (hB : BlkAt G m b) (hb : b.off + 56 ≤ G.heapSize) (hi : i < G.dirCap) :
    Exec G.size (fillSlot (slotAddr i) (G.base + b.off) id q.size q.userId q.perms q.typeTag) m ()
      (slotEvents (slotAddr i) id (b.off + 56) b.cap q) := by
  have hsz := G.size_eq
  have hs := G.slotAddr_lt hi
  have hs' := slotAddr_ge i
  have hL' : LayoutOk G (replay [.fill (slotAddr i) 96 0, .store (slotAddr i) 8 id] m) :=
    hL.of_writes fun x hx => by
      simp only [writes_cons, not_writes_nil, Event.Touches, or_false] at hx
      omega
  have hcap : (replay [.fill (slotAddr i) 96 0, .store (slotAddr i) 8 id,
      .store (slotAddr i + 56) 8 (b.off + 56)] m).load (G.base + b.off + 32) 8 = b.cap := by
    rw [load_replay fun x hx => .inl (by
      simp only [writes_cons, not_writes_nil, Event.Touches, or_false] at hx
      omega)]
    exact hB.cap
  refine .emit_bind (.emit_bind ((exec_poffOfBlk hL' hb).bind_nil (.emit_bind
    (Exec.load_bind hcap (by simp; omega) ?_))))
  exact .emit_bind (.emit_bind (.emit_bind (.emit_bind (.emit_bind .emit))))

theorem exec_publishObject {o i id : Nat} (hi : i < G.dirCap)
    (hoff : (entryAt m i).off = o + 56) :
    Exec G.size (publishObject (slotAddr i) id) m .ok [.persist (slotAddr i) 96, .persist 112 8,
      .drain, .out 0 id, .out 1 (o + 56), .unlock] := by
  refine .emit_bind (.emit_bind (.emit_bind (.emit_bind
    (Exec.load_bind (v := o + 56) hoff (slot_field_le hi (by decide)) ?_))))
  exact .emit_bind (exec_unlockReturn _)

theorem exec_fillObject (hL : LayoutOk G m) {c : Blk} {i : Nat} {q : Request} {id : Nat}
    (h : HeapInv G m (pre ++ c :: post)) (hi : i < G.dirCap)
    (hid : nextIdOf m = id) (hq : q.size < 2 ^ 64) :
    Exec G.size (fillObject (slotAddr i) (G.base + c.off) q.size q.name q.userId q.perms q.typeTag)
      m .ok (bindEvents G c.off c.cap i id q ++ answerEvents c.off i id q.name) := by
  have hcm : c ∈ pre ++ c :: post := by simp
  have hcb := h.bounds hcm
  have hcap := (h.wf c hcm).cap_le
  have hD := G.base_ge
  have hsz := G.size_eq
  have hlt := G.size_lt
  have hidlt : id < 2 ^ 64 := hid ▸ nextIdOf_lt m
  -- the header once it has its identity, and once the payload is zeroed
  have hB1 : BlkAt G (replay (identEvents (G.base + c.off) id q) m) (c.named id q) :=
    blkAt_identEvents (h.blk c hcm) hidlt
  have hB2 : BlkAt G (replay (zeroEvents (G.base + c.off) c.cap)
      (replay (identEvents (G.base + c.off) id q) m)) (c.named id q) :=
    hB1.congr fun x h1 h2 => replay_of_not_writes (fun hw => by
      have := writes_zeroEvents hw
      have : (c.named id q).off = c.off := rfl
      omega) _
  have hL2 : LayoutOk G (replay (zeroEvents (G.base + c.off) c.cap)
      (replay (identEvents (G.base + c.off) id q) m)) := by
    refine LayoutOk.of_writes (hL.of_writes fun x hx => ?_) fun x hx => ?_
    · have := writes_identEvents hx
      omega
    · have := writes_zeroEvents hx
      omega
  -- the entry once the slot is filled and named
  have hE := entryAt_slotEvents (m := replay (zeroEvents (G.base + c.off) c.cap)
    (replay (identEvents (G.base + c.off) id q) m)) (i := i) hidlt
    (show c.off + 56 < 2 ^ 64 by omega) (show c.cap < 2 ^ 64 by omega) hq
  have hE' := entryAt_of_name_writes (m := replay (slotEvents (slotAddr i) id (c.off + 56) c.cap q)
    (replay (zeroEvents (G.base + c.off) c.cap) (replay (identEvents (G.base + c.off) id q) m)))
    (W := nameEvents (slotAddr i) q.name) (i := i) (fun x hx => by
      have := writes_nameEvents hx
      omega) i
  rw [fillObject]
  refine Exec.congr (Exec.load_bind hid (by simp; omega) (.emit_bind (Exec.seq exec_identifyBlock
    (Exec.seq (exec_zeroPayload (b := c.named id q) hB1 (show c.off + 56 ≤ G.heapSize by omega))
      (Exec.seq
        (exec_fillSlot (b := c.named id q) hL2 hB2 (show c.off + 56 ≤ G.heapSize by omega) hi)
        (Exec.seq (exec_storeName (slotAddr i) q.name)
          (exec_publishObject (o := c.off) hi ?_))))))) ?_
  · exact (congrArg Entry.off (hE'.trans hE))
  · simp only [bindEvents, answerEvents, identEvents, List.cons_append, List.nil_append,
      List.append_assoc]
    rfl

/-- **`shm_alloc` under the lock** fails without an effect when the directory is full or no block
fits, and takes the first slot and the first block otherwise. -/
theorem exec_allocLocked (h : Inv G m bs) {q : Request} (hq : q.size ≠ 0)
    (hq' : q.size ≤ 2 ^ 64 - 64) :
    ((∀ j, j < G.dirCap → (entryAt m j).Live) ∧
        Exec G.size (allocLocked q.size q.name q.userId q.perms q.typeTag) m .enospc [.unlock]) ∨
      ((∃ j, j < G.dirCap ∧ ¬ (entryAt m j).Live) ∧
        (∀ c ∈ bs, c.live = false → c.total < blockSize q.size) ∧
        Exec G.size (allocLocked q.size q.name q.userId q.perms q.typeTag) m .enomem [.unlock]) ∨
      ∃ pre b post i, bs = pre ++ b :: post ∧ Takes G m pre b i q ∧
        Exec G.size (allocLocked q.size q.name q.userId q.perms q.typeTag) m .ok
          (allocEvents G pre b post i (nextIdOf m) q) := by
  have hD := G.base_ge
  have h64 := blockSize_ge hq
  have h8 := blockSize_mod q.size
  rcases exec_dirFindFreeSlot h.layout with ⟨h1, h2⟩ | ⟨i, hi, hfree, hfirst, h2⟩
  · exact .inl ⟨h1, h2.bind_nil (exec_unlockReturn _)⟩
  · rw [allocLocked, blockSize_eq hq']
    rcases exec_heapAllocBlock h.layout h.heap.toRep h64 h8 h.used h.count h.heap.room
      h.heap.count_lt with
      ⟨h3, h4⟩ | ⟨pre, b, post, rfl, hb, hfit, hpre, h4⟩
    · exact .inr (.inl ⟨⟨i, hi, hfree⟩, h3, h2.bind_nil (h4.bind_nil (exec_unlockReturn _))⟩)
    · refine .inr (.inr ⟨pre, b, post, i, rfl, ⟨hi, hfree, hfirst, hb, hfit, hpre, hq, hq'⟩, ?_⟩)
      have htake := h.heap.take (liveBytes (pre ++ b :: post))
        (liveBlks (pre ++ b :: post)).length hb h64 h8 hfit
      have hkeep : ∀ x, Writes (takeEvents G pre b post (blockSize q.size)
          (liveBytes (pre ++ b :: post)) (liveBlks (pre ++ b :: post)).length) x →
          88 ≤ x ∧ (x < 112 ∨ G.base ≤ x) := fun x hx => takeEvents_above h64 hfit hb hx
      have hL := h.layout.of_writes fun x hx => (hkeep x hx).1
      have hfill := exec_fillObject hL (i := i) (q := q)
        (c := taken b (blockSize q.size)) htake hi
        (load_replay fun x hx => by have := hkeep x hx; omega :
          nextIdOf _ = nextIdOf m) (by omega)
      rw [taken_off] at hfill
      exact h2.bind_nil (h4.bind hfill)

theorem exec_shmAlloc (h : Inv G m bs) (r : Region) {q : Request} (hq : q.size ≠ 0)
    (hq' : q.size ≤ 2 ^ 64 - 64) :
    (∃ rc, rc ≠ .ok ∧
        Exec G.size (shmAlloc (some r) q.size q.name q.userId q.perms q.typeTag true true) m rc
          (lockEvents r ++ [.unlock])) ∨
      ∃ pre b post i, bs = pre ++ b :: post ∧ Takes G m pre b i q ∧
        Exec G.size (shmAlloc (some r) q.size q.name q.userId q.perms q.typeTag true true) m .ok
          (lockEvents r ++ allocEvents G pre b post i (nextIdOf m) q) := by
  rw [shmAlloc, if_neg (by simp [hq])]
  rcases exec_allocLocked h hq hq' with ⟨-, h1⟩ | ⟨-, -, h1⟩ | ⟨pre, b, post, i, rfl, ht, h1⟩
  · exact .inl ⟨.enospc, by decide, exec_locked r h1⟩
  · exact .inl ⟨.enomem, by decide, exec_locked r h1⟩
  · exact .inr ⟨pre, b, post, i, rfl, ht, exec_locked r h1⟩

/-- The memory after a successful `shm_alloc`. -/
theorem replay_allocEvents (pre : List Blk) (b : Blk) (post : List Blk) (i : Nat) (q : Request)
    (m : Mem) :
    replay (allocEvents G pre b post i (nextIdOf m) q) m
      = replay (answerEvents b.off i (nextIdOf m) q.name) (boundMem G pre b post i q m) := by
  rw [allocEvents, ← List.append_assoc, replay_append]

section

variable {b : Blk} {i : Nat} {q : Request}

/-- **A successful `shm_alloc` keeps the region invariant.** -/
theorem Inv.alloc (h : Inv G m (pre ++ b :: post)) (ht : Takes G m pre b i q) :
    Inv G (replay (allocEvents G pre b post i (nextIdOf m) q) m)
      (allocBlks pre b post (nextIdOf m) q) := by
  rw [replay_allocEvents]
  exact (h.bound ht).of_name_writes ht.slot_lt fun x => writes_answerEvents_name

theorem FullInv.alloc (h : FullInv G m (pre ++ b :: post)) (ht : Takes G m pre b i q)
    (hnext : nextIdOf m + 1 < 2 ^ 64) :
    FullInv G (replay (allocEvents G pre b post i (nextIdOf m) q) m)
      (allocBlks pre b post (nextIdOf m) q) := by
  rw [replay_allocEvents]
  exact (h.bound ht hnext).of_name_writes ht.slot_lt fun x => writes_answerEvents_name

/-- What a successful `shm_alloc` tells its caller. -/
theorem lastOut_allocEvents (r : Region) (id : Nat) :
    lastOut 0 (lockEvents r ++ allocEvents G pre b post i id q) = some id ∧
      lastOut 1 (lockEvents r ++ allocEvents G pre b post i id q) = some (b.off + 56) := by
  rw [allocEvents, answerEvents, lastOut, lastOut]
  constructor <;> simp

/-- **What `shm_alloc` writes**: the mutable part of the region header, the slot, and free
blocks. -/
theorem writes_allocEvents (h : Inv G m (pre ++ b :: post)) (ht : Takes G m pre b i q) {x : Nat}
    (hx : Writes (allocEvents G pre b post i (nextIdOf m) q) x) :
    88 ≤ x ∧ x < 120 ∨ InSlot i x ∨ FreeListByte G (pre ++ b :: post) x ∨ InBlk G b x := by
  rw [allocEvents, ← List.append_assoc] at hx
  rcases writes_append.1 hx with hx | hx
  · exact boundMem_writes h ht hx
  · exact .inr (.inl (writes_answerEvents hx))

/-- The entry of the new object. -/
theorem entryAt_alloc (h : Inv G m (pre ++ b :: post)) (ht : Takes G m pre b i q) :
    entryAt (replay (allocEvents G pre b post i (nextIdOf m) q) m) i
      = newEntry b.off (taken b (blockSize q.size)).cap (nextIdOf m) q := by
  rw [replay_allocEvents, entryAt_of_name_writes fun x hx => writes_answerEvents_name hx]
  exact boundMem_entry h ht

theorem entryAt_alloc_other (h : Inv G m (pre ++ b :: post)) (ht : Takes G m pre b i q) {j : Nat}
    (hj : j < G.dirCap) (hji : j ≠ i) :
    entryAt (replay (allocEvents G pre b post i (nextIdOf m) q) m) j = entryAt m j := by
  rw [replay_allocEvents, entryAt_of_name_writes fun x hx => writes_answerEvents_name hx]
  exact boundMem_entry_other h ht hj hji

theorem nextIdOf_alloc (ht : Takes G m pre b i q) :
    nextIdOf (replay (allocEvents G pre b post i (nextIdOf m) q) m) = add64 (nextIdOf m) 1 := by
  have hs := slotAddr_ge i
  rw [replay_allocEvents, nextIdOf, load_replay fun x hx => .inr (by
    have := (writes_answerEvents hx).1
    omega)]
  exact boundMem_nextId ht

end

end ShmAlloc
