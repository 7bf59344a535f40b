import ShmAlloc.RegionInit
import ShmAlloc.Region.Perms

/-!
# A freshly initialised region

`region_init` leaves an empty directory and a heap of one free block.

## What is here

* `initEvents`: everything `region_init` does on a region that has room for its directory and a
  block.
* `fullInv_init`: **a freshly initialised region satisfies the invariant**, whatever the bytes it
  was made from.
* `createEvents` and `exec_regionInit_of_lt`: what `region_init` does for every size and number of
  slots, since the code does not compare the two.
* `exec_regionInit`: on a region with room it does `initEvents`.
-/

set_option autoImplicit false

namespace ShmAlloc

open Tiling Links

variable {G : Geometry} {m : Mem}

/-- `data_off` does not wrap. -/
theorem dataOff_of_lt {dirCap : Nat} (h : dirCap < 2 ^ 32) :
    dataOff dirCap = 200 + 96 * dirCap := by
  have h6 : objEntrySize * dirCap % 2 ^ 64 = 96 * dirCap :=
    Nat.mod_eq_of_lt (by rw [objEntrySize]; omega)
  rw [dataOff, h6, regionHdrSize, HEAP_ALIGN, shmAlignUp_eight (by omega),
    shmAlignUp_eight (by omega), add64_eq (by omega)]
  omega

/-! ## The effects

The code computes the size of the heap as a difference of 64-bit numbers.  If it is negative, the
block of `initialEvents` has nearly 2^64 bytes and lies behind the region. -/

/-- The region is cleared and its header written, up to the name. -/
def headerEvents (G : Geometry) (backend nsInode cgroupHash : Nat) : List Event :=
  [.fill 0 G.size 0, .store 0 4 SHM_ALLOC_MAGIC_REGION, .store 4 4 SHM_ALLOC_VERSION,
    .store 8 4 backend, .store 12 4 G.dirCap, .store 64 8 G.size, .store 72 8 200,
    .store 80 8 G.base, .store 96 8 0, .store 104 8 0, .store 112 8 1, .store 56 4 0,
    .store 120 8 nsInode, .store 128 8 cgroupHash]

/-- The name of the region is stored, if there is one. -/
def regionNameEvents : Option CStr → List Event
  | none => []
  | some s => [.put 136 (strncpyBytes s.1 63)]

/-- The heap becomes one free block. -/
def firstBlockEvents (G : Geometry) : List Event :=
  freshEvents G.base G.heapSize 0 ++ [.store 88 8 1]

/-- Everything `region_init` does. -/
def initEvents (G : Geometry) (backend nsInode cgroupHash : Nat) (name : Option CStr) :
    List Event :=
  headerEvents G backend nsInode cgroupHash ++ (regionNameEvents name ++
    (.lockInit :: (firstBlockEvents G ++ [.persist 0 (G.base + 56), .drain])))

/-- The header of the initial block, for a heap of `t` bytes as `region_init` computes it. -/
def initialEvents (p t : Nat) : List Event :=
  [.store p 4 SHM_ALLOC_MAGIC_BLOCK, .store (p + 4) 4 0, .store (p + 8) 4 0, .store (p + 12) 4 0,
    .store (p + 16) 1 0, .store (p + 24) 8 0, .store (p + 32) 8 (sub64 t 56), .store (p + 40) 8 t,
    .store (p + 48) 8 0, .store 88 8 1]

/-- The region is cleared and its header written, whether or not the directory fits. -/
def createHeader (size dirCap backend nsInode cgroupHash : Nat) : List Event :=
  [.fill 0 size 0, .store 0 4 SHM_ALLOC_MAGIC_REGION, .store 4 4 SHM_ALLOC_VERSION,
    .store 8 4 backend, .store 12 4 dirCap, .store 64 8 size, .store 72 8 200,
    .store 80 8 (200 + 96 * dirCap), .store 96 8 0, .store 104 8 0, .store 112 8 1, .store 56 4 0,
    .store 120 8 nsInode, .store 128 8 cgroupHash]

/-- Everything `region_init` does, whether or not the directory fits in the region. -/
def createEvents (size dirCap backend nsInode cgroupHash : Nat) (name : Option CStr) :
    List Event :=
  createHeader size dirCap backend nsInode cgroupHash ++ (regionNameEvents name ++
    (.lockInit :: (initialEvents (200 + 96 * dirCap) (sub64 size (200 + 96 * dirCap)) ++
      [.persist 0 (256 + 96 * dirCap), .drain])))

theorem writes_regionNameEvents {name : Option CStr} {x : Nat}
    (h : Writes (regionNameEvents name) x) : 136 ≤ x ∧ x < 199 := by
  cases name with
  | none => simp [regionNameEvents] at h
  | some s =>
    simp only [regionNameEvents, writes_cons, not_writes_nil, Event.Touches, strncpyBytes_length,
      or_false] at h
    omega

theorem writes_firstBlockEvents {x : Nat} (h : Writes (firstBlockEvents G) x) :
    88 ≤ x ∧ x < 96 ∨ G.base ≤ x ∧ x < G.base + 56 := by
  rcases writes_append.1 h with h | h
  · exact .inr (writes_freshEvents h)
  · simp only [writes_cons, not_writes_nil, Event.Touches, or_false] at h
    exact .inl h

section

variable {backend nsInode cgroupHash : Nat} {name : Option CStr}

/-- Header fields the later stages do not touch. -/
theorem load_init {a n : Nat} (ha : a + n ≤ 88 ∨ 96 ≤ a ∧ a + n ≤ 136) (m : Mem) :
    (replay (initEvents G backend nsInode cgroupHash name) m).load a n
      = (replay (headerEvents G backend nsInode cgroupHash) m).load a n := by
  have hD := G.base_ge
  rw [initEvents, replay_append, load_replay fun x hx => ?_]
  rcases writes_append.1 hx with hx | hx
  · have := writes_regionNameEvents hx
    omega
  · simp only [writes_cons, writes_append, not_writes_nil, Event.Touches, or_false, false_or] at hx
    rcases writes_firstBlockEvents hx with hx | hx <;> omega

theorem layout_init (m : Mem) :
    LayoutOk G (replay (initEvents G backend nsInode cgroupHash name) m) := by
  have h1 : G.dirCap % 256 ^ 4 = G.dirCap := Nat.mod_eq_of_lt G.dirCap_lt
  have h2 : G.size % 256 ^ 8 = G.size := Nat.mod_eq_of_lt G.size_lt
  have h3 : G.base % 256 ^ 8 = G.base := Nat.mod_eq_of_lt G.base_lt
  have h4 : 200 % 256 ^ 8 = 200 := rfl
  refine ⟨?_, ?_, ?_, ?_⟩ <;> rw [load_init (by omega)] <;>
    simp only [headerEvents, replay_cons, replay_nil, Event.act] <;>
    simp (disch := omega) only [Mem.load_store_same, Mem.load_store_of_disjoint, h1, h2, h3, h4]

theorem counters_init (m : Mem) :
    (replay (initEvents G backend nsInode cgroupHash name) m).load 96 8 = 0 ∧
      (replay (initEvents G backend nsInode cgroupHash name) m).load 104 8 = 0 ∧
      nextIdOf (replay (initEvents G backend nsInode cgroupHash name) m) = 1 := by
  have h1 : 1 % 256 ^ 8 = 1 := rfl
  rw [nextIdOf]
  refine ⟨?_, ?_, ?_⟩ <;> rw [load_init (by omega)] <;>
    simp only [headerEvents, replay_cons, replay_nil, Event.act] <;>
    simp (disch := omega) only [Mem.load_store_same, Mem.load_store_of_disjoint, Nat.zero_mod, h1]

theorem entryAt_init {i : Nat} (hi : i < G.dirCap) (m : Mem) :
    (entryAt (replay (initEvents G backend nsInode cgroupHash name) m) i).alive = false := by
  have hs := G.slotAddr_lt hi
  have hs' := slotAddr_ge i
  have hsz := G.size_eq
  have h0 : (replay (initEvents G backend nsInode cgroupHash name) m).load (slotAddr i + 92) 1
      = 0 := by
    rw [initEvents, headerEvents, List.cons_append, replay_cons, load_replay fun x hx => ?_]
    · exact Mem.load_fill_zero (by omega) (by omega)
    · rcases writes_append.1 hx with hx | hx
      · simp only [writes_cons, not_writes_nil, Event.Touches, or_false] at hx
        omega
      · rcases writes_append.1 hx with hx | hx
        · have := writes_regionNameEvents hx
          omega
        · simp only [writes_cons, writes_append, not_writes_nil, Event.Touches, or_false,
            false_or] at hx
          rcases writes_firstBlockEvents hx with hx | hx <;> omega
  rw [entryAt, h0]
  rfl

/-- The heap of a fresh region. -/
theorem heap_init (m : Mem) :
    HeapInv G (replay (initEvents G backend nsInode cgroupHash name) m)
      [Blk.fresh 0 G.heapSize] := by
  have hD := G.base_ge
  have hsz := G.size_eq
  have hlt := G.size_lt
  have hge := G.heap_ge
  have hrep : ∀ m' : Mem, Listed G (replay (firstBlockEvents G) m') [Blk.fresh 0 G.heapSize] :=
    fun m' => by
      have hB : BlkAt G (replay (freshEvents G.base G.heapSize 0) m') (Blk.fresh 0 G.heapSize) :=
        blkAt_freshEvents (G := G) (o := 0) (by omega) 0
      refine ⟨⟨rfl, Nat.zero_add _⟩, ?_, ?_, ?_, ?_⟩
      · simpa using Blk.fresh_wf (o := 0) rfl hge
      · simp only [List.mem_singleton, forall_eq, firstBlockEvents, replay_append]
        refine hB.congr fun x h1 h2 => replay_of_not_writes (fun hw => ?_) _
        simp only [writes_cons, not_writes_nil, Event.Touches, or_false] at hw
        omega
      · have hhead : (replay (firstBlockEvents G) m').load 88 8 = 1 := by
          simp only [firstBlockEvents, replay_append, replay_cons, replay_nil, Event.act]
          exact Mem.load_store_same ..
        have hnext : nextAt G (replay (firstBlockEvents G) m') 0 = 0 := by
          simp only [firstBlockEvents, freshEvents, replay_append, replay_cons, replay_nil,
            Event.act, nextAt]
          rw [Mem.load_store_of_disjoint (by omega), Mem.load_store_same, Nat.zero_mod]
        exact ⟨hhead, hnext⟩
      · intro o ho
        exact ⟨Blk.fresh 0 G.heapSize, by simp, by simpa [freeOffs, freeBlks, eq_comm] using ho⟩
  refine ⟨?_, coalesced_singleton _⟩
  rw [initEvents, replay_append, replay_append, replay_cons, replay_append]
  exact hrep _

/-- **A freshly initialised region satisfies the invariant.** -/
theorem fullInv_init (m : Mem) :
    FullInv G (replay (initEvents G backend nsInode cgroupHash name) m)
      [Blk.fresh 0 G.heapSize] := by
  have hcounters : _ ∧ _ ∧ nextIdOf (replay (initEvents G backend nsInode cgroupHash name) m) = 1 :=
    counters_init m
  obtain ⟨h1, h2, h3⟩ := hcounters
  have hdead : ∀ i, i < G.dirCap →
      ¬ (entryAt (replay (initEvents G backend nsInode cgroupHash name) m) i).alive = true :=
    fun i hi ha => by
      rw [entryAt_init hi] at ha
      exact Bool.noConfusion ha
  refine ⟨⟨layout_init m, heap_init m, h1, h2, ⟨fun i hi ha => absurd ha (hdead i hi),
    fun i j hi _ ha => absurd ha (hdead i hi)⟩⟩, ⟨by rw [h3]; exact Nat.one_pos,
    fun i hi ha => absurd ha (hdead i hi), fun i hi ha => absurd ha (hdead i hi),
    fun i j hi _ ha => absurd ha (hdead i hi), fun b hb hl => ?_⟩⟩
  rw [List.mem_singleton.1 hb] at hl
  exact Bool.noConfusion hl

/-- **What `region_init` does**, for every size and directory. -/
theorem exec_regionInit_of_lt {size dirCap : Nat} (hd : dirCap < 2 ^ 32) (m : Mem)
    (backend nsInode cgroupHash : Nat) (name : Option CStr) :
    Exec 200 (regionInit size backend dirCap name nsInode cgroupHash) m ()
      (createEvents size dirCap backend nsInode cgroupHash name) := by
  have hname : ∀ m' : Mem, Exec 200 (storeRegionName name) m' () (regionNameEvents name) :=
    fun m' => by
      cases name with
      | none => exact .pure _
      | some s => exact .emit
  have hheap : ∀ m' : Mem, m'.load 80 8 = 200 + 96 * dirCap →
      Exec 200 (initHeap (sub64 size (200 + 96 * dirCap))) m' ()
        (initialEvents (200 + 96 * dirCap) (sub64 size (200 + 96 * dirCap))) := fun m' hm => by
    have hblk : Exec 200 (shmBlkAtHoff 0) m' (200 + 96 * dirCap) [] :=
      Exec.load_bind hm (by simp) (by
        rw [add64_eq (by omega)]
        exact .pure _)
    rw [initHeap, blockHdrSize]
    exact hblk.bind_nil (.emit_bind (.emit_bind (.emit_bind (.emit_bind (.emit_bind
      (.emit_bind (.emit_bind (.emit_bind (.emit_bind .emit)))))))))
  rw [regionInit, dataOff_of_lt hd, add64_eq (by rw [blockHdrSize]; omega),
    show shmAlignUp regionHdrSize HEAP_ALIGN = 200 from shmAlignUp_eight (by decide)]
  refine Exec.congr (.emit_bind (.emit_bind (.emit_bind (.emit_bind (.emit_bind (.emit_bind
    (.emit_bind (.emit_bind (.emit_bind (.emit_bind (.emit_bind (.emit_bind (.emit_bind (.emit_bind
      (Exec.seq (hname _) (.emit_bind (Exec.seq (hheap _ ?_)
        (.emit_bind .emit))))))))))))))))))  ?_
  · show (replay (regionNameEvents name) (replay (createHeader size dirCap backend nsInode
      cgroupHash) m)).load 80 8 = _
    have h3 : (200 + 96 * dirCap) % 256 ^ 8 = 200 + 96 * dirCap := Nat.mod_eq_of_lt (by omega)
    rw [load_replay fun x hx => by have := writes_regionNameEvents hx; omega]
    simp only [createHeader, replay_cons, replay_nil, Event.act]
    simp (disch := omega) only [Mem.load_store_same, Mem.load_store_of_disjoint, h3]
  · rw [createEvents, createHeader, show 200 + 96 * dirCap + blockHdrSize = 256 + 96 * dirCap by
      rw [blockHdrSize]; omega]
    simp only [List.cons_append, List.nil_append]
    rfl

/-- **`region_init` does just that.** -/
theorem exec_regionInit (G : Geometry) (m : Mem) (backend nsInode cgroupHash : Nat)
    (name : Option CStr) :
    Exec G.size (regionInit G.size backend G.dirCap name nsInode cgroupHash) m ()
      (initEvents G backend nsInode cgroupHash name) := by
  have hD := G.base_ge
  have hsz := G.size_eq
  have hge := G.heap_ge
  have hlt := G.size_lt
  have hheap : sub64 G.size G.base = G.heapSize := by
    rw [sub64_eq (by omega) hlt]
    omega
  have hcap : sub64 G.heapSize 56 = G.heapSize - 56 := sub64_eq (by omega) (by omega)
  have hx : Exec 200 (regionInit G.size backend G.dirCap name nsInode cgroupHash) m ()
      (createEvents G.size G.dirCap backend nsInode cgroupHash name) :=
    exec_regionInit_of_lt G.dirCap_lt m backend nsInode cgroupHash name
  refine (hx.mono (by omega)).congr ?_
  have hbase : 200 + 96 * G.dirCap = G.base := rfl
  have hpersist : 256 + 96 * G.dirCap = G.base + 56 := by omega
  rw [createEvents, createHeader, hpersist, hbase, hheap, initialEvents, hcap]
  rfl

end

end ShmAlloc
