import ShmAlloc.Region.ResizeRun

/-!
# `shm_block_set_perms`

The permissions of an object are stored in its block and in its entry.  The call is given the
offset of the block, and finds the entry by the id in the block's header.

## What is here

* `setPermsEvents`: everything the call does under the lock, to the header and to the entry.
* `Inv.setPerms` and `FullInv.setPerms`: **it keeps the region invariant**, and the permissions
  mirrored.
* `exec_shmBlockSetPerms`: at the offset of a live object it either fails without an effect but on
  the lock, or sets the permissions in both places.

Where ids are not unique the entry found may be another object's; that is why the first lemma does
not speak of permissions, and the second is about `FullInv`.
-/

set_option autoImplicit false

namespace ShmAlloc

open Tiling Links

variable {G : Geometry} {m m' : Mem} {bs pre post : List Blk}

/-- Everything `shm_block_set_perms` does under the lock with the block `b` and slot `j`. -/
def setPermsEvents (G : Geometry) (b : Blk) (j : Nat) (p : UInt32) : List Event :=
  [.store (G.base + b.off + 12) 4 p.toNat, .persist (G.base + b.off) 56,
    .store (slotAddr j + 88) 4 p.toNat, .persist (slotAddr j) 96, .drain, .unlock]

/-- The block with its new permissions. -/
def Blk.permitted (b : Blk) (p : UInt32) : Blk := { b with perms := p.toNat }

theorem writes_setPermsEvents {b : Blk} {j x : Nat} {p : UInt32}
    (h : Writes (setPermsEvents G b j p) x) :
    G.base + b.off + 12 ≤ x ∧ x < G.base + b.off + 16 ∨
      slotAddr j + 88 ≤ x ∧ x < slotAddr j + 92 := by
  simp only [setPermsEvents, writes_cons, not_writes_nil, Event.Touches, or_false, false_or] at h
  omega

section

variable {b : Blk} {i j : Nat} {p : UInt32}

theorem setPerms_entry_other {k : Nat} (hk : k < G.dirCap) (hkj : k ≠ j) :
    entryAt (replay (setPermsEvents G b j p) m) k = entryAt m k :=
  entryAt_replay fun x hx hs => by
    have hb := hs.lt_base hk
    rcases writes_setPermsEvents hx with hx | hx
    · omega
    · exact hkj (hs.eq (j := j) ⟨by omega, by omega⟩)

theorem setPerms_entry_self (hj : j < G.dirCap) :
    entryAt (replay (setPermsEvents G b j p) m) j = { entryAt m j with perms := p.toNat } := by
  have hs := G.slotAddr_lt hj
  have h4 : p.toNat % 256 ^ 4 = p.toNat := Nat.mod_eq_of_lt p.toNat_lt
  simp only [setPermsEvents, replay_cons, replay_nil, Event.act, entryAt]
  simp (disch := omega) only [Mem.load_store_same, Mem.load_store_of_disjoint, h4]

theorem setPerms_heap (h : HeapInv G m (pre ++ b :: post)) (hb : b.live = true)
    (hj : j < G.dirCap) :
    HeapInv G (replay (setPermsEvents G b j p) m) (pre ++ b.permitted p :: post) := by
  have hbm : b ∈ pre ++ b :: post := by simp
  have hB := h.blk b hbm
  have hwf := h.wf b hbm
  have hmin := hwf.min
  have hs := G.slotAddr_lt hj
  have hs' := slotAddr_ge j
  have hoffs : freeOffs (pre ++ b.permitted p :: post) = freeOffs (pre ++ b :: post) := by
    rw [freeOffs_append, freeOffs_append, freeOffs_cons_live hb,
      freeOffs_cons_live (b := b.permitted p) hb]
  have h1 : Rep G (m.store (G.base + b.off + 12) 4 p.toNat) (pre ++ b.permitted p :: post)
      (freeOffs (pre ++ b :: post)) := by
    refine h.modify rfl rfl ⟨hwf.aligned, hwf.min, hwf.cap_le⟩ ?_ fun x hx => ?_
    · have h4 : p.toNat % 256 ^ 4 = p.toNat := Nat.mod_eq_of_lt p.toNat_lt
      refine .intro ?_ ?_ ?_ ?_ ?_ ?_ ?_ ?_ <;>
        simp (disch := omega) only [Blk.permitted, Mem.load_store_same,
          Mem.load_store_of_disjoint, h4]
      · exact hB.magic
      · exact hB.tag
      · exact hB.owner
      · exact hB.live
      · exact hB.id
      · exact hB.cap
      · exact hB.total
    · exact Mem.store_of_outside (by omega)
  have h2 := h1.of_header_writes (W := [.persist (G.base + b.off) 56,
    .store (slotAddr j + 88) 4 p.toNat, .persist (slotAddr j) 96, .drain, .unlock]) fun x hx => by
      simp only [writes_cons, not_writes_nil, Event.Touches, or_false, false_or] at hx
      omega
  refine ⟨?_, h.coalesced.mid_congr rfl⟩
  rw [hoffs]
  exact h2

/-- **`shm_block_set_perms` keeps the region invariant.** -/
theorem Inv.setPerms (h : Inv G m (pre ++ b :: post)) (hb : b.live = true) (hj : j < G.dirCap) :
    Inv G (replay (setPermsEvents G b j p) m) (pre ++ b.permitted p :: post) := by
  have hD := G.base_ge
  have hs' := slotAddr_ge j
  have hb' : (b.permitted p).live = true := hb
  have hswap := liveBytes_swap pre hb hb' (rfl : liveBlks post = liveBlks post)
  have htot : (b.permitted p).total = b.total := rfl
  have hlow : ∀ x, Writes (setPermsEvents G b j p) x → 200 ≤ x := fun x hx => by
    rcases writes_setPermsEvents hx with hx | hx <;> omega
  have hent : ∀ k, k < G.dirCap → (entryAt (replay (setPermsEvents G b j p) m) k).alive
        = (entryAt m k).alive ∧
      (entryAt (replay (setPermsEvents G b j p) m) k).off = (entryAt m k).off ∧
      ∀ c, Mirrors (entryAt m k) c → Mirrors (entryAt (replay (setPermsEvents G b j p) m) k) c :=
    fun k hk => by
      by_cases hkj : k = j
      · subst hkj
        rw [setPerms_entry_self hk]
        exact ⟨rfl, rfl, fun c hm => ⟨hm.off, hm.id, hm.owner, hm.tag, hm.cap, hm.used⟩⟩
      · rw [setPerms_entry_other hk hkj]
        exact ⟨rfl, rfl, fun c hm => hm⟩
  refine ⟨h.layout.of_writes fun x hx => ?_, setPerms_heap h.heap hb hj, ?_, ?_, ⟨fun k hk ha => ?_,
    fun k l hk hl ha hb' hoff => ?_⟩⟩
  · have := hlow x hx
    omega
  · rw [load_replay fun x hx => .inr (by have := hlow x hx; omega), h.used]
    omega
  · rw [load_replay fun x hx => .inr (by have := hlow x hx; omega), h.count, hswap.2]
  · obtain ⟨ha', -, hmk⟩ := hent k hk
    rw [ha'] at ha
    obtain ⟨c, hc, hl, hm⟩ := h.dir.entry k hk ha
    simp only [List.mem_append, List.mem_cons] at hc
    rcases hc with hc | rfl | hc
    · exact ⟨c, by simp [hc], hl, hmk c hm⟩
    · have := hmk c hm
      exact ⟨c.permitted p, by simp, hl, ⟨this.off, this.id, this.owner, this.tag, this.cap,
        this.used⟩⟩
    · exact ⟨c, by simp [hc], hl, hmk c hm⟩
  · rw [(hent k hk).1] at ha
    rw [(hent l hl).1] at hb'
    rw [(hent k hk).2.1, (hent l hl).2.1] at hoff
    exact h.dir.inj k l hk hl ha hb' hoff

/-- **`shm_block_set_perms` keeps ids in order, and the permissions mirrored.** -/
theorem FullInv.setPerms (h : FullInv G m (pre ++ b :: post)) (hh : Holds G m j b) :
    FullInv G (replay (setPermsEvents G b j p) m) (pre ++ b.permitted p :: post) := by
  have hD := G.base_ge
  have hs' := slotAddr_ge j
  have hnext : nextIdOf (replay (setPermsEvents G b j p) m) = nextIdOf m :=
    load_replay fun x hx => by
      rcases writes_setPermsEvents hx with hx | hx <;> omega
  refine ⟨h.toInv.setPerms hh.live hh.lt, ?_⟩
  rw [hnext]
  refine h.ids.update hh.lt (fun k hk hkj => setPerms_entry_other hk hkj) (Nat.le_refl _)
    (fun _ => ?_) fun c hc hl => ?_
  · rw [setPerms_entry_self hh.lt]
    exact ⟨h.ids.id_pos j hh.lt hh.alive, h.ids.id_lt j hh.lt hh.alive, fun k hk hkj ha hid =>
      hkj (h.ids.distinct k j hk hh.lt ha hh.alive hid)⟩
  · have hold : c ∈ pre ∨ c ∈ post → ∃ d ∈ pre ++ b :: post, d.live = true ∧ d.off = c.off ∧
        d.perms = c.perms ∧ ((entryAt m j).alive = true → (entryAt m j).off ≠ d.off + 56) :=
      fun hc => ⟨c, by rcases hc with hc | hc <;> simp [hc], hl, rfl, rfl, fun _ hoff => by
        have h1 := h.heap.off_ne_of_mem hc
        have h2 := hh.mirrors.off
        omega⟩
    simp only [List.mem_append, List.mem_cons] at hc
    rcases hc with hc | rfl | hc
    · exact .inr (hold (.inl hc))
    · rw [setPerms_entry_self hh.lt]
      exact .inl ⟨hh.alive, hh.mirrors.off, rfl⟩
    · exact .inr (hold (.inr hc))

/-! ## Running the code -/

theorem exec_setBlockPerms (h : Inv G m (pre ++ b :: post)) (hh : Holds G m i b) (p : UInt32) :
    ∃ j, Finds G m b.id j ∧
      Exec G.size (setBlockPerms p (G.base + b.off)) m .ok (setPermsEvents G b j p) := by
  have hbm : b ∈ pre ++ b :: post := by simp
  have hB := h.heap.blk b hbm
  have hbb := h.heap.bounds hbm
  have hsz := G.size_eq
  have hD := G.base_ge
  -- the entries are not touched by the store to the block
  have hent : ∀ k, k < G.dirCap →
      entryAt (m.store (G.base + b.off + 12) 4 p.toNat) k = entryAt m k := fun k hk =>
    entryAt_replay (W := [.store (G.base + b.off + 12) 4 p.toNat]) fun x hx hs => by
      have := hs.lt_base hk
      simp only [writes_cons, not_writes_nil, Event.Touches, or_false] at hx
      omega
  have hL := h.layout.of_writes (W := [.store (G.base + b.off + 12) 4 p.toNat]) fun x hx => by
    simp only [writes_cons, not_writes_nil, Event.Touches, or_false] at hx
    omega
  have hid : (m.store (G.base + b.off + 12) 4 p.toNat).load (G.base + b.off + 24) 8 = b.id := by
    rw [Mem.load_store_of_disjoint (by omega)]
    exact hB.id
  rcases exec_dirFindById hL b.id with ⟨h1, -⟩ | ⟨j, hj, ha, hjd, hfirst, hx⟩
  · refine absurd hh.mirrors.id ?_
    have := h1 i hh.lt
    rw [show entryAt (replay [.store (G.base + b.off + 12) 4 p.toNat] m) i = entryAt m i
      from hent i hh.lt] at this
    exact this hh.alive
  · have e : ∀ k, k < G.dirCap →
        entryAt (replay [.store (G.base + b.off + 12) 4 p.toNat] m) k = entryAt m k := hent
    rw [e j hj] at ha hjd
    refine ⟨j, ⟨hj, ha, hjd, fun k hk hka => ?_⟩, ?_⟩
    · have := hfirst k hk
      rw [e k (by omega)] at this
      exact this hka
    · refine .emit_bind (.emit_bind (Exec.load_bind hid (by simp; omega) (hx.bind_nil ?_)))
      exact Exec.seq (V := [.store (slotAddr j + 88) 4 p.toNat, .persist (slotAddr j) 96])
        (.emit_bind .emit) (.emit_bind (exec_unlockReturn _))

end

/-- **`shm_block_set_perms`** at the offset of a live object either fails without an effect but on
the lock, or sets the permissions in the block and in the first entry with its id. -/
theorem exec_shmBlockSetPerms {b : Blk} {i : Nat} (h : Inv G m (pre ++ b :: post))
    (hh : Holds G m i b) (r : Region) (userId callerPerms newPerms : UInt32) :
    (∃ rc, rc ≠ .ok ∧
        Exec G.size (shmBlockSetPerms (some r) (b.off + 56) userId callerPerms newPerms) m rc
          (lockEvents r ++ [.unlock])) ∨
      ∃ j, Finds G m b.id j ∧ b.access userId callerPerms SHM_PERM_WRITE = .ok ∧
        Exec G.size (shmBlockSetPerms (some r) (b.off + 56) userId callerPerms newPerms) m .ok
          (lockEvents r ++ setPermsEvents G b j newPerms) := by
  have hbm : b ∈ pre ++ b :: post := by simp
  have hB := h.heap.blk b hbm
  have hbb := h.heap.bounds hbm
  have hchk := exec_checkBlockAccess (r := r) hB (by omega) userId callerPerms SHM_PERM_WRITE
  have hoff := exec_blkOfPoff h.layout (o := b.off) (by omega)
  rw [shmBlockSetPerms]
  by_cases hacc : (if isNull r (G.base + b.off) then Rc.einval
      else b.access userId callerPerms SHM_PERM_WRITE) = .ok
  · obtain ⟨j, hf, hx⟩ := exec_setBlockPerms h hh newPerms
    refine .inr ⟨j, hf, ?_, exec_locked r (hoff.bind_nil (hchk.bind_nil ?_))⟩
    · split at hacc
      · exact Rc.noConfusion hacc
      · exact hacc
    · rw [if_pos hacc]
      exact hx
  · refine .inl ⟨_, hacc, exec_locked r (hoff.bind_nil (hchk.bind_nil ?_))⟩
    rw [if_neg hacc]
    exact exec_unlockReturn _

end ShmAlloc
