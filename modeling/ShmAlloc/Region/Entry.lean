import ShmAlloc.Api
import ShmAlloc.Heap.Rep

/-!
# Reading the directory off the memory

A directory slot as a record (`Entry`), what the linear scans find, and the two access checks as
functions of what they read.

## What is here

* `entryAt`: the scalar fields of a slot.  Its name is not among them, as the invariant does not
  speak of it.
* `Entry.Live`: the entry is in use, as the searches for an object see it.
* `Entry.access` and `Blk.access`: the return codes of `check_dir_access` and `check_block_access`.
  Both refuse what is not live, so access granted means there is an object (`Entry.live_of_access`,
  `Blk.live_of_access`).
* `exec_dirScan`: **what a scan finds**, the first slot that passes its test.  The scan of the code
  takes the test as a parameter, and `exec_dirFindById` and `exec_dirFindFreeSlot` are instances.
* `exec_countLiveFrom`: `dir_count_live` counts the entries whose `alive` byte is set.
-/

set_option autoImplicit false

namespace ShmAlloc

variable {G : Geometry} {m m' : Mem}

/-! ## Slots -/

/-- The scalar fields of a directory slot. -/
structure Entry where
  id : Nat
  off : Nat
  cap : Nat
  used : Nat
  tag : Nat
  owner : Nat
  perms : Nat
  alive : Bool
  deriving DecidableEq, Repr

/-- The entry in slot `i`. -/
def entryAt (m : Mem) (i : Nat) : Entry where
  id := m.load (slotAddr i) 8
  off := m.load (slotAddr i + 56) 8
  cap := m.load (slotAddr i + 64) 8
  used := m.load (slotAddr i + 72) 8
  tag := m.load (slotAddr i + 80) 4
  owner := m.load (slotAddr i + 84) 4
  perms := m.load (slotAddr i + 88) 4
  alive := m.load (slotAddr i + 92) 1 != 0

/-- The byte at `x` belongs to slot `i`. -/
def InSlot (i x : Nat) : Prop := slotAddr i ≤ x ∧ x < slotAddr i + 96

instance (i x : Nat) : Decidable (InSlot i x) := by
  unfold InSlot
  infer_instance

theorem InSlot.lt_base {i x : Nat} (h : InSlot i x) (hi : i < G.dirCap) :
    200 ≤ x ∧ x < G.base := by
  have h1 := G.slotAddr_lt hi
  have h2 := slotAddr_ge i
  obtain ⟨h3, h4⟩ := h
  omega

/-- Different slots share no byte. -/
theorem InSlot.eq {i j x : Nat} (hi : InSlot i x) (hj : InSlot j x) : i = j := by
  obtain ⟨h1, h2⟩ := hi
  obtain ⟨h3, h4⟩ := hj
  rw [slotAddr] at h1 h2 h3 h4
  omega

/-- Slot `i` is in use, as the searches for an object see it. -/
def Entry.Live (e : Entry) : Prop := e.alive = true ∧ e.id ≠ 0

instance (e : Entry) : Decidable e.Live := by
  unfold Entry.Live
  infer_instance

theorem entryAt_congr {i : Nat} (h : m.Agree m' (slotAddr i) (slotAddr i + 96)) :
    entryAt m' i = entryAt m i := by
  have l : ∀ k n, k + n ≤ 96 → m'.load (slotAddr i + k) n = m.load (slotAddr i + k) n :=
    fun k n hk => h.load (by omega) (by omega)
  have l0 : m'.load (slotAddr i) 8 = m.load (slotAddr i) 8 := h.load (by omega) (by omega)
  rw [entryAt, entryAt, l0, l 56 8 (by omega), l 64 8 (by omega),
    l 72 8 (by omega), l 80 4 (by omega), l 84 4 (by omega), l 88 4 (by omega), l 92 1 (by omega)]

/-- An entry no event touches stays what it is. -/
theorem entryAt_replay {i : Nat} {W : List Event} (h : ∀ x, Writes W x → ¬ InSlot i x) :
    entryAt (replay W m) i = entryAt m i :=
  entryAt_congr fun x h1 h2 => replay_of_not_writes (fun hw => h x hw ⟨h1, h2⟩) m

/-! ## Access checks -/

/-- What `check_dir_access` says about an entry. -/
def Entry.access (e : Entry) (caller callerPerms required : UInt32) : Rc :=
  if e.alive = false ∨ e.id = 0 then .enoent
  else checkOwner e.owner e.perms caller callerPerms required

/-- What `check_block_access` says about a block. -/
def Blk.access (b : Blk) (caller callerPerms required : UInt32) : Rc :=
  if b.live then checkOwner b.owner b.perms caller callerPerms required else .einval

theorem Entry.access_live {e : Entry} (h : e.Live) (caller callerPerms required : UInt32) :
    e.access caller callerPerms required = checkOwner e.owner e.perms caller callerPerms required :=
  if_neg (by
    rintro (h' | h')
    · rw [h.1] at h'
      exact Bool.noConfusion h'
    · exact h.2 h')

theorem Entry.live_of_access {e : Entry} {caller callerPerms required : UInt32}
    (h : e.access caller callerPerms required = .ok) : e.Live := by
  rw [access] at h
  split at h
  · exact Rc.noConfusion h
  · rename_i hn
    rw [not_or] at hn
    exact ⟨by simpa using hn.1, hn.2⟩

theorem Blk.live_of_access {b : Blk} {caller callerPerms required : UInt32}
    (h : b.access caller callerPerms required = .ok) : b.live = true := by
  rw [access] at h
  split at h
  · assumption
  · exact Rc.noConfusion h

section

variable {i : Nat}

theorem slot_field_le {k n : Nat} (hi : i < G.dirCap) (hk : k + n ≤ 96) :
    slotAddr i + k + n ≤ G.size := by
  have h1 := G.slotAddr_lt hi
  have h2 := G.size_eq
  omega

theorem exec_checkDirAccess (hi : i < G.dirCap) (caller callerPerms required : UInt32) :
    Exec G.size (checkDirAccess (slotAddr i) caller callerPerms required) m
      ((entryAt m i).access caller callerPerms required) [] := by
  rw [checkDirAccess, Entry.access]
  refine Exec.load_bind (v := m.load (slotAddr i + 92) 1) rfl (slot_field_le hi (by decide))
    (Exec.load_bind (v := m.load (slotAddr i) 8) rfl (slot_field_le hi (by decide)) ?_)
  by_cases h : m.load (slotAddr i + 92) 1 = 0 ∨ m.load (slotAddr i) 8 = 0
  · rw [if_pos h, if_pos (by simpa [entryAt] using h)]
    exact .pure _
  · rw [if_neg h, if_neg (by simpa [entryAt] using h)]
    exact Exec.load_bind rfl (slot_field_le hi (by decide))
      (Exec.load_bind rfl (slot_field_le hi (by decide)) (.pure _))

end

/-- `check_block_access` on a block of the heap.  A handle that maps less than the region can take
the block's address for the null pointer. -/
theorem exec_checkBlockAccess {r : Region} {b : Blk} (hB : BlkAt G m b)
    (hb : b.off + 56 ≤ G.heapSize) (caller callerPerms required : UInt32) :
    Exec G.size (checkBlockAccess r (G.base + b.off) caller callerPerms required) m
      (if isNull r (G.base + b.off) then .einval else b.access caller callerPerms required) [] := by
  have hsz := G.size_eq
  rw [checkBlockAccess]
  by_cases hnull : isNull r (G.base + b.off) = true
  · rw [if_pos hnull, if_pos hnull]
    exact .pure _
  · rw [if_neg hnull, if_neg hnull]
    refine Exec.load_bind hB.magic (by simp; omega) ?_
    rw [if_neg (not_not.2 rfl)]
    refine Exec.load_bind (v := m.load (G.base + b.off + 16) 1) rfl (by simp; omega) ?_
    rw [Blk.access]
    cases hl : b.live with
    | false =>
      rw [if_pos (hB.allocated_eq_zero.2 hl)]
      exact .pure _
    | true =>
      rw [if_neg fun h0 => Bool.noConfusion (hl.symm.trans (hB.allocated_eq_zero.1 h0))]
      exact Exec.load_bind hB.owner (by simp; omega)
        (Exec.load_bind hB.perms (by simp; omega) (.pure _))

/-- A handle that maps the whole region does not take a block for the null pointer. -/
theorem isNull_of_mapped {r : Region} {p : Nat} (h : p < r.size) : isNull r p = false := by
  have h1 := r.pos
  have h2 := r.fits
  rw [isNull, add64_eq (by omega)]
  simp
  omega

/-! ## Scans

A scan is a loop over slot numbers with fuel for the whole directory, so the induction is on the
number of slots left. -/

/-- **What a scan finds**: the first slot that passes the test. -/
theorem exec_dirScan (hL : LayoutOk G m) {test : Nat → Prog Bool} {p : Nat → Bool}
    (ht : ∀ i, i < G.dirCap → Exec G.size (test (slotAddr i)) m (p i) []) {n : Nat} :
    ∀ {i : Nat}, i + n = G.dirCap →
      (∀ j, i ≤ j → j < G.dirCap → p j = false) ∧ Exec G.size (dirScan test n i) m none [] ∨
      ∃ j, i ≤ j ∧ j < G.dirCap ∧ p j = true ∧ (∀ k, i ≤ k → k < j → p k = false) ∧
        Exec G.size (dirScan test n i) m (some (slotAddr j)) [] := by
  induction n with
  | zero =>
    intro i hi
    exact .inl ⟨fun j h1 h2 => by omega, .pure _⟩
  | succ n ih =>
    intro i hi
    have hlt : i < G.dirCap := by omega
    rw [dirScan]
    cases hp : p i with
    | true =>
      refine .inr ⟨i, Nat.le_refl _, hlt, hp, fun k h1 h2 => by omega, ?_⟩
      refine (exec_dirSlot hL hlt).bind_nil ((ht i hlt).bind_nil ?_)
      rw [hp, if_pos rfl]
      exact .pure _
    | false =>
      have hrest : ∀ {v : Option Nat}, Exec G.size (dirScan test n (i + 1)) m v [] →
          Exec G.size (shmDirSlot i >>= fun e => test e >>= fun found =>
            if found then return some e else dirScan test n (i + 1)) m v [] := fun hx => by
        refine (exec_dirSlot hL hlt).bind_nil ((ht i hlt).bind_nil ?_)
        rw [hp, if_neg Bool.false_ne_true]
        exact hx
      have hfirst : ∀ k, i ≤ k → ¬ i + 1 ≤ k → p k = false := fun k h1 h2 => by
        rw [show k = i by omega]
        exact hp
      rcases ih (i := i + 1) (by omega) with ⟨h1, h2⟩ | ⟨j, h1, h2, h3, h4, h5⟩
      · refine .inl ⟨fun j hj hj' => ?_, hrest h2⟩
        by_cases hij : i + 1 ≤ j
        · exact h1 j hij hj'
        · exact hfirst j hj hij
      · refine .inr ⟨j, by omega, h2, h3, fun k hk hk' => ?_, hrest h5⟩
        by_cases hik : i + 1 ≤ k
        · exact h4 k hik hk'
        · exact hfirst k hk hik

theorem exec_dirFind (hL : LayoutOk G m) (test : Nat → Prog Bool) {p : Nat → Bool}
    (ht : ∀ i, i < G.dirCap → Exec G.size (test (slotAddr i)) m (p i) []) :
    (∀ j, j < G.dirCap → p j = false) ∧ Exec G.size (dirFind test) m none [] ∨
      ∃ j, j < G.dirCap ∧ p j = true ∧ (∀ k, k < j → p k = false) ∧
        Exec G.size (dirFind test) m (some (slotAddr j)) [] := by
  have hD := G.base_ge
  have hsz := G.size_eq
  have hx : ∀ {v : Option Nat}, Exec G.size (dirScan test G.dirCap 0) m v [] →
      Exec G.size (dirFind test) m v [] := fun hx =>
    Exec.load_bind hL.dirCapacity (by simp; omega) hx
  rcases exec_dirScan hL ht (i := 0) (Nat.zero_add _) with ⟨h1, h2⟩ | ⟨j, -, h2, h3, h4, h5⟩
  · exact .inl ⟨fun j hj => h1 j (Nat.zero_le _) hj, hx h2⟩
  · exact .inr ⟨j, h2, h3, fun k hk => h4 k (Nat.zero_le _) hk, hx h5⟩

/-- **`dir_find_by_id`** finds the first live entry with the id, dead slots aside. -/
theorem exec_dirFindById (hL : LayoutOk G m) (objId : Nat) :
    (∀ j, j < G.dirCap → (entryAt m j).alive = true → (entryAt m j).id ≠ objId) ∧
        Exec G.size (dirFindById objId) m none [] ∨
      ∃ j, j < G.dirCap ∧ (entryAt m j).alive = true ∧ (entryAt m j).id = objId ∧
        (∀ k, k < j → (entryAt m k).alive = true → (entryAt m k).id ≠ objId) ∧
        Exec G.size (dirFindById objId) m (some (slotAddr j)) [] := by
  have h := exec_dirFind hL (hasId objId)
    (p := fun i => (entryAt m i).id == objId && (entryAt m i).alive) fun i hi =>
      Exec.load_bind rfl (slot_field_le hi (by decide))
        (Exec.load_bind rfl (slot_field_le hi (by decide)) (.pure _))
  rcases h with ⟨h1, h2⟩ | ⟨j, h1, h2, h3, h4⟩
  · refine .inl ⟨fun j hj ha hid => ?_, h2⟩
    have := h1 j hj
    simp [ha, hid] at this
  · have h2' : (entryAt m j).id = objId ∧ (entryAt m j).alive = true := by simpa using h2
    refine .inr ⟨j, h1, h2'.2, h2'.1, fun k hk ha hid => ?_, h4⟩
    have := h3 k hk
    simp [ha, hid] at this

/-- **`dir_find_free_slot`** finds the first slot that holds no live entry. -/
theorem exec_dirFindFreeSlot (hL : LayoutOk G m) :
    (∀ j, j < G.dirCap → (entryAt m j).Live) ∧ Exec G.size dirFindFreeSlot m none [] ∨
      ∃ j, j < G.dirCap ∧ ¬ (entryAt m j).Live ∧ (∀ k, k < j → (entryAt m k).Live) ∧
        Exec G.size dirFindFreeSlot m (some (slotAddr j)) [] := by
  have h := exec_dirFind hL isFreeSlot (p := fun i => !decide (entryAt m i).Live)
    fun i hi => by
      refine Exec.load_bind (v := m.load (slotAddr i) 8) rfl (slot_field_le hi (by decide))
        (Exec.load_bind (v := m.load (slotAddr i + 92) 1) rfl (slot_field_le hi (by decide)) ?_)
      have : (!decide (entryAt m i).Live) =
          (m.load (slotAddr i) 8 == 0 || m.load (slotAddr i + 92) 1 == 0) := by
        simp only [Entry.Live, entryAt]
        by_cases h1 : m.load (slotAddr i) 8 = 0 <;>
          by_cases h2 : m.load (slotAddr i + 92) 1 = 0 <;> simp [h1, h2, -Mem.load_one]
      rw [this]
      exact .pure _
  rcases h with ⟨h1, h2⟩ | ⟨j, h1, h2, h3, h4⟩
  · exact .inl ⟨fun j hj => by simpa using h1 j hj, h2⟩
  · exact .inr ⟨j, h1, by simpa using h2, fun k hk => by simpa using h3 k hk, h4⟩

/-- **`dir_count_live`** counts the entries whose `alive` byte is set. -/
theorem exec_countLiveFrom (hL : LayoutOk G m) {n : Nat} :
    ∀ {i : Nat} (count : Nat), i + n = G.dirCap →
    Exec G.size (countLiveFrom n i count) m
      (count + (List.range' i n).countP fun j => (entryAt m j).alive) [] := by
  induction n with
  | zero => exact fun _ _ => .pure _
  | succ n ih =>
    intro i count hi
    have hlt : i < G.dirCap := by omega
    refine (exec_dirSlot hL hlt).bind_nil (Exec.load_bind (v := m.load (slotAddr i + 92) 1) rfl
      (slot_field_le hlt (by decide)) ?_)
    have hx := ih (i := i + 1)
      (if m.load (slotAddr i + 92) 1 ≠ 0 then count + 1 else count) (by omega)
    have ha : (entryAt m i).alive = (m.load (slotAddr i + 92) 1 != 0) := rfl
    rw [List.range'_succ, List.countP_cons, ha]
    by_cases h0 : m.load (slotAddr i + 92) 1 = 0
    · simpa [h0] using hx
    · simp only [h0, bne_iff_ne, ne_eq, not_false_eq_true, if_true] at hx ⊢
      rwa [show count + (List.countP (fun j => (entryAt m j).alive) (List.range' (i + 1) n) + 1)
        = count + 1 + List.countP (fun j => (entryAt m j).alive) (List.range' (i + 1) n) by omega]

end ShmAlloc
