import Mathlib.Data.List.GetD
import ShmAlloc.Region.Run

/-!
# Names and iteration

`shm_alloc` stores a name cut to what fits and padded with NULs, so the 48 bytes of a name are a
string and what is left over is 0.  `shm_dir_next` copies the first entry in use from its cursor
on, name included, and leaves the cursor behind it.

## What is here

* `NameIs`: the name field of a slot holds a string of at most 47 characters.
* `storedName` and `nameIs_alloc`: **a new object has the name it was asked to have**, cut to what
  fits.
* `snapshotOf`: the copy the caller gets of an entry.
* `exec_shmDirNext`: **one call of `shm_dir_next`**, which returns the first entry in use from the
  cursor on, or `ENOENT` if there is none.
-/

set_option autoImplicit false

namespace ShmAlloc

open Tiling Links

variable {G : Geometry} {m m' : Mem} {bs pre post : List Blk} {i : Nat}

/-! ## Stored names -/

/-- The name field of slot `i` holds the string `s`, padded with NULs. -/
structure NameIs (m : Mem) (i : Nat) (s : List UInt8) : Prop where
  noNul : (0 : UInt8) ∉ s
  /-- There is room for a NUL at the end. -/
  length_le : s.length ≤ 47
  byte : ∀ j, j < 48 → m (slotAddr i + 8 + j) = s.getD j 0

theorem NameIs.congr {s : List UInt8} (h : NameIs m i s)
    (hm : m.Agree m' (slotAddr i + 8) (slotAddr i + 56)) : NameIs m' i s :=
  ⟨h.noNul, h.length_le, fun j hj => (hm _ (by omega) (by omega)).trans (h.byte j hj)⟩

/-- The bytes of the name field. -/
def nameBytes (m : Mem) (i : Nat) : List UInt8 :=
  (List.range 48).map fun j => m (slotAddr i + 8 + j)

/-- **A stored name is all of its field**: the string, and NULs to the end. -/
theorem NameIs.bytes {s : List UInt8} (h : NameIs m i s) :
    nameBytes m i = s ++ List.replicate (47 - s.length) 0 ++ [0] := by
  have hlen := h.length_le
  refine List.ext_getElem (by simp [nameBytes]; omega) fun j h1 h2 => ?_
  have hj : j < 48 := by simpa [nameBytes] using h1
  rw [show (nameBytes m i)[j] = m (slotAddr i + 8 + j) by simp [nameBytes], h.byte j hj]
  by_cases hs : j < s.length
  · rw [List.getElem_append_left (by simp; omega), List.getElem_append_left hs]
    exact List.getD_eq_getElem s 0 hs
  · rw [List.getD_eq_default _ _ (by omega)]
    by_cases hz : j < 47
    · rw [List.getElem_append_left (by simp; omega), List.getElem_append_right (by omega),
        List.getElem_replicate]
    · rw [List.getElem_append_right (by simp; omega), List.getElem_singleton]

/-! ## The name of a new object -/

/-- The name field is zeroed with the rest of the slot. -/
theorem slotEvents_name (m : Mem) (i id off cap : Nat) (q : Request) {x : Nat}
    (h1 : slotAddr i + 8 ≤ x) (h2 : x < slotAddr i + 56) :
    replay (slotEvents (slotAddr i) id off cap q) m x = 0 := by
  rw [slotEvents, replay_cons, replay_of_not_writes]
  · exact Mem.fill_of_inside (by omega) (by omega)
  · intro hw
    simp only [writes_cons, not_writes_nil, Event.Touches, or_false] at hw
    omega

/-- What `strncpy` writes, byte by byte. -/
theorem strncpyBytes_getD (s : List UInt8) (n j : Nat) :
    (strncpyBytes s n).getD j 0 = (s.take n).getD j 0 := by
  rw [strncpyBytes]
  by_cases hj : j < (s.take n).length
  · rw [List.getD_append _ _ _ _ hj]
  · rw [List.getD_append_right _ _ _ _ (by omega), List.getD_eq_default (s.take n) _ (by omega)]
    simp

/-- The string that is stored of the name an object is allocated with. -/
def storedName : Option CStr → List UInt8
  | none => []
  | some s => s.1.take 47

/-- A name put into a field of NULs. -/
theorem nameIs_nameEvents (name : Option CStr)
    (hz : ∀ x, slotAddr i + 8 ≤ x → x < slotAddr i + 56 → m x = 0) :
    NameIs (replay (nameEvents (slotAddr i) name) m) i (storedName name) := by
  have hempty : NameIs m i [] := ⟨by simp, by simp, fun j hj => hz _ (by omega) (by omega)⟩
  cases name with
  | none => exact hempty
  | some c =>
    rw [nameEvents, storedName]
    split
    · rename_i hnil
      rw [hnil]
      exact hempty
    · refine ⟨fun h0 => c.2 (List.mem_of_mem_take h0), by simp, fun j hj => ?_⟩
      have hlen := strncpyBytes_length c.1 47
      rw [replay_cons, replay_nil, ← strncpyBytes_getD]
      by_cases hj' : j < 47
      · refine (if_pos ⟨by omega, by omega⟩).trans ?_
        congr 1
        omega
      · rw [List.getD_eq_default _ _ (by omega)]
        exact (if_neg (by omega)).trans (hz _ (by omega) (by omega))

/-- **A new object has the name it was asked to have**, cut to what fits. -/
theorem nameIs_alloc {b : Blk} {q : Request} (m : Mem) (id : Nat) :
    NameIs (replay (allocEvents G pre b post i id q) m) i (storedName q.name) := by
  rw [allocEvents, bindEvents, answerEvents, replay_append, replay_append, replay_append,
    replay_append, replay_append]
  refine (nameIs_nameEvents q.name fun x h1 h2 =>
    slotEvents_name _ i id (b.off + 56) (taken b (blockSize q.size)).cap q h1 h2).congr
      fun x _ _ => replay_of_not_writes ?_ _
  simp [Event.Touches]

/-! ## Running the code

`shm_dir_next` takes no lock, so its run is about the one memory it reads. -/

/-- The copy the caller gets of the entry in slot `i`. -/
def snapshotOf (m : Mem) (i : Nat) : DirEntry where
  id := (entryAt m i).id
  off := (entryAt m i).off
  capacity := (entryAt m i).cap
  usedSize := (entryAt m i).used
  typeTag := (entryAt m i).tag
  owner := (entryAt m i).owner
  perms := (entryAt m i).perms
  name := nameBytes m i

/-- `strncpy` from a string that ends in time reads it up to its NUL. -/
theorem exec_strncpyFrom {sz n : Nat} : ∀ {src : Nat} {s : List UInt8}, (0 : UInt8) ∉ s →
    s.length ≤ n → (∀ j, j < n → m (src + j) = s.getD j 0) → src + n ≤ sz →
    Exec sz (strncpyFrom src n) m (s ++ List.replicate (n - s.length) 0) [] := by
  induction n with
  | zero =>
    intro src s _ hlen _ _
    rw [List.eq_nil_of_length_eq_zero (by omega : s.length = 0)]
    exact .pure _
  | succ n ih =>
    intro src s hs hlen hb hsz
    have h0 : m src = s.getD 0 0 := hb 0 (by omega)
    cases s with
    | nil =>
      refine Exec.load_bind (v := 0) (by rw [Mem.load_one, h0]; rfl) (by omega) ?_
      rw [if_pos rfl]
      exact .pure _
    | cons c cs =>
      rw [List.mem_cons, not_or] at hs
      have hc : m src = c := h0
      refine Exec.load_bind (v := c.toNat) (by rw [Mem.load_one, hc]) (by omega) ?_
      rw [if_neg fun h => hs.1 (UInt8.toNat_inj.1 h.symm)]
      rw [List.length_cons] at hlen ⊢
      refine (ih hs.2 (by omega) (fun j hj => ?_) (by omega)).bind_nil ?_
      · rw [show src + 1 + j = src + (j + 1) by omega, hb (j + 1) (by omega)]
        rfl
      · rw [UInt8.ofNat_toNat, show n + 1 - (cs.length + 1) = n - cs.length by omega]
        exact .pure _

theorem exec_snapshotEntry (hi : i < G.dirCap) {s : List UInt8} (hs : NameIs m i s) :
    Exec G.size (snapshotEntry (slotAddr i)) m (snapshotOf m i) [] := by
  have hname : Exec G.size (strncpyFrom (slotAddr i + 8) 47) m
      (s ++ List.replicate (47 - s.length) 0) [] :=
    exec_strncpyFrom hs.noNul hs.length_le (fun j hj => hs.byte j (by omega))
      (slot_field_le hi (by decide))
  have hf : ∀ {k n : Nat}, k + n ≤ 96 → slotAddr i + k + n ≤ G.size := slot_field_le hi
  refine .load_bind rfl (hf (by decide)) (.load_bind rfl (hf (by decide)) (.load_bind rfl
    (hf (by decide)) (.load_bind rfl (hf (by decide)) (.load_bind rfl (hf (by decide))
    (.load_bind rfl (hf (by decide)) (.load_bind rfl (hf (by decide)) (hname.bind_nil ?_)))))))
  rw [← hs.bytes]
  exact .pure _

/-- **What the loop finds**: the first entry in use from the cursor on. -/
theorem exec_dirNextFrom (hL : LayoutOk G m)
    (hn : ∀ j, j < G.dirCap → (entryAt m j).Live → ∃ s, NameIs m j s) {n : Nat} :
    ∀ {k : Nat}, k + n = G.dirCap →
      (∀ j, k ≤ j → j < G.dirCap → ¬ (entryAt m j).Live) ∧
        Exec G.size (dirNextFrom n k) m ⟨.enoent, G.dirCap, none⟩ [] ∨
      ∃ j, k ≤ j ∧ j < G.dirCap ∧ (entryAt m j).Live ∧
        (∀ l, k ≤ l → l < j → ¬ (entryAt m l).Live) ∧
        Exec G.size (dirNextFrom n k) m ⟨.ok, j + 1, some (snapshotOf m j)⟩ [] := by
  induction n with
  | zero =>
    intro k hk
    refine .inl ⟨fun j h1 h2 => by omega, ?_⟩
    rw [show k = G.dirCap by omega]
    exact .pure _
  | succ n ih =>
    intro k hk
    have hlt : k < G.dirCap := by omega
    have hlive : m.load (slotAddr k + 92) 1 ≠ 0 ∧ m.load (slotAddr k) 8 ≠ 0 ↔
        (entryAt m k).Live := by
      simp [Entry.Live, entryAt]
    have hx : ∀ {v : DirNext}, Exec G.size (if (entryAt m k).Live then do
          let out ← snapshotEntry (slotAddr k)
          return ⟨.ok, k + 1, some out⟩
        else dirNextFrom n (k + 1)) m v [] → Exec G.size (dirNextFrom (n + 1) k) m v [] :=
      fun {v} hx => by
        refine (exec_dirSlot hL hlt).bind_nil (Exec.load_bind rfl (slot_field_le hlt (by decide))
          (Exec.load_bind rfl (slot_field_le hlt (by decide)) ?_))
        by_cases hl : (entryAt m k).Live
        · rw [if_pos hl] at hx
          exact (if_pos (hlive.2 hl)).symm ▸ hx
        · rw [if_neg hl] at hx
          exact (if_neg fun h => hl (hlive.1 h)).symm ▸ hx
    by_cases hl : (entryAt m k).Live
    · obtain ⟨s, hs⟩ := hn k hlt hl
      refine .inr ⟨k, Nat.le_refl _, hlt, hl, fun l h1 h2 => by omega, hx ?_⟩
      rw [if_pos hl]
      exact (exec_snapshotEntry hlt hs).bind_nil (.pure _)
    · have hfirst : ∀ l, k ≤ l → ¬ k + 1 ≤ l → ¬ (entryAt m l).Live := fun l h1 h2 => by
        rw [show l = k by omega]
        exact hl
      rcases ih (k := k + 1) (by omega) with ⟨h1, h2⟩ | ⟨j, h1, h2, h3, h4, h5⟩
      · refine .inl ⟨fun j hj hj' => ?_, hx ?_⟩
        · by_cases hkj : k + 1 ≤ j
          · exact h1 j hkj hj'
          · exact hfirst j hj hkj
        · rw [if_neg hl]
          exact h2
      · refine .inr ⟨j, by omega, h2, h3, fun l h6 h7 => ?_, hx ?_⟩
        · by_cases hkl : k + 1 ≤ l
          · exact h4 l hkl h7
          · exact hfirst l h6 hkl
        · rw [if_neg hl]
          exact h5

/-- **`shm_dir_next`** returns a copy of the first entry in use from its cursor on, and leaves the
cursor behind it; there being none, it returns `ENOENT`. -/
theorem exec_shmDirNext (hL : LayoutOk G m)
    (hn : ∀ j, j < G.dirCap → (entryAt m j).Live → ∃ s, NameIs m j s) (r : Region) {k : Nat}
    (hk : k ≤ G.dirCap) :
    (∀ j, k ≤ j → j < G.dirCap → ¬ (entryAt m j).Live) ∧
        Exec G.size (shmDirNext (some r) (some k) true) m ⟨.enoent, G.dirCap, none⟩ [] ∨
      ∃ j, k ≤ j ∧ j < G.dirCap ∧ (entryAt m j).Live ∧
        (∀ l, k ≤ l → l < j → ¬ (entryAt m l).Live) ∧
        Exec G.size (shmDirNext (some r) (some k) true) m
          ⟨.ok, j + 1, some (snapshotOf m j)⟩ [] := by
  have hD := G.base_ge
  have hsz := G.size_eq
  have hx : ∀ {v : DirNext}, Exec G.size (dirNextFrom (G.dirCap - k) k) m v [] →
      Exec G.size (shmDirNext (some r) (some k) true) m v [] := fun hx =>
    Exec.load_bind hL.dirCapacity (by simp; omega) hx
  rcases exec_dirNextFrom hL hn (n := G.dirCap - k) (k := k) (by omega) with
    ⟨h1, h2⟩ | ⟨j, h1, h2, h3, h4, h5⟩
  · exact .inl ⟨h1, hx h2⟩
  · exact .inr ⟨j, h1, h2, h3, h4, hx h5⟩

end ShmAlloc
