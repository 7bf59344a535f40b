import ShmAlloc.Region.Iterate

/-!
# Looking objects up by name

`dir_find_by_name` compares the whole string it is given with the names in the slots, of which each
is a string of at most 47 characters, whatever it was allocated under.

## What is here

* `nameOf`: the string in the name field of a slot, up to its first NUL.
* `Named`: the names of the entries end within their fields, which `shm_alloc` sees to.
* `exec_strcmpEq`: **`strcmp` compares the strings**, the one in memory and the one it is given.
* `exec_dirFindByName` and `exec_shmLookupByName`: the first entry in use that has the name, and the
  answer from it if access is granted.
-/

set_option autoImplicit false

namespace ShmAlloc

variable {G : Geometry} {m m' : Mem} {bs : List Blk} {i j : Nat}

/-! ## The name in a slot -/

/-- The string in the name field of slot `i`. -/
def nameOf (m : Mem) (i : Nat) : List UInt8 := (nameBytes m i).takeWhile fun c => c != 0

theorem NameIs.nameOf_eq {s : List UInt8} (h : NameIs m i s) : nameOf m i = s := by
  have hs : ∀ c ∈ s, (c != 0) = true := fun c hc => by
    rw [bne_iff_ne]
    rintro rfl
    exact h.noNul hc
  rw [nameOf, h.bytes, List.append_assoc, List.takeWhile_append_of_pos hs]
  cases 47 - s.length with
  | zero => simp
  | succ n => simp [List.replicate_succ]

theorem nameOf_congr (hm : m.Agree m' (slotAddr i + 8) (slotAddr i + 56)) :
    nameOf m' i = nameOf m i := by
  have hbytes : nameBytes m' i = nameBytes m i := by
    rw [nameBytes, nameBytes]
    refine List.map_congr_left fun j hj => ?_
    have := List.mem_range.1 hj
    exact hm _ (by omega) (by omega)
  rw [nameOf, nameOf, hbytes]

/-- The entries whose `alive` byte is set have names that end within their fields. -/
def Named (G : Geometry) (m : Mem) : Prop :=
  ∀ i, i < G.dirCap → (entryAt m i).alive = true → ∃ s, NameIs m i s

/-! ## Comparing -/

/-- **`strcmp`** compares the strings: the one in memory, of which `t` is left, and the other. -/
theorem exec_strcmpEq {sz : Nat} (s : List UInt8) : ∀ {p : Nat} {t : List UInt8},
    (0 : UInt8) ∉ s → (0 : UInt8) ∉ t → (∀ k, k ≤ t.length → m (p + k) = t.getD k 0) →
    p + t.length + 1 ≤ sz → Exec sz (strcmpEq p s) m (decide (t = s)) [] := by
  induction s with
  | nil =>
    intro p t _ ht hb hp
    refine Exec.load_bind (v := (t.getD 0 0).toNat) ?_ (by omega) ?_
    · rw [Mem.load_one, ← hb 0 (Nat.zero_le _), Nat.add_zero]
    · cases t with
      | nil => exact .pure _
      | cons y ys =>
        have hy : y ≠ 0 := fun h0 => ht (by rw [h0]; exact List.mem_cons_self)
        have hne : (y.toNat == 0) = false := by
          rw [beq_eq_false_iff_ne]
          exact fun h0 => hy (UInt8.toNat_inj.1 h0)
        rw [List.getD_cons_zero, hne]
        exact .pure _
  | cons x xs ih =>
    intro p t hs ht hb hp
    have hx : x ≠ 0 := fun h0 => hs (by rw [h0]; exact List.mem_cons_self)
    rw [strcmpEq]
    refine Exec.load_bind (v := (t.getD 0 0).toNat) ?_ (by omega) ?_
    · rw [Mem.load_one, ← hb 0 (Nat.zero_le _), Nat.add_zero]
    · cases t with
      | nil =>
        have hne : ¬ (([] : List UInt8).getD 0 0).toNat = x.toNat := fun h0 =>
          hx (UInt8.toNat_inj.1 h0).symm
        rw [if_neg hne]
        exact .pure _
      | cons y ys =>
        rw [List.getD_cons_zero]
        by_cases hxy : y = x
        · subst hxy
          rw [if_pos rfl]
          have hrest := ih (p := p + 1) (t := ys) (fun h0 => hs (List.mem_cons_of_mem _ h0))
            (fun h0 => ht (List.mem_cons_of_mem _ h0)) (fun k hk => by
              have := hb (k + 1) (by simpa using hk)
              rwa [show p + (k + 1) = p + 1 + k by omega, List.getD_cons_succ] at this)
            (by simp only [List.length_cons] at hp; omega)
          simpa using hrest
        · have hne : ¬ y.toNat = x.toNat := fun h0 => hxy (UInt8.toNat_inj.1 h0)
          rw [if_neg hne, decide_eq_false fun h0 => hxy (List.cons.inj h0).1]
          exact .pure _

/-- The test of `dir_find_by_name` on slot `i`. -/
theorem exec_hasName (hn : Named G m) (hi : i < G.dirCap) (s : CStr) :
    Exec G.size (hasName s (slotAddr i)) m
      ((entryAt m i).alive && decide (nameOf m i = s.1)) [] := by
  rw [hasName]
  refine Exec.load_bind (v := m.load (slotAddr i + 92) 1) rfl (slot_field_le hi (by decide)) ?_
  have halive : (entryAt m i).alive = (m.load (slotAddr i + 92) 1 != 0) := rfl
  by_cases ha : m.load (slotAddr i + 92) 1 = 0
  · rw [if_pos ha, halive, ha]
    exact .pure _
  · have ha' : (entryAt m i).alive = true := by
      rw [halive]
      exact bne_iff_ne.2 ha
    obtain ⟨t, ht⟩ := hn i hi ha'
    have hlen := ht.length_le
    have hsz := slot_field_le (k := 8) (n := 48) hi (by decide)
    rw [if_neg ha, ha', Bool.true_and, ht.nameOf_eq]
    exact exec_strcmpEq s.1 s.2 ht.noNul (fun k hk => ht.byte k (by omega))
      (by rw [ObjEntry.name]; omega)

/-- **`dir_find_by_name`** finds the first entry whose `alive` byte is set and whose name is the
string. -/
theorem exec_dirFindByName (hL : LayoutOk G m) (hn : Named G m) (s : CStr) :
    (∀ j, j < G.dirCap → (entryAt m j).alive = true → nameOf m j ≠ s.1) ∧
        Exec G.size (dirFindByName s) m none [] ∨
      ∃ j, j < G.dirCap ∧ (entryAt m j).alive = true ∧ nameOf m j = s.1 ∧
        Exec G.size (dirFindByName s) m (some (slotAddr j)) [] := by
  rcases exec_dirFind hL (hasName s) fun i hi => exec_hasName hn hi s with
    ⟨hnone, hx⟩ | ⟨j, hj, hp, -, hx⟩
  · refine .inl ⟨fun j hj ha hname => ?_, hx⟩
    have := hnone j hj
    rw [ha, hname] at this
    simp at this
  · rw [Bool.and_eq_true, decide_eq_true_eq] at hp
    exact .inr ⟨j, hj, hp.1, hp.2, hx⟩

/-! ## `shm_lookup_by_name` -/

/-- **`shm_lookup_by_name`** fails, or answers from an entry with the name, if access to it is
granted. -/
theorem exec_shmLookupByName (hL : LayoutOk G m) (hn : Named G m) (r : Region) (s : CStr)
    (userId callerPerms : UInt32) :
    (∀ j, j < G.dirCap → (entryAt m j).alive = true → nameOf m j ≠ s.1) ∧
        Exec G.size (shmLookupByName (some r) (some s) userId callerPerms true true) m .enoent
          (lockEvents r ++ [.unlock]) ∨
      ∃ j, j < G.dirCap ∧ (entryAt m j).alive = true ∧ nameOf m j = s.1 ∧
        ((entryAt m j).access userId callerPerms SHM_PERM_READ = .ok →
          Exec G.size (shmLookupByName (some r) (some s) userId callerPerms true true) m .ok
            (lockEvents r ++ [.out 0 (entryAt m j).id, .out 1 (entryAt m j).off, .unlock])) := by
  rcases exec_dirFindByName hL hn s with ⟨hnone, hx⟩ | ⟨j, hj, ha, hname, hx⟩
  · exact .inl ⟨hnone, exec_locked r (hx.bind_nil (exec_unlockReturn _))⟩
  · refine .inr ⟨j, hj, ha, hname, fun hacc => exec_locked r (hx.bind_nil ?_)⟩
    refine (exec_checkDirAccess hj userId callerPerms SHM_PERM_READ).bind_nil ?_
    rw [hacc, if_pos rfl]
    exact Exec.load_bind (v := (entryAt m j).id) rfl (slot_field_le (k := 0) hj (by decide))
      (.emit_bind (Exec.load_bind (v := (entryAt m j).off) rfl (slot_field_le hj (by decide))
        (.emit_bind (exec_unlockReturn _))))

end ShmAlloc
