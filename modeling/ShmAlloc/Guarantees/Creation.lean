import ShmAlloc.Guarantees.Open

/-!
# Attaching while a region is being created

A host that attaches goes by `magic` and `version`.  `region_init` writes these right after it has
cleared the mapping, and everything else behind them: whoever attaches, or finds the region after
the creator has died, between the store of `version` and that of `free_list` is let in and finds a
region that is not there yet.

## What is here

* `Mapped`: the bytes of a mapping and the state of its mutex, and `Mapped.after`, what events make
  of both.
* `Attachable` and `checkHeader_iff`: the bytes that `shm_region_open` takes for a region.
* `Complete`: the header, the mutex and the first block are as `region_init` leaves them.
* `Stopped`: what the creator has done when it is stopped between two stores, or in the middle of
  the `memset` it starts with.
* `attach_complete_iff`: **a mapping that can be attached to is complete exactly if the creator has
  not yet stored `version`, or has stored `free_list`**, whatever the mapping held before.
* `attach_complete_fails`: stopped after its first three stores, the creator of a page leaves a
  mapping that is taken for a region, without size, ids and mutex.
-/

set_option autoImplicit false

namespace ShmAlloc

variable {size dirCap backend nsInode cgroupHash : Nat} {name : Option CStr} {m : Mem}

/-! ## What an attaching host finds -/

/-- The bytes of a mapping, and whether the mutex in it has been set up. -/
structure Mapped where
  bytes : Mem
  mutexReady : Bool

/-- What an event does to the mutex, whose bytes are `[16, 56)`. -/
def mutexAct (ready : Bool) : Event → Bool
  | .fill a n _ => if a < 56 ∧ 16 < a + n then false else ready
  | .lockInit => true
  | _ => ready

/-- What the events make of a mapping. -/
def Mapped.after (s : Mapped) (V : List Event) : Mapped :=
  ⟨replay V s.bytes, V.foldl mutexAct s.mutexReady⟩

theorem Mapped.after_append (s : Mapped) (V W : List Event) :
    s.after (V ++ W) = (s.after V).after W := by
  rw [after, after, after, replay_append, List.foldl_append]

/-- `shm_region_open` takes the bytes for a region. -/
def Attachable (m : Mem) : Prop :=
  m.load 0 4 = SHM_ALLOC_MAGIC_REGION ∧ m.load 4 4 = SHM_ALLOC_VERSION

/-- That is what the header is checked for. -/
theorem checkHeader_iff (env : Answers) : (checkHeader env 0).val m = none ↔ Attachable m := by
  have hno : ∀ flag stored mine, fingerprintDiffers 0 flag stored mine = false := by
    intro flag stored mine
    simp [fingerprintDiffers]
  simp only [val_checkHeader, hno, Bool.false_eq_true, if_false]
  rw [Attachable]
  by_cases h : m.load 0 4 ≠ SHM_ALLOC_MAGIC_REGION ∨ m.load 4 4 ≠ SHM_ALLOC_VERSION
  · rw [if_pos h]
    exact iff_of_false (by simp) fun ⟨h1, h2⟩ => h.elim (absurd h1) (absurd h2)
  · rw [if_neg h]
    rw [not_or, not_not, not_not] at h
    exact iff_of_true rfl h

/-- The fields of the mapping are those of `fin`: of the region header, the mutex and the header of
the initial block. -/
structure Complete (dirCap : Nat) (fin s : Mapped) : Prop where
  dirCapacity : s.bytes.load 12 4 = fin.bytes.load 12 4
  regionSize : s.bytes.load 64 8 = fin.bytes.load 64 8
  dirOffset : s.bytes.load 72 8 = fin.bytes.load 72 8
  dataOffset : s.bytes.load 80 8 = fin.bytes.load 80 8
  freeList : s.bytes.load 88 8 = fin.bytes.load 88 8
  nextId : s.bytes.load 112 8 = fin.bytes.load 112 8
  nsInode : s.bytes.load 120 8 = fin.bytes.load 120 8
  cgroupHash : s.bytes.load 128 8 = fin.bytes.load 128 8
  mutex : s.mutexReady = fin.mutexReady
  block : fin.bytes.Agree s.bytes (dataOff dirCap) (dataOff dirCap + 56)

theorem Complete.refl (dirCap : Nat) (s : Mapped) : Complete dirCap s s :=
  ⟨rfl, rfl, rfl, rfl, rfl, rfl, rfl, rfl, rfl, .refl _ _ _⟩

/-- What the creator has done when it is stopped: some of its stores, in order, or a part of the
`memset` it starts with. -/
inductive Stopped (size : Nat) (es : List Event) : List Event → Prop
  | between (V : List Event) (hV : V <+: es) : Stopped size es V
  | clearing (k : Nat) (hk : 0 < k) (hk' : k ≤ size) : Stopped size es [.fill 0 k 0]

/-! ## The stores, in order

The list of effects is cut at the stores of `version` and `free_list`; the two cuts are all that the
proof looks at. -/

/-- What `region_init` does up to the store of `version`. -/
def createFront (size : Nat) : List Event :=
  [.fill 0 size 0, .store 0 4 SHM_ALLOC_MAGIC_REGION, .store 4 4 SHM_ALLOC_VERSION]

/-- What `region_init` does between the stores of `version` and `free_list`. -/
def createBody (size dirCap backend nsInode cgroupHash : Nat) (name : Option CStr) : List Event :=
  (createHeader size dirCap backend nsInode cgroupHash).drop 3 ++ (regionNameEvents name ++
    (.lockInit :: (initialEvents (200 + 96 * dirCap) (sub64 size (200 + 96 * dirCap))).dropLast))

theorem createEvents_eq (size dirCap backend nsInode cgroupHash : Nat) (name : Option CStr) :
    createEvents size dirCap backend nsInode cgroupHash name
      = createFront size ++ (createBody size dirCap backend nsInode cgroupHash name ++
        .store 88 8 1 :: [.persist 0 (256 + 96 * dirCap), .drain]) := by
  rw [createEvents, createHeader, createFront, createBody, createHeader, initialEvents]
  simp only [List.cons_append, List.nil_append, List.append_assoc, List.drop_succ_cons,
    List.drop_zero, List.dropLast_cons_cons, List.dropLast_singleton]

/-- A prefix of a list ends before an element of it or goes past it. -/
theorem prefix_append_cons {A T V : List Event} {e : Event} (h : V <+: A ++ e :: T) :
    V <+: A ∨ ∃ T', V = A ++ e :: T' ∧ T' <+: T := by
  obtain ⟨Z, hZ⟩ := h
  rcases List.append_eq_append_iff.1 hZ with ⟨a', ha, hz⟩ | ⟨c', rfl, hz⟩
  · exact .inl ⟨a', ha.symm⟩
  · cases c' with
    | nil => exact .inl (by simp)
    | cons x c' =>
      obtain ⟨rfl, rfl⟩ := List.cons.inj hz
      exact .inr ⟨c', rfl, ⟨Z, rfl⟩⟩

/-- The stores of `region_init`, in order. -/
def initStores (size backend dirCap : Nat) (name : Option CStr) (nsInode cgroupHash : Nat)
    (m : Mem) : List Event :=
  effects ((regionInit size backend dirCap name nsInode cgroupHash).trace m)

theorem initStores_eq (hd : dirCap < 2 ^ 32) (m : Mem) :
    initStores size backend dirCap name nsInode cgroupHash m
      = createFront size ++ (createBody size dirCap backend nsInode cgroupHash name ++
        .store 88 8 1 :: [.persist 0 (256 + 96 * dirCap), .drain]) := by
  rw [initStores, (exec_regionInit_of_lt hd m backend nsInode cgroupHash name).eff, createEvents_eq]

/-- Between these two stores nothing is written to `magic`, `version` and `free_list`. -/
theorem writes_createBody {x : Nat}
    (h : Writes (createBody size dirCap backend nsInode cgroupHash name) x) :
    8 ≤ x ∧ (x < 88 ∨ 96 ≤ x) := by
  rw [createBody, createHeader, initialEvents] at h
  rcases writes_append.1 h with h | h
  · simp only [List.drop_succ_cons, List.drop_zero, writes_cons, not_writes_nil, Event.Touches,
      or_false] at h
    omega
  · rcases writes_append.1 h with h | h
    · have := writes_regionNameEvents h
      omega
    · simp only [List.dropLast_cons_cons, List.dropLast_singleton, writes_cons, not_writes_nil,
        Event.Touches, or_false, false_or] at h
      omega

section

variable {B : List Event}

/-- The bytes up to the end of `free_list` once `version` is stored. -/
theorem load_front (hsize : 96 ≤ size) (m : Mem) :
    (replay (createFront size) m).load 0 4 = SHM_ALLOC_MAGIC_REGION ∧
      (replay (createFront size) m).load 4 4 = SHM_ALLOC_VERSION ∧
      (replay (createFront size) m).load 88 8 = 0 := by
  have h1 : SHM_ALLOC_MAGIC_REGION % 256 ^ 4 = SHM_ALLOC_MAGIC_REGION := by decide
  have h2 : SHM_ALLOC_VERSION % 256 ^ 4 = SHM_ALLOC_VERSION := by decide
  simp only [createFront, replay_cons, replay_nil, Event.act]
  refine ⟨?_, ?_, ?_⟩
  · simp (disch := omega) only [Mem.load_store_same, Mem.load_store_of_disjoint, h1]
  · simp (disch := omega) only [Mem.load_store_same, h2]
  · simp (disch := omega) only [Mem.load_store_of_disjoint, Mem.load_fill_zero]

/-- **From the store of `version` on** the mapping is attachable, and until that of `free_list` the
list is not there. -/
theorem load_middle (hsize : 96 ≤ size)
    (hB : B <+: createBody size dirCap backend nsInode cgroupHash name) (m : Mem) :
    Attachable (replay (createFront size ++ B) m) ∧
      (replay (createFront size ++ B) m).load 88 8 = 0 := by
  have hw : ∀ x, Writes B x → 8 ≤ x ∧ (x < 88 ∨ 96 ≤ x) := fun x ⟨e, he, ht⟩ =>
    writes_createBody ⟨e, hB.subset he, ht⟩
  obtain ⟨h1, h2, h3⟩ := load_front hsize m
  refine ⟨⟨?_, ?_⟩, ?_⟩ <;> rw [replay_append, load_replay fun x hx => by have := hw x hx; omega]
  exacts [h1, h2, h3]

/-- **Before the store of `version`** the mapping is not attachable. -/
theorem not_attachable_clearing {k : Nat} (hk : 0 < k) (m : Mem) :
    ¬ Attachable (replay [.fill 0 k 0] m) := by
  rintro ⟨h, -⟩
  have h0 : replay [.fill 0 k 0] m 0 = 0 := by
    rw [replay_cons, replay_nil]
    exact Mem.fill_of_inside (Nat.zero_le _) (by omega)
  rw [Mem.load, h0, SHM_ALLOC_MAGIC_REGION] at h
  simp only [UInt8.toNat_zero] at h
  omega

theorem not_attachable_unversioned (hsize : 8 ≤ size) (m : Mem) :
    ¬ Attachable (replay [.fill 0 size 0, .store 0 4 SHM_ALLOC_MAGIC_REGION] m) := by
  rintro ⟨-, h⟩
  simp only [replay_cons, replay_nil, Event.act] at h
  rw [Mem.load_store_of_disjoint (by omega), Mem.load_fill_zero (by omega) (by omega)] at h
  exact absurd h (by decide)

end

/-- Writing back and fencing change nothing. -/
theorem Mapped.after_persist {a n : Nat} {T : List Event} (hT : T <+: [.persist a n, .drain])
    (s : Mapped) : s.after T = s := by
  rcases List.prefix_cons_iff.1 hT with rfl | ⟨T₁, rfl, hT₁⟩
  · rfl
  · rcases List.prefix_cons_iff.1 hT₁ with rfl | ⟨T₂, rfl, hT₂⟩
    · rfl
    · rw [List.prefix_nil.1 hT₂]
      rfl

/-- **What the creator has done when it is stopped between two stores**: nothing; not yet stored
`version`; stored `version` and a part of what follows; or stored `free_list`. -/
theorem prefix_initStores (hd : dirCap < 2 ^ 32) {V : List Event}
    (hV : V <+: initStores size backend dirCap name nsInode cgroupHash m) :
    V = [] ∨ V = [.fill 0 size 0] ∨ V = [.fill 0 size 0, .store 0 4 SHM_ALLOC_MAGIC_REGION] ∨
      (∃ B, V = createFront size ++ B ∧
        B <+: createBody size dirCap backend nsInode cgroupHash name) ∨
      ∃ T, V = createFront size ++
          (createBody size dirCap backend nsInode cgroupHash name ++ .store 88 8 1 :: T) ∧
        T <+: [.persist 0 (256 + 96 * dirCap), .drain] := by
  rw [initStores_eq hd, createFront, List.cons_append, List.cons_append, List.cons_append,
    List.nil_append] at hV
  rcases List.prefix_cons_iff.1 hV with rfl | ⟨V₁, rfl, hV₁⟩
  · exact .inl rfl
  rcases List.prefix_cons_iff.1 hV₁ with rfl | ⟨V₂, rfl, hV₂⟩
  · exact .inr (.inl rfl)
  rcases List.prefix_cons_iff.1 hV₂ with rfl | ⟨V₃, rfl, hV₃⟩
  · exact .inr (.inr (.inl rfl))
  rcases prefix_append_cons hV₃ with hB | ⟨T, rfl, hT⟩
  · exact .inr (.inr (.inr (.inl ⟨V₃, rfl, hB⟩)))
  · exact .inr (.inr (.inr (.inr ⟨T, rfl, hT⟩)))

/-- With `free_list` stored the region is complete. -/
theorem complete_of_free_list (hd : dirCap < 2 ^ 32) (s : Mapped) {T : List Event}
    (hT : T <+: [.persist 0 (256 + 96 * dirCap), .drain]) :
    Complete dirCap (s.after (initStores size backend dirCap name nsInode cgroupHash s.bytes))
      (s.after (createFront size ++
        (createBody size dirCap backend nsInode cgroupHash name ++ .store 88 8 1 :: T))) := by
  have hsplit : ∀ T', T' <+: [.persist 0 (256 + 96 * dirCap), .drain] →
      s.after (createFront size ++
          (createBody size dirCap backend nsInode cgroupHash name ++ .store 88 8 1 :: T'))
        = s.after (createFront size ++
          (createBody size dirCap backend nsInode cgroupHash name ++ [.store 88 8 1])) :=
    fun T' hT' => by
      rw [List.append_cons _ _ T', ← List.append_assoc _ _ T', Mapped.after_append,
        Mapped.after_persist hT']
  rw [initStores_eq hd, hsplit T hT, hsplit _ List.prefix_rfl]
  exact .refl _ _

/-- Without it the region is not complete. -/
theorem not_complete_middle (hd : dirCap < 2 ^ 32) (hsize : 96 ≤ size) (s : Mapped)
    {B : List Event} (hB : B <+: createBody size dirCap backend nsInode cgroupHash name) :
    ¬ Complete dirCap (s.after (initStores size backend dirCap name nsInode cgroupHash s.bytes))
      (s.after (createFront size ++ B)) := by
  intro hc
  have h0 : (s.after (createFront size ++ B)).bytes.load 88 8 = 0 :=
    (load_middle hsize hB s.bytes).2
  have h1 : (s.after (initStores size backend dirCap name nsInode cgroupHash s.bytes)).bytes.load
      88 8 = 1 := by
    show (replay _ s.bytes).load 88 8 = 1
    rw [initStores_eq hd, replay_append, replay_append]
    simp only [replay_cons, replay_nil, Event.act]
    exact Mem.load_store_same ..
  have := hc.freeList
  omega

/-! ## The guarantee -/

/-- **A mapping can be attached to only when it is complete** exactly if the creator is stopped
before it has stored `version` or when it has stored `free_list`, and if it has not begun, exactly
if what the mapping held before cannot be attached to or is complete already. -/
theorem attach_complete_iff (hd : dirCap < 2 ^ 32) (hsize : 4096 ≤ size)
    (backend nsInode cgroupHash : Nat) (name : Option CStr) (s : Mapped) {V : List Event}
    (hV : Stopped size (initStores size backend dirCap name nsInode cgroupHash s.bytes) V) :
    (Attachable (s.after V).bytes → Complete dirCap
        (s.after (initStores size backend dirCap name nsInode cgroupHash s.bytes)) (s.after V)) ↔
      (V = [] ∧ (Attachable s.bytes → Complete dirCap
        (s.after (initStores size backend dirCap name nsInode cgroupHash s.bytes)) s)) ∨
      (V ≠ [] ∧ .store 4 4 SHM_ALLOC_VERSION ∉ V) ∨ .store 88 8 1 ∈ V := by
  cases hV with
  | clearing k hk hk' =>
    exact iff_of_true (fun h => absurd h (not_attachable_clearing hk _))
      (.inr (.inl ⟨by simp, by simp⟩))
  | between V hV =>
    rcases prefix_initStores hd hV with rfl | rfl | rfl | ⟨B, rfl, hB⟩ | ⟨T, rfl, hT⟩
    · refine ⟨fun h => .inl ⟨rfl, h⟩, ?_⟩
      rintro (⟨-, h⟩ | ⟨h, -⟩ | h)
      · exact h
      · exact absurd rfl h
      · simp at h
    · exact iff_of_true (fun h => absurd h (not_attachable_clearing (by omega) _))
        (.inr (.inl ⟨by simp, by simp⟩))
    · exact iff_of_true (fun h => absurd h (not_attachable_unversioned (by omega) _))
        (.inr (.inl ⟨by simp, by simp⟩))
    · -- the window: attachable, and the free list is not there
      refine iff_of_false (fun h => not_complete_middle hd (by omega) s hB
        (h (load_middle (by omega) hB s.bytes).1)) ?_
      rintro (⟨h, -⟩ | ⟨-, h⟩ | h)
      · simp [createFront] at h
      · exact h (by simp [createFront])
      · rcases List.mem_append.1 h with h | h
        · simp [createFront] at h
        · have := writes_createBody (x := 88) ⟨_, hB.subset h, by simp [Event.Touches]⟩
          omega
    · exact iff_of_true (fun _ => complete_of_free_list hd s hT) (.inr (.inr (by simp)))

/-- The creation of a page that held nothing, stopped with its last store. -/
theorem attach_complete_page :
    Attachable ((⟨zeros, false⟩ : Mapped).after
        (initStores 4096 0 2 none 0 0 zeros)).bytes ∧
      Complete 2 ((⟨zeros, false⟩ : Mapped).after (initStores 4096 0 2 none 0 0 zeros))
        ((⟨zeros, false⟩ : Mapped).after (initStores 4096 0 2 none 0 0 zeros)) := by
  have hmagic : Attachable ((⟨zeros, false⟩ : Mapped).after
      (initStores 4096 0 2 none 0 0 zeros)).bytes := by
    rw [Attachable]
    decide +kernel
  exact ⟨hmagic, (attach_complete_iff (by decide) (by decide) 0 0 0 none ⟨zeros, false⟩
    (.between _ List.prefix_rfl)).2 (.inr (.inr (by rw [initStores_eq (by decide)]; simp))) hmagic⟩

/-- **Stopped after its first three stores**, the creator of a page leaves a mapping that is taken
for a region, but has no size, no ids and no mutex. -/
theorem attach_complete_fails :
    Stopped 4096 (initStores 4096 0 2 none 0 0 zeros) (createFront 4096) ∧
    Attachable ((⟨zeros, false⟩ : Mapped).after (createFront 4096)).bytes ∧
    ((⟨zeros, false⟩ : Mapped).after (createFront 4096)).bytes.load 64 8 = 0 ∧
    ((⟨zeros, false⟩ : Mapped).after (createFront 4096)).bytes.load 112 8 = 0 ∧
    ((⟨zeros, false⟩ : Mapped).after (createFront 4096)).mutexReady = false ∧
    ¬ Complete 2 ((⟨zeros, false⟩ : Mapped).after (initStores 4096 0 2 none 0 0 zeros))
      ((⟨zeros, false⟩ : Mapped).after (createFront 4096)) := by
  have hB : [] <+: createBody 4096 2 0 0 0 none := List.nil_prefix
  refine ⟨.between _ ?_, (load_middle (by decide) hB zeros).1, by decide +kernel, by decide +kernel,
    by decide, ?_⟩
  · rw [initStores_eq (by decide)]
    exact List.prefix_append _ _
  · exact not_complete_middle (by decide) (by decide) _ hB

end ShmAlloc
