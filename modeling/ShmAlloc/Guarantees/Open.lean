import ShmAlloc.RegionOpen
import ShmAlloc.Guarantees.Capacity

/-!
# Opening regions

What `shm_region_open` promises and what it keeps: that a failed call leaves the namespace alone,
that all handles of a region have the same extent, and that a region that is created is well formed.
The code keeps each of these under a condition, which is stated with it.

## What is here

* `shmRegionOpen_cases`, `mapRegion_attach` and `mapRegion_create`: the ways a call can go.
* `Clobbers` and `failed_open_keeps_names`: **a failed call leaves the POSIX namespace alone exactly
  if** it did not fail after opening an existing object to create a region in it.
* `OneBlock`, `openNamed_created` and `created_fits`: **a region that is created is well formed
  exactly if** directory and first header fit in the size.
* `created_fits_fails`: 4100 bytes and 41 entries.  The first header is behind the size, but in the
  last page of the mapping, so the call returns 0.
* `MapsRegionSize` and `handles_agree`: **a call that attaches maps the size of the region exactly
  if** its object still has that size, or, for a device, what the device has and the caller asks for
  comes to it; and handles that map it agree on the extent of the region from then on (`Lifetime`,
  `SharesExtent`).
* `exec_countHost` and `exec_uncountHost`: opening and closing count the process in the header,
  which keeps the region invariant.
-/

set_option autoImplicit false

namespace ShmAlloc

variable {env : Answers} {w w' : World} {name : CStr} {size : Nat} {o : OpenOpts}

/-! ## The namespace -/

theorem World.link_link (w : World) (name : CStr) (a b : Option ShmObj) :
    (w.link name a).link name b = w.link name b := by
  simp only [link, World.mk.injEq, and_true]
  funext s
  by_cases hs : s = name
  · rw [if_pos hs, if_pos hs]
  · rw [if_neg hs, if_neg hs, if_neg hs]

/-- Unlinking leaves the namespace alone exactly if the name was not there. -/
theorem World.unlink_shm_eq_iff : (w.unlink name).shm = w.shm ↔ w.shm name = none := by
  refine ⟨fun h => ?_, fun h => ?_⟩
  · rw [← h]
    exact if_pos rfl
  · funext s
    by_cases hs : s = name
    · rw [hs, h]
      exact if_pos rfl
    · exact if_neg hs

/-! ## Creating and attaching

The code has one function for both, and decides by flag at each step, so what it does is sorted out
first by whether the flag is set. -/

/-- What is mapped by a call that attaches. -/
theorem openBacking_attach (env : Answers) (w : World) (name : CStr) (size : Nat)
    (hc : o.creating = false) : (openBacking env w name o size).2 = w := by
  rw [openBacking]
  split
  · rw [openPosix, hc]
    split
    · rfl
    · rw [if_neg Bool.false_ne_true]
      split <;> rfl
  · rw [openDax]
    split
    · rfl
    · split
      · split <;> rfl
      · rfl

/-- **A call that attaches** fails and leaves the world alone, or maps the size the file is opened
with and counts itself. -/
theorem mapRegion_attach (env : Answers) (w : World) (name : CStr) (size : Nat)
    (hc : o.creating = false) :
    (∃ e, mapRegion env w name o size = (.error e, w)) ∨
      ∃ r, r.size = size ∧ mapRegion env w name o size =
        (.ok r, w.setBytes o.backend name ((countHost r).mem (w.bytes o.backend name))) := by
  have hdiscard : discard w name o = w := if_neg fun h => by
    rw [hc] at h
    exact Bool.noConfusion h.2
  rw [mapRegion, hdiscard]
  split
  · exact .inl ⟨_, rfl⟩
  · split
    · exact .inl ⟨_, rfl⟩
    · rw [enterRegion, hc, if_neg Bool.false_ne_true]
      split
      · exact .inl ⟨_, rfl⟩
      · exact .inr ⟨_, rfl, rfl⟩

/-- **A call that creates** fails and discards the file, because the size is too small or there is
no mapping, or it maps the size and initialises the region. -/
theorem mapRegion_create (env : Answers) (w : World) (name : CStr) (size : Nat)
    (hc : o.creating = true) :
    (∃ e, mapRegion env w name o size = (.error e, discard w name o) ∧
        (size < 4096 ∨ ∃ e', env.mmap size = .error e')) ∨
      4096 ≤ size ∧ ∃ r map, env.mmap size = .ok map ∧ r.size = size ∧
        mapRegion env w name o size = (.ok r, w.setBytes o.backend name ((do
          regionInit r.size o.backend.code o.dirCap.toNat (some name) env.nsInode env.cgroupHash
          countHost r : Prog Unit).mem (w.bytes o.backend name))) := by
  rw [mapRegion]
  by_cases hs : size < 4096
  · rw [if_pos hs]
    exact .inl ⟨_, rfl, .inl hs⟩
  · rw [if_neg hs]
    cases hm : env.mmap size with
    | error e => exact .inl ⟨_, rfl, .inr ⟨e, rfl⟩⟩
    | ok map =>
      refine .inr ⟨Nat.le_of_not_lt hs, map.handle env.lockRc, map, rfl, rfl, ?_⟩
      show enterRegion env w name o (map.handle env.lockRc) = _
      rw [enterRegion, if_pos hc]

/-- **What the header is checked for**, in this order. -/
theorem val_checkHeader (env : Answers) (flags : UInt32) (m : Mem) :
    (checkHeader env flags).val m =
      if m.load 0 4 ≠ SHM_ALLOC_MAGIC_REGION ∨ m.load 4 4 ≠ SHM_ALLOC_VERSION then some ENOENT
      else if fingerprintDiffers flags SHM_OPEN_ENFORCE_NS (m.load 120 8) env.nsInode then
        some EPERM
      else if fingerprintDiffers flags SHM_OPEN_ENFORCE_CGROUP (m.load 128 8) env.cgroupHash then
        some EPERM
      else none := by
  rw [checkHeader, Prog.val_bind, Prog.val_bind]
  show Prog.val (if m.load 0 4 ≠ SHM_ALLOC_MAGIC_REGION ∨ m.load 4 4 ≠ SHM_ALLOC_VERSION then _
    else _) m = _
  split
  · rfl
  · rw [Prog.val_bind]
    show Prog.val (if fingerprintDiffers flags SHM_OPEN_ENFORCE_NS (m.load 120 8) env.nsInode = true
      then _ else _) m = _
    split
    · rfl
    · rw [Prog.val_bind]
      show Prog.val (if fingerprintDiffers flags SHM_OPEN_ENFORCE_CGROUP (m.load 128 8)
        env.cgroupHash = true then _ else _) m = _
      split <;> rfl

/-- The arguments are accepted and copied. -/
structure Accepted (env : Answers) (nameOrPath : Option CStr) (outRegion : Bool) (name : CStr) :
    Prop where
  name_eq : nameOrPath = some name
  outRegion : outRegion = true
  calloc : env.calloc = true
  strdup : env.strdup = true

/-- **A call** fails on its arguments and does nothing, or goes on to open the file. -/
theorem shmRegionOpen_cases (env : Answers) (w : World) (nameOrPath : Option CStr) (size : Nat)
    (opts : Option OpenOpts) (outRegion : Bool) :
    ((∀ name, ¬ Accepted env nameOrPath outRegion name) ∧
        ∃ e, shmRegionOpen env w nameOrPath size opts outRegion = (.error e, w)) ∨
      ∃ name, Accepted env nameOrPath outRegion name ∧
        shmRegionOpen env w nameOrPath size opts outRegion =
          openNamed env w name (opts.getD {}) size := by
  cases nameOrPath with
  | none => exact .inl ⟨fun name h => (by cases h.name_eq), _, rfl⟩
  | some name =>
    rw [shmRegionOpen]
    by_cases hout : outRegion = false
    · rw [if_pos hout]
      exact .inl ⟨fun name h => Bool.noConfusion (hout.symm.trans h.outRegion), _, rfl⟩
    rw [if_neg hout]
    by_cases hmem : env.calloc = false ∨ env.strdup = false
    · rw [if_pos hmem]
      refine .inl ⟨fun name h => ?_, _, rfl⟩
      rw [h.calloc, h.strdup] at hmem
      exact hmem.elim Bool.noConfusion Bool.noConfusion
    · rw [if_neg hmem]
      rw [not_or, Bool.not_eq_false, Bool.not_eq_false] at hmem
      exact .inr ⟨name, ⟨rfl, by simpa using hout, hmem.1, hmem.2⟩, rfl⟩

/-! ## Failed calls -/

/-- The call opens an existing object to create a region in it, and then fails. -/
structure Clobbers (env : Answers) (w : World) (name : CStr) (size : Nat) (o : OpenOpts) :
    Prop where
  creating : o.creating = true
  existed : w.shm name ≠ none
  opened : env.openErr = none
  fails : size < 4096 ∨ env.ftruncate ≠ none ∨ ∃ e, env.mmap size = .error e

/-- Opening an object to create a region in it. -/
theorem openBacking_create (env : Answers) (w : World) (name : CStr) (size : Nat)
    (hb : o.backend = .posix) (hc : o.creating = true) :
    (∃ e, env.openErr = some e ∧ openBacking env w name o size = (.error e, w)) ∨
      (∃ e, env.openErr = none ∧ env.ftruncate = some e ∧
        openBacking env w name o size = (.error e, w.unlink name)) ∨
      ∃ obj, env.openErr = none ∧ (4096 ≤ size → env.ftruncate = none) ∧
        openBacking env w name o size = (.ok size, w.link name (some obj)) := by
  rw [openBacking, hb, openPosix, hc]
  cases env.openErr with
  | some e => exact .inl ⟨e, rfl, rfl⟩
  | none =>
    show _ ∨ (∃ e, _ ∧ _ ∧ (if true = true then _ else _) = _) ∨ _
    rw [if_pos rfl]
    by_cases hs : 4096 ≤ size
    · rw [if_pos hs]
      cases env.ftruncate with
      | some e =>
        refine .inr (.inl ⟨e, rfl, rfl, ?_⟩)
        rw [World.unlink, World.unlink, ← World.link_link w name _ none]
      | none => exact .inr (.inr ⟨_, rfl, fun _ => rfl, rfl⟩)
    · rw [if_neg hs]
      exact .inr (.inr ⟨_, rfl, fun h => absurd h hs, rfl⟩)

/-- A call that creates and fails after opening the object unlinks the name. -/
theorem openNamed_create (env : Answers) (w : World) (name : CStr) (size : Nat)
    (hb : o.backend = .posix) (hc : o.creating = true) :
    (∃ e, env.openErr = some e ∧ openNamed env w name o size = (.error e, w)) ∨
      (∃ e, env.openErr = none ∧
        (size < 4096 ∨ env.ftruncate ≠ none ∨ ∃ e, env.mmap size = .error e) ∧
        openNamed env w name o size = (.error e, w.unlink name)) ∨
      ∃ r w', 4096 ≤ size ∧ env.ftruncate = none ∧ (∃ map, env.mmap size = .ok map) ∧
        openNamed env w name o size = (.ok r, w') := by
  rw [openNamed]
  rcases openBacking_create env w name size hb hc with
    ⟨e, h1, h2⟩ | ⟨e, h1, h2, h3⟩ | ⟨obj, h1, h2, h3⟩
  · rw [h2]
    exact .inl ⟨e, h1, rfl⟩
  · rw [h3]
    exact .inr (.inl ⟨e, h1, .inr (.inl (by simp [h2])), rfl⟩)
  · rw [h3]
    show (∃ e, _ ∧ mapRegion env (w.link name (some obj)) name o size = _) ∨ _
    have hdiscard : discard (w.link name (some obj)) name o = w.unlink name := by
      rw [discard, if_pos ⟨hb, hc⟩, World.unlink, World.link_link, World.unlink]
    rcases mapRegion_create env (w.link name (some obj)) name size hc with
      ⟨e, h4, h5⟩ | ⟨h4, r, map, h5, -, h6⟩
    · rw [hdiscard] at h4
      exact .inr (.inl ⟨e, h1, h5.imp id .inr, h4⟩)
    · exact .inr (.inr ⟨r, _, h4, h2 h4, ⟨map, h5⟩, h6⟩)

/-- A call that attaches and fails leaves the world alone. -/
theorem openNamed_attach (env : Answers) (w : World) (name : CStr) (size : Nat)
    (hc : o.creating = false) :
    (∃ e, openNamed env w name o size = (.error e, w)) ∨
      ∃ r w', openNamed env w name o size = (.ok r, w') := by
  have hw := openBacking_attach env w name size hc
  rw [openNamed]
  rcases hx : openBacking env w name o size with ⟨res, w'⟩
  rw [hx] at hw
  obtain rfl : w' = w := hw
  cases res with
  | error e => exact .inl ⟨e, rfl⟩
  | ok size' =>
    rcases mapRegion_attach env w' name size' hc with
      ⟨e, h⟩ | ⟨r, -, h⟩
    · exact .inl ⟨e, h⟩
    · exact .inr ⟨r, _, h⟩

/-- **A failed `shm_region_open` leaves the POSIX namespace alone**, objects and all, exactly if it
did not fail after opening an existing object to create a region in it. -/
theorem failed_open_keeps_names {nameOrPath : Option CStr} {opts : Option OpenOpts}
    {outRegion : Bool} (hb : (opts.getD {}).backend = .posix) :
    (∀ e, (shmRegionOpen env w nameOrPath size opts outRegion).1 = .error e →
        (shmRegionOpen env w nameOrPath size opts outRegion).2.shm = w.shm) ↔
      ¬ ∃ name, Accepted env nameOrPath outRegion name ∧
        Clobbers env w name size (opts.getD {}) := by
  rcases shmRegionOpen_cases env w nameOrPath size opts outRegion with
    ⟨hno, e, hx⟩ | ⟨name, hacc, hx⟩
  · rw [hx]
    exact ⟨fun _ ⟨name, h, _⟩ => hno name h, fun _ _ _ => rfl⟩
  rw [hx]
  have hname : ∀ s, Accepted env nameOrPath outRegion s → s = name := fun s h =>
    Option.some_inj.1 (h.name_eq.symm.trans hacc.name_eq)
  cases hc : (opts.getD {}).creating with
  | false =>
    refine ⟨fun _ ⟨s, _, h⟩ => Bool.noConfusion (hc.symm.trans h.creating), fun _ e he => ?_⟩
    rcases openNamed_attach env w name size hc with
      ⟨e', h⟩ | ⟨r, w', h⟩
    · rw [h]
    · rw [h] at he
      cases he
  | true =>
    rcases openNamed_create env w name size hb hc with
      ⟨e, h1, h2⟩ | ⟨e, h1, h2, h3⟩ | ⟨r, w', h1, h2, ⟨map, h3⟩, h4⟩
    · rw [h2]
      refine ⟨fun _ ⟨s, _, h⟩ => ?_, fun _ _ _ => rfl⟩
      rw [h.opened] at h1
      cases h1
    · -- the name is unlinked, whoever has created it
      rw [h3]
      refine ⟨fun h ⟨s, hs, hcl⟩ => ?_, fun h e' _ => World.unlink_shm_eq_iff.2 ?_⟩
      · rw [hname s hs] at hcl
        exact hcl.existed (World.unlink_shm_eq_iff.1 (h e rfl))
      · by_contra hex
        exact h ⟨name, hacc, hc, hex, h1, h2⟩
    · rw [h4]
      refine ⟨fun _ ⟨s, _, h⟩ => ?_, fun _ e he => by cases he⟩
      rcases h.fails with h | h | ⟨e, h⟩
      · omega
      · exact h h2
      · rw [h3] at h
        cases h

/-- A system that grants whatever it can. -/
def obliging : Answers where
  calloc := true
  strdup := true
  openErr := none
  newIno := 1
  ftruncate := none
  fstat := .ok 4096
  mmap := fun size =>
    if h : 4096 + size ≤ 2 ^ 64 then .ok ⟨4096, pageHandle.aligned, pageHandle.pos, h⟩
    else .error ENOMEM
  lockRc := .acquired
  nsInode := 0
  cgroupHash := 0

/-- The name of a region. -/
def poolName : CStr := ⟨[0x2F, 0x70], by decide⟩

/-- A system without shared memory. -/
def emptyWorld : World := ⟨fun _ => none, fun _ => zeros⟩

/-- A system on which the name and the device hold the bytes `m`. -/
def poolWorld (m : Mem) : World :=
  ⟨fun s => if s = poolName then some ⟨0, 4096, m⟩ else none, fun _ => m⟩

/-- A new region of no bytes is refused, and its name is gone again. -/
theorem failed_open_keeps_names_empty :
    (shmRegionOpen obliging emptyWorld (some poolName) 0 (some { flags := SHM_OPEN_CREATE })
      true).2.shm = emptyWorld.shm :=
  (failed_open_keeps_names rfl).2 (fun ⟨_, _, h⟩ => h.existed rfl) EINVAL rfl

/-- **Under the name of an existing region**, the same call removes that region. -/
theorem failed_open_keeps_names_fails :
    (shmRegionOpen obliging (poolWorld zeros) (some poolName) 0 (some { flags := SHM_OPEN_CREATE })
        true).1 = .error EINVAL ∧
      ((poolWorld zeros).shm poolName).isSome = true ∧
      ((shmRegionOpen obliging (poolWorld zeros) (some poolName) 0
        (some { flags := SHM_OPEN_CREATE }) true).2.shm poolName).isSome = false :=
  ⟨rfl, rfl, rfl⟩

/-! ## What a new region looks like -/

/-- The size a device is mapped with. -/
def daxSize (env : Answers) (size : Nat) : Nat :=
  if size < 4096 then
    match env.fstat with
    | .ok stSize => if 0 < stSize then stSize else 2 <<< 20
    | .error _ => 2 <<< 20
  else size

/-- The size of a new region: what was asked for, or what the device has. -/
def newSize (env : Answers) (o : OpenOpts) (size : Nat) : Nat :=
  match o.backend with
  | .posix => size
  | .dax => daxSize env size

theorem openDax_cases (env : Answers) (w : World) (size : Nat) :
    (∃ e, openDax env w size = (.error e, w)) ∨
      openDax env w size = (.ok (daxSize env size), w) := by
  rw [openDax]
  cases env.openErr with
  | some e => exact .inl ⟨e, rfl⟩
  | none =>
    refine .inr ?_
    show (if size < 4096 then _ else _) = _
    rw [daxSize]
    by_cases hs : size < 4096
    · rw [if_pos hs, if_pos hs]
      cases env.fstat <;> rfl
    · rw [if_neg hs, if_neg hs]

/-- What is written through a mapping is in the file. -/
theorem World.bytes_setBytes {backend : Backend} {m : Mem}
    (h : backend = .posix → w.shm name ≠ none) :
    (w.setBytes backend name m).bytes backend name = m := by
  cases backend with
  | posix =>
    obtain ⟨obj, hobj⟩ := Option.ne_none_iff_exists'.1 (h rfl)
    simp [setBytes, bytes, link, hobj]
  | dax => exact if_pos rfl

/-- **A call that creates and succeeds** has run `region_init` on a mapping of the new size. -/
theorem openNamed_created (hc : o.creating = true) {r : Region}
    (hx : openNamed env w name o size = (.ok r, w')) :
    r.size = newSize env o size ∧ ∃ m, w'.bytes o.backend name = (do
      regionInit r.size o.backend.code o.dirCap.toNat (some name) env.nsInode env.cgroupHash
      countHost r : Prog Unit).mem m := by
  have hmap : ∀ (w₁ : World) (s : Nat), (o.backend = .posix → w₁.shm name ≠ none) →
      mapRegion env w₁ name o s = (.ok r, w') → r.size = s ∧ ∃ m, w'.bytes o.backend name = (do
        regionInit r.size o.backend.code o.dirCap.toNat (some name) env.nsInode env.cgroupHash
        countHost r : Prog Unit).mem m := by
    intro w₁ s hex hmap
    rcases mapRegion_create env w₁ name s hc with
      ⟨e, h, -⟩ | ⟨-, r', map, -, hr', h⟩
    · rw [h] at hmap
      cases hmap
    · rw [h] at hmap
      cases hmap
      exact ⟨hr', _, World.bytes_setBytes hex⟩
  rw [openNamed] at hx
  cases hb : o.backend with
  | posix =>
    rw [newSize, hb]
    rcases openBacking_create env w name size hb hc with
      ⟨e, -, h⟩ | ⟨e, -, -, h⟩ | ⟨obj, -, -, h⟩
    · rw [h] at hx
      cases hx
    · rw [h] at hx
      cases hx
    · rw [h] at hx
      have := hmap (w.link name (some obj)) size (fun _ => by simp [World.link]) hx
      rwa [hb] at this
  | dax =>
    rw [newSize, hb]
    rw [openBacking, hb] at hx
    rcases openDax_cases env w size with ⟨e, h⟩ | h
    · rw [h] at hx
      cases hx
    · rw [h] at hx
      have := hmap w (daxSize env size) (fun h => by rw [hb] at h; cases h) hx
      rwa [hb] at this

/-- What counting a process does. -/
theorem exec_countHost_events (r : Region) (m : Mem) : Exec 200 (countHost r) m ()
    (lockEvents r ++ [.store 56 4 (m.load 56 4 + 1), .persist 56 4, .drain, .unlock]) :=
  exec_locked r (.load_bind rfl (by decide) (.emit_bind (.emit_bind (.emit_bind .emit))))

/-- What counting it out again does: nothing is counted below zero. -/
theorem exec_uncountHost_events (r : Region) (m : Mem) :
    0 < m.load 56 4 ∧ Exec 200 (uncountHost r) m ()
        (lockEvents r ++ [.store 56 4 (m.load 56 4 - 1), .persist 56 4, .drain, .unlock]) ∨
      m.load 56 4 = 0 ∧ Exec 200 (uncountHost r) m () (lockEvents r ++ [.unlock]) := by
  rcases Nat.eq_zero_or_pos (m.load 56 4) with hzero | hpos
  · refine .inr ⟨hzero, exec_locked r (.load_bind hzero (by decide) ?_)⟩
    show Exec 200 (if 0 > 0 then _ else _) m () _
    rw [if_neg (Nat.lt_irrefl 0)]
    exact .emit
  · refine .inl ⟨hpos, exec_locked r (.load_bind rfl (by decide) ?_)⟩
    show Exec 200 (if m.load 56 4 > 0 then _ else _) m () _
    rw [if_pos hpos]
    exact .emit_bind (.emit_bind (.emit_bind .emit))

/-- What `shm_region_open` adds to a new region. -/
theorem exec_countHost (r : Region) (m : Mem) :
    ∃ V, Exec 200 (countHost r) m () V ∧ ∀ x, Writes V x → 56 ≤ x ∧ x < 60 :=
  ⟨_, exec_countHost_events r m, fun x hx => by
    simpa [not_writes_lockEvents, Event.Touches] using hx⟩

/-- What `shm_region_close` does to a region. -/
theorem exec_uncountHost (r : Region) (m : Mem) :
    ∃ V, Exec 200 (uncountHost r) m () V ∧ ∀ x, Writes V x → 56 ≤ x ∧ x < 60 := by
  rcases exec_uncountHost_events r m with ⟨-, hx⟩ | ⟨-, hx⟩
  · exact ⟨_, hx, fun x hw => by simpa [not_writes_lockEvents, Event.Touches] using hw⟩
  · exact ⟨_, hx, fun x hw => by simp [not_writes_lockEvents, Event.Touches] at hw⟩

/-- The heap of a new region: header and directory fit, and behind them is one free block, with its
header inside the mapping, that ends where the region does. -/
structure OneBlock (size : Nat) (m : Mem) : Prop where
  region : m.load 64 8 = size
  dir : 200 ≤ m.load 72 8 ∧ m.load 72 8 + 96 * m.load 12 4 ≤ size
  head : m.load 88 8 = 1
  hdr : m.load 80 8 + 56 ≤ size
  magic : m.load (m.load 80 8) 4 = SHM_ALLOC_MAGIC_BLOCK
  free : m.load (m.load 80 8 + 16) 1 = 0
  covers : m.load 80 8 + m.load (m.load 80 8 + 40) 8 = size

/-- The fields of a new region. -/
structure CreatedFields (size dirCap : Nat) (m : Mem) : Prop where
  regionSize : m.load 64 8 = size
  dirOffset : m.load 72 8 = 200
  dirCapacity : m.load 12 4 = dirCap
  dataOffset : m.load 80 8 = 200 + 96 * dirCap
  freeList : m.load 88 8 = 1
  magic : m.load (200 + 96 * dirCap) 4 = SHM_ALLOC_MAGIC_BLOCK
  allocated : m.load (200 + 96 * dirCap + 16) 1 = 0
  total : m.load (200 + 96 * dirCap + 40) 8 = sub64 size (200 + 96 * dirCap)

/-- The header of the initial block, and the list. -/
theorem load_initialEvents {p t : Nat} (hp : 200 ≤ p) (ht : t < 2 ^ 64) (m : Mem) :
    (replay (initialEvents p t) m).load 88 8 = 1 ∧
      (replay (initialEvents p t) m).load p 4 = SHM_ALLOC_MAGIC_BLOCK ∧
      (replay (initialEvents p t) m).load (p + 16) 1 = 0 ∧
      (replay (initialEvents p t) m).load (p + 40) 8 = t := by
  have h4 : t % 256 ^ 8 = t := Nat.mod_eq_of_lt ht
  have h5 : SHM_ALLOC_MAGIC_BLOCK % 256 ^ 4 = SHM_ALLOC_MAGIC_BLOCK := by decide
  have h6 : 1 % 256 ^ 8 = 1 := rfl
  simp only [initialEvents, replay_cons, replay_nil, Event.act]
  refine ⟨?_, ?_, ?_, ?_⟩ <;>
    simp (disch := omega) only [Mem.load_store_same, Mem.load_store_of_disjoint, Nat.zero_mod, h4,
      h5, h6]

theorem createdFields_createEvents {dirCap : Nat} (hd : dirCap < 2 ^ 32) (hsize : size < 2 ^ 64)
    (backend nsInode cgroupHash : Nat) (name : Option CStr) (m : Mem) :
    CreatedFields size dirCap
      (replay (createEvents size dirCap backend nsInode cgroupHash name) m) := by
  have h1 : dirCap % 256 ^ 4 = dirCap := Nat.mod_eq_of_lt hd
  have h2 : size % 256 ^ 8 = size := Nat.mod_eq_of_lt hsize
  have h3 : (200 + 96 * dirCap) % 256 ^ 8 = 200 + 96 * dirCap := Nat.mod_eq_of_lt (by omega)
  have h4 : 200 % 256 ^ 8 = 200 := rfl
  -- the name and the initial block leave the header fields alone
  have hlow : ∀ {a n : Nat}, a + n ≤ 88 →
      (replay (createEvents size dirCap backend nsInode cgroupHash name) m).load a n
        = (replay (createHeader size dirCap backend nsInode cgroupHash) m).load a n :=
    fun ha => by
      rw [createEvents, replay_append, load_replay fun x hx => ?_]
      rcases writes_append.1 hx with hx | hx
      · have := writes_regionNameEvents hx
        omega
      · simp only [initialEvents, writes_cons, writes_append, not_writes_nil, Event.Touches,
          or_false, false_or] at hx
        omega
  have hhigh : ∃ m₁, replay (createEvents size dirCap backend nsInode cgroupHash name) m
      = replay (initialEvents (200 + 96 * dirCap) (sub64 size (200 + 96 * dirCap))) m₁ := by
    refine ⟨(Event.lockInit).act (replay (regionNameEvents name)
      (replay (createHeader size dirCap backend nsInode cgroupHash) m)), ?_⟩
    rw [createEvents, replay_append, replay_append, replay_cons, replay_append, replay_cons,
      replay_cons, replay_nil, Event.act_of_not_isWrite rfl, Event.act_of_not_isWrite rfl]
  obtain ⟨m₁, hm₁⟩ := hhigh
  obtain ⟨h5, h6, h7, h8⟩ := load_initialEvents (p := 200 + 96 * dirCap) (by omega)
    (sub64_lt size (200 + 96 * dirCap)) m₁
  rw [← hm₁] at h5 h6 h7 h8
  refine ⟨?_, ?_, ?_, ?_, h5, h6, h7, h8⟩ <;> rw [hlow (by omega)] <;>
    simp only [createHeader, replay_cons, replay_nil, Event.act] <;>
    simp (disch := omega) only [Mem.load_store_same, Mem.load_store_of_disjoint, h1, h2, h3, h4]

/-- Counting the process changes none of these. -/
theorem CreatedFields.of_writes {dirCap : Nat} {m : Mem} {V : List Event}
    (h : CreatedFields size dirCap m) (hV : ∀ x, Writes V x → 56 ≤ x ∧ x < 60) :
    CreatedFields size dirCap (replay V m) := by
  have hload : ∀ {a n : Nat}, (a + n ≤ 56 ∨ 60 ≤ a) → (replay V m).load a n = m.load a n :=
    fun ha => load_replay fun x hx => by
      have := hV x hx
      omega
  constructor <;> rw [hload (by omega)]
  exacts [h.regionSize, h.dirOffset, h.dirCapacity, h.dataOffset, h.freeList, h.magic, h.allocated,
    h.total]

/-- A new region is well formed exactly if there is room for a block header behind the directory. -/
theorem CreatedFields.oneBlock_iff {dirCap : Nat} {m : Mem} (h : CreatedFields size dirCap m)
    (hsize : size < 2 ^ 64) : OneBlock size m ↔ 256 + 96 * dirCap ≤ size := by
  refine ⟨fun hb => ?_, fun hfit => ?_⟩
  · have := hb.hdr
    rw [h.dataOffset] at this
    omega
  · have htotal := h.total
    rw [sub64_eq (by omega) hsize] at htotal
    refine ⟨h.regionSize, ?_, h.freeList, ?_, ?_, ?_, ?_⟩
    · rw [h.dirOffset, h.dirCapacity]
      omega
    · rw [h.dataOffset]
      omega
    · rw [h.dataOffset, h.magic]
    · rw [h.dataOffset, h.allocated]
    · rw [h.dataOffset, htotal]
      omega

/-- **A region that is created is well formed** exactly if there is room for the directory and the
header of a block. -/
theorem created_fits {nameOrPath : Option CStr} {opts : Option OpenOpts} {outRegion : Bool}
    {r : Region} (hc : (opts.getD {}).creating = true) (hname : nameOrPath = some name)
    (hx : shmRegionOpen env w nameOrPath size opts outRegion = (.ok r, w')) :
    OneBlock r.size (w'.bytes (opts.getD {}).backend name) ↔
      256 + 96 * (opts.getD {}).dirCap.toNat ≤ newSize env (opts.getD {}) size := by
  rcases shmRegionOpen_cases env w nameOrPath size opts outRegion with
    ⟨-, e, h⟩ | ⟨s, hacc, h⟩
  · rw [h] at hx
    cases hx
  obtain rfl : s = name := Option.some_inj.1 (hacc.name_eq.symm.trans hname)
  rw [h] at hx
  obtain ⟨hsize, m, hm⟩ := openNamed_created hc hx
  have hlt : r.size < 2 ^ 64 := by
    have h1 := r.fits
    have h2 := r.pos
    omega
  have hinit : Exec 200 (regionInit r.size _ _ _ _ _) m () _ :=
    exec_regionInit_of_lt (opts.getD {}).dirCap.toNat_lt m (opts.getD {}).backend.code env.nsInode
      env.cgroupHash (some s)
  obtain ⟨V, hcount, hV⟩ := exec_countHost r (replay (createEvents r.size
    (opts.getD {}).dirCap.toNat (opts.getD {}).backend.code env.nsInode env.cgroupHash (some s)) m)
  rw [← hsize, hm, (hinit.seq hcount).mem, replay_append]
  exact ((createdFields_createEvents (opts.getD {}).dirCap.toNat_lt hlt _ _ _ _ _).of_writes
    hV).oneBlock_iff hlt

/-- A region of 16 pages has room for the default directory of 256 entries. -/
theorem created_fits_pages : OneBlock 65536
    ((shmRegionOpen obliging emptyWorld (some poolName) 65536 (some { flags := SHM_OPEN_CREATE })
      true).2.bytes .posix poolName) :=
  (created_fits
    (r := (⟨4096, by decide, by decide, by decide⟩ : Mapping 65536).handle .acquired) rfl
    rfl (Prod.ext rfl rfl)).2 (by decide)

/-- **A region of 4100 bytes has not for 41 entries**, but it is created: the mapping, which ends
with its second page, has room for what is stored behind the region, so the call returns a handle.
The directory ends, and the heap starts, 36 bytes behind the region, and the heap claims almost the
whole address space. -/
theorem created_fits_fails :
    (shmRegionOpen obliging emptyWorld (some poolName) 4100
        (some { flags := SHM_OPEN_CREATE, dirCapacity := 41 }) true).1.isOk = true ∧
      ((shmRegionOpen obliging emptyWorld (some poolName) 4100
        (some { flags := SHM_OPEN_CREATE, dirCapacity := 41 }) true).2.bytes .posix poolName).load
          80 8 = 4100 + 36 ∧
      ((shmRegionOpen obliging emptyWorld (some poolName) 4100
        (some { flags := SHM_OPEN_CREATE, dirCapacity := 41 }) true).2.bytes .posix poolName).load
          (4100 + 36 + 40) 8 = 2 ^ 64 - 36 := by
  decide +kernel

/-! ## One extent for all handles

A handle takes its size from the file or from the caller and never looks at `region_size`, so that
two handles agree is a matter of what each was opened with. -/

/-- What makes a call map the size the region has: the object has it, or the device has it and the
caller asks for it or for too little to be taken at his word. -/
def MapsRegionSize (env : Answers) (o : OpenOpts) (size regionSize : Nat) : Prop :=
  match o.backend with
  | .posix => env.fstat = .ok regionSize
  | .dax => 4096 ≤ size ∧ size = regionSize ∨ size < 4096 ∧
    (env.fstat = .ok regionSize ∧ 0 < regionSize ∨
      (∀ n, env.fstat = .ok n → n = 0) ∧ regionSize = 2 <<< 20)

theorem daxSize_eq_iff {regionSize : Nat} : daxSize env size = regionSize ↔
    4096 ≤ size ∧ size = regionSize ∨ size < 4096 ∧
      (env.fstat = .ok regionSize ∧ 0 < regionSize ∨
        (∀ n, env.fstat = .ok n → n = 0) ∧ regionSize = 2 <<< 20) := by
  rw [daxSize]
  by_cases hs : size < 4096
  · rw [if_pos hs]
    cases env.fstat with
    | error e =>
      refine ⟨fun h => .inr ⟨hs, .inr ⟨fun n hn => (by cases hn), h.symm⟩⟩, ?_⟩
      rintro (⟨h, -⟩ | ⟨-, ⟨h, -⟩ | ⟨-, h⟩⟩)
      · omega
      · cases h
      · exact h.symm
    | ok n =>
      by_cases hn : 0 < n
      · show (if 0 < n then n else 2 <<< 20) = regionSize ↔ _
        rw [if_pos hn]
        refine ⟨fun h => .inr ⟨hs, .inl ⟨by rw [h], h ▸ hn⟩⟩, ?_⟩
        rintro (⟨h, -⟩ | ⟨-, ⟨h, -⟩ | ⟨h, -⟩⟩)
        · omega
        · cases h
          rfl
        · have := h n rfl
          omega
      · show (if 0 < n then n else 2 <<< 20) = regionSize ↔ _
        rw [if_neg hn]
        refine ⟨fun h => .inr ⟨hs, .inr ⟨fun k hk => (by cases hk; omega), h.symm⟩⟩, ?_⟩
        rintro (⟨h, -⟩ | ⟨-, ⟨h, h'⟩ | ⟨-, h⟩⟩)
        · omega
        · cases h
          omega
        · exact h.symm
  · rw [if_neg hs]
    exact ⟨fun h => .inl ⟨by omega, h⟩, fun h => h.elim And.right fun h' => absurd h'.1 hs⟩

/-- **A call that attaches and succeeds** maps the region's size exactly if one of these holds. -/
theorem openNamed_attached (hc : o.creating = false) {r : Region}
    (hx : openNamed env w name o size = (.ok r, w')) (regionSize : Nat) :
    r.size = regionSize ↔ MapsRegionSize env o size regionSize := by
  have hmap : ∀ s, mapRegion env w name o s = (.ok r, w') → r.size = s := fun s h => by
    rcases mapRegion_attach env w name s hc with
      ⟨e, h'⟩ | ⟨r', hr', h'⟩
    · rw [h'] at h
      cases h
    · rw [h'] at h
      cases h
      exact hr'
  rw [openNamed, openBacking] at hx
  rw [MapsRegionSize]
  cases hb : o.backend with
  | dax =>
    rw [hb] at hx
    rcases openDax_cases env w size with ⟨e, h⟩ | h
    · rw [h] at hx
      cases hx
    · rw [h] at hx
      rw [hmap _ hx]
      exact daxSize_eq_iff
  | posix =>
    rw [hb] at hx
    have hcases : (∃ e, openPosix env w name false size = (.error e, w)) ∨
        ∃ n, env.fstat = .ok n ∧ openPosix env w name false size = (.ok n, w) := by
      rw [openPosix]
      cases env.openErr with
      | some e => exact .inl ⟨e, rfl⟩
      | none =>
        cases w.shm name with
        | none => exact .inl ⟨_, rfl⟩
        | some obj =>
          cases env.fstat with
          | error e => exact .inl ⟨_, rfl⟩
          | ok n => exact .inr ⟨n, rfl, rfl⟩
    rw [hc] at hx
    rcases hcases with ⟨e, h⟩ | ⟨n, hn, h⟩
    · rw [h] at hx
      cases hx
    · rw [h] at hx
      rw [hmap _ hx, hn, Except.ok.injEq]

/-- The states of a region from its creation on: users call the mutators and write into payloads,
and processes attach and detach. -/
inductive Lifetime (G : Geometry) : Mem → Prop
  | create (m : Mem) (backend nsInode cgroupHash : Nat) (name : Option CStr) (r : Region) :
    Lifetime G ((do
      regionInit G.size backend G.dirCap name nsInode cgroupHash
      countHost r : Prog Unit).mem m)
  | step {m m' : Mem} (h : Lifetime G m) (hs : Step G AnyCall m m') : Lifetime G m'
  | attach {m : Mem} (h : Lifetime G m) (r : Region) : Lifetime G ((countHost r).mem m)
  | detach {m : Mem} (h : Lifetime G m) (r : Region) : Lifetime G ((uncountHost r).mem m)

/-- The number of processes is no part of the region invariant. -/
theorem Inv.of_hostCount_writes {G : Geometry} {m : Mem} {bs : List Blk} {V : List Event}
    (h : Inv G m bs) (hV : ∀ x, Writes V x → 56 ≤ x ∧ x < 60) : Inv G (replay V m) bs := by
  have hload : ∀ {a n : Nat}, (a + n ≤ 56 ∨ 60 ≤ a) → (replay V m).load a n = m.load a n :=
    fun ha => load_replay fun x hx => by
      have := hV x hx
      omega
  have hent : ∀ i, entryAt (replay V m) i = entryAt m i := fun i =>
    entryAt_replay fun x hx hs => by
      have h1 := hV x hx
      have h2 := hs.1
      have h3 := slotAddr_ge i
      omega
  refine ⟨⟨?_, ?_, ?_, ?_⟩, ⟨h.heap.of_header_writes fun x hx => ?_, h.heap.coalesced⟩, ?_, ?_, ?_⟩
  · rw [hload (by omega), h.layout.dirCapacity]
  · rw [hload (by omega), h.layout.regionSize]
  · rw [hload (by omega), h.layout.dirOffset]
  · rw [hload (by omega), h.layout.dataOffset]
  · have := hV x hx
    omega
  · rw [hload (by omega), h.used]
  · rw [hload (by omega), h.count]
  · rw [funext hent]
    exact h.dir

/-- Counting a process keeps the region invariant. -/
theorem Inv.countHost {G : Geometry} {m : Mem} {bs : List Blk} (h : Inv G m bs) (r : Region) :
    Inv G ((countHost r).mem m) bs := by
  obtain ⟨V, hx, hV⟩ := exec_countHost r m
  rw [hx.mem]
  exact h.of_hostCount_writes hV

/-- So does counting it out. -/
theorem Inv.uncountHost {G : Geometry} {m : Mem} {bs : List Blk} (h : Inv G m bs) (r : Region) :
    Inv G ((uncountHost r).mem m) bs := by
  obtain ⟨V, hx, hV⟩ := exec_uncountHost r m
  rw [hx.mem]
  exact h.of_hostCount_writes hV

theorem Lifetime.inv {G : Geometry} {m : Mem} (h : Lifetime G m) : ∃ bs, Inv G m bs := by
  induction h with
  | create m backend nsInode cgroupHash name r =>
    rw [Prog.mem_bind, (exec_regionInit G m backend nsInode cgroupHash name).mem]
    exact ⟨_, (fullInv_init m).toInv.countHost r⟩
  | step _ hs ih =>
    obtain ⟨bs, hI⟩ := ih
    exact hs.inv hI
  | attach _ r ih =>
    obtain ⟨bs, hI⟩ := ih
    exact ⟨bs, hI.countHost r⟩
  | detach _ r ih =>
    obtain ⟨bs, hI⟩ := ih
    exact ⟨bs, hI.uncountHost r⟩

/-- What a handle shares with all others of its size: the heap size, the growth decision, the total
in the statistics, and that every block is inside the mapping. -/
structure SharesExtent (G : Geometry) (m : Mem) (r : Region) : Prop where
  heapSize : (shmHeapSize r).val m = G.heapSize
  grows : ∀ r' : Region, r'.size = G.size → growInPlace r = growInPlace r'
  total : ∀ s, (shmPoolStats (some r)).val m = some s → s.totalBytes = G.heapSize
  inside : ∀ b ∈ blocks G m, G.base + b.off + b.total ≤ r.size

theorem sharesExtent {G : Geometry} {m : Mem} {bs : List Blk} (h : Inv G m bs) {r : Region}
    (hr : r.size = G.size) : SharesExtent G m r := by
  have hoff : (Prog.get shmRh RegionHdr.dataOffset).val m = G.base := h.layout.dataOffset
  have hheap : sub64 r.size G.base = G.heapSize := by
    have h1 := G.size_lt
    have h2 := G.size_eq
    rw [hr, sub64_eq (by omega) h1]
    omega
  refine ⟨?_, fun r' hr' => ?_, fun s hs => ?_, fun b hb => ?_⟩
  · rw [shmHeapSize, Prog.val_bind, hoff, Prog.val_pure, hheap]
  · funext b t
    rw [growInPlace, growInPlace, shmHeapSize, shmHeapSize, hr, hr']
  · rw [shmPoolStats, Prog.val_bind, hoff, hheap] at hs
    simp only [Prog.val_bind, Prog.val_pure, Option.some.injEq] at hs
    rw [← hs]
  · rw [h.heap.toRep.blocks_eq] at hb
    have h1 := h.heap.bounds hb
    have h2 := G.size_eq
    omega

/-- **Handles agree on the extent of a region** exactly as far as they map its size: a successful
call that attaches returns a handle of the size in the header if and only if the object or device
says that size, or the caller does; and then, as long as the region lives, the handle shares heap
size, growth decisions and statistics with every other such handle, and every block is inside its
mapping. -/
theorem handles_agree {nameOrPath : Option CStr} {opts : Option OpenOpts} {outRegion : Bool}
    {r : Region} (hc : (opts.getD {}).creating = false) (hname : nameOrPath = some name)
    (hx : shmRegionOpen env w nameOrPath size opts outRegion = (.ok r, w')) :
    (r.size = (w.bytes (opts.getD {}).backend name).load 64 8 ↔
        MapsRegionSize env (opts.getD {}) size ((w.bytes (opts.getD {}).backend name).load 64 8)) ∧
      ∀ G, Lifetime G (w.bytes (opts.getD {}).backend name) →
        MapsRegionSize env (opts.getD {}) size G.size → ∀ m', Lifetime G m' →
          SharesExtent G m' r := by
  rcases shmRegionOpen_cases env w nameOrPath size opts outRegion with
    ⟨-, e, h⟩ | ⟨s, hacc, h⟩
  · rw [h] at hx
    cases hx
  obtain rfl : s = name := Option.some_inj.1 (hacc.name_eq.symm.trans hname)
  rw [h] at hx
  refine ⟨openNamed_attached hc hx _, fun G _ hmaps m' hlife => ?_⟩
  obtain ⟨bs, hI⟩ := hlife.inv
  exact sharesExtent hI ((openNamed_attached hc hx _).2 hmaps)

/-- A region of one page, just created. -/
def createdPage : Mem := (do
  regionInit 4096 0 2 none 0 0
  countHost pageHandle : Prog Unit).mem zeros

/-- A process that attaches to it gets the extent everybody has. -/
theorem handles_agree_page : ∃ r,
    (shmRegionOpen obliging (poolWorld createdPage) (some poolName) 0 none true).1 = .ok r ∧
      SharesExtent pageGeometry createdPage r := by
  have hlife : Lifetime pageGeometry createdPage := .create zeros 0 0 0 none pageHandle
  have hok : (shmRegionOpen obliging (poolWorld createdPage) (some poolName) 0 none true).1.isOk
      = true := by decide +kernel
  cases hr : (shmRegionOpen obliging (poolWorld createdPage) (some poolName) 0 none true).1 with
  | error e =>
    rw [hr] at hok
    cases hok
  | ok r =>
    have hname : some poolName = some poolName := rfl
    exact ⟨r, rfl, (handles_agree rfl hname (Prod.ext hr rfl)).2 pageGeometry hlife rfl createdPage
      hlife⟩

/-- **The caller's size for a device, and the size of an object that has grown**, are taken
as they are. -/
theorem handles_agree_fails :
    createdPage.load 64 8 = 4096 ∧
      (shmRegionOpen obliging (poolWorld createdPage) (some poolName) 8192
        (some { backend := .dax }) true).1.toOption.map Region.size = some 8192 ∧
      (shmRegionOpen { obliging with fstat := .ok 8192 } (poolWorld createdPage) (some poolName) 0
        none true).1.toOption.map Region.size = some 8192 := by
  decide +kernel

end ShmAlloc
