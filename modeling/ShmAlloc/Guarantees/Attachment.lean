import ShmAlloc.Guarantees.Fingerprint
import ShmAlloc.Guarantees.Refinement

/-!
# The life of a region

Processes attach to a region and detach from it while others make calls.  `host_count` is the number
of those attached, and nothing else changes: the objects stay where they are, also when the last
process has detached and another attaches later, and as long as the region lives nobody who attaches
is told that there is no region.

## What is here

* `Intact`: the memory of the region holds a store, and its header is what whoever attaches looks
  for.
* `Intact.val_checkHeader`: the header check looks at the fingerprints of namespace and control
  group, and nothing else can turn anybody away.
* `openNamed_attach_cases`: a call that attaches fails and does nothing, or counts the process.
* `Life`: **the life of a region.**  It is created; then processes attach or are refused, detach,
  make calls and write; and things happen elsewhere in the world.  An open that may create under the
  name of the region is not among these steps, since one that fails may take the name away.
* `region_lifetime`: **while fewer than 2^32 processes are attached, `host_count` is their number,
  the memory holds the store that the calls have made, and whoever attaches finds it.**

The proof is an invariant of `Life` (`Alive`), with one lemma for each kind of step.  Counting
writes 4 bytes of the header, and a call writes none of the header fields that are checked, so the
two do not get in each other's way.
-/

set_option autoImplicit false

namespace ShmAlloc

variable {G : Geometry} {m : Mem} {bs : List Blk} {env : Answers} {w w' : World} {name : CStr}
  {size : Nat} {o : OpenOpts} {backend : Backend}

/-! ## Counting -/

/-- `host_count`. -/
def hostCountOf (m : Mem) : Nat := m.load 56 4

theorem hostCountOf_countHost {r : Region} (h : hostCountOf m + 1 < 2 ^ 32) :
    hostCountOf ((countHost r).mem m) = hostCountOf m + 1 := by
  rw [(exec_countHost_events r m).mem, replay_locked, hostCountOf]
  simp only [replay_cons, replay_nil, Event.act]
  exact (Mem.load_store_same ..).trans (Nat.mod_eq_of_lt h)

theorem hostCountOf_uncountHost {r : Region} : hostCountOf ((uncountHost r).mem m)
    = hostCountOf m - 1 := by
  rcases exec_uncountHost_events r m with ⟨-, hx⟩ | ⟨hzero, hx⟩
  · have hlt : m.load 56 4 < 256 ^ 4 := Mem.load_lt m 56 4
    rw [hx.mem, replay_locked, hostCountOf]
    simp only [replay_cons, replay_nil, Event.act]
    rw [Mem.load_store_same, Nat.mod_eq_of_lt (Nat.lt_of_le_of_lt (Nat.sub_le _ _) hlt),
      hostCountOf]
  · rw [hx.mem, replay_locked]
    show m.load 56 4 = m.load 56 4 - 1
    rw [hzero]

theorem exec_uncountHost_count (r : Region) (m : Mem) :
    ∃ V, Exec 200 (uncountHost r) m () V ∧ (∀ x, Writes V x → 56 ≤ x ∧ x < 60) ∧
      hostCountOf (replay V m) = hostCountOf m - 1 := by
  obtain ⟨V, hx, hV⟩ := exec_uncountHost r m
  exact ⟨V, hx, hV, hx.mem ▸ hostCountOf_uncountHost⟩

/-! ## What nothing changes -/

/-- **The region is intact**: its memory holds a store, and its header is what whoever attaches
looks for, with the fingerprints of the creator. -/
structure Intact (G : Geometry) (env₀ : Answers) (m : Mem) : Prop where
  holds : HoldsStore G m
  magic : m.load 0 4 = SHM_ALLOC_MAGIC_REGION
  version : m.load 4 4 = SHM_ALLOC_VERSION
  nsInode : m.load 120 8 = env₀.nsInode % 2 ^ 64
  cgroupHash : m.load 128 8 = env₀.cgroupHash % 2 ^ 64

namespace Intact

variable {env₀ : Answers}

/-- What leaves the fixed part of the header alone. -/
theorem of_header (h : Intact G env₀ m) {m' : Mem} (hs : HoldsStore G m')
    (hx : ∀ x, x < 56 ∨ 120 ≤ x ∧ x < 200 → m' x = m x) : Intact G env₀ m' := by
  have hload : ∀ {a n : Nat}, (a + n ≤ 56 ∨ 120 ≤ a ∧ a + n ≤ 200) → m'.load a n = m.load a n :=
    fun ha => Mem.load_congr fun i hi => hx _ (by omega)
  refine ⟨hs, ?_, ?_, ?_, ?_⟩
  · rw [hload (by decide), h.magic]
  · rw [hload (by decide), h.version]
  · rw [hload (by decide), h.nsInode]
  · rw [hload (by decide), h.cgroupHash]

/-- **Counting a process** changes neither header nor store. -/
theorem of_hostCount_writes (h : Intact G env₀ m) {V : List Event}
    (hV : ∀ x, Writes V x → 56 ≤ x ∧ x < 60) :
    Intact G env₀ (replay V m) ∧ storeOf G (replay V m) = storeOf G m := by
  have hD := G.base_ge
  have hbyte : ∀ x, x < 56 ∨ 60 ≤ x → replay V m x = m x := fun x hx =>
    replay_of_not_writes (fun hw => by
      have := hV x hw
      omega) m
  have hent : ∀ i, entryAt (replay V m) i = entryAt m i := fun i =>
    entryAt_congr fun x h1 _ => hbyte x (.inr (by
      have := slotAddr_ge i
      omega))
  have hnames : ∀ i, m.Agree (replay V m) (slotAddr i + 8) (slotAddr i + 56) := fun i x h1 _ =>
    hbyte x (.inr (by
      have := slotAddr_ge i
      omega))
  have hnext : nextIdOf (replay V m) = nextIdOf m :=
    Mem.load_congr fun i hi => hbyte _ (.inr (by omega))
  have hobj : ∀ i, objOf G (replay V m) i = objOf G m i := fun i => by
    have hdata : dataOf G (replay V m) i = dataOf G m i := by
      rw [dataOf, dataOf, hent]
      exact List.map_congr_left fun k _ => hbyte _ (.inr (by omega))
    rw [objOf, objOf, hdata, nameOf_congr (hnames i), hent]
  obtain ⟨⟨bs, hI⟩, hroom, hnamed⟩ := h.holds
  have hI' : Inv G (replay V m) bs := hI.toInv.of_hostCount_writes hV
  refine ⟨h.of_header ⟨⟨bs, hI', ?_⟩, fun i hi ha => ?_, fun i hi ha => ?_⟩
    fun x hx => hbyte x (by omega), ?_⟩
  · rw [hnext]
    exact hI.ids.congr fun i _ => hent i
  · rw [hent] at ha ⊢
    obtain ⟨pre, b, post, rfl, hh⟩ := hI.holds hi ha
    rw [hI'.blkOfSlot_eq (b := b) (by simp) (by rw [hent]; exact hh.mirrors.off),
      ← hI.toInv.blkOfSlot_eq (b := b) (by simp) hh.mirrors.off]
    exact hroom i hi ha
  · obtain ⟨s, hs⟩ := hnamed i hi (by rwa [hent] at ha)
    exact ⟨s, hs.congr (hnames i)⟩
  · refine Registry.ext hnext (funext fun objId => ?_)
    show (slotOf G (replay V m) objId).map _ = (slotOf G m objId).map _
    rw [slotOf, slotOf, funext hobj]
    simp only [hent]

/-- **Neither does a call**, but for the store. -/
theorem call (h : Intact G env₀ m) {c : LockedCall} (hc : Admissible G m c) :
    Intact G env₀ (c.prog.mem m) ∧ hostCountOf (c.prog.mem m) = hostCountOf m := by
  have hbyte : ∀ x, x < 88 ∨ 120 ≤ x ∧ x < 200 → c.prog.mem m x = m x := fun x hx => by
    rcases c.mutates_or_quiet with ⟨d, rfl⟩ | ⟨-, hquiet⟩
    · obtain ⟨bs, hI⟩ := h.holds.inv
      obtain ⟨rc, W, bs', hrun, hex⟩ := callRun hI.toInv hc.1
      show d.prog.mem m x = m x
      rw [hex.mem]
      exact replay_of_not_writes (hrun.not_writes_header hI.toInv hx) m
    · rw [hquiet.mem]
  exact ⟨h.of_header (h.holds.call hc) fun x hx => hbyte x (by omega),
    Mem.load_congr fun i hi => hbyte _ (.inl (by omega))⟩

/-- And neither does a write to a payload. -/
theorem write (h : Intact G env₀ m) {i k : Nat} (hi : i < G.dirCap)
    (ha : (entryAt m i).alive = true) (hk : k < (entryAt m i).used) (v : UInt8) :
    Intact G env₀ (m.store (G.base + (entryAt m i).off + k) 1 v.toNat) ∧
      hostCountOf (m.store (G.base + (entryAt m i).off + k) 1 v.toNat) = hostCountOf m := by
  have hD := G.base_ge
  have hbyte : ∀ x, x < 200 → m.store (G.base + (entryAt m i).off + k) 1 v.toNat x = m x :=
    fun x hx => Mem.store_of_outside (.inl (by omega))
  exact ⟨h.of_header (h.holds.write hi ha hk v) fun x hx => hbyte x (by omega),
    Mem.load_congr fun j hj => hbyte _ (by omega)⟩

/-- **The header check** looks at the fingerprints, and nothing else can turn anybody away. -/
theorem val_checkHeader (h : Intact G env₀ m) (env : Answers) (flags : UInt32) :
    (checkHeader env flags).val m =
      if fingerprintDiffers flags SHM_OPEN_ENFORCE_NS (env₀.nsInode % 2 ^ 64) env.nsInode then
        some EPERM
      else if fingerprintDiffers flags SHM_OPEN_ENFORCE_CGROUP (env₀.cgroupHash % 2 ^ 64)
          env.cgroupHash then some EPERM
      else none := by
  rw [ShmAlloc.val_checkHeader, if_neg, h.nsInode, h.cgroupHash]
  rintro (hne | hne)
  · exact hne h.magic
  · exact hne h.version

end Intact

/-- A new region is intact. -/
theorem intact_init (env₀ : Answers) (backend : Nat) (name : Option CStr) (m : Mem) :
    Intact G env₀
      ((regionInit G.size backend G.dirCap name env₀.nsInode env₀.cgroupHash).mem m) := by
  have hreach : Reach G NoWrap _ := .init m backend env₀.nsInode env₀.cgroupHash name
  refine ⟨hreach.holdsStore, ?_, ?_, ?_, ?_⟩ <;>
    rw [(exec_regionInit G m backend env₀.nsInode env₀.cgroupHash name).mem, load_init (by omega),
      headerEvents] <;>
    simp only [replay_cons, replay_nil, Event.act] <;>
    simp (disch := omega) only [Mem.load_store_same, Mem.load_store_of_disjoint] <;>
    rfl

/-! ## Opening and closing

`shm_region_open` without `SHM_OPEN_CREATE` leaves the world as it was unless it succeeds, and then
changes the one word that counts processes. -/

/-- A name stays linked when its bytes change. -/
theorem World.linked_setBytes (h : backend = .posix → w.shm name ≠ none) (m : Mem) :
    backend = .posix → (w.setBytes backend name m).shm name ≠ none := by
  rintro rfl
  obtain ⟨obj, hobj⟩ := Option.ne_none_iff_exists'.1 (h rfl)
  simp [setBytes, link, hobj]

/-- A region that has been created has its name. -/
theorem openNamed_linked (hc : o.creating = true) {r : Region}
    (hx : openNamed env w name o size = (.ok r, w')) : o.backend = .posix → w'.shm name ≠ none := by
  intro hb
  rw [openNamed] at hx
  rcases openBacking_create env w name size hb hc with
    ⟨e, -, h⟩ | ⟨e, -, -, h⟩ | ⟨obj, -, -, h⟩
  · rw [h] at hx
    cases hx
  · rw [h] at hx
    cases hx
  · rw [h] at hx
    have hx : mapRegion env (w.link name (some obj)) name o size = (.ok r, w') := hx
    rcases mapRegion_create env (w.link name (some obj)) name size hc with
      ⟨e, h, -⟩ | ⟨-, r', map, -, -, h⟩
    · rw [h] at hx
      cases hx
    · rw [h] at hx
      cases hx
      rw [hb]
      exact World.linked_setBytes (fun _ => by simp [World.link]) _ rfl

/-- **A call that attaches** fails and does nothing, or counts the process. -/
theorem openNamed_attach_cases (hc : o.creating = false) :
    (∃ e, openNamed env w name o size = (.error e, w)) ∨
      ∃ r, openNamed env w name o size =
        (.ok r, w.setBytes o.backend name ((countHost r).mem (w.bytes o.backend name))) := by
  have hw := openBacking_attach env w name size hc
  rw [openNamed]
  rcases hx : openBacking env w name o size with ⟨res, w'⟩
  rw [hx] at hw
  obtain rfl : w' = w := hw
  cases res with
  | error e => exact .inl ⟨e, rfl⟩
  | ok size' =>
    rcases mapRegion_attach env w' name size' hc with hfail | ⟨r, -, h⟩
    · exact .inl hfail
    · exact .inr ⟨r, h⟩

/-- **A call that does not create and fails** leaves the world as it was. -/
theorem shmRegionOpen_attach_fails {nameOrPath : Option CStr} {opts : Option OpenOpts}
    {outRegion : Bool} {e : Errno} (hc : (opts.getD {}).creating = false)
    (hx : shmRegionOpen env w nameOrPath size opts outRegion = (.error e, w')) : w' = w := by
  rcases shmRegionOpen_cases env w nameOrPath size opts outRegion with
    ⟨-, e', hopen⟩ | ⟨s, -, hopen⟩
  · rw [hopen] at hx
    exact (Prod.mk.inj hx).2.symm
  · rw [hopen] at hx
    have hcases : (∃ e', openNamed env w s (opts.getD {}) size = (.error e', w)) ∨ _ :=
      openNamed_attach_cases hc
    rcases hcases with ⟨e', h⟩ | ⟨r, h⟩
    · rw [h] at hx
      exact (Prod.mk.inj hx).2.symm
    · rw [h] at hx
      cases hx

/-! ## The life of a region

The region is what its name leads to.  Any step elsewhere in the world is allowed that leaves that
alone. -/

/-- **The life of a region** that was created with the answers `env₀`, up to the world `w`: how many
processes are attached, the calls that have been made, the earliest first, and what they were told.
The calls are `Admissible` ones.  Nobody opens the name to create a region under it: such a call
initialises the region again or, when it fails, may unlink the name or cut the object to size. -/
inductive Life (G : Geometry) (backend : Backend) (name : CStr) (env₀ : Answers) :
    World → Nat → List (LockedCall × Reply) → Prop
  /-- A process creates the region. -/
  | create {w w' : World} {size : Nat} {o : OpenOpts} {r : Region} (hc : o.creating = true)
      (hb : o.backend = backend) (hcap : o.dirCap.toNat = G.dirCap) (hr : r.size = G.size)
      (hx : shmRegionOpen env₀ w (some name) size (some o) true = (.ok r, w')) :
    Life G backend name env₀ w' 1 []
  /-- Another one attaches. -/
  | attach {w w' : World} {hosts size : Nat} {log : List (LockedCall × Reply)} {env : Answers}
      {o : OpenOpts} {r : Region} (h : Life G backend name env₀ w hosts log)
      (hlt : hosts + 1 < 2 ^ 32) (hc : o.creating = false) (hb : o.backend = backend)
      (hx : shmRegionOpen env w (some name) size (some o) true = (.ok r, w')) :
    Life G backend name env₀ w' (hosts + 1) log
  /-- One of them detaches. -/
  | detach {w : World} {hosts : Nat} {log : List (LockedCall × Reply)} (r : Region)
      (h : Life G backend name env₀ w (hosts + 1) log) :
    Life G backend name env₀ (shmRegionClose w backend name (some r) false) hosts log
  /-- Some user makes a call. -/
  | call {w : World} {hosts : Nat} {log : List (LockedCall × Reply)} {c : LockedCall}
      (h : Life G backend name env₀ w hosts log)
      (hc : Admissible G (w.bytes backend name) c) :
    Life G backend name env₀ (w.setBytes backend name (c.prog.mem (w.bytes backend name))) hosts
      (log ++ [(c, replyOf c.prog (w.bytes backend name))])
  /-- Some user writes the `k`-th payload byte of the object in slot `i`. -/
  | write {w : World} {hosts : Nat} {log : List (LockedCall × Reply)} {m : Mem}
      (h : Life G backend name env₀ w hosts log) (hm : w.bytes backend name = m) (i k : Nat)
      (v : UInt8) (hi : i < G.dirCap) (ha : (entryAt m i).alive = true)
      (hk : k < (entryAt m i).used) :
    Life G backend name env₀
      (w.setBytes backend name (m.store (G.base + (entryAt m i).off + k) 1 v.toNat)) hosts log
  /-- A process that would attach, here or elsewhere, is turned away. -/
  | refused {w w' : World} {hosts size : Nat} {log : List (LockedCall × Reply)} {env : Answers}
      {nameOrPath : Option CStr} {opts : Option OpenOpts} {outRegion : Bool} {e : Errno}
      (h : Life G backend name env₀ w hosts log) (hc : (opts.getD {}).creating = false)
      (hx : shmRegionOpen env w nameOrPath size opts outRegion = (.error e, w')) :
    Life G backend name env₀ w' hosts log
  /-- Something happens that leaves the file of this region alone. -/
  | elsewhere {w w' : World} {hosts : Nat} {log : List (LockedCall × Reply)}
      (h : Life G backend name env₀ w hosts log) (hshm : w'.shm name = w.shm name)
      (hdev : w'.dev name = w.dev name) : Life G backend name env₀ w' hosts log

/-- What the life of a region keeps. -/
structure Alive (G : Geometry) (backend : Backend) (name : CStr) (env₀ : Answers) (w : World)
    (hosts : Nat) (log : List (LockedCall × Reply)) : Prop where
  linked : backend = .posix → w.shm name ≠ none
  intact : Intact G env₀ (w.bytes backend name)
  hosts : hostCountOf (w.bytes backend name) = hosts
  run : StoreRun G.dirCap (Registry.empty 1) log (storeOf G (w.bytes backend name))

namespace Alive

variable {env₀ : Answers} {hosts : Nat} {log : List (LockedCall × Reply)}

/-- What a program leaves is in the file, and the name stays. -/
theorem setBytes {hosts' : Nat} {log' : List (LockedCall × Reply)}
    (h : Alive G backend name env₀ w hosts log) (hI : Intact G env₀ m) (hh : hostCountOf m = hosts')
    (hrun : StoreRun G.dirCap (Registry.empty 1) log' (storeOf G m)) :
    Alive G backend name env₀ (w.setBytes backend name m) hosts' log' := by
  refine ⟨World.linked_setBytes h.linked _, ?_, ?_, ?_⟩ <;> rwa [World.bytes_setBytes h.linked]

theorem create {r : Region} (hc : o.creating = true) (hb : o.backend = backend)
    (hcap : o.dirCap.toNat = G.dirCap) (hr : r.size = G.size)
    (hx : shmRegionOpen env₀ w (some name) size (some o) true = (.ok r, w')) :
    Alive G backend name env₀ w' 1 [] := by
  rcases shmRegionOpen_cases env₀ w (some name) size (some o) true with
    ⟨-, e, h⟩ | ⟨s, hacc, h⟩
  · rw [h] at hx
    cases hx
  obtain rfl : s = name := Option.some_inj.1 hacc.name_eq.symm
  rw [h] at hx
  obtain ⟨-, m, hm⟩ := openNamed_created hc hx
  rw [Prog.mem_bind] at hm
  change w'.bytes o.backend s = (countHost r).mem ((regionInit r.size o.backend.code o.dirCap.toNat
    (some s) env₀.nsInode env₀.cgroupHash).mem m) at hm
  rw [hb, hr, hcap] at hm
  have hinit := intact_init (G := G) env₀ backend.code (some s) m
  have hfresh : hostCountOf ((regionInit G.size backend.code G.dirCap (some s) env₀.nsInode
      env₀.cgroupHash).mem m) = 0 := by
    rw [(exec_regionInit G m backend.code env₀.nsInode env₀.cgroupHash (some s)).mem, hostCountOf,
      load_init (by omega), headerEvents]
    simp only [replay_cons, replay_nil, Event.act]
    simp (disch := omega) only [Mem.load_store_same, Mem.load_store_of_disjoint, Nat.zero_mod]
  have hstore := storeOf_init (G := G) backend.code env₀.nsInode env₀.cgroupHash (some s) m
  generalize (regionInit G.size backend.code G.dirCap (some s) env₀.nsInode env₀.cgroupHash).mem m
    = m₁ at hm hinit hfresh hstore
  have hcount := hostCountOf_countHost (r := r) (m := m₁) (by rw [hfresh]; decide)
  obtain ⟨V, hx', hV⟩ := exec_countHost r m₁
  obtain ⟨hI, hsame⟩ := hinit.of_hostCount_writes hV
  rw [← hx'.mem] at hI hsame
  refine ⟨fun hp => openNamed_linked hc hx (hb.trans hp), ?_, ?_, ?_⟩
  · rwa [hm]
  · rw [hm, hcount, hfresh]
  · rw [hm, hsame, hstore]
    exact .refl

theorem attach {r : Region} (h : Alive G backend name env₀ w hosts log)
    (hlt : hosts + 1 < 2 ^ 32) (hc : o.creating = false) (hb : o.backend = backend)
    (hx : shmRegionOpen env w (some name) size (some o) true = (.ok r, w')) :
    Alive G backend name env₀ w' (hosts + 1) log := by
  rcases shmRegionOpen_cases env w (some name) size (some o) true with
    ⟨-, e, hopen⟩ | ⟨s, hacc, hopen⟩
  · rw [hopen] at hx
    cases hx
  obtain rfl : s = name := Option.some_inj.1 hacc.name_eq.symm
  rw [hopen, Option.getD_some] at hx
  have hcases : (∃ e, openNamed env w s o size = (.error e, w)) ∨ ∃ r, openNamed env w s o size =
      (.ok r, w.setBytes o.backend s ((countHost r).mem (w.bytes o.backend s))) :=
    openNamed_attach_cases hc
  rcases hcases with ⟨e, hcase⟩ | ⟨r', hcase⟩
  · rw [hcase] at hx
    cases hx
  rw [hcase] at hx
  obtain ⟨-, rfl⟩ := Prod.mk.inj hx
  rw [hb]
  obtain ⟨V, hx', hV⟩ := exec_countHost r' (w.bytes backend s)
  obtain ⟨hI, hstore⟩ := h.intact.of_hostCount_writes hV
  rw [← hx'.mem] at hI hstore
  refine h.setBytes hI ?_ (by rw [hstore]; exact h.run)
  rw [hostCountOf_countHost (by rw [h.hosts]; exact hlt), h.hosts]

theorem detach (h : Alive G backend name env₀ w (hosts + 1) log) (r : Region) :
    Alive G backend name env₀ (shmRegionClose w backend name (some r) false) hosts log := by
  obtain ⟨V, hx, hV, hcount⟩ := exec_uncountHost_count r (w.bytes backend name)
  obtain ⟨hI, hstore⟩ := h.intact.of_hostCount_writes hV
  rw [shmRegionClose, hx.mem]
  refine h.setBytes hI ?_ (by rw [hstore]; exact h.run)
  rw [hcount, h.hosts, Nat.add_sub_cancel]

theorem call (h : Alive G backend name env₀ w hosts log) {c : LockedCall}
    (hc : Admissible G (w.bytes backend name) c) :
    Alive G backend name env₀ (w.setBytes backend name (c.prog.mem (w.bytes backend name))) hosts
      (log ++ [(c, replyOf c.prog (w.bytes backend name))]) := by
  obtain ⟨hI, hcount⟩ := h.intact.call hc
  exact h.setBytes hI (hcount.trans h.hosts) (h.run.call (h.intact.holds.refines hc))

theorem write (h : Alive G backend name env₀ w hosts log) {i k : Nat} {v : UInt8}
    (hm : w.bytes backend name = m) (hi : i < G.dirCap) (ha : (entryAt m i).alive = true)
    (hk : k < (entryAt m i).used) :
    Alive G backend name env₀
      (w.setBytes backend name (m.store (G.base + (entryAt m i).off + k) 1 v.toNat)) hosts log := by
  subst hm
  obtain ⟨hI, hcount⟩ := h.intact.write hi ha hk v
  obtain ⟨hget, hput⟩ := h.intact.holds.refines_write hi ha hk v
  refine h.setBytes hI (hcount.trans h.hosts) ?_
  rw [hput]
  exact h.run.write hget k v

theorem elsewhere (h : Alive G backend name env₀ w hosts log) (hshm : w'.shm name = w.shm name)
    (hdev : w'.dev name = w.dev name) : Alive G backend name env₀ w' hosts log := by
  have hbytes : w'.bytes backend name = w.bytes backend name := by
    cases backend with
    | posix => rw [World.bytes, hshm]; rfl
    | dax => exact hdev
  refine ⟨fun hp => hshm ▸ h.linked hp, ?_, ?_, ?_⟩ <;> rw [hbytes]
  exacts [h.intact, h.hosts, h.run]

end Alive

theorem Life.alive {env₀ : Answers} {hosts : Nat} {log : List (LockedCall × Reply)}
    (h : Life G backend name env₀ w hosts log) : Alive G backend name env₀ w hosts log := by
  induction h with
  | create hc hb hcap hr hx => exact .create hc hb hcap hr hx
  | attach _ hlt hc hb hx ih => exact ih.attach hlt hc hb hx
  | detach r _ ih => exact ih.detach r
  | call _ hc ih => exact ih.call hc
  | write _ hm i k v hi ha hk ih => exact ih.write hm hi ha hk
  | refused _ hc hx ih =>
    obtain rfl := shmRegionOpen_attach_fails hc hx
    exact ih
  | elsewhere _ hshm hdev ih => exact ih.elsewhere hshm hdev

/-- **The life of a region.**  While fewer than `2^32` processes are attached, `host_count` is their
number; the memory holds the store that the calls have led to, whoever has attached and detached in
between; the next call refines it; and whoever opens the region finds its header in order, and can
only be turned away by a fingerprint. -/
theorem region_lifetime {env₀ : Answers} {hosts : Nat} {log : List (LockedCall × Reply)}
    (h : Life G backend name env₀ w hosts log) :
    (Prog.get shmRh RegionHdr.hostCount).val (w.bytes backend name) = hosts ∧
      StoreRun G.dirCap (Registry.empty 1) log (storeOf G (w.bytes backend name)) ∧
      (∀ c, Admissible G (w.bytes backend name) c → Refines G (w.bytes backend name) c) ∧
      ∀ env flags, (checkHeader env flags).val (w.bytes backend name) =
        if fingerprintDiffers flags SHM_OPEN_ENFORCE_NS (env₀.nsInode % 2 ^ 64) env.nsInode then
          some EPERM
        else if fingerprintDiffers flags SHM_OPEN_ENFORCE_CGROUP (env₀.cgroupHash % 2 ^ 64)
            env.cgroupHash then some EPERM
        else none :=
  have ha := h.alive
  ⟨ha.hosts, ha.run, fun _ => ha.intact.holds.refines, ha.intact.val_checkHeader⟩

/-- A process creates a region of one page and closes it: nobody is attached, and it is still a
region, with an empty store. -/
theorem region_lifetime_page : ∃ w : World,
    (Prog.get shmRh RegionHdr.hostCount).val (w.bytes .posix poolName) = 0 ∧
      StoreRun pageGeometry.dirCap (Registry.empty 1) []
        (storeOf pageGeometry (w.bytes .posix poolName)) ∧
      (checkHeader obliging 0).val (w.bytes .posix poolName) = none := by
  have hx : (shmRegionOpen obliging emptyWorld (some poolName) 4096
      (some { flags := SHM_OPEN_CREATE, dirCapacity := 2 }) true).1 =
      .ok ((⟨4096, by decide, by decide, by decide⟩ : Mapping 4096).handle .acquired) := rfl
  have hnew : Life pageGeometry .posix poolName obliging _ 1 [] :=
    .create rfl rfl rfl rfl (Prod.ext hx rfl)
  obtain ⟨hcount, hrun, -, hcheck⟩ := region_lifetime (hnew.detach pageHandle)
  exact ⟨_, hcount, hrun, hcheck obliging 0⟩

end ShmAlloc
