import ShmAlloc.Cxx
import ShmAlloc.Guarantees.Identity

/-!
# Making C++ objects

`shm::make` allocates and then constructs, and what it gives the object as permissions is also what
it asks for access with.  Without read and write permission among them the object is allocated, its
construction is refused, and nothing takes the allocation back.

## What is here

* `Untouched`: objects, free list and counters are as before.
* `Constructed`: the handle designates an object in use, on which the constructor has run.
* `AllOrNothing`: the call fails and leaves everything untouched, or succeeds and gives back an
  object that has been constructed.
* `make_of_refused` and `make_of_allocated`: `shm::make` in terms of what `shm_alloc` did.
* `make_granted` and `make_denied`: an object that may be constructed, and one that may not.
* `make_all_or_nothing`: **`shm::make` is all or nothing exactly if** the object gets read and write
  permission, or the caller is an administrator, or `shm_alloc` refuses.
* `make_all_or_nothing_fails`: an object that may only be read stays behind when the call fails.
-/

set_option autoImplicit false

namespace ShmAlloc

open Tiling Links

variable {G : Geometry} {m m' m₁ : Mem} {bs pre post : List Blk} {b : Blk} {i : Nat} {T : CxxType}
  {r : Region} {userId perms tag : UInt32} {name : Option CStr}

/-! ## All or nothing -/

/-- An entry in use holds `e`. -/
def IsObject (G : Geometry) (m : Mem) (e : Entry) : Prop :=
  ∃ i, i < G.dirCap ∧ e.alive = true ∧ entryAt m i = e

/-- Objects, free list and counters are as before. -/
structure Untouched (G : Geometry) (m m' : Mem) : Prop where
  objects : ∀ e, IsObject G m' e ↔ IsObject G m e
  freeList : ∀ xs, Linked (nextAt G m') (m'.load 88 8) xs ↔ Linked (nextAt G m) (m.load 88 8) xs
  usedBytes : m'.load 96 8 = m.load 96 8
  blockCount : m'.load 104 8 = m.load 104 8

theorem Untouched.refl (G : Geometry) (m : Mem) : Untouched G m m :=
  ⟨fun _ => Iff.rfl, fun _ => Iff.rfl, rfl, rfl⟩

/-- The handle designates an object in use, on which the constructor has run since `m₁`. -/
structure Constructed (G : Geometry) (T : CxxType) (m₁ m' : Mem) (off : Nat) : Prop where
  object : ∃ i, i < G.dirCap ∧ (entryAt m' i).alive = true ∧ (entryAt m' i).off = off ∧
    (entryAt m' i).used = T.size
  init : m' = (T.init (G.base + off)).mem m₁

/-- **All or nothing**: the call fails and leaves everything as it was, or succeeds and gives back
an object that has been constructed where `shm_alloc` left it. -/
def AllOrNothing (G : Geometry) (T : CxxType) (m m₁ : Mem) (call : Prog Made) : Prop :=
  ((call.val m).rc ≠ .ok → Untouched G m (call.mem m)) ∧
    ((call.val m).rc = .ok →
      ∃ off, (call.val m).out = some off ∧ Constructed G T m₁ (call.mem m) off)

/-- The permissions are enough to construct an object that has them. -/
def MayConstruct (perms : UInt32) : Prop :=
  perms &&& SHM_PERM_ADMIN ≠ 0 ∨
    perms &&& (SHM_PERM_READ ||| SHM_PERM_WRITE) = SHM_PERM_READ ||| SHM_PERM_WRITE

/-- The owner may do what the permissions of the object say. -/
theorem checkOwner_self (userId perms required : UInt32) :
    checkOwner userId.toNat perms.toNat userId perms required = .ok ↔
      perms &&& SHM_PERM_ADMIN ≠ 0 ∨ perms &&& required = required := by
  have hperms : perms.toNat &&& required.toNat = required.toNat ↔
      perms &&& required = required := by
    rw [← UInt32.toNat_and, UInt32.toNat_inj]
  rw [checkOwner_eq_ok, hperms]
  simp

/-! ## Constructing

The constructor runs behind an access check of its own, which asks for reading and writing with the
permissions of the new object. -/

/-- A mutable pointer to the object in `b`, for those who may read and write it. -/
theorem exec_getMut (h : Inv G m bs) (hb : b ∈ bs) (hr : r.size = G.size)
    (userId perms : UInt32) :
    Exec G.size (Cxx.getMut (some r) (b.off + 56) userId perms) m
      (if b.access userId perms (SHM_PERM_READ ||| SHM_PERM_WRITE) = .ok
        then some (G.base + b.off + 56) else none) [] := by
  have hbb := h.heap.bounds hb
  have hsz := G.size_eq
  have hnull : isNull r (G.base + b.off) = false := isNull_of_mapped (by omega)
  have hx := exec_checkBlockAccess (r := r) (h.heap.blk b hb) (by omega) userId perms
    (SHM_PERM_READ ||| SHM_PERM_WRITE)
  rw [if_neg (by simp [hnull])] at hx
  rw [Cxx.getMut, shmPtr]
  refine (exec_blkOfPoff h.layout (by omega)).bind_nil (hx.bind_nil ?_)
  split
  · exact .pure _
  · exact .pure _

/-- The constructor runs on the object in `b`. -/
theorem construct_granted (h : Inv G m bs) (hb : b ∈ bs) (hr : r.size = G.size)
    (hacc : b.access userId perms (SHM_PERM_READ ||| SHM_PERM_WRITE) = .ok) :
    (Cxx.construct T (some r) (b.off + 56) userId perms).val m = .ok ∧
      (Cxx.construct T (some r) (b.off + 56) userId perms).mem m
        = (T.init (G.base + (b.off + 56))).mem m := by
  have hx := exec_getMut h hb hr userId perms
  rw [if_pos hacc] at hx
  rw [Cxx.construct, Prog.val_bind, Prog.mem_bind, hx.val, hx.mem, ← Nat.add_assoc]
  exact ⟨rfl, Prog.mem_bind ..⟩

/-- Nobody constructs an object they may not read and write. -/
theorem construct_denied (h : Inv G m bs) (hb : b ∈ bs) (hr : r.size = G.size)
    (hacc : b.access userId perms (SHM_PERM_READ ||| SHM_PERM_WRITE) ≠ .ok) :
    (Cxx.construct T (some r) (b.off + 56) userId perms).val m = .eacces ∧
      (Cxx.construct T (some r) (b.off + 56) userId perms).mem m = m := by
  have hx := exec_getMut h hb hr userId perms
  rw [if_neg hacc] at hx
  rw [Cxx.construct, Prog.val_bind, Prog.mem_bind, hx.val, hx.mem]
  exact ⟨rfl, rfl⟩

/-! ## Allocating -/

/-- What `shm::make` asks `shm_alloc` for. -/
def CxxType.request (T : CxxType) (name : Option CStr) (userId perms tag : UInt32) : Request :=
  ⟨T.size, name, userId, perms, tag⟩

/-- The call of `shm_alloc` in `shm::alloc`. -/
def CxxType.allocates (T : CxxType) (r : Region) (name : Option CStr) (userId perms tag : UInt32) :
    Prog Rc :=
  shmAlloc (some r) T.size name userId perms tag true true

/-- `shm::alloc` returns what `shm_alloc` returns, and the offset if there is one. -/
theorem cxxAlloc_eq (m : Mem) (T : CxxType) (r : Region) (name : Option CStr)
    (userId perms tag : UInt32) :
    (Cxx.alloc T (some r) userId perms true name tag).val m
        = (if (T.allocates r name userId perms tag).val m ≠ .ok then
            ⟨(T.allocates r name userId perms tag).val m, none⟩
          else ⟨.ok, some ((lastOut 1 ((T.allocates r name userId perms tag).trace m)).getD
            SHM_OFF_NULL)⟩) ∧
      (Cxx.alloc T (some r) userId perms true name tag).mem m
        = (T.allocates r name userId perms tag).mem m := by
  rw [Cxx.alloc, if_neg (by simp), Prog.val_bind, Prog.mem_bind]
  constructor
  · show Prog.val (if (T.allocates r name userId perms tag).val m ≠ .ok then _ else _) _ = _
    split <;> rfl
  · show Prog.mem (if (T.allocates r name userId perms tag).val m ≠ .ok then _ else _) _ = _
    split <;> rfl

/-- **`shm::make` if `shm_alloc` fails.** -/
theorem make_of_refused (hrc : (T.allocates r name userId perms tag).val m ≠ .ok) :
    ((Cxx.make T (some r) userId perms true name tag).val m).rc ≠ .ok ∧
      (Cxx.make T (some r) userId perms true name tag).mem m
        = (T.allocates r name userId perms tag).mem m := by
  obtain ⟨hv, hm⟩ := cxxAlloc_eq m T r name userId perms tag
  rw [if_pos hrc] at hv
  rw [Cxx.make, Prog.val_bind, Prog.mem_bind, hv, hm, if_pos hrc]
  exact ⟨hrc, rfl⟩

/-- **`shm::make` if `shm_alloc` succeeds** and puts the payload at `off`. -/
theorem make_of_allocated {off : Nat} (hrc : (T.allocates r name userId perms tag).val m = .ok)
    (hoff : lastOut 1 ((T.allocates r name userId perms tag).trace m) = some off) :
    (Cxx.make T (some r) userId perms true name tag).val m
        = ⟨(Cxx.construct T (some r) off userId perms).val
            ((T.allocates r name userId perms tag).mem m), some off⟩ ∧
      (Cxx.make T (some r) userId perms true name tag).mem m
        = (Cxx.construct T (some r) off userId perms).mem
            ((T.allocates r name userId perms tag).mem m) := by
  obtain ⟨hv, hm⟩ := cxxAlloc_eq m T r name userId perms tag
  rw [if_neg (not_not.2 hrc), hoff, Option.getD_some] at hv
  rw [Cxx.make, Prog.val_bind, Prog.mem_bind, hv, hm, if_neg (not_not.2 rfl), Option.getD_some,
    Prog.val_bind, Prog.mem_bind]
  exact ⟨rfl, Prog.mem_pure ..⟩

/-- **What `shm_alloc` does for `shm::make`**: it fails and changes nothing, the directory being
full or no free block large enough; or it makes an object. -/
theorem allocates_cases (h : Inv G m bs) (T : CxxType) (r : Region) (name : Option CStr)
    (userId perms tag : UInt32) :
    ((∀ j, j < G.dirCap → (entryAt m j).Live) ∨
        ∀ c ∈ bs, c.live = false → c.total < blockSize T.size) ∧
      (T.allocates r name userId perms tag).val m ≠ .ok ∧
      (T.allocates r name userId perms tag).mem m = m ∨
    ∃ pre b post i, bs = pre ++ b :: post ∧ Takes G m pre b i (T.request name userId perms tag) ∧
      (T.allocates r name userId perms tag).val m = .ok ∧
      lastOut 1 ((T.allocates r name userId perms tag).trace m) = some (b.off + 56) ∧
      (T.allocates r name userId perms tag).mem m
        = replay (allocEvents G pre b post i (nextIdOf m) (T.request name userId perms tag)) m := by
  have hsize := T.size_pos
  have hlt := T.size_lt
  have hprog : T.allocates r name userId perms tag = (do
      regionLock r
      allocLocked T.size name userId perms tag) := by
    rw [CxxType.allocates, shmAlloc, if_neg (by simp; omega)]
  have hq : (T.request name userId perms tag).size ≠ 0 := Nat.ne_of_gt hsize
  have hq' : (T.request name userId perms tag).size ≤ 2 ^ 64 - 64 := by
    show T.size ≤ _
    omega
  have hfail : replay (lockEvents r ++ [.unlock]) m = m := by
    rw [replay_append, replay_lockEvents]
    rfl
  rw [hprog]
  rcases exec_allocLocked h hq hq' with ⟨hfull, hx⟩ | ⟨-, hno, hx⟩ | ⟨pre, b, post, i, rfl, ht, hx⟩
  · have hx := exec_locked r hx
    exact .inl ⟨.inl hfull, fun hok => Rc.noConfusion (hx.val.symm.trans hok), hx.mem.trans hfail⟩
  · have hx := exec_locked r hx
    exact .inl ⟨.inr hno, fun hok => Rc.noConfusion (hx.val.symm.trans hok), hx.mem.trans hfail⟩
  · have hx := exec_locked r hx
    refine .inr ⟨pre, b, post, i, rfl, ht, hx.val, ?_, ?_⟩
    · have hout : lastOut 1 (lockEvents r ++ allocEvents G pre b post i (nextIdOf m)
          (T.request name userId perms tag)) = _ := (lastOut_allocEvents r (nextIdOf m)).2
      rw [← hx.eff, lastOut_effects] at hout
      exact hout
    · rw [← replay_locked m]
      exact hx.mem

/-! ## The guarantee -/

/-- What `shm_alloc` counts is no longer what it was. -/
theorem not_untouched_alloc (h : Inv G m (pre ++ b :: post)) {q : Request}
    (ht : Takes G m pre b i q) :
    ¬ Untouched G m (replay (allocEvents G pre b post i (nextIdOf m) q) m) := by
  intro hu
  have hcount := (h.alloc ht).count
  rw [hu.blockCount, h.count, allocBlks, liveBlks_append, liveBlks_append,
    liveBlks_cons_free ht.free, liveBlks_cons_live rfl, liveBlks_append] at hcount
  simp at hcount
  omega

/-- Without a region or a place for the handle nothing happens. -/
theorem make_einval {region : Option Region} {out : Bool}
    (hbad : region.isNone = true ∨ out = false) (m : Mem) (T : CxxType) (userId perms tag : UInt32)
    (name : Option CStr) :
    (Cxx.make T region userId perms out name tag).val m = ⟨.einval, none⟩ ∧
      (Cxx.make T region userId perms out name tag).mem m = m := by
  rw [Cxx.make, Cxx.alloc, if_pos hbad]
  exact ⟨rfl, rfl⟩

theorem AllOrNothing.of_failed {call : Prog Made} (hrc : (call.val m).rc ≠ .ok)
    (hmem : call.mem m = m) : AllOrNothing G T m m₁ call :=
  ⟨fun _ => by rw [hmem]; exact .refl G m, fun hok => absurd hok hrc⟩

/-- The block of the new object, and what whoever asked for it may do with it. -/
theorem exists_newBlk (T : CxxType) (name : Option CStr) (userId perms tag : UInt32) (id : Nat) :
    ∃ b' ∈ allocBlks pre b post id (T.request name userId perms tag), b'.off = b.off ∧
      (b'.access userId perms (SHM_PERM_READ ||| SHM_PERM_WRITE) = .ok ↔ MayConstruct perms) := by
  refine ⟨(taken b (blockSize T.size)).named id (T.request name userId perms tag),
    by simp [allocBlks, CxxType.request], taken_off b _, ?_⟩
  rw [Blk.access, if_pos (show (Blk.named _ _ _).live = true from rfl)]
  exact checkOwner_self userId perms _

/-- Construction leaves the entries alone. -/
theorem entryAt_init_object (T : CxxType) {off : Nat} (hi : i < G.dirCap) (m : Mem) :
    entryAt ((T.init (G.base + off)).mem m) i = entryAt m i := by
  have := G.slotAddr_lt hi
  refine entryAt_replay fun x hx hs => ?_
  have := (T.init_inside _ m x hx).1
  have := hs.2
  omega

/-- **An object that may be constructed**: `shm::make` succeeds and gives it back. -/
theorem make_granted (h : Inv G m (pre ++ b :: post)) (hr : r.size = G.size)
    (ht : Takes G m pre b i (T.request name userId perms tag)) (hmay : MayConstruct perms)
    (hrc : (T.allocates r name userId perms tag).val m = .ok)
    (hoff : lastOut 1 ((T.allocates r name userId perms tag).trace m) = some (b.off + 56))
    (hmem : (T.allocates r name userId perms tag).mem m
      = replay (allocEvents G pre b post i (nextIdOf m) (T.request name userId perms tag)) m) :
    AllOrNothing G T m ((T.allocates r name userId perms tag).mem m)
      (Cxx.make T (some r) userId perms true name tag) := by
  obtain ⟨hv, hm⟩ := make_of_allocated hrc hoff
  have hI := h.alloc ht
  obtain ⟨b', hb', hbo, hacc⟩ := exists_newBlk T name userId perms tag (nextIdOf m)
  obtain ⟨hc, hcm⟩ := construct_granted (T := T) hI hb' hr (hacc.2 hmay)
  rw [hbo] at hc hcm
  rw [hmem] at hv hm ⊢
  rw [hc] at hv
  rw [hcm] at hm
  refine ⟨fun hno => absurd (by rw [hv]) hno, fun _ => ⟨b.off + 56, by rw [hv], ?_, hm⟩⟩
  refine ⟨i, ht.slot_lt, ?_⟩
  rw [hm, entryAt_init_object T ht.slot_lt, entryAt_alloc h ht]
  exact ⟨rfl, rfl, rfl⟩

/-- **One that may not** stays allocated, and the call fails. -/
theorem make_denied (h : Inv G m (pre ++ b :: post)) (hr : r.size = G.size)
    (ht : Takes G m pre b i (T.request name userId perms tag)) (hmay : ¬ MayConstruct perms)
    (hrc : (T.allocates r name userId perms tag).val m = .ok)
    (hoff : lastOut 1 ((T.allocates r name userId perms tag).trace m) = some (b.off + 56))
    (hmem : (T.allocates r name userId perms tag).mem m
      = replay (allocEvents G pre b post i (nextIdOf m) (T.request name userId perms tag)) m) :
    ¬ AllOrNothing G T m m₁ (Cxx.make T (some r) userId perms true name tag) := by
  obtain ⟨hv, hm⟩ := make_of_allocated hrc hoff
  have hI := h.alloc ht
  obtain ⟨b', hb', hbo, hacc⟩ := exists_newBlk T name userId perms tag (nextIdOf m)
  obtain ⟨hc, hcm⟩ := construct_denied (T := T) hI hb' hr (mt hacc.1 hmay)
  rw [hbo] at hc hcm
  rw [hmem] at hv hm
  rw [hc] at hv
  rw [hcm] at hm
  rintro ⟨hfail, -⟩
  have hu := hfail (by rw [hv]; simp)
  rw [hm] at hu
  exact not_untouched_alloc h ht hu

/-- **`shm::make` is all or nothing** exactly if the object gets read and write permission, or the
caller is an administrator, or `shm_alloc` refuses the request. -/
theorem make_all_or_nothing (h : Reach G AnyCall m) : ∃ bs, Chain G m bs ∧
    ∀ (T : CxxType) (region : Option Region) (userId perms : UInt32) (out : Bool)
      (name : Option CStr) (tag : UInt32), (∀ r, region = some r → r.size = G.size) →
      (AllOrNothing G T m
          ((shmAlloc region T.size name userId perms tag true true).mem m)
          (Cxx.make T region userId perms out name tag) ↔
        MayConstruct perms ∨ region = none ∨ out = false ∨
          (∀ j, j < G.dirCap → (entryAt m j).Live) ∨
          ∀ c ∈ bs, c.live = false → c.total < blockSize T.size) := by
  obtain ⟨bs, hI⟩ := h.inv
  refine ⟨bs, hI.heap.toRep.chain, fun T region userId perms out name tag hregion => ?_⟩
  by_cases hbad : region.isNone = true ∨ out = false
  · obtain ⟨hv, hm⟩ := make_einval hbad m T userId perms tag name
    refine iff_of_true (.of_failed (by rw [hv]; simp) hm) ?_
    rw [Option.isNone_iff_eq_none] at hbad
    exact .inr (hbad.elim .inl fun h => .inr (.inl h))
  rw [not_or] at hbad
  obtain ⟨r, rfl⟩ := Option.ne_none_iff_exists'.1 (mt Option.isNone_iff_eq_none.2 hbad.1)
  obtain rfl : out = true := by simpa using hbad.2
  have hr := hregion r rfl
  rcases allocates_cases hI T r name userId perms tag with
    ⟨hfull, hrc, hmem⟩ | ⟨pre, b, post, i, rfl, ht, hrc, hoff, hmem⟩
  · obtain ⟨hv, hm⟩ := make_of_refused hrc
    exact iff_of_true (.of_failed hv (hm.trans hmem)) (.inr (.inr (.inr hfull)))
  · refine ⟨fun hall => .inl (by_contra fun hmay => ?_), fun hcond => ?_⟩
    · exact make_denied hI hr ht hmay hrc hoff hmem hall
    · refine make_granted hI hr ht ?_ hrc hoff hmem
      -- `shm_alloc` has found a slot and a block
      rcases hcond with hmay | hnone | hout | hfull | hno
      · exact hmay
      · cases hnone
      · cases hout
      · exact absurd (hfull i ht.slot_lt) ht.slot_free
      · exact absurd (hno b (by simp) ht.free) (Nat.not_lt.2 ht.fits)

/-- A class with one field of 64 bits, which its constructor sets. -/
def counterType : CxxType where
  size := 8
  size_pos := by decide
  size_lt := by decide
  init p := Prog.emit (.store p 8 42)
  init_inside p m x hx := by
    rw [Prog.trace_emit, writes_cons] at hx
    exact hx.elim id fun h => absurd h (not_writes_nil x)

/-- Its owner makes one that may be read and written. -/
theorem make_all_or_nothing_page : AllOrNothing pageGeometry counterType (freshMem pageGeometry)
    ((shmAlloc (some pageHandle) counterType.size none 7 0x3 8 true true).mem
      (freshMem pageGeometry))
    (Cxx.make counterType (some pageHandle) 7 0x3 true none 8) := by
  obtain ⟨bs, -, hall⟩ := make_all_or_nothing (reach_fresh pageGeometry AnyCall)
  refine (hall counterType (some pageHandle) 7 0x3 true none 8 fun r hr => ?_).2
    (.inl (.inr (by decide)))
  obtain rfl := Option.some.inj hr
  rfl

/-- **One that may only be read** stays behind when `shm::make` fails. -/
theorem make_all_or_nothing_fails :
    Reach pageGeometry AnyCall (freshMem pageGeometry) ∧
    ((Cxx.make counterType (some pageHandle) 7 0x1 true none 8).val (freshMem pageGeometry)).rc
      = .eacces ∧
    (freshMem pageGeometry).load 104 8 = 0 ∧
    ((Cxx.make counterType (some pageHandle) 7 0x1 true none 8).mem
      (freshMem pageGeometry)).load 104 8 = 1 ∧
    (entryAt ((Cxx.make counterType (some pageHandle) 7 0x1 true none 8).mem
      (freshMem pageGeometry)) 0).alive = true := by
  refine ⟨reach_fresh _ _, ?_, ?_, ?_, ?_⟩ <;> decide +kernel

end ShmAlloc
