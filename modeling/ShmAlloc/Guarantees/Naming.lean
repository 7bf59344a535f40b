import ShmAlloc.Guarantees.Capability
import ShmAlloc.Region.Naming

/-!
# Names round-trip as they are stored

`shm_alloc` stores what fits of a name; `shm_lookup_by_name` compares all of it.  As long as no
other object is stored under the same string, an object is found by the string it is stored under.
The name it was allocated under is that string if it has at most 47 characters; a longer one finds
nothing at all.

## What is here

* `AllocsOther`: no call of a run allocates an object that is stored under the string.
* `OnlyNamed`: a slot is the only one in use that holds it, and `StillLive.onlyNamed` keeps it so.
* `FoundByName`: looking the string up finds the object, at the place where it is now.
* `foundByName_stored` and `not_foundByName_of_long`: a stored string finds its object, and a string
  of more than 47 characters finds nothing.
* `names_round_trip`: **an object is found by the string it is stored under as long as it lives, and
  by the name it was allocated under if and only if that has at most 47 characters.**
* `names_round_trip_fails`: a name of 48 characters.
-/

set_option autoImplicit false

namespace ShmAlloc

open Tiling Links

variable {G : Geometry} {m m' : Mem} {bs : List Blk} {i : Nat} {t : List UInt8}

/-! ## The only object stored under a string -/

/-- No call allocates an object that is stored under the string. -/
def AllocsOther (t : List UInt8) (_ : Mem) (c : Call) : Prop :=
  ∀ region q outId outOff, c = .alloc region q outId outOff → storedName q.name ≠ t

/-- Slot `i` is the one slot in use that holds the string. -/
structure OnlyNamed (G : Geometry) (m : Mem) (i : Nat) (t : List UInt8) : Prop where
  name : nameOf m i = t
  other : ∀ j, j < G.dirCap → j ≠ i → (entryAt m j).alive = true → nameOf m j ≠ t

theorem StillLive.mono {C C' : Mem → Call → Prop} (hC : ∀ m c, C m c → C' m c)
    (h : StillLive G C i m m') : StillLive G C' i m m' := by
  induction h with
  | refl hl => exact .refl hl
  | step _ hs hl ih =>
    refine ih.step ?_ hl
    cases hs with
    | call c hlegal hc => exact .call c hlegal (hC _ _ hc)
    | write j k v hj ha hk => exact .write j k v hj ha hk

/-- **A step keeps an object the only one under its name**, unless it allocates another. -/
theorem Step.onlyNamed (h : Inv G m bs) (hs : Step G (AllocsOther t) m m') (hi : i < G.dirCap)
    (hl : (entryAt m i).Live) (hl' : (entryAt m' i).Live) (ho : OnlyNamed G m i t) :
    OnlyNamed G m' i t := by
  refine ⟨(nameOf_congr (hs.sameIdentity h hi hl hl').name).trans ho.name, fun j hj hji ha => ?_⟩
  have hkeep : SameIdentity m m' j → nameOf m' j ≠ t := fun hs => by
    rw [nameOf_congr hs.name]
    exact ho.other j hj hji (hs.alive.symm.trans ha)
  cases hs with
  | call c hlegal hC =>
    obtain ⟨rc, W, bs', hrun, hx⟩ := callRun h hlegal
    rw [hx.mem] at ha hkeep ⊢
    rcases hrun.slot h hj with hs | ⟨-, -, ⟨r, q, rfl, hname⟩, -⟩ | ⟨-, -, -, hdead⟩
    · exact hkeep hs
    · rw [hname.nameOf_eq]
      exact hC _ _ _ _ rfl
    · exact Bool.noConfusion (ha.symm.trans hdead)
  | write k l v hk ha hl => exact hkeep (sameIdentity_write (by omega) hj)

theorem StillLive.onlyNamed (h : Reach G AnyCall m) (hl : StillLive G (AllocsOther t) i m m')
    (hi : i < G.dirCap) (ho : OnlyNamed G m i t) : OnlyNamed G m' i t := by
  induction hl with
  | refl => exact ho
  | step hlive hs hl ih =>
    obtain ⟨bs, hI⟩ := ((hlive.mono fun _ _ _ => trivial).reach h).inv
    exact hs.onlyNamed hI hi hlive.live hl ih

/-! ## Finding an object by its name -/

/-- Looking the string up by name finds the object. -/
structure FoundByName (m : Mem) (r : Region) (s : CStr) (userId callerPerms : UInt32)
    (id off : Nat) : Prop where
  rc : (shmLookupByName (some r) (some s) userId callerPerms true true).val m = .ok
  id : lastOut 0 ((shmLookupByName (some r) (some s) userId callerPerms true true).trace m)
    = some id
  off : lastOut 1 ((shmLookupByName (some r) (some s) userId callerPerms true true).trace m)
    = some off

theorem lastOut_lookupByName (r : Region) (id off : Nat) :
    lastOut 0 (lockEvents r ++ [.out 0 id, .out 1 off, .unlock]) = some id ∧
      lastOut 1 (lockEvents r ++ [.out 0 id, .out 1 off, .unlock]) = some off := by
  rw [lastOut, lastOut]
  constructor <;> simp

/-- **The only object under a stored string is found by that string.** -/
theorem foundByName_stored (hI : Inv G m bs) (hn : Named G m) (hi : i < G.dirCap)
    (hl : (entryAt m i).Live) {u : CStr} (ho : OnlyNamed G m i u.1) (r : Region)
    {userId callerPerms : UInt32}
    (hacc : (entryAt m i).access userId callerPerms SHM_PERM_READ = .ok) :
    FoundByName m r u userId callerPerms (entryAt m i).id (entryAt m i).off := by
  rcases exec_shmLookupByName hI.layout hn r u userId callerPerms with
    ⟨hnone, hx⟩ | ⟨j, hj, ha, hname, hx⟩
  · exact absurd ho.name (hnone i hi hl.1)
  · obtain rfl : j = i := by
      by_contra hne
      exact ho.other j hj hne ha hname
    have hx := hx hacc
    refine ⟨hx.val, ?_, ?_⟩
    · rw [← lastOut_effects, hx.eff]
      exact (lastOut_lookupByName r _ _).1
    · rw [← lastOut_effects, hx.eff]
      exact (lastOut_lookupByName r _ _).2

/-- A string of more than 47 characters finds nothing. -/
theorem not_foundByName_of_long (hI : Inv G m bs) (hn : Named G m) {s : CStr}
    (hlen : 47 < s.1.length) (r : Region) {userId callerPerms : UInt32} {id off : Nat} :
    ¬ FoundByName m r s userId callerPerms id off := by
  intro hf
  rcases exec_shmLookupByName hI.layout hn r s userId callerPerms with
    ⟨-, hx⟩ | ⟨j, hj, ha, hname, -⟩
  · exact Rc.noConfusion (hx.val.symm.trans hf.rc)
  · obtain ⟨t, ht⟩ := hn j hj ha
    have := ht.length_le
    rw [ht.nameOf_eq] at hname
    rw [hname] at this
    omega

/-- **Names round-trip as they are stored.**  Let an object be allocated under a name of which no
object in use has the stored form, and let none be allocated under one that has it.  Then, as long
as the object is live, whoever may read it finds it, at its current offset, by the stored form of
its name; and by the name itself exactly if that has at most 47 characters. -/
theorem names_round_trip (h : Reach G AnyCall m) {r : Region} {q : Request} {s : CStr}
    (hq : q.name = some s) (hl : Legal G m (.alloc (some r) q true true))
    (hok : (Call.alloc (some r) q true true).prog.val m = .ok)
    (hfresh : ∀ j, j < G.dirCap → (entryAt m j).alive = true → nameOf m j ≠ storedName q.name) :
    ∃ i, i < G.dirCap ∧
      (entryAt ((Call.alloc (some r) q true true).prog.mem m) i).alive = true ∧
      lastOut 0 ((Call.alloc (some r) q true true).prog.trace m)
        = some (entryAt ((Call.alloc (some r) q true true).prog.mem m) i).id ∧
      lastOut 1 ((Call.alloc (some r) q true true).prog.trace m)
        = some (entryAt ((Call.alloc (some r) q true true).prog.mem m) i).off ∧
      ∀ m', StillLive G (AllocsOther (storedName q.name)) i
          ((Call.alloc (some r) q true true).prog.mem m) m' →
        ∀ r' userId callerPerms, checkOwner (entryAt m' i).owner (entryAt m' i).perms userId
            callerPerms SHM_PERM_READ = .ok →
          (∀ u : CStr, u.1 = storedName q.name → FoundByName m' r' u userId callerPerms
            (entryAt ((Call.alloc (some r) q true true).prog.mem m) i).id (entryAt m' i).off) ∧
          (FoundByName m' r' s userId callerPerms
              (entryAt ((Call.alloc (some r) q true true).prog.mem m) i).id (entryAt m' i).off ↔
            s.1.length ≤ 47) := by
  obtain ⟨bs, hI⟩ := h.inv
  have h₁ : Reach G AnyCall ((Call.alloc (some r) q true true).prog.mem m) :=
    h.step (.call _ hl trivial)
  obtain ⟨rc, W, bs', hrun, hx⟩ := callRun hI hl
  have hrc : rc = .ok := hx.val.symm.trans hok
  have hstored : storedName q.name = s.1.take 47 := by
    rw [hq]
    rfl
  rw [← lastOut_effects 0, ← lastOut_effects 1, hx.eff]
  rw [hx.mem] at h₁ ⊢
  cases hrun with
  | refused hno hW => exact absurd hrc hno
  | alloc ht =>
    rename_i pre b post i
    have hent : entryAt (replay (lockEvents r ++ allocEvents G pre b post i (nextIdOf m) q) m) i
        = newEntry b.off (taken b (blockSize q.size)).cap (nextIdOf m) q := by
      rw [replay_locked, entryAt_alloc hI ht]
    -- the new object is the only one stored under its name
    have honly : OnlyNamed G
        (replay (lockEvents r ++ allocEvents G pre b post i (nextIdOf m) q) m) i
        (storedName q.name) := by
      refine ⟨?_, fun j hj hji ha => ?_⟩
      · rw [replay_locked]
        exact (nameIs_alloc m (nextIdOf m)).nameOf_eq
      · rw [replay_locked] at ha ⊢
        have hs := sameIdentity_alloc hI ht hj hji
        rw [nameOf_congr hs.name]
        exact hfresh j hj (hs.alive.symm.trans ha)
    refine ⟨i, ht.slot_lt, ?_, ?_, ?_, fun m' hlive r' userId callerPerms hacc => ?_⟩
    · rw [hent]
      rfl
    · rw [hent, (lastOut_allocEvents r _).1]
      rfl
    · rw [hent, (lastOut_allocEvents r _).2]
      rfl
    · have hall : StillLive G AnyCall i _ m' := hlive.mono fun _ _ _ => trivial
      obtain ⟨bs', hI'⟩ := (hall.reach h₁).inv
      have ho := hlive.onlyNamed h₁ ht.slot_lt honly
      have hacc' : (entryAt m' i).access userId callerPerms SHM_PERM_READ = .ok := by
        rw [Entry.access_live hlive.live]
        exact hacc
      have hfound : ∀ u : CStr, u.1 = storedName q.name →
          FoundByName m' r' u userId callerPerms (entryAt m' i).id (entryAt m' i).off :=
        fun u hu => foundByName_stored hI' (hall.reach h₁).named ht.slot_lt hlive.live (hu ▸ ho) r'
          hacc'
      rw [← (hall.sameIdentity h₁ ht.slot_lt).id]
      refine ⟨hfound, fun hf => ?_, fun hlen => hfound s ?_⟩
      · by_contra hlong
        exact not_foundByName_of_long hI' (hall.reach h₁).named (by omega) r' hf
      · rw [hstored, List.take_of_length_le hlen]

/-! ## A name of 48 characters -/

/-- A request for an object called "ab". -/
def shortName : Request := ⟨8, some ⟨[0x61, 0x62], by decide⟩, 7, 0xF, 0⟩

/-- The page with an object called "ab", when another one has been allocated behind it, the first
one has been moved to hold 100 bytes, and the other one has been freed. -/
def movedName : Mem := (frees 2).prog.mem ((Call.resize (some pageHandle) 1 100 7 0xF).prog.mem
  ((asks 16).prog.mem (firstMem pageGeometry pageHandle shortName)))

/-- Nothing else has been allocated under that name. -/
theorem stillLive_movedName : StillLive pageGeometry (AllocsOther (storedName shortName.name)) 0
    (firstMem pageGeometry pageHandle shortName) movedName := by
  have hfirst : Reach pageGeometry AnyCall (firstMem pageGeometry pageHandle shortName) :=
    (reach_first rfl (by decide) (by decide) (by decide) (by decide)).mono fun _ _ _ => trivial
  obtain ⟨bs, hI⟩ := hfirst.inv
  have hask : Legal pageGeometry (firstMem pageGeometry pageHandle shortName) (asks 16) :=
    legal_alloc hI rfl (by decide) (by decide)
  obtain ⟨hfirst₀, hask₀, hreturns, hgrow₀, hfree₀⟩ :
      (entryAt (firstMem pageGeometry pageHandle shortName) 0).Live ∧
      (entryAt ((asks 16).prog.mem (firstMem pageGeometry pageHandle shortName)) 0).Live ∧
      Completed 4096 ((Call.resize (some pageHandle) 1 100 7 0xF).prog.trace
        ((asks 16).prog.mem (firstMem pageGeometry pageHandle shortName))) ∧
      (entryAt ((Call.resize (some pageHandle) 1 100 7 0xF).prog.mem
        ((asks 16).prog.mem (firstMem pageGeometry pageHandle shortName))) 0).Live ∧
      (entryAt movedName 0).Live := by
    decide +kernel
  have hpair := StillLive.step (.refl hfirst₀)
    (.call (C := AllocsOther (storedName shortName.name)) _ hask
      (by rintro _ _ _ _ ⟨⟩; decide)) hask₀
  have hgrow := hpair.step (.call _ (legal_resize (by decide) (by decide) hreturns) nofun) hgrow₀
  obtain ⟨bs', hI'⟩ := ((hgrow.mono fun _ _ _ => trivial).reach hfirst).inv
  exact hgrow.step (.call _ (legal_free hI' rfl (by decide) 7 0xF) nofun) hfree₀

/-- An object with a short name is found by it, where it is now. -/
theorem names_round_trip_page :
    FoundByName movedName pageHandle ⟨[0x61, 0x62], by decide⟩ 7 0xF 1 192 := by
  obtain ⟨i, hi, ha, -, -, hf⟩ := names_round_trip
    (reach_fresh pageGeometry AnyCall) (q := shortName)
    rfl (legal_alloc (inv_fresh pageGeometry).toInv (r := pageHandle) rfl (by decide) (by decide))
    (by decide +kernel) fun j hj ha => by
      rw [freshMem, (exec_regionInit ..).mem, entryAt_init hj] at ha
      exact Bool.noConfusion ha
  obtain rfl : i = 0 := by
    have hcap : pageGeometry.dirCap = 2 := rfl
    obtain rfl | rfl : i = 0 ∨ i = 1 := by omega
    · rfl
    · exact absurd ha (by decide +kernel)
  obtain ⟨hid, hoff, hacc⟩ : (entryAt (firstMem pageGeometry pageHandle shortName) 0).id = 1 ∧
      (entryAt movedName 0).off = 192 ∧ checkOwner (entryAt movedName 0).owner
        (entryAt movedName 0).perms 7 0xF SHM_PERM_READ = .ok := by
    decide +kernel
  have hfound := (hf _ stillLive_movedName pageHandle 7 0xF hacc).2.2 (by decide)
  rw [hoff] at hfound
  exact hid ▸ hfound

/-- A name of 48 characters. -/
def longName : CStr := ⟨List.replicate 48 0x61, by decide⟩

/-- **The only object of a region, allocated under a name of 48 characters, is not found by it.** -/
theorem names_round_trip_fails :
    (Call.alloc (some pageHandle) ⟨8, some longName, 7, 0xF, 0⟩ true true).prog.val
      (freshMem pageGeometry) = .ok ∧
    Reach pageGeometry AnyCall (firstMem pageGeometry pageHandle ⟨8, some longName, 7, 0xF, 0⟩) ∧
    (entryAt (firstMem pageGeometry pageHandle ⟨8, some longName, 7, 0xF, 0⟩) 0).alive = true ∧
    (entryAt (firstMem pageGeometry pageHandle ⟨8, some longName, 7, 0xF, 0⟩) 0).id = 1 ∧
    (shmLookupByName (some pageHandle) (some longName) 7 0xF true true).val
      (firstMem pageGeometry pageHandle ⟨8, some longName, 7, 0xF, 0⟩) = .enoent := by
  refine ⟨by decide +kernel, (reach_first rfl (by decide) (by decide) (by decide) (by decide)).mono
    fun _ _ _ => trivial, ?_, ?_, ?_⟩ <;> decide +kernel

end ShmAlloc
