import ShmAlloc.Guarantees.Concurrency
import ShmAlloc.Guarantees.Refinement

/-!
# Calls are atomic

Processes run their calls access by access, in any order.  What they are told is what the object
store tells them, one call after the other, in the order in which they got the mutex: a call takes
effect at one moment between its beginning and its end.

## What is here

* `Answered`: a turn is over, and its call was told this, the code it returned and all that it wrote
  through its out-pointers.
* `Serial.storeRun`: **turns that are over make up a run of the store**, with the same answers.
* `HoldsOrInside`: the memory belongs to the store, or one more call is being made on one that does.
* `calls_are_atomic`: **calls that are `Admissible` when they get the mutex are atomic**: there is a
  run of the store with exactly the answers that were given.

The step from turns to the store is the refinement of one call (`allocator_is_store` says the same
of a run); the step from an interleaving to turns comes from the library.
-/

set_option autoImplicit false

namespace ShmAlloc

open Machine (Steps start)

variable {G : Geometry} {m m₀ : Mem} {P : Type}

/-- The turn is over, and its call was told this: the code it returned, and what it wrote through
its out-pointers. -/
def Answered (t : Turn LockedCall Rc) (a : LockedCall × Reply) : Prop :=
  t.op = a.1 ∧ Reply.ofTurn t = some a.2

/-- **Turns that are over make up a run of the store.** -/
theorem Serial.storeRun {log : List (Turn LockedCall Rc)} (h₀ : HoldsStore G m₀)
    (h : Serial LockedCall.prog (Admissible G) m₀ log m) (hall : AllReturned log) :
    HoldsStore G m ∧ ∃ told, StoreRun G.dirCap (storeOf G m₀) told (storeOf G m) ∧
      List.Forall₂ Answered log.reverse told := by
  induction h with
  | nil => exact ⟨h₀, [], .refl, .nil⟩
  | @returned log m _ c hC ih =>
    obtain ⟨hm, told, hrun, hmap⟩ := ih hall.tail
    refine ⟨hm.call hC, _, hrun.call (hm.refines hC), ?_⟩
    rw [List.reverse_cons]
    exact List.rel_append hmap (.cons ⟨rfl, rfl⟩ .nil)
  | stopped _ c hC V hV ih =>
    obtain ⟨rc, W, hrc⟩ := hall _ List.mem_cons_self
    exact nomatch hrc

/-- The memory is the one that belongs to the store, or a call is being made that belongs to it. -/
inductive HoldsOrInside (G : Geometry) (m : Mem) (s : Machine P LockedCall Rc) : Prop
  | holds (hfree : s.holder = none) (hmem : s.mem = m)
  | inside {p : P} (hheld : s.holder = some p) {c : LockedCall} (hc : Admissible G m c)
    {V : List Event} (hV : V <+: c.prog.trace m) (hmem : s.mem = replay V m)

/-- **Calls are atomic.**  Let processes run calls on a fresh region, access by access and in any
order, each of them `Admissible` when it gets the mutex, and let none die with the mutex.  Then the
store, starting empty, can be given the calls that have returned, in the order in which they got the
mutex, to each of which it gives the answer it got, return code and out-parameters, and the memory
holds the store that leads to, but for what the call that has the mutex has done. -/
theorem calls_are_atomic [DecidableEq P] {backend nsInode cgroupHash : Nat} {name : Option CStr}
    {m₀ : Mem} {s : Machine P LockedCall Rc}
    (hs : Steps LockedCall.prog (Admissible G)
      (start ((regionInit G.size backend G.dirCap name nsInode cgroupHash).mem m₀)) s)
    (hall : AllReturned s.past) :
    ∃ m told, StoreRun G.dirCap (Registry.empty 1) told (storeOf G m) ∧
      List.Forall₂ Answered s.past.reverse told ∧ HoldsOrInside G m s := by
  have h₀ : HoldsStore G _ :=
    (Reach.init (C := NoWrap) m₀ backend nsInode cgroupHash name).holdsStore
  obtain ⟨m, hserial, hat⟩ := hs.between_or_inside
  obtain ⟨-, told, hrun, hmap⟩ := Serial.storeRun h₀ hserial hall
  rw [storeOf_init] at hrun
  refine ⟨m, told, hrun, hmap, ?_⟩
  rcases hat with ⟨hh, hmem⟩ | ⟨p, c, V, hh, hc, hV, hmem⟩
  · exact .holds hh hmem
  · exact .inside hh hc hV hmem

/-- Two users ask for eight bytes at the same time; the store gives one of them its object. -/
theorem calls_are_atomic_page : ∃ (s : Machine Bool LockedCall Rc) (m : Mem),
    s.task false ≠ none ∧
      StoreRun pageGeometry.dirCap (Registry.empty 1)
        [(.mutate (asks 8), ⟨.ok, some 1, some 56⟩)] (storeOf pageGeometry m) ∧
      HoldsOrInside pageGeometry m s := by
  have hl : Admissible pageGeometry (freshMem pageGeometry) (.mutate (asks 8)) :=
    ⟨legal_alloc (inv_fresh pageGeometry).toInv rfl (by decide) (by decide),
      noWrap_first (by decide) (by decide) (by decide) (by decide),
      fun r hr => Option.some.inj hr ▸ rfl⟩
  obtain ⟨s, hs, hfree, hwait, t, hlog, hop, hreply⟩ := two_users_page hl
  have hall : AllReturned s.past := by
    rw [Machine.past_of_free hfree, hlog]
    exact allReturned_of_reply hreply
  obtain ⟨m, told, hrun, hmap, hat⟩ := calls_are_atomic hs hall
  rw [Machine.past_of_free hfree, hlog] at hmap
  obtain ⟨p, rfl, hp⟩ : ∃ p, told = [p] ∧ Answered t p := by
    cases hmap with
    | cons h ht =>
      cases ht
      exact ⟨_, rfl, h⟩
  obtain ⟨c, a⟩ := p
  obtain ⟨rfl, ha⟩ := hp
  obtain rfl : ⟨.ok, some 1, some 56⟩ = a := Option.some.inj (hreply.symm.trans ha)
  rw [hop] at hrun
  exact ⟨s, m, hwait, hrun, hat⟩

end ShmAlloc
