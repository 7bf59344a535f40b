import ShmAlloc.Guarantees.Concurrency
import ShmAlloc.Guarantees.Fingerprint
import ShmAlloc.Guarantees.Offsets
import ShmAlloc.Lib.Watch

/-!
# Reading without the mutex

`shm_ptr`, `shm_block_info` and the functions on capabilities do not take the mutex: they read the
header of a block while other processes allocate, free and resize, the blocks next to it included.
What a call that is not about the object writes is never a byte of the object, at no moment of the
call.  So whoever looks at an object sees it as it is, however many calls are made meanwhile.

## What is here

* `Spares`: a call is promised, and is not directed at the object by somebody who may.
* `Kept`: the bytes that stay.  They are those of the object, and the bytes of the region header
  that say where things are, which the mutex is not among: locking writes it.
* `not_writes_kept`: **a call that spares an object writes none of its bytes**, from its first
  access to its last.
* `Serial.stands`: turns that spare an object leave it standing.
* `Use.loads_kept`: what a reader loads is kept.
* `reading_needs_no_mutex`: **while processes make calls that spare an object, access by access and
  in any order, `shm_ptr`, `shm_block_info` and the functions on capabilities answer as they do in
  the state before.**
-/

set_option autoImplicit false

namespace ShmAlloc

open Tiling
open Machine (Steps Watch start)

variable {G : Geometry} {m m₀ : Mem} {bs : List Blk} {i : Nat} {P : Type}

/-! ## What is left alone -/

/-- The call is promised, and not directed at the object in slot `i` by somebody who may. -/
def Spares (G : Geometry) (i : Nat) (m : Mem) (c : LockedCall) : Prop :=
  Promised G m c ∧ ∀ d, c = .mutate d → ¬ Authorised m i d

/-- The byte at `x` belongs to the object in slot `i`, or to the part of the region header that says
where things are: what stands before the free list, but for the mutex in bytes 16 to 55, which every
call takes and releases. -/
def Kept (G : Geometry) (m : Mem) (i x : Nat) : Prop :=
  (x < 88 ∧ ¬ (16 ≤ x ∧ x < 56)) ∨ OfObject G m i x

/-- The bytes of an object say which they are. -/
theorem kept_congr (h : FullInv G m₀ bs) (hi : i < G.dirCap)
    (ha : (entryAt m₀ i).alive = true) (hm : ∀ x, Kept G m₀ i x → m x = m₀ x) :
    entryAt m i = entryAt m₀ i ∧ ∀ x, Kept G m i x ↔ Kept G m₀ i x := by
  obtain ⟨pre, b, post, rfl, hh⟩ := h.holds hi ha
  have hR := h.heap.toRep
  have hent : entryAt m i = entryAt m₀ i :=
    entryAt_congr fun x h1 h2 => hm x (.inr (.inl ⟨h1, h2⟩))
  have hoff : (entryAt m₀ i).off - 56 = b.off := by
    rw [hh.mirrors.off, Nat.add_sub_cancel]
  have hmin := (hR.wf b (by simp)).min
  have hfields := (hR.blk b (by simp)).fields
  have hblk : BlkAt G m b := (hR.blk b (by simp)).congr fun x h1 h2 => by
    refine hm x (.inr (.inr ?_))
    rw [hoff, hfields]
    exact ⟨h1, by omega⟩
  refine ⟨hent, fun x => ?_⟩
  rw [Kept, Kept, OfObject, OfObject, hent, hoff, hblk.fields, hfields]

/-- **A call that spares an object writes none of its bytes**, from its first access to its last. -/
theorem not_writes_kept (h : FullInv G m bs) (hi : i < G.dirCap)
    (ha : (entryAt m i).alive = true) {c : LockedCall} (hc : Spares G i m c) {x : Nat}
    (hx : Kept G m i x) : ¬ Writes (c.prog.trace m) x := by
  rcases c.mutates_or_quiet with ⟨d, rfl⟩ | ⟨-, hquiet⟩
  · obtain ⟨pre, b, post, rfl, hh⟩ := h.holds hi ha
    obtain ⟨rc, W, bs', hrun, hexec⟩ := callRun h.toInv hc.1.1
    rw [← writes_effects, LockedCall.prog, hexec.eff]
    rcases hx with hx | hx
    · exact hrun.not_writes_header h.toInv (.inl hx.1)
    · exact hrun.spares h hh (by simp) hx (hc.2 d rfl)
  · rintro ⟨e, he, ht⟩
    exact Event.not_touches_of_not_isWrite (hquiet m e he) ht

/-! ## While calls are made -/

/-- The state is reachable, and the object in slot `i` is as it was. -/
structure Stands (G : Geometry) (m₀ : Mem) (i : Nat) (m : Mem) : Prop where
  reach : Reach G NoWrap m
  kept : ∀ x, Kept G m₀ i x → m x = m₀ x

section

variable (h₀ : Reach G NoWrap m₀) (hi : i < G.dirCap) (ha : (entryAt m₀ i).alive = true)
include h₀ hi ha

/-- While an object stands, a call that spares it does not write to it. -/
theorem Stands.not_writes (h : Stands G m₀ i m) {c : LockedCall} (hc : Spares G i m c) {x : Nat}
    (hx : Kept G m₀ i x) : ¬ Writes (c.prog.trace m) x := by
  obtain ⟨bs₀, hI₀⟩ := h₀.fullInv
  obtain ⟨bs, hI⟩ := h.reach.fullInv
  obtain ⟨hent, hkept⟩ := kept_congr hI₀ hi ha h.kept
  exact not_writes_kept hI hi (hent ▸ ha) hc ((hkept x).2 hx)

/-- **Turns that spare an object leave it standing.** -/
theorem Serial.stands {log : List (Turn LockedCall Rc)}
    (h : Serial LockedCall.prog (Spares G i) m₀ log m) (hall : AllReturned log) :
    Stands G m₀ i m := by
  induction h with
  | nil => exact ⟨h₀, fun _ _ => rfl⟩
  | @returned log m _ c hC ih =>
    have hm := ih hall.tail
    refine ⟨?_, fun x hx => ?_⟩
    · rcases c.mutates_or_quiet with ⟨d, rfl⟩ | ⟨-, hquiet⟩
      · exact hm.reach.step (.call d hC.1.1 hC.1.2)
      · rw [hquiet.mem]
        exact hm.reach
    · exact (replay_of_not_writes (hm.not_writes h₀ hi ha hC hx) m).trans (hm.kept x hx)
  | stopped _ c hC V hV ih =>
    obtain ⟨rc, hrc⟩ := hall _ List.mem_cons_self
    exact nomatch hrc

variable [DecidableEq P]

/-- The object is as it was at every moment, within calls and between them. -/
theorem kept_always (s : Machine P LockedCall Rc)
    (hs : Steps LockedCall.prog (Spares G i) (start m₀) s) (hall : AllReturned s.past) {x : Nat}
    (hx : Kept G m₀ i x) : s.mem x = m₀ x := by
  obtain ⟨m, hserial, hat⟩ := hs.between_or_inside
  have hm := Serial.stands h₀ hi ha hserial hall
  rcases hat with ⟨-, hmem⟩ | ⟨p, c, V, -, hc, hV, hmem⟩
  · rw [hmem]
    exact hm.kept x hx
  · rw [hmem, replay_of_not_writes fun hw => hm.not_writes h₀ hi ha hc hx (hw.of_prefix hV)]
    exact hm.kept x hx

end

/-! ## What is read -/

/-- The functions that take an offset read the header of its block. -/
theorem Use.loads_kept (h : Reach G NoWrap m) (hi : i < G.dirCap)
    (ha : (entryAt m i).alive = true) (r : Region) {u : Use} (hu : ¬ u.searches) :
    LoadsIn (Inside (Kept G m i)) (u.prog r (entryAt m i).off) m := by
  obtain ⟨bs, hI⟩ := h.fullInv
  obtain ⟨pre, b, post, rfl, hh⟩ := hI.holds hi ha
  have hR := hI.heap.toRep
  have hbm : b ∈ pre ++ b :: post := by simp
  have hmin := (hR.wf b hbm).min
  have hbounds := hR.bounds hbm
  have hoff : (entryAt m i).off - 56 = b.off := by
    rw [hh.mirrors.off, Nat.add_sub_cancel]
  have hhdr : hdrOf m (entryAt m i).off = G.base + b.off := by
    rw [hh.mirrors.off]
    exact hdrOf_blk hI.layout (by omega)
  have hkept : ∀ a n, FromHdr (G.base + b.off) a n →
      Inside (Kept G m i) a n := fun a n ha x h1 h2 => by
    refine .inr (.inr ?_)
    rw [hoff, (hR.blk b hbm).fields]
    exact ⟨ha.1.trans h1, by have := ha.2; omega⟩
  refine ((Use.loads r m _ u).resolve_right fun hs => hu hs.1).mono fun a n hl => ?_
  rw [hhdr] at hl
  rcases hl with ⟨rfl, rfl⟩ | ⟨-, ⟨rfl, rfl⟩ | ⟨-, hl⟩⟩
  · -- `data_offset` stands behind the mutex
    exact fun x h1 h2 => .inl (by omega)
  · exact hkept _ _ ⟨Nat.le_refl _, by omega⟩
  · exact hkept _ _ hl

/-- **Reading without the mutex is safe.**  While processes make calls that are `Promised`, access
by access and in any order, none of which is directed at an object by somebody who may, whoever
reads bytes of the object, or of the region header before the free list and outside the mutex, gets
what he would get if nobody else was there.  So does every function that takes the offset of the
object, and stays out of the directory.  This needs that nobody dies with the mutex. -/
theorem reading_needs_no_mutex [DecidableEq P] (h₀ : Reach G NoWrap m₀) (hi : i < G.dirCap)
    (ha : (entryAt m₀ i).alive = true) {s s' : Machine P LockedCall Rc}
    (hs : Steps LockedCall.prog (Spares G i) (start m₀) s) (hall : AllReturned s'.past) :
    (∀ (β : Type) (t : Code β) (b : β), Watch LockedCall.prog (Spares G i) s t s' b →
      LoadsIn (Inside (Kept G m₀ i)) t.denote m₀ → b = t.denote.val m₀) ∧
    ∀ (r : Region) (u : Use) (t : Code Bool) (b : Bool), ¬ u.searches →
      t.denote = u.prog r (entryAt m₀ i).off →
      Watch LockedCall.prog (Spares G i) s t s' b → b = (u.prog r (entryAt m₀ i).off).val m₀ := by
  have hany : ∀ (β : Type) (t : Code β) (b : β), Watch LockedCall.prog (Spares G i) s t s' b →
      LoadsIn (Inside (Kept G m₀ i)) t.denote m₀ → b = t.denote.val m₀ := fun β t b hw hin =>
    hw.val_of_kept hs hall (fun u hu hall x hx => kept_always h₀ hi ha u hu hall hx) hin
  refine ⟨hany, fun r u t b hu ht hw => ?_⟩
  rw [← ht]
  exact hany Bool t b hw (ht ▸ Use.loads_kept h₀ hi ha r hu)

/-- On the page with one object, a pointer to it is found while a second one is made. -/
theorem reading_needs_no_mutex_page : ∃ (s : Machine Bool LockedCall Rc) (t : Turn LockedCall Rc),
    s.log = [t] ∧ t.op = .mutate (asks 8) ∧ Reply.ofTurn t = some ⟨.ok, some 2, some 120⟩ ∧
      ((Use.ptr 7 0xF SHM_PERM_READ).prog pageHandle 56).val s.mem = true := by
  obtain ⟨bs, hI⟩ := page_reach.fullInv
  have hoff : (entryAt (firstMem pageGeometry pageHandle eightBytes) 0).off = 56 := by
    decide +kernel
  have hreply : replyOf (LockedCall.mutate (asks 8)).prog
      (firstMem pageGeometry pageHandle eightBytes) = ⟨.ok, some 2, some 120⟩ := by decide +kernel
  have hptr : ((Use.ptr 7 0xF SHM_PERM_READ).prog pageHandle 56).val
      (firstMem pageGeometry pageHandle eightBytes) = true := by decide +kernel
  have hc : Spares pageGeometry 0 (firstMem pageGeometry pageHandle eightBytes)
      (.mutate (asks 8)) :=
    ⟨⟨legal_alloc hI.toInv rfl (by decide) (by decide), by unfold NoWrap; decide +kernel⟩,
      fun d hd => by cases hd; exact id⟩
  have hreach := page_reach
  have halive := page_alive
  obtain ⟨W, hW⟩ := trace_shmAlloc_cons pageHandle (show eightBytes.size ≠ 0 by decide)
    (firstMem pageGeometry pageHandle eightBytes)
  obtain ⟨t, ht, hlooks⟩ : Emits (fun e => e.isLockOp = false ∧ e.isWrite = false)
      ((Use.ptr 7 0xF SHM_PERM_READ).prog pageHandle 56) :=
    (emits_shmPtr _ _ _ _ _).bind fun _ => .pure _
  generalize firstMem pageGeometry pageHandle eightBytes = m₀ at *
  obtain ⟨s, hs, hfree, hlog, -⟩ := (Steps.refl (s := start m₀)).alone (p := true)
    (C := Spares pageGeometry 0) rfl rfl (LockedCall.guarded _) hW (by decide) hc
  have hall : AllReturned s.past := by
    rw [Machine.past_of_free hfree, hlog]
    exact allReturned_of_reply (congrArg some hreply)
  have hsame := (reading_needs_no_mutex hreach (i := 0) (by decide) halive .refl hall).2
    pageHandle (.ptr 7 0xF SHM_PERM_READ) t _ id (hoff.symm ▸ ht) (.after hs (.at_once s hlooks))
  refine ⟨s, _, hlog, rfl, congrArg some hreply, ?_⟩
  rw [← ht, hsame, hoff]
  exact hptr

end ShmAlloc
