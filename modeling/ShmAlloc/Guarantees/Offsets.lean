import ShmAlloc.Guarantees.Capability
import ShmAlloc.Region.Raw

/-!
# Bare offsets

Six functions take an offset from the caller and look for a block header in front of it.  None of
them compares the offset with the ends of the heap, and what tells a header from other bytes is one
magic word.  So an offset is handled as documented exactly if the four bytes it leads to are in the
heap, and are not the magic word unless a block starts there.

## What is here

* `Use`: a call of one of the six functions, with its other arguments.
* `Use.Refuses`: the answer for an offset that is no good, which is `NULL`, `EINVAL`, `SHM_CAP_NULL`
  or `false`, by function.
* `Use.Validated`: what is documented, in three parts: what is read, that success means a block is
  there, and that where none is the offset is refused.
* `Use.finds_or_refuses` and `Use.found`: a use finds the magic word, and the tag bit if it asks for
  it, or refuses.
* `Use.loads`: **a use reads the header it was led to, and nothing behind a missing magic word.**
* `offsets_validated`: **all six functions validate an offset exactly if** the pointer is null, or
  the four bytes are in the heap and are the magic word only where a block starts.
* `offsets_validated_fails`: an offset past the end is followed, and one into a payload is accepted
  if the bytes there look like a header.

The functions differ in what else they check, which is settled in `Region/Raw`; here they are one
type, so that each lemma is one case analysis over it.
-/

set_option autoImplicit false

namespace ShmAlloc

open Tiling Links

variable {G : Geometry} {m : Mem} {bs : List Blk} {r : Region} {p off : Nat}

/-! ## The six functions -/

/-- A call of one of the functions that take a bare offset, with its other arguments.  A capability
is the offset and its meta word. -/
inductive Use
  | ptr (userId callerPerms required : UInt32)
  | info (outPayloadCap outOwner outPerms outTypeTag outObjId : Bool)
  | setPerms (userId callerPerms newPerms : UInt32)
  | derive (userId callerPerms grant : UInt32)
  | deref (metaWord : UInt64) (required : UInt32)
  | isValid (metaWord : UInt64)

namespace Use

/-- Make the call; tells whether it succeeded. -/
def prog (r : Region) (off : Nat) : Use → Prog Bool
  | ptr userId callerPerms required => do
    let p ← shmPtr (some r) off userId callerPerms required
    return p.isSome
  | info c o p t i => do
    let rc ← shmBlockInfo (some r) off c o p t i
    return rc == .ok
  | setPerms userId callerPerms newPerms => do
    let rc ← shmBlockSetPerms (some r) off userId callerPerms newPerms
    return rc == .ok
  | derive userId callerPerms grant => do
    let c ← shmCapDerive (some r) off userId callerPerms grant
    return c != SHM_CAP_NULL
  | deref metaWord required => do
    let p ← shmCapDeref (some r) ⟨off, metaWord⟩ required
    return p.isSome
  | isValid metaWord => shmCapIsValid (some r) ⟨off, metaWord⟩

/-- The function asks for a live block. -/
def needsLive : Use → Prop
  | info .. => False
  | _ => True

/-- The function goes on to the directory once it has accepted the offset. -/
def searches : Use → Prop
  | setPerms .. => True
  | _ => False

/-- The call gives the answer for an offset that is no good: `NULL`, `EINVAL`, `SHM_CAP_NULL` or
`false`. -/
def Refuses (r : Region) (m : Mem) (off : Nat) : Use → Prop
  | ptr userId callerPerms required =>
    (shmPtr (some r) off userId callerPerms required).val m = none
  | info c o p t i => (shmBlockInfo (some r) off c o p t i).val m = .einval
  | setPerms userId callerPerms newPerms =>
    (shmBlockSetPerms (some r) off userId callerPerms newPerms).val m = .einval
  | derive userId callerPerms grant =>
    (shmCapDerive (some r) off userId callerPerms grant).val m = SHM_CAP_NULL
  | deref metaWord required => (shmCapDeref (some r) ⟨off, metaWord⟩ required).val m = none
  | isValid metaWord => (shmCapIsValid (some r) ⟨off, metaWord⟩).val m = false

/-- The offset is that of a payload the function is for: of a block of the heap, and of a live one
where the function asks for it. -/
def AtBlock (bs : List Blk) (off : Nat) (u : Use) : Prop :=
  ∃ b ∈ bs, off = b.off + 56 ∧ (u.needsLive → b.live = true)

/-- **The offset is validated**: apart from `data_offset`, and the directory for an offset that was
accepted, the call reads the heap only; it succeeds only at a block of the heap, a live one where
the function asks for it; and at any other offset it says that the offset is no good. -/
structure Validated (G : Geometry) (m : Mem) (bs : List Blk) (r : Region) (off : Nat) (u : Use) :
    Prop where
  reads : ∀ a n, .load a n ∈ (u.prog r off).trace m → G.base ≤ a ∧ a + n ≤ G.size ∨
    a = 80 ∧ n = 8 ∨ u.searches ∧ (u.prog r off).val m = true ∧ a + n ≤ G.base
  block : (u.prog r off).val m = true → u.AtBlock bs off
  refused : ¬ u.AtBlock bs off → u.Refuses r m off

end Use

/-! ## When they succeed

Success needs both words; that the rest of the checks is about the caller and not about the offset
is why nothing more is needed here. -/

/-- The pointer leads to the magic word, and to the tag bit if the function asks for it. -/
def Use.Finds (r : Region) (m : Mem) (off : Nat) (u : Use) : Prop :=
  isNull r (hdrOf m off) = false ∧ m.load (hdrOf m off) 4 = SHM_ALLOC_MAGIC_BLOCK ∧
    (u.needsLive → PassesLive r m (hdrOf m off))

/-- **A use that does not find the magic word**, or the tag bit if it asks for it, says that the
offset is no good. -/
theorem Use.finds_or_refuses (r : Region) (m : Mem) (off : Nat) (u : Use) :
    u.Finds r m off ∨ u.Refuses r m off := by
  -- five of the six ask for a live block
  have hlive : (¬ PassesLive r m (hdrOf m off) → u.Refuses r m off) →
      u.Finds r m off ∨ u.Refuses r m off := fun hrefuses => by
    by_cases hp : PassesLive r m (hdrOf m off)
    · exact .inl ⟨hp.mapped, hp.magic, fun _ => hp⟩
    · exact .inr (hrefuses hp)
  cases u with
  | ptr userId callerPerms required =>
    exact hlive fun hno => (val_shmPtr r m off userId callerPerms required).trans
      (if_neg fun hp => hno hp.1)
  | info c o p t i =>
    by_cases hp : isNull r (hdrOf m off) = false ∧
        m.load (hdrOf m off) 4 = SHM_ALLOC_MAGIC_BLOCK
    · exact .inl ⟨hp.1, hp.2, fun hn => hn.elim⟩
    · exact .inr ((val_shmBlockInfo r m off c o p t i).trans (if_neg hp))
  | setPerms userId callerPerms newPerms =>
    exact hlive fun hno => val_shmBlockSetPerms_of_not_live hno userId callerPerms newPerms
  | derive userId callerPerms grant =>
    refine hlive fun hno => ?_
    rcases val_shmCapDerive r m off userId callerPerms grant with ⟨hp, -⟩ | ⟨-, hnull⟩
    · exact absurd hp.live hno
    · exact hnull
  | deref metaWord required =>
    refine hlive fun hno => ?_
    by_contra hsome
    exact hno ((val_shmCapIsValid r m _).1 (isValid_of_deref hsome)).2.1
  | isValid metaWord =>
    refine hlive fun hno => ?_
    rw [Refuses, ← Bool.not_eq_true]
    exact fun hvalid => hno ((val_shmCapIsValid r m _).1 hvalid).2.1

/-- A use that says so has not succeeded. -/
theorem Use.Refuses.fails {u : Use} (h : u.Refuses r m off) : (u.prog r off).val m = false := by
  cases u with
  | isValid metaWord => exact h
  | _ =>
    rw [Refuses] at h
    rw [prog, Prog.val_bind, Prog.val_pure, h]
    rfl

/-- **A use that succeeds has found the magic word**, and the tag bit if it asks for it. -/
theorem Use.found {u : Use} (h : (u.prog r off).val m = true) : u.Finds r m off :=
  (u.finds_or_refuses r m off).resolve_right fun hrefuses =>
    Bool.noConfusion (hrefuses.fails.symm.trans h)

/-! ## What they read -/

theorem loads_regionLock {P : Nat → Nat → Prop} (r : Region) (m : Mem) :
    LoadsIn P (regionLock r) m := by
  refine .bind .emit ?_
  split
  · exact .emit
  · exact .pure _

/-- A search of the directory reads the region header and the slots. -/
theorem loads_dirFind (hL : LayoutOk G m) {test : Nat → Prog Bool} (hr : ∀ e, ReadsOnly (test e))
    (ht : ∀ i, i < G.dirCap → LoadsIn (fun a n => a + n ≤ G.base) (test (slotAddr i)) m) :
    LoadsIn (fun a n => a + n ≤ G.base) (dirFind test) m := by
  have hD := G.base_ge
  have hscan : ∀ n i, i + n = G.dirCap →
      LoadsIn (fun a n => a + n ≤ G.base) (dirScan test n i) m := by
    intro n
    induction n with
    | zero => exact fun i _ => .pure _
    | succ n ih =>
      intro i hi
      have hslot : ReadsOnly (shmDirSlot i) := (ReadsOnly.get _ _).bind fun _ => .pure _
      refine .bind_reads (hslot m) (.bind (.load (by simp; omega)) (.pure _)) ?_
      rw [(exec_dirSlot hL (i := i) (by omega)).val]
      refine .bind_reads (hr _ m) (ht i (by omega)) ?_
      split
      · exact .pure _
      · exact ih (i + 1) (by omega)
  refine .load_bind (by simp; omega) ?_
  have hcap : m.load (shmRh + RegionHdr.dirCapacity.off) RegionHdr.dirCapacity.width = G.dirCap :=
    hL.dirCapacity
  rw [hcap]
  exact hscan G.dirCap 0 (Nat.zero_add _)

theorem loads_dirFindById (hL : LayoutOk G m) (objId : Nat) :
    LoadsIn (fun a n => a + n ≤ G.base) (dirFindById objId) m := by
  refine loads_dirFind hL (fun _ => (ReadsOnly.get _ _).bind fun _ =>
    (ReadsOnly.get _ _).bind fun _ => .pure _) fun i hi => ?_
  have h1 := G.slotAddr_lt hi
  exact .load_bind (by simp; omega) (.load_bind (by simp; omega) (.pure _))

/-- **At a block, what is accepted reads the header and the directory.** -/
theorem loads_shmBlockSetPerms (hL : LayoutOk G m) (hp : 88 ≤ hdrOf m off)
    (userId callerPerms newPerms : UInt32) :
    LoadsIn (fun a n => a = 80 ∧ n = 8 ∨ FromHdr (hdrOf m off) a n ∨ a + n ≤ G.base)
      (shmBlockSetPerms (some r) off userId callerPerms newPerms) m := by
  refine .bind (loads_regionLock r m) ?_
  rw [mem_regionLock]
  refine .bind_reads (readsOnly_blkOfPoff off m) (.load_bind (.inl ⟨rfl, rfl⟩) (.pure _)) ?_
  rw [val_blkOfPoff]
  generalize hdrOf m off = p at hp ⊢
  refine .bind_reads (readsOnly_checkBlockAccess _ _ _ _ _ m)
    ((loads_checkBlockAccess r m p _ _ _).mono fun a n h => .inr (.inl ?_)) ?_
  · rcases h.2 with ⟨rfl, rfl⟩ | h
    · exact ⟨Nat.le_refl _, by omega⟩
    · exact h.2
  split
  · have hL' : LayoutOk G (m.store (p + 12) 4 newPerms.toNat) :=
      hL.of_writes (W := [.store (p + 12) 4 newPerms.toNat]) fun x hx => by
        simp only [writes_cons, not_writes_nil, Event.Touches, or_false] at hx
        omega
    refine .bind .emit (.bind .emit (.load_bind (.inr (.inl ⟨?_, ?_⟩)) ?_))
    · simp
    · simp
    · refine .bind_reads (readsOnly_dirFindById _ _)
        ((loads_dirFindById hL' _).mono fun _ _ h => .inr (.inr h)) (.bind ?_ ?_)
      · generalize (dirFindById _).val _ = slot
        cases slot with
        | none => exact .pure _
        | some s => exact .bind .emit .emit
      · exact .bind .emit (.bind .emit (.pure _))
  · exact .bind .emit (.pure _)

/-- **A use reads the header it was led to**, and nothing behind a missing magic word; unless it has
accepted the offset and goes on to the directory. -/
theorem Use.loads (r : Region) (m : Mem) (off : Nat) (u : Use) :
    LoadsIn (RawLoad r m (hdrOf m off)) (u.prog r off) m ∨
      u.searches ∧ (u.prog r off).val m = true := by
  cases u with
  | ptr userId callerPerms required =>
    refine .inl (.bind (loads_blkOfPoff_bind (.bind_reads (readsOnly_checkBlockAccess _ _ _ _ _ m)
      ((loads_checkBlockAccess r m (hdrOf m off) _ _ _).mono fun _ _ => .inr) ?_)) (.pure _))
    split
    · exact .pure _
    · exact .pure _
  | info c o p t i =>
    exact .inl (.bind (loads_blkOfPoff_bind
      ((loads_blockInfoAt r m (hdrOf m off) c o p t i).mono fun _ _ => .inr)) (.pure _))
  | setPerms userId callerPerms newPerms =>
    by_cases hacc : (checkBlockAccess r (hdrOf m off) userId callerPerms SHM_PERM_WRITE).val m = .ok
    · refine .inr ⟨trivial, ?_⟩
      rw [prog, Prog.val_bind, Prog.val_pure, shmBlockSetPerms, Prog.val_bind, mem_regionLock,
        val_blkOfPoff_bind, Prog.val_bind, hacc, if_pos rfl]
      rfl
    · refine .inl (.bind (.bind (loads_regionLock r m) ?_) (.pure _))
      rw [mem_regionLock]
      refine loads_blkOfPoff_bind (.bind_reads (readsOnly_checkBlockAccess _ _ _ _ _ m)
        ((loads_checkBlockAccess r m (hdrOf m off) _ _ _).mono fun _ _ => .inr) ?_)
      rw [if_neg hacc]
      exact .bind .emit (.pure _)
  | derive userId callerPerms grant =>
    refine .inl (.bind (loads_blkOfPoff_bind (.bind_reads (readsOnly_isLiveBlk _ _ m)
      ((loads_isLiveBlk r m (hdrOf m off)).mono fun _ _ => .inr) ?_)) (.pure _))
    rw [val_isLiveBlk]
    split
    · rename_i hlive
      have hp := of_decide_eq_true hlive
      exact (LoadsIn.ofHdr (loads_deriveFrom userId callerPerms grant) hp.mapped hp.magic).mono
        fun _ _ => .inr
    · exact .pure _
  | deref metaWord required =>
    refine .inl (.bind ?_ (.pure _))
    rw [shmCapDeref]
    split
    · exact .pure _
    refine loads_blkOfPoff_bind (.bind_reads (readsOnly_isLiveBlk _ _ m)
      ((loads_isLiveBlk r m (hdrOf m off)).mono fun _ _ => .inr) ?_)
    rw [val_isLiveBlk]
    split
    · rename_i hlive
      have hp := of_decide_eq_true hlive
      refine LoadsIn.mono (LoadsIn.ofHdr (.bind_reads (readsOnly_matchesMeta _ _ m)
        (loads_matchesMeta _) ?_) hp.mapped hp.magic) fun _ _ => .inr
      split
      · exact loads_derefPerms _ _
      · exact .pure _
    · exact .pure _
  | isValid metaWord =>
    refine .inl ?_
    rw [prog, shmCapIsValid]
    split
    · exact .pure _
    refine loads_blkOfPoff_bind (.bind_reads (readsOnly_isLiveBlk _ _ m)
      ((loads_isLiveBlk r m (hdrOf m off)).mono fun _ _ => .inr) ?_)
    rw [val_isLiveBlk]
    split
    · rename_i hlive
      have hp := of_decide_eq_true hlive
      exact LoadsIn.mono (LoadsIn.ofHdr (loads_matchesMeta _) hp.mapped hp.magic) fun _ _ => .inr
    · exact .pure _

/-! ## The offsets that are handled as documented -/

/-- The header of a block stands where its payload offset leads to. -/
theorem hdrOf_blk (hL : LayoutOk G m) {b : Blk} (hb : b.off + 56 ≤ G.heapSize) :
    hdrOf m (b.off + 56) = G.base + b.off := by
  rw [← val_blkOfPoff]
  exact (exec_blkOfPoff hL hb).val

/-- An offset that leads to the header of a block is its payload offset. -/
theorem off_of_hdrOf (hL : LayoutOk G m) (hoff : off < 2 ^ 64) {b : Blk}
    (hb : b.off + 56 ≤ G.heapSize) (h : hdrOf m off = G.base + b.off) : off = b.off + 56 := by
  have hsz := G.size_eq
  have hlt := G.size_lt
  rw [hdrOf, hL.dataOffset, sub64, add64] at h
  omega

/-- `shm_block_info` reads the magic word. -/
theorem probe_magic (hnull : isNull r p = false) :
    .load p 4 ∈ (blockInfoAt r p false false false false false).trace m := by
  rw [blockInfoAt, hnull, if_neg Bool.false_ne_true]
  exact List.mem_cons_self

theorem probe_info (hnull : isNull r (hdrOf m off) = false) :
    .load (hdrOf m off) 4 ∈ ((Use.info false false false false false).prog r off).trace m := by
  rw [Use.prog, shmBlockInfo, Prog.trace_bind, Prog.trace_bind, (readsOnly_blkOfPoff off m).mem,
    val_blkOfPoff]
  exact List.mem_append_left _ (List.mem_append_right _ (probe_magic hnull))

/-- **Bare offsets are validated** in every reachable state exactly if the pointer is null for this
process, or the four bytes it leads to are in the heap and not the magic word unless a block starts
there. -/
theorem offsets_validated (h : Reach G AnyCall m) (r : Region) {off : Nat} (hoff : off < 2 ^ 64) :
    ∃ bs, Inv G m bs ∧ ((∀ u : Use, u.Validated G m bs r off) ↔
      isNull r (hdrOf m off) = true ∨
      G.base ≤ hdrOf m off ∧ hdrOf m off + 4 ≤ G.size ∧
        (m.load (hdrOf m off) 4 = SHM_ALLOC_MAGIC_BLOCK →
          ∃ b ∈ bs, hdrOf m off = G.base + b.off)) := by
  obtain ⟨bs, hI⟩ := h.inv
  refine ⟨bs, hI, fun hall => ?_, fun hcond u => ?_⟩
  · cases hnull : isNull r (hdrOf m off) with
    | true => exact .inl rfl
    | false =>
      have hval := hall (.info false false false false false)
      have hin : G.base ≤ hdrOf m off ∧ hdrOf m off + 4 ≤ G.size := by
        rcases hval.reads _ _ (probe_info hnull) with hin | ⟨-, h4⟩ | ⟨hno, -⟩
        · exact hin
        · exact absurd h4 (by decide)
        · exact hno.elim
      refine .inr ⟨hin.1, hin.2, fun hmagic => ?_⟩
      have hok : ((Use.info false false false false false).prog r off).val m = true := by
        rw [Use.prog, Prog.val_bind, Prog.val_pure, val_shmBlockInfo, if_pos ⟨hnull, hmagic⟩]
        rfl
      obtain ⟨b, hb, rfl, -⟩ := hval.block hok
      exact ⟨b, hb, hdrOf_blk hI.layout (hI.hdr_le hb)⟩
  · -- a call that succeeds has seen the magic word, hence a block
    have hblk : m.load (hdrOf m off) 4 = SHM_ALLOC_MAGIC_BLOCK → isNull r (hdrOf m off) = false →
        ∃ b ∈ bs, hdrOf m off = G.base + b.off := fun hmagic hnull => by
      rcases hcond with hn | ⟨-, -, hb⟩
      · rw [hnull] at hn
        exact Bool.noConfusion hn
      · exact hb hmagic
    have hin : (∃ b ∈ bs, hdrOf m off = G.base + b.off) → ∀ {a n}, FromHdr (hdrOf m off) a n →
        G.base ≤ a ∧ a + n ≤ G.size := fun ⟨b, hb, hp⟩ a n ha => by
      have h1 := hI.hdr_le hb
      have h2 := G.size_eq
      obtain ⟨h3, h4⟩ := ha
      omega
    have hat : u.Finds r m off → u.AtBlock bs off := fun ⟨hnull, hmagic, hlive⟩ => by
      obtain ⟨b, hb, hp⟩ := hblk hmagic hnull
      refine ⟨b, hb, off_of_hdrOf hI.layout hoff (hI.hdr_le hb) hp, fun hn => ?_⟩
      have ha := (hlive hn).allocated
      rw [hp] at ha
      rw [← Bool.not_eq_false]
      exact fun hfree => ha ((hI.heap.blk b hb).allocated_eq_zero.2 hfree)
    refine ⟨fun a n hload => ?_, fun hok => hat (Use.found hok), fun hno =>
      (u.finds_or_refuses r m off).resolve_left fun hfinds => hno (hat hfinds)⟩
    · rcases u.loads r m off with hraw | ⟨hs, hok⟩
      · rcases hraw a n hload with h80 | ⟨hnull, hfirst | ⟨hmagic, hhdr⟩⟩
        · exact .inr (.inl h80)
        · rcases hcond with hn | ⟨hlo, hhi, -⟩
          · rw [hnull] at hn
            exact Bool.noConfusion hn
          · exact .inl ⟨by omega, by omega⟩
        · exact .inl (hin (hblk hmagic hnull) hhdr)
      · obtain ⟨hnull, hmagic, -⟩ := Use.found hok
        have hb := hblk hmagic hnull
        obtain ⟨userId, callerPerms, newPerms, rfl⟩ : ∃ i c p, u = .setPerms i c p := by
          cases u with
          | setPerms i c p => exact ⟨i, c, p, rfl⟩
          | _ => exact hs.elim
        have hp : 88 ≤ hdrOf m off := by
          obtain ⟨b, -, hp⟩ := hb
          have := G.base_ge
          omega
        rw [Use.prog, Prog.trace_bind, Prog.trace_pure, List.append_nil] at hload
        rcases loads_shmBlockSetPerms hI.layout hp userId callerPerms newPerms a n hload with
          h80 | hhdr | hdir
        · exact .inr (.inl h80)
        · exact .inl (hin hb hhdr)
        · exact .inr (.inr ⟨hs, hok, hdir⟩)

/-- The payload offset of the object of a page is validated. -/
theorem offsets_validated_page :
    ∃ bs, Inv pageGeometry (firstMem pageGeometry pageHandle eightBytes) bs ∧
      ∀ u : Use, u.Validated pageGeometry (firstMem pageGeometry pageHandle eightBytes) bs
        pageHandle 56 := by
  obtain ⟨bs, hI, hiff⟩ := offsets_validated (page_reach.mono fun _ _ _ => trivial) pageHandle
    (show 56 < 2 ^ 64 by decide)
  obtain ⟨pre, b, post, rfl, hh⟩ := hI.holds (i := 0) (by decide) page_alive
  have hb : b ∈ pre ++ b :: post := by simp
  have hoff : (entryAt (firstMem pageGeometry pageHandle eightBytes) 0).off = 56 := by
    decide +kernel
  have h0 : b.off + 56 = 56 := hh.mirrors.off.symm.trans hoff
  have hhdr : hdrOf (firstMem pageGeometry pageHandle eightBytes) 56 =
    pageGeometry.base + b.off := by
    rw [← h0]
    exact hdrOf_blk hI.layout (hI.hdr_le hb)
  have hsz : pageGeometry.base + b.off + 4 ≤ pageGeometry.size := by
    have h1 := hI.hdr_le hb
    have h2 := pageGeometry.size_eq
    omega
  refine ⟨_, hI, hiff.2 (.inr ⟨?_, ?_, fun _ => ⟨b, hb, hhdr⟩⟩)⟩
  · rw [hhdr]
    exact Nat.le_add_right _ _
  · rwa [hhdr]

/-! ### Two offsets that are not -/

/-- A user writes bytes of the payload at `a`, each given by its place and its value. -/
def writeBytes (a : Nat) (m : Mem) : List (Nat × UInt8) → Mem
  | [] => m
  | (k, v) :: kvs => writeBytes a (m.store (a + k) 1 v.toNat) kvs

/-- He may, in a live object. -/
theorem reach_writeBytes {C : Mem → Call → Prop} {i : Nat} (hi : i < G.dirCap)
    (kvs : List (Nat × UInt8)) : ∀ {m : Mem}, Reach G C m → (entryAt m i).alive = true →
      (∀ kv ∈ kvs, kv.1 < (entryAt m i).used) →
      Reach G C (writeBytes (G.base + (entryAt m i).off) m kvs) := by
  induction kvs with
  | nil => exact fun h _ _ => h
  | cons kv kvs ih =>
    intro m h ha hk
    have hent : entryAt (m.store (G.base + (entryAt m i).off + kv.1) 1 kv.2.toNat) i
        = entryAt m i := by
      refine entryAt_replay (W := [.store (G.base + (entryAt m i).off + kv.1) 1 kv.2.toNat])
        fun x hx hs => ?_
      simp only [writes_cons, not_writes_nil, Event.Touches, or_false] at hx
      have := hs.lt_base hi
      omega
    have hrest := ih (h.step (.write i kv.1 kv.2 hi ha (hk kv (by simp))))
    rw [hent] at hrest
    exact hrest ha fun kv' hkv => hk kv' (by simp [hkv])

/-- The owner of an object of 64 bytes writes what passes for the header of an allocated block. -/
def forgedMem : Mem :=
  writeBytes (pageGeometry.base + 56)
    (firstMem pageGeometry pageHandle ⟨64, none, 7, 0xF, 0⟩)
    [(0, 0x21), (1, 0x4B), (2, 0x4C), (3, 0x42), (16, 1)]

theorem forged_reach : Reach pageGeometry AnyCall forgedMem := by
  have hoff : (entryAt (firstMem pageGeometry pageHandle ⟨64, none, 7, 0xF, 0⟩) 0).off = 56 := by
    decide +kernel
  have h := reach_writeBytes (i := 0) (by decide)
    [(0, 0x21), (1, 0x4B), (2, 0x4C), (3, 0x42), (16, 1)]
    ((reach_first (G := pageGeometry) (r := pageHandle) (q := ⟨64, none, 7, 0xF, 0⟩) rfl (by decide)
      (by decide) (by decide) (by decide)).mono fun _ _ _ => trivial)
    (by decide +kernel) (by decide +kernel)
  rwa [hoff] at h

/-- No block starts in the payload of another. -/
theorem forged_not_block {bs : List Blk} (h : Inv pageGeometry forgedMem bs) :
    ¬ ∃ b ∈ bs, 112 = b.off + 56 := by
  rintro ⟨c, hc, hoff⟩
  obtain ⟨pre, b, post, rfl, hh⟩ := h.holds (i := 0) (by decide) (by decide +kernel)
  have h1 : (entryAt forgedMem 0).off = 56 := by decide +kernel
  have h2 : (entryAt forgedMem 0).used = 64 := by decide +kernel
  have h3 := hh.mirrors.off
  have h4 := hh.mirrors.used
  have h5 := (h.heap.wf c hc).min
  rcases h.heap.tiles.eq_or_disjoint (a := b) (b := c) (by simp) hc with rfl | h6 | h6 <;> omega

/-- **An offset past the end is followed**, out of the mapping; and an offset into a payload is
accepted, if the bytes there look like a header. -/
theorem offsets_validated_fails :
    Reach pageGeometry AnyCall forgedMem ∧
    .load pageGeometry.size 4 ∈
      ((Use.ptr 7 0xF 0x1).prog pageHandle (pageGeometry.heapSize + 56)).trace forgedMem ∧
    (shmPtr (some pageHandle) 112 0 0 0).val forgedMem = some (pageGeometry.base + 112) ∧
    (shmBlockInfo (some pageHandle) 112 true true true true true).val forgedMem = .ok ∧
    ∀ bs, Inv pageGeometry forgedMem bs → ¬ ∃ b ∈ bs, 112 = b.off + 56 :=
  ⟨forged_reach, by decide +kernel, by decide +kernel, by decide +kernel,
    fun _ h => forged_not_block h⟩

end ShmAlloc
