import ShmAlloc.Lib.Crash
import ShmAlloc.Region.Usable

/-!
# Torn heaps

The edits of the heap, stopped between two stores.  Each function of the free list goes through
states that are not usable: a block is cut and its tail is not on the list yet, a block is off the
list and belongs to nobody, a block has the size of two.  For every edit there is a lemma that says
so of the stretch in between, and one that says that the region is usable before and behind it.

## What is here

* `Rep.not_usable_of_cut`: the tail of a block cut in two is lost until it is on the list.
* `Rep.not_usable_of_orphan`: an allocated block that no entry points at is lost.
* `absorbEvents`, `Listed.not_usable_of_merge` and `Listed.usable_merge`: **merging** two blocks.
* `unlinkEvents`, `Listed.not_usable_of_unlink` and `Listed.not_usable_of_take`: **taking** a block
  from the list.
* `TornTail`, `Listed.not_usable_of_tornTail` and `Listed.usable_cutTail`: **cutting off a tail.**
  `TornTail` has two cases, since the tail is lost first and may overlap its successor later.

The stretches are lists of events of their own (`tailHdrEvents`, `tailLinkEvents` and so on), and an
equation for each operation says how its effects are cut into them.
-/

set_option autoImplicit false

namespace ShmAlloc

open Tiling Links

variable {G : Geometry} {m m' : Mem} {bs pre post : List Blk} {fl : List Nat} {b c : Blk}
  {i t used : Nat} {S V W : List Event}

theorem taggedAt_eq_false (h : m (G.base + i + 16) = 0) : taggedAt G m i = false := by
  rw [taggedAt, Mem.load_one, h]
  rfl

/-- The fields of a list of stores that are left alone by what follows. -/
theorem totalAt_replay {o : Nat} {W : List Event}
    (h : ∀ x, Writes W x → x < G.base + o + 40 ∨ G.base + o + 48 ≤ x) (m : Mem) :
    totalAt G (replay W m) o = totalAt G m o := load_replay h

/-! ## A block cut in two -/

/-- The bytes that are written before the tail of the block `b` is on the list. -/
def CutByte (G : Geometry) (b : Blk) (x : Nat) : Prop :=
  96 ≤ x ∧ x < 104 ∨ G.base + b.off + 32 ≤ x ∧ x < G.base + b.off + 48 ∨
    G.base + b.off + 56 ≤ x ∧ x < G.base + b.off + b.total

/-- The list is the same as long as only such bytes are written. -/
theorem Rep.links_of_cut {W : List Event} (h : Rep G m (pre ++ b :: post) fl)
    (hW : ∀ x, Writes W x → CutByte G b x) :
    Linked (nextAt G (replay W m)) ((replay W m).load 88 8) fl := by
  have hD := G.base_ge
  have hb : b ∈ pre ++ b :: post := by simp
  have hhead : (replay W m).load 88 8 = m.load 88 8 := load_replay fun x hx => by
    have := hW x hx
    simp only [CutByte] at this
    omega
  rw [Linked, hhead]
  refine h.links.congr fun o ho => load_replay fun x hx => ?_
  have hcut := hW x hx
  simp only [CutByte] at hcut
  obtain ⟨d, hd, rfl⟩ := h.nodes o ho
  have hmin := (h.wf d hd).min
  by_cases hdb : d.off = b.off
  · omega
  · have := h.apart hd hb hdb
    omega

/-- **The tail of a block cut in two is lost** until it is on the list. -/
theorem Rep.not_usable_of_cut {H d : List Event} (h : Rep G m (pre ++ b :: post) fl) (ht : 0 < t)
    (hrem : t < b.total) (htag : replay H m (G.base + (b.off + t) + 16) = 0)
    (hzero : KeepsZero (G.base + (b.off + t) + 16) (.store (G.base + b.off + 40) 8 t :: d))
    (hd : ∀ x, Writes d x → x < G.base + b.off + 40 ∨ G.base + b.off + 48 ≤ x)
    (hW : ∀ x, Writes H x ∨ Writes d x → CutByte G b x) :
    ¬ Usable G (replay (H ++ .store (G.base + b.off + 40) 8 t :: d) m) := by
  have hbm : b ∈ pre ++ b :: post := by simp
  have hbb := h.bounds hbm
  have hlt := G.size_lt
  have hsz := G.size_eq
  have hall : ∀ x, Writes (H ++ .store (G.base + b.off + 40) 8 t :: d) x → CutByte G b x :=
    fun x hx => by
      rw [writes_append, writes_cons] at hx
      rcases hx with hx | hx | hx
      · exact hW x (.inl hx)
      · exact .inr (.inl ⟨by have := hx.1; omega, hx.2⟩)
      · exact hW x (.inr hx)
  have htotal : totalAt G (replay (H ++ .store (G.base + b.off + 40) 8 t :: d) m) b.off = t := by
    rw [replay_append, replay_cons, totalAt_replay hd, totalAt]
    exact (Mem.load_store_same ..).trans (Nat.mod_eq_of_lt (show t < 2 ^ 64 by omega))
  have hpre : ∀ c ∈ pre, totalAt G (replay (H ++ .store (G.base + b.off + 40) 8 t :: d) m) c.off
      = c.total := fun c hc => by
    have hc' := h.bounds_mid.1 c hc
    have := (h.wf c (by simp [hc])).min
    rw [totalAt_replay fun x hx => ?_]
    · exact (h.blk c (by simp [hc])).totalAt
    · have hD := G.base_ge
      have hcut := hall x hx
      simp only [CutByte] at hcut
      omega
  have hwalk := h.walksTo hpre
  have hwalk' : WalksTo G (replay (H ++ .store (G.base + b.off + 40) 8 t :: d) m)
      (pre.map Blk.off ++ [b.off]) (b.off + t) := by
    refine ⟨tiled_append.2 ⟨b.off, hwalk.1, rfl, ?_⟩, by omega⟩
    rw [htotal]
    rfl
  refine fun hu => ?_
  have hmem := hu.mem_list hwalk' (taggedAt_eq_false ?_) (h.links_of_cut hall)
  · -- nothing on the list lies inside the block
    obtain ⟨d, hd, hoff⟩ := h.nodes _ hmem
    have := (h.wf d hd).min
    rcases h.tiles.eq_or_disjoint hbm hd with rfl | h' | h' <;> omega
  · rw [replay_append]
    exact hzero.replay htag

/-! ## Blocks without an entry -/

/-- **An allocated block that no entry points at is lost.** -/
theorem Rep.not_usable_of_orphan (h : Rep G m (pre ++ b :: post) fl)
    (htotal : ∀ c ∈ pre, totalAt G m' c.off = c.total) (htag : taggedAt G m' b.off = true)
    (hno : ∀ j, ¬ PointsAt G m' j b.off) : ¬ Usable G m' := fun hu => by
  obtain ⟨j, hj⟩ := hu.entry (h.walksTo htotal) htag
  exact hno j hj

/-- No entry points at a free block. -/
theorem Owned.not_pointsAt (ho : Owned G m (pre ++ b :: post)) (h : Rep G m (pre ++ b :: post) fl)
    (hb : b.live = false) (j : Nat) : ¬ PointsAt G m j b.off := fun hp => by
  obtain ⟨c, hc, hl, hoff, -⟩ := ho.block j hp.lt hp.alive
  have hcb : c.off = b.off := Nat.add_right_cancel (hoff.symm.trans hp.off)
  rw [h.eq_of_off hc (by simp) hcb, hb] at hl
  exact Bool.noConfusion hl

/-! ## Merging

A merge first adds to the size and then changes the link, and in between a block on the list lies
inside another. -/

/-- The part of a merge that changes sizes and links. -/
def absorbEvents (G : Geometry) (a c : Blk) (ys : List Nat) : List Event :=
  [.store (G.base + a.off + 40) 8 (a.total + c.total),
    .store (G.base + a.off + 48) 8 (firstLink ys)]

theorem mergeEvents_eq (a : Blk) (ys : List Nat) :
    mergeEvents G a c ys = absorbEvents G a c ys ++ [.store (G.base + c.off) 4 0] := rfl

/-- **A block that has the size of two overlaps the second**, which is still on the list. -/
theorem Listed.not_usable_of_merge {a : Blk} (h : Listed G m (pre ++ a :: c :: post))
    (hc : c.live = false) :
    ¬ Usable G (replay [.store (G.base + a.off + 40) 8 (a.total + c.total)] m) := fun hu => by
  have ham : a ∈ pre ++ a :: c :: post := by simp
  have hcm : c ∈ pre ++ a :: c :: post := by simp
  have hab := h.bounds ham
  have hcb := h.bounds hcm
  have hac : c.off = a.off + a.total := (tiles_mid.1 h.tiles).2.1
  have hlt := G.size_lt
  have hsz := G.size_eq
  have hD := G.base_ge
  have hW : ∀ x, Writes [.store (G.base + a.off + 40) 8 (a.total + c.total)] x →
      G.base + a.off + 40 ≤ x ∧ x < G.base + a.off + 48 := fun x hx => by
    simpa only [writes_cons, not_writes_nil, Event.Touches, or_false, Nat.add_assoc] using hx
  have hwalk : WalksTo G (replay [.store (G.base + a.off + 40) 8 (a.total + c.total)] m)
      (pre.map Blk.off) a.off := h.walksTo fun d hd => by
    have h1 := h.bounds_mid.1 d hd
    have h2 := (h.wf d (by simp [hd])).min
    rw [totalAt_replay fun x hx => by have := hW x hx; omega]
    exact (h.blk d (by simp [hd])).totalAt
  have hlinks := h.links_of_cut (W := [.store (G.base + a.off + 40) 8 (a.total + c.total)])
    fun x hx => .inr (.inl (by have := hW x hx; omega))
  have hmem : c.off ∈ freeOffs (pre ++ a :: c :: post) := mem_freeOffs.2 ⟨c, hcm, hc, rfl⟩
  have hap := hu.apart hwalk hlinks hmem (by omega)
  have htotal : totalAt G (replay [.store (G.base + a.off + 40) 8 (a.total + c.total)] m) a.off
      = a.total + c.total :=
    (Mem.load_store_same ..).trans
      (Nat.mod_eq_of_lt (show a.total + c.total < 2 ^ 64 by omega))
  rw [htotal] at hap
  omega

/-- **Once its link has been changed as well, the two are one.** -/
theorem Listed.usable_merge {a : Blk} {s : List Event} (h : Listed G m (pre ++ a :: c :: post))
    (ho : Owned G m (pre ++ a :: c :: post)) (ha : a.live = false) (hc : c.live = false)
    (hs : ∀ x, Writes s x → G.base + c.off ≤ x ∧ x < G.base + c.off + 4) :
    Usable G (replay (absorbEvents G a c (freeOffs post) ++ s) m) := by
  have hac : c.off = a.off + a.total := (tiles_mid.1 h.tiles).2.1
  have hab := h.bounds (show a ∈ pre ++ a :: c :: post by simp)
  have hcb := h.bounds (show c ∈ pre ++ a :: c :: post by simp)
  have hm : Listed G (replay (mergeEvents G a c (freeOffs post)) m)
      (pre ++ a.grown c.total :: post) := h.merge ha hc
  have hom : Owned G (replay (mergeEvents G a c (freeOffs post)) m)
      (pre ++ a.grown c.total :: post) := by
    have hgrown : Owned G m (pre ++ a.grown c.total :: post) :=
      ho.resize rfl rfl (liveBlks_cons_free hc post).symm fun i hp =>
        absurd hp (ho.not_pointsAt h ha i)
    refine hgrown.congr fun i hi => entryAt_replay fun x hx hsl => ?_
    have := hsl.lt_base hi
    rcases writes_mergeEvents hx with hx | hx
    · have := hx.1
      omega
    · have := hx.1
      omega
  -- what may still be to do is to poison the header of `c`, which is payload by now
  have hshape : ∀ x, ShapeByte G (pre ++ a.grown c.total :: post) x →
      ¬ (G.base + c.off ≤ x ∧ x < G.base + c.off + 4) := fun x hx hxc => by
    refine hm.not_shapeByte_of_payload (b := a.grown c.total) (by simp) ?_ ?_ hx
    · rw [Blk.grown_off]
      omega
    · rw [Blk.grown_off, Blk.grown_total]
      omega
  refine hm.usable hom fun x hx => ?_
  have hpoison : ¬ Writes [.store (G.base + c.off) 4 0] x := fun hw => hshape x hx (by
    simpa only [writes_cons, not_writes_nil, Event.Touches, or_false] using hw)
  rw [mergeEvents_eq, replay_append, replay_append, replay_of_not_writes hpoison]
  exact replay_of_not_writes (fun hw => hshape x hx (hs x hw)) _

/-! ## Taking a block from the list -/

/-- The header of what stays free of `b`, if anything does. -/
def prepareEvents (G : Geometry) (b : Blk) (post : List Blk) (need : Nat) : List Event :=
  if 64 ≤ b.total - need then
    freshEvents (G.base + (b.off + need)) (b.total - need) (firstLink (freeOffs post))
  else []

/-- The block `b` is cut, and its link redirected. -/
def unlinkEvents (G : Geometry) (pre : List Blk) (b : Blk) (post : List Blk) (need : Nat) :
    List Event :=
  if 64 ≤ b.total - need then
    cutEvents (G.base + b.off) need ++
      [.persist (G.base + (b.off + need)) 56,
        .store (linkAddr G (lastLink 0 (freeOffs pre))) 8 (b.off + need + 1)]
  else [.store (linkAddr G (lastLink 0 (freeOffs pre))) 8 (firstLink (freeOffs post))]

theorem detachEvents_eq (need : Nat) :
    detachEvents G pre b post need
      = prepareEvents G b post need ++ unlinkEvents G pre b post need := by
  rw [detachEvents, prepareEvents, unlinkEvents]
  split <;> rfl

/-- **A block that is being taken is lost**, or the rest of it. -/
theorem Listed.not_usable_of_unlink {need : Nat} {d : List Event}
    (h : Listed G m (pre ++ b :: post)) (hb : b.live = false) (hn : 64 ≤ need)
    (hn8 : need % 8 = 0) (hle : need ≤ b.total) (hd : d <+: unlinkEvents G pre b post need)
    (hne : d ≠ []) : ¬ Usable G (replay (prepareEvents G b post need ++ d) m) := by
  have hbb := h.bounds (show b ∈ pre ++ b :: post by simp)
  have hlt := G.size_lt
  have hsz := G.size_eq
  by_cases hall : d = unlinkEvents G pre b post need
  · -- all of it: the block is off the list
    have h1 := Rep.detach h hb hn hn8 hle
    rw [hall, ← detachEvents_eq]
    refine h1.not_usable ?_ h1.off_not_mem_freeOffs
    rw [detached]
    split <;> exact hb
  · rw [unlinkEvents] at hd hall
    rw [prepareEvents]
    split at hd
    · rename_i hrem
      rw [if_pos hrem] at hall ⊢
      -- the block has been cut, its tail is not on the list
      have hd' : d <+: cutEvents (G.base + b.off) need ++ [.persist (G.base + (b.off + need)) 56] :=
        prefix_of_proper (e := .store (linkAddr G (lastLink 0 (freeOffs pre))) 8 (b.off + need + 1))
          (by simpa using hd) (by simpa using hall)
      obtain ⟨e, ds, rfl⟩ := List.exists_cons_of_ne_nil hne
      rw [cutEvents, List.cons_append, List.cons_prefix_cons] at hd'
      obtain ⟨rfl, hds⟩ := hd'
      have hdw : ∀ x, Writes ds x → G.base + b.off + 32 ≤ x ∧ x < G.base + b.off + 40 :=
        fun x hx => by
          have := hx.of_prefix hds
          simpa only [List.cons_append, List.nil_append, writes_cons, not_writes_nil, Event.Touches,
            or_false, Nat.add_assoc] using this
      refine Rep.not_usable_of_cut h (by omega) (by omega) ?_ (keepsZero_of_not_writes fun hw => ?_)
        (fun x hx => .inl (hdw x hx).2) fun x hx => ?_
      · have hF := (blkAt_freshEvents (G := G) (m := m) (o := b.off + need)
          (t := b.total - need) (by omega) (firstLink (freeOffs post))).live
        rw [Blk.fresh_off, Blk.fresh_live, Mem.load_one] at hF
        exact UInt8.toNat_inj.1 (by simpa using hF)
      · rw [writes_cons] at hw
        rcases hw with hw | hw
        · have := hw.2
          omega
        · have := hdw _ hw
          omega
      · rcases hx with hx | hx
        · have := writes_freshEvents hx
          exact .inr (.inr ⟨by omega, by omega⟩)
        · have := hdw x hx
          exact .inr (.inl ⟨this.1, by omega⟩)
    · rename_i hrem
      rw [if_neg hrem] at hall
      rcases List.prefix_concat_iff.1 (show d <+: [] ++ [_] from hd) with h' | h'
      · exact absurd h' hall
      · exact absurd (List.prefix_nil.1 h') hne

/-- **A block that has been taken is lost** as well, as long as no entry points at it.  `X` is what
is done to it once it is allocated. -/
theorem Listed.not_usable_of_take {need count : Nat} {d X : List Event}
    (h : Listed G m (pre ++ b :: post)) (hb : b.live = false) (hn : 64 ≤ need)
    (hn8 : need % 8 = 0) (hle : need ≤ b.total)
    (hX : ∀ x, Writes X x → x ≠ G.base + b.off + 16 ∧ (x < G.base ∨ G.base + b.off ≤ x))
    (hno : ∀ s, s <+: markEvents G b (detached b need).total used count ++ X →
      ∀ j, ¬ PointsAt G (replay (detachEvents G pre b post need ++ s) m) j b.off)
    (hd : d <+: unlinkEvents G pre b post need ++
      (markEvents G b (detached b need).total used count ++ X)) (hne : d ≠ []) :
    ¬ Usable G (replay (prepareEvents G b post need ++ d) m) := by
  have hD := G.base_ge
  rcases prefix_or_append hd with hd | ⟨s, hs, rfl⟩
  · exact h.not_usable_of_unlink hb hn hn8 hle hd hne
  cases s with
  | nil => exact h.not_usable_of_unlink hb hn hn8 hle (by simp) hne
  | cons e ds =>
    -- the block is off the list, and allocated
    have h1 := Rep.detach h hb hn hn8 hle
    have hpoint := hno _ hs
    rw [← List.append_assoc, ← detachEvents_eq]
    rw [markEvents, List.cons_append, List.cons_prefix_cons] at hs
    obtain ⟨rfl, hds⟩ := hs
    have hdw : ∀ x, Writes ds x → x ≠ G.base + b.off + 16 ∧ (x < G.base ∨ G.base + b.off ≤ x) :=
      fun x hx => by
        rcases writes_append.1 (hx.of_prefix hds) with hx | hx
        · simp only [writes_cons, not_writes_nil, Event.Touches, or_false] at hx
          omega
        · exact hX x hx
    refine h1.not_usable_of_orphan (fun c hc => ?_) ?_ (by rwa [detached_off])
    · have hpre := h1.bounds_mid.1 c hc
      have hcm := (h1.wf c (by simp [hc])).min
      rw [detached_off] at hpre
      rw [replay_append, totalAt_replay fun x hx => ?_]
      · exact (h1.blk c (by simp [hc])).totalAt
      · rcases writes_cons.1 hx with hx | hx
        · have := hx.1
          omega
        · have := (hdw x hx).2
          omega
    · have hout : ∀ x, Writes ds x → x < G.base + b.off + 16 ∨ G.base + b.off + 16 + 1 ≤ x :=
        fun x hx => by
          have := (hdw x hx).1
          omega
      rw [detached_off, replay_append, replay_cons, taggedAt, load_replay hout]
      exact congrArg (· != 0) (Mem.load_store_same ..)

/-! ## Cutting off a tail

The header of the tail is written before anything else, inside a live block and behind what the
entry describes, and does no harm there. -/

theorem keepsZero_clearEvents (p : Nat) : KeepsZero (p + 16) (clearEvents p) := by
  intro e he m hm
  simp only [clearEvents, List.mem_cons, List.not_mem_nil, or_false] at he
  rcases he with rfl | rfl | rfl | rfl | rfl
  · have h := Mem.load_store_same m (p + 16) 1 0
    rw [Mem.load_one] at h
    exact UInt8.toNat_inj.1 (h.trans rfl)
  all_goals exact (Event.act_of_not_touches (by simp only [Event.Touches]; omega)).trans hm

/-- The header of the tail is written, and `used_bytes`. -/
def tailHdrEvents (G : Geometry) (b : Blk) (t used : Nat) : List Event :=
  tailEvents (G.base + (b.off + t)) (b.total - t) ++
    [.sub used (b.total - t), .store 96 8 (used - (b.total - t))]

/-- The block is cut, and its tail put on the list. -/
def tailLinkEvents (G : Geometry) (pre : List Blk) (b : Blk) (post : List Blk) (t : Nat) :
    List Event :=
  cutEvents (G.base + b.off) t ++ (.persist (G.base + b.off) 56 ::
    (clearEvents (G.base + (b.off + t)) ++
      linkEvents G (freeOffs (pre ++ [b.resized t])) (b.off + t) (freeOffs post)))

theorem cutTailEvents_eq : cutTailEvents G pre b post t used
    = tailHdrEvents G b t used ++ (tailLinkEvents G pre b post t ++
      (nextEvents G (b.tail t) post ++
        prevEvents G (pre ++ [b.resized t]) (absorbNext (b.tail t) post))) := by
  simp only [cutTailEvents, trimEvents, insertEvents, tailHdrEvents, tailLinkEvents,
    List.append_assoc, List.cons_append, List.nil_append, Blk.tail_off, Blk.tail_freed]

/-- **The call stops while the tail of `b` is lost**, or while it overlaps the block it is merged
with.  `S` is what has been done before the tail is cut off. -/
inductive TornTail (G : Geometry) (pre : List Blk) (b : Blk) (post : List Blk) (t used : Nat)
    (S V : List Event) : Prop
  /-- After `total_size` of the block has been set, and before the tail is linked. -/
  | link (h : StopsInside (S ++ tailHdrEvents G b t used) (tailLinkEvents G pre b post t) V)
  /-- After `total_size` of the tail has been added to, and before its link has been changed. -/
  | merge (c : Blk) (cs : List Blk) (hpost : post = c :: cs) (hc : c.live = false)
      (h : StopsInside (S ++ (tailHdrEvents G b t used ++ tailLinkEvents G pre b post t))
        (absorbEvents G (b.tail t) c (freeOffs cs)) V)

theorem TornTail.append (S : List Event) (h : TornTail G pre b post t used [] V) :
    TornTail G pre b post t used S (S ++ V) := by
  cases h with
  | link h => exact .link (h.append S)
  | merge c cs hpost hc h => exact .merge c cs hpost hc (h.append S)

theorem TornTail.drop (h : TornTail G pre b post t used S V) :
    ∃ U, V = S ++ U ∧ TornTail G pre b post t used [] U := by
  cases h with
  | link h =>
    obtain ⟨U, rfl, hU⟩ := h.drop
    exact ⟨U, rfl, .link hU⟩
  | merge c cs hpost hc h =>
    obtain ⟨U, rfl, hU⟩ := h.drop
    exact ⟨U, rfl, .merge c cs hpost hc hU⟩

/-- Behind a live block, the list is not merged with what comes before it. -/
theorem Rep.not_writes_prevEvents {q b' : Blk} {rest : List Blk} {x : Nat}
    (h : Rep G m (pre ++ q :: b :: post) fl) (hq : q.live = true) (hoff : b'.off = b.off) :
    ¬ Writes (prevEvents G (pre ++ [q]) (b' :: rest)) x := by
  rw [prevEvents, lastFree_concat_live hq]
  cases hp : lastFree pre with
  | none => simp [Event.Touches]
  | some p =>
    have := h.lastFree_apart hp
    simp [hoff, Nat.ne_of_lt this, Event.Touches]

/-- Cutting off a tail touches the list head, `used_bytes` and the heap. -/
theorem writes_linkTail {x : Nat}
    (h : Writes (tailHdrEvents G b t used ++ tailLinkEvents G pre b post t) x) :
    88 ≤ x ∧ x < 104 ∨ G.base ≤ x := by
  simp only [tailHdrEvents, tailLinkEvents, writes_append, writes_cons, not_writes_nil,
    Event.Touches, or_false, false_or] at h
  rcases h with (h | h) | h | h | h
  · have := writes_tailEvents h
    omega
  · omega
  · have := writes_cutEvents h
    omega
  · have := writes_clearEvents h
    omega
  · rcases writes_linkEvents (b := b.tail t) h with (h | ⟨c, -, -, h⟩) | h
    · omega
    · have := h.1
      omega
    · have := h.1
      omega

section

variable (h : Listed G m (pre ++ b :: post)) (hb : b.live = true) (ht : 64 ≤ t) (ht8 : t % 8 = 0)
  (hrem : t + 64 ≤ b.total)
include h hb ht ht8 hrem

/-- What there is when the tail has been linked. -/
theorem Listed.linkTail :
    Listed G (replay (tailHdrEvents G b t used ++ tailLinkEvents G pre b post t) m)
      (pre ++ b.resized t :: b.tail t :: post) := by
  have h1 := (Listed.around h hb).trim used ht ht8 hrem
  have hpre : freeOffs (pre ++ [b.resized t]) = freeOffs pre :=
    freeOffs_concat_live (b := b.resized t) hb pre
  have h2 : Rep G (replay (trimEvents G b t used) m) ((pre ++ [b.resized t]) ++ b.tail t :: post)
      (freeOffs (pre ++ [b.resized t]) ++ freeOffs post) := by
    rw [hpre]
    simpa using h1
  have h3 := h2.clear.link rfl
  have hev : tailHdrEvents G b t used ++ tailLinkEvents G pre b post t
      = trimEvents G b t used ++ (clearEvents (G.base + (b.tail t).off) ++
        linkEvents G (freeOffs (pre ++ [b.resized t])) (b.tail t).freed.off (freeOffs post)) := by
    simp only [trimEvents, tailHdrEvents, tailLinkEvents, List.append_assoc, List.cons_append,
      List.nil_append, Blk.tail_off, Blk.tail_freed]
  rw [hev, replay_append, replay_append]
  simpa using h3

/-- **While the tail is torn the region is not usable.** -/
theorem Listed.not_usable_of_tornTail (hV : TornTail G pre b post t used [] V) :
    ¬ Usable G (replay V m) := by
  have hbb := h.bounds (show b ∈ pre ++ b :: post by simp)
  have hlt := G.size_lt
  have hsz := G.size_eq
  have hD := G.base_ge
  cases hV with
  | link hV =>
    obtain ⟨d, hd, h0, hall, rfl⟩ := hV
    have hd' := prefix_of_proper (D := cutEvents (G.base + b.off) t ++
      (.persist (G.base + b.off) 56 :: (clearEvents (G.base + (b.off + t)) ++
        [.store (G.base + (b.off + t) + 48) 8 (firstLink (freeOffs post))])))
      (e := .store (linkAddr G (lastLink 0 (freeOffs (pre ++ [b.resized t])))) 8 (b.off + t + 1))
      (by simpa [tailLinkEvents, linkEvents] using hd)
      (by simpa [tailLinkEvents, linkEvents] using hall)
    obtain ⟨e, ds, rfl⟩ := List.exists_cons_of_ne_nil h0
    rw [cutEvents, List.cons_append, List.cons_prefix_cons] at hd'
    obtain ⟨rfl, hds⟩ := hd'
    have hdw : ∀ x, Writes ds x → G.base + b.off + 32 ≤ x ∧ x < G.base + b.off + 40 ∨
        G.base + (b.off + t) + 4 ≤ x ∧ x < G.base + (b.off + t) + 56 := fun x hx => by
      have hx' := hx.of_prefix hds
      simp only [List.cons_append, List.nil_append, writes_cons, writes_append, not_writes_nil,
        Event.Touches, or_false, false_or] at hx'
      rcases hx' with hx' | hx' | hx'
      · omega
      · have := writes_clearEvents hx'
        omega
      · omega
    refine Rep.not_usable_of_cut h (by omega) (by omega) ?_ ?_ (fun x hx => ?_) fun x hx => ?_
    · rw [List.nil_append, tailHdrEvents, replay_append]
      have hF := (blkAt_tailEvents (G := G) (m := m) (o := b.off + t) (t := b.total - t)
        (by omega)).live
      rw [Blk.fresh_off, Blk.fresh_live, Mem.load_one] at hF
      refine Eq.trans (replay_of_not_writes (fun hx => ?_) _)
        (UInt8.toNat_inj.1 (by simpa using hF))
      simp only [writes_cons, not_writes_nil, Event.Touches, or_false, false_or] at hx
      omega
    · have hz : KeepsZero (G.base + (b.off + t) + 16) ([.store (G.base + b.off + 40) 8 t,
          .store (G.base + b.off + 32) 8 (t - 56), .persist (G.base + b.off) 56] ++
            (clearEvents (G.base + (b.off + t)) ++
              [.store (G.base + (b.off + t) + 48) 8 (firstLink (freeOffs post))])) := by
        refine .append (keepsZero_of_not_writes ?_) (.append (keepsZero_clearEvents _)
          (keepsZero_of_not_writes ?_))
        all_goals
          simp only [writes_cons, not_writes_nil, Event.Touches, or_false]
          omega
      refine hz.of_prefix ?_
      simpa using hds
    · have := hdw x hx
      omega
    · rw [List.nil_append, tailHdrEvents, writes_append] at hx
      rcases hx with (hx | hx) | hx
      · have := writes_tailEvents hx
        exact .inr (.inr ⟨by omega, by omega⟩)
      · simp only [writes_cons, not_writes_nil, Event.Touches, or_false, false_or] at hx
        exact .inl hx
      · rcases hdw x hx with hx | hx
        · exact .inr (.inl ⟨hx.1, by omega⟩)
        · exact .inr (.inr ⟨by omega, by omega⟩)
  | merge c cs hpost hc hV =>
    subst hpost
    obtain ⟨d, hd, h0, hall, rfl⟩ := hV
    have h1 : Listed G (replay (tailHdrEvents G b t used ++ tailLinkEvents G pre b (c :: cs) t) m)
        ((pre ++ [b.resized t]) ++ b.tail t :: c :: cs) := by
      simpa using h.linkTail hb ht ht8 hrem
    have hd' := prefix_of_proper (D := [.store (G.base + (b.tail t).off + 40) 8
      ((b.tail t).total + c.total)]) hd hall
    rcases List.prefix_concat_iff.1 (show d <+: [] ++ [_] from hd') with rfl | h'
    · rw [List.nil_append, replay_append]
      exact h1.not_usable_of_merge hc
    · exact absurd (List.prefix_nil.1 h') h0

/-- **Otherwise it is**, as long as what the entry describes fits in what is left of the block. -/
theorem Listed.usable_cutTail (ho : Owned G m (pre ++ b :: post))
    (hfit : ∀ i, PointsAt G m i b.off → (entryAt m i).used + 56 ≤ t)
    (hV : V <+: cutTailEvents G pre b post t used)
    (hno : ¬ TornTail G pre b post t used [] V) : Usable G (replay V m) := by
  have hbm : b ∈ pre ++ b :: post := by simp
  have hbb := h.bounds hbm
  have hD := G.base_ge
  have hlow : ∀ x, Writes (tailHdrEvents G b t used ++ tailLinkEvents G pre b post t) x →
      ∀ i, i < G.dirCap → ¬ InSlot i x := fun x hx i hi hs => by
    have := writes_linkTail hx
    have := hs.lt_base hi
    omega
  have h1 : Listed G (replay (tailHdrEvents G b t used ++ tailLinkEvents G pre b post t) m)
      (pre ++ b.resized t :: b.tail t :: post) := h.linkTail hb ht ht8 hrem
  have ho1 : Owned G (replay (tailHdrEvents G b t used ++ tailLinkEvents G pre b post t) m)
      (pre ++ b.resized t :: b.tail t :: post) :=
    (show Owned G m (pre ++ b.resized t :: b.tail t :: post) from
      ho.resize rfl rfl (liveBlks_cons_free (Blk.tail_live b t) post) hfit).congr fun i hi =>
        entryAt_replay fun x hx => hlow x hx i hi
  rw [cutTailEvents_eq] at hV
  rcases stops_cases hV with hV | hV | ⟨s, hs, rfl⟩
  · refine h.usable_of_writes ho fun x hx => ?_
    rcases writes_append.1 (hx.of_prefix hV) with hx | hx
    · have := writes_tailEvents hx
      exact h.not_shapeByte_of_payload hbm (by omega) (by omega)
    · simp only [writes_cons, not_writes_nil, Event.Touches, or_false, false_or] at hx
      exact not_shapeByte_of_header (by omega) (by omega)
  · exact absurd (.link hV) hno
  · rw [← List.append_assoc, replay_append]
    have hprev : ∀ {b' : Blk} {rest : List Blk} {x : Nat}, b'.off = b.off + t →
        ¬ Writes (prevEvents G (pre ++ [b.resized t]) (b' :: rest)) x := fun hoff =>
      h1.not_writes_prevEvents hb hoff
    cases post with
    | nil =>
      refine h1.usable_of_writes ho1 fun x hx => ?_
      exact absurd (hx.of_prefix hs) (hprev rfl)
    | cons c cs =>
      cases hc : c.live with
      | true =>
        rw [nextEvents, if_pos hc, List.nil_append, absorbNext_live hc] at hs
        refine h1.usable_of_writes ho1 fun x hx => ?_
        exact absurd (hx.of_prefix hs) (hprev rfl)
      | false =>
        have hne : nextEvents G (b.tail t) (c :: cs) = absorbEvents G (b.tail t) c (freeOffs cs) ++
            [.store (G.base + c.off) 4 0, .persist (G.base + c.off) 56] := by
          rw [nextEvents, hc, mergeEvents_eq]
          simp
        rw [hne, absorbNext_free hc, List.append_assoc] at hs
        rcases stops_cases (show s <+: [] ++ (absorbEvents G (b.tail t) c (freeOffs cs) ++
          ([.store (G.base + c.off) 4 0, .persist (G.base + c.off) 56] ++
            prevEvents G (pre ++ [b.resized t]) ((b.tail t).grown c.total :: cs))) from hs)
            with hs | hs | ⟨w, hw, rfl⟩
        · rw [List.prefix_nil.1 hs]
          exact h1.usable ho1 fun x _ => rfl
        · refine absurd (.merge c cs rfl hc ?_) hno
          simpa [List.append_assoc] using
            hs.append (tailHdrEvents G b t used ++ tailLinkEvents G pre b (c :: cs) t)
        · have h2 : Listed G
              (replay (tailHdrEvents G b t used ++ tailLinkEvents G pre b (c :: cs) t) m)
              ((pre ++ [b.resized t]) ++ b.tail t :: c :: cs) := by simpa using h1
          refine h2.usable_merge (by simpa using ho1) rfl hc fun x hx => ?_
          rcases writes_append.1 (hx.of_prefix hw) with hx | hx
          · simpa only [writes_cons, not_writes_nil, Event.Touches, or_false] using hx
          · exact absurd hx (hprev rfl)

end

end ShmAlloc
