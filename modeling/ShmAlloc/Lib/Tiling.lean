import Mathlib.Data.List.Chain
import Mathlib.Algebra.BigOperators.Group.List.Basic
import Mathlib.Algebra.Order.BigOperators.Group.List
import Mathlib.Algebra.Order.Group.Nat
import Mathlib.Algebra.Group.Action.Defs
import Mathlib.Algebra.GroupWithZero.Nat

/-!
# Lists of segments that tile an interval

A list of segments, each with a start `lo` and a length `len`, *tiles* `[s, e)` when the first
starts at `s`, each next one starts where the one before ends, and the last ends at `e`.  Cutting
the list anywhere cuts the interval (`tiled_append`), which is what makes edits in the middle of
the list local; everything else follows from it.

## What is here

* Bounds, order and disjointness: `Tiled.bounds`, `Tiled.pairwise`, `Tiled.eq_or_disjoint`.  A
  segment can be recovered from its start (`Tiled.eq_of_lo_eq`).
* `Tiled.replace`: a stretch of segments is replaced by another that tiles the same interval.
* `Tiled.mem_of_walk`: what is reached from the start by steps of the lengths of the segments is one
  of the segments, if it is not the end.  A walk over memory meets the tiling.
* Some of the segments may be *marked*.  The places between them are the gaps, and where of two
  neighbours one is always marked (`NoTwoUnmarked`) a gap lies inside one unmarked segment
  (`Tiled.unmarked_of_gap`).  So first fit takes the lowest gap (`Tiled.lowest_gap`), and what is
  unmarked is bounded by how large its largest part is (`NoTwoUnmarked.sum_unmarked_le`).
* `Tiled.ext_of_marked`: the gaps are determined by what they are between.  Two such tilings with
  the same marked segments have the same extents.

The type of the segments is a parameter, as are the two functions.
-/

set_option autoImplicit false

namespace Tiling

variable {α : Type} (lo len : α → Nat)

/-- The segments of the list tile `[s, e)`, in order. -/
def Tiled : Nat → List α → Nat → Prop
  | s, [], e => s = e
  | s, a :: as, e => lo a = s ∧ Tiled (s + len a) as e

variable {lo len}

@[simp] theorem tiled_nil {s e : Nat} : Tiled lo len s [] e ↔ s = e := Iff.rfl

@[simp] theorem tiled_cons {s e : Nat} {a : α} {as : List α} :
    Tiled lo len s (a :: as) e ↔ lo a = s ∧ Tiled lo len (s + len a) as e := Iff.rfl

/-- **Cutting the list cuts the interval.** -/
theorem tiled_append {xs ys : List α} : ∀ {s e : Nat},
    Tiled lo len s (xs ++ ys) e ↔ ∃ k, Tiled lo len s xs k ∧ Tiled lo len k ys e := by
  induction xs with
  | nil => intro s e; simp
  | cons x xs ih =>
    intro s e
    simp only [List.cons_append, tiled_cons, ih]
    constructor
    · rintro ⟨h, k, h1, h2⟩
      exact ⟨k, ⟨h, h1⟩, h2⟩
    · rintro ⟨k, ⟨h, h1⟩, h2⟩
      exact ⟨h, k, h1, h2⟩

/-- Around one segment, the interval is cut at its two ends. -/
theorem tiled_mid {pre post : List α} {a : α} {s e : Nat} :
    Tiled lo len s (pre ++ a :: post) e ↔
      Tiled lo len s pre (lo a) ∧ Tiled lo len (lo a + len a) post e := by
  rw [tiled_append]
  constructor
  · rintro ⟨k, h1, rfl, h2⟩
    exact ⟨h1, h2⟩
  · rintro ⟨h1, h2⟩
    exact ⟨lo a, h1, rfl, h2⟩

theorem Tiled.le {xs : List α} : ∀ {s e : Nat}, Tiled lo len s xs e → s ≤ e := by
  induction xs with
  | nil => intro s e h; exact Nat.le_of_eq h
  | cons x xs ih => intro s e h; have := ih h.2; omega

/-- Every segment lies inside the tiled interval. -/
theorem Tiled.bounds {xs : List α} : ∀ {s e : Nat}, Tiled lo len s xs e → ∀ a ∈ xs,
    s ≤ lo a ∧ lo a + len a ≤ e := by
  induction xs with
  | nil => intro s e _ a ha; simp at ha
  | cons x xs ih =>
    intro s e h a ha
    rcases List.mem_cons.1 ha with rfl | ha
    · have := h.2.le
      have := h.1
      omega
    · have := ih h.2 a ha
      omega

/-- Segments come in ascending order and do not overlap. -/
theorem Tiled.pairwise {xs : List α} : ∀ {s e : Nat}, Tiled lo len s xs e →
    xs.Pairwise fun a b => lo a + len a ≤ lo b := by
  induction xs with
  | nil => intro s e _; exact List.Pairwise.nil
  | cons x xs ih =>
    intro s e h
    refine List.pairwise_cons.2 ⟨fun b hb => ?_, ih h.2⟩
    have := (h.2.bounds b hb).1
    have := h.1
    omega

/-- Two segments of a tiling are the same one or do not overlap. -/
theorem Tiled.eq_or_disjoint {xs : List α} {s e : Nat} (h : Tiled lo len s xs e) {a b : α}
    (ha : a ∈ xs) (hb : b ∈ xs) : a = b ∨ lo a + len a ≤ lo b ∨ lo b + len b ≤ lo a := by
  obtain ⟨pre, post, rfl⟩ := List.append_of_mem ha
  rw [tiled_mid] at h
  rcases List.mem_append.1 hb with hb | hb
  · exact .inr (.inr ((h.1.bounds b hb).2))
  · rcases List.mem_cons.1 hb with rfl | hb
    · exact .inl rfl
    · exact .inr (.inl ((h.2.bounds b hb).1))

/-- A segment of positive length is determined by its start. -/
theorem Tiled.eq_of_lo_eq {xs : List α} {s e : Nat} (h : Tiled lo len s xs e)
    (hpos : ∀ a ∈ xs, 0 < len a) {a b : α} (ha : a ∈ xs) (hb : b ∈ xs) (hab : lo a = lo b) :
    a = b := by
  have h1 := hpos a ha
  have h2 := hpos b hb
  rcases h.eq_or_disjoint ha hb with h | h | h
  · exact h
  · omega
  · omega

/-- Replacing a stretch by another that tiles the same interval keeps the tiling. -/
theorem Tiled.replace {pre mid mid' post : List α} {s e : Nat}
    (h : Tiled lo len s (pre ++ mid ++ post) e)
    (hmid : ∀ k l, Tiled lo len k mid l → Tiled lo len k mid' l) :
    Tiled lo len s (pre ++ mid' ++ post) e := by
  rw [List.append_assoc, tiled_append] at h ⊢
  obtain ⟨k, h1, h2⟩ := h
  rw [tiled_append] at h2
  obtain ⟨l, h2, h3⟩ := h2
  exact ⟨k, h1, tiled_append.2 ⟨l, hmid k l h2, h3⟩⟩

/-- The lengths of a tiling add up to the length of the interval. -/
theorem Tiled.sum_len {xs : List α} : ∀ {s e : Nat}, Tiled lo len s xs e →
    s + (xs.map len).sum = e := by
  induction xs with
  | nil => intro s e h; simpa using h
  | cons x xs ih =>
    intro s e h
    have := ih h.2
    rw [List.map_cons, List.sum_cons]
    omega

/-- A tiling has no more segments than fit. -/
theorem Tiled.length_le {xs : List α} {c : Nat} : ∀ {s e : Nat}, Tiled lo len s xs e →
    (∀ a ∈ xs, c ≤ len a) → s + c * xs.length ≤ e := by
  induction xs with
  | nil => intro s e h _; simpa using Nat.le_of_eq h
  | cons x xs ih =>
    intro s e h hc
    have h1 := ih h.2 fun a ha => hc a (List.mem_cons_of_mem _ ha)
    have h2 := hc x List.mem_cons_self
    rw [List.length_cons, Nat.mul_succ]
    omega

/-- **A walk meets a tiling.**  What is reached from the start of a tiling by steps of the lengths
it has is one of its segments, if it is not the end. -/
theorem Tiled.mem_of_walk {len : Nat → Nat} {e o : Nat} {xs : List Nat} :
    ∀ {s : Nat} {os : List Nat}, Tiled id len s xs o → Tiled id len s os e → o < e → o ∈ os := by
  induction xs with
  | nil =>
    rintro s os rfl h ho
    cases os with
    | nil => exact absurd (h : s = e) (Nat.ne_of_lt ho)
    | cons a as => exact h.1 ▸ List.mem_cons_self
  | cons x xs ih =>
    rintro s os ⟨hx, hw⟩ h ho
    obtain rfl : x = s := hx
    cases os with
    | nil =>
      have := hw.le
      have he : x = e := h
      omega
    | cons a as =>
      obtain rfl : a = x := h.1
      exact List.mem_cons_of_mem _ (ih hw h.2 ho)

/-- A tiling by the images of segments. -/
theorem tiled_map {β : Type} {lo len : β → Nat} (f : α → β) {xs : List α} : ∀ {s e : Nat},
    Tiled lo len s (xs.map f) e ↔ Tiled (fun a => lo (f a)) (fun a => len (f a)) s xs e := by
  induction xs with
  | nil => exact Iff.rfl
  | cons x xs ih => exact and_congr_right fun _ => ih

/-- A tiling only depends on the lengths of its segments. -/
theorem Tiled.congr {len' : α → Nat} {xs : List α} : ∀ {s e : Nat},
    Tiled lo len s xs e → (∀ a ∈ xs, len' a = len a) → Tiled lo len' s xs e := by
  induction xs with
  | nil => exact fun h _ => h
  | cons x xs ih =>
    intro s e h hl
    refine ⟨h.1, ?_⟩
    rw [hl x List.mem_cons_self]
    exact ih h.2 fun a ha => hl a (List.mem_cons_of_mem _ ha)

/-! ## Gaps

A segment that is marked is in use, and one that is not is a gap.  That no two gaps are neighbours
is the whole of what coalescing is for: a gap is then as large as it can be. -/

section

variable {mark : α → Bool}

/-- Of two neighbours one is marked. -/
def NoTwoUnmarked (mark : α → Bool) (xs : List α) : Prop :=
  xs.IsChain fun a b => mark a = true ∨ mark b = true

/-- The marked segments, each with its start and length. -/
def marked (lo len : α → Nat) (mark : α → Bool) (xs : List α) : List (Nat × Nat) :=
  (xs.filter mark).map fun a => (lo a, len a)

theorem marked_cons_true {a : α} (h : mark a = true) (xs : List α) :
    marked lo len mark (a :: xs) = (lo a, len a) :: marked lo len mark xs := by
  simp [marked, h]

theorem marked_cons_false {a : α} (h : mark a = false) (xs : List α) :
    marked lo len mark (a :: xs) = marked lo len mark xs := by
  simp [marked, h]

/-- An unmarked segment reaches up to the next marked one, or to the end. -/
theorem Tiled.gap {s e : Nat} {a : α} {xs : List α} (h : Tiled lo len s (a :: xs) e)
    (hno : NoTwoUnmarked mark (a :: xs)) (ha : mark a = false) :
    s + len a = ((marked lo len mark (a :: xs)).head?.map Prod.fst).getD e := by
  rw [marked_cons_false ha]
  cases xs with
  | nil => exact h.2
  | cons b bs =>
    have hb : mark b = true := (List.isChain_cons_cons.1 hno).1.resolve_left (by simp [ha])
    rw [marked_cons_true hb]
    exact h.2.1.symm

theorem marked_append (xs ys : List α) :
    marked lo len mark (xs ++ ys) = marked lo len mark xs ++ marked lo len mark ys := by
  simp [marked]

theorem mem_marked {xs : List α} {p : Nat × Nat} :
    p ∈ marked lo len mark xs ↔ ∃ a ∈ xs, mark a = true ∧ (lo a, len a) = p := by
  simp only [marked, List.mem_map, List.mem_filter, and_assoc]

/-- The `n` places from `x` on are inside `[s, e)`, and in none of the segments `ps`. -/
def Gap (s e : Nat) (ps : List (Nat × Nat)) (n x : Nat) : Prop :=
  s ≤ x ∧ x + n ≤ e ∧ ∀ p ∈ ps, x + n ≤ p.1 ∨ p.1 + p.2 ≤ x

/-- Fewer segments leave no fewer gaps. -/
theorem Gap.mono {s e n x : Nat} {ps qs : List (Nat × Nat)} (h : Gap s e ps n x)
    (hsub : ∀ p ∈ qs, p ∈ ps) : Gap s e qs n x :=
  ⟨h.1, h.2.1, fun p hp => h.2.2 p (hsub p hp)⟩

/-- A segment taken out leaves a gap. -/
theorem Tiled.gap_of_removed {s e n : Nat} {pre post : List α} {a : α}
    (h : Tiled lo len s (pre ++ a :: post) e) (hn : n ≤ len a) :
    Gap s e (marked lo len mark (pre ++ post)) n (lo a) := by
  obtain ⟨hpre, hpost⟩ := tiled_mid.1 h
  refine ⟨hpre.le, (Nat.add_le_add_left hn _).trans hpost.le, fun p hp => ?_⟩
  obtain ⟨b, hb, -, rfl⟩ := mem_marked.1 hp
  rcases List.mem_append.1 hb with hb | hb
  · exact .inr (hpre.bounds b hb).2
  · exact .inl ((Nat.add_le_add_left hn _).trans (hpost.bounds b hb).1)

/-- An unmarked segment is a gap between the marked ones. -/
theorem Tiled.gap_of_unmarked {s e n : Nat} {xs : List α} (h : Tiled lo len s xs e) {a : α}
    (ha : a ∈ xs) (hm : mark a = false) (hn : n ≤ len a) :
    Gap s e (marked lo len mark xs) n (lo a) := by
  obtain ⟨pre, post, rfl⟩ := List.append_of_mem ha
  rw [marked_append, marked_cons_false hm, ← marked_append]
  exact h.gap_of_removed hn

/-- **A gap between the marked segments lies inside one unmarked segment.** -/
theorem Tiled.unmarked_of_gap {e n x : Nat} {xs : List α} : ∀ {s : Nat},
    Tiled lo len s xs e → NoTwoUnmarked mark xs → (∀ a ∈ xs, 0 < len a) → 0 < n →
    Gap s e (marked lo len mark xs) n x → ∃ a ∈ xs, mark a = false ∧ n ≤ len a ∧ lo a ≤ x := by
  induction xs with
  | nil =>
    intro s h _ _ hn hgap
    have h1 : s = e := h
    have h2 := hgap.1
    have h3 := hgap.2.1
    omega
  | cons a as ih =>
    intro s h hno hpos hn hgap
    have hs := h.1
    by_cases hx : s + len a ≤ x
    · -- the gap is behind the first segment
      have hsub : ∀ p ∈ marked lo len mark as, p ∈ marked lo len mark (a :: as) := fun p hp => by
        obtain ⟨b, hb, hbm, rfl⟩ := mem_marked.1 hp
        exact mem_marked.2 ⟨b, List.mem_cons_of_mem _ hb, hbm, rfl⟩
      obtain ⟨b, hb, hrest⟩ := ih h.2 hno.tail (fun b hb => hpos b (List.mem_cons_of_mem _ hb)) hn
        ⟨hx, hgap.2.1, fun p hp => hgap.2.2 p (hsub p hp)⟩
      exact ⟨b, List.mem_cons_of_mem _ hb, hrest⟩
    · -- it starts in the first segment, which is therefore not marked
      have hsx := hgap.1
      cases hm : mark a with
      | true =>
        have := hgap.2.2 _ (mem_marked.2 ⟨a, List.mem_cons_self, hm, rfl⟩)
        omega
      | false =>
        refine ⟨a, List.mem_cons_self, hm, ?_, by omega⟩
        have hg := h.gap hno hm
        cases hp : (marked lo len mark (a :: as)).head? with
        | none =>
          rw [hp] at hg
          have : s + len a = e := hg
          have := hgap.2.1
          omega
        | some p =>
          rw [hp] at hg
          have hstart : s + len a = p.1 := hg
          have hmem := List.mem_of_mem_head? hp
          obtain ⟨b, hb, -, rfl⟩ := mem_marked.1 hmem
          have := hgap.2.2 _ hmem
          have := hpos b hb
          omega

/-- **First fit takes the lowest gap.** -/
theorem Tiled.lowest_gap {s e n : Nat} {pre post : List α} {a : α}
    (h : Tiled lo len s (pre ++ a :: post) e) (hno : NoTwoUnmarked mark (pre ++ a :: post))
    (hpos : ∀ b ∈ pre ++ a :: post, 0 < len b) (hn : 0 < n)
    (hfirst : ∀ b ∈ pre, mark b = false → len b < n) {x : Nat}
    (hgap : Gap s e (marked lo len mark (pre ++ a :: post)) n x) : lo a ≤ x := by
  obtain ⟨b, hb, hbm, hbn, hbx⟩ := h.unmarked_of_gap hno hpos hn hgap
  have hpost := ((tiled_mid.1 h).2).bounds
  rcases List.mem_append.1 hb with hb | hb
  · exact absurd hbn (Nat.not_le.2 (hfirst b hb hbm))
  · rcases List.mem_cons.1 hb with rfl | hb
    · exact hbx
    · have := (hpost b hb).1
      omega

/-- There is at most one unmarked segment more than there are marked ones, and no more of them if
the first is marked. -/
theorem NoTwoUnmarked.length_unmarked {xs : List α} (h : NoTwoUnmarked mark xs) :
    (xs.filter fun a => !mark a).length ≤ (xs.filter mark).length + 1 ∧
      ∀ a as, xs = a :: as → mark a = true →
        (xs.filter fun a => !mark a).length ≤ (xs.filter mark).length := by
  induction xs with
  | nil => exact ⟨Nat.zero_le _, nofun⟩
  | cons a as ih =>
    obtain ⟨ih₁, ih₂⟩ := ih h.tail
    cases ha : mark a with
    | true =>
      have hm : ((a :: as).filter mark).length = (as.filter mark).length + 1 := by simp [ha]
      have hu : ((a :: as).filter fun a => !mark a) = as.filter fun a => !mark a := by simp [ha]
      rw [hm, hu]
      exact ⟨Nat.le_succ_of_le ih₁, fun _ _ _ _ => ih₁⟩
    | false =>
      have hm : (a :: as).filter mark = as.filter mark := by simp [ha]
      have hu : ((a :: as).filter fun a => !mark a).length
          = (as.filter fun a => !mark a).length + 1 := by simp [ha]
      rw [hm, hu]
      refine ⟨Nat.succ_le_succ ?_, fun b bs he hb => ?_⟩
      · cases as with
        | nil => exact Nat.zero_le _
        | cons b bs =>
          exact ih₂ b bs rfl ((List.isChain_cons_cons.1 h).1.resolve_left (by simp [ha]))
      · obtain ⟨rfl, -⟩ := List.cons.inj he
        rw [ha] at hb
        cases hb

/-- **Fragmentation is bounded.**  Where no unmarked segment has more than `k` places, all of them
together have no more than `k` for each marked segment, and `k`. -/
theorem NoTwoUnmarked.sum_unmarked_le {xs : List α} (h : NoTwoUnmarked mark xs) {k : Nat}
    (hk : ∀ a ∈ xs, mark a = false → len a ≤ k) :
    ((xs.filter fun a => !mark a).map len).sum ≤ k * ((xs.filter mark).length + 1) := by
  have hle : ∀ n ∈ (xs.filter fun a => !mark a).map len, n ≤ k := fun n hn => by
    obtain ⟨a, ha, rfl⟩ := List.mem_map.1 hn
    obtain ⟨hax, ham⟩ := List.mem_filter.1 ha
    exact hk a hax (by simpa using ham)
  calc ((xs.filter fun a => !mark a).map len).sum
      ≤ ((xs.filter fun a => !mark a).map len).length • k := List.sum_le_card_nsmul _ _ hle
    _ = k * (xs.filter fun a => !mark a).length := by
        rw [List.length_map, smul_eq_mul, Nat.mul_comm]
    _ ≤ k * ((xs.filter mark).length + 1) := Nat.mul_le_mul_left k h.length_unmarked.1

/-- **The gaps are determined by what they are between.**  Two tilings of an interval that have the
same marked segments, and of two neighbours always one marked, have the same segments. -/
theorem Tiled.ext_of_marked {e : Nat} {xs : List α} : ∀ {s : Nat} {ys : List α},
    Tiled lo len s xs e → Tiled lo len s ys e → (∀ a ∈ xs, 0 < len a) → (∀ a ∈ ys, 0 < len a) →
    NoTwoUnmarked mark xs → NoTwoUnmarked mark ys →
    marked lo len mark xs = marked lo len mark ys →
    (xs.map fun a => (lo a, len a, mark a)) = ys.map fun a => (lo a, len a, mark a) := by
  induction xs with
  | nil =>
    intro s ys hx hy _ hpos _ _ _
    cases ys with
    | nil => rfl
    | cons b bs =>
      have h1 := hy.2.le
      have h2 := hpos b List.mem_cons_self
      have h3 : s = e := hx
      omega
  | cons a as ih =>
    intro s ys hx hy hxpos hypos hxno hyno heq
    have hapos := hxpos a List.mem_cons_self
    cases ys with
    | nil =>
      have h1 := hx.2.le
      have h2 : s = e := hy
      omega
    | cons b bs =>
      have hbpos := hypos b List.mem_cons_self
      -- the two heads are the same segment
      have hhead : len a = len b ∧ mark a = mark b ∧
          marked lo len mark as = marked lo len mark bs := by
        cases ha : mark a with
        | true =>
          rw [marked_cons_true ha] at heq
          cases hb : mark b with
          | true =>
            rw [marked_cons_true hb] at heq
            obtain ⟨h1, h2⟩ := List.cons.inj heq
            exact ⟨(Prod.mk.inj h1).2, rfl, h2⟩
          | false =>
            have hgap := hy.gap hyno hb
            rw [← heq] at hgap
            have : s + len b = lo a := hgap
            have := hx.1
            omega
        | false =>
          have hgap := hx.gap hxno ha
          rw [heq] at hgap
          cases hb : mark b with
          | true =>
            rw [marked_cons_true hb] at hgap
            have : s + len a = lo b := hgap
            have := hy.1
            omega
          | false =>
            rw [← hy.gap hyno hb] at hgap
            rw [marked_cons_false ha, marked_cons_false hb] at heq
            exact ⟨Nat.add_left_cancel hgap, rfl, heq⟩
      obtain ⟨hlen, hmark, htail⟩ := hhead
      have hxs := hx.2
      rw [hlen] at hxs
      rw [List.map_cons, List.map_cons, hx.1, hy.1, hlen, hmark,
        ih hxs hy.2 (fun c hc => hxpos c (List.mem_cons_of_mem _ hc))
          (fun c hc => hypos c (List.mem_cons_of_mem _ hc)) hxno.tail hyno.tail htail]

end

end Tiling
