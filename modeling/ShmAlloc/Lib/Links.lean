import Mathlib.Data.List.Basic

/-!
# Singly linked lists of nodes

Nodes are natural numbers, and a link is the node plus one, so that 0 is free to mean the end of
the list.  `next` is the link field as a function of the node: it is read from memory, but nothing
here depends on how.

`LinkSeg next l xs k` says that following links from `l` passes the nodes `xs` in order and leaves
the link `k` in hand; `Linked` is the case `k = 0`.  All edits of a list are edits of one link, the
one behind its last node before the place of the edit, so segments carry them:

* `linkSeg_append` cuts a list at any place, and names the link that crosses the cut;
* `LinkSeg.congr` is the frame rule: a segment depends on the link fields of its own nodes only;
* `LinkSeg.redirect` changes the link behind the last node of a segment;
* `Linked.unique` says that a list is determined by its head, so that what a walk finds is the list
  the invariant speaks of.

`lastLink l xs` and `firstLink xs` are the two links at a cut, as numbers: the link a predecessor is
known by, and the one it is to be given.
-/

set_option autoImplicit false

namespace Links

/-- From the link `l`, the nodes `xs` in order, and then the link `k`. -/
def LinkSeg (next : Nat → Nat) : Nat → List Nat → Nat → Prop
  | l, [], k => l = k
  | l, x :: xs, k => l = x + 1 ∧ LinkSeg next (next x) xs k

/-- The list headed by the link `l` has exactly the nodes `xs`, in order. -/
def Linked (next : Nat → Nat) (l : Nat) (xs : List Nat) : Prop := LinkSeg next l xs 0

/-- The link to the last node of `xs`, or `l` if there is none. -/
def lastLink (l : Nat) : List Nat → Nat
  | [] => l
  | x :: xs => lastLink (x + 1) xs

/-- The link to the first node of `xs`, or 0 if there is none. -/
def firstLink : List Nat → Nat
  | [] => 0
  | x :: _ => x + 1

variable {next next' : Nat → Nat}

@[simp] theorem firstLink_nil : firstLink [] = 0 := rfl

@[simp] theorem firstLink_cons (x : Nat) (xs : List Nat) : firstLink (x :: xs) = x + 1 := rfl

@[simp] theorem linkSeg_nil {l k : Nat} : LinkSeg next l [] k ↔ l = k := Iff.rfl

@[simp] theorem linkSeg_cons {l k x : Nat} {xs : List Nat} :
    LinkSeg next l (x :: xs) k ↔ l = x + 1 ∧ LinkSeg next (next x) xs k := Iff.rfl

/-- Two segments make one. -/
theorem linkSeg_append {xs ys : List Nat} : ∀ {l k : Nat},
    LinkSeg next l (xs ++ ys) k ↔ ∃ j, LinkSeg next l xs j ∧ LinkSeg next j ys k := by
  induction xs with
  | nil => intro l k; simp
  | cons x xs ih =>
    intro l k
    simp only [List.cons_append, linkSeg_cons, ih]
    constructor
    · rintro ⟨h, j, h1, h2⟩
      exact ⟨j, ⟨h, h1⟩, h2⟩
    · rintro ⟨j, ⟨h, h1⟩, h2⟩
      exact ⟨h, j, h1, h2⟩

/-- A segment only depends on the link fields of its nodes. -/
theorem LinkSeg.congr {xs : List Nat} : ∀ {l k : Nat}, LinkSeg next l xs k →
    (∀ x ∈ xs, next' x = next x) → LinkSeg next' l xs k := by
  induction xs with
  | nil => intro l k h _; exact h
  | cons x xs ih =>
    intro l k h hn
    refine ⟨h.1, ?_⟩
    rw [hn x List.mem_cons_self]
    exact ih h.2 fun y hy => hn y (List.mem_cons_of_mem _ hy)

/-- The head link of a list is the link to its first node. -/
theorem Linked.head {l : Nat} {xs : List Nat} (h : Linked next l xs) : l = firstLink xs := by
  cases xs with
  | nil => exact h
  | cons x xs => exact h.1

/-- The link behind a segment of a list leads to the rest of the list. -/
theorem Linked.split {l : Nat} {xs ys : List Nat} (h : Linked next l (xs ++ ys)) :
    LinkSeg next l xs (firstLink ys) ∧ Linked next (firstLink ys) ys := by
  obtain ⟨j, h1, h2⟩ := linkSeg_append.1 h
  have hj := Linked.head h2
  subst hj
  exact ⟨h1, h2⟩

/-- The link field of a node leads to what comes behind it. -/
theorem Linked.next_eq {l x : Nat} {xs ys : List Nat} (h : Linked next l (xs ++ x :: ys)) :
    next x = firstLink ys :=
  Linked.head h.split.2.2

/-- From one link at most one list is reached. -/
theorem Linked.unique {xs ys : List Nat} : ∀ {l : Nat}, Linked next l xs → Linked next l ys →
    xs = ys := by
  induction xs generalizing ys with
  | nil =>
    intro l h h'
    have hl : l = 0 := h
    cases ys with
    | nil => rfl
    | cons y ys => exact absurd (hl.symm.trans h'.1) (Nat.succ_ne_zero y).symm
  | cons x xs ih =>
    intro l h h'
    cases ys with
    | nil => exact absurd (Eq.trans (Eq.symm h') h.1) (Nat.succ_ne_zero x).symm
    | cons y ys =>
      obtain rfl : x = y := Nat.succ.inj (h.1.symm.trans h'.1)
      rw [ih h.2 h'.2]

@[simp] theorem lastLink_nil (l : Nat) : lastLink l [] = l := rfl

@[simp] theorem lastLink_cons (l x : Nat) (xs : List Nat) :
    lastLink l (x :: xs) = lastLink (x + 1) xs := rfl

@[simp] theorem lastLink_concat (l x : Nat) (xs : List Nat) :
    lastLink l (xs ++ [x]) = x + 1 := by
  induction xs generalizing l with
  | nil => rfl
  | cons y ys ih => exact ih (y + 1)

/-- Redirecting the link behind the last node redirects the end of the segment. -/
theorem LinkSeg.redirect {xs : List Nat} {x l k k' : Nat} (h : LinkSeg next l (xs ++ [x]) k)
    (hx : next' x = k') (hn : ∀ y ∈ xs, next' y = next y) :
    LinkSeg next' l (xs ++ [x]) k' := by
  rw [linkSeg_append] at h ⊢
  obtain ⟨j, h1, h2, -⟩ := h
  exact ⟨j, h1.congr hn, h2, hx⟩

end Links
