import Mathlib.Data.Set.Card
import Mathlib.Logic.Function.Basic

/-!
# Registries

A registry keeps values under numbers it hands out in order, each of them once.  It is what a
directory of objects with ids is for, without slots, memory or capacity.

* `add` keeps a value under the next number, `put` replaces one, `erase` drops one.
* `Ok R` is what every run of these keeps, `R` being a relation that any two of the values are to
  stand in: numbers in use have been handed out, and the values under two of them are so related.
* `Ok.add`, `Ok.put` and `Ok.erase` are the step lemmas.  All are cases of `Ok.update`: one number
  changes, what is under the others is kept, and what this one now has is related to it.
* `Gone id`: nothing is kept under the number and nothing will be.  `Gone.add`, `Gone.put` and
  `Gone.erase` say that a number that is gone stays so.

The values, and the relation between them, are parameters.
-/

set_option autoImplicit false

/-- Values under numbers, and the number that comes next. -/
@[ext] structure Registry (V : Type) where
  next : Nat
  get : Nat → Option V

namespace Registry

variable {V : Type} {R : V → V → Prop} {σ : Registry V} {v w : V} {id : Nat}

/-- The empty registry. -/
def empty (next : Nat) : Registry V := ⟨next, fun _ => none⟩

/-- Keep a value under the next number. -/
def add (σ : Registry V) (v : V) : Registry V :=
  ⟨σ.next + 1, Function.update σ.get σ.next (some v)⟩

/-- Replace the value under a number. -/
def put (σ : Registry V) (id : Nat) (v : V) : Registry V :=
  ⟨σ.next, Function.update σ.get id (some v)⟩

/-- Drop the value under a number. -/
def erase (σ : Registry V) (id : Nat) : Registry V :=
  ⟨σ.next, Function.update σ.get id none⟩

/-- The numbers in use. -/
def ids (σ : Registry V) : Set Nat := {id | σ.get id ≠ none}

/-- Nothing is kept under the number, and nothing will be. -/
def Gone (σ : Registry V) (id : Nat) : Prop := id < σ.next ∧ σ.get id = none

/-- Numbers in use have been handed out, and any two of the values are related. -/
structure Ok (R : V → V → Prop) (σ : Registry V) : Prop where
  lt : ∀ {id v}, σ.get id = some v → id < σ.next
  rel : ∀ {id id' v w}, σ.get id = some v → σ.get id' = some w → id ≠ id' → R v w

/-- The value is related to all but the one under `id`. -/
def Fits (R : V → V → Prop) (σ : Registry V) (id : Nat) (v : V) : Prop :=
  ∀ id' w, σ.get id' = some w → id' ≠ id → R v w ∧ R w v

theorem ok_empty (R : V → V → Prop) (n : Nat) : Ok R (empty n) :=
  ⟨nofun, nofun⟩

theorem get_update (n : Nat) (g : Nat → Option V) (id id' : Nat) (o : Option V) :
    (⟨n, Function.update g id o⟩ : Registry V).get id' = if id' = id then o else g id' :=
  Function.update_apply g id o id'

/-- **One number changes.**  What is kept under the others is kept, and what this one now has is
related to it. -/
theorem Ok.update (h : Ok R σ) {n : Nat} {o : Option V} (hn : σ.next ≤ n)
    (hid : o ≠ none → id < n) (hfit : ∀ v, o = some v → Fits R σ id v) :
    Ok R ⟨n, Function.update σ.get id o⟩ := by
  refine ⟨fun {k v} hk => ?_, fun {k l v w} hk hl hne => ?_⟩
  · rw [get_update] at hk
    split at hk
    · rename_i e
      exact e ▸ hid (by rw [hk]; exact Option.some_ne_none v)
    · exact Nat.lt_of_lt_of_le (h.lt hk) hn
  · rw [get_update] at hk hl
    split at hk
    · rename_i ek
      rw [if_neg fun el => hne (ek.trans el.symm)] at hl
      exact (hfit v hk l w hl fun el => hne (ek.trans el.symm)).1
    · split at hl
      · rename_i ek el
        exact (hfit w hl k v hk ek).2
      · exact h.rel hk hl hne

theorem Ok.add (h : Ok R σ) (hfit : Fits R σ σ.next v) : Ok R (σ.add v) :=
  h.update (Nat.le_succ _) (fun _ => Nat.lt_succ_self _) fun _ e => Option.some.inj e ▸ hfit

theorem Ok.put (h : Ok R σ) (hv : σ.get id = some v) (hfit : Fits R σ id w) :
    Ok R (σ.put id w) :=
  h.update (Nat.le_refl _) (fun _ => h.lt hv) fun _ e => Option.some.inj e ▸ hfit

theorem Ok.erase (h : Ok R σ) (id : Nat) : Ok R (σ.erase id) :=
  h.update (Nat.le_refl _) (fun e => absurd rfl e) fun _ e => nomatch e

/-- A value that is related to whatever its predecessor was related to can take its place. -/
theorem Ok.fits (h : Ok R σ) (hv : σ.get id = some v) (hl : ∀ u, R v u → R w u)
    (hr : ∀ u, R u v → R u w) : Fits R σ id w := fun _ u hu hne =>
  ⟨hl u (h.rel hv hu (Ne.symm hne)), hr u (h.rel hu hv hne)⟩

/-! ## What the operations leave under a number

Each operation changes what is under one number; the lemmas say what is there, and that the others
are as they were. -/

theorem get_add_of_ne (h : id ≠ σ.next) : (σ.add v).get id = σ.get id :=
  Function.update_of_ne h _ _

@[simp] theorem get_add_next : (σ.add v).get σ.next = some v := Function.update_self ..

theorem get_put_of_ne {id' : Nat} (h : id' ≠ id) : (σ.put id v).get id' = σ.get id' :=
  Function.update_of_ne h _ _

@[simp] theorem get_put_self : (σ.put id v).get id = some v := Function.update_self ..

theorem get_erase_of_ne {id' : Nat} (h : id' ≠ id) : (σ.erase id).get id' = σ.get id' :=
  Function.update_of_ne h _ _

@[simp] theorem get_erase_self : (σ.erase id).get id = none := Function.update_self ..

/-- **A number that is gone stays so**, whatever is added. -/
theorem Gone.add (h : σ.Gone id) : (σ.add v).Gone id :=
  ⟨Nat.lt_succ_of_lt h.1, by rw [get_add_of_ne (Nat.ne_of_lt h.1), h.2]⟩

theorem Gone.put {id' : Nat} (h : σ.Gone id) (hv : σ.get id' = some v) : (σ.put id' w).Gone id := by
  refine ⟨h.1, ?_⟩
  rw [get_put_of_ne, h.2]
  rintro rfl
  exact nomatch hv.symm.trans h.2

theorem Gone.erase {id' : Nat} (h : σ.Gone id) : (σ.erase id').Gone id := by
  refine ⟨h.1, ?_⟩
  by_cases he : id = id'
  · exact he ▸ get_erase_self
  · rw [get_erase_of_ne he, h.2]

end Registry
