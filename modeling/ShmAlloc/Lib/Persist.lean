import ShmAlloc.Lib.Trace
import Mathlib.Tactic.Tauto

/-!
# What a power failure leaves

A store goes to the cache.  The line it is in may be written back at any moment, of its own accord;
it is sure to have been written back once a write-back of the line has been asked for and a fence
has been passed since.  So what is durable after a trace is, line by line, the memory at some
moment of it, and not at one so early that the line has been flushed after it (`Durable`).

## What is here

* `Durable L m es d`: the bytes `d` can be what is durable after the trace `es`, for lines of `L`
  bytes.  `L` is a parameter throughout.
* `durable_of_moments`: lines are independent of each other.  Whatever moments are picked for them,
  as long as no fence has been passed since the earliest, the image is possible.
* `durable_lagging`: in particular one line may lag behind while all others are up to date.  This is
  how a missing fence is shown to matter.
* `Unflushed`: a byte is written, and its line is not flushed behind that.  What is `Dirty` has not
  even been asked to be written back; for a trace that ends in its only fence the two are the same
  (`unflushed_iff_dirty`).
* `dirty_append`: a byte is dirty after two traces if the second leaves it so, or the first does and
  the second does not write its line back.  Traces are judged piece by piece with this.

`Flushed`, `Unflushed` and the rest are decidable, so a run on a fixed memory can be evaluated.
-/

set_option autoImplicit false

variable {L l : Nat} {m m' d : Mem} {es fs ps : List Event}

/-! ## Flushing a line -/

/-- The event asks for the write-back of line `l`.  The loop behind `persist a n` starts at the line
of `a` and goes on below `a + n`. -/
def Event.Flushes (L l : Nat) : Event → Prop
  | .persist a n => a / L ≤ l ∧ l * L < a + n
  | _ => False

instance Event.decidableFlushes (L l : Nat) : (e : Event) → Decidable (e.Flushes L l)
  | .persist a n => inferInstanceAs (Decidable (a / L ≤ l ∧ l * L < a + n))
  | .load .. | .store .. | .fill .. | .copy .. | .put .. | .drain | .lockInit | .lock _
  | .consistent | .unlock | .sub .. | .out .. | .hang => .isFalse id

/-- In the trace a write-back of line `l` is asked for, and a fence passed after it. -/
def Flushed (L l : Nat) : List Event → Prop
  | [] => False
  | e :: es => e.Flushes L l ∧ .drain ∈ es ∨ Flushed L l es

/-- Without a fence nothing is flushed. -/
theorem not_flushed_of_no_drain (h : .drain ∉ es) : ¬ Flushed L l es := by
  induction es with
  | nil => exact id
  | cons e es ih =>
    rw [List.mem_cons, not_or] at h
    rintro (⟨-, hd⟩ | hf)
    · exact h.2 hd
    · exact ih h.2 hf

/-! ## Durable images

The memory a program sees and the bytes that survive a power failure are different things, and
`Durable` relates them.  It is a relation, since the hardware chooses. -/

/-- The bytes `d` can be what is durable after the trace `es`, which started from the durable
memory `m`: every line as it was at a moment since which it has not been flushed. -/
def Durable (L : Nat) (m : Mem) (es : List Event) (d : Mem) : Prop :=
  ∀ l, ∃ V W, es = V ++ W ∧ ¬ Flushed L l W ∧ ∀ x, x / L = l → d x = replay V m x

/-- **Lines are written back independently.**  After a trace without a fence, for every line a
moment of that trace. -/
theorem durable_of_moments (hes : replay es m = m') (hdrain : .drain ∉ ps)
    {V : Nat → List Event} (hV : ∀ l, V l <+: ps) :
    Durable L m (es ++ ps) fun x => replay (V (x / L)) m' x := by
  intro l
  obtain ⟨W, hW⟩ := hV l
  refine ⟨es ++ V l, W, by rw [← hW, List.append_assoc], not_flushed_of_no_drain fun hd => ?_,
    fun x hx => ?_⟩
  · exact hdrain (hW ▸ List.mem_append_right _ hd)
  · show replay (V (x / L)) m' x = _
    rw [hx, replay_append, hes]

/-- The image in which line `l` is as it was after `vs`, and every other line as it is after `ps`.
-/
def lagging (L l : Nat) (vs ps : List Event) (m : Mem) : Mem := fun x =>
  replay (if x / L = l then vs else ps) m x

theorem lagging_of_line {vs : List Event} {x : Nat} (hx : x / L = l) :
    lagging L l vs ps m x = replay vs m x := by
  rw [lagging, if_pos hx]

theorem lagging_of_other {vs : List Event} {x : Nat} (hx : x / L ≠ l) :
    lagging L l vs ps m x = replay ps m x := by
  rw [lagging, if_neg hx]

/-- **One line may lag behind** to any moment of a trace without a fence. -/
theorem durable_lagging (l : Nat) (hes : replay es m = m') (hdrain : .drain ∉ ps) {vs : List Event}
    (hvs : vs <+: ps) : Durable L m (es ++ ps) (lagging L l vs ps m') := by
  refine durable_of_moments (V := fun k => if k = l then vs else ps) hes hdrain fun k => ?_
  by_cases hk : k = l
  · rwa [if_pos hk]
  · simp only [if_neg hk, List.prefix_rfl]

/-! ## Moments of a run -/

/-- A moment between two effects of a trace is a moment of the trace. -/
theorem exists_of_effects_eq {V W : List Event} (h : effects es = V ++ W) :
    ∃ vs ws, es = vs ++ ws ∧ effects vs = V ∧ effects ws = W :=
  List.filter_eq_append_iff.1 h

/-! ## What is not written back

To say that a call persists what it writes is to say that nothing is left `Unflushed`.  Loads and
other things that write nothing do not matter to that (`unflushed_iff_effects`). -/

/-- Some event of the list asks for the write-back of line `l`. -/
def WritesBack (L l : Nat) (es : List Event) : Prop := ∃ e ∈ es, e.Flushes L l

@[simp] theorem not_writesBack_nil : ¬ WritesBack L l [] := by simp [WritesBack]

@[simp] theorem writesBack_cons {e : Event} :
    WritesBack L l (e :: es) ↔ e.Flushes L l ∨ WritesBack L l es := by
  simp [WritesBack]

@[simp] theorem writesBack_append :
    WritesBack L l (es ++ fs) ↔ WritesBack L l es ∨ WritesBack L l fs := by
  simp [WritesBack, or_and_right, exists_or]

/-- Something is written to the byte at `x`, and no write-back of its line is asked for behind
that. -/
def Dirty (L x : Nat) : List Event → Prop
  | [] => False
  | e :: es => e.Touches x ∧ ¬ WritesBack L (x / L) es ∨ Dirty L x es

/-- Something is written to the byte at `x`, and its line is not flushed behind that. -/
def Unflushed (L x : Nat) : List Event → Prop
  | [] => False
  | e :: es => e.Touches x ∧ ¬ Flushed L (x / L) es ∨ Unflushed L x es

instance Event.decidableTouches (e : Event) (x : Nat) : Decidable (e.Touches x) :=
  match e with
  | .store a n _ | .fill a n _ => inferInstanceAs (Decidable (a ≤ x ∧ x < a + n))
  | .copy d _ n => inferInstanceAs (Decidable (d ≤ x ∧ x < d + n))
  | .put a bs => inferInstanceAs (Decidable (a ≤ x ∧ x < a + bs.length))
  | .load .. | .persist .. | .drain | .lockInit | .lock _ | .consistent | .unlock | .sub ..
  | .out .. | .hang => .isFalse id

instance Flushed.decidable (L l : Nat) : (es : List Event) → Decidable (Flushed L l es)
  | [] => .isFalse id
  | _ :: es => @instDecidableOr _ _ _ (Flushed.decidable L l es)

instance Unflushed.decidable (L x : Nat) : (es : List Event) → Decidable (Unflushed L x es)
  | [] => .isFalse id
  | e :: es => @instDecidableOr (e.Touches x ∧ ¬ Flushed L (x / L) es) _ inferInstance
    (Unflushed.decidable L x es)

section

variable {x : Nat}

/-- Writing back a range writes back the lines of its bytes. -/
theorem flushes_of_mem {a n : Nat} (h : a ≤ x) (h' : x < a + n) :
    (Event.persist a n).Flushes L (x / L) :=
  ⟨Nat.div_le_div_right h, Nat.lt_of_le_of_lt (Nat.div_mul_le_self x L) h'⟩

theorem Dirty.writes (h : Dirty L x es) : Writes es x := by
  induction es with
  | nil => exact h.elim
  | cons e es ih =>
    rw [writes_cons]
    exact h.imp And.left ih

/-- **A byte is dirty after two traces** if the second leaves it so, or the first does and the
second does not write its line back. -/
theorem dirty_append :
    Dirty L x (es ++ fs) ↔ Dirty L x es ∧ ¬ WritesBack L (x / L) fs ∨ Dirty L x fs := by
  induction es with
  | nil => simp [Dirty]
  | cons e es ih =>
    rw [List.cons_append, Dirty, Dirty, ih, writesBack_append]
    tauto

/-- What a trace writes is not dirty if the next one writes it back. -/
theorem not_dirty_append (hfs : ¬ Dirty L x fs) (h : Writes es x → WritesBack L (x / L) fs) :
    ¬ Dirty L x (es ++ fs) := by
  rw [dirty_append]
  rintro (⟨hd, hno⟩ | hd)
  · exact hno (h hd.writes)
  · exact hfs hd

theorem flushed_iff_effects : Flushed L l (effects es) ↔ Flushed L l es := by
  induction es with
  | nil => rfl
  | cons e es ih =>
    have hdrain : .drain ∈ effects es ↔ .drain ∈ es := by
      rw [mem_effects]
      exact and_iff_left rfl
    cases he : e.isLoad with
    | true =>
      have hno : ¬ e.Flushes L l := by
        cases e <;> first | exact id | exact Bool.noConfusion he
      rw [effects, List.filter_cons_of_neg (by simp [he]), ← effects, ih, Flushed]
      tauto
    | false =>
      rw [effects, List.filter_cons_of_pos (by simp [he]), ← effects, Flushed, Flushed, ih, hdrain]

/-- Loads do not matter. -/
theorem unflushed_iff_effects : Unflushed L x (effects es) ↔ Unflushed L x es := by
  induction es with
  | nil => rfl
  | cons e es ih =>
    cases he : e.isLoad with
    | true =>
      have hno : ¬ e.Touches x := by
        cases e <;> first | exact id | exact Bool.noConfusion he
      rw [effects, List.filter_cons_of_neg (by simp [he]), ← effects, ih, Unflushed]
      tauto
    | false =>
      rw [effects, List.filter_cons_of_pos (by simp [he]), ← effects, Unflushed, Unflushed, ih,
        flushed_iff_effects]

/-- Up to the last fence it is enough that the write-backs are there. -/
theorem flushed_append_drain (hfs : .drain ∉ fs) :
    Flushed L l (es ++ .drain :: fs) ↔ WritesBack L l es := by
  induction es with
  | nil =>
    refine iff_of_false ?_ not_writesBack_nil
    rintro (⟨h, -⟩ | h)
    · exact h
    · exact not_flushed_of_no_drain hfs h
  | cons e es ih =>
    rw [List.cons_append, Flushed, ih, writesBack_cons]
    simp

theorem Unflushed.writes (h : Unflushed L x es) : Writes es x := by
  induction es with
  | nil => exact h.elim
  | cons e es ih =>
    rw [writes_cons]
    exact h.imp And.left ih

/-- **A trace with its last fence at the end** leaves unflushed what it leaves dirty. -/
theorem unflushed_iff_dirty (hfs : ¬ Writes fs x) (hdrain : .drain ∉ fs) :
    Unflushed L x (es ++ .drain :: fs) ↔ Dirty L x es := by
  induction es with
  | nil =>
    refine iff_of_false (fun h => hfs ?_) id
    have hw := h.writes
    rw [List.nil_append, writes_cons] at hw
    exact hw.resolve_left id
  | cons e es ih =>
    rw [List.cons_append, Unflushed, Dirty, ih, flushed_append_drain hdrain]

end
