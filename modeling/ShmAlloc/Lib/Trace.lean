import ShmAlloc.Lib.ByteMem

/-!
# Programs over a shared memory, and the trace of what they do to it

A program is run on a memory and answers with a value and the *trace* of its accesses, in program
order: loads, stores, block fills and copies, cache-line write-backs, fences, lock operations.  The
memory a program leaves behind is not a second result but the trace replayed on the memory it
started from.  So one object carries everything a crash, a persistency or an isolation argument
needs: a crash is a prefix of the trace, a missed write-back is a store with no `persist` behind
it, and a byte no event touches is a byte that did not change.

Memory is total here, so an access outside the mapping does not stop a program.  It is recorded,
and `Completed size` says of a trace that every access stayed below `size` and no loop ran for
ever; statements about calls that returned are about completed traces.

## What is here

* `Event`, with what an event does to memory (`act`) and which bytes it writes (`Touches`).
* `replay`, and the frame rule `replay_of_untouched`: a byte no event touches keeps its value.
  `effects` are the trace without its loads, which is all that `replay` depends on.
* `Prog`, a monad; `val`, `trace` and `mem` are what a program returns, does and leaves.
* `CField`, `Prog.get` and `Prog.set`: the fields of C structures, by offset and width.
* `Exec sz x m v W`, the calculus programs are run with in proofs: `x` on `m` returns `v`, has
  exactly the effects `W`, and loads nothing at or beyond `sz`.  Its rules follow the program:
  `load_bind`, `emit_bind`, `bind` and `seq`, the second program running on the memory the first
  one left.  A run that stays inside the mapping is completed (`Exec.completed`).

An operation is verified by naming its effects as a list of events `W`, showing `Exec` for it once,
and reasoning about `replay W` from there on; the text of the program is not looked at again.
-/

set_option autoImplicit false

/-- What `pthread_mutex_lock` can answer on a robust mutex. -/
inductive LockRc
  /-- The lock was free or has been released. -/
  | acquired
  /-- Its holder died; the caller now holds it. -/
  | ownerDead
  /-- Any other code; the caller does not hold it. -/
  | failed
  deriving DecidableEq, Repr

/-- One access of a program to the shared world. -/
inductive Event
  /-- Read `n` bytes at `a`. -/
  | load (a n : Nat)
  /-- Write the low `n` bytes of `v` at `a`. -/
  | store (a n v : Nat)
  /-- Set `n` bytes at `a` to `v`. -/
  | fill (a n : Nat) (v : UInt8)
  /-- Copy `n` bytes from `src` to `dst`. -/
  | copy (dst src n : Nat)
  /-- Write a byte string at `a`. -/
  | put (a : Nat) (bs : List UInt8)
  /-- Write back every cache line that meets `[a, a + n)`. -/
  | persist (a n : Nat)
  /-- Store fence. -/
  | drain
  /-- Initialise the lock word. -/
  | lockInit
  /-- Ask for the lock. -/
  | lock (rc : LockRc)
  /-- Declare the state behind an orphaned lock consistent. -/
  | consistent
  /-- Release the lock. -/
  | unlock
  /-- Subtract `y` from the counter value `x`. -/
  | sub (x y : Nat)
  /-- Write `v` through the caller's `i`-th out-pointer, which is not shared memory. -/
  | out (i v : Nat)
  /-- A loop that does not end. -/
  | hang
  deriving DecidableEq, Repr

namespace Event

/-- The effect of an event on memory. -/
def act : Event → Mem → Mem
  | store a n v, m => m.store a n v
  | fill a n v, m => m.fill a n v
  | copy dst src n, m => m.copy dst src n
  | put a bs, m => m.put a bs
  | _, m => m

/-- The event writes the byte at `x`. -/
def Touches : Event → Nat → Prop
  | store a n _, x => a ≤ x ∧ x < a + n
  | fill a n _, x => a ≤ x ∧ x < a + n
  | copy dst _ n, x => dst ≤ x ∧ x < dst + n
  | put a bs, x => a ≤ x ∧ x < a + bs.length
  | _, _ => False

/-- The event writes memory, whether or not it changes a byte. -/
def isWrite : Event → Bool
  | store .. | fill .. | copy .. | put .. => true
  | _ => false

/-- The event is a load. -/
def isLoad : Event → Bool
  | load .. => true
  | _ => false

/-- The access stays inside a mapping of `size` bytes; a loop without end stays nowhere. -/
def Within (size : Nat) : Event → Prop
  | load a n => a + n ≤ size
  | store a n _ => a + n ≤ size
  | fill a n _ => n = 0 ∨ a + n ≤ size
  | copy dst src n => n = 0 ∨ dst + n ≤ size ∧ src + n ≤ size
  | put a bs => bs = [] ∨ a + bs.length ≤ size
  | hang => False
  | _ => True

instance (size : Nat) (e : Event) : Decidable (e.Within size) := by
  cases e <;> unfold Within <;> infer_instance

theorem act_of_not_touches {e : Event} {m : Mem} {x : Nat} (h : ¬ e.Touches x) :
    e.act m x = m x := by
  cases e <;> simp only [Touches, not_and_or, Nat.not_le, Nat.not_lt] at h <;> try rfl
  · exact Mem.store_of_outside h
  · exact Mem.fill_of_outside h
  · exact Mem.copy_of_outside h
  · exact Mem.put_of_outside h

theorem act_of_isLoad {e : Event} {m : Mem} (h : e.isLoad = true) : e.act m = m := by
  cases e <;> simp_all [isLoad, act]

theorem act_of_not_isWrite {e : Event} {m : Mem} (h : e.isWrite = false) : e.act m = m := by
  cases e <;> simp_all [isWrite, act]

theorem not_touches_of_not_isWrite {e : Event} {x : Nat} (h : e.isWrite = false) :
    ¬ e.Touches x := by
  cases e <;> simp_all [isWrite, Touches]

end Event

/-! ## Replaying a trace

What a trace does to memory, and which bytes it leaves alone.  Most traces of a development are
lists with one event for each statement of the source, and `replay_cons` takes them apart. -/

/-- The memory after the events of a trace, in order. -/
def replay : List Event → Mem → Mem
  | [], m => m
  | e :: es, m => replay es (e.act m)

@[simp] theorem replay_nil (m : Mem) : replay [] m = m := rfl

@[simp] theorem replay_cons (e : Event) (es : List Event) (m : Mem) :
    replay (e :: es) m = replay es (e.act m) := rfl

theorem replay_append (es fs : List Event) (m : Mem) :
    replay (es ++ fs) m = replay fs (replay es m) := by
  induction es generalizing m with
  | nil => rfl
  | cons e es ih => exact ih (e.act m)

/-- **A byte no event touches keeps its value.** -/
theorem replay_of_untouched {es : List Event} {x : Nat} (h : ∀ e ∈ es, ¬ e.Touches x) (m : Mem) :
    replay es m x = m x := by
  induction es generalizing m with
  | nil => rfl
  | cons e es ih =>
    rw [replay_cons, ih fun f hf => h f (List.mem_cons_of_mem _ hf)]
    exact Event.act_of_not_touches (h e List.mem_cons_self)

/-- Some event of the trace writes the byte at `x`. -/
def Writes (es : List Event) (x : Nat) : Prop := ∃ e ∈ es, e.Touches x

@[simp] theorem not_writes_nil (x : Nat) : ¬ Writes [] x := by simp [Writes]

@[simp] theorem writes_cons {e : Event} {es : List Event} {x : Nat} :
    Writes (e :: es) x ↔ e.Touches x ∨ Writes es x := by
  simp [Writes, or_and_right, exists_or]

@[simp] theorem writes_append {es fs : List Event} {x : Nat} :
    Writes (es ++ fs) x ↔ Writes es x ∨ Writes fs x := by
  simp [Writes, or_and_right, exists_or]

theorem replay_of_not_writes {W : List Event} {x : Nat} (h : ¬ Writes W x) (m : Mem) :
    replay W m x = m x :=
  replay_of_untouched (fun e he ht => h ⟨e, he, ht⟩) m

/-- A load of memory no event touches. -/
theorem load_replay {W : List Event} {m : Mem} {a n : Nat}
    (h : ∀ x, Writes W x → x < a ∨ a + n ≤ x) : (replay W m).load a n = m.load a n :=
  Mem.load_congr fun i hi => replay_of_not_writes (fun hw => by
    have := h _ hw
    omega) m

/-- A trace without writes leaves memory as it was. -/
theorem replay_of_no_write {es : List Event} (h : ∀ e ∈ es, e.isWrite = false) (m : Mem) :
    replay es m = m :=
  funext fun _ => replay_of_untouched (fun e he => Event.not_touches_of_not_isWrite (h e he)) m

/-- The trace without its loads. -/
def effects (es : List Event) : List Event := es.filter fun e => !e.isLoad

@[simp] theorem effects_nil : effects [] = [] := rfl

@[simp] theorem effects_append (es fs : List Event) :
    effects (es ++ fs) = effects es ++ effects fs := List.filter_append ..

theorem mem_effects {es : List Event} {e : Event} :
    e ∈ effects es ↔ e ∈ es ∧ e.isLoad = false := by
  simp [effects]

/-- Loads write nothing. -/
theorem writes_effects {es : List Event} {x : Nat} : Writes (effects es) x ↔ Writes es x := by
  constructor
  · rintro ⟨e, he, ht⟩
    exact ⟨e, (mem_effects.1 he).1, ht⟩
  · rintro ⟨e, he, ht⟩
    refine ⟨e, mem_effects.2 ⟨he, ?_⟩, ht⟩
    cases e with
    | load a n => exact absurd ht id
    | _ => rfl

/-- Loads do not matter to replay. -/
@[simp] theorem replay_effects (es : List Event) (m : Mem) :
    replay (effects es) m = replay es m := by
  induction es generalizing m with
  | nil => rfl
  | cons e es ih =>
    cases he : e.isLoad with
    | true =>
      rw [replay_cons, Event.act_of_isLoad he, ← ih]
      simp [effects, he]
    | false =>
      rw [replay_cons, ← ih]
      simp [effects, he]

/-- Every access of the trace stayed inside a mapping of `size` bytes, and every loop ended. -/
def Completed (size : Nat) (es : List Event) : Prop := ∀ e ∈ es, e.Within size

instance (size : Nat) (es : List Event) : Decidable (Completed size es) := by
  unfold Completed; infer_instance

/-- A trace that is not completed has a first event at which it goes wrong. -/
theorem exists_first_not_within {size : Nat} {es : List Event} (h : ¬ Completed size es) :
    ∃ V e W, es = V ++ e :: W ∧ Completed size V ∧ ¬ e.Within size := by
  induction es with
  | nil => exact absurd (List.forall_mem_nil _) h
  | cons d es ih =>
    by_cases hd : d.Within size
    · obtain ⟨V, e, W, rfl, hV, he⟩ := ih fun hes => h (List.forall_mem_cons.2 ⟨hd, hes⟩)
      exact ⟨d :: V, e, W, rfl, List.forall_mem_cons.2 ⟨hd, hV⟩, he⟩
    · exact ⟨[], d, es, rfl, List.forall_mem_nil _, hd⟩

/-- The event reads no memory, and if it is a store it writes at least one byte. -/
def Event.isPlain : Event → Bool
  | .load .. | .copy .. | .hang => false
  | .store _ n _ => n != 0
  | _ => true

/-- The event fills or copies memory. -/
def Event.isBulk : Event → Bool
  | .fill .. | .copy .. => true
  | _ => false

/-- The event is one of those that edit a data structure field by field: it writes a field, writes
back, or counts. -/
def Event.isEdit : Event → Bool
  | .store _ n _ => n != 0
  | .persist .. | .sub .. => true
  | _ => false

theorem Event.isPlain_of_isEdit {e : Event} (h : e.isEdit = true) : e.isPlain = true := by
  cases e <;> simp_all [isEdit, isPlain]

theorem Event.isBulk_of_isEdit {e : Event} (h : e.isEdit = true) : e.isBulk = false := by
  cases e <;> simp_all [isEdit, isBulk]

/-- **A plain trace stays where its writes are.** -/
theorem within_of_writes {size : Nat} {es : List Event} (hp : ∀ e ∈ es, e.isPlain = true)
    (hw : ∀ x, Writes es x → x < size) : ∀ e ∈ es, e.Within size := by
  intro e he
  have hx : ∀ x, e.Touches x → x < size := fun x ht => hw x ⟨e, he, ht⟩
  have hpe := hp e he
  cases e with
  | load a n => simp [Event.isPlain] at hpe
  | copy dst src n => simp [Event.isPlain] at hpe
  | hang => simp [Event.isPlain] at hpe
  | store a n v =>
    have hn : n ≠ 0 := by simpa [Event.isPlain] using hpe
    have := hx (a + n - 1) ⟨by omega, by omega⟩
    show a + n ≤ size
    omega
  | fill a n v =>
    by_cases hn : n = 0
    · exact .inl hn
    · have := hx (a + n - 1) ⟨by omega, by omega⟩
      exact .inr (by omega)
  | put a bs =>
    by_cases hn : bs = []
    · exact .inl hn
    · have hlen := List.length_pos_iff.2 hn
      have := hx (a + bs.length - 1) ⟨by omega, by omega⟩
      exact .inr (by omega)
  | _ => trivial

/-- Whether the running process holds the lock after the trace, having started without it. -/
def holdsLock : List Event → Bool
  | es => es.foldl (fun held e => match e with
      | .lock .acquired | .lock .ownerDead => true
      | .unlock => false
      | _ => held) false

/-- What the trace leaves in the caller's `i`-th out-parameter, if anything. -/
def lastOut (i : Nat) (es : List Event) : Option Nat :=
  es.foldl (fun v e => match e with
    | .out j w => if j = i then some w else v
    | _ => v) none

/-- Loads do not matter to out-parameters. -/
@[simp] theorem lastOut_effects (i : Nat) (es : List Event) :
    lastOut i (effects es) = lastOut i es := by
  rw [lastOut, effects, List.foldl_filter, lastOut]
  congr 1
  funext v e
  cases e <;> rfl

/-- A trace that does not write an out-parameter leaves nothing in it. -/
theorem lastOut_eq_none {i : Nat} {es : List Event} (h : ∀ v, Event.out i v ∉ es) :
    lastOut i es = none := by
  induction es with
  | nil => rfl
  | cons e es ih =>
    have htail : lastOut i es = none := ih fun v hv => h v (List.mem_cons_of_mem e hv)
    cases e with
    | out j w =>
      have hj : j ≠ i := by
        rintro rfl
        exact h w List.mem_cons_self
      show List.foldl _ (if j = i then some w else none) es = none
      rw [if_neg hj]
      exact htail
    | _ => exact htail

/-! ## Programs

`bind` runs the second program on the memory that the first one left, and puts the two traces one
behind the other. -/

/-- A program over a shared memory: run on a memory, it returns a value and its trace. -/
def Prog (α : Type) : Type := Mem → α × List Event

namespace Prog

variable {α β : Type}

/-- What the program returns. -/
def val (x : Prog α) (m : Mem) : α := (x m).1

/-- What the program does, in program order. -/
def trace (x : Prog α) (m : Mem) : List Event := (x m).2

/-- The memory the program leaves. -/
def mem (x : Prog α) (m : Mem) : Mem := replay (x.trace m) m

instance : Monad Prog where
  pure a := fun _ => (a, [])
  bind x f := fun m =>
    ((f (x.val m)).val (x.mem m), x.trace m ++ (f (x.val m)).trace (x.mem m))

/-- Perform one event. -/
def emit (e : Event) : Prog Unit := fun _ => ((), [e])

/-- Read an `n`-byte number. -/
def load (a n : Nat) : Prog Nat := fun m => (m.load a n, [.load a n])

@[simp] theorem val_pure (a : α) (m : Mem) : (pure a : Prog α).val m = a := rfl

@[simp] theorem trace_pure (a : α) (m : Mem) : (pure a : Prog α).trace m = [] := rfl

@[simp] theorem val_bind (x : Prog α) (f : α → Prog β) (m : Mem) :
    (x >>= f).val m = (f (x.val m)).val (x.mem m) := rfl

@[simp] theorem trace_bind (x : Prog α) (f : α → Prog β) (m : Mem) :
    (x >>= f).trace m = x.trace m ++ (f (x.val m)).trace (x.mem m) := rfl

@[simp] theorem mem_pure (a : α) (m : Mem) : (pure a : Prog α).mem m = m := rfl

@[simp] theorem mem_bind (x : Prog α) (f : α → Prog β) (m : Mem) :
    (x >>= f).mem m = (f (x.val m)).mem (x.mem m) := by
  rw [mem, trace_bind, replay_append]
  rfl

@[simp] theorem val_emit (e : Event) (m : Mem) : (emit e).val m = () := rfl

@[simp] theorem trace_emit (e : Event) (m : Mem) : (emit e).trace m = [e] := rfl

@[simp] theorem mem_emit (e : Event) (m : Mem) : (emit e).mem m = e.act m := rfl

@[simp] theorem val_load (a n : Nat) (m : Mem) : (load a n).val m = m.load a n := rfl

@[simp] theorem trace_load (a n : Nat) (m : Mem) : (load a n).trace m = [.load a n] := rfl

@[simp] theorem mem_load (a n : Nat) (m : Mem) : (load a n).mem m = m := rfl

end Prog

/-! ## Structure fields -/

/-- A scalar field of a C structure: its byte offset and its width. -/
structure CField where
  /-- Offset from the start of the structure. -/
  off : Nat
  /-- Size in bytes. -/
  width : Nat

/-- Read a field of the structure at `p`. -/
def Prog.get (p : Nat) (f : CField) : Prog Nat := Prog.load (p + f.off) f.width

/-- Write a field of the structure at `p`. -/
def Prog.set (p : Nat) (f : CField) (v : Nat) : Prog Unit :=
  Prog.emit (.store (p + f.off) f.width v)

/-! ## Running programs in proofs

The rules are applied in the order of the statements of the program.  A load needs the value that is
there, and that it is inside the bound; anything else becomes an event of the result. -/

/-- On `m` the program `x` returns `v`, has exactly the effects `W`, and loads only below `sz`. -/
structure Exec (sz : Nat) {α : Type} (x : Prog α) (m : Mem) (v : α) (W : List Event) : Prop where
  /-- The value returned. -/
  val : x.val m = v
  /-- The trace without its loads. -/
  eff : effects (x.trace m) = W
  /-- Every load is below the bound. -/
  loads : ∀ a n, .load a n ∈ x.trace m → a + n ≤ sz

namespace Exec

variable {sz : Nat} {α β : Type} {x : Prog α} {f : α → Prog β} {m : Mem}

/-- The memory a program leaves is its effects replayed. -/
theorem mem {v : α} {W : List Event} (h : Exec sz x m v W) : x.mem m = replay W m := by
  rw [Prog.mem, ← replay_effects, h.eff]

theorem pure (a : α) : Exec sz (Pure.pure a : Prog α) m a [] :=
  ⟨rfl, rfl, fun _ _ h => by simp at h⟩

theorem emit {e : Event} (he : e.isLoad = false := by rfl) : Exec sz (Prog.emit e) m () [e] :=
  ⟨rfl, by simp [effects, he], fun a n h => by
    simp only [Prog.trace_emit, List.mem_singleton] at h
    rw [← h] at he
    exact absurd he (by simp [Event.isLoad])⟩

theorem load {a n v : Nat} (hv : m.load a n = v) (hr : a + n ≤ sz) :
    Exec sz (Prog.load a n) m v [] :=
  ⟨hv, rfl, fun b k h => by
    simp only [Prog.trace_load, List.mem_singleton, Event.load.injEq] at h
    omega⟩

/-- Sequencing: the second program runs on the memory the first one left. -/
theorem bind {a : α} {b : β} {V W : List Event} (hx : Exec sz x m a V)
    (hf : Exec sz (f a) (replay V m) b W) : Exec sz (x >>= f) m b (V ++ W) := by
  have hm := hx.mem
  refine ⟨?_, ?_, fun c n h => ?_⟩
  · rw [Prog.val_bind, hx.val, hm, hf.val]
  · rw [Prog.trace_bind, effects_append, hx.eff, hx.val, hm, hf.eff]
  · rw [Prog.trace_bind, List.mem_append, hx.val, hm] at h
    exact h.elim (hx.loads c n) (hf.loads c n)

/-- Sequencing after a program without effects, such as a load. -/
theorem bind_nil {a : α} {b : β} {W : List Event} (hx : Exec sz x m a [])
    (hf : Exec sz (f a) m b W) : Exec sz (x >>= f) m b W :=
  hx.bind hf

/-- Sequencing after a program that returns nothing. -/
theorem seq {x : Prog Unit} {g : Unit → Prog β} {b : β} {V W : List Event}
    (hx : Exec sz x m () V) (hf : Exec sz (g ()) (replay V m) b W) :
    Exec sz (x >>= g) m b (V ++ W) :=
  hx.bind hf

/-- Sequencing after one event. -/
theorem emit_bind {g : Unit → Prog β} {e : Event} {b : β} {W : List Event}
    (hf : Exec sz (g ()) (e.act m) b W) (he : e.isLoad = false := by rfl) :
    Exec sz (Prog.emit e >>= g) m b (e :: W) :=
  (Exec.emit he).bind hf

/-- Sequencing after a load of a known value. -/
theorem load_bind {g : Nat → Prog β} {a n v : Nat} {b : β} {W : List Event}
    (hv : m.load a n = v) (hr : a + n ≤ sz) (hf : Exec sz (g v) m b W) :
    Exec sz (Prog.load a n >>= g) m b W :=
  (Exec.load hv hr).bind_nil hf

/-- The effects may be written in another way. -/
theorem congr {v : α} {V W : List Event} (h : Exec sz x m v V) (hW : V = W) : Exec sz x m v W :=
  hW ▸ h

/-- The bound on loads may be larger. -/
theorem mono {v : α} {W : List Event} (h : Exec sz x m v W) {sz' : Nat} (hsz : sz ≤ sz') :
    Exec sz' x m v W :=
  ⟨h.val, h.eff, fun a n ha => Nat.le_trans (h.loads a n ha) hsz⟩

/-- A run whose effects stay inside a mapping at least as large as what it loads is completed. -/
theorem completed {v : α} {W : List Event} (h : Exec sz x m v W)
    (hW : ∀ e ∈ W, e.Within sz) : Completed sz (x.trace m) := by
  intro e he
  cases hl : e.isLoad with
  | true =>
    cases e <;> simp [Event.isLoad] at hl
    exact h.loads _ _ he
  | false => exact hW e (h.eff ▸ mem_effects.2 ⟨he, hl⟩)

/-- The effects of a completed run stay inside the mapping. -/
theorem within {size : Nat} {v : α} {W : List Event} (h : Exec sz x m v W)
    (hc : Completed size (x.trace m)) {e : Event} (he : e ∈ W) : e.Within size := by
  rw [← h.eff, mem_effects] at he
  exact hc e he.1

/-- What a program fills and copies is among its effects. -/
theorem mem_of_isBulk {v : α} {W : List Event} (hx : Exec sz x m v W) {e : Event}
    (he : e ∈ x.trace m) (hbulk : e.isBulk = true) : e ∈ W := by
  rw [← hx.eff]
  refine mem_effects.2 ⟨he, ?_⟩
  cases e with
  | load a n => exact Bool.noConfusion hbulk
  | _ => rfl

/-- What a sequence returns, whatever its second program does. -/
theorem val_bind {a : α} {V : List Event} (hx : Exec sz x m a V) :
    (x >>= f).val m = (f a).val (replay V m) := by
  rw [Prog.val_bind, hx.val, hx.mem]

theorem val_bind_nil {a : α} (hx : Exec sz x m a []) : (x >>= f).val m = (f a).val m :=
  hx.val_bind

/-- What a sequence does ends in what its second program does. -/
theorem trace_bind {a : α} {V : List Event} (hx : Exec sz x m a V) :
    (x >>= f).trace m = x.trace m ++ (f a).trace (replay V m) := by
  rw [Prog.trace_bind, hx.val, hx.mem]

theorem trace_bind_nil {a : α} (hx : Exec sz x m a []) :
    (x >>= f).trace m = x.trace m ++ (f a).trace m :=
  hx.trace_bind

/-- What follows a program in a completed run is completed itself. -/
theorem completed_rest {size : Nat} {a : α} {V : List Event} (hx : Exec sz x m a V)
    (hc : Completed size ((x >>= f).trace m)) : Completed size ((f a).trace (replay V m)) := by
  intro e he
  refine hc e ?_
  rw [hx.trace_bind]
  exact List.mem_append_right _ he

theorem completed_rest_nil {size : Nat} {a : α} (hx : Exec sz x m a [])
    (hc : Completed size ((x >>= f).trace m)) : Completed size ((f a).trace m) :=
  hx.completed_rest hc

end Exec

/-- The start of a completed run is completed. -/
theorem Completed.left {size : Nat} {α β : Type} {x : Prog α} {f : α → Prog β} {m : Mem}
    (hc : Completed size ((x >>= f).trace m)) : Completed size (x.trace m) := fun e he =>
  hc e (by
    rw [Prog.trace_bind, List.mem_append]
    exact .inl he)

