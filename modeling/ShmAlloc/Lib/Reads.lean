import ShmAlloc.Lib.Trace

/-!
# What programs read

`Exec` runs a program on a memory whose contents are known well enough to say what every load
returns.  The predicates here ask nothing of the memory, so they speak about runs on a memory of
which nothing is known:

* `Reads x m`: the run of `x` on `m` does nothing but load, possibly for ever; `ReadsOnly x` says so
  for every memory.
* `WritesNothing x`: `x` writes no memory, whatever it is run on; unlike one that only reads, it may
  take locks and answer its caller.
* `LoadsIn P x m`: the run loads only what `P` allows, by address and width.

Each comes with the rules for `pure`, `load`, `emit` and `bind`, so a program is shown to have it by
following its definition.  In `bind` the second program runs on the memory the first one left;
`LoadsIn.bind_reads` is the frequent case in which that is the same memory.
-/

set_option autoImplicit false

/-- The event is a load, or a loop without end. -/
def Event.isRead : Event → Bool
  | .load .. | .hang => true
  | _ => false

theorem Event.not_isWrite_of_isRead {e : Event} (h : e.isRead = true) : e.isWrite = false := by
  cases e <;> simp_all [Event.isRead, Event.isWrite]

/-- The run of the program on `m` only reads. -/
def Reads {α : Type} (x : Prog α) (m : Mem) : Prop := ∀ e ∈ x.trace m, e.isRead = true

/-- The program only reads, whatever it is run on. -/
def ReadsOnly {α : Type} (x : Prog α) : Prop := ∀ m, Reads x m

namespace Reads

variable {α β : Type} {x : Prog α} {f : α → Prog β} {m : Mem}

/-- A run that only reads leaves memory as it was. -/
theorem mem (h : Reads x m) : x.mem m = m :=
  replay_of_no_write (fun e he => Event.not_isWrite_of_isRead (h e he)) m

theorem bind (hx : Reads x m) (hf : Reads (f (x.val m)) m) : Reads (x >>= f) m := by
  intro e he
  rw [Prog.trace_bind, List.mem_append, hx.mem] at he
  exact he.elim (hx e) (hf e)

end Reads

namespace ReadsOnly

variable {α β : Type} {x : Prog α} {f : α → Prog β}

theorem pure (a : α) : ReadsOnly (Pure.pure a : Prog α) := fun m e he => by simp at he

theorem load (a n : Nat) : ReadsOnly (Prog.load a n) := fun m e he => by
  rw [Prog.trace_load, List.mem_singleton] at he
  rw [he]
  rfl

theorem get (p : Nat) (f : CField) : ReadsOnly (Prog.get p f) := load _ _

theorem bind (hx : ReadsOnly x) (hf : ∀ a, ReadsOnly (f a)) : ReadsOnly (x >>= f) := fun m =>
  (hx m).bind (hf _ m)

theorem hang : ReadsOnly (Prog.emit .hang) := fun m e he => by
  rw [Prog.trace_emit, List.mem_singleton] at he
  rw [he]
  rfl

end ReadsOnly

/-- The program writes no memory, whatever it is run on; unlike one that only reads, it may take
locks and answer its caller. -/
def WritesNothing {α : Type} (x : Prog α) : Prop := ∀ m, ∀ e ∈ x.trace m, e.isWrite = false

namespace WritesNothing

variable {α β : Type} {x : Prog α} {f : α → Prog β}

theorem mem (h : WritesNothing x) (m : Mem) : x.mem m = m := replay_of_no_write (h m) m

theorem pure (a : α) : WritesNothing (Pure.pure a : Prog α) := fun m e he => by simp at he

theorem emit {e : Event} (he : e.isWrite = false := by rfl) : WritesNothing (Prog.emit e) :=
  fun m e' he' => by
    rw [Prog.trace_emit, List.mem_singleton] at he'
    rw [he']
    exact he

theorem of_readsOnly (h : ReadsOnly x) : WritesNothing x := fun m e he =>
  Event.not_isWrite_of_isRead (h m e he)

theorem bind (hx : WritesNothing x) (hf : ∀ a, WritesNothing (f a)) : WritesNothing (x >>= f) :=
  fun m e he => by
    rw [Prog.trace_bind, List.mem_append] at he
    exact he.elim (hx m e) (hf _ _ e)

end WritesNothing

/-- Every load of the run is one that `P` allows, by its address and width. -/
def LoadsIn {α : Type} (P : Nat → Nat → Prop) (x : Prog α) (m : Mem) : Prop :=
  ∀ a n, .load a n ∈ x.trace m → P a n

namespace LoadsIn

variable {α β : Type} {P Q : Nat → Nat → Prop} {x : Prog α} {f : α → Prog β} {m : Mem}

theorem pure (a : α) : LoadsIn P (Pure.pure a : Prog α) m := fun b n h => by simp at h

theorem emit {e : Event} (he : e.isLoad = false := by rfl) : LoadsIn P (Prog.emit e) m :=
  fun a n h => by
    rw [Prog.trace_emit, List.mem_singleton] at h
    rw [← h] at he
    exact Bool.noConfusion he

theorem load {a n : Nat} (h : P a n) : LoadsIn P (Prog.load a n) m := fun b k hb => by
  rw [Prog.trace_load, List.mem_singleton, Event.load.injEq] at hb
  rw [hb.1, hb.2]
  exact h

theorem bind (hx : LoadsIn P x m) (hf : LoadsIn P (f (x.val m)) (x.mem m)) :
    LoadsIn P (x >>= f) m := fun a n h => by
  rw [Prog.trace_bind, List.mem_append] at h
  exact h.elim (hx a n) (hf a n)

/-- Sequencing after a program that only reads. -/
theorem bind_reads (hr : Reads x m) (hx : LoadsIn P x m) (hf : LoadsIn P (f (x.val m)) m) :
    LoadsIn P (x >>= f) m :=
  hx.bind (hr.mem.symm ▸ hf)

/-- Sequencing after a load. -/
theorem load_bind {a n : Nat} {g : Nat → Prog β} (h : P a n)
    (hf : LoadsIn P (g (m.load a n)) m) : LoadsIn P (Prog.load a n >>= g) m :=
  (load h).bind hf

theorem mono (h : LoadsIn P x m) (hPQ : ∀ a n, P a n → Q a n) : LoadsIn Q x m := fun a n ha =>
  hPQ a n (h a n ha)

end LoadsIn
