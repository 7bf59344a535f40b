import ShmAlloc.Lib.Trace
import Mathlib.Logic.Function.Basic
import Mathlib.Tactic.Choose

/-!
# Processes that take turns

`Lib.Trace` runs a program in one go.  Here the same program is run one access at a time, with the
accesses of other processes in between.  What a processor needs for that is the text of the program,
a `Code`: its next access, and how it goes on for each value that may be loaded.  `Code.denote` is
the program the text is of.

A `Machine` is a memory, a lock, and any number of processes.  They run calls, whose texts take the
lock first and release it last (`Code.Guarded`), or look at the memory without the lock
(`Code.Looks`); they may die at any moment.

## What is here

* `Guarded` and the rules `Emits.bind`, `Emits.bind_closes`, `Closes.guarded`: how to show that a
  program has a text that takes the lock first and releases it last, following its definition.
* `Guarded.trace`: what such a program does is a lock operation, accesses that leave the lock alone,
  and the release.
* `Step`: one access of one process.  Asking for the lock takes as long as somebody has it; a
  process that dies with the lock leaves it to the next one that asks.
* `Serial prog C m₀ log m`: the turns of `log`, taken one after the other from `m₀`, lead to `m`.  A
  turn that has returned is recorded with its answer and its whole trace.
* `Steps.serial`: the memory is always that of the calls run in one go, one after the other, in the
  order in which they got the lock; those whose process died, and the one that has the lock, have
  done the start of what they do.
* `Steps.releases`: whoever has the lock can go on and release it, whatever the others do.

The proof of `Steps.serial` is an invariant, `Machine.Inv`: the process that has the lock is in the
middle of a call of which it has done `V` (`InTurn`), and what it has done and what its text has
left to do make up the trace of the call run in one go.  `Step.inv` is the step, one case for each
access.

What `C` says of a call is asked for when its turn comes, on the memory it then finds.  That is the
only moment at which a caller can be held to anything.
-/

set_option autoImplicit false

/-- The event takes or releases the lock. -/
def Event.isLockOp : Event → Bool
  | .lock _ | .unlock => true
  | _ => false

/-! ## Texts

A `Prog` is a function on memories, and does not say what it would do if a memory changed under it.
A text does: it performs one access and waits for the value. -/

/-- The text of a program. -/
inductive Code (α : Type) : Type
  /-- It returns. -/
  | ret (a : α)
  /-- It reads `n` bytes at `a`, and goes on with what it has read. -/
  | load (a n : Nat) (k : Nat → Code α)
  /-- It performs an event that is not a load, and goes on. -/
  | emit (e : Event) (k : Code α)

namespace Code

variable {α β : Type}

/-- What the text does if it is run in one go. -/
def denote : Code α → Prog α
  | ret a => pure a
  | load a n k => Prog.load a n >>= fun v => (k v).denote
  | emit e k => Prog.emit e >>= fun _ => k.denote

/-- One text behind another. -/
def bind : Code α → (α → Code β) → Code β
  | ret a, f => f a
  | load a n k, f => load a n fun v => (k v).bind f
  | emit e k, f => emit e (k.bind f)

theorem denote_bind (t : Code α) (f : α → Code β) :
    (t.bind f).denote = t.denote >>= fun a => (f a).denote := by
  funext m
  induction t generalizing m with
  | ret a => rfl
  | load a n k ih => exact congrArg (fun p => (p.1, .load a n :: p.2)) (ih _ m)
  | emit e k ih => exact congrArg (fun p => (p.1, e :: p.2)) (ih (e.act m))

/-- Every event of the text, whatever it loads, satisfies `P`. -/
def All (P : Event → Prop) : Code α → Prop
  | ret _ => True
  | load _ _ k => ∀ v, (k v).All P
  | emit e k => P e ∧ k.All P

/-- The text only looks: it stays off the lock and writes no memory. -/
abbrev Looks (t : Code α) : Prop := t.All fun e => e.isLockOp = false ∧ e.isWrite = false

/-- The last access of the text releases the lock, and no other touches it. -/
def Closes : Code α → Prop
  | ret _ => False
  | load _ _ k => ∀ v, (k v).Closes
  | emit e k => e.isLockOp = false ∧ k.Closes ∨ e = .unlock ∧ ∃ a, k = ret a

/-- The text takes the lock first and releases it last, or it does nothing. -/
def Guarded : Code α → Prop
  | ret _ => True
  | load .. => False
  | emit e k => (∃ rc, e = .lock rc) ∧ k.Closes

theorem All.bind {P : Event → Prop} {t : Code α} (ht : t.All P) {f : α → Code β}
    (hf : ∀ a, (f a).All P) : (t.bind f).All P := by
  induction t with
  | ret a => exact hf a
  | load a n k ih => exact fun v => ih v (ht v)
  | emit e k ih => exact ⟨ht.1, ih ht.2⟩

theorem All.bind_closes {t : Code α} (ht : t.All fun e => e.isLockOp = false) {f : α → Code β}
    (hf : ∀ a, (f a).Closes) : (t.bind f).Closes := by
  induction t with
  | ret a => exact hf a
  | load a n k ih => exact fun v => ih v (ht v)
  | emit e k ih => exact .inl ⟨ht.1, ih ht.2⟩

/-- What a text does that closes: it stays off the lock, and releases it at the end. -/
theorem Closes.trace {t : Code α} (ht : t.Closes) (m : Mem) :
    ∃ V, t.denote.trace m = V ++ [.unlock] ∧ ∀ e ∈ V, e.isLockOp = false := by
  induction t generalizing m with
  | ret a => exact ht.elim
  | load a n k ih =>
    obtain ⟨V, hV, hoff⟩ := ih _ (ht (m.load a n)) m
    exact ⟨.load a n :: V, congrArg (Event.load a n :: ·) hV, List.forall_mem_cons.2 ⟨rfl, hoff⟩⟩
  | emit e k ih =>
    rcases ht with ⟨he, hk⟩ | ⟨rfl, a, rfl⟩
    · obtain ⟨V, hV, hoff⟩ := ih hk (e.act m)
      exact ⟨e :: V, congrArg (e :: ·) hV, List.forall_mem_cons.2 ⟨he, hoff⟩⟩
    · exact ⟨[], rfl, nofun⟩

end Code

/-! ## Programs that have a text -/

/-- The program has a text all of whose events satisfy `P`. -/
def Emits {α : Type} (P : Event → Prop) (x : Prog α) : Prop := ∃ t : Code α, t.denote = x ∧ t.All P

/-- The program has a text that stays off the lock. -/
abbrev OffLock {α : Type} (x : Prog α) : Prop := Emits (fun e => e.isLockOp = false) x

/-- The program has a text that releases the lock with its last access. -/
def Closes {α : Type} (x : Prog α) : Prop := ∃ t : Code α, t.denote = x ∧ t.Closes

/-- The program has a text that takes the lock first and releases it last. -/
def Guarded {α : Type} (x : Prog α) : Prop := ∃ t : Code α, t.denote = x ∧ t.Guarded

section

variable {α β : Type} {P : Event → Prop} {x : Prog α} {f : α → Prog β}

theorem Emits.pure (a : α) : Emits P (Pure.pure a : Prog α) := ⟨.ret a, rfl, trivial⟩

theorem Emits.load (a n : Nat) : Emits P (Prog.load a n) :=
  ⟨.load a n .ret, rfl, fun _ => trivial⟩

theorem Emits.get (p : Nat) (c : CField) : Emits P (Prog.get p c) := .load _ _

theorem Emits.emit {e : Event} (he : P e) : Emits P (Prog.emit e) :=
  ⟨.emit e (.ret ()), rfl, he, trivial⟩

theorem Emits.bind (hx : Emits P x) (hf : ∀ a, Emits P (f a)) : Emits P (x >>= f) := by
  obtain ⟨t, rfl, ht⟩ := hx
  choose g hg hall using hf
  refine ⟨t.bind g, ?_, ht.bind hall⟩
  rw [Code.denote_bind, funext hg]

/-- Sequencing after a load, which is no event. -/
theorem Emits.get_bind {p : Nat} {c : CField} {g : Nat → Prog β} (hg : ∀ v, Emits P (g v)) :
    Emits P (Prog.get p c >>= g) :=
  (Emits.get p c).bind hg

theorem OffLock.emit {e : Event} (he : e.isLockOp = false) : OffLock (Prog.emit e) :=
  Emits.emit he

theorem Emits.set (p : Nat) (c : CField) (v : Nat) : OffLock (Prog.set p c v) := OffLock.emit rfl

/-- Sequencing after an event. -/
theorem Emits.emit_bind {e : Event} {g : Unit → Prog β} (he : e.isLockOp = false)
    (hg : OffLock (g ())) : OffLock (Prog.emit e >>= g) :=
  (OffLock.emit he).bind fun _ => hg

/-- Sequencing after a store. -/
theorem Emits.set_bind {p v : Nat} {c : CField} {g : Unit → Prog β} (hg : OffLock (g ())) :
    OffLock (Prog.set p c v >>= g) :=
  (Emits.set p c v).bind fun _ => hg

theorem Emits.bind_closes (hx : OffLock x) (hf : ∀ a, Closes (f a)) : Closes (x >>= f) := by
  obtain ⟨t, rfl, ht⟩ := hx
  choose g hg hclose using hf
  refine ⟨t.bind g, ?_, ht.bind_closes hclose⟩
  rw [Code.denote_bind, funext hg]

theorem Closes.emit_bind {e : Event} {g : Unit → Prog β} (he : e.isLockOp = false)
    (hg : Closes (g ())) : Closes (Prog.emit e >>= g) :=
  (OffLock.emit he).bind_closes fun _ => hg

theorem Closes.get_bind {p : Nat} {c : CField} {g : Nat → Prog β} (hg : ∀ v, Closes (g v)) :
    Closes (Prog.get p c >>= g) :=
  (Emits.get p c).bind_closes hg

/-- The lock is released last. -/
theorem Closes.unlock (a : α) : Closes (Prog.emit .unlock >>= fun _ => (Pure.pure a : Prog α)) :=
  ⟨.emit .unlock (.ret a), rfl, .inr ⟨rfl, a, rfl⟩⟩

/-- A body that closes, behind the event that takes the lock. -/
theorem Closes.guarded {rc : LockRc} {y : Unit → Prog α} (hy : Closes (y ())) :
    Guarded (Prog.emit (.lock rc) >>= y) := by
  obtain ⟨t, ht, hc⟩ := hy
  refine ⟨.emit (.lock rc) t, ?_, ⟨rc, rfl⟩, hc⟩
  funext m
  exact congrArg (fun z => (z.val m, .lock rc :: z.trace m)) ht

theorem Guarded.pure (a : α) : Guarded (Pure.pure a : Prog α) := ⟨.ret a, rfl, trivial⟩

/-- **A guarded program takes the lock first, releases it last and stays off it in between**, or it
does nothing. -/
theorem Guarded.trace (hx : Guarded x) (m : Mem) :
    x.trace m = [] ∨ ∃ rc V, x.trace m = .lock rc :: (V ++ [.unlock]) ∧
      ∀ e ∈ V, e.isLockOp = false := by
  obtain ⟨t, rfl, ht⟩ := hx
  cases t with
  | ret a => exact .inl rfl
  | load a n k => exact ht.elim
  | emit e k =>
    obtain ⟨⟨rc, rfl⟩, hk⟩ := ht
    obtain ⟨V, hV, hoff⟩ := hk.trace m
    exact .inr ⟨rc, V, congrArg (Event.lock rc :: ·) hV, hoff⟩

end

/-! ## The machine

The log of a machine holds the turns, the latest first; the turn of the process that has the lock,
if one has, is its head, and grows with every access. -/

/-- How far a turn has come. -/
inductive Fate (α : Type)
  /-- It has done `V`; its process still has the lock, or has died. -/
  | stopped (V : List Event)
  /-- It has done `V`, what it wrote for its caller included, and has returned `a`. -/
  | returned (a : α) (V : List Event)

/-- A call that has got the lock. -/
structure Turn (Op α : Type) where
  op : Op
  fate : Fate α

/-- One more event of the turn that comes first in the list. -/
def Turn.extend {Op α : Type} (e : Event) : List (Turn Op α) → List (Turn Op α)
  | ⟨op, .stopped V⟩ :: log => ⟨op, .stopped (V ++ [e])⟩ :: log
  | log => log

/-- The turn that comes first in the list releases the lock and returns `a`. -/
def Turn.finish {Op α : Type} (a : α) : List (Turn Op α) → List (Turn Op α)
  | ⟨op, .stopped V⟩ :: log => ⟨op, .returned a (V ++ [.unlock])⟩ :: log
  | log => log

/-- Every turn is over: nobody has died in one. -/
def AllReturned {Op α : Type} (log : List (Turn Op α)) : Prop :=
  ∀ t ∈ log, ∃ a V, t.fate = .returned a V

theorem AllReturned.tail {Op α : Type} {t : Turn Op α} {log : List (Turn Op α)}
    (h : AllReturned (t :: log)) : AllReturned log := fun u hu => h u (List.mem_cons_of_mem t hu)

/-- What a process is at: the call it has made, if it is not only looking, and the rest of its
text. -/
structure Work (Op α : Type) where
  op : Option Op
  text : Code α

/-- A memory with a lock, and processes.  `log` are the turns there have been, the latest first. -/
structure Machine (P Op α : Type) where
  mem : Mem
  holder : Option P
  task : P → Option (Work Op α)
  log : List (Turn Op α)

namespace Machine

variable {P Op α : Type}

/-- Nobody has done anything yet. -/
def start (m : Mem) : Machine P Op α := ⟨m, none, fun _ => none, []⟩

/-- The turns there were before that of the process that has the lock. -/
def past (s : Machine P Op α) : List (Turn Op α) :=
  match s.holder with
  | none => s.log
  | some _ => s.log.tail

theorem past_of_free {s : Machine P Op α} (h : s.holder = none) : s.past = s.log := by
  rw [past, h]

theorem past_of_held {s : Machine P Op α} {p : P} (h : s.holder = some p) :
    s.past = s.log.tail := by
  rw [past, h]

section

variable [DecidableEq P]

/-- The process takes up, or drops, a task. -/
def setTask (s : Machine P Op α) (p : P) (t : Option (Work Op α)) : Machine P Op α :=
  { s with task := Function.update s.task p t }

theorem setTask_self (s : Machine P Op α) (p : P) (t : Option (Work Op α)) :
    (s.setTask p t).task p = t := Function.update_self ..

theorem setTask_of_ne (s : Machine P Op α) {p q : P} (h : q ≠ p) (t : Option (Work Op α)) :
    (s.setTask p t).task q = s.task q := Function.update_of_ne h ..

/-- The process performs an event, and is at `t` behind it. -/
def perform (s : Machine P Op α) (p : P) (e : Event) (t : Work Op α) : Machine P Op α :=
  { s.setTask p (some t) with
    mem := e.act s.mem
    log := if s.holder = some p then Turn.extend e s.log else s.log }

/-- One access of one process.  `prog` is what the calls do; `C` is what is promised of a call when
its turn comes. -/
inductive Step (prog : Op → Prog α) (C : Mem → Op → Prop) (s : Machine P Op α) :
    Machine P Op α → Prop
  /-- An idle process makes a call. -/
  | call (p : P) (op : Op) (t : Code α) (hidle : s.task p = none) (hprog : t.denote = prog op)
      (ht : t.Guarded) : Step prog C s (s.setTask p (some ⟨some op, t⟩))
  /-- An idle process sets out to look at the memory. -/
  | look (p : P) (t : Code α) (hidle : s.task p = none) (ht : t.Looks) :
    Step prog C s (s.setTask p (some ⟨none, t⟩))
  /-- A process loads what is there now. -/
  | load (p : P) (o : Option Op) (a n : Nat) (k : Nat → Code α)
      (h : s.task p = some ⟨o, .load a n k⟩) :
    Step prog C s (s.perform p (.load a n) ⟨o, k (s.mem.load a n)⟩)
  /-- A process does anything else, but for the lock. -/
  | emit (p : P) (o : Option Op) (e : Event) (k : Code α) (h : s.task p = some ⟨o, .emit e k⟩)
      (he : e.isLockOp = false) : Step prog C s (s.perform p e ⟨o, k⟩)
  /-- A process gets the lock, which is free. -/
  | lock (p : P) (op : Op) (rc : LockRc) (k : Code α)
      (h : s.task p = some ⟨some op, .emit (.lock rc) k⟩) (hfree : s.holder = none)
      (hrc : rc ≠ .failed) (hC : C s.mem op) :
    Step prog C s { s.setTask p (some ⟨some op, k⟩) with
      holder := some p
      log := ⟨op, .stopped [.lock rc]⟩ :: s.log }
  /-- A process releases the lock, and returns from its call. -/
  | unlock (p : P) (op : Op) (a : α) (h : s.task p = some ⟨some op, .emit .unlock (.ret a)⟩) :
    Step prog C s { s.setTask p none with
      holder := none
      log := Turn.finish a s.log }
  /-- A process that has not taken the lock returns. -/
  | ret (p : P) (o : Option Op) (a : α) (h : s.task p = some ⟨o, .ret a⟩) :
    Step prog C s (s.setTask p none)
  /-- A process dies. -/
  | die (p : P) :
    Step prog C s { s.setTask p none with
      holder := if s.holder = some p then none else s.holder }

/-- Any number of accesses. -/
inductive Steps (prog : Op → Prog α) (C : Mem → Op → Prop) (s : Machine P Op α) :
    Machine P Op α → Prop
  | refl : Steps prog C s s
  | tail {t u : Machine P Op α} (h : Steps prog C s t) (hs : Step prog C t u) : Steps prog C s u

end

end Machine

/-! ## One after the other

`Serial` is the specification, and `Inv` relates the machine to it.  Between two turns the memory is
the serial one; inside a turn it is the serial one with a prefix of the call replayed on it. -/

/-- The turns `log`, the latest first, taken one after the other from `m₀` lead to a memory: a call
that has returned did all it does, in one go; one that was stopped did the start of it. -/
inductive Serial {Op α : Type} (prog : Op → Prog α) (C : Mem → Op → Prop) (m₀ : Mem) :
    List (Turn Op α) → Mem → Prop
  | nil : Serial prog C m₀ [] m₀
  | returned {log : List (Turn Op α)} {m : Mem} (h : Serial prog C m₀ log m) (op : Op)
      (hC : C m op) :
    Serial prog C m₀ (⟨op, .returned ((prog op).val m) ((prog op).trace m)⟩ :: log)
      ((prog op).mem m)
  | stopped {log : List (Turn Op α)} {m : Mem} (h : Serial prog C m₀ log m) (op : Op)
      (hC : C m op) (V : List Event) (hV : V <+: (prog op).trace m) :
    Serial prog C m₀ (⟨op, .stopped V⟩ :: log) (replay V m)

namespace Machine

variable {P Op α : Type} {prog : Op → Prog α} {C : Mem → Op → Prop} {m₀ : Mem}

/-- What a process without the lock is at: a call it has made and not begun, or looking. -/
def Waits (prog : Op → Prog α) : Work Op α → Prop
  | ⟨some op, t⟩ => t.denote = prog op ∧ t.Guarded
  | ⟨none, t⟩ => t.Looks

/-- The process is in the middle of a call, of which it has done `V` since the memory was `m`. -/
structure InTurn (prog : Op → Prog α) (C : Mem → Op → Prop) (m₀ : Mem) (s : Machine P Op α) (p : P)
    (op : Op) (t : Code α) (V : List Event) (old : List (Turn Op α)) (m : Mem) : Prop where
  task : s.task p = some ⟨some op, t⟩
  closes : t.Closes
  log : s.log = ⟨op, .stopped V⟩ :: old
  serial : Serial prog C m₀ old m
  promised : C m op
  mem : s.mem = replay V m
  /-- What it has done and what it will do make up the call. -/
  trace : V ++ t.denote.trace s.mem = (prog op).trace m
  val : t.denote.val s.mem = (prog op).val m

/-- **The invariant**: nobody but the process that has the lock is in the middle of anything. -/
structure Inv (prog : Op → Prog α) (C : Mem → Op → Prop) (m₀ : Mem) (s : Machine P Op α) :
    Prop where
  waits : ∀ q t, s.task q = some t → s.holder ≠ some q → Waits prog t
  free : s.holder = none → Serial prog C m₀ s.log s.mem
  held : ∀ p, s.holder = some p → ∃ op t V log m, InTurn prog C m₀ s p op t V log m

theorem inv_start : Inv (P := P) prog C m₀ (start m₀) :=
  ⟨nofun, fun _ => .nil, nofun⟩

/-- The memory is that of the turns taken one after the other, whoever has the lock. -/
theorem Inv.serial {s : Machine P Op α} (h : Inv prog C m₀ s) : Serial prog C m₀ s.log s.mem := by
  cases hh : s.holder with
  | none => exact h.free hh
  | some p =>
    obtain ⟨op, t, V, log, m, hp⟩ := h.held p hh
    rw [hp.log, hp.mem]
    exact .stopped hp.serial op hp.promised V ⟨_, hp.trace⟩

section

variable [DecidableEq P] {s s' : Machine P Op α}

/-- A process without the lock does something that nobody else can notice. -/
theorem Inv.aside {p : P} (h : Inv prog C m₀ s) (hp : s.holder ≠ some p) {t : Option (Work Op α)}
    (ht : ∀ u, t = some u → Waits prog u) : Inv prog C m₀ (s.setTask p t) := by
  refine ⟨fun q u hu hq => ?_, h.free, fun q hq => ?_⟩
  · by_cases hqp : q = p
    · subst hqp
      exact ht u ((setTask_self ..).symm.trans hu)
    · exact h.waits q u ((setTask_of_ne s hqp _).symm.trans hu) hq
  · obtain ⟨op, u, V, log, m, hi⟩ := h.held q hq
    have hqp : q ≠ p := fun e => hp (e ▸ hq)
    exact ⟨op, u, V, log, m, { hi with task := (setTask_of_ne s hqp _).trans hi.task }⟩

/-- The process that has the lock gives it back and is idle, or dead. -/
theorem Inv.vacate {p : P} (h : Inv prog C m₀ s) (hp : s.holder = some p)
    (hholder : s'.holder = none) (htask : s'.task = (s.setTask p none).task)
    (hserial : Serial prog C m₀ s'.log s'.mem) : Inv prog C m₀ s' := by
  refine ⟨fun q u hu _ => ?_, fun _ => hserial, fun q hq => ?_⟩
  · rw [htask] at hu
    by_cases hqp : q = p
    · subst hqp
      exact absurd ((setTask_self ..).symm.trans hu).symm (Option.some_ne_none _)
    · refine h.waits q u ((setTask_of_ne s hqp _).symm.trans hu) fun hh => hqp ?_
      exact Option.some.inj (hh.symm.trans hp)
  · exact absurd (hq.symm.trans hholder) (Option.some_ne_none _)

/-- The process that has the lock performs an event. -/
theorem InTurn.perform {p : P} {op : Op} {t u : Code α} {V : List Event} {log : List (Turn Op α)}
    {m : Mem} {e : Event} (hi : InTurn prog C m₀ s p op t V log m) (hp : s.holder = some p)
    (hu : u.Closes) (htrace : t.denote.trace s.mem = e :: u.denote.trace (e.act s.mem))
    (hval : t.denote.val s.mem = u.denote.val (e.act s.mem)) :
    InTurn prog C m₀ (s.perform p e ⟨some op, u⟩) p op u (V ++ [e]) log m where
  task := setTask_self ..
  closes := hu
  log := by
    show (if s.holder = some p then _ else _) = _
    rw [if_pos hp, hi.log]
    rfl
  serial := hi.serial
  promised := hi.promised
  mem := by
    show e.act s.mem = _
    rw [replay_append, ← hi.mem]
    rfl
  trace := by
    rw [← hi.trace, htrace, List.append_assoc]
    rfl
  val := hval.symm.trans hi.val

/-- A process performs an event that is not an operation on the lock. -/
theorem Inv.perform {p : P} {o : Option Op} {t u : Code α} {e : Event} (h : Inv prog C m₀ s)
    (ht : s.task p = some ⟨o, t⟩) (hguarded : ¬ t.Guarded) (hcloses : t.Closes → u.Closes)
    (hlooks : t.Looks → e.isWrite = false ∧ u.Looks)
    (htrace : t.denote.trace s.mem = e :: u.denote.trace (e.act s.mem))
    (hval : t.denote.val s.mem = u.denote.val (e.act s.mem)) :
    Inv prog C m₀ (s.perform p e ⟨o, u⟩) := by
  by_cases hp : s.holder = some p
  · obtain ⟨op, t', V, log, m, hi⟩ := h.held p hp
    obtain ⟨rfl, rfl⟩ : o = some op ∧ t = t' := by
      have := ht.symm.trans hi.task
      simpa using this
    refine ⟨fun q v hv hq => ?_, fun hnone => ?_, fun q hq => ?_⟩
    · have hqp : q ≠ p := fun e => hq (e ▸ hp)
      exact h.waits q v ((setTask_of_ne s hqp _).symm.trans hv) hq
    · exact nomatch (hp.symm.trans hnone)
    · obtain rfl : p = q := Option.some.inj (hp.symm.trans hq)
      exact ⟨op, u, V ++ [e], log, m, hi.perform hp (hcloses hi.closes) htrace hval⟩
  · -- without the lock it only looks, and the memory stays as it is
    have hw := h.waits p _ ht hp
    cases o with
    | some op => exact absurd hw.2 hguarded
    | none =>
      have hl := hlooks hw
      have hs : s.perform p e ⟨none, u⟩ = s.setTask p (some ⟨none, u⟩) := by
        rw [Machine.perform, if_neg hp, Event.act_of_not_isWrite hl.1]
        rfl
      rw [hs]
      refine h.aside hp fun v hv => ?_
      obtain rfl := Option.some.inj hv
      exact hl.2

/-- Who releases the lock has it. -/
theorem Inv.held_of_unlock {p : P} {op : Op} {a : α} (h : Inv prog C m₀ s)
    (ht : s.task p = some ⟨some op, .emit .unlock (.ret a)⟩) : s.holder = some p := by
  by_contra hp
  obtain ⟨⟨rc, hrc⟩, -⟩ := (h.waits p _ ht hp).2
  exact Event.noConfusion hrc

/-- **Every access keeps the invariant.** -/
theorem Step.inv (hs : Step prog C s s') (h : Inv prog C m₀ s) : Inv prog C m₀ s' := by
  -- an idle process does not have the lock
  have hidle : ∀ {p : P}, s.task p = none → s.holder ≠ some p := fun {p} hp hh => by
    obtain ⟨op, t, V, log, m, hi⟩ := h.held p hh
    exact Option.some_ne_none _ (hi.task.symm.trans hp)
  cases hs with
  | call p op t hp hprog ht =>
    refine h.aside (hidle hp) fun u hu => ?_
    obtain rfl := Option.some.inj hu
    exact ⟨hprog, ht⟩
  | look p t hp ht =>
    refine h.aside (hidle hp) fun u hu => ?_
    obtain rfl := Option.some.inj hu
    exact ht
  | load p o a n k ht =>
    exact h.perform ht (fun hg => hg) (fun hc => hc _) (fun hl => ⟨rfl, hl _⟩) rfl rfl
  | emit p o e k ht he =>
    refine h.perform ht (fun hg => ?_) (fun hc => ?_) (fun hl => ⟨hl.1.2, hl.2⟩) rfl rfl
    · obtain ⟨⟨rc, hrc⟩, -⟩ := hg
      rw [hrc] at he
      exact Bool.noConfusion he
    · rcases hc with hc | ⟨rfl, -⟩
      · exact hc.2
      · exact Bool.noConfusion he
  | lock p op rc k ht hfree hrc hC =>
    have hnot : ∀ q, s.holder ≠ some q := fun q hq => Option.some_ne_none _ (hq.symm.trans hfree)
    have hw := h.waits p _ ht (hnot p)
    have hm : (Event.lock rc).act s.mem = s.mem := rfl
    refine ⟨fun q u hu hq => ?_, fun hn => absurd hn (Option.some_ne_none _), fun q hq => ?_⟩
    · have hqp : q ≠ p := fun e => hq (e ▸ rfl)
      exact h.waits q u ((setTask_of_ne s hqp _).symm.trans hu) (hnot q)
    · obtain rfl : p = q := Option.some.inj hq
      exact ⟨op, k, [.lock rc], s.log, s.mem, setTask_self .., hw.2.2, rfl, h.free hfree, hC,
        rfl, congrArg (fun x => x.trace s.mem) hw.1, congrArg (fun x => x.val s.mem) hw.1⟩
  | unlock p op a ht =>
    have hp : s.holder = some p := h.held_of_unlock ht
    obtain ⟨op', t', V, log, m, hi⟩ := h.held p hp
    obtain ⟨hop, rfl⟩ := Work.mk.inj (Option.some.inj (ht.symm.trans hi.task))
    obtain rfl : op = op' := Option.some.inj hop
    have hmem : s.mem = (prog op).mem m := by
      rw [Prog.mem, ← hi.trace, replay_append, ← hi.mem]
      rfl
    have hval : a = (prog op).val m := hi.val
    have htrace : V ++ [.unlock] = (prog op).trace m := hi.trace
    refine h.vacate hp rfl rfl ?_
    show Serial prog C m₀ (Turn.finish a s.log) s.mem
    rw [hi.log, hmem, Turn.finish, hval, htrace]
    exact .returned hi.serial op hi.promised
  | ret p o a ht =>
    have hp : s.holder ≠ some p := fun hp => by
      obtain ⟨op, t, V, log, m, hi⟩ := h.held p hp
      obtain ⟨-, rfl⟩ := Work.mk.inj (Option.some.inj (ht.symm.trans hi.task))
      exact hi.closes
    exact h.aside hp fun u hu => absurd hu.symm (Option.some_ne_none _)
  | die p =>
    by_cases hp : s.holder = some p
    · exact h.vacate hp (if_pos hp) rfl h.serial
    · rw [if_neg hp]
      exact h.aside hp fun u hu => absurd hu.symm (Option.some_ne_none _)

theorem Steps.inv (hs : Steps prog C s s') (h : Inv prog C m₀ s) : Inv prog C m₀ s' := by
  induction hs with
  | refl => exact h
  | tail _ hstep ih => exact hstep.inv ih

/-- **Calls that take turns are calls made one after the other.** -/
theorem Steps.serial (hs : Steps prog C (start m₀) s) : Serial prog C m₀ s.log s.mem :=
  (hs.inv inv_start).serial

theorem Steps.trans {t : Machine P Op α} (h : Steps prog C s t) (h' : Steps prog C t s') :
    Steps prog C s s' := by
  induction h' with
  | refl => exact h
  | tail _ hstep ih => exact ih.tail hstep

theorem InTurn.releases {p : P} {op : Op} {t : Code α} {V : List Event} {old : List (Turn Op α)}
    {m : Mem} (hi : InTurn prog C m₀ s p op t V old m) (hp : s.holder = some p) :
    ∃ s', Steps prog C s s' ∧ s'.holder = none ∧
      s'.log = ⟨op, .returned ((prog op).val m) ((prog op).trace m)⟩ :: old ∧
      ∀ q, q ≠ p → s'.task q = s.task q := by
  induction t generalizing s V with
  | ret a => exact absurd hi.closes id
  | load a n k ih =>
    obtain ⟨s', hs, hfree, hlog, hother⟩ := ih _
      (hi.perform hp (hi.closes (s.mem.load a n)) rfl rfl) hp
    exact ⟨s', (Steps.refl.tail (.load p _ a n k hi.task)).trans hs, hfree, hlog, fun q hq =>
      (hother q hq).trans (setTask_of_ne s hq _)⟩
  | emit e k ih =>
    rcases hi.closes with ⟨he, hk⟩ | ⟨rfl, a, rfl⟩
    · obtain ⟨s', hs, hfree, hlog, hother⟩ := ih (hi.perform hp hk rfl rfl) hp
      exact ⟨s', (Steps.refl.tail (.emit p _ e k hi.task he)).trans hs, hfree, hlog, fun q hq =>
        (hother q hq).trans (setTask_of_ne s hq _)⟩
    · refine ⟨_, Steps.refl.tail (.unlock p op a hi.task), rfl, ?_, fun q hq =>
        setTask_of_ne s hq _⟩
      have hval : a = (prog op).val m := hi.val
      have htrace : V ++ [.unlock] = (prog op).trace m := hi.trace
      show Turn.finish a s.log = _
      rw [hi.log, Turn.finish, hval, htrace]

/-- **The lock is always released**, by the process that has it, whatever the others do. -/
theorem Steps.releases {p : P} (hs : Steps prog C (start m₀) s) (hp : s.holder = some p) :
    ∃ s', Steps prog C s s' ∧ s'.holder = none ∧ ∀ q, q ≠ p → s'.task q = s.task q := by
  obtain ⟨op, t, V, old, m, hi⟩ := (hs.inv inv_start).held p hp
  obtain ⟨s', hs', hfree, -, hother⟩ := hi.releases hp
  exact ⟨s', hs', hfree, hother⟩

/-- The memory is that of the turns there have been, one after the other, but for what the call of
the process that has the lock has done, which is the start of what it does. -/
theorem Steps.between_or_inside (hs : Steps prog C (start m₀) s) :
    ∃ m, Serial prog C m₀ s.past m ∧ (s.holder = none ∧ s.mem = m ∨
      ∃ p op V, s.holder = some p ∧ C m op ∧ V <+: (prog op).trace m ∧ s.mem = replay V m) := by
  have hinv : Inv prog C m₀ s := hs.inv inv_start
  cases hh : s.holder with
  | none =>
    rw [past_of_free hh]
    exact ⟨s.mem, hinv.free hh, .inl ⟨rfl, rfl⟩⟩
  | some p =>
    obtain ⟨op, t, V, old, m, hi⟩ := hinv.held p hh
    rw [past_of_held hh, hi.log]
    exact ⟨m, hi.serial, .inr ⟨p, op, V, rfl, hi.promised, ⟨_, hi.trace⟩, hi.mem⟩⟩

/-- An idle process makes a call, gets the lock and runs to the end. -/
theorem Steps.alone {p : P} {op : Op} {rc : LockRc} {W : List Event}
    (hs : Steps prog C (start m₀) s) (hfree : s.holder = none) (hidle : s.task p = none)
    (hg : Guarded (prog op)) (htrace : (prog op).trace s.mem = .lock rc :: W)
    (hrc : rc ≠ .failed) (hC : C s.mem op) :
    ∃ s', Steps prog C s s' ∧ s'.holder = none ∧
      s'.log = ⟨op, .returned ((prog op).val s.mem) ((prog op).trace s.mem)⟩ :: s.log ∧
      ∀ q, q ≠ p → s'.task q = s.task q := by
  obtain ⟨t, ht, hguarded⟩ := hg
  cases t with
  | ret a =>
    rw [← ht] at htrace
    exact nomatch htrace
  | load a n k => exact absurd hguarded id
  | emit e k =>
    obtain ⟨⟨rc', rfl⟩, hcloses⟩ := hguarded
    obtain rfl : rc' = rc := by
      rw [← ht] at htrace
      exact Event.lock.inj (List.cons.inj htrace).1
    let s₁ := s.setTask p (some ⟨some op, .emit (.lock rc') k⟩)
    let s₂ : Machine P Op α := { s₁.setTask p (some ⟨some op, k⟩) with
      holder := some p
      log := ⟨op, .stopped [.lock rc']⟩ :: s.log }
    have h1 : Step prog C s s₁ := .call p op _ hidle ht ⟨⟨rc', rfl⟩, hcloses⟩
    have h2 : Step prog C s₁ s₂ := .lock p op rc' k (setTask_self ..) hfree hrc hC
    have hi : InTurn prog C m₀ s₂ p op k [.lock rc'] s.log s.mem :=
      ⟨setTask_self .., hcloses, rfl, (hs.inv inv_start).free hfree, hC, rfl,
        congrArg (fun x => x.trace s.mem) ht, congrArg (fun x => x.val s.mem) ht⟩
    obtain ⟨s', hs', hfree', hlog, hother⟩ := hi.releases rfl
    refine ⟨s', ((Steps.refl.tail h1).tail h2).trans hs', hfree', hlog, fun q hq => ?_⟩
    rw [hother q hq]
    exact (setTask_of_ne _ hq _).trans (setTask_of_ne s hq _)

end

end Machine
