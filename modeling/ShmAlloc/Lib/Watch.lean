import ShmAlloc.Lib.Interleave
import ShmAlloc.Lib.Reads

/-!
# Looking while others work

Somebody who looks without the lock performs one load now and another later, and what is there may
have changed in between.  `Machine.Watch` is such a look: the text of a program is run access by
access while the machine goes on.

* `Watch.at_once`: a look at a machine that stands still is the program run in one go.
* `Watch.val`: where nothing it reads changes meanwhile, it is as if the machine had stood still.
  The text decides what it reads from what it has read, so what stands still is asked for as a set
  of bytes `R` that contains all it reads.
* `Steps.past_suffix`: no step undoes a turn.  So a property of the turns that are over is kept, and
  `Watch.val_of_kept` combines the two: if every run of turns keeps `R`, a look at `R` is a look at
  one moment.
-/

set_option autoImplicit false

/-- All `n` bytes at `a` are in `R`. -/
def Inside (R : Nat → Prop) (a n : Nat) : Prop := ∀ x, a ≤ x → x < a + n → R x

namespace Machine

variable {P Op α β : Type} {prog : Op → Prog α} {C : Mem → Op → Prop}

section

variable [DecidableEq P]

/-- While the machine goes on from `s` to `s'`, the text is run access by access, and returns. -/
inductive Watch (prog : Op → Prog α) (C : Mem → Op → Prop) :
    Machine P Op α → Code β → Machine P Op α → β → Prop
  | ret {s s' : Machine P Op α} (hs : Steps prog C s s') (b : β) : Watch prog C s (.ret b) s' b
  | load {s u s' : Machine P Op α} {a n : Nat} {k : Nat → Code β} {b : β} (hs : Steps prog C s u)
    (h : Watch prog C u (k (u.mem.load a n)) s' b) : Watch prog C s (.load a n k) s' b
  | emit {s u s' : Machine P Op α} {e : Event} {k : Code β} {b : β} (hs : Steps prog C s u)
    (he : e.isLockOp = false ∧ e.isWrite = false) (h : Watch prog C u k s' b) :
    Watch prog C s (.emit e k) s' b

variable {s s' u : Machine P Op α} {t : Code β} {b : β} {m : Mem}

theorem Watch.steps (h : Watch prog C s t s' b) : Steps prog C s s' := by
  induction h with
  | ret hs b => exact hs
  | load hs _ ih => exact hs.trans ih
  | emit hs _ _ ih => exact hs.trans ih

/-- The machine may go on before the first access. -/
theorem Watch.after (hs : Steps prog C s u) (h : Watch prog C u t s' b) :
    Watch prog C s t s' b := by
  cases h with
  | ret hs' b => exact .ret (hs.trans hs') b
  | load hs' h => exact .load (hs.trans hs') h
  | emit hs' he h => exact .emit (hs.trans hs') he h

/-- A look may be taken in one go. -/
theorem Watch.at_once (s : Machine P Op α) (ht : t.Looks) :
    Watch prog C s t s (t.denote.val s.mem) := by
  induction t with
  | ret b => exact .ret .refl b
  | load a n k ih => exact .load .refl (ih _ (ht _))
  | emit e k ih =>
    have hval : (Code.emit e k).denote.val s.mem = k.denote.val s.mem :=
      congrArg k.denote.val (Event.act_of_not_isWrite ht.1.2)
    rw [hval]
    exact .emit .refl ht.1 (ih ht.2)

/-- **A look at what stands still is a look at one moment.** -/
theorem Watch.val {R : Nat → Prop} (h : Watch prog C s t s' b)
    (hquiet : ∀ u, Steps prog C s u → Steps prog C u s' → ∀ x, R x → u.mem x = m x)
    (hin : LoadsIn (Inside R) t.denote m) : b = t.denote.val m := by
  induction h with
  | ret hs b => rfl
  | @load s u s' a n k b hs h ih =>
    -- the load finds what it would have found in `m`
    have hagree : Mem.Agree m u.mem a (a + n) := fun x h1 h2 =>
      hquiet u hs h.steps x (hin a n List.mem_cons_self x h1 h2)
    have hload : u.mem.load a n = m.load a n := hagree.load (Nat.le_refl _) (Nat.le_refl _)
    rw [hload] at ih
    exact ih (fun v hv hv' => hquiet v (hs.trans hv) hv') fun c l hc =>
      hin c l (List.mem_cons_of_mem _ hc)
  | @emit s u s' e k b hs he h ih =>
    have hact : e.act m = m := Event.act_of_not_isWrite he.2
    have hval : (Code.emit e k).denote.val m = k.denote.val (e.act m) := rfl
    have htrace : (Code.emit e k).denote.trace m = e :: k.denote.trace (e.act m) := rfl
    rw [hval, hact]
    refine ih (fun v hv hv' => hquiet v (hs.trans hv) hv') fun c l hc => hin c l ?_
    rw [htrace, hact]
    exact List.mem_cons_of_mem _ hc

/-! ## What is over stays over

The log of a machine only grows.  What is known of the turns that were over when a look began is
known of them when it ends. -/

theorem tail_extend (e : Event) (log : List (Turn Op α)) : (Turn.extend e log).tail = log.tail := by
  cases log with
  | nil => rfl
  | cons t log =>
    obtain ⟨op, fate⟩ := t
    cases fate <;> rfl

theorem tail_finish (a : α) (log : List (Turn Op α)) : (Turn.finish a log).tail = log.tail := by
  cases log with
  | nil => rfl
  | cons t log =>
    obtain ⟨op, fate⟩ := t
    cases fate <;> rfl

/-- An event adds no turn. -/
theorem past_perform (s : Machine P Op α) (p : P) (e : Event) (t : Work Op α) :
    (s.perform p e t).past = s.past := by
  cases h : s.holder with
  | none =>
    rw [past_of_free h, past_of_free (s := s.perform p e t) h]
    exact if_neg (h ▸ nofun)
  | some q =>
    rw [past_of_held h, past_of_held (s := s.perform p e t) h]
    show (if s.holder = some p then Turn.extend e s.log else s.log).tail = s.log.tail
    split
    · exact tail_extend e s.log
    · rfl

/-- **No step undoes a turn.** -/
theorem Step.past_suffix {m₀ : Mem} (h : Inv prog C m₀ s) (hs : Step prog C s s') :
    s.past <:+ s'.past := by
  cases hs with
  | call p op t hidle hprog ht => exact List.suffix_rfl
  | look p t hidle ht => exact List.suffix_rfl
  | load p o a n k ht => exact past_perform s p _ _ ▸ List.suffix_rfl
  | emit p o e k ht he => exact past_perform s p _ _ ▸ List.suffix_rfl
  | lock p op rc k ht hfree hrc hC =>
    rw [past_of_free hfree]
    exact List.suffix_rfl
  | unlock p op a ht =>
    rw [past_of_held (h.held_of_unlock ht), ← tail_finish a]
    exact List.tail_suffix _
  | ret p o a ht => exact List.suffix_rfl
  | die p =>
    by_cases hp : s.holder = some p
    · rw [past_of_held hp, past_of_free (if_pos hp)]
      exact List.tail_suffix _
    · rw [past, past]
      simp only [if_neg hp]
      exact List.suffix_rfl

theorem Steps.past_suffix {m₀ : Mem} (h : Inv prog C m₀ s) (hs : Steps prog C s s') :
    s.past <:+ s'.past := by
  induction hs with
  | refl => exact List.suffix_rfl
  | tail hs hstep ih => exact ih.trans (hstep.past_suffix (hs.inv h))

/-- What stands still while nobody dies in a turn is seen as it was. -/
theorem Watch.val_of_kept {m₀ : Mem} {R : Nat → Prop} (hs : Steps prog C (start m₀) s)
    (h : Watch prog C s t s' b) (hall : AllReturned s'.past)
    (hkept : ∀ u : Machine P Op α, Steps prog C (start m₀) u → AllReturned u.past →
      ∀ x, R x → u.mem x = m x)
    (hin : LoadsIn (Inside R) t.denote m) : b = t.denote.val m := by
  refine h.val (fun u hu hu' => hkept u (hs.trans hu) fun v hv => hall v ?_) hin
  exact (hu'.past_suffix ((hs.trans hu).inv inv_start)).subset hv

end

end Machine
