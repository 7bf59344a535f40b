import ShmAlloc.Lib.Trace

/-!
# Programs that are stopped

A process that dies has done a prefix of the trace of its program.  Which prefixes are harmless is
a question about stretches: a trace `S ++ (D ++ T)` is stopped before the stretch `D`, behind it,
or inside it, and `StopsInside S D V` says the last.

## What is here

* `prefix_or_append`: a prefix of `S ++ T` is one of `S`, or all of `S` and a prefix of `T`.
* `prefix_of_proper`: what is not the whole of a trace has not seen its last event.
* `stops_cases`: a trace stops before, inside or behind a stretch.  It is the case split of every
  argument about crashes: a program is cut into stretches, and each is judged by itself.
* `StopsInside.append` and `StopsInside.drop`: a stretch may be looked at with more or less in front
  of it.
* `KeepsZero y W`, for what does not happen before the end of a stretch: the byte at `y` may be
  written any number of times, but what is written there is 0.
* `Exec.effects_prefix` and `Exec.prefix_bind`: what a program that is stopped has done, in terms of
  the effects that `Exec` knows.  Loads leave no trace in memory, so where between two loads a
  program is stopped does not matter.
-/

set_option autoImplicit false

variable {S D T V W : List Event} {e : Event}

/-! ## Prefixes of traces -/

theorem prefix_or_append (h : V <+: S ++ T) : V <+: S ∨ ∃ t, t <+: T ∧ V = S ++ t := by
  obtain ⟨W, hW⟩ := h
  rcases List.append_eq_append_iff.1 hW with ⟨s, rfl, -⟩ | ⟨t, rfl, rfl⟩
  · exact .inl (List.prefix_append V s)
  · exact .inr ⟨t, List.prefix_append t W, rfl⟩

/-- What is not the whole of a trace has not seen its last event. -/
theorem prefix_of_proper (h : V <+: D ++ [e]) (hne : V ≠ D ++ [e]) : V <+: D :=
  (List.prefix_concat_iff.1 h).resolve_left hne

theorem Writes.of_prefix {x : Nat} (hV : V <+: W) (h : Writes V x) : Writes W x := by
  obtain ⟨e, he, ht⟩ := h
  exact ⟨e, hV.subset he, ht⟩

theorem effects_prefix (h : V <+: W) : effects V <+: effects W := h.filter _

theorem Completed.right {sz : Nat} (h : Completed sz (V ++ W)) : Completed sz W :=
  fun e he => h e (List.mem_append_right _ he)

/-! ## Stretches

The part of a program that must not be left half done is a stretch of its trace.  Stopping at its
ends is harmless; `StopsInside` is about all that is strictly between them. -/

/-- The trace stops strictly inside the stretch `D` that comes behind `S`. -/
def StopsInside (S D V : List Event) : Prop := ∃ d, d <+: D ∧ d ≠ [] ∧ d ≠ D ∧ V = S ++ d

/-- **A trace stops before, inside or behind a stretch.** -/
theorem stops_cases (h : V <+: S ++ (D ++ T)) :
    V <+: S ∨ StopsInside S D V ∨ ∃ t, t <+: T ∧ V = S ++ (D ++ t) := by
  rcases prefix_or_append h with h | ⟨d, hd, rfl⟩
  · exact .inl h
  · rcases prefix_or_append hd with hd | ⟨t, ht, rfl⟩
    · by_cases h0 : d = []
      · exact .inl (by simp [h0])
      · by_cases hD : d = D
        · exact .inr (.inr ⟨[], List.nil_prefix, by simp [hD]⟩)
        · exact .inr (.inl ⟨d, hd, h0, hD, rfl⟩)
    · exact .inr (.inr ⟨t, ht, rfl⟩)

/-- Nothing stops inside a single event. -/
theorem not_stopsInside_singleton : ¬ StopsInside S [e] V := by
  rintro ⟨d, hd, h0, hall, -⟩
  exact h0 (List.prefix_nil.1 (prefix_of_proper (D := []) hd hall))

theorem StopsInside.append {H : List Event} (S : List Event) (h : StopsInside H D V) :
    StopsInside (S ++ H) D (S ++ V) := by
  obtain ⟨d, hd, h0, hD, rfl⟩ := h
  exact ⟨d, hd, h0, hD, by rw [List.append_assoc]⟩

theorem StopsInside.drop {H : List Event} (h : StopsInside (S ++ H) D V) :
    ∃ U, V = S ++ U ∧ StopsInside H D U := by
  obtain ⟨d, hd, h0, hD, rfl⟩ := h
  exact ⟨H ++ d, List.append_assoc .., d, hd, h0, hD, rfl⟩

/-! ## Bytes that stay zero -/

/-- Whatever `W` writes to the byte at `y` is 0. -/
def KeepsZero (y : Nat) (W : List Event) : Prop := ∀ e ∈ W, ∀ m : Mem, m y = 0 → e.act m y = 0

section

variable {y : Nat}

theorem keepsZero_of_not_writes (h : ¬ Writes W y) : KeepsZero y W :=
  fun e he _ hm => (Event.act_of_not_touches fun ht => h ⟨e, he, ht⟩).trans hm

theorem KeepsZero.append (h : KeepsZero y V) (h' : KeepsZero y W) : KeepsZero y (V ++ W) :=
  fun e he => (List.mem_append.1 he).elim (h e) (h' e)

theorem KeepsZero.of_prefix (h : KeepsZero y W) (hV : V <+: W) : KeepsZero y V :=
  fun e he => h e (hV.subset he)

theorem KeepsZero.replay (h : KeepsZero y W) : ∀ {m : Mem}, m y = 0 → replay W m y = 0 := by
  induction W with
  | nil => exact fun h => h
  | cons e es ih =>
    intro m hm
    exact ih (fun f hf => h f (List.mem_cons_of_mem _ hf)) (h e List.mem_cons_self m hm)

end

/-! ## Stopping a program -/

section

variable {sz : Nat} {α β : Type} {x : Prog α} {m : Mem} {a : α}

/-- What a program has done when it is stopped is the start of what it does. -/
theorem Exec.effects_prefix (hx : Exec sz x m a W) (hV : V <+: x.trace m) : effects V <+: W := by
  rw [← hx.eff]
  exact hV.filter _

/-- A sequence is stopped in its first program or in its second. -/
theorem Exec.prefix_bind {f : α → Prog β} (hx : Exec sz x m a W) (hV : V <+: (x >>= f).trace m) :
    V <+: x.trace m ∨ ∃ U, U <+: (f a).trace (replay W m) ∧ V = x.trace m ++ U := by
  rw [hx.trace_bind] at hV
  exact prefix_or_append hV

end
