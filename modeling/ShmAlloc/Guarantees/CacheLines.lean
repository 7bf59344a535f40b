import ShmAlloc.CacheLine
import ShmAlloc.Lib.Persist

/-!
# Writing back exactly the lines of a range

`shm_persist` ends on every range.  With a line size of 64 bits it writes back the lines the range
overlaps and nothing else.  With a plain literal of type `int` the mask has 32 bits: the walk then
starts from the low half of the address, which is right only for addresses below `2 ^ 32`.

## What is here

* `Overlaps` and `CoversExactly`: what the lines of a range are.
* `persist_covers`: **`shm_persist` ends on every range, and writes back exactly its lines if and
  only if the line size is written with a type of 64 bits or the address is below `2 ^ 32`.**
* `persist_covers_fails`: with `-DSHM_CACHE_LINE_BYTES=128` a header at a high address is written
  back by lines of the low four GiB.
* `flushes_iff_mem`: the lines are those that the rest of the development takes a write-back to ask
  for.

The line size is any power of two, and the loop of the code is run with its own increment, so that
it ends is part of the statement.
-/

set_option autoImplicit false

namespace ShmAlloc

variable {s : LineSize} {addr len : Nat}

/-! ## The lines of a range -/

/-- The line at `x` and the range have a byte in common. -/
def Overlaps (L addr len x : Nat) : Prop :=
  ∃ y, x ≤ y ∧ y < x + L ∧ addr ≤ y ∧ y < addr + len

/-- The lines are those that overlap the range, in ascending order, each once; for an empty range
there may be the one its address is in. -/
structure CoversExactly (L addr len : Nat) (lines : List Nat) : Prop where
  ascending : lines.Pairwise (· < ·)
  complete : ∀ x, L ∣ x → Overlaps L addr len x → x ∈ lines
  sound : ∀ x ∈ lines, L ∣ x ∧ (Overlaps L addr len x ∨ len = 0 ∧ x ≤ addr ∧ addr < x + L)

/-- Consecutive lines from that of the address to the end of the range are the right ones. -/
theorem coversExactly_range {L n : Nat} (hL : 0 < L)
    (hge : addr + len ≤ addr / L * L + n * L)
    (hlt : ∀ i, i < n → addr / L * L + i * L < addr + len) :
    CoversExactly L addr len (List.range' (addr / L * L) n L) := by
  have hlo : addr / L * L ≤ addr := Nat.div_mul_le_self addr L
  have hhi : addr < addr / L * L + L := by
    have := Nat.lt_mul_div_succ addr hL
    rwa [Nat.mul_succ, Nat.mul_comm] at this
  refine ⟨List.pairwise_lt_range' L hL, fun x hx ⟨y, h1, h2, h3, h4⟩ => ?_, fun x hx => ?_⟩
  · obtain ⟨c, rfl⟩ := hx
    rw [Nat.mul_comm] at h1 h2
    -- a line that reaches the address is not before the first, and one that starts before the
    -- end is not behind the last
    have hc : addr / L ≤ c := by
      have : addr < (c + 1) * L := by
        rw [Nat.succ_mul]
        omega
      exact Nat.le_of_lt_succ ((Nat.div_lt_iff_lt_mul hL).2 this)
    obtain ⟨i, rfl⟩ := Nat.exists_eq_add_of_le hc
    rw [Nat.add_mul] at h1
    refine List.mem_range'.2 ⟨i, ?_, by rw [Nat.mul_add, Nat.mul_comm L (addr / L)]⟩
    exact Nat.lt_of_mul_lt_mul_right (a := L) (by omega)
  · obtain ⟨i, hi, rfl⟩ := List.mem_range'.1 hx
    have hend := hlt i hi
    rw [Nat.mul_comm L i]
    refine ⟨⟨addr / L + i, by rw [Nat.mul_comm L, Nat.add_mul]⟩, ?_⟩
    rcases Nat.eq_zero_or_pos len with rfl | hlen
    · exact .inr ⟨rfl, by omega, by omega⟩
    · refine .inl ⟨max addr (addr / L * L + i * L), ?_, ?_, ?_, ?_⟩ <;> omega

/-! ## Where the walk starts -/

/-- A mask of 64 bits, or an address of 32, is enough to find the line of the address. -/
theorem firstLine_of_wide (haddr : addr < 2 ^ 64) (h : s.type.maskBits = 64 ∨ addr < 2 ^ 32) :
    firstLine s addr = addr / s.bytes * s.bytes := by
  rw [firstLine_eq, Nat.mod_eq_of_lt]
  rcases h with h | h
  · rwa [h]
  · have : 2 ^ 32 ≤ 2 ^ s.type.maskBits := by
      cases s.type <;> decide
    omega

/-- With a mask of 32 bits the walk starts at a line that ends below `2 ^ 32`. -/
theorem firstLine_of_narrow (h : s.type.maskBits ≠ 64) : firstLine s addr + s.bytes ≤ 2 ^ 32 := by
  have hbits : s.type.maskBits = 32 := by
    cases ht : s.type <;> rw [ht] at h <;> first | rfl | exact absurd rfl h
  have hlog := s.log_le
  rw [hbits] at hlog
  obtain ⟨c, hc⟩ : s.bytes ∣ 2 ^ 32 := Nat.pow_dvd_pow 2 hlog
  have hlt : addr % 2 ^ 32 < c * s.bytes := by
    rw [Nat.mul_comm, ← hc]
    exact Nat.mod_lt _ (by decide)
  have hdiv : addr % 2 ^ 32 / s.bytes < c := (Nat.div_lt_iff_lt_mul s.bytes_pos).2 hlt
  calc firstLine s addr + s.bytes = (addr % 2 ^ 32 / s.bytes + 1) * s.bytes := by
        rw [firstLine_eq, hbits, Nat.succ_mul]
    _ ≤ c * s.bytes := Nat.mul_le_mul_right _ hdiv
    _ = 2 ^ 32 := by rw [hc, Nat.mul_comm]

/-! ## The guarantee -/

/-- **`shm_persist` ends on every range.  It writes back exactly the lines of the range** if and
only if the size of a line is written with a type of 64 bits, or the address is below `2 ^ 32`. -/
theorem persist_covers (s : LineSize) (addr len : Nat) (h : addr + len + s.bytes ≤ 2 ^ 64) :
    ∃ lines, (∃ n, ∀ fuel, n < fuel → flushedLines s addr len fuel = some lines) ∧
      (CoversExactly s.bytes addr len lines ↔ s.type.maskBits = 64 ∨ addr < 2 ^ 32) := by
  obtain ⟨n, hge, hlt, hrun⟩ := flushedLines_eq h
  have hpos := s.bytes_pos
  refine ⟨_, ⟨n, hrun⟩, fun hcov => ?_, fun hwide => ?_⟩
  · refine Decidable.byContradiction fun hno => ?_
    rw [not_or] at hno
    have hfirst : firstLine s addr + s.bytes ≤ 2 ^ 32 := firstLine_of_narrow hno.1
    -- the first line written back ends below the address
    have hmem : firstLine s addr ∈ List.range' (firstLine s addr) n s.bytes := by
      refine List.mem_range'.2 ⟨0, ?_, rfl⟩
      rcases Nat.eq_zero_or_pos n with rfl | hn
      · omega
      · exact hn
    rcases (hcov.sound _ hmem).2 with ⟨y, -, h2, h3, -⟩ | ⟨-, -, h2⟩ <;> omega
  · have hstart := firstLine_of_wide (s := s) (by omega) hwide
    rw [hstart] at hge hlt ⊢
    exact coversExactly_range hpos hge hlt

/-- Four bytes across the end of a line, at a high address, with the default size of a line. -/
theorem persist_covers_default : ∃ lines,
    (∃ n, ∀ fuel, n < fuel → flushedLines .default 0x7F5A0000103E 4 fuel = some lines) ∧
      CoversExactly 64 0x7F5A0000103E 4 lines := by
  obtain ⟨lines, hrun, hiff⟩ := persist_covers .default 0x7F5A0000103E 4 (by decide)
  exact ⟨lines, hrun, hiff.2 (.inl rfl)⟩

/-- **With `-DSHM_CACHE_LINE_BYTES=128`** the walk to a header at a high address starts in the low
four GiB. -/
theorem persist_covers_fails :
    ¬ ∃ lines, (∃ n, ∀ fuel, n < fuel →
        flushedLines (.override 7 (by decide)) 0x7F5A00001000 48 fuel = some lines) ∧
      CoversExactly 128 0x7F5A00001000 48 lines := by
  rintro ⟨lines, ⟨n, hrun⟩, hcov⟩
  have hfits : 0x7F5A00001000 + 48 + (LineSize.override 7 (by decide)).bytes ≤ 2 ^ 64 := by decide
  obtain ⟨k, hge, -, hrun'⟩ := flushedLines_eq hfits
  have hlines := (hrun (n + k + 1) (by omega)).symm.trans (hrun' (n + k + 1) (by omega))
  obtain rfl := Option.some.inj hlines
  have hfirst : firstLine (.override 7 (by decide)) 0x7F5A00001000 = 0x1000 := by decide
  rw [hfirst] at hge hcov
  have hmem : 0x1000 ∈ List.range' 0x1000 k (LineSize.override 7 (by decide)).bytes := by
    refine List.mem_range'.2 ⟨0, ?_, rfl⟩
    rcases Nat.eq_zero_or_pos k with rfl | hk
    · omega
    · exact hk
  rcases (hcov.sound _ hmem).2 with ⟨y, -, h2, h3, -⟩ | ⟨h0, -⟩ <;> omega

/-- **The lines a range is written back by** are those that a write-back of the range is taken to
ask for, whenever the walk is right. -/
theorem flushes_iff_mem {lines : List Nat} (hcov : CoversExactly s.bytes addr len lines)
    (hlen : len ≠ 0) (l : Nat) :
    Event.Flushes s.bytes l (.persist addr len) ↔ l * s.bytes ∈ lines := by
  have hpos := s.bytes_pos
  constructor
  · rintro ⟨h1, h2⟩
    have hhi : addr < l * s.bytes + s.bytes := by
      rw [← Nat.succ_mul]
      exact (Nat.div_lt_iff_lt_mul hpos).1 (Nat.lt_succ_of_le h1)
    exact hcov.complete _ ⟨l, Nat.mul_comm _ _⟩
      ⟨max addr (l * s.bytes), by omega, by omega, by omega, by omega⟩
  · intro hl
    rcases (hcov.sound _ hl).2 with ⟨y, h1, h2, h3, h4⟩ | ⟨h0, -⟩
    · rw [← Nat.succ_mul] at h2
      refine ⟨Nat.le_of_lt_succ ((Nat.div_lt_iff_lt_mul hpos).2 ?_), ?_⟩ <;> omega
    · exact absurd h0 hlen

end ShmAlloc
