import ShmAlloc.Lib.Word

/-!
# Writing back a range of memory

`shm_persist` walks the range in steps of a cache line, from the line its first byte is in.  The
walk is the same whatever instruction writes a line back; what it depends on is the number of bytes
in a line and the C type that number is written in, as that is the type the mask is computed in.

## What is here

* `LineType` and `LineSize`: a definition of `SHM_CACHE_LINE_BYTES`, by default or by an override on
  the command line, with its type.
* `firstLine`, `flushLoop` and `flushedLines`: the code, with fuel for the loop.
* `flushLoop_eq` and `flushedLines_eq`: **`shm_persist` ends on every range**, and the lines it
  writes back are consecutive.

This is the one place where the walk is looked at.  Elsewhere a write-back is one event, which
stands for the lines of its range.
-/

set_option autoImplicit false

namespace ShmAlloc

/-! ## The size of a line

An integer literal has the first type that can hold it, and C computes `n - 1u` in the larger of its
type and `unsigned int`. -/

/-- The C type of `SHM_CACHE_LINE_BYTES`. -/
inductive LineType
  | sizeT
  | int
  | long
deriving DecidableEq, Repr

/-- How many bits a value of the type has, not counting the sign. -/
def LineType.valueBits : LineType → Nat
  | .sizeT => 64
  | .int => 31
  | .long => 63

/-- The bits of `SHM_CACHE_LINE_BYTES - 1u`.  Next to `1u` an `int` becomes an `unsigned int`. -/
def LineType.maskBits : LineType → Nat
  | .sizeT | .long => 64
  | .int => 32

/-- A definition of `SHM_CACHE_LINE_BYTES`: a power of two that its type can hold. -/
structure LineSize where
  log : Nat
  type : LineType
  fits : log < type.valueBits

/-- The number of bytes in a line. -/
def LineSize.bytes (s : LineSize) : Nat := 2 ^ s.log

/-- Without an override: `((size_t)64)`. -/
def LineSize.default : LineSize := ⟨6, .sizeT, by decide⟩

/-- The type of the decimal literal `2 ^ log`. -/
def literalType (log : Nat) : LineType := if log < 31 then .int else .long

/-- `-DSHM_CACHE_LINE_BYTES=<n>` with the decimal literal `n = 2 ^ log`. -/
def LineSize.override (log : Nat) (h : log < 63) : LineSize :=
  ⟨log, literalType log, by
    rw [literalType]
    split
    · assumption
    · exact h⟩

/-! ## The walk -/

/-- `(size_t)addr & ~(SHM_CACHE_LINE_BYTES - 1u)`. -/
def firstLine (s : LineSize) (addr : Nat) : Nat :=
  addr &&& notBits s.type.maskBits (s.bytes - 1)

/-- The addresses `shm_flush_line` is called with from `p` on, if the loop ends within the fuel. -/
def flushLoop (s : LineSize) (last : Nat) : Nat → Nat → Option (List Nat)
  | 0, _ => none
  | fuel + 1, p =>
    if p < last then (flushLoop s last fuel (add64 p s.bytes)).map fun lines => p :: lines
    else some []

/-- The addresses `shm_persist` calls `shm_flush_line` with. -/
def flushedLines (s : LineSize) (addr len fuel : Nat) : Option (List Nat) :=
  flushLoop s (add64 addr len) fuel (firstLine s addr)

/-! ## What the walk does -/

section

variable {s : LineSize}

theorem LineSize.bytes_pos (s : LineSize) : 0 < s.bytes := Nat.two_pow_pos s.log

theorem LineSize.log_le (s : LineSize) : s.log ≤ s.type.maskBits := by
  have h := s.fits
  cases ht : s.type <;> rw [ht] at h <;> simp only [LineType.valueBits] at h <;>
    simp only [LineType.maskBits] <;> omega

/-- The walk starts at the line of the low bits of the address. -/
theorem firstLine_eq (s : LineSize) (addr : Nat) :
    firstLine s addr = addr % 2 ^ s.type.maskBits / s.bytes * s.bytes :=
  and_notBits addr s.log_le

/-- **The loop ends**, and what it has written back are the lines up to the end of the range. -/
theorem flushLoop_eq {last : Nat} (hlast : last + s.bytes ≤ 2 ^ 64) {n : Nat} : ∀ {p fuel : Nat},
    last ≤ p + n * s.bytes → (∀ i, i < n → p + i * s.bytes < last) → n < fuel →
    flushLoop s last fuel p = some (List.range' p n s.bytes) := by
  induction n with
  | zero =>
    intro p fuel hge _ hfuel
    obtain ⟨fuel, rfl⟩ : ∃ k, fuel = k + 1 := ⟨fuel - 1, by omega⟩
    rw [flushLoop, if_neg (by omega)]
    rfl
  | succ n ih =>
    intro p fuel hge hlt hfuel
    obtain ⟨fuel, rfl⟩ : ∃ k, fuel = k + 1 := ⟨fuel - 1, by omega⟩
    have hp : p < last := by simpa using hlt 0 (Nat.succ_pos n)
    have hrec : flushLoop s last fuel (p + s.bytes)
        = some (List.range' (p + s.bytes) n s.bytes) := by
      refine ih ?_ (fun i hi => ?_) (by omega)
      · rw [Nat.succ_mul] at hge
        omega
      · have := hlt (i + 1) (by omega)
        rw [Nat.succ_mul] at this
        omega
    rw [flushLoop, if_pos hp, add64_eq (by omega), hrec, List.range'_succ]
    rfl

/-- How many lines there are from `p` to the end of the range. -/
theorem exists_lineCount {L : Nat} (hL : 0 < L) (p last : Nat) :
    ∃ n, last ≤ p + n * L ∧ ∀ i, i < n → p + i * L < last := by
  refine ⟨(last - p + (L - 1)) / L, ?_, fun i hi => ?_⟩
  · have h := Nat.lt_mul_div_succ (last - p + (L - 1)) hL
    rw [Nat.mul_succ, Nat.mul_comm] at h
    omega
  · have h := (Nat.le_div_iff_mul_le hL).1 (Nat.succ_le_of_lt hi)
    rw [Nat.succ_mul] at h
    omega

/-- **`shm_persist` ends** on every range, and the lines it writes back are consecutive. -/
theorem flushedLines_eq {addr len : Nat} (h : addr + len + s.bytes ≤ 2 ^ 64) :
    ∃ n, addr + len ≤ firstLine s addr + n * s.bytes ∧
      (∀ i, i < n → firstLine s addr + i * s.bytes < addr + len) ∧
      ∀ fuel, n < fuel →
        flushedLines s addr len fuel = some (List.range' (firstLine s addr) n s.bytes) := by
  obtain ⟨n, hge, hlt⟩ := exists_lineCount s.bytes_pos (firstLine s addr) (addr + len)
  refine ⟨n, hge, hlt, fun fuel hfuel => ?_⟩
  have := s.bytes_pos
  rw [flushedLines, add64_eq (by omega)]
  exact flushLoop_eq h hge hlt hfuel

end

end ShmAlloc
