import Mathlib.Algebra.Group.Nat.Defs
import Mathlib.Logic.Basic

/-!
# Byte-addressed memory

A memory is a total function from addresses to bytes.  Scalars are read and written
little-endian, `n` bytes at a time, as natural numbers: `Mem.load` forgets nothing below
`256 ^ n`, and `Mem.store` keeps the low `n` bytes of what it is given.

What the rest of a development needs is the read-over-write calculus:

* `load_store_same`: a load sees the store at the same place, cut to its width;
* `load_store_of_disjoint`, `load_copy_of_disjoint`: it does not see a write that misses it;
* `load_store_part`: a load that lies inside a store sees a part of the number;
* `load_fill_zero`: a load of cleared memory is 0.

All of them are instances of the fact that a load depends on its own bytes only (`load_congr`), and
of the description of the bytes after a write, one lemma for those outside it and one for those
inside.  `Mem.Agree m m' lo hi` says that two memories hold the same bytes in `[lo, hi)`; it is how
a frame condition is stated, and `Agree.load` is how it is used.

Addresses are natural numbers, so nothing wraps around here.  What computes addresses modulo `2^64`
does so before it gets to memory.
-/

set_option autoImplicit false

/-- A byte-addressed memory. -/
abbrev Mem := Nat → UInt8

namespace Mem

/-- The `n`-byte little-endian number at `a`. -/
def load (m : Mem) (a : Nat) : Nat → Nat
  | 0 => 0
  | n + 1 => (m a).toNat + 256 * load m (a + 1) n

/-- Write the low `n` bytes of `v` at `a`, least significant byte first. -/
def store (m : Mem) (a n v : Nat) : Mem := fun x =>
  if a ≤ x ∧ x < a + n then UInt8.ofNat (v / 256 ^ (x - a)) else m x

/-- Set the `n` bytes at `a` to `v`. -/
def fill (m : Mem) (a n : Nat) (v : UInt8) : Mem := fun x =>
  if a ≤ x ∧ x < a + n then v else m x

/-- Copy the `n` bytes at `src` to `dst`. -/
def copy (m : Mem) (dst src n : Nat) : Mem := fun x =>
  if dst ≤ x ∧ x < dst + n then m (src + (x - dst)) else m x

/-- Write the bytes `bs` at `a`. -/
def put (m : Mem) (a : Nat) (bs : List UInt8) : Mem := fun x =>
  if a ≤ x ∧ x < a + bs.length then bs.getD (x - a) 0 else m x

/-- The two memories hold the same bytes in `[lo, hi)`. -/
def Agree (m m' : Mem) (lo hi : Nat) : Prop := ∀ x, lo ≤ x → x < hi → m' x = m x

/-! ## Agreement -/

theorem Agree.refl (m : Mem) (lo hi : Nat) : Agree m m lo hi := fun _ _ _ => rfl

theorem Agree.trans {m m' m'' : Mem} {lo hi : Nat} (h : Agree m m' lo hi)
    (h' : Agree m' m'' lo hi) : Agree m m'' lo hi :=
  fun x h1 h2 => (h' x h1 h2).trans (h x h1 h2)

theorem Agree.symm {m m' : Mem} {lo hi : Nat} (h : Agree m m' lo hi) : Agree m' m lo hi :=
  fun x h1 h2 => (h x h1 h2).symm

/-- Agreement on an interval gives agreement on every part of it. -/
theorem Agree.mono {m m' : Mem} {lo hi lo' hi' : Nat} (h : Agree m m' lo hi) (h1 : lo ≤ lo')
    (h2 : hi' ≤ hi) : Agree m m' lo' hi' :=
  fun x hx hx' => h x (by omega) (by omega)

/-! ## Bytes after a write

For each kind of write two lemmas: the bytes it misses are as they were, and the others are what it
says.  Loads are described by these in the next section. -/

theorem store_of_outside {m : Mem} {a n v x : Nat} (h : x < a ∨ a + n ≤ x) :
    store m a n v x = m x := by
  rw [store, if_neg (by omega)]

theorem fill_of_outside {m : Mem} {a n x : Nat} {v : UInt8} (h : x < a ∨ a + n ≤ x) :
    fill m a n v x = m x := by
  rw [fill, if_neg (by omega)]

theorem fill_of_inside {m : Mem} {a n x : Nat} {v : UInt8} (h : a ≤ x) (h' : x < a + n) :
    fill m a n v x = v := by
  rw [fill, if_pos ⟨h, h'⟩]

theorem copy_of_outside {m : Mem} {dst src n x : Nat} (h : x < dst ∨ dst + n ≤ x) :
    copy m dst src n x = m x := by
  rw [copy, if_neg (by omega)]

theorem copy_of_inside {m : Mem} {dst src n x : Nat} (h : dst ≤ x) (h' : x < dst + n) :
    copy m dst src n x = m (src + (x - dst)) := by
  rw [copy, if_pos ⟨h, h'⟩]

theorem put_of_outside {m : Mem} {a x : Nat} {bs : List UInt8} (h : x < a ∨ a + bs.length ≤ x) :
    put m a bs x = m x := by
  rw [put, if_neg (by omega)]

/-! ## Loads -/

/-- A load depends on the bytes it reads and on no others. -/
theorem load_congr {m m' : Mem} {a a' : Nat} : ∀ {n : Nat},
    (∀ i, i < n → m' (a' + i) = m (a + i)) → load m' a' n = load m a n
  | 0, _ => rfl
  | n + 1, h => by
    have h0 : m' a' = m a := by simpa using h 0 (by omega)
    have ht : load m' (a' + 1) n = load m (a + 1) n :=
      load_congr fun i hi => by
        have := h (i + 1) (by omega)
        rwa [show a' + (i + 1) = a' + 1 + i by omega,
          show a + (i + 1) = a + 1 + i by omega] at this
    rw [load, load, h0, ht]

theorem Agree.load {m m' : Mem} {lo hi a n : Nat} (h : Agree m m' lo hi) (h1 : lo ≤ a)
    (h2 : a + n ≤ hi) : m'.load a n = m.load a n :=
  load_congr fun i hi => h _ (by omega) (by omega)

theorem load_lt (m : Mem) (a : Nat) : ∀ n, load m a n < 256 ^ n
  | 0 => by simp [load]
  | n + 1 => by
    have h := load_lt m (a + 1) n
    have hb : (m a).toNat < 256 := (m a).toNat_lt
    rw [load, Nat.pow_succ]
    omega

@[simp] theorem load_one (m : Mem) (a : Nat) : load m a 1 = (m a).toNat := by simp [load]

/-- Reading `j` bytes from the `k`-th byte of a freshly stored number. -/
private theorem load_store_part (m : Mem) (a n v : Nat) : ∀ {j k : Nat}, k + j ≤ n →
    load (store m a n v) (a + k) j = v / 256 ^ k % 256 ^ j
  | 0, _, _ => by simp [load, Nat.mod_one]
  | j + 1, k, h => by
    have hb : store m a n v (a + k) = UInt8.ofNat (v / 256 ^ k) := by
      rw [store, if_pos (by omega), Nat.add_sub_cancel_left]
    have hd : v / 256 ^ (k + 1) = v / 256 ^ k / 256 := by
      rw [Nat.pow_succ, Nat.div_div_eq_div_mul]
    rw [load, hb, Nat.add_assoc, load_store_part m a n v (by omega), hd, Nat.pow_succ,
      Nat.mul_comm (256 ^ j) 256, Nat.mod_mul]
    simp

/-- **A load sees the store at the same place.** -/
theorem load_store_same (m : Mem) (a n v : Nat) : load (store m a n v) a n = v % 256 ^ n := by
  simpa using load_store_part m a n v (j := n) (k := 0) (by omega)

/-- **A load does not see a store that misses it.** -/
theorem load_store_of_disjoint {m : Mem} {a n v b k : Nat} (h : b + k ≤ a ∨ a + n ≤ b) :
    load (store m a n v) b k = load m b k :=
  load_congr fun i hi => store_of_outside (by omega)

theorem load_copy_of_disjoint {m : Mem} {dst src n b k : Nat} (h : b + k ≤ dst ∨ dst + n ≤ b) :
    load (copy m dst src n) b k = load m b k :=
  load_congr fun i hi => copy_of_outside (by omega)

/-- A zero-filled range reads as zero. -/
theorem load_eq_zero {m : Mem} {a : Nat} : ∀ {n : Nat}, (∀ i, i < n → m (a + i) = 0) →
    load m a n = 0
  | 0, _ => rfl
  | n + 1, h => by
    have h0 : m a = 0 := by simpa using h 0 (by omega)
    have ht : load m (a + 1) n = 0 :=
      load_eq_zero fun i hi => by
        have := h (i + 1) (by omega)
        rwa [show a + (i + 1) = a + 1 + i by omega] at this
    rw [load, h0, ht]
    rfl

theorem load_fill_zero {m : Mem} {a n b k : Nat} (h : a ≤ b) (h' : b + k ≤ a + n) :
    load (fill m a n 0) b k = 0 :=
  load_eq_zero fun i hi => fill_of_inside (by omega) (by omega)

end Mem
