import Mathlib.Data.Nat.Bitwise
import Mathlib.Data.Nat.Log
import Mathlib.Tactic.Ring

/-!
# Machine/Memory — machine words and the address constants

The arithmetic of `generic/basics.h` and `generic/bitmanip.h` on `mword`s, and the page and frame
constants of `machine/Memory.h`.  An `mword` is a natural number below `2 ^ 64`; an operation that
can wrap does so explicitly, and each mask trick has one lemma that reads it back as arithmetic.
-/

namespace Kos

/-! ## Words -/

/-- The number of values of an `mword`. -/
abbrev wordSize : ℕ := 2 ^ 64

/-- `limit<mword>()`, the largest word. -/
def limit : ℕ := wordSize - 1

/-- `~x` on a word. -/
def lnot (x : ℕ) : ℕ := wordSize - 1 - x

/-- `x - y` on words: wraps below zero. -/
def wsub (x y : ℕ) : ℕ := (x + wordSize - y) % wordSize

/-- `x + y` on words: wraps above the top. -/
def wadd (x y : ℕ) : ℕ := (x + y) % wordSize

/-- `align_up`. -/
def alignUp (x a : ℕ) : ℕ := wsub (wadd x a) 1 &&& lnot (a - 1)

/-- `align_down`. -/
def alignDown (x a : ℕ) : ℕ := x &&& lnot (a - 1)

/-- `aligned`. -/
def aligned (x a : ℕ) : Bool := x &&& (a - 1) == 0

/-- `divup`; the decrement wraps at zero. -/
def divup (n d : ℕ) : ℕ := wsub n 1 / d + 1

/-- `lsbcond`: the index of the lowest set bit, and the word size if there is none. -/
def lsbcond (x : ℕ) : ℕ := ((List.range 64).find? fun i => x.testBit i).getD 64

/-- `msbcond`: the index of the highest set bit, and the word size if there is none. -/
def msbcond (x : ℕ) : ℕ := if x = 0 then 64 else Nat.log2 x

/-- `floorlog2`. -/
def floorlog2 (x : ℕ) : ℕ := msbcond x

/-- `alignment`: the exponent of the largest power of two dividing `x`. -/
def alignment (x : ℕ) : ℕ := lsbcond x

/-! ## Reading the mask tricks -/

variable {x y : ℕ}

theorem wadd_of_lt (h : x + y < wordSize) : wadd x y = x + y := Nat.mod_eq_of_lt h

theorem wsub_of_le (hx : x < wordSize) (h : y ≤ x) : wsub x y = x - y := by
  unfold wsub wordSize at *
  omega

theorem wsub_lt (x y : ℕ) : wsub x y < wordSize := Nat.mod_lt _ (by decide)

theorem wadd_wsub (hx : x < wordSize) (hy : y < wordSize) : wadd x (wsub y x) = y := by
  unfold wadd wsub wordSize at *
  omega

theorem divup_pos (n d : ℕ) : 0 < divup n d := Nat.succ_pos _

theorem divup_of_pos {n d : ℕ} (hn : 0 < n) (h : n < wordSize) : divup n d = (n - 1) / d + 1 := by
  rw [divup, wsub_of_le h hn]

variable {k : ℕ}

theorem aligned_iff : aligned x (2 ^ k) = true ↔ x % 2 ^ k = 0 := by
  rw [aligned, Nat.and_two_pow_sub_one_eq_mod, beq_iff_eq]

/-- The complement of a low mask keeps exactly the high bits. -/
theorem testBit_lnot_pred {i : ℕ} (hk : k ≤ 64) :
    (lnot (2 ^ k - 1)).testBit i = (decide (k ≤ i) && decide (i < 64)) := by
  have h64 : (2 : ℕ) ^ k ≤ 2 ^ 64 := Nat.pow_le_pow_right (by norm_num) hk
  have hpos : 0 < (2 : ℕ) ^ k := Nat.two_pow_pos k
  have hlt : 2 ^ k - 1 < 2 ^ 64 := by omega
  have := Nat.testBit_two_pow_sub_succ (x := 2 ^ k - 1) (n := 64) hlt i
  have hrw : lnot (2 ^ k - 1) = 2 ^ 64 - (2 ^ k - 1 + 1) := by unfold lnot wordSize; omega
  rw [hrw, this, Nat.testBit_two_pow_sub_one]
  by_cases h1 : i < k
  · simp [h1, Nat.not_le.mpr h1]
  · simp [h1, Nat.le_of_not_lt h1]

/-- **`align_down` rounds down** — for a power of two not above the word size. -/
theorem alignDown_eq (hx : x < wordSize) (hk : k ≤ 64) :
    alignDown x (2 ^ k) = x / 2 ^ k * 2 ^ k := by
  refine Nat.eq_of_testBit_eq fun i => ?_
  rw [alignDown, Nat.testBit_and, testBit_lnot_pred hk, ← Nat.shiftLeft_eq, Nat.testBit_shiftLeft,
    ← Nat.shiftRight_eq_div_pow, Nat.testBit_shiftRight]
  by_cases h1 : k ≤ i
  · have hi : k + (i - k) = i := by omega
    by_cases h2 : i < 64
    · simp [h1, h2, hi]
    · have : x.testBit i = false :=
        Nat.testBit_lt_two_pow (lt_of_lt_of_le hx (Nat.pow_le_pow_right (by norm_num) (by omega)))
      simp [hi, this]
  · simp [h1]

/-- …so it never exceeds its argument and misses it by less than the alignment. -/
theorem alignDown_le (hx : x < wordSize) (hk : k ≤ 64) : alignDown x (2 ^ k) ≤ x := by
  rw [alignDown_eq hx hk]
  exact Nat.div_mul_le_self _ _

theorem alignDown_mod (hx : x < wordSize) (hk : k ≤ 64) : alignDown x (2 ^ k) % 2 ^ k = 0 := by
  rw [alignDown_eq hx hk, Nat.mul_mod_left]

/-- **`align_up` rounds up**, when the sum does not wrap. -/
theorem alignUp_eq (h : x + 2 ^ k < wordSize) (hk : k ≤ 64) :
    alignUp x (2 ^ k) = (x + 2 ^ k - 1) / 2 ^ k * 2 ^ k := by
  have hpos : 0 < (2 : ℕ) ^ k := Nat.two_pow_pos k
  have hlt : x + 2 ^ k - 1 < wordSize := by omega
  rw [alignUp, wadd_of_lt h, wsub_of_le h (by omega)]
  exact alignDown_eq hlt hk

/-! ## Trailing zeros and logarithms -/

/-- `k` low zero bits are divisibility by `2 ^ k`. -/
theorem mod_two_pow_eq_zero_iff : x % 2 ^ k = 0 ↔ ∀ i < k, x.testBit i = false := by
  constructor
  · intro h i hi
    have := Nat.testBit_mod_two_pow x k i
    rw [h, Nat.zero_testBit] at this
    simpa [hi] using this.symm
  · intro h
    refine Nat.eq_of_testBit_eq fun i => ?_
    rw [Nat.testBit_mod_two_pow, Nat.zero_testBit]
    by_cases hi : i < k
    · simp [h i hi]
    · simp [hi]

/-- The lowest set bit of a non-zero word. -/
theorem lsbcond_spec (h : lsbcond x < 64) :
    x.testBit (lsbcond x) = true ∧ ∀ i < lsbcond x, x.testBit i = false := by
  unfold lsbcond at h ⊢
  cases hf : (List.range 64).find? (fun i => x.testBit i) with
  | none => simp [hf] at h
  | some j =>
    rw [List.find?_range_eq_some] at hf
    refine ⟨by simpa using hf.1, fun i hi => ?_⟩
    simpa using hf.2.2 i (by simpa using hi)

theorem lsbcond_eq_64_iff : lsbcond x = 64 ↔ ∀ i < 64, x.testBit i = false := by
  unfold lsbcond
  cases hf : (List.range 64).find? (fun i => x.testBit i) with
  | none =>
    rw [List.find?_range_eq_none] at hf
    simpa using hf
  | some j =>
    rw [List.find?_range_eq_some] at hf
    have hj : j < 64 := List.mem_range.mp hf.2.1
    simp only [Option.getD_some]
    refine ⟨fun h => by omega, fun h => ?_⟩
    have := h j hj
    rw [hf.1] at this
    cases this

theorem lsbcond_le (x : ℕ) : lsbcond x ≤ 64 := by
  unfold lsbcond
  cases hf : (List.range 64).find? (fun i => x.testBit i) with
  | none => simp
  | some j =>
    rw [List.find?_range_eq_some] at hf
    exact (List.mem_range.mp hf.2.1).le

/-- **`alignment` counts trailing zeros**: it reaches `k` exactly on the multiples of `2 ^ k`. -/
theorem le_alignment_iff (hk : k ≤ 64) : k ≤ alignment x ↔ x % 2 ^ k = 0 := by
  rw [mod_two_pow_eq_zero_iff, alignment]
  constructor
  · intro h i hi
    rcases (lsbcond_le x).eq_or_lt with h64 | h64
    · exact lsbcond_eq_64_iff.mp h64 i (by omega)
    · exact (lsbcond_spec h64).2 i (by omega)
  · intro h
    by_contra hlt
    have h64 : lsbcond x < 64 := by omega
    have := (lsbcond_spec h64).1
    rw [h _ (by omega)] at this
    cases this

theorem le_floorlog2_iff (hx : x ≠ 0) : k ≤ floorlog2 x ↔ 2 ^ k ≤ x := by
  rw [floorlog2, msbcond, if_neg hx]
  exact Nat.le_log2 hx

/-- The highest set bit of a word that is not zero. -/
theorem msbcond_spec (hx : x ≠ 0) : x.testBit (msbcond x) = true ∧ ∀ i, msbcond x < i →
      x.testBit i = false := by
  rw [msbcond, if_neg hx]
  refine ⟨Nat.testBit_log2 hx, fun i hi => Nat.testBit_lt_two_pow ?_⟩
  exact Nat.lt_log2_self.trans_le (Nat.pow_le_pow_right (by norm_num) hi)

theorem msbcond_lt (hx : x ≠ 0) (hlt : x < wordSize) : msbcond x < 64 := by
  rw [msbcond, if_neg hx]
  exact (Nat.log2_lt hx).mpr hlt

/-- The block of an aligned address. -/
theorem div_eq_iff_of_aligned {v n : ℕ} (hn : 0 < n) (hv : v % n = 0) :
    x / n = v / n ↔ v ≤ x ∧ x < v + n := by
  obtain ⟨k, rfl⟩ := Nat.dvd_of_mod_eq_zero hv
  rw [Nat.mul_div_cancel_left _ hn, Nat.div_eq_iff hn]
  constructor
  · intro h
    constructor
    · rw [mul_comm]; exact h.1
    · have := h.2
      rw [mul_comm]
      omega
  · rintro ⟨h1, h2⟩
    rw [mul_comm] at h1 h2
    exact ⟨h1, by omega⟩

/-! ## Pages and frames (`machine/Memory.h`) -/

/-- `topaddr`, the address no allocation returns. -/
def topaddr : ℕ := limit

def pageoffsetbits : ℕ := 12
def pagetablebits : ℕ := 9
def pagetableentries : ℕ := 2 ^ pagetablebits
def pagelevels : ℕ := 4
def framebits : ℕ := pageoffsetbits + 40
def pagebits : ℕ := pageoffsetbits + pagetablebits * pagelevels

/-- `pagesizebits<N>()`. -/
def pagesizebits (N : ℕ) : ℕ := pageoffsetbits + (N - 1) * pagetablebits

/-- `pagesize<N>()`. -/
def pagesize (N : ℕ) : ℕ := 2 ^ pagesizebits N

theorem pagesize_pos (N : ℕ) : 0 < pagesize N := Nat.two_pow_pos _

end Kos
