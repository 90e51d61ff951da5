import KosKernel.Machine.Memory
import Mathlib.Tactic.FinCases

/-!
# Generic/Bitmap — a fixed-size set of bits in machine words

`Bitmap<B>` of `generic/Bitmap.h`: `N` words of 64 bits with single-bit updates, the word-parallel
emptiness and fullness tests, and the branch-free scan `multiscan` of `generic/bitmanip.h`.  Each
operation is read through `test`: a bitmap *is* the set of indices below `64 * N` whose bit is set.
-/

namespace Kos

/-- `Bitmap<B>` with `B = 64 * N`. -/
structure Bitmap (N : ℕ) where
  bits : Vector (BitVec 64) N
  deriving DecidableEq

namespace Bitmap

variable {N : ℕ}

variable (b : Bitmap N)

/-- `bits[i]`. -/
def word (i : ℕ) : BitVec 64 := b.bits[i]?.getD 0

/-- `Bitmap()`: no bit set. -/
def zero : Bitmap N := ⟨Vector.replicate N 0⟩

/-- `Bitmap::filled()`: every bit set. -/
def filled : Bitmap N := ⟨Vector.replicate N (BitVec.allOnes 64)⟩

/-- `bit_set` on the word of `idx`. -/
def set (idx : ℕ) : Bitmap N :=
  ⟨b.bits.setIfInBounds (idx / 64) (b.word (idx / 64) ||| (1#64 <<< (idx % 64)))⟩

/-- `bit_clr` on the word of `idx`. -/
def clear (idx : ℕ) : Bitmap N :=
  ⟨b.bits.setIfInBounds (idx / 64) (b.word (idx / 64) &&& ~~~(1#64 <<< (idx % 64)))⟩

/-- `bit_flp` on the word of `idx`. -/
def flip (idx : ℕ) : Bitmap N :=
  ⟨b.bits.setIfInBounds (idx / 64) (b.word (idx / 64) ^^^ (1#64 <<< (idx % 64)))⟩

def test (idx : ℕ) : Bool := b.word (idx / 64) &&& (1#64 <<< (idx % 64)) != 0#64

/-- `BitmapEmptyHelper<X>`. -/
def emptyHelper (b : Bitmap N) : ℕ → BitVec 64
  | 0 => b.word 0
  | X + 1 => b.word (X + 1) ||| emptyHelper b X

/-- `BitmapFullHelper<X>`. -/
def fullHelper (b : Bitmap N) : ℕ → BitVec 64
  | 0 => b.word 0
  | X + 1 => b.word (X + 1) &&& fullHelper b X

/-- `__builtin_popcountl`. -/
def popcount (w : BitVec 64) : ℕ := (List.range 64).countP w.getLsbD

/-- `BitmapCountHelper<X>`. -/
def countHelper (b : Bitmap N) : ℕ → ℕ
  | 0 => popcount (b.word 0)
  | X + 1 => popcount (b.word (X + 1)) + countHelper b X

def empty : Bool := b.emptyHelper (N - 1) == 0#64

def full : Bool := b.fullHelper (N - 1) == BitVec.allOnes 64

def count : ℕ := b.countHelper (N - 1)

/-- `multiscan<N,true>` from word `i` on: `mask` is all ones until the first non-zero word has been
added and zero afterwards, and a zero word counts as 64. -/
def multiscan (b : Bitmap N) : ℕ → ℕ → ℕ → Bool → ℕ
  | 0, _, result, _ => result
  | n + 1, i, result, mask =>
    -- `bsfq` leaves the zero flag for the two conditional moves
    let scan := lsbcond (b.word i).toNat
    let newmask := mask && b.word i == 0#64
    multiscan b n (i + 1) (result + if mask then scan else 0) newmask

def findset : ℕ := b.multiscan N 0 0 true

/-- The words `~data[i]`, which `multiscan<N,false>` scans. -/
def inverted : Bitmap N := ⟨b.bits.map (~~~·)⟩

def findclear : ℕ := b.inverted.multiscan N 0 0 true

/-- `multiscan_r<N,true>` with the words below `i` left: a zero word counts nothing, and once a set
bit has been found each word below counts 64. -/
def multiscanR (b : Bitmap N) : ℕ → ℕ → Bool → ℕ
  | 0, result, _ => result
  | i + 1, result, mask =>
    -- `bsrq` leaves the zero flag for the two conditional moves
    let scan := if b.word i = 0#64 then 0 else msbcond (b.word i).toNat
    let newmask := mask && b.word i == 0#64
    multiscanR b i (result + if mask then scan else 64) newmask

/-- `findset_rev`; `Bitmap<64>` has its own, which reads its one word. -/
def findsetRev : ℕ :=
  if N = 1 then msbcond (b.word 0).toNat else b.multiscanR N 0 true

/-! ## The bits of a word -/

/-- The word that an update of one word leaves at `j`. -/
theorem word_update (i j : ℕ) (w : BitVec 64) :
    (⟨b.bits.setIfInBounds i w⟩ : Bitmap N).word j = if i = j ∧ j < N then w else b.word j := by
  simp only [word, Vector.getElem?_setIfInBounds]
  by_cases h : i = j
  · subst h
    by_cases hN : i < N <;> simp [hN]
  · simp [h]

variable {i : ℕ}

theorem word_of_le (h : N ≤ i) : b.word i = 0#64 := by
  simp [word, Vector.getElem?_eq_none h]

variable {j : ℕ}

/-- The single-bit mask the updates use. -/
theorem getLsbD_one_shl (hj : j < 64) : (1#64 <<< i).getLsbD j = decide (i = j) := by
  rw [BitVec.getLsbD_shiftLeft]
  by_cases h : j < i
  · simp [h, hj]; omega
  · rw [BitVec.getLsbD_one]
    simp only [hj, decide_true, h, decide_false, Bool.not_false, Bool.true_and]
    by_cases h2 : i = j
    · simp [h2]
    · simp [h2]; omega

/-- **`test` reads one bit of one word.** -/
theorem test_eq (idx : ℕ) : b.test idx = (b.word (idx / 64)).getLsbD (idx % 64) := by
  have hi : idx % 64 < 64 := Nat.mod_lt _ (by norm_num)
  have hval : ∀ j < 64, (b.word (idx / 64) &&& (1#64 <<< (idx % 64))).getLsbD j
      = ((b.word (idx / 64)).getLsbD j && decide (idx % 64 = j)) := fun j hj => by
    rw [BitVec.getLsbD_and, getLsbD_one_shl hj]
  unfold test
  cases hb : (b.word (idx / 64)).getLsbD (idx % 64) with
  | true =>
    rw [bne_iff_ne]
    intro h0
    have := hval _ hi
    rw [h0, hb] at this
    simp at this
  | false =>
    rw [bne_eq_false_iff_eq]
    refine BitVec.eq_of_getLsbD_eq fun j hj => ?_
    rw [hval j hj]
    by_cases h : idx % 64 = j
    · simp [← h, hb]
    · simp [h]

variable {b : Bitmap N}

theorem lt_of_test {idx : ℕ} (h : b.test idx = true) : idx < 64 * N := by
  by_contra hge
  rw [test_eq, word_of_le b (by omega)] at h
  simp at h

section

variable (b : Bitmap N)

/-- **An update of the word of `i` is seen at the bits of that word only.** -/
theorem test_update (hi : i < 64 * N) (w : BitVec 64) :
    (⟨b.bits.setIfInBounds (i / 64) w⟩ : Bitmap N).test j =
      if i / 64 = j / 64 then w.getLsbD (j % 64) else b.test j := by
  rw [test_eq, test_eq, word_update]
  by_cases h : i / 64 = j / 64
  · rw [if_pos ⟨h, by omega⟩, if_pos h]
  · rw [if_neg fun hc => h hc.1, if_neg h]

/-- The mask for `i` at a bit of the same word. -/
theorem getLsbD_mask (h : i / 64 = j / 64) :
    (1#64 <<< (i % 64)).getLsbD (j % 64) = decide (i = j) := by
  rw [getLsbD_one_shl (Nat.mod_lt _ (by norm_num)), decide_eq_decide]
  omega

/-- **`set` adds one index.** -/
theorem test_set (hi : i < 64 * N) (j : ℕ) : (b.set i).test j = (decide (i = j) || b.test j) := by
  rw [set, test_update b hi]
  split
  case isTrue h => rw [BitVec.getLsbD_or, getLsbD_mask h, h, ← test_eq, Bool.or_comm]
  case isFalse h =>
    have hne : i ≠ j := fun he => h (he ▸ rfl)
    simp [hne]

/-- **`clear` removes one index.** -/
theorem test_clear (i j : ℕ) : (b.clear i).test j = (!decide (i = j) && b.test j) := by
  by_cases hi : i < 64 * N
  · rw [clear, test_update b hi]
    split
    case isTrue h =>
      rw [BitVec.getLsbD_and, BitVec.getLsbD_not, getLsbD_mask h, h, ← test_eq, Bool.and_comm]
      simp [Nat.mod_lt]
    case isFalse h =>
      have hne : i ≠ j := fun he => h (he ▸ rfl)
      simp [hne]
  · -- no word is updated
    have hout : b.clear i = b := by
      rw [clear, Vector.setIfInBounds_eq_of_size_le (by omega)]
    rw [hout]
    cases hb : b.test j with
    | true =>
      have := lt_of_test hb
      have hne : i ≠ j := by omega
      simp [hne]
    | false => simp

/-- **`flip` changes one index.** -/
theorem test_flip (hi : i < 64 * N) (j : ℕ) : (b.flip i).test j = (decide (i = j) ^^ b.test j) := by
  rw [flip, test_update b hi]
  split
  case isTrue h => rw [BitVec.getLsbD_xor, getLsbD_mask h, h, ← test_eq, Bool.xor_comm]
  case isFalse h =>
    have hne : i ≠ j := fun he => h (he ▸ rfl)
    simp [hne]

@[simp] theorem test_zero (i : ℕ) : (zero : Bitmap N).test i = false := by
  rw [test_eq, word, zero]
  by_cases h : i / 64 < N <;> simp [h]

theorem test_filled (h : i < 64 * N) : (filled : Bitmap N).test i = true := by
  have h1 : i / 64 < N := by omega
  have h2 : i % 64 < 64 := Nat.mod_lt _ (by norm_num)
  have hw : (filled : Bitmap N).word (i / 64) = BitVec.allOnes 64 := by
    simp only [word, filled, Vector.getElem?_replicate, h1, if_true, Option.getD_some]
  rw [test_eq, hw, BitVec.getLsbD_allOnes, decide_eq_true h2]

/-! ## Emptiness and fullness -/

theorem getLsbD_emptyHelper (X j : ℕ) :
    (b.emptyHelper X).getLsbD j = true ↔ ∃ i ≤ X, (b.word i).getLsbD j = true := by
  induction X with
  | zero => simp [emptyHelper]
  | succ X ih =>
    rw [emptyHelper, BitVec.getLsbD_or, Bool.or_eq_true, ih]
    constructor
    · rintro (h | ⟨i, hi, h⟩)
      · exact ⟨X + 1, le_rfl, h⟩
      · exact ⟨i, by omega, h⟩
    · rintro ⟨i, hi, h⟩
      rcases hi.eq_or_lt with rfl | hlt
      · exact Or.inl h
      · exact Or.inr ⟨i, by omega, h⟩

theorem getLsbD_fullHelper (X j : ℕ) :
    (b.fullHelper X).getLsbD j = true ↔ ∀ i ≤ X, (b.word i).getLsbD j = true := by
  induction X with
  | zero => simp [fullHelper]
  | succ X ih =>
    rw [fullHelper, BitVec.getLsbD_and, Bool.and_eq_true, ih]
    constructor
    · rintro ⟨h, hX⟩ i hi
      rcases hi.eq_or_lt with rfl | hlt
      · exact h
      · exact hX i (by omega)
    · exact fun h => ⟨h _ le_rfl, fun i hi => h i (by omega)⟩

/-- The bit of word `i` at offset `j` is the bit of the bitmap at `64 * i + j`. -/
theorem getLsbD_word (i : ℕ) (hj : j < 64) : (b.word i).getLsbD j = b.test (64 * i + j) := by
  rw [test_eq]
  congr 2 <;> omega

theorem empty_iff : b.empty = true ↔ ∀ i, b.test i = false := by
  rw [empty, beq_iff_eq]
  constructor
  · intro h i
    by_contra hne
    have ht : b.test i = true := by simpa using hne
    have hlt := lt_of_test ht
    have : (b.emptyHelper (N - 1)).getLsbD (i % 64) = true :=
      (getLsbD_emptyHelper b _ _).mpr ⟨i / 64, by omega, by rwa [← test_eq]⟩
    rw [h] at this
    simp at this
  · intro h
    refine BitVec.eq_of_getLsbD_eq fun j hj => ?_
    rw [BitVec.getLsbD_zero, Bool.eq_false_iff]
    intro hc
    obtain ⟨i, -, hi⟩ := (getLsbD_emptyHelper b _ _).mp hc
    rw [getLsbD_word b i hj, h] at hi
    cases hi

end

theorem full_iff (hN : 0 < N) (b : Bitmap N) : b.full = true ↔ ∀ i < 64 * N, b.test i = true := by
  rw [full, beq_iff_eq]
  constructor
  · intro h i hi
    have hm : i % 64 < 64 := Nat.mod_lt _ (by norm_num)
    have : (b.fullHelper (N - 1)).getLsbD (i % 64) = true := by
      rw [h, BitVec.getLsbD_allOnes]
      simpa using hm
    rw [test_eq]
    exact (getLsbD_fullHelper b _ _).mp this _ (by omega)
  · intro h
    refine BitVec.eq_of_getLsbD_eq fun j hj => ?_
    rw [BitVec.getLsbD_allOnes, decide_eq_true hj, getLsbD_fullHelper]
    intro i hi
    rw [getLsbD_word b i hj]
    exact h _ (by omega)

/-! ## The scan -/

/-- Once a set bit has been found the rest of the scan adds nothing. -/
theorem multiscan_masked (b : Bitmap N) (n : ℕ) (i) (result) :
    b.multiscan n i result false = result := by
  induction n generalizing i result with
  | zero => rfl
  | succ n ih => simp [multiscan, ih]

theorem word_eq_zero_iff (b : Bitmap N) (i : ℕ) :
    b.word i = 0#64 ↔ ∀ j < 64, b.test (64 * i + j) = false := by
  constructor
  · intro h j hj
    rw [← getLsbD_word b i hj, h, BitVec.getLsbD_zero]
  · intro h
    refine BitVec.eq_of_getLsbD_eq fun j hj => ?_
    rw [getLsbD_word b i hj, h j hj, BitVec.getLsbD_zero]

/-- **The scan finds the lowest set bit**, and stops at `64 * (i + n)` if there is none.  The
induction runs over the remaining words; all earlier ones are known to be zero. -/
theorem multiscan_spec (b : Bitmap N) (n : ℕ) (i) :
    (∀ k < 64 * (i + n), 64 * i ≤ k → b.test k = false) ∧
      b.multiscan n i (64 * i) true = 64 * (i + n) ∨
      (64 * i ≤ b.multiscan n i (64 * i) true ∧ b.multiscan n i (64 * i) true < 64 * (i + n) ∧
        b.test (b.multiscan n i (64 * i) true) = true ∧ ∀ k < b.multiscan n i (64 * i) true,
        64 * i ≤ k → b.test k = false) := by
  induction n generalizing i with
  | zero => exact Or.inl ⟨fun k hk hk' => by omega, rfl⟩
  | succ n ih =>
    by_cases h0 : b.word i = 0#64
    · -- a zero word: counts 64 and leaves the mask alone
      have hz : lsbcond (b.word i).toNat = 64 := by rw [h0]; decide
      have hstep :
          b.multiscan (n + 1) i (64 * i) true = b.multiscan n (i + 1) (64 * (i + 1)) true := by
        rw [multiscan]
        simp only [h0, beq_self_eq_true, Bool.and_self, if_true]
        congr 1
      have hclear : ∀ k < 64 * (i + 1), 64 * i ≤ k → b.test k = false := fun k hk hk' => by
        have := (word_eq_zero_iff b i).mp h0 (k - 64 * i) (by omega)
        rwa [Nat.add_sub_cancel' hk'] at this
      rw [hstep]
      rcases ih (i + 1) with ⟨hall, heq⟩ | ⟨hge, hlt, hset, hmin⟩
      · refine Or.inl ⟨fun k hk hk' => ?_, by rw [heq]; ring⟩
        by_cases hk2 : k < 64 * (i + 1)
        · exact hclear k hk2 hk'
        · exact hall k (by omega) (by omega)
      · refine Or.inr ⟨by omega, by omega, hset, fun k hk hk' => ?_⟩
        by_cases hk2 : k < 64 * (i + 1)
        · exact hclear k hk2 hk'
        · exact hmin k hk (by omega)
    · -- the first non-zero word: its lowest bit is the answer
      have hstep : b.multiscan (n + 1) i (64 * i) true = 64 * i + lsbcond (b.word i).toNat := by
        rw [multiscan]
        have hf : (b.word i == 0#64) = false := by simpa using h0
        simp only [hf, Bool.and_false, if_true]
        exact multiscan_masked b n _ _
      have hbit : ∀ j < 64, (b.word i).toNat.testBit j = b.test (64 * i + j) := fun j hj => by
        rw [← getLsbD_word b i hj, BitVec.testBit_toNat]
      have hlt : lsbcond (b.word i).toNat < 64 := by
        refine lt_of_le_of_ne (lsbcond_le _) fun h64 =>
          h0 ((word_eq_zero_iff b i).mpr fun j hj => ?_)
        rw [← hbit j hj]
        exact lsbcond_eq_64_iff.mp h64 j hj
      obtain ⟨hs, hm⟩ := lsbcond_spec hlt
      refine Or.inr ⟨by omega, by omega, ?_, fun k hk hk' => ?_⟩
      · rw [hstep, ← hbit _ hlt]
        exact hs
      · rw [hstep] at hk
        have := hbit (k - 64 * i) (by omega)
        rw [Nat.add_sub_cancel' hk'] at this
        rw [← this]
        exact hm _ (by omega)

/-- **`findset` returns the least index of a non-empty bitmap.** -/
theorem findset_spec (h : b.findset ≠ 64 * N) :
    b.test b.findset = true ∧ ∀ k < b.findset, b.test k = false := by
  rcases multiscan_spec b N 0 with ⟨-, heq⟩ | ⟨-, -, hset, hmin⟩
  · exact absurd (by simpa [findset] using heq) h
  · exact ⟨hset, fun k hk => hmin k hk (Nat.zero_le _)⟩

/-- …and the size of an empty one. -/
theorem findset_eq_iff (b : Bitmap N) : b.findset = 64 * N ↔ b.empty = true := by
  rw [empty_iff]
  constructor
  · intro h i
    rcases multiscan_spec b N 0 with ⟨hall, -⟩ | ⟨-, hlt, -, -⟩
    · by_contra hne
      have ht : b.test i = true := by simpa using hne
      have := hall i (by simpa using lt_of_test ht) (Nat.zero_le _)
      rw [ht] at this
      cases this
    · exact absurd h (by simpa [findset] using hlt.ne)
  · intro h
    by_contra hne
    have := (findset_spec hne).1
    rw [h] at this
    cases this

theorem findset_first (h : b.empty = false) : b.test b.findset = true ∧ ∀ k, b.test k = true →
      b.findset ≤ k := by
  have hne : b.findset ≠ 64 * N := fun he => by
    rw [(findset_eq_iff b).mp he] at h
    cases h
  obtain ⟨hset, hmin⟩ := findset_spec hne
  refine ⟨hset, fun k hk => ?_⟩
  by_contra hlt
  rw [hmin k (by omega)] at hk
  cases hk

/-! ## The scan for a clear bit -/

theorem test_inverted (b : Bitmap N) (hi : i < 64 * N) : b.inverted.test i = !b.test i := by
  have hlt : i / 64 < N := by omega
  have hw : b.inverted.word (i / 64) = ~~~b.word (i / 64) := by
    simp [word, inverted, hlt]
  rw [test_eq, test_eq, hw, BitVec.getLsbD_not, decide_eq_true (Nat.mod_lt _ (by norm_num)),
    Bool.true_and]

/-- The index `r` is the lowest of those below `n` that have `p`, or `n` if none has it. -/
def FirstBelow (p : ℕ → Prop) (n r : ℕ) : Prop :=
  (r = n ↔ ∀ k < n, ¬ p k) ∧ (r ≠ n → r < n ∧ p r ∧ ∀ k < r, ¬ p k)

theorem firstBelow_findset (b : Bitmap N) :
    FirstBelow (fun i => b.test i = true) (64 * N) b.findset := by
  refine ⟨?_, fun h => ?_⟩
  · rw [findset_eq_iff, empty_iff]
    refine ⟨fun h k _ => by simp [h k], fun h k => ?_⟩
    by_cases hk : k < 64 * N
    · simpa using h k hk
    · by_contra hne
      exact hk (lt_of_test (by simpa using hne))
  · obtain ⟨hset, hmin⟩ := findset_spec h
    exact ⟨lt_of_test hset, hset, fun k hk => by simp [hmin k hk]⟩

/-- The scan of the complements finds the lowest clear bit. -/
theorem firstBelow_findclear (b : Bitmap N) :
    FirstBelow (fun i => b.test i = false) (64 * N) b.findclear := by
  have hiff : ∀ k < 64 * N, b.inverted.test k = true ↔ b.test k = false := fun k hk => by
    rw [test_inverted b hk, Bool.not_eq_true']
  obtain ⟨hnone, hsome⟩ := firstBelow_findset b.inverted
  refine ⟨hnone.trans (forall₂_congr fun k hk => not_congr (hiff k hk)), fun h => ?_⟩
  obtain ⟨hlt, hset, hmin⟩ := hsome h
  exact ⟨hlt, (hiff _ hlt).mp hset, fun k hk => (not_congr (hiff k (hk.trans hlt))).mp (hmin k hk)⟩

/-! ## Counting -/

theorem popcount_word (b : Bitmap N) (i : ℕ) :
    popcount (b.word i) = ((List.range 64).map (64 * i + ·)).countP b.test := by
  rw [popcount, List.countP_map]
  refine List.countP_congr fun j hj => ?_
  rw [getLsbD_word b i (List.mem_range.mp hj), Function.comp_apply]

/-- The words up to `X` hold the first `64 * (X + 1)` bits. -/
theorem countHelper_eq (b : Bitmap N) (X : ℕ) :
    b.countHelper X = (List.range (64 * (X + 1))).countP b.test := by
  induction X with
  | zero =>
    rw [countHelper, popcount_word]
    simp
  | succ X ih =>
    rw [countHelper, popcount_word, ih, Nat.mul_add_one 64 (X + 1), List.range_add,
      List.countP_append, add_comm]

/-! ## What a bitmap answers -/

/-- What the operations of a bitmap say, over the bits of its words. -/
structure Answers (b : Bitmap N) : Prop where
  test : ∀ i, b.test i = (b.word (i / 64)).getLsbD (i % 64)
  findset : FirstBelow (fun i => b.test i = true) (64 * N) b.findset
  findclear : FirstBelow (fun i => b.test i = false) (64 * N) b.findclear
  /-- `Bitmap<64>` has its own scans, of its one word. -/
  one : N = 1 → b.findset = lsbcond (b.word 0).toNat ∧ b.findclear = lsbcond (~~~b.word 0).toNat
  count : b.count = (List.range (64 * N)).countP b.test
  empty : b.empty = true ↔ ∀ i < 64 * N, b.test i = false
  full : b.full = true ↔ ∀ i < 64 * N, b.test i = true
  set : ∀ i < 64 * N, ∀ j, (b.set i).test j = if i = j then true else b.test j
  clear : ∀ i < 64 * N, ∀ j, (b.clear i).test j = if i = j then false else b.test j
  flip : ∀ i < 64 * N, ∀ j, (b.flip i).test j = if i = j then !b.test j else b.test j

/-- **A bitmap of any number of words answers for all of its bits**: the scans give the lowest set
and the lowest clear bit, the count and the two word-parallel tests are those of the bits, and an
update changes one bit. -/
theorem bitmap_answers (hN : 0 < N) (b : Bitmap N) : b.Answers where
  test := b.test_eq
  findset := b.firstBelow_findset
  findclear := b.firstBelow_findclear
  one := by
    rintro rfl
    constructor
    · simp [Bitmap.findset, multiscan]
    · simp [Bitmap.findclear, multiscan, word, inverted]
  count := by rw [Bitmap.count, countHelper_eq, Nat.sub_add_cancel hN]
  empty := by
    rw [← b.findset_eq_iff, b.firstBelow_findset.1]
    simp
  full := b.full_iff hN
  set i hi j := by
    rw [b.test_set hi]
    split <;> simp [*]
  clear i _ j := by
    rw [b.test_clear]
    split <;> simp [*]
  flip i hi j := by
    rw [b.test_flip hi]
    split <;> simp [*]

/-- Two words, with bit 66 the only one that is set. -/
theorem bitmap_answers_two_words :
    (⟨#v[0#64, 4#64]⟩ : Bitmap 2).Answers ∧ (⟨#v[0#64, 4#64]⟩ : Bitmap 2).findset = 66 :=
  ⟨bitmap_answers (by decide) _, by decide⟩

/-! ## The reverse scan -/

theorem multiscanR_masked (b : Bitmap N) (i : ℕ) (result) :
    b.multiscanR i result false = result + 64 * i := by
  induction i generalizing result with
  | zero => rfl
  | succ i ih =>
    simp only [multiscanR, Bool.false_and, Bool.false_eq_true, if_false]
    rw [ih]
    ring

/-- The highest set bit of a word that is not zero, as a bit of the bitmap. -/
theorem msbcond_word (h0 : b.word i ≠ 0#64) :
    msbcond (b.word i).toNat < 64 ∧ b.test (64 * i + msbcond (b.word i).toNat) = true ∧
      ∀ j < 64, msbcond (b.word i).toNat < j → b.test (64 * i + j) = false := by
  have hne : (b.word i).toNat ≠ 0 := fun h => h0 (BitVec.eq_of_toNat_eq h)
  have hlt := msbcond_lt hne (b.word i).isLt
  obtain ⟨hset, hmax⟩ := msbcond_spec hne
  refine ⟨hlt, ?_, fun j hj hgt => ?_⟩
  · rw [← getLsbD_word b i hlt, ← BitVec.testBit_toNat]
    exact hset
  · rw [← getLsbD_word b i hj, ← BitVec.testBit_toNat]
    exact hmax j hgt

/-- **The reverse scan finds the highest set bit** below `64 * i`, and returns zero if there is
none. -/
theorem multiscanR_spec (b : Bitmap N) (i : ℕ) :
    (∀ k < 64 * i, b.test k = false) ∧ b.multiscanR i 0 true = 0 ∨
      b.multiscanR i 0 true < 64 * i ∧ b.test (b.multiscanR i 0 true) = true ∧
        ∀ k < 64 * i, b.multiscanR i 0 true < k → b.test k = false := by
  induction i with
  | zero => exact .inl ⟨fun k hk => by omega, rfl⟩
  | succ i ih =>
    by_cases h0 : b.word i = 0#64
    · have hstep : b.multiscanR (i + 1) 0 true = b.multiscanR i 0 true := by
        simp [multiscanR, h0]
      have hclear : ∀ k < 64 * (i + 1), 64 * i ≤ k → b.test k = false := fun k hk hk' => by
        have := (word_eq_zero_iff b i).mp h0 (k - 64 * i) (by omega)
        rwa [Nat.add_sub_cancel' hk'] at this
      rw [hstep]
      rcases ih with ⟨hall, heq⟩ | ⟨hlt, hset, hmax⟩
      · refine .inl ⟨fun k hk => ?_, heq⟩
        by_cases hk' : k < 64 * i
        · exact hall k hk'
        · exact hclear k hk (by omega)
      · refine .inr ⟨by omega, hset, fun k hk hgt => ?_⟩
        by_cases hk' : k < 64 * i
        · exact hmax k hk' hgt
        · exact hclear k hk (by omega)
    · -- the first word that is not zero; each word below it counts 64
      have hstep : b.multiscanR (i + 1) 0 true = 64 * i + msbcond (b.word i).toNat := by
        have hf : (b.word i == 0#64) = false := by simpa using h0
        simp only [multiscanR, hf, Bool.and_false, if_neg h0, if_true]
        rw [multiscanR_masked]
        ring
      obtain ⟨hlt, hset, hmax⟩ := msbcond_word h0
      rw [hstep]
      refine .inr ⟨by omega, hset, fun k hk hgt => ?_⟩
      have := hmax (k - 64 * i) (by omega) (by omega)
      rwa [Nat.add_sub_cancel' (by omega)] at this

/-- **`findset_rev` returns the greatest index of a bitmap that is not empty.** -/
theorem findsetRev_spec (h : b.empty = false) :
    b.test b.findsetRev = true ∧ ∀ k, b.test k = true → k ≤ b.findsetRev := by
  have hne : ∃ k, b.test k = true := by
    by_contra hno
    have hall : b.empty = true := b.empty_iff.mpr fun k => by simpa using not_exists.mp hno k
    rw [hall] at h
    cases h
  obtain ⟨k₀, hk₀⟩ := hne
  rw [findsetRev]
  split
  case isTrue hN =>
    have hw : b.word 0 ≠ 0#64 := fun hw => by
      have := (word_eq_zero_iff b 0).mp hw k₀ (by have := lt_of_test hk₀; omega)
      rw [mul_zero, zero_add, hk₀] at this
      cases this
    obtain ⟨-, hset, hmax⟩ := msbcond_word hw
    simp only [mul_zero, zero_add] at hset hmax
    refine ⟨hset, fun k hk => ?_⟩
    by_contra hgt
    rw [hmax k (by have := lt_of_test hk; omega) (by omega)] at hk
    cases hk
  case isFalse =>
    rcases multiscanR_spec b N with ⟨hall, -⟩ | ⟨-, hset, hmax⟩
    · rw [hall k₀ (lt_of_test hk₀)] at hk₀
      cases hk₀
    · refine ⟨hset, fun k hk => ?_⟩
      by_contra hgt
      rw [hmax k (lt_of_test hk) (by omega)] at hk
      cases hk

/-- An empty bitmap of more than one word gives zero, which is no different from a first bit. -/
theorem findsetRev_of_empty (hN : N ≠ 1) (h : b.empty = true) : b.findsetRev = 0 := by
  rw [findsetRev, if_neg hN]
  rcases multiscanR_spec b N with ⟨-, heq⟩ | ⟨-, hset, -⟩
  · exact heq
  · rw [b.empty_iff.mp h] at hset
    cases hset

/-- An empty bitmap of one word gives its size. -/
theorem findsetRev_of_empty_one {b : Bitmap 1} (h : b.empty = true) : b.findsetRev = 64 := by
  have hw : b.word 0 = 0#64 := (word_eq_zero_iff b 0).mpr fun j _ => b.empty_iff.mp h _
  rw [findsetRev, if_pos rfl, hw]
  rfl

end Bitmap

end Kos
