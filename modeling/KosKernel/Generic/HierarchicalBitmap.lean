import KosKernel.Generic.Bitmap

/-!
# Generic/HierarchicalBitmap — a tree of bitmaps laid out in one array

`HierarchicalBitmap<B,W>` of `generic/Bitmap.h`.  Level `0` holds one bit per element, and a bit of
level `i + 1` summarises one bitmap of level `i`.  All levels live in one array of `Bitmap<B>`s, one
after the other, and `bitmaps[i]` is where level `i` starts.

`Valid h c` is the invariant of a bitmap for `c` elements: the levels do not overlap, no bit is set
outside its level, and **a summary bit is set exactly when the bitmap below it is non-empty**.
`set` and `clear` stop climbing early; `setLoop_spec` and `clearLoop_spec` carry the one summary bit
that is out of date while they climb.
-/

namespace Kos

open Function

/-- `HierarchicalBitmap<B,W>` with `B = 64 * N`; `bitmaps i` is an index into the array `mem`. -/
structure HierarchicalBitmap (N : ℕ) where
  mem : ℕ → Bitmap N
  bitmaps : ℕ → ℕ
  toplevel : ℕ

namespace HierarchicalBitmap

variable {N : ℕ}

/-- The number of bits of one elementary bitmap. -/
abbrev width (N : ℕ) : ℕ := 64 * N

/-- The bitmap at position `j` of level `i`. -/
def level (h : HierarchicalBitmap N) (i j : ℕ) : Bitmap N := h.mem (h.bitmaps i + j)

/-- Overwrite one bitmap. -/
def write (h : HierarchicalBitmap N) (i j : ℕ) (b : Bitmap N) : HierarchicalBitmap N :=
  { h with mem := update h.mem (h.bitmaps i + j) b }

/-- The `do … while` loop of `init`.  `room` counts the entries of `bitmaps` after the current one:
with none left the next level would be written past the end of that array. -/
def initLoop (N : ℕ) : ℕ → ℕ → (ℕ → ℕ) → ℕ → Option ((ℕ → ℕ) × ℕ)
  | 0, _, _, _ => none
  | room + 1, bitcount, bitmaps, toplevel =>
    let bitcount' := divup bitcount (width N)
    let bitmaps' := update bitmaps (toplevel + 1) (bitmaps toplevel + bitcount')
    if bitcount' > 1 then initLoop N room bitcount' bitmaps' (toplevel + 1)
    else some (bitmaps', toplevel + 1)

/-- `init` on a fresh object whose `bitmaps` array has `cap` entries. -/
def init (N cap bitcount : ℕ) : Option (HierarchicalBitmap N) :=
  (initLoop N (cap - 1) bitcount (fun _ => 0) 0).map fun (bitmaps, toplevel) =>
    { mem := fun _ => Bitmap.zero, bitmaps, toplevel }

/-- The loop of `set`, with `n` levels left from level `i` on. -/
def setLoop : ℕ → ℕ → ℕ → HierarchicalBitmap N → HierarchicalBitmap N
  | 0, _, _, h => h
  | n + 1, i, idx, h =>
    let b := h.level i (idx / width N)
    let h' := h.write i (idx / width N) (b.set (idx % width N))
    if !b.empty then h' else setLoop n (i + 1) (idx / width N) h'

def set (h : HierarchicalBitmap N) (idx : ℕ) : HierarchicalBitmap N :=
  setLoop (h.toplevel + 1) 0 idx h

/-- The loop of `clear`, with `n` levels left from level `i` on. -/
def clearLoop : ℕ → ℕ → ℕ → HierarchicalBitmap N → HierarchicalBitmap N
  | 0, _, _, h => h
  | n + 1, i, idx, h =>
    let b := (h.level i (idx / width N)).clear (idx % width N)
    let h' := h.write i (idx / width N) b
    if !b.empty then h' else clearLoop n (i + 1) (idx / width N) h'

def clear (h : HierarchicalBitmap N) (idx : ℕ) : HierarchicalBitmap N :=
  clearLoop (h.toplevel + 1) 0 idx h

def test (h : HierarchicalBitmap N) (idx : ℕ) : Bool :=
  (h.level 0 (idx / width N)).test (idx % width N)

def empty (h : HierarchicalBitmap N) : Bool := (h.level h.toplevel 0).empty

/-- The descent of `findset` from level `i`. -/
def findsetLoop (h : HierarchicalBitmap N) : ℕ → ℕ → ℕ
  | 0, idx =>
    let ldx := (h.level 0 idx).findset
    if ldx = width N then limit else idx * width N + ldx
  | i + 1, idx =>
    let ldx := (h.level (i + 1) idx).findset
    if ldx = width N then limit else findsetLoop h i (idx * width N + ldx)

def findset (h : HierarchicalBitmap N) : ℕ := h.findsetLoop h.toplevel 0

/-- The descent of `findset` and `findset_rev` from level `i`, with the scan of one bitmap. -/
def descend (scan : Bitmap N → ℕ) (h : HierarchicalBitmap N) : ℕ → ℕ → ℕ
  | 0, idx =>
    let ldx := scan (h.level 0 idx)
    if ldx = width N then limit else idx * width N + ldx
  | i + 1, idx =>
    let ldx := scan (h.level (i + 1) idx)
    if ldx = width N then limit else descend scan h i (idx * width N + ldx)

def findsetRev (h : HierarchicalBitmap N) : ℕ := h.descend Bitmap.findsetRev h.toplevel 0

/-! ## The layout -/

/-- The number of bitmaps of each level of a bitmap for `c` elements. -/
def levelSize (N c : ℕ) : ℕ → ℕ
  | 0 => divup c (width N)
  | i + 1 => divup (levelSize N c i) (width N)

/-- The levels lie one after the other and the topmost is a single bitmap. -/
structure Layout (h : HierarchicalBitmap N) (c : ℕ) : Prop where
  offset : ∀ i < h.toplevel, h.bitmaps (i + 1) = h.bitmaps i + levelSize N c i
  top : levelSize N c h.toplevel = 1
  shrink : ∀ i j, j < levelSize N c i → j / width N < levelSize N c (i + 1)
  first : ∀ j, j < c → j / width N < levelSize N c 0

variable {j c : ℕ}

/-- One level up there are exactly as many bits as bitmaps, so a bitmap's summary bit has a
place. -/
theorem div_lt_divup {d : ℕ} (hc : c < wordSize) (hj : j < c) : j / d < divup c d := by
  rw [divup_of_pos (by omega) hc]
  exact Nat.lt_succ_of_le (Nat.div_le_div_right (by omega))

theorem divup_le {d : ℕ} (hc : 0 < c) (hlt : c < wordSize) : divup c d ≤ c := by
  rw [divup_of_pos hc hlt]
  have := Nat.div_le_self (c - 1) d
  omega

theorem levelSize_pos (N c i : ℕ) : 0 < levelSize N c i := by
  cases i <;> exact Nat.succ_pos _

theorem levelSize_lt (hc : 0 < c) (hlt : c < wordSize) (i : ℕ) : levelSize N c i < wordSize := by
  induction i with
  | zero => exact lt_of_le_of_lt (divup_le hc hlt) hlt
  | succ i ih => exact lt_of_le_of_lt (divup_le (levelSize_pos N c i) ih) ih

/-- Peeling the first level off: the sizes above it are those of a bitmap for `divup c B`. -/
theorem levelSize_succ (N c i : ℕ) : levelSize N (divup c (width N)) i = levelSize N c (i + 1) := by
  induction i with
  | zero => rfl
  | succ i ih => exact congrArg (fun m => divup m (width N)) ih

/-- **What the loop of `init` lays out**: from level `t` on each level starts where the one below it
ends, and the last one laid out is over a single bitmap. -/
theorem initLoop_spec (room : ℕ) {t : ℕ} {bm bm' : ℕ → ℕ} {t' : ℕ}
    (h : initLoop N room c bm t = some (bm', t')) :
    t < t' ∧ (∀ i ≤ t, bm' i = bm i) ∧
      (∀ i, t ≤ i → i < t' → bm' (i + 1) = bm' i + levelSize N c (i - t)) ∧
      levelSize N c (t' - t - 1) = 1 := by
  induction room generalizing c t bm bm' t' with
  | zero => cases h
  | succ room ih =>
    rw [initLoop] at h
    simp only [gt_iff_lt] at h
    split at h
    · obtain ⟨hlt, hkeep, hoff, htop⟩ := ih h
      refine ⟨by omega, fun i hi => ?_, fun i hi hi' => ?_, ?_⟩
      · rw [hkeep i (by omega), update_of_ne (by omega)]
      · rcases hi.eq_or_lt with rfl | hlt'
        · rw [hkeep _ le_rfl, hkeep _ (by omega), update_self,
            update_of_ne (by omega), Nat.sub_self, levelSize]
        · rw [hoff i (by omega) hi', levelSize_succ]
          congr 2
          omega
      · rw [levelSize_succ] at htop
        rw [← htop]
        congr 1
        omega
    · rename_i hle
      cases h
      refine ⟨by omega, fun i hi => update_of_ne (by omega) _ _, fun i hi hi' => ?_, ?_⟩
      · obtain rfl : i = t := by omega
        rw [update_self, update_of_ne (by omega), Nat.sub_self, levelSize]
      · have : 0 < divup c (width N) := Nat.succ_pos _
        rw [show t + 1 - t - 1 = 0 by omega, levelSize]
        omega

/-- **`init` stays inside the `bitmaps` array exactly when `B ^ (cap - 1)` elements are enough.** -/
theorem initLoop_isSome (hN : 0 < N) (room : ℕ) (bm : ℕ → ℕ) (t : ℕ) (hc : 0 < c)
    (hlt : c < wordSize) :
    ((initLoop N room c bm t).isSome = true ↔ 0 < room ∧ c ≤ width N ^ room) := by
  induction room generalizing c bm t with
  | zero => simp [initLoop]
  | succ room ih =>
    have hw : 0 < width N := by simp only [width]; omega
    have hd : divup c (width N) = (c - 1) / width N + 1 := divup_of_pos hc hlt
    rw [initLoop]
    simp only [gt_iff_lt]
    split
    · rename_i h1
      rw [ih _ _ (by omega) (lt_of_le_of_lt (divup_le hc hlt) hlt), hd, Nat.succ_le_iff,
        Nat.div_lt_iff_lt_mul hw, ← pow_succ]
      constructor
      · exact fun h => ⟨by omega, by omega⟩
      · rintro ⟨-, h⟩
        refine ⟨?_, by omega⟩
        -- more than one bitmap is needed, so one level is not enough
        by_contra h0
        obtain rfl : room = 0 := by omega
        have : (c - 1) / width N < 1 := (Nat.div_lt_iff_lt_mul hw).mpr
          (by simp only [zero_add, pow_one] at h; omega)
        omega
    · rename_i h1
      have hsmall : c - 1 < width N := by
        rw [hd] at h1
        exact (Nat.div_lt_iff_lt_mul hw).mp (by omega : (c - 1) / width N < 1) |>.trans_eq
          (one_mul _)
      have hpow : width N ^ 1 ≤ width N ^ (room + 1) := Nat.pow_le_pow_right hw (by omega)
      rw [pow_one] at hpow
      simp only [Option.isSome_some, true_iff]
      exact ⟨by omega, by omega⟩

variable {h : HierarchicalBitmap N} {i : ℕ}

/-- A level ends where the next one starts, hence before every later one starts. -/
theorem Layout.end_le (hl : Layout h c) (hij : i < j) (hj : j ≤ h.toplevel) :
    h.bitmaps i + levelSize N c i ≤ h.bitmaps j := by
  induction j, hij using Nat.le_induction with
  | base => rw [hl.offset i (by omega)]
  | succ j hij ih => exact (ih (by omega)).trans (by rw [hl.offset j (by omega)]; omega)

/-- Distinct positions of the tree are distinct array elements. -/
theorem Layout.offset_inj (hl : Layout h c) {i' j' : ℕ} (hi : i ≤ h.toplevel)
    (hi' : i' ≤ h.toplevel) (hj : j < levelSize N c i) (hj' : j' < levelSize N c i')
    (he : h.bitmaps i + j = h.bitmaps i' + j') : i = i' ∧ j = j' := by
  rcases lt_trichotomy i i' with hlt | rfl | hlt
  · have := hl.end_le hlt hi'
    omega
  · exact ⟨rfl, by omega⟩
  · have := hl.end_le hlt hi
    omega

/-! ## Reading and writing one bitmap -/

@[simp] theorem toplevel_write (h : HierarchicalBitmap N) (i j : ℕ) (b : Bitmap N) :
    (h.write i j b).toplevel = h.toplevel := rfl

theorem Layout.write (hl : Layout h c) (i j : ℕ) (b : Bitmap N) : Layout (h.write i j b) c :=
  { hl with }

@[simp] theorem level_write_self (h : HierarchicalBitmap N) (i j : ℕ) (b : Bitmap N) :
    (h.write i j b).level i j = b := update_self ..

theorem Layout.level_write (hl : Layout h c) {i' j' : ℕ} (hi : i ≤ h.toplevel)
    (hi' : i' ≤ h.toplevel) (hj : j < levelSize N c i) (hj' : j' < levelSize N c i')
    (hne : ¬(i' = i ∧ j' = j)) (b : Bitmap N) : (h.write i j b).level i' j' = h.level i' j' :=
  update_of_ne (fun he => hne (hl.offset_inj hi' hi hj' hj he)) ..

/-- The bit at position `k` of level `i`. -/
def levelBit (h : HierarchicalBitmap N) (i k : ℕ) : Bool :=
  (h.level i (k / width N)).test (k % width N)

theorem test_eq_levelBit (h : HierarchicalBitmap N) (k : ℕ) : h.test k = h.levelBit 0 k := rfl

theorem eq_of_div_mod {a b w : ℕ} (h1 : a / w = b / w) (h2 : a % w = b % w) : a = b := by
  rw [← Nat.div_add_mod a w, h1, h2, Nat.div_add_mod]

variable {k : ℕ}

/-- Rewriting the bitmap of bit `k` of level `i` touches no bit of another bitmap. -/
theorem Layout.levelBit_write (hl : Layout h c) {i' : ℕ} (hi : i ≤ h.toplevel)
    (hi' : i' ≤ h.toplevel) (hj : j < levelSize N c i) (hk : k / width N < levelSize N c i')
    (hne : ¬(i' = i ∧ k / width N = j)) (b : Bitmap N) :
    (h.write i j b).levelBit i' k = h.levelBit i' k := by
  rw [levelBit, hl.level_write hi hi' hj hk hne, levelBit]

/-! ## The invariant -/

/-- The summary bit of bitmap `j` of level `i` is up to date. -/
def UpOk (h : HierarchicalBitmap N) (i j : ℕ) : Prop :=
  h.levelBit (i + 1) j = !(h.level i j).empty

/-- The bits of a level are those of existing bitmaps of the level below, or of elements. -/
structure InRange (h : HierarchicalBitmap N) (c : ℕ) : Prop where
  elements : ∀ k, k / width N < levelSize N c 0 → h.levelBit 0 k = true → k < c
  summaries : ∀ i < h.toplevel, ∀ k, k / width N < levelSize N c (i + 1) →
    h.levelBit (i + 1) k = true → k < levelSize N c i

/-- **The invariant of a hierarchical bitmap for `c` elements.** -/
structure Valid (h : HierarchicalBitmap N) (c : ℕ) : Prop where
  layout : Layout h c
  inRange : InRange h c
  up : ∀ i < h.toplevel, ∀ j < levelSize N c i, UpOk h i j

theorem init_layout {cap : ℕ} (hc : 0 < c) (hlt : c < wordSize) (hi : init N cap c = some h) :
    Layout h c := by
  obtain ⟨⟨bm, t⟩, hloop, rfl⟩ := Option.map_eq_some_iff.mp hi
  obtain ⟨hpos, -, hoff, htop⟩ := initLoop_spec _ hloop
  refine ⟨fun i hi => hoff i (Nat.zero_le _) hi, ?_, fun i j hj => ?_, fun j hj => ?_⟩
  · show levelSize N c t = 1
    obtain ⟨t, rfl⟩ : ∃ s, t = s + 1 := ⟨t - 1, by omega⟩
    rw [show t + 1 - 0 - 1 = t by omega] at htop
    rw [levelSize, htop, divup_of_pos (by omega) (by decide)]
    simp
  · exact div_lt_divup (levelSize_lt hc hlt i) hj
  · exact div_lt_divup hlt hj

/-- **A freshly initialised bitmap is valid and empty.** -/
theorem init_valid {cap : ℕ} (hc : 0 < c) (hlt : c < wordSize) (hi : init N cap c = some h) :
    Valid h c ∧ ∀ k, h.test k = false := by
  have hlay := init_layout hc hlt hi
  obtain ⟨⟨bm, t⟩, -, rfl⟩ := Option.map_eq_some_iff.mp hi
  have hbit : ∀ i k, levelBit (⟨fun _ => Bitmap.zero, bm, t⟩ : HierarchicalBitmap N) i k = false :=
    fun i k => Bitmap.test_zero _
  have hempty : (Bitmap.zero : Bitmap N).empty = true :=
    (Bitmap.empty_iff _).mpr fun i => Bitmap.test_zero i
  refine ⟨⟨hlay, ⟨fun k _ h => ?_, fun i _ k _ h => ?_⟩, fun i _ j _ => ?_⟩, fun k => hbit 0 k⟩
  · rw [hbit] at h; cases h
  · rw [hbit] at h; cases h
  · rw [UpOk, hbit, level, hempty]; rfl

/-! ## Updates

`set` and `clear` rewrite the bitmap of one bit per level.  While they climb, the only summary bit
that may be out of date is the one they are about to write. -/

/-- `idx` is a place of level `i`: an element, or a bitmap of the level below. -/
def InBound (N c : ℕ) : ℕ → ℕ → Prop
  | 0, idx => idx < c
  | i + 1, idx => idx < levelSize N c i

/-- All summary bits are up to date, save the one of position `idx` of level `i`. -/
def UpExcept (h : HierarchicalBitmap N) (c i idx : ℕ) : Prop :=
  ∀ i' < h.toplevel, ∀ j < levelSize N c i', ¬(i' + 1 = i ∧ j = idx) → UpOk h i' j

variable {idx : ℕ}

theorem Layout.div_lt (hl : Layout h c) (hb : InBound N c i idx) :
    idx / width N < levelSize N c i := by
  cases i with
  | zero => exact hl.first idx hb
  | succ i => exact hl.shrink i idx hb

section WriteStep

variable {b' : Bitmap N} {v : Bool}

/-- The new bitmap differs from the old one in the bit of `idx` only, which is now `v`. -/
def Rewrites (h : HierarchicalBitmap N) (i idx : ℕ) (b' : Bitmap N) (v : Bool) : Prop :=
  ∀ k, b'.test k = if k = idx % width N then v else (h.level i (idx / width N)).test k

theorem levelBit_rewrite (hl : Layout h c) (hi : i ≤ h.toplevel) (hb : InBound N c i idx)
    (hb' : Rewrites h i idx b' v) {i' : ℕ} (hi' : i' ≤ h.toplevel)
    (hk : k / width N < levelSize N c i') : (h.write i (idx / width N) b').levelBit i' k
      = if i' = i ∧ k = idx then v else h.levelBit i' k := by
  by_cases hsame : i' = i ∧ k / width N = idx / width N
  · obtain ⟨rfl, hdiv⟩ := hsame
    rw [levelBit, hdiv, level_write_self, hb', levelBit, hdiv]
    by_cases hm : k % width N = idx % width N
    · rw [if_pos hm, if_pos ⟨rfl, eq_of_div_mod hdiv hm⟩]
    · rw [if_neg hm, if_neg fun hc => hm (by rw [hc.2])]
  · rw [hl.levelBit_write hi hi' (hl.div_lt hb) hk hsame,
      if_neg fun hc => hsame ⟨hc.1, by rw [hc.2]⟩]

theorem inRange_rewrite (hl : Layout h c) (hr : InRange h c) (hi : i ≤ h.toplevel)
    (hb : InBound N c i idx) (hb' : Rewrites h i idx b' v) :
    InRange (h.write i (idx / width N) b') c := by
  refine ⟨fun k hk hbit => ?_, fun i' hi' k hk hbit => ?_⟩
  · rw [levelBit_rewrite hl hi hb hb' (Nat.zero_le _) hk] at hbit
    split at hbit
    · rename_i hc
      obtain ⟨rfl, rfl⟩ := hc
      exact hb
    · exact hr.elements k hk hbit
  · rw [levelBit_rewrite hl hi hb hb' hi' hk] at hbit
    split at hbit
    · rename_i hc
      obtain ⟨rfl, rfl⟩ := hc
      exact hb
    · exact hr.summaries i' hi' k hk hbit

/-- The rewrite brings the summary bit it writes up to date, and at most outdates the next one. -/
theorem upExcept_rewrite (hl : Layout h c) (hi : i ≤ h.toplevel) (hb : InBound N c i idx)
    (hb' : Rewrites h i idx b' v) (hv : ∀ i', i' + 1 = i → v = !(h.level i' idx).empty)
    (hup : UpExcept h c i idx) :
    UpExcept (h.write i (idx / width N) b') c (i + 1) (idx / width N) := by
  intro i' hi' j hj hne
  have hlev : (h.write i (idx / width N) b').level i' j = h.level i' j :=
    hl.level_write hi (le_of_lt hi') (hl.div_lt hb) hj (fun hc => hne ⟨by rw [hc.1], hc.2⟩) b'
  rw [UpOk, hlev, levelBit_rewrite hl hi hb hb' hi' (hl.shrink i' j hj)]
  by_cases hpend : i' + 1 = i ∧ j = idx
  · rw [if_pos hpend, hpend.2]
    exact hv i' hpend.1
  · rw [if_neg hpend]
    exact hup i' hi' j hj hpend

/-- If the bitmap was empty before exactly when it is empty now, its summary bit still holds. -/
theorem up_of_upExcept (hl : Layout h c) (hi : i ≤ h.toplevel) (hb : InBound N c i idx)
    (hb' : Rewrites h i idx b' v) (hup : UpExcept h c i idx)
    (hup' : UpExcept (h.write i (idx / width N) b') c (i + 1) (idx / width N))
    (he : (h.level i (idx / width N)).empty = b'.empty) :
    ∀ i' < h.toplevel, ∀ j < levelSize N c i', UpOk (h.write i (idx / width N) b') i' j := by
  intro i' hi' j hj
  by_cases hcur : i' + 1 = i + 1 ∧ j = idx / width N
  · obtain ⟨hii, rfl⟩ := hcur
    obtain rfl : i' = i := by omega
    have hold := hup i' hi' _ hj (by omega)
    rw [UpOk, level_write_self, ← he, ← hold,
      levelBit_rewrite hl hi hb hb' hi' (hl.shrink _ _ hj), if_neg (by omega)]
  · exact hup' i' hi' j hj hcur

end WriteStep

theorem rewrites_set (h : HierarchicalBitmap N) (hN : 0 < N) (i idx : ℕ) :
    Rewrites h i idx ((h.level i (idx / width N)).set (idx % width N)) true := by
  intro k
  have hlt : idx % width N < 64 * N := Nat.mod_lt _ (by simp only [width]; omega)
  rw [Bitmap.test_set _ hlt]
  by_cases hk : k = idx % width N
  · simp [hk]
  · rw [if_neg hk, decide_eq_false (Ne.symm hk), Bool.false_or]

theorem rewrites_clear (h : HierarchicalBitmap N) (i idx : ℕ) :
    Rewrites h i idx ((h.level i (idx / width N)).clear (idx % width N)) false := by
  intro k
  rw [Bitmap.test_clear]
  by_cases hk : k = idx % width N
  · simp [hk]
  · rw [if_neg hk, decide_eq_false (Ne.symm hk), Bool.not_false, Bool.true_and]

variable {b : Bitmap N}

theorem empty_eq_false_of_test (h : b.test k = true) : b.empty = false := by
  rw [Bool.eq_false_iff, Ne, Bitmap.empty_iff]
  intro hall
  rw [hall k] at h
  cases h

theorem exists_test_of_empty_eq_false (h : b.empty = false) : ∃ k, b.test k = true := by
  by_contra hno
  have : b.empty = true := (Bitmap.empty_iff b).mpr fun i => by
    simpa using not_exists.mp hno i
  rw [this] at h
  cases h

/-- What an update leaves behind: a valid bitmap whose elements are the old ones, save `idx`. -/
structure Updated (h h' : HierarchicalBitmap N) (c i idx : ℕ) (v : Bool) : Prop where
  valid : Valid h' c
  toplevel : h'.toplevel = h.toplevel
  elements : ∀ k, k / width N < levelSize N c 0 →
    h'.levelBit 0 k = if 0 = i ∧ k = idx then v else h.levelBit 0 k

/-- Past the topmost level nothing is left out of date. -/
theorem updated_refl (hl : Layout h c) (hr : InRange h c) (hi : i = h.toplevel + 1)
    (hup : UpExcept h c i idx) (v : Bool) : Updated h h c i idx v :=
  ⟨⟨hl, hr, fun i' hi' j hj => hup i' hi' j hj (by omega)⟩, rfl, fun k _ => by
    rw [if_neg (by omega)]⟩

/-- **The climb of `set`.**  Induction over the levels left; on entry every summary bit is up to
date save that of `idx` on level `i`, whose bitmap is not empty. -/
theorem setLoop_spec (hN : 0 < N) (n : ℕ) (hl : Layout h c) (hr : InRange h c)
    (hn : i + n = h.toplevel + 1) (hb : InBound N c i idx) (hup : UpExcept h c i idx)
    (hne : (∀ i', i' + 1 = i → (h.level i' idx).empty = false)) :
    Updated h (setLoop n i idx h) c i idx true := by
  induction n generalizing h c i idx with
  | zero => exact updated_refl hl hr (by omega) hup true
  | succ n ih =>
    have hi : i ≤ h.toplevel := by omega
    have hb' := rewrites_set h hN i idx
    have hv : ∀ i', i' + 1 = i → true = !(h.level i' idx).empty := fun i' hi' => by
      rw [hne i' hi']; rfl
    have hr' := inRange_rewrite hl hr hi hb hb'
    have hup' := upExcept_rewrite hl hi hb hb' hv hup
    have hset : ((h.level i (idx / width N)).set (idx % width N)).empty = false :=
      empty_eq_false_of_test (k := idx % width N) (by rw [hb', if_pos rfl])
    have hbits : ∀ k, k / width N < levelSize N c 0 →
        (h.write i (idx / width N) ((h.level i (idx / width N)).set (idx % width N))).levelBit 0 k
          = if 0 = i ∧ k = idx then true else h.levelBit 0 k :=
      fun k hk => levelBit_rewrite hl hi hb hb' (Nat.zero_le _) hk
    rw [setLoop]
    simp only [Bool.not_eq_true']
    split
    · rename_i hdone
      have hall := up_of_upExcept hl hi hb hb' hup hup' (hdone.trans hset.symm)
      have hlay := hl.write i (idx / width N) ((h.level i (idx / width N)).set (idx % width N))
      exact ⟨⟨hlay, hr', hall⟩, rfl, hbits⟩
    · have hnext : InBound N c (i + 1) (idx / width N) := hl.div_lt hb
      obtain ⟨hval, htop, hel⟩ := ih (hl.write ..) hr'
        (by simp only [toplevel_write]; omega) hnext hup' (fun i' hi' => by
          obtain rfl : i' = i := by omega
          rw [level_write_self]
          exact hset)
      refine ⟨hval, htop, fun k hk => ?_⟩
      rw [hel k hk, if_neg (by omega), hbits k hk]

/-- **The climb of `clear`.**  As for `set`, with an empty bitmap below the outdated summary bit. -/
theorem clearLoop_spec (n : ℕ) (hl : Layout h c) (hr : InRange h c) (hn : i + n = h.toplevel + 1)
    (hb : InBound N c i idx) (hup : UpExcept h c i idx)
    (hemp : (∀ i', i' + 1 = i → (h.level i' idx).empty = true)) :
    Updated h (clearLoop n i idx h) c i idx false := by
  induction n generalizing h c i idx with
  | zero => exact updated_refl hl hr (by omega) hup false
  | succ n ih =>
    have hi : i ≤ h.toplevel := by omega
    have hb' := rewrites_clear h i idx
    have hv : ∀ i', i' + 1 = i → false = !(h.level i' idx).empty := fun i' hi' => by
      rw [hemp i' hi']; rfl
    have hr' := inRange_rewrite hl hr hi hb hb'
    have hup' := upExcept_rewrite hl hi hb hb' hv hup
    have hbits : ∀ k, k / width N < levelSize N c 0 →
        (h.write i (idx / width N) ((h.level i (idx / width N)).clear (idx % width N))).levelBit 0 k
          = if 0 = i ∧ k = idx then false else h.levelBit 0 k :=
      fun k hk => levelBit_rewrite hl hi hb hb' (Nat.zero_le _) hk
    rw [clearLoop]
    simp only [Bool.not_eq_true']
    split
    · rename_i hleft
      have hbefore : (h.level i (idx / width N)).empty = false := by
        obtain ⟨k, hk⟩ := exists_test_of_empty_eq_false hleft
        rw [hb'] at hk
        split at hk
        · cases hk
        · exact empty_eq_false_of_test hk
      have hall := up_of_upExcept hl hi hb hb' hup hup' (hbefore.trans hleft.symm)
      have hlay := hl.write i (idx / width N) ((h.level i (idx / width N)).clear (idx % width N))
      exact ⟨⟨hlay, hr', hall⟩, rfl, hbits⟩
    · rename_i hleft
      have hnext : InBound N c (i + 1) (idx / width N) := hl.div_lt hb
      obtain ⟨hval, htop, hel⟩ := ih (hl.write ..) hr'
        (by simp only [toplevel_write]; omega) hnext hup' (fun i' hi' => by
          obtain rfl : i' = i := by omega
          rw [level_write_self]
          simpa using hleft)
      refine ⟨hval, htop, fun k hk => ?_⟩
      rw [hel k hk, if_neg (by omega), hbits k hk]

theorem Valid.upExcept (hv : Valid h c) (idx : ℕ) : UpExcept h c 0 idx :=
  fun i' hi' j hj _ => hv.up i' hi' j hj

/-- **`set` adds one element.** -/
theorem set_spec (hN : 0 < N) (hv : Valid h c) (hidx : idx < c) :
    Valid (h.set idx) c ∧ ∀ k < c, (h.set idx).test k = (decide (k = idx) || h.test k) := by
  obtain ⟨hval, -, hel⟩ := setLoop_spec hN (h.toplevel + 1) hv.layout hv.inRange (zero_add _)
    (show InBound N c 0 idx from hidx) (hv.upExcept idx) (fun i' hi' => by omega)
  refine ⟨hval, fun k hk => ?_⟩
  rw [test_eq_levelBit, set, hel k (hv.layout.first k hk), test_eq_levelBit]
  by_cases hki : k = idx <;> simp [hki]

/-- **`clear` removes one element.** -/
theorem clear_spec (hv : Valid h c) (hidx : idx < c) :
    Valid (h.clear idx) c ∧ ∀ k < c, (h.clear idx).test k = (!decide (k = idx) && h.test k) := by
  obtain ⟨hval, -, hel⟩ := clearLoop_spec (h.toplevel + 1) hv.layout hv.inRange (zero_add _)
    (show InBound N c 0 idx from hidx) (hv.upExcept idx) (fun i' hi' => by omega)
  refine ⟨hval, fun k hk => ?_⟩
  rw [test_eq_levelBit, clear, hel k (hv.layout.first k hk), test_eq_levelBit]
  by_cases hki : k = idx <;> simp [hki]

/-! ## The descent

Below a set summary bit there is a non-empty bitmap, so the descent only stops at the top. -/

/-- The bit of level `i` that `(j, l)` addresses, bitmap and offset. -/
theorem levelBit_mul_add (h : HierarchicalBitmap N) (i j : ℕ) {l : ℕ} (hl : l < width N) :
    h.levelBit i (j * width N + l) = (h.level i j).test l := by
  have h1 : (j * width N + l) / width N = j := by
    rw [mul_comm, Nat.mul_add_div (by omega), Nat.div_eq_of_lt hl, add_zero]
  have h2 : (j * width N + l) % width N = l := by
    rw [mul_comm, Nat.mul_add_mod, Nat.mod_eq_of_lt hl]
  rw [levelBit, h1, h2]

theorem level_empty_iff (h : HierarchicalBitmap N) (i j : ℕ) :
    (h.level i j).empty = true ↔ ∀ k, k / width N = j → h.levelBit i k = false := by
  rw [Bitmap.empty_iff]
  constructor
  · intro hall k hk
    rw [levelBit, hk]
    exact hall _
  · intro hall l
    by_contra hne
    have ht : (h.level i j).test l = true := by simpa using hne
    have hlt : l < width N := Bitmap.lt_of_test ht
    have := hall (j * width N + l) (by
      rw [mul_comm, Nat.mul_add_div (by omega), Nat.div_eq_of_lt hlt, add_zero])
    rw [levelBit_mul_add h i j hlt, ht] at this
    cases this

/-- The ancestors of an element, level by level. -/
def ancestor (N : ℕ) (k : ℕ) : ℕ → ℕ
  | 0 => k
  | i + 1 => ancestor N k i / width N

theorem Valid.ancestor_set (hv : Valid h c) (hk : k < c) (hset : h.test k = true) :
    ∀ i ≤ h.toplevel, InBound N c i (ancestor N k i) ∧ h.levelBit i (ancestor N k i) = true := by
  intro i hi
  induction i with
  | zero => exact ⟨hk, hset⟩
  | succ i ih =>
    obtain ⟨hb, hbit⟩ := ih (by omega)
    have hlt := hv.layout.div_lt hb
    refine ⟨hlt, ?_⟩
    rw [ancestor, hv.up i (by omega) _ hlt, empty_eq_false_of_test hbit]
    rfl

/-- `scan` finds the first bit of a bitmap in the order `r`. -/
structure Scans (scan : Bitmap N → ℕ) (r : ℕ → ℕ → Prop) : Prop where
  first : ∀ {b : Bitmap N}, b.empty = false → b.test (scan b) = true ∧ ∀ k, b.test k = true →
    r (scan b) k
  total : ∀ a b, r a b ∨ r b a
  antisymm : ∀ {a b}, r a b → r b a → a = b
  add : ∀ {a b} c, r a b → r (c + a) (c + b)
  div : ∀ {a b} c, r a b → r (a / c) (b / c)

theorem scans_findset : Scans (Bitmap.findset (N := N)) (· ≤ ·) where
  first := Bitmap.findset_first
  total := Nat.le_total
  antisymm := Nat.le_antisymm
  add := fun c h => Nat.add_le_add_left h c
  div := fun _ h => Nat.div_le_div_right h

theorem scans_findsetRev : Scans (Bitmap.findsetRev (N := N)) (· ≥ ·) where
  first := Bitmap.findsetRev_spec
  total := fun a b => Nat.le_total b a
  antisymm := fun hab hba => Nat.le_antisymm hba hab
  add := fun c h => Nat.add_le_add_left h c
  div := fun _ h => Nat.div_le_div_right h

section Descent

variable {scan : Bitmap N → ℕ} {r : ℕ → ℕ → Prop}

theorem Scans.ancestor (hs : Scans scan r) {k' : ℕ} (h : r k k') (i : ℕ) :
    r (ancestor N k i) (ancestor N k' i) := by
  induction i with
  | zero => exact h
  | succ i ih => exact hs.div _ ih

/-- The first bit of a bitmap that is not empty, as a bit of its level. -/
theorem Scans.levelBit (hs : Scans scan r) (hne : (h.level i j).empty = false) :
    scan (h.level i j) < width N ∧ h.levelBit i (j * width N + scan (h.level i j)) = true ∧
      (j * width N + scan (h.level i j)) / width N = j ∧
      ∀ k, k / width N = j → h.levelBit i k = true → r (j * width N + scan (h.level i j)) k := by
  obtain ⟨hbit, hfirst⟩ := hs.first hne
  have hlt : scan (h.level i j) < width N := Bitmap.lt_of_test hbit
  refine ⟨hlt, by rw [levelBit_mul_add h i j hlt, hbit], ?_, fun k hk hset => ?_⟩
  · rw [mul_comm, Nat.mul_add_div (by omega), Nat.div_eq_of_lt hlt, add_zero]
  · rw [HierarchicalBitmap.levelBit, hk] at hset
    have := hs.add (j * width N) (hfirst _ hset)
    rwa [← hk, mul_comm, Nat.div_add_mod, mul_comm, hk] at this

/-- **The descent from level `i` finds the first element below a bitmap that is not empty.** -/
theorem Scans.descend (hs : Scans scan r) (hv : Valid h c) (i : ℕ) (hi : i ≤ h.toplevel)
    (hj : j < levelSize N c i) (hne : (h.level i j).empty = false) :
    h.descend scan i j < c ∧ h.test (h.descend scan i j) = true ∧
      HierarchicalBitmap.ancestor N (h.descend scan i j) (i + 1) = j ∧
      ∀ k < c, HierarchicalBitmap.ancestor N k (i + 1) = j → h.test k = true →
      r (h.descend scan i j) k := by
  induction i generalizing j with
  | zero =>
    obtain ⟨hlt, hset, hdiv, hfirst⟩ := hs.levelBit hne
    have hval : h.descend scan 0 j = j * width N + scan (h.level 0 j) := by
      rw [HierarchicalBitmap.descend]
      simp only [hlt.ne, if_false]
    rw [hval]
    exact ⟨hv.inRange.elements _ (by rw [hdiv]; exact hj) hset, hset, hdiv,
      fun k _ hanc hk => hfirst k hanc hk⟩
  | succ i ih =>
    obtain ⟨hlt, hset, hdiv, hfirst⟩ := hs.levelBit hne
    have hval : h.descend scan (i + 1) j
        = h.descend scan i (j * width N + scan (h.level (i + 1) j)) := by
      rw [HierarchicalBitmap.descend]
      simp only [hlt.ne, if_false]
    have hin := hv.inRange.summaries i (by omega) _ (by rw [hdiv]; exact hj) hset
    have hdown : (h.level i (j * width N + scan (h.level (i + 1) j))).empty = false := by
      have := hv.up i (by omega) _ hin
      rw [UpOk, hset] at this
      simpa using this.symm
    obtain ⟨hc, ht, hanc, hleast⟩ := ih (by omega) hin hdown
    rw [hval]
    refine ⟨hc, ht, by rw [HierarchicalBitmap.ancestor, hanc, hdiv], fun k hk hkanc hkset => ?_⟩
    -- the summary bit above `k` is set, so it does not come before the one the descent took
    have hge := hfirst _ hkanc (hv.ancestor_set hk hkset (i + 1) hi).2
    rcases hs.total (h.descend scan i (j * width N + scan (h.level (i + 1) j))) k with hle | hle
    · exact hle
    · have hanc' := hs.ancestor hle (i + 1)
      rw [hanc] at hanc'
      exact hleast k hk (hs.antisymm hanc' hge) hkset

/-- The descent from the top. -/
theorem Scans.top (hs : Scans scan r) (hv : Valid h c) (hne : h.empty = false) :
    h.descend scan h.toplevel 0 < c ∧ h.test (h.descend scan h.toplevel 0) = true ∧
      ∀ k < c, h.test k = true → r (h.descend scan h.toplevel 0) k := by
  obtain ⟨hc, ht, -, hfirst⟩ := hs.descend hv h.toplevel le_rfl
    (by rw [hv.layout.top]; exact Nat.one_pos) hne
  refine ⟨hc, ht, fun k hk hset => hfirst k hk ?_ hset⟩
  have := hv.layout.div_lt (hv.ancestor_set hk hset h.toplevel le_rfl).1
  rwa [hv.layout.top, Nat.lt_one_iff] at this

end Descent

theorem findsetLoop_eq (h : HierarchicalBitmap N) (i : ℕ) (j) :
    h.findsetLoop i j = h.descend Bitmap.findset i j := by
  induction i generalizing j with
  | zero => rfl
  | succ i ih => simp only [findsetLoop, descend, ih]

theorem Valid.empty_iff (hv : Valid h c) : h.empty = true ↔ ∀ k < c, h.test k = false := by
  constructor
  · intro he k hk
    by_contra hne
    obtain ⟨hb, hbit⟩ := hv.ancestor_set hk (by simpa using hne) h.toplevel le_rfl
    have h0 : ancestor N k h.toplevel / width N = 0 := by
      have := hv.layout.div_lt hb
      rwa [hv.layout.top, Nat.lt_one_iff] at this
    rw [levelBit, h0, (Bitmap.empty_iff _).mp he] at hbit
    cases hbit
  · intro hall
    by_contra hne
    obtain ⟨hc, ht, -⟩ := scans_findset.top hv (by simpa using hne)
    rw [hall _ hc] at ht
    cases ht

/-- **`findset` returns the least element**, if there is one. -/
theorem findset_spec (hv : Valid h c) (hne : h.empty = false) :
    h.findset < c ∧ h.test h.findset = true ∧ ∀ k < c, h.test k = true → h.findset ≤ k := by
  rw [findset, findsetLoop_eq]
  exact scans_findset.top hv hne

/-- **`findset_rev` returns the greatest element**, if there is one. -/
theorem findsetRev_spec (hv : Valid h c) (hne : h.empty = false) :
    h.findsetRev < c ∧ h.test h.findsetRev = true ∧ ∀ k < c, h.test k = true → k ≤ h.findsetRev :=
  scans_findsetRev.top hv hne

/-- …and `limit<mword>()` if there is none. -/
theorem findset_eq_limit_iff (hv : Valid h c) (hc : c ≤ limit) : h.findset = limit ↔
      h.empty = true := by
  constructor
  · intro he
    by_contra hne
    have := (findset_spec hv (by simpa using hne)).1
    omega
  · intro he
    have hfs : (h.level h.toplevel 0).findset = width N := (Bitmap.findset_eq_iff _).mpr he
    rw [findset]
    cases ht : h.toplevel with
    | zero => rw [ht] at hfs; simp [findsetLoop, hfs]
    | succ t => rw [ht] at hfs; simp [findsetLoop, hfs]

end HierarchicalBitmap

end Kos
