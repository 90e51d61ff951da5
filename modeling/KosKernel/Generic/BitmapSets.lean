import KosKernel.Generic.HierarchicalBitmap
import Mathlib.Data.Finset.Basic
import Mathlib.Data.Set.Lattice
import Mathlib.Order.CompletePartialOrder
import Mathlib.Order.Interval.Set.Basic

/-!
# Generic/BitmapSets — hierarchical bitmaps as finite sets

A `HierarchicalBitmap<B,W>` after any calls of `set` and `clear` is the finite set that the same
calls build (`hierarchicalBitmap_refines_set`).  `findset_rev` reads the greatest element of a set
that is not empty; the scan of a bitmap of several words has no value for an empty one
(`findsetRev_ok_iff`).

`bitmaps` has `divup(W, logB)` entries.  Level `toplevel` is one above the last level with more than
one bitmap, so a width of `2 ^ W` needs one entry more than that (`sized_iff`).
-/

namespace Kos

namespace HierarchicalBitmap

variable {N : ℕ}

/-! ## Calls -/

inductive SetOp
  | set (idx : ℕ)
  | clear (idx : ℕ)

namespace SetOp

def idx : SetOp → ℕ
  | .set i | .clear i => i

/-- The call on a bitmap. -/
def onBitmap (h : HierarchicalBitmap N) : SetOp → HierarchicalBitmap N
  | .set i => h.set i
  | .clear i => h.clear i

/-- The call on a set. -/
def onSet (s : Finset ℕ) : SetOp → Finset ℕ
  | .set i => insert i s
  | .clear i => s.erase i

end SetOp

/-- The bitmap after calls. -/
def after (h : HierarchicalBitmap N) (ops : List SetOp) : HierarchicalBitmap N :=
  ops.foldl SetOp.onBitmap h

/-- The set that calls build. -/
def setOf (ops : List SetOp) : Finset ℕ := ops.foldl SetOp.onSet ∅

/-- A bitmap for `c` elements holds the set `s`. -/
structure Holds (h : HierarchicalBitmap N) (c : ℕ) (s : Finset ℕ) : Prop where
  valid : Valid h c
  test : ∀ k < c, h.test k = true ↔ k ∈ s
  bound : ∀ k ∈ s, k < c

variable {h : HierarchicalBitmap N} {c : ℕ} {s : Finset ℕ} {op : SetOp}

theorem Holds.step (hh : Holds h c s) (hN : 0 < N) (hop : op.idx < c) :
    Holds (op.onBitmap h) c (op.onSet s) := by
  cases op with
  | set i =>
    have hop : i < c := hop
    obtain ⟨hvalid, htest⟩ := set_spec hN hh.valid hop
    refine ⟨hvalid, fun k hk => ?_, fun k hk => ?_⟩
    · rw [SetOp.onBitmap, htest k hk, SetOp.onSet, Finset.mem_insert, Bool.or_eq_true,
        decide_eq_true_eq, hh.test k hk]
    · rcases Finset.mem_insert.mp hk with rfl | hk
      · exact hop
      · exact hh.bound k hk
  | clear i =>
    have hop : i < c := hop
    obtain ⟨hvalid, htest⟩ := clear_spec hh.valid hop
    refine ⟨hvalid, fun k hk => ?_, fun k hk => hh.bound k (Finset.mem_of_mem_erase hk)⟩
    rw [SetOp.onBitmap, htest k hk, SetOp.onSet, Finset.mem_erase, Bool.and_eq_true,
      Bool.not_eq_true', decide_eq_false_iff_not, hh.test k hk]

theorem Holds.after (hN : 0 < N) (ops : List SetOp) : ∀ {h : HierarchicalBitmap N} {s : Finset ℕ},
    Holds h c s → (∀ op ∈ ops, op.idx < c) → Holds (h.after ops) c (ops.foldl SetOp.onSet s) := by
  induction ops with
  | nil => exact fun hh _ => hh
  | cons op ops ih =>
    intro h s hh hops
    exact ih (hh.step hN (hops op List.mem_cons_self)) fun op' hop' =>
      hops op' (List.mem_cons_of_mem _ hop')

/-- **Every bitmap that calls on a fresh one lead to holds the set that they build.** -/
theorem holds_after (hN : 0 < N) {cap : ℕ} (hc : 0 < c) (hlt : c < wordSize)
    (hinit : init N cap c = some h) {ops : List SetOp} (hops : ∀ op ∈ ops, op.idx < c) :
    Holds (h.after ops) c (setOf ops) := by
  obtain ⟨hvalid, htest⟩ := init_valid hc hlt hinit
  have hempty : Holds h c ∅ := ⟨hvalid, fun k _ => by simp [htest k], nofun⟩
  exact hempty.after hN ops hops

theorem Holds.empty_iff (hh : Holds h c s) : h.empty = true ↔ s = ∅ := by
  rw [hh.valid.empty_iff, Finset.eq_empty_iff_forall_notMem]
  constructor
  · intro hall k hk
    have hbit := (hh.test k (hh.bound k hk)).mpr hk
    rw [hall k (hh.bound k hk)] at hbit
    cases hbit
  · intro hall k hk
    by_contra hbit
    exact hall k ((hh.test k hk).mp (by simpa using hbit))

/-! ## The set -/

/-- **What a finite set answers**: the summaries, membership, emptiness and the least element. -/
structure Represents (h : HierarchicalBitmap N) (c : ℕ) (s : Finset ℕ) : Prop where
  /-- A bit above the elements is set iff the bitmap below it has a bit. -/
  summary : ∀ i < h.toplevel, ∀ j < levelSize N c i,
    h.levelBit (i + 1) j = true ↔ ∃ l, (h.level i j).test l = true
  /-- No other bit is set. -/
  outside : ∀ i < h.toplevel, ∀ j, j / width N < levelSize N c (i + 1) → levelSize N c i ≤ j →
    h.levelBit (i + 1) j = false
  test : ∀ k < c, h.test k = true ↔ k ∈ s
  empty : h.empty = true ↔ s = ∅
  none : h.findset = limit ↔ s = ∅
  least : s.Nonempty → IsLeast (s : Set ℕ) h.findset

theorem exists_test_iff {b : Bitmap N} : (∃ k, b.test k = true) ↔ b.empty = false :=
  ⟨fun ⟨_, hk⟩ => empty_eq_false_of_test hk, exists_test_of_empty_eq_false⟩

theorem Holds.represents (hh : Holds h c s) (hlt : c < wordSize) : Represents h c s where
  summary := fun i hi j hj => by
    rw [hh.valid.up i hi j hj, exists_test_iff, Bool.not_eq_true']
  outside := fun i hi j hj hge => by
    by_contra hbit
    exact absurd (hh.valid.inRange.summaries i hi j hj (by simpa using hbit)) (by omega)
  test := hh.test
  empty := hh.empty_iff
  none := by rw [findset_eq_limit_iff hh.valid (by rw [limit]; omega), hh.empty_iff]
  least := fun hne => by
    have hempty : h.empty = false := by
      rw [Bool.eq_false_iff, Ne, hh.empty_iff]
      exact hne.ne_empty
    obtain ⟨hc, hset, hleast⟩ := findset_spec hh.valid hempty
    exact ⟨(hh.test _ hc).mp hset,
      fun k hk => hleast k (hh.bound k hk) ((hh.test k (hh.bound k hk)).mpr hk)⟩

/-- The width of bitmaps of `2 ^ (k - 6)` words. -/
theorem width_two_pow {k : ℕ} (hk : 6 ≤ k) : width (2 ^ (k - 6)) = 2 ^ k := by
  rw [width, show 64 = 2 ^ 6 from rfl, ← pow_add]
  congr 1
  omega

/-- **A hierarchical bitmap is a finite set**, for every width `B = 2 ^ k` of the elementary bitmaps
and every number of elements whose levels fit `bitmaps`. -/
theorem hierarchicalBitmap_refines_set {k W c : ℕ} {h : HierarchicalBitmap (2 ^ (k - 6))}
    (hk : 6 ≤ k) (hc : 1 ≤ c) (hlt : c < wordSize)
    (hinit : init (2 ^ (k - 6)) (divup W k) c = some h) {ops : List SetOp}
    (hops : ∀ op ∈ ops, op.idx < c) :
    width (2 ^ (k - 6)) = 2 ^ k ∧ Represents (h.after ops) c (setOf ops) :=
  ⟨width_two_pow hk, (holds_after (Nat.two_pow_pos _) hc hlt hinit hops).represents hlt⟩

/-- 64 elements in bitmaps of one word, with a call made twice. -/
theorem hierarchicalBitmap_refines_set_64 : ∃ h, init (2 ^ (6 - 6)) (divup 12 6) 64 = some h ∧
    width (2 ^ (6 - 6)) = 2 ^ 6 ∧
      Represents (h.after [.set 63, .set 5, .set 5, .clear 63, .clear 7]) 64 {5} :=
  ⟨_, rfl,
    hierarchicalBitmap_refines_set (k := 6) (W := 12) (by decide) (by decide) (by decide) rfl
    (by decide)⟩

/-! ## The greatest element -/

/-- `findset_rev` by the conventions of `findset`. -/
structure RevOk (h : HierarchicalBitmap N) (s : Finset ℕ) : Prop where
  none : h.findsetRev = limit ↔ s = ∅
  greatest : s.Nonempty → IsGreatest (s : Set ℕ) h.findsetRev

/-- `findset_rev` of one bitmap by the conventions of `findset`. -/
structure BitRevOk (b : Bitmap N) : Prop where
  none : b.findsetRev = 64 * N ↔ ∀ k, b.test k = false
  greatest : (∃ k, b.test k = true) → IsGreatest {k | b.test k = true} b.findsetRev

theorem Holds.isGreatest (hh : Holds h c s) (hne : s.Nonempty) :
    h.findsetRev < c ∧ IsGreatest (s : Set ℕ) h.findsetRev := by
  have hempty : h.empty = false := by
    rw [Bool.eq_false_iff, Ne, hh.empty_iff]
    exact hne.ne_empty
  obtain ⟨hc, hset, hgreat⟩ := findsetRev_spec hh.valid hempty
  exact ⟨hc, (hh.test _ hc).mp hset,
    fun k hk => hgreat k (hh.bound k hk) ((hh.test k (hh.bound k hk)).mpr hk)⟩

/-- Without elements every bitmap is empty. -/
theorem Valid.level_empty (hv : Valid h c) (hall : ∀ k < c, h.test k = false) :
    ∀ i ≤ h.toplevel, ∀ j < levelSize N c i, (h.level i j).empty = true := by
  intro i
  induction i with
  | zero =>
    intro _ j hj
    refine (level_empty_iff h 0 j).mpr fun k hk => ?_
    by_contra hbit
    have hkc := hv.inRange.elements k (by rw [hk]; exact hj) (by simpa using hbit)
    exact hbit (by rw [← test_eq_levelBit]; exact hall k hkc)
  | succ i ih =>
    intro hi j hj
    refine (level_empty_iff h (i + 1) j).mpr fun k hk => ?_
    by_contra hbit
    have hbit : h.levelBit (i + 1) k = true := by simpa using hbit
    have hks := hv.inRange.summaries i (by omega) k (by rw [hk]; exact hj) hbit
    rw [hv.up i (by omega) k hks, ih (by omega) k hks] at hbit
    cases hbit

/-- On bitmaps of several words the descent goes down to the first element of an empty set. -/
theorem Valid.descend_of_empty (hv : Valid h c) (hN : 1 < N) (hall : ∀ k < c, h.test k = false) :
    ∀ i ≤ h.toplevel, h.descend Bitmap.findsetRev i 0 = 0 := by
  have hw : 0 ≠ width N := by simp only [width]; omega
  have hzero (i : ℕ) (hi : i ≤ h.toplevel) : (h.level i 0).findsetRev = 0 :=
    Bitmap.findsetRev_of_empty (by omega) (hv.level_empty hall i hi 0 (levelSize_pos N c i))
  intro i
  induction i with
  | zero =>
    intro hi
    rw [descend]
    simp only [hzero 0 hi, hw, if_false, zero_mul, zero_add]
  | succ i ih =>
    intro hi
    rw [descend]
    simp only [hzero (i + 1) hi, hw, if_false, zero_mul, zero_add]
    exact ih (by omega)

theorem findsetRev_of_empty_one {h : HierarchicalBitmap 1} (he : h.empty = true) :
    h.findsetRev = limit := by
  have hfs : (h.level h.toplevel 0).findsetRev = width 1 := Bitmap.findsetRev_of_empty_one he
  rw [findsetRev]
  cases ht : h.toplevel with
  | zero => rw [ht] at hfs; simp [descend, hfs]
  | succ t => rw [ht] at hfs; simp [descend, hfs]

theorem Holds.revOk_iff (hh : Holds h c s) (hN : 0 < N) (hlt : c < wordSize) :
    RevOk h s ↔ N = 1 ∨ s.Nonempty := by
  rcases s.eq_empty_or_nonempty with rfl | hne
  · have hempty := hh.empty_iff.mpr rfl
    rw [or_iff_left Finset.not_nonempty_empty]
    constructor
    · intro hrev
      by_contra hN1
      have hzero :=
        hh.valid.descend_of_empty (by omega) (hh.valid.empty_iff.mp hempty) h.toplevel le_rfl
      have hlim : h.findsetRev = limit := hrev.none.mpr rfl
      rw [findsetRev, hzero] at hlim
      exact absurd hlim (by decide)
    · rintro rfl
      exact ⟨iff_of_true (findsetRev_of_empty_one hempty) rfl,
        fun h => absurd h Finset.not_nonempty_empty⟩
  · rw [or_iff_right_of_imp fun _ => hne]
    refine iff_of_true ⟨iff_of_false ?_ hne.ne_empty, fun hne => (hh.isGreatest hne).2⟩ hne
    have := (hh.isGreatest hne).1
    rw [limit]
    omega

theorem bitRevOk_iff {b : Bitmap N} (hN : 1 < N) : BitRevOk b ↔ ∃ k, b.test k = true := by
  constructor
  · intro hrev
    by_contra hno
    have hall : ∀ k, b.test k = false := fun k => by simpa using not_exists.mp hno k
    have hzero := Bitmap.findsetRev_of_empty (by omega) (b.empty_iff.mpr hall)
    have hfull : b.findsetRev = 64 * N := hrev.none.mpr hall
    omega
  · intro hex
    obtain ⟨hset, hgreat⟩ := Bitmap.findsetRev_spec (exists_test_iff.mp hex)
    refine ⟨iff_of_false ?_ fun hall => ?_, fun _ => ⟨hset, fun k hk => hgreat k hk⟩⟩
    · have := Bitmap.lt_of_test hset
      omega
    · obtain ⟨k, hk⟩ := hex
      rw [hall k] at hk
      cases hk

/-- **`findset_rev` follows the conventions of `findset` exactly when there is something to find**,
or the elementary bitmaps have one word. -/
theorem findsetRev_ok_iff {k W c : ℕ} {h : HierarchicalBitmap (2 ^ (k - 6))} {ops : List SetOp}
    (hk : 6 ≤ k) (hc : 1 ≤ c) (hlt : c < wordSize)
    (hinit : init (2 ^ (k - 6)) (divup W k) c = some h) (hops : ∀ op ∈ ops, op.idx < c) {N : ℕ}
    (b : Bitmap N) (hN : 1 < N) :
    (RevOk (h.after ops) (setOf ops) ↔ k = 6 ∨ (setOf ops).Nonempty) ∧
      (BitRevOk b ↔ ∃ k, b.test k = true) := by
  refine ⟨?_, bitRevOk_iff hN⟩
  rw [(holds_after (Nat.two_pow_pos _) hc hlt hinit hops).revOk_iff (Nat.two_pow_pos _) hlt,
    Nat.pow_eq_one, show (2 = 1 ∨ k - 6 = 0) ↔ k = 6 by omega]

/-- Bitmaps of eight words with one element, and one such bitmap. -/
theorem findsetRev_ok_512 : (∃ h, init (2 ^ (9 - 6)) (divup 40 9) 1024 = some h ∧
    RevOk (h.after [.set 700]) {700}) ∧ BitRevOk ((Bitmap.zero : Bitmap 8).set 5) :=
  let ⟨hset, hbit⟩ :=
    findsetRev_ok_iff (k := 9) (W := 40) (c := 1024) (by decide) (by decide) (by decide) rfl
    (by decide) ((Bitmap.zero : Bitmap 8).set 5) (by decide)
  ⟨⟨_, rfl, hset.mpr (.inr (by decide))⟩, hbit.mpr ⟨5, by decide⟩⟩

/-- A fresh bitmap of 1024 elements seems to have the element 0, and so does a bitmap of eight
words. -/
theorem findsetRev_empty_512 :
    (∃ h, init (2 ^ (9 - 6)) (divup 40 9) 1024 = some h ∧ h.empty = true ∧ h.findsetRev = 0) ∧
      (Bitmap.zero : Bitmap 8).empty = true ∧
      (Bitmap.zero : Bitmap 8).findsetRev = 0 :=
  ⟨⟨_, rfl, by decide, by decide⟩, by decide, by decide⟩

/-! ## The levels in the array -/

theorem divup_width_lt (hN : N ≠ 0) (hc : width N ≤ c) : divup c (width N) < c := by
  have hw : 64 ≤ width N := by
    simp only [width]
    omega
  have hle : wsub c 1 ≤ c - 1 := by
    unfold wsub wordSize
    omega
  have hdiv : wsub c 1 / width N < c - 1 :=
    (Nat.div_le_div_right hle).trans_lt (Nat.div_lt_self (by omega) (by omega))
  rw [divup]
  omega

/-- `size`: the number of bitmaps that `allocsize` reserves. -/
def size (N bitcount : ℕ) : ℕ :=
  if bitcount < width N ∨ N = 0 then width N
  else divup bitcount (width N) + size N (divup bitcount (width N))
termination_by bitcount
decreasing_by
  rename_i hge
  exact divup_width_lt (fun hN => hge (.inr hN)) (not_lt.mp fun hlt => hge (.inl hlt))

/-- `allocsize`, in bytes. -/
def allocsize (N bitcount : ℕ) : ℕ := 8 * N * size N bitcount

theorem width_le_size (N c : ℕ) : width N ≤ size N c := by
  fun_induction size N c with
  | case1 c h => exact le_rfl
  | case2 c h ih => exact ih.trans (Nat.le_add_left _ _)

/-- The last bitmap that `init` lays out is one of those reserved. -/
theorem initLoop_size (hN : 0 < N) (room : ℕ) : ∀ {c t t' : ℕ} {bm bm' : ℕ → ℕ}, 0 < c →
      c < wordSize → initLoop N room c bm t = some (bm', t') → bm' t' + 1 ≤ bm t + size N c := by
  have hw : 64 ≤ width N := by
    simp only [width]
    omega
  induction room with
  | zero => intro c t t' bm bm' _ _ h; cases h
  | succ room ih =>
    intro c t t' bm bm' hc hlt h
    have hd : divup c (width N) = (c - 1) / width N + 1 := divup_of_pos hc hlt
    rw [initLoop] at h
    simp only [gt_iff_lt] at h
    split at h
    case isTrue hmore =>
      have hlast := ih (by omega) (lt_of_le_of_lt (divup_le hc hlt) hlt) h
      rw [Function.update_self] at hlast
      have hge : ¬(c < width N ∨ N = 0) := by
        rintro (hsmall | hzero)
        · rw [hd, Nat.div_eq_of_lt (by omega)] at hmore
          omega
        · omega
      rw [size, if_neg hge]
      omega
    case isFalse hone =>
      cases h
      rw [Function.update_self]
      have := width_le_size N c
      omega

theorem initLoop_toplevel_le (room : ℕ) {t t' : ℕ} {bm bm' : ℕ → ℕ}
    (h : initLoop N room c bm t = some (bm', t')) : t' ≤ t + room := by
  induction room generalizing c t t' bm bm' with
  | zero => cases h
  | succ room ih =>
    rw [initLoop] at h
    simp only [gt_iff_lt] at h
    split at h
    case isTrue => have := ih h; omega
    case isFalse =>
      cases h
      omega

/-- The elements of the array that level `i` occupies. -/
def segment (h : HierarchicalBitmap N) (c i : ℕ) : Set ℕ :=
  Set.Ico (h.bitmaps i) (h.bitmaps i + levelSize N c i)

/-- **`init` has laid out the levels in the arrays that it has**, `bitmaps` of `cap` entries and
`size` elementary bitmaps. -/
structure Sized (h : HierarchicalBitmap N) (cap c : ℕ) : Prop where
  toplevel : h.toplevel < cap
  disjoint : ∀ {i j}, i ≤ h.toplevel → j ≤ h.toplevel → i ≠ j →
    Disjoint (h.segment c i) (h.segment c j)
  reserved : ∀ i ≤ h.toplevel, h.segment c i ⊆ Set.Iio (size N c)
  /-- `ancestor N k i` is `idx` at level `i` of the loops of `set` and `clear`. -/
  touched : ∀ k < c, ∀ i ≤ h.toplevel, h.bitmaps i + ancestor N k i / width N ∈ h.segment c i

theorem Layout.inBound_ancestor (hl : Layout h c) {k : ℕ} (hk : k < c) (i : ℕ) :
    InBound N c i (ancestor N k i) := by
  induction i with
  | zero => exact hk
  | succ i ih => exact hl.div_lt ih

theorem init_sized (hN : 0 < N) {cap : ℕ} (hcap : 0 < cap) (hc : 0 < c) (hlt : c < wordSize)
    (hinit : init N cap c = some h) : Sized h cap c := by
  have hl := init_layout hc hlt hinit
  obtain ⟨⟨bm, t⟩, hloop, rfl⟩ := Option.map_eq_some_iff.mp hinit
  have htop := initLoop_toplevel_le _ hloop
  have hsize := initLoop_size hN _ hc hlt hloop
  have hend (i : ℕ) (hi : i ≤ t) : bm i + levelSize N c i ≤ size N c := by
    rcases hi.eq_or_lt with rfl | hi
    · have : levelSize N c i = 1 := hl.top
      omega
    · have : bm i + levelSize N c i ≤ bm t := hl.end_le hi le_rfl
      omega
  refine ⟨by show t < cap; omega, fun {i j} hi hj hij => ?_,
    fun i hi x hx => hx.2.trans_le (hend i hi), fun k hk i hi => ⟨Nat.le_add_right _ _, ?_⟩⟩
  · rw [Set.disjoint_left]
    rintro x ⟨hxi, hxi'⟩ ⟨hxj, hxj'⟩
    rcases lt_or_gt_of_ne hij with hlt' | hlt'
    · have := hl.end_le hlt' hj
      omega
    · have := hl.end_le hlt' hi
      omega
  · exact Nat.add_lt_add_left (hl.div_lt (hl.inBound_ancestor hk i)) _

/-- **The arrays are large enough exactly when one entry of `bitmaps` is left for the top**,
whatever the width `2 ^ W` says. -/
theorem sized_iff {k W c : ℕ} (hk : 6 ≤ k) (hW : k ≤ W) (hWlt : W < wordSize) (hc : 1 ≤ c)
    (hlt : c < wordSize) :
    (∃ h, init (2 ^ (k - 6)) (divup W k) c = some h ∧ Sized h (divup W k) c) ↔
      k < W ∧ c ≤ (2 ^ k) ^ (divup W k - 1) := by
  have hN := Nat.two_pow_pos (k - 6)
  have hfits := initLoop_isSome hN (divup W k - 1) (fun _ => 0) 0 hc hlt
  rw [width_two_pow hk] at hfits
  have hroom : 0 < divup W k - 1 ↔ k < W := by
    rw [divup_of_pos (by omega) hWlt, Nat.add_sub_cancel, Nat.div_pos_iff]
    omega
  rw [hroom] at hfits
  rw [← hfits]
  constructor
  · rintro ⟨h, hinit, -⟩
    obtain ⟨r, hloop, -⟩ := Option.map_eq_some_iff.mp hinit
    rw [hloop]
    rfl
  · intro hsome
    obtain ⟨r, hloop⟩ := Option.isSome_iff_exists.mp hsome
    have hinit : init (2 ^ (k - 6)) (divup W k) c = some _ :=
      Option.map_eq_some_iff.mpr ⟨r, hloop, rfl⟩
    exact ⟨_, hinit, init_sized hN (divup_pos W k) hc hlt hinit⟩

/-- 64 elements in bitmaps of one word, with two entries of `bitmaps`. -/
theorem sized_64 : ∃ h, init (2 ^ (6 - 6)) (divup 12 6) 64 = some h ∧ Sized h (divup 12 6) 64 :=
  (sized_iff (by decide) (by decide) (by decide) (by decide) (by decide)).mpr ⟨by decide, by decide⟩

/-- For 65 elements, well below `2 ^ 12`, `init` writes a third entry. -/
theorem init_past_bitmaps :
    divup 12 6 = 2 ∧ (65 : ℕ) ≤ 2 ^ 12 ∧ init (2 ^ (6 - 6)) (divup 12 6) 65 = none :=
  ⟨by decide, by decide, rfl⟩

end HierarchicalBitmap

end Kos
