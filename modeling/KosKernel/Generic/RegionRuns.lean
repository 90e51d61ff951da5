import KosKernel.Generic.RegionSet
import KosKernel.Machine.SpinLock

/-!
# Generic/RegionRuns — a region set as a set of addresses

Whatever is inserted, removed and retrieved, a `RegionSet` stays the list of the maximal intervals
of one set of addresses (`Canonical`), and every operation but one does what its name says for that
set (`Behaves`): `canonical_after`.

The exception is `out`.  It looks at one region only, the last one that does not start above the end
of `r`.  There need not be one, and if it starts exactly at the end of `r` it hides the region below
it, which may reach into `r` (`out_exact_iff`).
-/

namespace Kos

namespace RegionSet

variable {T : Type} [LinearOrder T]

/-! ## The queries -/

/-- `in`. -/
def isIn (l : RegionSet T) (r : MemRegion T) : Bool :=
  (l.lowerBound r).head?.any fun it => it.start ≤ r.start && r.stop ≤ it.stop

/-- The elements before `upper_bound(r)`. -/
def upTo (l : RegionSet T) (r : MemRegion T) : RegionSet T := l.takeWhile fun x => !r.before x

/-- `out`.  The iterator is decremented before the set is tested for emptiness; where there is no
element before `upper_bound(r)`, the decremented one is outside the set. -/
def out (l : RegionSet T) (r : MemRegion T) : Except Fault Bool :=
  if l.isEmpty then .ok true
  else match (l.upTo r).getLast? with
    | none => .error .outOfBounds
    | some it => .ok (r.stop ≤ it.start || it.stop ≤ r.start)

/-! ## Canonical sets -/

/-- Valid regions in increasing order, which neither overlap nor touch. -/
structure Canonical (l : RegionSet T) : Prop where
  valid : ∀ x ∈ l, x.start < x.stop
  apart : l.Pairwise fun x y => x.stop < y.start

variable {l l' : RegionSet T} {r x : MemRegion T}

theorem Canonical.pairwise (h : Canonical l) : Apart l := by
  refine List.Pairwise.imp_of_mem ?_ h.apart
  intro x y _ hy hxy
  exact ⟨hxy, (hxy.trans (h.valid y hy)).le⟩

theorem canonical_of_apart (hl : Apart l) (hv : Valid l) : Canonical l := ⟨hv, hl.imp And.left⟩

theorem canonical_nil : Canonical ([] : RegionSet T) := ⟨by simp, .nil⟩

theorem Canonical.insert (h : Canonical l) (hr : r.start < r.stop) : Canonical (l.insert r) := by
  obtain ⟨hl, hv, -⟩ := insert_spec h.pairwise h.valid hr
  exact canonical_of_apart hl hv

/-- `remove` leaves valid regions: no others come in. -/
theorem Canonical.of_carves (h : Canonical l) (hc : Carves l r l') : Canonical l' := by
  refine canonical_of_apart hc.apart fun x hx => ?_
  by_contra hlt
  exact hlt (h.valid x ((hc.mem_iff x hlt).mp hx))

/-! ## `remove` and `in` -/

/-- **`remove` succeeds** on the parts of one region. -/
theorem remove_isSome_iff (h : Canonical l) (hr : r.start < r.stop) :
    (l.remove r).isSome ↔ ∃ x ∈ l, r.addrs ⊆ x.addrs := by
  constructor
  · intro hsome
    obtain ⟨l', hl'⟩ := Option.isSome_iff_exists.mp hsome
    obtain ⟨pre, t, post, rfl, hstart, hstop, -⟩ := remove_eq_some h.pairwise hr hl'
    exact ⟨t, by simp, Set.Ico_subset_Ico hstart hstop⟩
  · rintro ⟨x, hx, hsub⟩
    obtain ⟨hstart, hstop⟩ := (Set.Ico_subset_Ico_iff hr).mp hsub
    obtain ⟨pre, post, rfl⟩ := List.append_of_mem hx
    rw [remove_append h.pairwise hr hstart hstop]
    rfl

/-- `in` and `remove` make the same test. -/
theorem isIn_eq_isSome (l : RegionSet T) (r : MemRegion T) : l.isIn r = (l.remove r).isSome := by
  rw [isIn, remove]
  cases l.lowerBound r with
  | nil => rfl
  | cons t rest =>
    by_cases hcov : r.start < t.start ∨ t.stop < r.stop
    · simp only [List.head?_cons, Option.any_some, if_pos hcov, Option.isSome_none]
      rcases hcov with h | h
      · simp [h]
      · simp [h]
    · rw [not_or, not_lt, not_lt] at hcov
      simp [hcov.1, hcov.2]

/-- An interval of numbers in the set lies in one region. -/
theorem Canonical.subset_cover_iff {l : RegionSet ℕ} {r : MemRegion ℕ} (h : Canonical l)
    (hr : r.start < r.stop) : r.addrs ⊆ l.cover ↔ ∃ x ∈ l, r.addrs ⊆ x.addrs := by
  constructor
  · intro hsub
    obtain ⟨x, hx, hstart, hstop⟩ : ∃ x ∈ l, x.start ≤ r.start ∧ r.stop - 1 < x.stop := by
      refine h.pairwise.exists_region (by omega) fun a ha => hsub ?_
      rw [Set.mem_Icc] at ha
      exact ⟨ha.1, by omega⟩
    exact ⟨x, hx, Set.Ico_subset_Ico hstart (by omega)⟩
  · rintro ⟨x, hx, hsub⟩ a ha
    exact ⟨x, hx, hsub ha⟩

/-! ## `retrieve` -/

/-- Where an aligned block of `s` addresses fits. -/
def blocks (l : RegionSet ℕ) (s : ℕ) : Set ℕ := {a | s ∣ a ∧ Set.Ico a (a + s) ⊆ l.cover}

theorem Canonical.mem_blocks {l : RegionSet ℕ} {s a : ℕ} (h : Canonical l) (hs : 0 < s) :
    a ∈ l.blocks s ↔ s ∣ a ∧ ∃ x ∈ l, x.start ≤ a ∧ a + s ≤ x.stop := by
  have hlt : a < a + s := by omega
  have hone := h.subset_cover_iff (r := ⟨a, a + s⟩) hlt
  simp only [MemRegion.addrs, Set.Ico_subset_Ico_iff hlt] at hone
  rw [blocks, Set.mem_ofPred_eq, hone]

/-- `align_up` of a physical address rounds up. -/
theorem alignUp_physical {x k : ℕ} (hk : k ≤ 52) (hx : x ≤ 2 ^ 52) :
    alignUp x (2 ^ k) = (x + 2 ^ k - 1) / 2 ^ k * 2 ^ k ∧ alignUp x (2 ^ k) + 2 ^ k < wordSize := by
  have hpow : 2 ^ k ≤ 2 ^ 52 := Nat.pow_le_pow_right (by decide) hk
  have heq : alignUp x (2 ^ k) = (x + 2 ^ k - 1) / 2 ^ k * 2 ^ k :=
    alignUp_eq (by unfold wordSize; omega) (by omega)
  have hle := Nat.div_mul_le_self (x + 2 ^ k - 1) (2 ^ k)
  exact ⟨heq, by unfold wordSize; omega⟩

theorem dvd_alignUp {x k : ℕ} (hk : k ≤ 52) (hx : x ≤ 2 ^ 52) : 2 ^ k ∣ alignUp x (2 ^ k) := by
  rw [(alignUp_physical hk hx).1]
  exact Nat.dvd_mul_left _ _

/-- …to the least multiple. -/
theorem alignUp_le_iff {x k a : ℕ} (hk : k ≤ 52) (hx : x ≤ 2 ^ 52) (ha : 2 ^ k ∣ a) :
    alignUp x (2 ^ k) ≤ a ↔ x ≤ a := by
  have hpos : 0 < 2 ^ k := Nat.two_pow_pos k
  obtain ⟨q, rfl⟩ := ha
  rw [(alignUp_physical hk hx).1, mul_comm (2 ^ k) q, Nat.mul_le_mul_right_iff hpos,
    Nat.div_le_iff_le_mul_add_pred hpos, mul_comm (2 ^ k) q]
  omega

/-- Regions of physical addresses end at the limit at the latest. -/
theorem Canonical.physical {l : RegionSet ℕ} {x : MemRegion ℕ} (h : Canonical l)
    (hb : l.cover ⊆ Set.Iio (2 ^ 52)) (hx : x ∈ l) : x.start ≤ 2 ^ 52 ∧ x.stop ≤ 2 ^ 52 := by
  have hlt := h.valid x hx
  have hlast : x.stop - 1 < 2 ^ 52 := hb ⟨x, hx, by omega, by omega⟩
  omega

/-- **The loop of `retrieve`** finds the lowest place. -/
theorem findBlock_isLeast {l : RegionSet ℕ} {k : ℕ} (hk : k ≤ 52) (h : Canonical l)
    (hb : ∀ x ∈ l, x.start ≤ 2 ^ 52) :
    (∀ b, findBlock (2 ^ k) l = some b → IsLeast (l.blocks (2 ^ k)) b) ∧
      (findBlock (2 ^ k) l = none → l.blocks (2 ^ k) = ∅) := by
  have hpos : 0 < 2 ^ k := Nat.two_pow_pos k
  induction l with
  | nil =>
    refine ⟨by simp [findBlock], fun _ => Set.eq_empty_iff_forall_notMem.mpr fun a ha => ?_⟩
    obtain ⟨-, x, hx, -⟩ := (h.mem_blocks hpos).mp ha
    cases hx
  | cons x xs ih =>
    obtain ⟨hxs, hrest⟩ := List.pairwise_cons.mp h.apart
    have hcanon : Canonical xs := ⟨fun y hy => h.valid y (by simp [hy]), hrest⟩
    have hx := hb x (by simp)
    have ih := ih hcanon fun y hy => hb y (by simp [hy])
    rw [findBlock, wadd_of_lt (alignUp_physical hk hx).2]
    by_cases hroom : alignUp x.start (2 ^ k) + 2 ^ k ≤ x.stop
    · rw [if_pos hroom]
      have hstart : x.start ≤ alignUp x.start (2 ^ k) :=
        (alignUp_le_iff hk hx (dvd_alignUp hk hx)).mp le_rfl
      refine ⟨fun b hb => ?_, by simp⟩
      cases hb
      refine ⟨(h.mem_blocks hpos).mpr ⟨dvd_alignUp hk hx, x, by simp, hstart, hroom⟩,
        fun a ha => ?_⟩
      obtain ⟨hdvd, y, hy, hya, -⟩ := (h.mem_blocks hpos).mp ha
      refine (alignUp_le_iff hk hx hdvd).mpr ?_
      rcases List.mem_cons.mp hy with rfl | hy
      · exact hya
      · exact ((h.valid x (by simp)).trans (hxs y hy)).le.trans hya
    · -- no block fits into `x`
      have hsame : blocks (x :: xs) (2 ^ k) = blocks xs (2 ^ k) := by
        ext a
        rw [h.mem_blocks hpos, hcanon.mem_blocks hpos]
        refine and_congr_right fun hdvd => ?_
        constructor
        · rintro ⟨y, hy, hya, hay⟩
          rcases List.mem_cons.mp hy with rfl | hy
          · have := (alignUp_le_iff hk hx hdvd).mpr hya
            omega
          · exact ⟨y, hy, hya, hay⟩
        · rintro ⟨y, hy, hfit⟩
          exact ⟨y, by simp [hy], hfit⟩
      rw [if_neg hroom, hsame]
      exact ih

/-! ## Whole histories -/

/-- A call that changes the set. -/
inductive Call
  | insert (r : MemRegion ℕ)
  | remove (r : MemRegion ℕ)
  | retrieve (s : ℕ)

/-- The set after a call. -/
def call (l : RegionSet ℕ) : Call → RegionSet ℕ
  | .insert r => l.insert r
  | .remove r => (l.remove r).getD l
  | .retrieve s => (l.retrieve s).2

/-- Non-empty regions of physical addresses, and powers of two. -/
def Call.Proper : Call → Prop
  | .insert r | .remove r => r.start < r.stop ∧ r.stop ≤ 2 ^ 52
  | .retrieve s => ∃ k ≤ 52, s = 2 ^ k

/-- The set does what the operations promise, for the regions and sizes of a proper call. -/
structure Behaves (l : RegionSet ℕ) : Prop where
  insert : ∀ r : MemRegion ℕ, r.start < r.stop → r.stop ≤ 2 ^ 52 →
    (l.call (.insert r)).cover = l.cover ∪ r.addrs ∧
      l.inserted r ∈ l.call (.insert r) ∧ r.addrs ⊆ (l.inserted r).addrs
  remove : ∀ r : MemRegion ℕ, r.start < r.stop → r.stop ≤ 2 ^ 52 →
    ((l.remove r).isSome ↔ ∃ x ∈ l, r.addrs ⊆ x.addrs) ∧
      if (l.remove r).isSome then (l.call (.remove r)).cover = l.cover \ r.addrs
        else l.call (.remove r) = l
  isIn : ∀ r : MemRegion ℕ, r.start < r.stop → r.stop ≤ 2 ^ 52 → (l.isIn r ↔ r.addrs ⊆ l.cover)
  retrieve : ∀ k ≤ 52, let b := (l.retrieve (2 ^ k)).1
    (b = limit ↔ l.blocks (2 ^ k) = ∅) ∧
      if b = limit then l.call (.retrieve (2 ^ k)) = l
      else IsLeast (l.blocks (2 ^ k)) b ∧
        (l.call (.retrieve (2 ^ k))).cover = l.cover \ Set.Ico b (b + 2 ^ k)

/-- **`retrieve`** on physical addresses. -/
theorem retrieve_least {l : RegionSet ℕ} {k : ℕ} (hk : k ≤ 52) (h : Canonical l)
    (hb : l.cover ⊆ Set.Iio (2 ^ 52)) : (l.blocks (2 ^ k) = ∅ ∧ l.retrieve (2 ^ k) = (limit, l)) ∨
      ∃ b l', l.retrieve (2 ^ k) = (b, l') ∧ b ≠ limit ∧ IsLeast (l.blocks (2 ^ k)) b ∧
        Carves l ⟨b, b + 2 ^ k⟩ l' := by
  have hpow : 2 ^ k ≤ 2 ^ 52 := Nat.pow_le_pow_right (by decide) hk
  have hpos : 0 < 2 ^ k := Nat.two_pow_pos k
  obtain ⟨hsome, hnone⟩ := findBlock_isLeast hk h fun x hx => (h.physical hb hx).1
  cases hf : findBlock (2 ^ k) l with
  | none => exact .inl ⟨hnone hf, by rw [retrieve, hf]⟩
  | some b =>
    have hleast := hsome b hf
    obtain ⟨-, hsub⟩ := hleast.1
    have hphys : b < 2 ^ 52 := hb (hsub ⟨le_rfl, by omega⟩)
    have hne : b ≠ limit := by
      unfold limit wordSize
      omega
    have hret : l.retrieve (2 ^ k) = (b, (l.retrieve (2 ^ k)).2) := by rw [retrieve, hf]
    refine .inr ⟨b, _, hret, hne, hleast, ?_⟩
    refine (retrieve_spec (by omega) h.pairwise (fun x hx => ?_) hret hne).2.2
    have := (h.physical hb hx).1
    unfold wordSize
    omega

/-- One call keeps the set canonical. -/
theorem call_canonical {l : RegionSet ℕ} {c : Call} (hc : c.Proper) (h : Canonical l)
    (hb : l.cover ⊆ Set.Iio (2 ^ 52)) :
    Canonical (l.call c) ∧ (l.call c).cover ⊆ Set.Iio (2 ^ 52) := by
  cases c with
  | insert r =>
    obtain ⟨hr, hstop⟩ := hc
    refine ⟨h.insert hr, ?_⟩
    rw [call, (insert_spec h.pairwise h.valid hr).2.2]
    exact Set.union_subset (fun a ha => ha.2.trans_le hstop) hb
  | remove r =>
    rw [call]
    cases hrem : l.remove r with
    | none => exact ⟨h, hb⟩
    | some l' =>
      have hcarves := remove_spec h.pairwise hc.1 hrem
      refine ⟨h.of_carves hcarves, ?_⟩
      rw [Option.getD_some, hcarves.cover]
      exact Set.sdiff_subset.trans hb
  | retrieve s =>
    obtain ⟨k, hk, rfl⟩ := hc
    rw [call]
    rcases retrieve_least hk h hb with ⟨-, hret⟩ | ⟨b, l', hret, -, -, hcarves⟩
    · rw [hret]
      exact ⟨h, hb⟩
    · rw [hret]
      refine ⟨h.of_carves hcarves, ?_⟩
      rw [hcarves.cover]
      exact Set.sdiff_subset.trans hb

theorem Canonical.behaves {l : RegionSet ℕ} (h : Canonical l) (hb : l.cover ⊆ Set.Iio (2 ^ 52)) :
    Behaves l where
  insert r hr _ := by
    obtain ⟨pre, rest, hins⟩ := exists_inserts h.pairwise h.valid hr
    refine ⟨?_, ?_, Set.Ico_subset_Ico hins.start hins.stop⟩
    · rw [call, hins.eq, hins.cover, Set.union_comm]
    · rw [call, hins.eq]
      simp
  remove r hr _ := by
    refine ⟨remove_isSome_iff h hr, ?_⟩
    rw [call]
    cases hrem : l.remove r with
    | none => rfl
    | some l' => exact (remove_spec h.pairwise hr hrem).cover
  isIn r hr _ := by rw [isIn_eq_isSome, remove_isSome_iff h hr, h.subset_cover_iff hr]
  retrieve k hk := by
    rw [call]
    rcases retrieve_least hk h hb with ⟨hnone, hret⟩ | ⟨b, l', hret, hne, hleast, hcarves⟩
    · rw [hret]
      exact ⟨iff_of_true rfl hnone, by simp⟩
    · rw [hret]
      refine ⟨iff_of_false hne (Set.Nonempty.ne_empty ⟨b, hleast.1⟩), ?_⟩
      rw [if_neg hne]
      exact ⟨hleast, hcarves.cover⟩

/-- **A region set is a set of addresses**, after any calls. -/
theorem canonical_after (cs : List Call) (hcs : ∀ c ∈ cs, c.Proper) :
    Canonical (cs.foldl call []) ∧ Behaves (cs.foldl call []) := by
  have hinv : Canonical (cs.foldl call []) ∧ (cs.foldl call []).cover ⊆ Set.Iio (2 ^ 52) := by
    induction cs using List.reverseRecOn with
    | nil => exact ⟨canonical_nil, by simp⟩
    | append_singleton cs c ih =>
      obtain ⟨hcanon, hb⟩ := ih fun d hd => hcs d (by simp [hd])
      rw [List.foldl_append, List.foldl_cons, List.foldl_nil]
      exact call_canonical (hcs c (by simp)) hcanon hb
  exact ⟨hinv.1, hinv.1.behaves hinv.2⟩

/-- Three regions grow into one, a block is taken from its middle. -/
theorem canonical_after_merge :
    [Call.insert ⟨0, 4⟩, .insert ⟨8, 12⟩, .insert ⟨3, 8⟩, .remove ⟨5, 6⟩,
      .retrieve 4].foldl call [] = [⟨4, 5⟩, ⟨6, 12⟩] ∧
      Behaves ([Call.insert ⟨0, 4⟩, .insert ⟨8, 12⟩, .insert ⟨3, 8⟩, .remove ⟨5, 6⟩,
        .retrieve 4].foldl call []) := by
  refine ⟨by decide +kernel, (canonical_after _ ?_).2⟩
  simp only [List.forall_mem_cons, List.not_mem_nil, false_imp_iff, implies_true, and_true,
    Call.Proper]
  exact ⟨by decide, by decide, by decide, by decide, 2, by decide⟩

/-! ## `out` -/

/-- The regions that keep off `r`. -/
theorem Canonical.off_cover_iff (h : Canonical l) (hr : r.start < r.stop) :
    (∀ a ∈ r.addrs, a ∉ l.cover) ↔ ∀ y ∈ l, y.stop ≤ r.start ∨ r.stop ≤ y.start := by
  constructor
  · intro hdisj y hy
    by_contra hmeet
    rw [not_or, not_le, not_le] at hmeet
    -- the larger of the two starts lies in both
    rcases le_total y.start r.start with hle | hle
    · exact hdisj r.start ⟨le_rfl, hr⟩ ⟨y, hy, hle, hmeet.1⟩
    · exact hdisj y.start ⟨hle, hmeet.2⟩ ⟨y, hy, le_rfl, h.valid y hy⟩
  · rintro hkeep a ⟨hra, har⟩ ⟨y, hy, hya, hay⟩
    rcases hkeep y hy with hoff | hoff
    · exact absurd hra (not_le.mpr (hay.trans_le hoff))
    · exact absurd har (not_lt.mpr (hoff.trans hya))

/-- `upper_bound` separates the regions that start above `r` from the others. -/
theorem Canonical.mem_upTo (h : Canonical l) : x ∈ l.upTo r ↔ x ∈ l ∧ x.start ≤ r.stop := by
  induction l with
  | nil => simp [upTo]
  | cons y ys ih =>
    obtain ⟨hys, hrest⟩ := List.pairwise_cons.mp h.apart
    have ih := ih ⟨fun z hz => h.valid z (by simp [hz]), hrest⟩
    rw [upTo] at ih ⊢
    by_cases hy : r.stop < y.start
    · have habove : ∀ z ∈ y :: ys, r.stop < z.start := fun z hz => by
        rcases List.mem_cons.mp hz with rfl | hz
        · exact hy
        · exact (hy.trans (h.valid y (by simp))).trans (hys z hz)
      rw [List.takeWhile_cons_of_neg (by simpa [MemRegion.before] using hy)]
      exact iff_of_false (by simp) fun hx => absurd hx.2 (not_le.mpr (habove x hx.1))
    · rw [List.takeWhile_cons_of_pos (by simpa [MemRegion.before] using hy), List.mem_cons, ih,
        List.mem_cons]
      constructor
      · rintro (rfl | ⟨hx, hle⟩)
        · exact ⟨.inl rfl, not_lt.mp hy⟩
        · exact ⟨.inr hx, hle⟩
      · rintro ⟨rfl | hx, hle⟩
        · exact .inl rfl
        · exact .inr ⟨hx, hle⟩

/-- **The region `out` looks at** is the last that does not start above `r`. -/
theorem Canonical.out_eq (h : Canonical l) (hsome : ∃ x ∈ l, x.start ≤ r.stop) :
    ∃ it ∈ l, it.start ≤ r.stop ∧ (∀ y ∈ l, y = it ∨ y.stop < it.start ∨ r.stop < y.start) ∧
      l.out r = .ok (r.stop ≤ it.start || it.stop ≤ r.start) := by
  obtain ⟨x, hx, hle⟩ := hsome
  have hne : l.upTo r ≠ [] := List.ne_nil_of_mem (h.mem_upTo.mpr ⟨hx, hle⟩)
  obtain ⟨pre, it, hlast⟩ := List.eq_nil_or_concat _ |>.resolve_left hne
  rw [List.concat_eq_append] at hlast
  have hmem : it ∈ l ∧ it.start ≤ r.stop := h.mem_upTo.mp (by rw [hlast]; simp)
  have hapart : (pre ++ [it]).Pairwise fun x y => x.stop < y.start := by
    rw [← hlast]
    exact h.apart.sublist (List.takeWhile_sublist _)
  refine ⟨it, hmem.1, hmem.2, fun y hy => ?_, ?_⟩
  · rcases le_or_gt y.start r.stop with hyr | hyr
    · have hyin : y ∈ pre ++ [it] := hlast ▸ h.mem_upTo.mpr ⟨hy, hyr⟩
      rcases List.mem_append.mp hyin with hyin | hyin
      · exact .inr (.inl ((List.pairwise_append.mp hapart).2.2 y hyin it (by simp)))
      · exact .inl (List.mem_singleton.mp hyin)
    · exact .inr (.inr hyr)
  · have hl : l.isEmpty = false := by simpa using List.ne_nil_of_mem hx
    rw [out, hl, hlast, List.getLast?_concat]
    rfl

/-- **What `out` needs**: a region to look at that hides none. -/
theorem out_exact_iff (h : Canonical l) (hr : r.start < r.stop) :
    (∃ b, l.out r = .ok b ∧ (b = true ↔ ∀ a ∈ r.addrs, a ∉ l.cover)) ↔
      l = [] ∨ (∃ x ∈ l, x.start ≤ r.stop) ∧
        ∀ x ∈ l, x.start = r.stop → ∀ y ∈ l, y.stop ≤ r.start ∨ r.stop ≤ y.start := by
  rcases List.eq_nil_or_concat l with rfl | ⟨_, _, hcons⟩
  · exact iff_of_true ⟨true, rfl, by simp⟩ (.inl rfl)
  have hne : l ≠ [] := by simp [hcons]
  simp only [hne, false_or]
  by_cases hsome : ∃ x ∈ l, x.start ≤ r.stop
  · obtain ⟨it, hit, hle, hothers, hout⟩ := h.out_eq hsome
    rw [hout, h.off_cover_iff hr]
    simp only [hsome, true_and, Except.ok.injEq, exists_eq_left', Bool.or_eq_true,
      decide_eq_true_eq]
    rcases hle.eq_or_lt with heq | hlt
    · -- the neighbour touches `r`: the answer is `true`
      constructor
      · intro hexact x _ _
        exact hexact.mp (.inl heq.ge)
      · intro hkeep
        exact iff_of_true (.inl heq.ge) (hkeep it hit heq)
    · refine iff_of_true ⟨?_, fun hkeep => (hkeep it hit).symm⟩ fun x hx hxr => ?_
      · rintro (habs | hbelow) y hy
        · exact absurd hlt (not_lt.mpr habs)
        · rcases hothers y hy with rfl | hlow | hhigh
          · exact .inl hbelow
          · exact .inl ((hlow.trans (h.valid it hit)).le.trans hbelow)
          · exact .inr hhigh.le
      · -- no region starts at the end of `r`
        rcases hothers x hx with rfl | hlow | hhigh
        · exact absurd hxr hlt.ne
        · exact absurd hxr (((h.valid x hx).trans hlow).trans hlt).ne
        · exact absurd hxr hhigh.ne'
  · have hnone : l.upTo r = [] := by
      refine List.eq_nil_iff_forall_not_mem.mpr fun x hx => hsome ⟨x, h.mem_upTo.mp hx⟩
    refine iff_of_false ?_ fun hand => hsome hand.1
    rintro ⟨b, hb, -⟩
    rw [out, hnone, if_neg (by simpa using hne)] at hb
    cases hb

theorem out_exact_below :
    ∃ b, out [⟨2, 4⟩, ⟨8, 9⟩] (⟨4, 6⟩ : MemRegion ℕ) = .ok b ∧
      (b = true ↔ ∀ a ∈ MemRegion.addrs ⟨4, 6⟩, a ∉ cover [⟨2, 4⟩, ⟨8, 9⟩]) :=
  (out_exact_iff ⟨by decide, by decide⟩ (by decide)).mpr (.inr ⟨by decide, by decide⟩)

/-- A region that touches `r` hides one that overlaps it, and below the first region there is
nothing to look at. -/
theorem out_hidden :
    Canonical [(⟨0, 3⟩ : MemRegion ℕ), ⟨5, 9⟩] ∧
      out [⟨0, 3⟩, ⟨5, 9⟩] (⟨2, 5⟩ : MemRegion ℕ) = .ok true ∧
      2 ∈ MemRegion.addrs (⟨2, 5⟩ : MemRegion ℕ) ∩ cover [⟨0, 3⟩, ⟨5, 9⟩] ∧
      out [⟨5, 9⟩] (⟨2, 4⟩ : MemRegion ℕ) = .error .outOfBounds := by
  refine ⟨⟨by decide, by decide⟩, by decide,
    ⟨by simp [MemRegion.addrs], ⟨0, 3⟩, by simp, ?_⟩, by decide⟩
  simp [MemRegion.addrs]

end RegionSet

end Kos
