import KosKernel.Kernel.VmRange
import KosKernel.Machine.Entries

/-!
# Kernel/VmRuns — ranges that are in use never overlap

The invariant says where each address of the dynamic area stands: below `mapStart` nothing is owed;
an address whose entry is in use is owed by exactly one range and lies below that range's cursor;
and a page on its way out keeps its entry until the entry is cleared.  `putVmRange` is the one step
that can break it, because it takes an empty entry for a free address.
-/

namespace Kos

open Function Runs Paging PageEntry

/-! ## Aligned blocks -/

namespace Paging

variable {t : Tables} {N M x v : ℕ} {e : PageEntry}

/-- **The next address after a page is aligned for whatever the walk finds there**: a missing table
above it would have been missing for the page too. -/
theorem aligned_next (hv : walk t pagelevels v = (N, e)) (hal : v % pagesize N = 0)
    (hx : (walk t pagelevels (v + pagesize N)).1 = M) : (v + pagesize N) % pagesize M = 0 := by
  have hN : 1 ≤ N := by
    have := one_le_walk t (show 1 ≤ pagelevels by decide) v
    rwa [hv] at this
  have hM : 1 ≤ M := hx ▸ one_le_walk t (show 1 ≤ pagelevels by decide) _
  have hM4 : M ≤ pagelevels := hx ▸ walk_le t pagelevels _
  rcases le_or_gt M N with hle | hlt
  · refine Nat.mod_eq_zero_of_dvd ((pagesize_dvd hM hle).trans ?_)
    exact (Nat.dvd_add_right (Nat.dvd_of_mod_eq_zero hal)).mpr dvd_rfl
  · by_contra hne
    -- both lie in one block of level `M`
    have hdvd := pagesize_dvd hN hlt.le
    have hsame : (v + pagesize N) / pagesize M = v / pagesize M := by
      obtain ⟨k, hk⟩ := hdvd
      obtain ⟨j, rfl⟩ := Nat.dvd_of_mod_eq_zero hal
      have hpos := pagesize_pos N
      rw [hk, ← Nat.mul_succ, Nat.mul_div_mul_left _ _ hpos, Nat.mul_div_mul_left _ _ hpos]
      rw [hk, ← Nat.mul_succ, Nat.mul_mod_mul_left, mul_eq_zero, not_or] at hne
      exact Nat.succ_div_of_not_dvd fun hd => hne.2 (Nat.mod_eq_zero_of_dvd hd)
    have := walk_congr hx hM (index_congr hM4 hsame)
    rw [hv] at this
    rw [← this] at hx
    exact hlt.ne hx

end Paging

/-! ## `putVmRange` -/

variable {N : ℕ}

namespace VmArea

variable {t : Tables} {mapTop : ℕ}

theorem test_available {x : ℕ} (h : test t x [.available] ≠ 0) :
    ∃ N e, walk t pagelevels x = (N, e) ∧ status e = .available ∧
      test t x [.available] = pagesize N := by
  unfold test at h ⊢
  obtain ⟨N, e, hw⟩ : ∃ N e, walk t pagelevels x = (N, e) := ⟨_, _, rfl⟩
  rw [hw] at h ⊢
  refine ⟨N, e, rfl, ?_⟩
  by_cases hs : status e = .available
  · exact ⟨hs, by simp [hs]⟩
  · simp [hs] at h

theorem pagesize_le (h : N ≤ pagelevels) : pagesize N ≤ pagesize pagelevels := by
  refine Nat.pow_le_pow_right (by norm_num) ?_
  simp only [pagesizebits]
  exact Nat.add_le_add_left (Nat.mul_le_mul_right _ (by omega)) _

/-- **The climb of `putVmRange` passes over available addresses only**, and stays below `mapTop`. -/
theorem climb_spec (htop : mapTop + pagesize pagelevels < wordSize) (fuel : ℕ) {stop : ℕ}
    (hal : (∀ M, (walk t pagelevels stop).1 = M → stop % pagesize M = 0)) (hle : stop ≤ mapTop) :
    stop ≤ climb t mapTop fuel stop ∧ climb t mapTop fuel stop ≤ mapTop ∧ ∀ x, stop ≤ x →
      x < climb t mapTop fuel stop → status (walk t pagelevels x).2 = .available := by
  induction fuel generalizing stop with
  | zero => exact ⟨le_rfl, hle, fun x h1 h2 => absurd h1 (not_le.mpr h2)⟩
  | succ fuel ih =>
    rw [climb]
    split
    · rename_i hgo
      obtain ⟨N, e, hw, hs, hsize⟩ := test_available hgo.1
      have hlev : N ≤ pagelevels := by
        have := walk_le t pagelevels stop
        rwa [hw] at this
      have hN : 1 ≤ N := by
        have := one_le_walk t (show 1 ≤ pagelevels by decide) stop
        rwa [hw] at this
      have hadd : wadd stop (pagesize N) = stop + pagesize N :=
        wadd_of_lt (by have := pagesize_le hlev; omega)
      rw [hsize, hadd] at hgo ⊢
      have hmod := hal N (by rw [hw])
      obtain ⟨h1, h2, h3⟩ := ih (fun M hM => aligned_next hw hmod hM) hgo.2
      refine ⟨by omega, h2, fun x hx hlt => ?_⟩
      rcases lt_or_ge x (stop + pagesize N) with hin | hout
      · have hdiv := (div_eq_iff_of_aligned (pagesize_pos N) hmod).mpr ⟨hx, hin⟩
        have := walk_congr (by rw [hw]) hN (index_congr hlev hdiv.symm)
        rw [this, hw]
        exact hs
      · exact h3 x hout hlt
    · exact ⟨le_rfl, hle, fun x h1 h2 => absurd h1 (not_le.mpr h2)⟩

end VmArea

/-! ## The invariant -/

/-- The addresses `getVmRange` can hand out. -/
def VmArea.mem (a : VmArea) (x : ℕ) : Prop := a.mapBottom ≤ x - x % pagesize 1 ∧ x < a.mapTop

namespace Vm

/-- The addresses of a page, given by its level and its address. -/
def inPage (p : ℕ × ℕ) (x : ℕ) : Prop := p.2 ≤ x ∧ x < p.2 + pagesize p.1

/-- An address that a range owes and has mapped. -/
def holds (s : Vm) (x : ℕ) : Prop := ∃ i r, s.range i = some r ∧ r.owed x ∧ x < r.cursor

/-- A range is a sequence of pages of the area, and its cursor stands between two of them. -/
structure RangeOk (a : VmArea) (r : VmRange) : Prop where
  level_pos : 1 ≤ r.level
  level_lt : r.level < pagelevels
  stop : (r.start + r.size) % pagesize r.level = 0
  cursor : r.cursor % pagesize r.level = 0
  le : r.start ≤ r.cursor
  area : ∀ x, r.mem x → a.mem x
  fresh : ∀ x, r.mem x → r.cursor ≤ x → r.owed x

/-- A page on its way out: not present any more, but with its frame still in the entry. -/
structure PendingOk (s : Vm) (p : ℕ × ℕ) : Prop where
  level_pos : 1 ≤ p.1
  level_lt : p.1 < pagelevels
  aligned : p.2 % pagesize p.1 = 0
  entry : ∃ e, walk s.t pagelevels p.2 = (p.1, e) ∧ e.present = false ∧ isFrame e.addr
  holds : ∀ x, inPage p x → s.holds x

/-- A page whose entry is cleared and whose range is about to be given back. -/
structure PuttingOk (s : Vm) (p : ℕ × ℕ) : Prop where
  aligned : p.2 % pagesize p.1 = 0
  level : (walk s.t pagelevels p.2).1 = p.1
  area : ∀ x, inPage p x → s.area.mem x
  above : ∀ x, inPage p x → s.area.mapStart ≤ x
  free : ∀ x, inPage p x → ∀ i r, s.range i = some r → ¬ r.owed x

/-- **The invariant of the address space.** -/
structure Inv (s : Vm) : Prop where
  top : s.area.mapTop + pagesize pagelevels < wordSize
  half : ∀ x y, s.area.mem x → s.area.mem y → x / 2 ^ pagebits = y / 2 ^ pagebits
  start_le : s.area.mapStart ≤ s.area.mapTop
  unused : ∀ i, s.next ≤ i → s.range i = none
  ranges : ∀ {i r}, s.range i = some r → RangeOk s.area r
  above : ∀ {i r x}, s.range i = some r → r.owed x → s.area.mapStart ≤ x
  disjoint : ∀ {i j r r' x}, s.range i = some r → s.range j = some r' → r.owed x → r'.owed x → i = j
  used : ∀ x, s.area.mem x → status (walk s.t pagelevels x).2 ≠ .available → s.holds x
  frames : ∀ x, s.area.mem x → (walk s.t pagelevels x).2.present = true →
    isFrame (walk s.t pagelevels x).2.addr
  pending : ∀ p ∈ s.pending, PendingOk s p
  nodup : s.pending.Nodup
  putting : ∀ v sz, s.putting = some (v, sz) → ∃ M, sz = pagesize M ∧ PuttingOk s (M, v)

variable {s s' : Vm}

theorem holds.area (hs : Inv s) {x : ℕ} (h : s.holds x) : s.area.mem x := by
  obtain ⟨i, r, hr, ho, -⟩ := h
  exact (hs.ranges hr).area x ho.1

variable {r : VmRange}

/-- An address that is still to be mapped is not mapped. -/
theorem not_holds_of_fresh (hs : Inv s) {i x : ℕ} (hr : s.range i = some r) (hx : r.mem x)
    (hc : r.cursor ≤ x) : ¬ s.holds x := by
  rintro ⟨j, r', hr', ho, hlt⟩
  obtain rfl := hs.disjoint hr' hr ho ((hs.ranges hr).fresh x hx hc)
  obtain rfl := Option.some.inj (hr'.symm.trans hr)
  exact absurd hlt (not_lt.mpr hc)

variable {M v : ℕ}

/-- In one half of the address space, the entries of level `M` are the pages of that level. -/
theorem inPage_of_index {x : ℕ} (hM : M ≤ pagelevels) (hhalf : x / 2 ^ pagebits = v / 2 ^ pagebits)
    (hal : v % pagesize M = 0) (h : index M x = index M v) : inPage (M, v) x := by
  rw [inPage, ← div_eq_iff_of_aligned (pagesize_pos M) hal]
  obtain ⟨k, hk⟩ := pagesize_dvd_pagebits hM
  rw [← Nat.div_add_mod x (2 ^ pagebits), ← Nat.div_add_mod v (2 ^ pagebits), hhalf, hk, mul_assoc,
    Nat.mul_add_div (pagesize_pos M), Nat.mul_add_div (pagesize_pos M), ← hk]
  exact congrArg _ h

theorem index_eq_iff (hs : Inv s) {x : ℕ} (hM : M ≤ pagelevels) (hv : s.area.mem v)
    (hx : s.area.mem x) (hal : v % pagesize M = 0) : index M x = index M v ↔ inPage (M, v) x :=
  ⟨inPage_of_index hM (hs.half x v hx hv) hal, fun h =>
    index_congr hM ((div_eq_iff_of_aligned (pagesize_pos M) hal).mpr h)⟩

theorem inPage_self (M v : ℕ) : inPage (M, v) v :=
  ⟨le_rfl, Nat.lt_add_of_pos_right (pagesize_pos M)⟩

/-- The addresses of a page have one index. -/
theorem index_of_inPage {x : ℕ} (hM : M ≤ pagelevels) (hal : v % pagesize M = 0)
    (hx : inPage (M, v) x) : index M x = index M v :=
  index_congr hM ((div_eq_iff_of_aligned (pagesize_pos M) hal).mpr hx)

variable {e : PageEntry}

/-- The addresses of a page that a walk stops at are translated alike. -/
theorem walk_of_inPage {t : Tables} {x : ℕ} (hw : walk t pagelevels v = (M, e))
    (hal : v % pagesize M = 0) (hx : inPage (M, v) x) : walk t pagelevels x = (M, e) := by
  have hM : M ≤ pagelevels := by
    have := walk_le t pagelevels v
    rwa [hw] at this
  have h1 : 1 ≤ M := by
    have := one_le_walk t (show 1 ≤ pagelevels by decide) v
    rwa [hw] at this
  rw [walk_congr (by rw [hw]) h1 (index_of_inPage hM hal hx).symm, hw]

theorem owed_mark {sz x : ℕ} : (r.mark v sz).owed x ↔ r.owed x ∧ ¬ (v ≤ x ∧ x < v + sz) := by
  simp only [VmRange.owed, VmRange.mark, VmRange.mem, List.forall_mem_cons]
  tauto

theorem RangeOk.mark {a : VmArea} {sz : ℕ} (h : RangeOk a r)
    (hfresh : ∀ x, r.mem x → r.cursor ≤ x → ¬ (v ≤ x ∧ x < v + sz)) : RangeOk a (r.mark v sz) :=
  { h with fresh := fun x hx hc => owed_mark.mpr ⟨h.fresh x hx hc, hfresh x hx hc⟩ }

/-! ## Clearing an entry -/

/-- **A mapped page is cleared and given back.** -/
theorem Inv.cleared (hs : Inv s) {q : List (ℕ × ℕ)} (hw : walk s.t pagelevels v = (M, e))
    (hal : v % pagesize M = 0) (hpage : ∀ x, inPage (M, v) x → s.holds x)
    (hq : ∀ p ∈ q, p ∈ s.pending ∧ index M p.2 ≠ index M v) (hnodup : q.Nodup) : Inv { s with
      t := setPE s.t (M, index M v) 0
      range := fun i => (s.range i).map (VmRange.mark v (pagesize M))
      pending := q } := by
  have hM : M ≤ pagelevels := by
    have := walk_le s.t pagelevels v
    rwa [hw] at this
  have h1 : 1 ≤ M := by
    have := one_le_walk s.t (show 1 ≤ pagelevels by decide) v
    rwa [hw] at this
  have hwalk := walk_setPE hw (by decide) (isTable_zero M)
  have hmark : ∀ {i r'}, (s.range i).map (VmRange.mark v (pagesize M)) = some r' →
      ∃ r, s.range i = some r ∧ r.mark v (pagesize M) = r' := fun h => Option.map_eq_some_iff.mp h
  have hholds : ∀ {x}, ¬ inPage (M, v) x → s.holds x → ∃ i r',
      (s.range i).map (VmRange.mark v (pagesize M)) = some r' ∧ r'.owed x ∧ x < r'.cursor := by
    rintro x hx ⟨i, r, hr, ho, hlt⟩
    exact ⟨i, r.mark v (pagesize M), by rw [hr]; rfl, owed_mark.mpr ⟨ho, hx⟩, hlt⟩
  refine ⟨hs.top, hs.half, hs.start_le, fun i hi => ?_, fun hr' => ?_, fun hr' ho => ?_,
    fun hr₁ hr₂ ho₁ ho₂ => ?_, fun x hx hst => ?_, fun x hx hpres => ?_, fun p hp => ?_, hnodup,
    fun w sz hput => ?_⟩
  · show (s.range i).map _ = none
    rw [hs.unused i hi]
    rfl
  · obtain ⟨r, hr, rfl⟩ := hmark hr'
    exact (hs.ranges hr).mark fun x hx hc hin => not_holds_of_fresh hs hr hx hc (hpage x hin)
  · obtain ⟨r, hr, rfl⟩ := hmark hr'
    exact hs.above hr (owed_mark.mp ho).1
  · obtain ⟨r₁, hr₁', rfl⟩ := hmark hr₁
    obtain ⟨r₂, hr₂', rfl⟩ := hmark hr₂
    exact hs.disjoint hr₁' hr₂' (owed_mark.mp ho₁).1 (owed_mark.mp ho₂).1
  · simp only [hwalk] at hst
    split at hst
    · exact absurd status_zero hst
    · rename_i hne
      exact hholds (fun hin => hne (index_of_inPage hM hal hin)) (hs.used x hx hst)
  · simp only [hwalk] at hpres ⊢
    split at hpres
    · exact absurd hpres (show ¬ (0 : PageEntry).present = true by decide)
    rename_i hne
    rw [if_neg hne]
    exact hs.frames x hx hpres
  · obtain ⟨hmem, hne⟩ := hq p hp
    have hok := hs.pending p hmem
    obtain ⟨e', hw', hpres, hframe⟩ := hok.entry
    refine { hok with entry := ⟨e', ?_, hpres, hframe⟩, holds := fun x hx => ?_ }
    · show walk (setPE s.t (M, index M v) 0) pagelevels p.2 = _
      rw [hwalk, if_neg hne, hw']
    · refine hholds (fun hin => hne ?_) (hok.holds x hx)
      -- an address in both pages would make them one page
      have hx1 := walk_of_inPage hw hal hin
      have hx2 := walk_of_inPage hw' hok.aligned hx
      obtain ⟨hlev, -⟩ := Prod.mk.inj (hx1.symm.trans hx2)
      have hidx : index p.1 x = index p.1 p.2 := index_of_inPage hok.level_lt.le hok.aligned hx
      rw [← hlev] at hidx
      exact hidx.symm.trans (index_of_inPage hM hal hin)
  · obtain ⟨L, hsz, hok⟩ := hs.putting w sz hput
    refine ⟨L, hsz, hok.aligned, ?_, hok.area, hok.above, fun x hx i r' hr' ho => ?_⟩
    · show (walk (setPE s.t (M, index M v) 0) pagelevels w).1 = L
      rw [hwalk]
      split
      · rename_i heq
        have hsame := walk_congr (show (walk s.t pagelevels v).1 = M by rw [hw]) h1 heq.symm
        exact (congrArg Prod.fst (hsame.trans hw)).symm.trans hok.level
      · exact hok.level
    · obtain ⟨r, hr, rfl⟩ := hmark hr'
      exact hok.free x hx i r hr (owed_mark.mp ho).1

/-! ## The steps -/

theorem inv_clearEntry (hs : Inv s) {p : ℕ × ℕ} (hp : p ∈ s.pending) : Inv (s.clearEntry p) := by
  have hok := hs.pending p hp
  obtain ⟨e, hw, -, -⟩ := hok.entry
  refine hs.cleared hw hok.aligned hok.holds (fun q hq => ?_) (hs.nodup.erase p)
  obtain ⟨hne, hmem⟩ := hs.nodup.mem_erase_iff.mp hq
  refine ⟨hmem, fun heq => hne ?_⟩
  -- two pending pages with one entry are one page
  have hq' := hs.pending q hmem
  obtain ⟨e', hw', -, -⟩ := hq'.entry
  have hsame :=
    walk_congr (show (walk s.t pagelevels p.2).1 = p.1 by rw [hw]) hok.level_pos heq.symm
  rw [hw, hw'] at hsame
  obtain ⟨hlev, -⟩ := Prod.mk.inj hsame
  have hin := (index_eq_iff hs hok.level_lt.le (holds.area hs (hok.holds _ (inPage_self _ _)))
    (holds.area hs (hq'.holds _ (inPage_self _ _))) hok.aligned).mp heq
  have hin' := (index_eq_iff hs hok.level_lt.le (holds.area hs (hq'.holds _ (inPage_self _ _)))
    (holds.area hs (hok.holds _ (inPage_self _ _))) (hlev ▸ hq'.aligned)).mp heq.symm
  exact Prod.ext hlev (le_antisymm hin'.1 hin.1)

theorem inv_finish (hs : Inv s) {p : ℕ × ℕ} (hp : p ∈ s.pending) :
    Inv { s.clearEntry p with putting := some (p.2, pagesize p.1) } := by
  have hs' := inv_clearEntry hs hp
  have hok := hs.pending p hp
  obtain ⟨e, hw, -, -⟩ := hok.entry
  refine { hs' with pending := fun q hq => ?_, putting := fun v sz hput => ?_ }
  · have h := hs'.pending q hq
    exact { h with }
  · cases hput
    refine ⟨p.1, rfl, hok.aligned, ?_, fun x hx => holds.area hs (hok.holds x hx), fun x hx => ?_,
      fun x hx i r' hr' ho => ?_⟩
    · show (walk (setPE s.t (p.1, index p.1 p.2) 0) pagelevels p.2).1 = p.1
      rw [walk_setPE hw (by decide) (isTable_zero _), if_pos rfl]
    · obtain ⟨i, r, hr, ho, -⟩ := hok.holds x hx
      exact hs.above hr ho
    · obtain ⟨r, -, rfl⟩ := Option.map_eq_some_iff.mp (hr' : (s.range i).map _ = some r')
      exact (owed_mark.mp ho).2 hx

/-- **An entry in use is replaced by another one.** -/
theorem Inv.replaced (hs : Inv s) {e' : PageEntry} (hw : walk s.t pagelevels v = (M, e))
    (he' : isTable M e' = false) (hst : status e ≠ .available)
    (hframe : e'.present = true → isFrame e'.addr)
    (hpend : ∀ p ∈ s.pending, index M p.2 ≠ index M v) :
    Inv { s with t := setPE s.t (M, index M v) e' } := by
  have h1 : 1 ≤ M := by
    have := one_le_walk s.t (show 1 ≤ pagelevels by decide) v
    rwa [hw] at this
  have hwalk := walk_setPE hw (by decide) he'
  have hsame : ∀ {x}, index M x = index M v → walk s.t pagelevels x = (M, e) := fun heq =>
    (walk_congr (show (walk s.t pagelevels v).1 = M by rw [hw]) h1 heq.symm).trans hw
  refine { hs with
    used := fun x hx hst' => ?_
    frames := fun x hx hp => ?_
    pending := fun p hp => ?_
    putting := fun w sz hput => ?_ }
  · simp only [hwalk] at hst'
    split at hst'
    · rename_i heq
      exact hs.used x hx (by rw [hsame heq]; exact hst)
    · exact hs.used x hx hst'
  · simp only [hwalk] at hp ⊢
    split at hp
    · rename_i heq
      rw [if_pos heq]
      exact hframe hp
    · rename_i hne
      rw [if_neg hne]
      exact hs.frames x hx hp
  · have hok := hs.pending p hp
    obtain ⟨e₁, hw₁, hpres₁, hframe₁⟩ := hok.entry
    refine { hok with entry := ⟨e₁, ?_, hpres₁, hframe₁⟩ }
    show walk (setPE s.t (M, index M v) e') pagelevels p.2 = _
    rw [hwalk, if_neg (hpend p hp), hw₁]
  · obtain ⟨L, hsz, hok⟩ := hs.putting w sz hput
    refine ⟨L, hsz, hok.aligned, ?_, hok.area, hok.above, hok.free⟩
    show (walk (setPE s.t (M, index M v) e') pagelevels w).1 = L
    rw [hwalk]
    split
    · rename_i heq
      exact (congrArg Prod.fst (hsame heq)).symm.trans hok.level
    · exact hok.level

/-- Two addresses with one entry have one translation. -/
theorem index_ne_of_entry {t : Tables} {w L : ℕ} {e' : PageEntry}
    (hw : walk t pagelevels v = (M, e)) (hw' : walk t pagelevels w = (L, e')) (hne : e' ≠ e) :
    index M w ≠ index M v := by
  intro heq
  have h1 : 1 ≤ M := by
    have := one_le_walk t (show 1 ≤ pagelevels by decide) v
    rwa [hw] at this
  have hsame := walk_congr (show (walk t pagelevels v).1 = M by rw [hw]) h1 heq.symm
  rw [hw, hw'] at hsame
  exact hne (Prod.mk.inj hsame).2

theorem inv_unmapPage (hs : Inv s) (h1 : 1 ≤ N) (hN : N < pagelevels)
    (hin : ∃ i r, s.range i = some r ∧ r.start ≤ v ∧ v + pagesize N ≤ r.start + r.size)
    (h : s.act (.unmapPage N v) = .ok s') : Inv s' := by
  obtain ⟨i₀, r₀, hr₀, hle, hge⟩ := hin
  have harea : ∀ x, inPage (N, v) x → s.area.mem x := fun x hx =>
    (hs.ranges hr₀).area x ⟨hle.trans hx.1, lt_of_lt_of_le hx.2 hge⟩
  simp only [act] at h
  split at h
  · cases h
  · -- a present page loses its `P` bit
    rename_i pe t hun
    cases h
    obtain ⟨hal, e, hw, ⟨hpe, hpres, rfl⟩ | ⟨hpe, -⟩⟩ := unmap1_spec h1 hN hun
    swap
    · cases hpe
    have hmapped : status e ≠ .available := by simp [status, hpres]
    have hframe : isFrame e.addr := by
      have := hs.frames v (harea v (inPage_self N v)) (by rw [hw]; exact hpres)
      rwa [hw] at this
    have hother : ∀ p ∈ s.pending, index N p.2 ≠ index N v := fun p hp => by
      obtain ⟨e', hw', hpres', -⟩ := (hs.pending p hp).entry
      refine index_ne_of_entry hw hw' fun he => ?_
      rw [he, hpres] at hpres'
      cases hpres'
    have hs' := hs.replaced hw (isTable_eq_false_of_not_present (present_clearP e)) hmapped
      (fun hp => by rw [present_clearP] at hp; cases hp) hother
    refine { hs' with pending := fun p hp => ?_, nodup := ?_, putting := fun w sz hput => ?_ }
    · rcases List.mem_cons.mp hp with rfl | hp
      · refine ⟨h1, hN, hal, ⟨e &&& ~~~P, ?_, present_clearP e, (addr_clearP e).symm ▸ hframe⟩, ?_⟩
        · show walk (setPE s.t (N, index N v) _) pagelevels v = _
          rw [walk_setPE hw (by decide) (isTable_eq_false_of_not_present (present_clearP e)),
            if_pos rfl]
        · intro x hx
          refine hs.used x (harea x hx) ?_
          rw [walk_of_inPage hw hal hx]
          exact hmapped
      · have hok := hs'.pending p hp
        exact { hok with }
    · exact List.nodup_cons.mpr ⟨fun hmem => hother _ hmem rfl, hs.nodup⟩
    · obtain ⟨L, hsz, hok⟩ := hs'.putting w sz hput
      exact ⟨L, hsz, hok.aligned, hok.level, hok.area, hok.above, hok.free⟩
  · -- a reserved page is cleared at once
    rename_i t hun
    cases h
    obtain ⟨hal, e, hw, ⟨hpe, -⟩ | ⟨-, hpres, haddr, rfl⟩⟩ := unmap1_spec h1 hN hun
    · cases hpe
    refine hs.cleared hw hal (fun x hx => hs.used x (harea x hx) ?_) (fun p hp => ⟨hp, ?_⟩) hs.nodup
    · rw [walk_of_inPage hw hal hx]
      simp [status, hpres, haddr]
    · obtain ⟨e', hw', -, hframe'⟩ := (hs.pending p hp).entry
      refine index_ne_of_entry hw hw' fun he => ?_
      rw [he] at hframe'
      exact haddr.elim hframe'.1 hframe'.2

variable {fm : FrameManager}

/-- The frames of a good frame manager are below `2 ^ 48`. -/
theorem lt_of_allocFrame {fm' : FrameManager} (hfm : goodFrames fm) {pma : ℕ}
    (h : fm.allocFrame N = .ok (pma, fm')) (htop : pma ≠ topaddr) : pma < 2 ^ 48 := by
  have hcount := hfm.2
  unfold FrameManager.allocFrame at h
  split at h
  · rcases FrameManager.allocFrame1_spec hfm.1 h with ⟨rfl, -⟩ | ⟨f, rfl, hf, -⟩
    · exact absurd rfl htop
    · rw [show sps = 4096 from rfl]
      omega
  · split at h
    · rcases FrameManager.allocFrame2_spec hfm.1 h with ⟨rfl, -⟩ | ⟨i, rfl, hi, -⟩
      · exact absurd rfl htop
      · rw [FrameManager.dps_eq]
        omega
    · cases h

theorem isFrame_of_lt {a : PageEntry} (h : a.toNat < 2 ^ 48) : isFrame a := by
  have h1 : lazyPage.toNat = 2 ^ 52 - 8192 := by decide
  have h2 : guardPage.toNat = 2 ^ 52 - 4096 := by decide
  constructor
  · rintro rfl
    omega
  · rintro rfl
    omega

/-- The entry `fault` writes holds a frame. -/
theorem isFrame_faulted {fm' : FrameManager} (hfm : goodFrames fm) {pma : ℕ}
    (h : fm.allocFrame N = .ok (pma, fm')) (htop : pma ≠ topaddr) :
    isFrame (addr (BitVec.ofNat 64 pma ||| e &&& ~~~ADDR ||| P)) := by
  rw [addr_faulted]
  refine isFrame_of_lt (lt_of_le_of_lt ?_ (lt_of_allocFrame hfm h htop))
  rw [BitVec.toNat_and, BitVec.toNat_ofNat]
  exact Nat.and_le_left.trans (Nat.mod_le _ _)

theorem inv_fault (hs : Inv s) (hfm : goodFrames fm) (h : s.act (.fault v fm) = .ok s') :
    Inv s' := by
  simp only [act] at h
  split at h
  · cases h
  rename_i b t fm' hf
  cases h
  rcases fault_spec hf with ⟨rfl, -⟩ | ⟨N, e, pma, hw, hpres, hpage, haddr, halloc, htop, rfl⟩
  · exact hs
  · refine hs.replaced hw (isTable_eq_false_of_isPage (isPage_faulted hpage)) ?_
      (fun _ => isFrame_faulted hfm halloc htop) fun p hp => ?_
    · simp [status, hpres, haddr]
    · obtain ⟨e', hw', -, hframe'⟩ := (hs.pending p hp).entry
      refine index_ne_of_entry hw hw' fun he => ?_
      rw [he] at hframe'
      exact hframe'.1 haddr

/-- **A page of a range is mapped.** -/
theorem inv_mapPage (hs : Inv s) {i : ℕ} {present : Bool} {pma type : PageEntry}
    (hr : s.range i = some r) (hlt : r.cursor < r.start + r.size) (htype : isFlags type)
    (hframe : present = true → isFrame pma) (h : s.act (.mapPage i present pma type fm) = .ok s') :
    Inv s' := by
  have hok := hs.ranges hr
  have hM : r.level ≤ pagelevels := hok.level_lt.le
  simp only [act, hr] at h
  split at h
  · cases h
  · cases h
  · rename_i t fm' hmap
    cases h
    obtain ⟨-, hpma, hmapped⟩ := map_spec hok.level_pos hok.level_lt hmap
    -- the whole page lies in the part of the range that is still to be mapped
    have hroom : r.cursor + pagesize r.level ≤ r.start + r.size := by
      have h1 := Nat.dvd_of_mod_eq_zero hok.cursor
      have h2 := Nat.dvd_of_mod_eq_zero hok.stop
      have h3 := Nat.le_of_dvd (Nat.sub_pos_of_lt hlt) (Nat.dvd_sub h2 h1)
      omega
    have hmem : ∀ x, inPage (r.level, r.cursor) x → r.mem x := fun x hx =>
      ⟨hok.le.trans hx.1, lt_of_lt_of_le hx.2 hroom⟩
    have hcarea := hok.area r.cursor (hmem _ (inPage_self _ _))
    have hnot : ∀ x, inPage (r.level, r.cursor) x → ¬ s.holds x := fun x hx =>
      not_holds_of_fresh hs hr (hmem x hx) hx.1
    set r' : VmRange := { r with cursor := r.cursor + pagesize r.level } with hr'
    have hget : ∀ j q, update s.range i (some r') j = some q →
        ∃ q₀, s.range j = some q₀ ∧ (∀ x, q.owed x ↔ q₀.owed x) ∧ q₀.cursor ≤ q.cursor := by
      intro j q hq
      by_cases hj : j = i
      · subst hj
        rw [update_self] at hq
        cases hq
        exact ⟨r, hr, fun x => Iff.rfl, Nat.le_add_right _ _⟩
      · rw [update_of_ne hj] at hq
        exact ⟨q, hq, fun x => Iff.rfl, le_rfl⟩
    have hholds : ∀ {x}, s.holds x → ∃ j q, update s.range i (some r') j = some q ∧
        q.owed x ∧ x < q.cursor := by
      rintro x ⟨j, q, hq, ho, hx⟩
      by_cases hj : j = i
      · subst hj
        obtain rfl := Option.some.inj (hr.symm.trans hq)
        exact ⟨j, r', update_self _ _ _, ho, lt_of_lt_of_le hx (Nat.le_add_right _ _)⟩
      · exact ⟨j, q, (update_of_ne hj _ _).trans hq, ho, hx⟩
    -- a walk that stops at a page outside the range is not touched
    have hkeep : ∀ {w L : ℕ}, s.area.mem w → (walk s.t pagelevels w).1 = L → 1 ≤ L →
        L ≤ pagelevels → w % pagesize L = 0 → ¬ inPage (r.level, r.cursor) w →
        ¬ inPage (L, w) r.cursor → walk t pagelevels w = walk s.t pagelevels w := by
      intro w L hw hL hL1 hL4 hal hout hout'
      have hne : index r.level w ≠ index r.level r.cursor := fun heq =>
        hout ((index_eq_iff hs hM hcarea hw hok.cursor).mp heq)
      rcases hmapped.same_or_empty w hne with hsame | ⟨heq, -⟩
      · exact hsame
      · have hone := one_le_walk s.t (show 1 ≤ pagelevels by decide) r.cursor
        have hcongr := walk_congr rfl hone heq.symm
        rw [← hcongr, hL] at heq
        exact absurd ((index_eq_iff hs hL4 hw hcarea hal).mp heq.symm) hout'
    refine ⟨hs.top, hs.half, hs.start_le, fun j hj => ?_, fun {j q} hq => ?_,
      fun {j q x} hq ho => ?_, fun {j k q q' x} hq hq' ho ho' => ?_, fun x hx hst => ?_,
      fun x hx hp => ?_, fun p hp => ?_, hs.nodup, fun w sz hput => ?_⟩
    · have hji : j ≠ i := fun hji => by
        have := hs.unused j hj
        rw [hji, hr] at this
        cases this
      show update s.range i (some r') j = none
      rw [update_of_ne hji]
      exact hs.unused j hj
    · by_cases hj : j = i
      · subst hj
        obtain rfl : r' = q := Option.some.inj ((update_self j _ s.range).symm.trans hq)
        refine { hok with
          cursor := ?_
          le := hok.le.trans (Nat.le_add_right _ _)
          fresh := fun x hx hc => hok.fresh x hx ((Nat.le_add_right _ _).trans hc) }
        show (r.cursor + pagesize r.level) % pagesize r.level = 0
        rw [Nat.add_mod_right]
        exact hok.cursor
      · exact hs.ranges ((update_of_ne hj _ s.range).symm.trans hq)
    · obtain ⟨q₀, hq₀, howed, -⟩ := hget j q hq
      exact hs.above hq₀ ((howed x).mp ho)
    · obtain ⟨q₀, hq₀, howed, -⟩ := hget j q hq
      obtain ⟨q₁, hq₁, howed', -⟩ := hget k q' hq'
      exact hs.disjoint hq₀ hq₁ ((howed x).mp ho) ((howed' x).mp ho')
    · by_cases heq : index r.level x = index r.level r.cursor
      · have hin := (index_eq_iff hs hM hcarea hx hok.cursor).mp heq
        exact ⟨i, r', update_self _ _ _, hok.fresh x (hmem x hin) hin.1, hin.2⟩
      · rcases hmapped.same_or_empty x heq with hsame | ⟨-, hzero⟩
        · exact hholds (hs.used x hx (by rw [← hsame]; exact hst))
        · exact absurd (by rw [hzero]; exact status_zero) hst
    · by_cases heq : index r.level x = index r.level r.cursor
      · simp only [hmapped.page x heq, present_leaf hpma htype, addr_leaf hpma htype] at hp ⊢
        exact hframe hp
      · rcases hmapped.same_or_empty x heq with hsame | ⟨-, hzero⟩
        · simp only [hsame] at hp ⊢
          exact hs.frames x hx hp
        · simp only [hzero] at hp
          exact absurd hp (show ¬ (0 : PageEntry).present = true by decide)
    · have hpok := hs.pending p hp
      obtain ⟨e, hw, hpres, hfr⟩ := hpok.entry
      have hself := hpok.holds _ (inPage_self _ _)
      refine { hpok with entry := ⟨e, ?_, hpres, hfr⟩,
                         holds := fun x hx => hholds (hpok.holds x hx) }
      rw [← hw]
      exact hkeep (holds.area hs hself) (by rw [hw]) hpok.level_pos hpok.level_lt.le hpok.aligned
        (fun hin => hnot _ hin hself) (fun hin => hnot _ (inPage_self _ _) (hpok.holds _ hin))
    · obtain ⟨L, hsz, hput'⟩ := hs.putting w sz hput
      have howe : ∀ x, inPage (r.level, r.cursor) x → r.owed x := fun x hx =>
        hok.fresh x (hmem x hx) hx.1
      have hwalk := hkeep (hput'.area _ (inPage_self _ _)) hput'.level
        (hput'.level ▸ one_le_walk s.t (show 1 ≤ pagelevels by decide) w)
        (hput'.level ▸ walk_le s.t pagelevels w) hput'.aligned
        (fun hin => hput'.free _ (inPage_self _ _) i r hr (howe _ hin))
        (fun hin => hput'.free _ hin i r hr (howe _ (inPage_self _ _)))
      refine ⟨L, hsz, hput'.aligned, (congrArg Prod.fst hwalk).trans hput'.level, hput'.area,
        hput'.above, fun x hx j q hq ho => ?_⟩
      obtain ⟨q₀, hq₀, howed, -⟩ := hget j q hq
      exact hput'.free x hx j q₀ hq₀ ((howed x).mp ho)

/-- **`getVmRange<N>(0,size)` for a size that fits**: a range of whole pages that ends at or below
`mapStart`, which moves to its start. -/
theorem getVmRange_spec {a a' : VmArea} {size start size' : ℕ} (hN : N < pagelevels)
    (hw : a.mapStart < wordSize) (hfit : size ≤ alignDown a.mapStart (pagesize N))
    (h : a.getVmRange N 0 size = .ok (start, size', a'))
    (htop : start ≠ topaddr) : a' = { a with mapStart := start } ∧ a.mapBottom ≤ start ∧
      start % pagesize N = 0 ∧ start + size' ≤ a.mapStart ∧ (start + size') % pagesize N = 0 := by
  have hlt : a.mapBottom < a.mapTop := by
    by_contra hlt
    rw [VmArea.getVmRange, if_neg hlt] at h
    cases h
  have hdown := alignDown_eq hw (VmArea.pagesizebits_le hN.le)
  have hg := VmArea.granted_of_le hN.le hw hlt (hfit.trans_eq hdown)
  rw [h] at hg
  rcases hg with ⟨he, -, -⟩ | ⟨hal, hbot, hmod, -, hle, ha'⟩
  · exact absurd he htop
  · exact ⟨ha', hbot, hal, hle, by rw [Nat.add_mod, hal, hmod, Nat.zero_mod]⟩

/-- **A range is handed out.** -/
theorem inv_get (hs : Inv s) {size : ℕ} (h1 : 1 ≤ N) (hN : N < pagelevels)
    (hfit : size ≤ alignDown s.area.mapStart (pagesize N)) (h : s.act (.get N size) = .ok s') :
    Inv s' := by
  have hw : s.area.mapStart < wordSize := lt_of_le_of_lt hs.start_le (by have := hs.top; omega)
  simp only [act] at h
  split at h
  · cases h
  rename_i start size' a' hget
  split at h
  · exact Except.ok.inj h ▸ hs
  · rename_i htop
    cases h
    obtain ⟨rfl, hbot, hal, hle, hstop⟩ := getVmRange_spec hN hw hfit hget htop
    set r' : VmRange := ⟨N, start, size', start, []⟩ with hr'
    have howed : ∀ x, r'.owed x ↔ r'.mem x := fun x => and_iff_left (by simp [hr'])
    have hcase : ∀ {j q}, update s.range s.next (some r') j = some q →
        (j = s.next ∧ q = r') ∨ (j ≠ s.next ∧ s.range j = some q) := by
      intro j q hq
      by_cases hj : j = s.next
      · subst hj
        rw [update_self] at hq
        exact Or.inl ⟨rfl, (Option.some.inj hq).symm⟩
      · rw [update_of_ne hj] at hq
        exact Or.inr ⟨hj, hq⟩
    have hbelow : ∀ {x}, r'.mem x → x < s.area.mapStart := fun hx => lt_of_lt_of_le hx.2 hle
    have hholds : ∀ {x}, s.holds x → ∃ j q, update s.range s.next (some r') j = some q ∧
        q.owed x ∧ x < q.cursor := by
      rintro x ⟨j, q, hq, ho, hx⟩
      have hj : j ≠ s.next := fun hj => by
        rw [hj, hs.unused _ le_rfl] at hq
        cases hq
      exact ⟨j, q, (update_of_ne hj _ _).trans hq, ho, hx⟩
    have hstart : start ≤ s.area.mapStart := by omega
    refine ⟨hs.top, hs.half, hstart.trans hs.start_le, fun j hj => ?_, fun {j q} hq => ?_,
      fun {j q x} hq ho => ?_, fun {j k q q' x} hq hq' ho ho' => ?_,
      fun x hx hst => hholds (hs.used x hx hst), hs.frames, fun p hp => ?_, hs.nodup,
      fun w sz hput => ?_⟩
    · have hlt : s.next < j := hj
      show update s.range s.next (some r') j = none
      rw [update_of_ne hlt.ne']
      exact hs.unused j hlt.le
    · rcases hcase hq with ⟨-, rfl⟩ | ⟨-, hq⟩
      · refine ⟨h1, hN, hstop, hal, le_rfl, fun x hx => ⟨?_, ?_⟩, fun x hx _ => (howed x).mpr hx⟩
        · -- the page of `x` starts at or above the range
          have hdvd : pagesize 1 ∣ start :=
            (pagesize_dvd le_rfl h1).trans (Nat.dvd_of_mod_eq_zero hal)
          have hfloor : start ≤ x - x % pagesize 1 := by
            have := Nat.div_le_div_right (c := pagesize 1) hx.1
            have h2 := Nat.div_mul_cancel hdvd
            have h3 := Nat.div_add_mod x (pagesize 1)
            have h4 := Nat.mul_le_mul_right (pagesize 1) this
            rw [mul_comm (x / pagesize 1)] at h4
            simp only [hr'] at h2 h4
            omega
          exact hbot.trans hfloor
        · exact lt_of_lt_of_le (hbelow hx) hs.start_le
      · have hok := hs.ranges hq
        exact { hok with }
    · rcases hcase hq with ⟨-, rfl⟩ | ⟨-, hq⟩
      · exact ((howed x).mp ho).1
      · exact hstart.trans (hs.above hq ho)
    · rcases hcase hq with ⟨hj, rfl⟩ | ⟨-, hq⟩
      · rcases hcase hq' with ⟨hk, -⟩ | ⟨-, hq'⟩
        · exact hj.trans hk.symm
        · exact absurd (hs.above hq' ho') (not_le.mpr (hbelow ((howed x).mp ho)))
      · rcases hcase hq' with ⟨-, rfl⟩ | ⟨-, hq'⟩
        · exact absurd (hs.above hq ho) (not_le.mpr (hbelow ((howed x).mp ho')))
        · exact hs.disjoint hq hq' ho ho'
    · have hok := hs.pending p hp
      exact { hok with holds := fun x hx => hholds (hok.holds x hx) }
    · obtain ⟨L, hsz, hok⟩ := hs.putting w sz hput
      refine ⟨L, hsz, hok.aligned, hok.level, hok.area, fun x hx => hstart.trans (hok.above x hx),
        fun x hx j q hq ho => ?_⟩
      rcases hcase hq with ⟨-, rfl⟩ | ⟨-, hq⟩
      · exact absurd (hok.above x hx) (not_le.mpr (hbelow ((howed x).mp ho)))
      · exact hok.free x hx j q hq ho

/-- **A range is given back.** -/
theorem inv_put (hs : Inv s) (hclear : s.Clear .put) (h : s.act .put = .ok s') : Inv s' := by
  simp only [act] at h
  split at h
  · cases h
  rename_i v sz hput
  cases h
  obtain ⟨M, rfl, hok⟩ := hs.putting v sz hput
  have hpos := pagesize_pos M
  -- the page ends inside the area
  have hend : v + pagesize M ≤ s.area.mapTop := by
    have := (hok.area (v + pagesize M - 1)
      ⟨by show v ≤ _; omega, by show _ < v + pagesize M; omega⟩).2
    omega
  have hadd : wadd v (pagesize M) = v + pagesize M := wadd_of_lt (by have := hs.top; omega)
  obtain ⟨e, hw⟩ : ∃ e, walk s.t pagelevels v = (M, e) := ⟨_, Prod.ext hok.level rfl⟩
  have hclimb := fun fuel => VmArea.climb_spec hs.top fuel
    (fun L hL => aligned_next hw hok.aligned hL) hend
  have harea : ∃ ms, s.area.putVmRange s.t v (pagesize M) = { s.area with mapStart := ms } ∧
      ms ≤ s.area.mapTop ∧ ∀ {i r x}, s.range i = some r → r.owed x → ms ≤ x := by
    unfold VmArea.putVmRange
    dsimp only
    rw [hadd]
    split
    · rename_i hcond
      obtain ⟨hge, hle, havail⟩ := hclimb (s.area.mapTop / pagesize 1 + 1)
      refine ⟨_, rfl, hle, fun {i r x} hr ho => ?_⟩
      by_contra hlt
      have h1 := hs.above hr ho
      rcases lt_or_ge x (v + pagesize M) with hin | hout
      · exact hok.free x ⟨hcond.1.trans h1, hin⟩ i r hr ho
      · obtain ⟨y, hy, hyx, hne⟩ := hclear v _ hput hcond.1 (hadd.symm ▸ hcond.2) i r x hr ho
          (hadd.symm ▸ hout)
        exact hne (havail y (hadd ▸ hy) (lt_of_le_of_lt hyx (not_le.mp hlt)))
    · exact ⟨s.area.mapStart, rfl, hs.start_le, fun hr ho => hs.above hr ho⟩
  obtain ⟨ms, heq, hle, habove⟩ := harea
  rw [heq]
  refine { hs with
    start_le := hle
    ranges := fun hr => ?_
    above := habove
    pending := fun p hp => ?_
    putting := fun w sz hput' => by cases hput' }
  · have h := hs.ranges hr
    exact { h with }
  · have h := hs.pending p hp
    exact { h with }

variable {a : Action}

/-- **One step that meets the condition keeps the invariant.** -/
theorem inv_step (hs : Inv s) (ha : s.Allowed a ∧ s.Clear a) (h : s.step a = some s') : Inv s' := by
  have h := Fault.toOption_eq_some h
  obtain ⟨hallow, hclear⟩ := ha
  cases a with
  | get N size => exact inv_get hs hallow.1 hallow.2 hclear h
  | mapPage i present pma type fm =>
    obtain ⟨htype, hframe, r, hr, hlt⟩ := hallow
    exact inv_mapPage hs hr hlt htype hframe h
  | unmapPage N vma => exact inv_unmapPage hs hallow.1 hallow.2.1 hallow.2.2 h
  | unmapPage2 p => exact Except.ok.inj h ▸ inv_clearEntry hs hallow
  | finish p => exact Except.ok.inj h ▸ inv_finish hs hallow.1
  | put => exact inv_put hs hclear h
  | fault vma fm => exact inv_fault hs hallow h

/-! ## Runs -/

/-- An address space after `initUser` or `initKernel`: no range is handed out, the dynamic area lies
in one canonical half, and nothing is mapped in it. -/
structure Fresh (s : Vm) : Prop where
  top : s.area.mapTop + pagesize pagelevels < wordSize
  half : s.area.mapBottom / 2 ^ pagebits = (s.area.mapTop - 1) / 2 ^ pagebits
  start : s.area.mapStart = s.area.mapTop
  empty : ∀ x, s.area.mem x → status (walk s.t pagelevels x).2 = .available
  range : ∀ i, s.range i = none
  pending : s.pending = []
  putting : s.putting = none

theorem Fresh.inv (h : Fresh s) : Inv s := by
  have hnone : ∀ {i r}, s.range i ≠ some r := fun {i r} hr => by
    rw [h.range i] at hr
    cases hr
  have hdiv : ∀ x, s.area.mem x → x / 2 ^ pagebits = s.area.mapBottom / 2 ^ pagebits :=
    fun x hx => by
    have h1 : s.area.mapBottom ≤ x := hx.1.trans (Nat.sub_le _ _)
    have h2 : x ≤ s.area.mapTop - 1 := Nat.le_sub_one_of_lt hx.2
    exact le_antisymm (h.half ▸ Nat.div_le_div_right h2) (Nat.div_le_div_right h1)
  refine ⟨h.top, fun x y hx hy => (hdiv x hx).trans (hdiv y hy).symm, h.start.le,
    fun i _ => h.range i, fun hr => absurd hr hnone, fun hr => absurd hr hnone,
    fun hr => absurd hr hnone, fun x hx hst => absurd (h.empty x hx) hst, fun x hx hp => ?_, ?_, ?_,
    fun v sz hput => ?_⟩
  · have := h.empty x hx
    simp [status, hp] at this
  · simp [h.pending]
  · simp [h.pending]
  · rw [h.putting] at hput
    cases hput

/-- **Ranges in use never overlap**, in every run whose steps meet the condition: no address is owed
to two ranges, and a range that `getVmRange` returns holds no address that has been handed out and
not been unmapped and invalidated, mapped or not.  When no range has been given back in part, it is
disjoint from every range that is still in use. -/
theorem vmRanges_disjoint {s₀ : Vm} (h₀ : Fresh s₀) {as : List Action}
    (hrun : run step s₀ as = some s)
    (hg : Guarded step (fun s a => s.Allowed a ∧ s.Clear a) s₀ as) :
    (∀ i j r r' x, s.range i = some r → s.range j = some r' → r.owed x → r'.owed x → i = j) ∧
    ∀ N size start size' a', s.Allowed (.get N size) → s.Clear (.get N size) →
      s.area.getVmRange N 0 size = .ok (start, size', a') → start ≠ topaddr →
      (∀ i r x, s.range i = some r → r.owed x → ¬ (start ≤ x ∧ x < start + size')) ∧
      (s.Whole → ∀ i r, s.range i = some r → (∃ x, r.owed x) → ∀ x, r.mem x →
        ¬ (start ≤ x ∧ x < start + size')) := by
  have hs : Inv s := invariant_of_guarded inv_step h₀.inv hg hrun
  refine ⟨fun i j r r' x hr hr' ho ho' => hs.disjoint hr hr' ho ho', ?_⟩
  intro N size start size' a' hallow hfit hget htop
  have hw : s.area.mapStart < wordSize := lt_of_le_of_lt hs.start_le (by have := hs.top; omega)
  obtain ⟨-, -, -, hle, -⟩ := getVmRange_spec hallow.2 hw hfit hget htop
  have hout : ∀ i r x, s.range i = some r → r.owed x → ¬ (start ≤ x ∧ x < start + size') := by
    intro i r x hr ho hin
    exact absurd (hs.above hr ho) (not_le.mpr (lt_of_lt_of_le hin.2 hle))
  exact ⟨hout, fun hwhole i r hr hlive x hx => hout i r x hr (hwhole i r hr hlive x hx)⟩

/-- A process with tables for the top of its address space. -/
def userSpace : Vm :=
  { t := fun n i => if (n, i) = (4, 2 ^ 8 - 1) ∨ (n, i) = (3, 2 ^ 17 - 1) ∨ (n, i) = (2, 2 ^ 26 - 1)
      then pageTable else 0
    area := ⟨2 ^ 22, 2 ^ 47, 2 ^ 47⟩, range := fun _ => none, next := 0, pending := []
    putting := none }

/-- Any frame manager: no frame is needed below. -/
def noFrames : FrameManager :=
  { lplock := false, largeFrames := ⟨fun _ => Bitmap.zero, fun _ => 0, 0⟩, splock := false
    smallFrames := ∅, bitcount := 0 }

theorem walk_userSpace (x : ℕ) : (walk userSpace.t pagelevels x).2 = 0 := by
  obtain ⟨⟨N, e⟩, hwalk⟩ : ∃ p, walk userSpace.t pagelevels x = p := ⟨_, rfl⟩
  obtain ⟨rfl, hnot⟩ := walk_entry (by decide) hwalk
  rw [hwalk]
  unfold userSpace at hnot ⊢
  dsimp only at hnot ⊢
  split
  · rename_i hcase
    rw [if_pos hcase] at hnot
    rcases hcase with h | h | h
    all_goals obtain ⟨rfl, -⟩ := Prod.mk.inj h; exact absurd hnot (by decide)
  · rfl

theorem fresh_userSpace : Fresh userSpace :=
  ⟨by decide, by decide, rfl, fun x _ => (walk_userSpace x).symm ▸ status_zero, fun _ => rfl,
    rfl, rfl⟩

/-- A check that is enough for `Allowed`, which speaks of all ranges and of all frames. -/
def allows (s : Vm) : Action → Bool
  | .get N _ => decide (1 ≤ N ∧ N < pagelevels)
  | .mapPage i present pma type _ => decide (type &&& (P ||| PS ||| ADDR) = 0) &&
      (!present || decide (pma ≠ lazyPage ∧ pma ≠ guardPage)) &&
      (s.range i).any fun r => decide (r.cursor < r.start + r.size)
  | .unmapPage N vma => decide (1 ≤ N ∧ N < pagelevels) && (List.range s.next).any fun i =>
      (s.range i).any fun r => decide (r.start ≤ vma ∧ vma + pagesize N ≤ r.start + r.size)
  | .unmapPage2 p => s.pending.contains p
  | .finish p => s.pending.contains p && s.putting.isNone
  | .put => s.putting.isSome
  | .fault _ _ => false

theorem allowed_of_allows (h : s.allows a = true) : s.Allowed a := by
  cases a with
  | get N size =>
    simp only [allows, decide_eq_true_eq] at h
    exact h
  | mapPage i present pma type fm =>
    simp only [allows, Bool.and_eq_true, decide_eq_true_eq, Option.any_eq_true] at h
    obtain ⟨⟨htype, hframe⟩, r, hr, hlt⟩ := h
    refine ⟨htype, fun hp => ?_, r, hr, hlt⟩
    simpa [hp, isFrame] using hframe
  | unmapPage N vma =>
    simp only [allows, Bool.and_eq_true, decide_eq_true_eq, List.any_eq_true,
      Option.any_eq_true] at h
    obtain ⟨hN, i, -, r, hr, hle⟩ := h
    exact ⟨hN.1, hN.2, i, r, hr, hle⟩
  | unmapPage2 p => exact List.contains_iff_mem.mp h
  | finish p =>
    simp only [allows, Bool.and_eq_true, Option.isNone_iff_eq_none] at h
    exact ⟨List.contains_iff_mem.mp h.1, h.2⟩
  | put => exact h
  | fault vma fm => cases h

/-- A check that is enough for `Clear`: a range that is given back does not move `mapStart`. -/
def clears (s : Vm) : Action → Bool
  | .put => s.putting.all fun p => decide (s.area.mapStart < p.1)
  | .get N size => decide (size ≤ alignDown s.area.mapStart (pagesize N))
  | _ => true

theorem clear_of_clears (h : s.clears a = true) : s.Clear a := by
  cases a with
  | put =>
    intro v sz hput hle
    simp only [clears, hput, Option.all_some, decide_eq_true_eq] at h
    omega
  | get N size =>
    simp only [clears, decide_eq_true_eq] at h
    exact h
  | _ => trivial

/-- Two ranges are taken, the upper one is mapped, unmapped and given back, a third one is taken. -/
def upperRun : List Action :=
  [.get 1 4096, .get 1 4096, .mapPage 0 true 0x5000 data noFrames, .unmapPage 1 (2 ^ 47 - 4096),
    .finish (1, 2 ^ 47 - 4096), .put, .get 1 8192]

theorem vmRanges_disjoint_upperRun : ∃ s : Vm, run step userSpace upperRun = some s ∧
    ∀ i j r r' x, s.range i = some r → s.range j = some r' → r.owed x → r'.owed x → i = j := by
  obtain ⟨s, hs⟩ := Option.isSome_iff_exists.mp
    (show (run step userSpace upperRun).isSome = true by decide +kernel)
  have hg : checked step (fun s a => s.allows a && s.clears a) userSpace upperRun = true := by
    decide +kernel
  refine ⟨s, hs, (vmRanges_disjoint fresh_userSpace hs (guarded_of_checked (fun h => ?_) hg)).1⟩
  exact (Bool.and_eq_true _ _ ▸ h).imp allowed_of_allows clear_of_clears

/-- Two ranges are taken, the lower one is mapped, unmapped and given back, a third one is taken. -/
def lowerRun : List Action :=
  [.get 1 4096, .get 1 4096, .mapPage 1 true 0x5000 data noFrames, .unmapPage 1 (2 ^ 47 - 8192),
    .finish (1, 2 ^ 47 - 8192), .put, .get 1 4096]

/-- **A range is handed out twice**: `putVmRange` of the lower range climbs over the upper one,
which its owner has not mapped yet, and the next `getVmRange` returns it again. -/
theorem reserved_range_handed_out_twice :
    Fresh userSpace ∧ Guarded step Allowed userSpace lowerRun ∧
      ∃ s r r' x, run step userSpace lowerRun = some s ∧ s.range 0 = some r ∧ s.range 2 = some r' ∧
      r.owed x ∧ r'.owed x := by
  have hg : checked step allows userSpace lowerRun = true := by decide +kernel
  refine ⟨fresh_userSpace, guarded_of_checked allowed_of_allows hg, ?_⟩
  obtain ⟨s, hs⟩ := Option.isSome_iff_exists.mp
    (show (run step userSpace lowerRun).isSome = true by decide +kernel)
  have h0 : (run step userSpace lowerRun).bind (·.range 0) =
      some ⟨1, 2 ^ 47 - 4096, 4096, 2 ^ 47 - 4096, [(2 ^ 47 - 8192, 4096)]⟩ := by decide +kernel
  have h2 : (run step userSpace lowerRun).bind (·.range 2) =
      some ⟨1, 2 ^ 47 - 4096, 4096, 2 ^ 47 - 4096, []⟩ := by decide +kernel
  rw [hs] at h0 h2
  refine ⟨s, _, _, 2 ^ 47 - 4096, hs, h0, h2, ⟨⟨le_rfl, by decide⟩, ?_⟩, ⟨le_rfl, by decide⟩, ?_⟩
  · simp
  · simp

end Vm

end Kos
