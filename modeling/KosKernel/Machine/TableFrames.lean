import KosKernel.Kernel.FrameRuns
import KosKernel.Machine.PageWalk
import Mathlib.Data.Finset.Card

/-!
# Machine/TableFrames — the frames that `map` needs for page tables

`mapTable` asks for one frame per missing table: from the level where the walk stops down to the
level of the page.  It does not look at what it gets.  When the frames run out in the middle,
`topaddr` is written as a table, and clearing that table faults; nothing is undone and nothing is
returned.

So the number of free frames decides (`map_starved_atomic_iff`), and it decides exactly.
-/

namespace Kos

variable {m k : ℕ}

namespace FrameManager

variable {fm fm' : FrameManager} {n : ℕ}

/-! ## Counting free frames -/

/-- At least `n` frames are free. -/
def atLeast (n : ℕ) (fm : FrameManager) : Prop := ∃ S : Finset ℕ, n ≤ S.card ∧ ∀ f ∈ S, fm.free f

/-- The frame manager is not locked and has `n` frames to hand out. -/
structure HasFrames (n : ℕ) (fm : FrameManager) : Prop where
  inv : FrameManager.Inv fm
  lplock : fm.lplock = false
  frames : atLeast n fm

theorem atLeast_zero (fm : FrameManager) : atLeast 0 fm := ⟨∅, Nat.zero_le _, by simp⟩

theorem not_atLeast_succ (h : ∀ f, ¬ fm.free f) (n : ℕ) : ¬ atLeast (n + 1) fm := by
  rintro ⟨S, hcard, hS⟩
  obtain ⟨f, hf⟩ : S.Nonempty := Finset.card_pos.mp (by omega)
  exact h f (hS f hf)

/-- Handing out one frame takes one off the count. -/
theorem Taken.atLeast_iff {f : ℕ} (h : Taken fm fm' (· = f)) :
    atLeast n fm' ↔ atLeast (n + 1) fm := by
  constructor
  · rintro ⟨S, hcard, hS⟩
    have hf : f ∉ S := fun hf => ((h.free f).mp (hS f hf)).2 rfl
    refine ⟨insert f S, by rw [Finset.card_insert_of_notMem hf]; omega, fun g hg => ?_⟩
    rcases Finset.mem_insert.mp hg with rfl | hg
    · exact h.wasFree g rfl
    · exact ((h.free g).mp (hS g hg)).1
  · rintro ⟨S, hcard, hS⟩
    refine ⟨S.erase f, ?_, fun g hg => ?_⟩
    · have := Finset.pred_card_le_card_erase (s := S) (a := f)
      omega
    · obtain ⟨hne, hg⟩ := Finset.mem_erase.mp hg
      exact (h.free g).mpr ⟨hS g hg, hne⟩

theorem HasFrames.mono (h : HasFrames n fm) (hm : m ≤ n) : HasFrames m fm :=
  ⟨h.inv, h.lplock, let ⟨S, hcard, hS⟩ := h.frames; ⟨S, hm.trans hcard, hS⟩⟩

/-- One of them. -/
theorem HasFrames.alloc (h : HasFrames (n + 1) fm) :
    ∃ f fm', fm.allocFrame 1 = .ok (f * sps, fm') ∧ f * sps ≠ topaddr ∧ HasFrames n fm' := by
  obtain ⟨⟨a, fm'⟩, hr⟩ := allocFrame1_returns h.inv.unlocked h.lplock
  rcases allocFrame1_spec h.inv hr with ⟨-, hnone, -⟩ | ⟨f, rfl, -, ht⟩
  · exact absurd h.frames (not_atLeast_succ hnone n)
  · exact ⟨f, fm', hr, mul_sps_ne_topaddr f, ht.inv, ht.lplock.trans h.lplock,
      ht.atLeast_iff.mpr h.frames⟩

/-- A table gets its frame. -/
theorem HasFrames.table (h : HasFrames (n + 1) fm) :
    ∃ pma fm', fm.allocFrame Paging.pagetablepl = .ok (pma, fm') ∧
    pma ≠ topaddr ∧ HasFrames n fm' := by
  obtain ⟨f, fm', halloc, htop, h'⟩ := h.alloc
  exact ⟨f * sps, fm', halloc, htop, h'⟩

/-- `allocFrame<1>` gives `topaddr` only when it could take `lplock`. -/
theorem lplock_of_topaddr (h : fm.allocFrame 1 = .ok (topaddr, fm')) (hinv : Inv fm) :
    fm.lplock = false ∧ ∀ f, ¬ fm.free f := by
  rcases allocFrame1_spec hinv h with ⟨-, hnone, -⟩ | ⟨f, hf, -⟩
  · refine ⟨?_, hnone⟩
    by_contra hlp
    have hlp : fm.lplock = true := by simpa using hlp
    obtain ⟨-, h⟩ := scopedLock_eq_ok.mp (h : fm.allocFrame1 = _)
    rw [hlp] at h
    split at h
    · cases h
    rename_i hempty
    -- a partial block has a free frame
    obtain ⟨f, hf, -, -⟩ := takeSmall_spec (hinv.opened _) h
    exact mul_sps_ne_topaddr f hf.symm
  · exact absurd hf.symm (mul_sps_ne_topaddr f)

/-- `k` frames have been handed out. -/
structure Spent (k : ℕ) (fm fm' : FrameManager) : Prop where
  inv : Inv fm'
  lplock : fm'.lplock = fm.lplock
  atLeast : ∀ n, atLeast n fm' ↔ FrameManager.atLeast (n + k) fm

theorem Spent.zero (h : Inv fm) : Spent 0 fm fm := ⟨h, rfl, fun _ => Iff.rfl⟩

theorem Spent.succ {f : ℕ} {fm'' : FrameManager} (h : Spent k fm fm')
    (ht : Taken fm' fm'' (· = f)) : Spent (k + 1) fm fm'' :=
  ⟨ht.inv, ht.lplock.trans h.lplock, fun n => by
    rw [ht.atLeast_iff, h.atLeast, Nat.add_right_comm, Nat.add_assoc]⟩

/-- A machine of 2 MB whose frames 16 to 31 are free. -/
theorem exists_hasFrames : ∃ fm, HasFrames 16 fm := by
  have hrs : Regions (2 ^ 21) ([(2 ^ 16, 2 ^ 16)] ++ []) :=
    ⟨by decide, by decide, List.pairwise_singleton _ _⟩
  obtain ⟨fm₀, -, hboot, -⟩ := booting_init (show 0 < 2 ^ 21 by decide) (by decide)
    ([(2 ^ 16, 2 ^ 16)] ++ [])
  obtain ⟨fm, -, hbooted, -, hfree⟩ := Booting.run [(2 ^ 16, 2 ^ 16)] hboot hrs
  refine ⟨fm, hbooted.inv, hbooted.lplock, (Finset.range 16).image (16 + ·), by decide,
    fun f hf => ?_⟩
  obtain ⟨i, hi, rfl⟩ := Finset.mem_image.mp hf
  have hi := Finset.mem_range.mp hi
  refine (hfree _).mpr (Or.inr ⟨_, List.mem_singleton_self _, ?_⟩)
  simp only [inRegion, show sps = 4096 from rfl]
  omega

end FrameManager

namespace Paging

open FrameManager PageEntry

variable {t t' : Tables} {fm fm' : FrameManager} {N L c d : ℕ} {e : PageEntry}

/-! ## What `mapTable` finds -/

/-- Above the level where the walk stops, every table is there. -/
theorem mapTable_of_le (hd : d < pagelevels) (h : (walk t pagelevels c).1 ≤ pagelevels - d) :
    mapTable d t c fm = .ok (true, t, fm) := by
  induction d with
  | zero => rfl
  | succ d ih =>
    obtain ⟨N, hN⟩ : ∃ N, pagelevels - (d + 1) = N := ⟨_, rfl⟩
    rw [hN] at h
    have htab : isTable (N + 1) (t (N + 1) (index (N + 1) c)) = true :=
      isTable_of_lt_walk (Nat.lt_succ_of_le h) (by omega)
    obtain ⟨hpres, hpage⟩ := (Bool.and_eq_true _ _).mp htab
    rw [mapTable, ih (by omega) (by omega)]
    simp only [hN, hpres, hpage, if_true]

/-- A larger page in the way is reported. -/
theorem mapTable_of_page (hd : d < pagelevels) (hw : walk t pagelevels c = (L, e))
    (hL : pagelevels - d < L) (hpres : e.present = true) :
    mapTable d t c fm = .ok (false, t, fm) := by
  have hle : L ≤ pagelevels := by
    have := walk_le t pagelevels c
    rwa [hw] at this
  obtain ⟨rfl, hnot⟩ := walk_entry (by decide) hw
  induction d with
  | zero => omega
  | succ d ih =>
    rcases Nat.lt_or_ge (pagelevels - d) L with hlt | hge
    · rw [mapTable, ih (by omega) hlt]
    · have hpage : isPage L (t L (index L c)) = true := by
        simpa only [isTable, hpres, Bool.true_and, Bool.not_eq_false'] using hnot
      rw [mapTable, mapTable_of_le (by omega) (by rw [hw]; omega)]
      simp only [show pagelevels - (d + 1) + 1 = L by omega, hpres, hpage, if_true, Bool.not_true]

variable {present : Bool} {pma type : PageEntry}

/-- A page is mapped only where there is no table. -/
theorem level_of_map (h1 : 1 ≤ N) (hN : N < pagelevels)
    (h : map N present t c pma type fm = .ok (true, t', fm')) : N ≤ (walk t pagelevels c).1 := by
  by_contra hlt
  obtain ⟨-, -, t₁, htab, -, hpres, -⟩ := map_eq_ok h
  rw [mapTable_of_le (by omega) (by omega)] at htab
  cases htab
  rw [present_of_isTable (isTable_of_lt_walk (not_le.mp hlt) hN.le)] at hpres
  cases hpres

/-- **A table in the way of a page** is an assertion failure. -/
theorem map_blocked (hN : N < pagelevels) (h1 : 1 ≤ N) (hal : c % pagesize N = 0)
    (hpma : pma &&& ~~~ADDR = 0) (hlt : (walk t pagelevels c).1 < N) :
    map N present t c pma type fm = .error .kassert := by
  have hwin : inWindow t N c = true := decide_eq_true hlt.le
  have hpres := present_of_isTable (isTable_of_lt_walk hlt hN.le)
  rw [map, if_neg (by simp [aligned_pagesize.mpr hal]), if_neg (not_not.mpr hpma),
    mapTable_of_le (by omega) (by omega)]
  simp only [hwin, hpres, Bool.true_eq_false, if_false, if_true]

/-! ## Running out of frames -/

/-- A call of `allocFrame` in `mapTable` returns `topaddr`. -/
def starves : ℕ → Tables → ℕ → FrameManager → Bool
  | 0, _, _, _ => false
  | d + 1, t, vma, fm => starves d t vma fm ||
    match mapTable d t vma fm with
    | .ok (true, t, fm) =>
      let N := pagelevels - (d + 1)
      !(t (N + 1) (index (N + 1) vma)).present &&
        match fm.allocFrame pagetablepl with
        | .ok (pma, _) => decide (pma = topaddr)
        | .error _ => false
    | _ => false

/-- The tables that `map<N>` has to create: those between the missing entry and the page. -/
def missing (N : ℕ) (t : Tables) (vma : ℕ) : ℕ :=
  let (L, e) := walk t pagelevels vma
  if e.present then 0 else L - N

theorem not_starves_of_le (hd : d < pagelevels) (h : (walk t pagelevels c).1 ≤ pagelevels - d) :
    starves d t c fm = false := by
  induction d with
  | zero => rfl
  | succ d ih =>
    obtain ⟨N, hN⟩ : ∃ N, pagelevels - (d + 1) = N := ⟨_, rfl⟩
    rw [hN] at h
    have htab : isTable (N + 1) (t (N + 1) (index (N + 1) c)) = true :=
      isTable_of_lt_walk (Nat.lt_succ_of_le h) (by omega)
    have hpres := ((Bool.and_eq_true _ _).mp htab).1
    rw [starves, ih (by omega) (by omega), mapTable_of_le (by omega) (by omega)]
    simp [hN, hpres]

theorem not_starves_of_page (hd : d < pagelevels) (hw : walk t pagelevels c = (L, e))
    (hL : pagelevels - d < L) (hpres : e.present = true) : starves d t c fm = false := by
  have hle : L ≤ pagelevels := by
    have := walk_le t pagelevels c
    rwa [hw] at this
  induction d with
  | zero => rfl
  | succ d ih =>
    rcases Nat.lt_or_ge (pagelevels - d) L with hlt | hge
    · rw [starves, ih (by omega) hlt, mapTable_of_page (by omega) hw hlt hpres]
      rfl
    · obtain ⟨rfl, -⟩ := walk_entry (by decide) hw
      rw [starves, not_starves_of_le (by omega) (by rw [hw]; omega),
        mapTable_of_le (by omega) (by rw [hw]; omega)]
      simp [show pagelevels - (d + 1) + 1 = L by omega, hpres]

/-- What can become of `k` requests for frames in `mapTable`. -/
inductive Opening (k d : ℕ) (t : Tables) (c : ℕ) (fm : FrameManager) : Prop
  /-- every request is met, and the entry that is reached is empty -/
  | opened (t' : Tables) (fm' : FrameManager) (calls : mapTable d t c fm = .ok (true, t', fm'))
      (fed : starves d t c fm = false) (spent : Spent k fm fm')
      (empty : (t' (pagelevels - d) (index (pagelevels - d) c)).present = false)
  /-- the frames run out -/
  | starved (f : Fault) (calls : mapTable d t c fm = .error f) (hungry : starves d t c fm = true)
      (few : ¬ atLeast k fm) (unlocked : fm.lplock = false)
  /-- `lplock` has been left acquired by an earlier call -/
  | stuck (f : Fault) (calls : mapTable d t c fm = .error f) (fed : starves d t c fm = false)
      (locked : fm.lplock = true)

theorem not_atLeast_mono (h : ¬ atLeast k fm) (hkm : k ≤ m) : ¬ atLeast m fm :=
  fun ⟨S, hcard, hS⟩ => h ⟨S, hkm.trans hcard, hS⟩

/-- One more level. -/
theorem Opening.step (hd : d + 1 < pagelevels) (h : Opening k d t c fm) :
    Opening (k + 1) (d + 1) t c fm := by
  cases h with
  | starved f calls hungry few unlocked =>
    refine .starved f ?_ ?_ (not_atLeast_mono few k.le_succ) unlocked
    · rw [mapTable, calls]
    · rw [starves, hungry, Bool.true_or]
  | stuck f calls fed locked =>
    refine .stuck f ?_ ?_ locked
    · rw [mapTable, calls]
    · rw [starves, fed, calls]
      rfl
  | opened t' fm' calls fed spent empty =>
    obtain ⟨N, hN⟩ : ∃ N, pagelevels - (d + 1) = N := ⟨_, rfl⟩
    rw [show pagelevels - d = N + 1 by omega] at empty
    cases halloc : fm'.allocFrame pagetablepl with
    | error f =>
      refine .stuck f ?_ ?_ ?_
      · rw [mapTable, calls]
        simp only [hN, empty, halloc, Bool.false_eq_true, if_false]
      · rw [starves, fed, calls]
        simp only [hN, empty, halloc, Bool.and_false, Bool.or_false]
      · by_contra hlp
        obtain ⟨r, hr⟩ := allocFrame1_returns spent.inv.unlocked
          (spent.lplock.trans (by simpa using hlp))
        exact absurd (halloc.symm.trans (show fm'.allocFrame pagetablepl = _ from hr)) (by simp)
    | ok r =>
      obtain ⟨pma, fm₂⟩ := r
      by_cases htop : pma = topaddr
      · subst htop
        obtain ⟨hlp, hnone⟩ := lplock_of_topaddr halloc spent.inv
        refine .starved .outOfBounds ?_ ?_ (fun hk => ?_) (spent.lplock.symm.trans hlp)
        · rw [mapTable, calls]
          simp only [hN, empty, halloc, Bool.false_eq_true, if_false, if_true]
        · rw [starves, fed, calls]
          simp [hN, empty, halloc]
        · exact not_atLeast_succ hnone 0 ((spent.atLeast 1).mpr (by rwa [Nat.add_comm]))
      · rcases allocFrame1_spec spent.inv halloc with ⟨htop', -⟩ | ⟨f, rfl, -, ht⟩
        · exact absurd htop' htop
        refine .opened (zeroTable (setPE t' (N + 1, index (N + 1) c)
          (BitVec.ofNat 64 (f * sps) ||| pageTable)) N c) fm₂ ?_ ?_ (spent.succ ht) ?_
        · rw [mapTable, calls]
          simp only [hN, empty, halloc, Bool.false_eq_true, if_false, htop]
        · rw [starves, fed, calls]
          simp [hN, empty, halloc, htop]
        · rw [hN, zeroTable, if_pos ⟨rfl, (index_succ (by omega) c).symm⟩]
          decide

/-- **Below a missing entry, `mapTable` asks for one frame per level.** -/
theorem opening (hinv : Inv fm) (hw : walk t pagelevels c = (L, e)) (hpres : e.present = false)
    (hL : L ≤ pagelevels) (k : ℕ) (hk : k < L) : Opening k (pagelevels - L + k) t c fm := by
  obtain ⟨rfl, -⟩ := walk_entry (by decide) hw
  induction k with
  | zero =>
    have hlev : pagelevels - (pagelevels - L + 0) = L := by omega
    refine .opened t fm (mapTable_of_le (by omega) ?_) (not_starves_of_le (by omega) ?_)
      (.zero hinv) ?_
    · rw [hw, hlev]
    · rw [hw, hlev]
    · rw [hlev]
      exact hpres
  | succ k ih => exact (ih (by omega)).step (show pagelevels - L + k + 1 < pagelevels by omega)

/-- **With enough frames `mapTable` returns.**  `R k` says that `k` more requests are met. -/
theorem mapTable_returns {R : ℕ → FrameManager → Prop} (hR : ∀ {k fm}, R (k + 1) fm →
      ∃ pma fm', fm.allocFrame pagetablepl = .ok (pma, fm') ∧ pma ≠ topaddr ∧ R k fm')
    (hw : walk t pagelevels c = (L, e)) (hpres : e.present = false) (hL : L ≤ pagelevels) (k : ℕ) :
    ∀ {m : ℕ}, k < L → R (k + m) fm →
      ∃ t' fm', mapTable (pagelevels - L + k) t c fm = .ok (true, t', fm') ∧
      R m fm' ∧ (t' (L - k) (index (L - k) c)).present = false := by
  obtain ⟨rfl, -⟩ := walk_entry (by decide) hw
  induction k with
  | zero =>
    intro m _ h
    refine ⟨t, fm, mapTable_of_le (by omega) ?_, by simpa using h, hpres⟩
    rw [hw, show pagelevels - (pagelevels - L + 0) = L by omega]
  | succ k ih =>
    intro m hk h
    obtain ⟨t₁, fm₁, hr, h₁, hzero⟩ :=
      ih (m := m + 1) (by omega) (by rwa [← Nat.succ_add_eq_add_succ])
    obtain ⟨pma, fm₂, halloc, htop, h₂⟩ := hR h₁
    obtain ⟨N, hN⟩ : ∃ N, L - (k + 1) = N := ⟨_, rfl⟩
    rw [show L - k = N + 1 by omega] at hzero
    refine ⟨zeroTable (setPE t₁ (N + 1, index (N + 1) c) (BitVec.ofNat 64 pma ||| pageTable)) N c,
      fm₂, ?_, h₂, ?_⟩
    · rw [show pagelevels - L + (k + 1) = (pagelevels - L + k) + 1 from rfl, mapTable, hr]
      simp only [show pagelevels - (pagelevels - L + k + 1) = N by omega, hzero, halloc, htop,
        Bool.false_eq_true, if_false]
    · rw [hN, zeroTable, if_pos ⟨rfl, (index_succ (by omega) c).symm⟩]
      decide

/-! ## `map` -/

/-- `map<N,present>` is atomic in its table allocations: when one of them fails, `false` is returned
and every address is translated as before. -/
def FailsCleanly (N : ℕ) (present : Bool) (t : Tables) (vma : ℕ) (pma type : PageEntry)
    (fm : FrameManager) : Prop :=
  vma % pagesize N = 0 → pma &&& ~~~ADDR = 0 → starves (pagelevels - N) t vma fm = true →
    ∃ t' fm', map N present t vma pma type fm = .ok (false, t', fm') ∧
      ∀ x, walk t' pagelevels x = walk t pagelevels x

/-- **With enough frames `map` returns true**, where no table is in the way. -/
theorem map_returns {R : ℕ → FrameManager → Prop}
    (hR : ∀ {k fm}, R (k + 1) fm → ∃ pma fm', fm.allocFrame pagetablepl = .ok (pma, fm') ∧
      pma ≠ topaddr ∧ R k fm') (h1 : 1 ≤ N) (hN : N < pagelevels)
    (hw : walk t pagelevels c = (L, e)) (hpres : e.present = false) (hL : N ≤ L)
    (hal : c % pagesize N = 0) (hpma : pma &&& ~~~ADDR = 0) (present : Bool) (type : PageEntry)
    (h : R (L - N + m) fm) : ∃ t' fm', map N present t c pma type fm = .ok (true, t', fm') ∧
      R m fm' := by
  have hle := walk_le t pagelevels c
  rw [hw] at hle
  obtain ⟨t₁, fm₁, htab, hm, hpres₁⟩ := mapTable_returns hR hw hpres hle (L - N) (by omega) h
  rw [show pagelevels - L + (L - N) = pagelevels - N by dsimp only at hle; omega] at htab
  rw [show L - (L - N) = N by omega] at hpres₁
  have hreached := (mapTable_spec (show pagelevels - N < pagelevels by omega) htab).reached
  rw [show pagelevels - (pagelevels - N) = N by omega] at hreached
  exact ⟨_, fm₁, map_of_mapTable hal hpma htab (decide_eq_true hreached) hpres₁, hm⟩

theorem map_of_mapTable_error {f : Fault} (h : mapTable (pagelevels - N) t c fm = .error f) :
    ∃ g, map N present t c pma type fm = .error g := by
  unfold map
  split
  · exact ⟨_, rfl⟩
  · split
    · exact ⟨_, rfl⟩
    · rw [h]
      exact ⟨_, rfl⟩

/-- **`map` takes one frame for each missing table**, and returns if it gets them. -/
theorem map_spent_iff (h1 : 1 ≤ N) (hN : N < pagelevels) (hinv : Inv fm) (hlp : fm.lplock = false)
    (hw : walk t pagelevels c = (L, e)) (hpres : e.present = false) (hL : N ≤ L)
    (hal : c % pagesize N = 0) (hpma : pma &&& ~~~ADDR = 0) (present : Bool) (type : PageEntry) :
    (∃ t' fm', map N present t c pma type fm = .ok (true, t', fm') ∧ Spent (L - N) fm fm') ∧
      atLeast (L - N) fm ∨ (∃ f, map N present t c pma type fm = .error f) ∧
      ¬ atLeast (L - N) fm := by
  have hle := walk_le t pagelevels c
  rw [hw] at hle
  dsimp only at hle
  have hopen := opening hinv hw hpres hle (L - N) (by omega)
  have hd : pagelevels - L + (L - N) = pagelevels - N := by omega
  have hlevel : pagelevels - (pagelevels - N) = N := by omega
  rw [hd] at hopen
  cases hopen with
  | opened t' fm' calls fed spent empty =>
    rw [hlevel] at empty
    have hreached := (mapTable_spec (show pagelevels - N < pagelevels by omega) calls).reached
    rw [hlevel] at hreached
    refine .inl ⟨⟨_, fm', map_of_mapTable hal hpma calls (decide_eq_true hreached) empty, spent⟩,
      ?_⟩
    simpa using (spent.atLeast 0).mp (atLeast_zero fm')
  | starved f calls hungry few unlocked => exact .inr ⟨map_of_mapTable_error calls, few⟩
  | stuck f calls fed locked => exact absurd (locked.symm.trans hlp) (by simp)

/-- **A failed table allocation is never reported**: `map` is atomic exactly where none can fail,
which is where as many frames are free as tables are missing.  With `lplock` left acquired by an
earlier failure, the request spins instead. -/
theorem map_starved_atomic_iff (h1 : 1 ≤ N) (hN : N < pagelevels) (hinv : Inv fm) (present : Bool)
    (t : Tables) (vma : ℕ) (pma type : PageEntry) :
    FailsCleanly N present t vma pma type fm ↔ (vma % pagesize N = 0 → pma &&& ~~~ADDR = 0 →
      fm.lplock = false → atLeast (missing N t vma) fm) := by
  obtain ⟨L, e, hw⟩ : ∃ L e, walk t pagelevels vma = (L, e) := ⟨_, _, rfl⟩
  have hL : L ≤ pagelevels := by
    have := walk_le t pagelevels vma
    rwa [hw] at this
  have hmiss : missing N t vma = if e.present then 0 else L - N := by rw [missing, hw]
  have hfine : starves (pagelevels - N) t vma fm = false → missing N t vma = 0 →
      (FailsCleanly N present t vma pma type fm ↔ (vma % pagesize N = 0 → pma &&& ~~~ADDR = 0 →
        fm.lplock = false → atLeast (missing N t vma) fm)) := by
    intro hfed hzero
    refine iff_of_true (fun _ _ hs => ?_) fun _ _ _ => hzero ▸ atLeast_zero fm
    rw [hfed] at hs
    cases hs
  rcases Nat.lt_or_ge N L with hlt | hge
  · cases hpres : e.present
    · have hopen := opening hinv hw hpres hL (L - N) (by omega)
      rw [show pagelevels - L + (L - N) = pagelevels - N by omega] at hopen
      rw [hpres] at hmiss
      rw [hmiss, if_neg Bool.false_ne_true]
      cases hopen with
      | opened t' fm' calls fed spent empty =>
        refine iff_of_true (fun _ _ hs => ?_) fun _ _ _ => ?_
        · rw [fed] at hs
          cases hs
        · simpa using (spent.atLeast 0).mp (atLeast_zero fm')
      | starved f calls hungry few unlocked =>
        obtain ⟨g, hg⟩ : ∃ g, map N present t vma pma type fm = .error g :=
          map_of_mapTable_error calls
        refine ⟨fun h hal hpma _ => ?_, fun h hal hpma _ => absurd (h hal hpma unlocked) few⟩
        obtain ⟨t', fm', hmap, -⟩ := h hal hpma hungry
        rw [hg] at hmap
        cases hmap
      | stuck f calls fed locked =>
        refine iff_of_true (fun _ _ hs => ?_) fun _ _ hlp => ?_
        · rw [fed] at hs
          cases hs
        · rw [locked] at hlp
          cases hlp
    · refine hfine (not_starves_of_page (by omega) hw (by omega) hpres) ?_
      rw [hmiss, hpres, if_pos rfl]
  · refine hfine (not_starves_of_le (by omega) (by rw [hw]; omega)) ?_
    rw [hmiss, Nat.sub_eq_zero_of_le hge, ite_self]

/-- A new process has no tables in its half of the address space. -/
def noTables : Tables := fun _ _ => 0

/-- Three tables are missing and sixteen frames are free. -/
theorem map_starved_atomic_threeTables : ∃ fm, Inv fm ∧ missing 1 noTables (2 ^ 22) = 3 ∧
    FailsCleanly 1 true noTables (2 ^ 22) 0x5000 data fm := by
  obtain ⟨fm, h⟩ := exists_hasFrames
  have hmiss : missing 1 noTables (2 ^ 22) = 3 := by decide
  refine ⟨fm, h.inv, hmiss, (map_starved_atomic_iff le_rfl (by decide) h.inv _ _ _ _ _).mpr ?_⟩
  intro _ _ _
  obtain ⟨S, hcard, hS⟩ := h.frames
  exact hmiss ▸ ⟨S, by omega, hS⟩

/-- **No frame is left**: the entry of the missing table gets `topaddr`, and the `memset` that
follows faults. -/
theorem map_without_frames : ∃ fm, Inv fm ∧ fm.lplock = false ∧
    map 1 true noTables (2 ^ 22) 0x5000 data fm = .error .outOfBounds ∧
    ¬ FailsCleanly 1 true noTables (2 ^ 22) 0x5000 data fm := by
  obtain ⟨fm, -, hinv, hlp, -, hnone⟩ := init_spec (show 0 < 2 ^ 21 by decide) (by decide)
  obtain ⟨⟨a, fm'⟩, halloc⟩ := allocFrame1_returns hinv.unlocked hlp
  obtain rfl : a = topaddr := by
    rcases allocFrame1_spec hinv halloc with ⟨rfl, -⟩ | ⟨f, -, -, ht⟩
    · rfl
    · exact absurd (ht.wasFree f rfl) (hnone f)
  have halloc : fm.allocFrame pagetablepl = .ok (topaddr, fm') := halloc
  have hzero : (noTables (3 + 1) (index (3 + 1) (2 ^ 22))).present = false := by decide
  have htop : mapTable 1 noTables (2 ^ 22) fm = .error .outOfBounds := by
    rw [mapTable, mapTable]
    simp only [show pagelevels - (0 + 1) = 3 from rfl, hzero, halloc, Bool.false_eq_true, if_false,
      if_true]
  have htab : mapTable (pagelevels - 1) noTables (2 ^ 22) fm = .error .outOfBounds := by
    rw [show pagelevels - 1 = 3 from rfl, mapTable, mapTable, htop]
  have hstarves : starves (pagelevels - 1) noTables (2 ^ 22) fm = true := by
    have h1 : starves 1 noTables (2 ^ 22) fm = true := by
      rw [starves, mapTable]
      simp only [show pagelevels - (0 + 1) = 3 from rfl, hzero, halloc, decide_true, Bool.not_false,
        Bool.and_self, Bool.or_true]
    rw [show pagelevels - 1 = 3 from rfl, starves, starves, h1]
    rfl
  have hmap : map 1 true noTables (2 ^ 22) 0x5000 data fm = .error .outOfBounds := by
    rw [map, if_neg (by decide), if_neg (by decide), htab]
  refine ⟨fm, hinv, hlp, hmap, fun h => ?_⟩
  obtain ⟨t', fm'', hok, -⟩ := h (by decide) (by decide) hstarves
  rw [hmap] at hok
  cases hok

end Paging

end Kos
