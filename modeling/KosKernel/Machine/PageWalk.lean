import KosKernel.Machine.Paging
import KosKernel.Kernel.FreeFrames

/-!
# Machine/PageWalk — how the operations change the translation of an address

Everything the kernel does to its page tables is read off `walk`.  Clearing or replacing the entry a
walk stops at changes the walks through that entry and no others (`walk_setPE`), and `map` turns the
missing entry above the page into tables whose other entries are empty (`map_spec`).
-/

namespace Kos

namespace Paging

open PageEntry

variable {t t' : Tables} {N K M x y c : ℕ} {e e' : PageEntry}

/-! ## Indices -/

theorem pagesize_dvd (h : 1 ≤ N) (hNK : N ≤ K) : pagesize N ∣ pagesize K := by
  refine Nat.pow_dvd_pow 2 ?_
  simp only [pagesizebits, pageoffsetbits, pagetablebits]
  omega

theorem pagesize_dvd_pagebits (h : N ≤ pagelevels) : pagesize N ∣ 2 ^ pagebits := by
  refine Nat.pow_dvd_pow 2 ?_
  simp only [pagesizebits, pagebits, pageoffsetbits, pagetablebits, pagelevels] at *
  omega

/-- Within the window, the index is the page number, cut to the translated bits. -/
theorem index_eq (h : N ≤ pagelevels) (x : ℕ) :
    index N x = x / pagesize N % (2 ^ pagebits / pagesize N) := by
  obtain ⟨k, hk⟩ := pagesize_dvd_pagebits h
  rw [index, hk, Nat.mod_mul_right_div_self, Nat.mul_div_cancel_left _ (pagesize_pos N)]

theorem index_congr (h : N ≤ pagelevels) (hxy : x / pagesize N = y / pagesize N) :
    index N x = index N y := by
  rw [index_eq h, index_eq h, hxy]

/-- Two addresses with one index have one index at every level above. -/
theorem index_mono (h : 1 ≤ N) (hNK : N ≤ K) (hxy : index N x = index N y) :
    index K x = index K y := by
  obtain ⟨k, hk⟩ := pagesize_dvd h hNK
  rw [index, index, hk, ← Nat.div_div_eq_div_mul, ← Nat.div_div_eq_div_mul]
  exact congrArg (· / k) hxy

/-! ## Walks -/

theorem isPage_one (e : PageEntry) : isPage 1 e = true := by simp [isPage, pagelevels]

theorem isTable_one (e : PageEntry) : isTable 1 e = false := by simp [isTable, isPage_one]

theorem isTable_eq_false_of_not_present (h : e.present = false) : isTable N e = false := by
  simp [isTable, h]

theorem isTable_eq_false_of_isPage (h : isPage N e = true) : isTable N e = false := by
  simp [isTable, h]

theorem walk_le (t : Tables) (K x : ℕ) : (walk t K x).1 ≤ K := by
  induction K with
  | zero => exact le_rfl
  | succ K ih =>
    rw [walk]
    split
    · exact ih.trans (Nat.le_succ K)
    · exact le_rfl

theorem one_le_walk (t : Tables) (hK : 1 ≤ K) (x : ℕ) : 1 ≤ (walk t K x).1 := by
  induction K with
  | zero => omega
  | succ K ih =>
    rw [walk]
    split
    · rename_i htab
      rcases Nat.eq_zero_or_pos K with rfl | hK
      · rw [isTable_one] at htab
        cases htab
      · exact ih hK
    · exact Nat.succ_pos K

/-- The walk stops at an entry of the window that is not a table. -/
theorem walk_entry (hK : 1 ≤ K) (h : walk t K x = (N, e)) :
    e = t N (index N x) ∧ isTable N e = false := by
  induction K with
  | zero => omega
  | succ K ih =>
    rw [walk] at h
    split at h
    · rename_i htab
      rcases Nat.eq_zero_or_pos K with rfl | hK
      · rw [isTable_one] at htab
        cases htab
      · exact ih hK h
    · rename_i htab
      cases h
      exact ⟨rfl, by simpa using htab⟩

/-- Above the entry where a walk stops there are tables. -/
theorem isTable_of_lt_walk {n : ℕ} (h : (walk t K x).1 < n) (hn : n ≤ K) :
    isTable n (t n (index n x)) = true := by
  induction K with
  | zero => omega
  | succ K ih =>
    rw [walk] at h
    split at h
    · rename_i htab
      rcases Nat.of_le_succ hn with hle | rfl
      · exact ih h hle
      · exact htab
    · exact absurd h (not_lt.mpr hn)

theorem present_of_isTable (h : isTable N e = true) : e.present = true :=
  ((Bool.and_eq_true _ _).mp h).1

/-- A walk that reaches level `N` and finds no table there stops there. -/
theorem walk_eq_of_le (hN : 1 ≤ N) (hNK : N ≤ K) (h : (walk t K x).1 ≤ N)
    (he : isTable N (t N (index N x)) = false) : walk t K x = (N, t N (index N x)) := by
  induction K with
  | zero => omega
  | succ K ih =>
    rw [walk] at h ⊢
    split
    · rename_i htab
      rw [if_pos htab] at h
      rcases Nat.lt_or_ge K N with hlt | hge
      · obtain rfl : N = K + 1 := by omega
        rw [htab] at he
        cases he
      · exact ih hge h
    · rename_i htab
      rw [if_neg htab] at h
      obtain rfl : N = K + 1 := le_antisymm hNK h
      rfl

/-- Walks through the same entries agree. -/
theorem walk_congr (hx : (walk t K x).1 = N) (hN : 1 ≤ N) (hxy : index N x = index N y) :
    walk t K y = walk t K x := by
  induction K with
  | zero => rfl
  | succ K ih =>
    rw [walk] at hx ⊢
    rw [walk]
    have hle : N ≤ K + 1 := by
      split at hx
      · exact (hx ▸ walk_le t K x).trans (Nat.le_succ K)
      · exact hx.ge
    rw [← index_mono hN hle hxy]
    split at hx
    · rename_i htab
      rw [if_pos htab, if_pos htab]
      exact ih hx
    · rename_i htab
      rw [if_neg htab, if_neg htab]

/-- Addresses of one page are translated alike. -/
theorem walk_of_index {y : ℕ} (h : index 1 x = index 1 y) :
    walk t pagelevels x = walk t pagelevels y := by
  have h1 := one_le_walk t (show 1 ≤ pagelevels by decide) x
  exact (walk_congr rfl h1 (index_mono le_rfl h1 h)).symm

/-- A walk reads one entry of each level. -/
theorem walk_ext {t' : Tables} (h : ∀ n ≤ K, t' n (index n x) = t n (index n x)) :
    walk t' K x = walk t K x := by
  induction K with
  | zero => rfl
  | succ K ih => rw [walk, walk, h (K + 1) le_rfl, ih fun n hn => h n (hn.trans (Nat.le_succ K))]

@[simp] theorem setPE_self (t : Tables) (n i : ℕ) (e : PageEntry) : setPE t (n, i) e n i = e := by
  simp [setPE]

theorem setPE_of_ne (t : Tables) {n i m j : ℕ} (e : PageEntry) (h : ¬ (n = m ∧ i = j)) :
    setPE t (m, j) e n i = t n i := by
  simp [setPE, h]

/-- **Replacing an entry of the window by one that is no table** changes the walks through that
entry and no others. -/
theorem walk_setPE_of_le (h : (walk t K c).1 ≤ M) (hM : 1 ≤ M) (hMK : M ≤ K)
    (he : isTable M e' = false) (x : ℕ) :
    walk (setPE t (M, index M c) e') K x = if index M x = index M c then (M, e')
      else walk t K x := by
  induction K with
  | zero => omega
  | succ K ih =>
    rw [walk, walk]
    rcases Nat.of_le_succ hMK with hle | rfl
    · -- the entry is below this level, so there is a table above it
      have htab := isTable_of_lt_walk (lt_of_le_of_lt h (Nat.lt_succ_of_le hle)) le_rfl
      rw [walk, if_pos htab] at h
      rw [setPE_of_ne _ _ (by omega)]
      by_cases htab' : isTable (K + 1) (t (K + 1) (index (K + 1) x)) = true
      · rw [if_pos htab', if_pos htab', ih h hle]
      · rw [if_neg htab', if_neg htab', if_neg]
        intro hi
        rw [index_mono hM (hle.trans (Nat.le_succ K)) hi] at htab'
        exact htab' htab
    · by_cases hi : index (K + 1) x = index (K + 1) c
      · rw [if_pos hi, hi, setPE_self, if_neg (by simp [he])]
      · rw [if_neg hi, setPE_of_ne _ _ (fun hc => hi hc.2),
          walk_ext fun n hn => setPE_of_ne _ _ (by omega)]

/-- The entry a walk stops at is replaced. -/
theorem walk_setPE (h : walk t K c = (M, e)) (hK : 1 ≤ K) (he : isTable M e' = false) (x : ℕ) :
    walk (setPE t (M, index M c) e') K x = if index M x = index M c then (M, e')
      else walk t K x := by
  have hM : 1 ≤ M := by
    have := one_le_walk t hK c
    rwa [h] at this
  have hMK : M ≤ K := by
    have := walk_le t K c
    rwa [h] at this
  exact walk_setPE_of_le (by rw [h]) hM hMK he x

theorem index_succ (hN : 1 ≤ N) (x : ℕ) : index (N + 1) x = index N x / pagetableentries := by
  have hsize : pagesize (N + 1) = pagesize N * pagetableentries := by
    obtain ⟨n, rfl⟩ : ∃ n, N = n + 1 := ⟨N - 1, by omega⟩
    simp only [pagesize, pagesizebits, pagetableentries, ← pow_add]
    refine congrArg _ ?_
    simp only [pageoffsetbits, pagetablebits]
    omega
  rw [index, index, hsize, Nat.div_div_eq_div_mul]

theorem isTable_zero (N : ℕ) : isTable N 0 = false := isTable_eq_false_of_not_present (by decide)

/-- Emptying a fresh table: the walk goes one level down and finds an empty entry there. -/
theorem walk_zeroTable (h : walk t K c = (N + 1, e)) (hN : 1 ≤ N) (hK : 1 ≤ K)
    (he : isTable (N + 1) e' = true) (x : ℕ) :
    walk (zeroTable (setPE t (N + 1, index (N + 1) c) e') N c) K x =
      if index (N + 1) x = index (N + 1) c then (N, 0) else walk t K x := by
  have hlow : ∀ {n y}, index (N + 1) y ≠ index (N + 1) c → n ≤ N + 1 →
      zeroTable (setPE t (N + 1, index (N + 1) c) e') N c n (index n y) = t n (index n y) := by
    intro n y hne hn
    rw [zeroTable, if_neg, setPE_of_ne]
    · rintro ⟨rfl, hi⟩
      exact hne hi
    · rintro ⟨rfl, hi⟩
      exact hne ((index_succ hN y).trans hi)
  induction K with
  | zero => omega
  | succ K ih =>
    rw [walk] at h
    rw [walk, walk]
    split at h
    · rename_i htab
      have hlt : N + 1 ≤ K := by
        have := walk_le t K c
        rwa [h] at this
      have hsame : zeroTable (setPE t (N + 1, index (N + 1) c) e') N c (K + 1) (index (K + 1) x) =
          t (K + 1) (index (K + 1) x) := by
        rw [zeroTable, if_neg (by omega), setPE_of_ne _ _ (by omega)]
      rw [hsame]
      by_cases htab' : isTable (K + 1) (t (K + 1) (index (K + 1) x)) = true
      · rw [if_pos htab', if_pos htab', ih h (by omega)]
      · rw [if_neg htab', if_neg htab', if_neg]
        intro hi
        rw [index_mono (by omega) (by omega : N + 1 ≤ K + 1) hi] at htab'
        exact htab' htab
    · obtain ⟨hNK, rfl⟩ := Prod.mk.inj h
      obtain rfl : K = N := by omega
      by_cases hi : index (K + 1) x = index (K + 1) c
      · -- the new table, at an index that has been emptied
        have hnew :
            zeroTable (setPE t (K + 1, index (K + 1) c) e') K c (K + 1) (index (K + 1) x) = e' := by
          rw [zeroTable, if_neg (by omega), hi, setPE_self]
        have hzero : zeroTable (setPE t (K + 1, index (K + 1) c) e') K c K (index K x) = 0 := by
          rw [zeroTable, if_pos ⟨rfl, (index_succ hN x).symm.trans hi⟩]
        rw [if_pos hi, hnew, if_pos he]
        obtain ⟨k, rfl⟩ : ∃ k, K = k + 1 := ⟨K - 1, by omega⟩
        rw [walk, hzero, isTable_zero, if_neg Bool.false_ne_true]
      · rw [if_neg hi, hlow hi le_rfl, walk_ext fun n hn => hlow hi (hn.trans (Nat.le_succ K))]

/-! ## `map` -/

variable {fm fm' : FrameManager}

/-- `allocFrame<1>` returns the address of a frame or `topaddr`. -/
theorem allocFrame1_mod {a : ℕ} (h : fm.allocFrame1 = .ok (a, fm')) :
    a = topaddr ∨ a % sps = 0 := by
  have htake : ∀ {fm : FrameManager}, fm.takeSmall = .ok (a, fm') → a % sps = 0 := by
    intro fm h
    unfold FrameManager.takeSmall at h
    split at h
    · cases h
    cases h
    rw [show dps = 512 * sps from rfl, ← mul_assoc, ← Nat.add_mul]
    exact Nat.mul_mod_left _ _
  obtain ⟨-, h⟩ := scopedLock_eq_ok.mp h
  split at h
  · split at h
    · cases h
    dsimp only at h
    split at h
    · exact Or.inl (Prod.mk.inj (Except.ok.inj h)).1.symm
    · exact Or.inr (htake h)
  · exact Or.inr (htake h)

theorem testBit_of_mod {a k i : ℕ} (h : a % 2 ^ k = 0) (hi : i < k) : a.testBit i = false :=
  mod_two_pow_eq_zero_iff.mp h i hi

/-- The entry `mapTable` writes is a table. -/
theorem large_pageTable {pma : ℕ} (hpma : pma % sps = 0) :
    large (BitVec.ofNat 64 pma ||| pageTable) = false := by
  have hPS : pageTable.getLsbD 7 = false := by decide
  have hbit : pma.testBit 7 = false := testBit_of_mod (k := 12) hpma (by decide)
  rw [large, BitVec.getLsbD_or, BitVec.getLsbD_ofNat, hPS, hbit]
  rfl

theorem isTable_pageTable {pma : ℕ} (hpma : pma % sps = 0) (hN : 1 < N) :
    isTable N (BitVec.ofNat 64 pma ||| pageTable) = true := by
  have hP : pageTable.getLsbD 0 = true := by decide
  have hlarge := large_pageTable hpma
  have hpres : present (BitVec.ofNat 64 pma ||| pageTable) = true := by
    rw [present, BitVec.getLsbD_or, hP, Bool.or_true]
  simp [isTable, isPage, hlarge, hpres, hN.ne']

/-- What opening a path to level `N` at address `c` does: the entries of the new tables are empty,
and all other translations stay. -/
structure Opened (N : ℕ) (t t' : Tables) (c : ℕ) : Prop where
  reached : (walk t' pagelevels c).1 ≤ N
  above : walk t' pagelevels c = walk t pagelevels c ∨ N ≤ (walk t pagelevels c).1
  same_or_empty : ∀ x, walk t' pagelevels x = walk t pagelevels x ∨
    (index (walk t pagelevels c).1 x = index (walk t pagelevels c).1 c ∧
      (walk t pagelevels c).2.present = false ∧ (walk t' pagelevels x).2 = 0)

variable {d : ℕ}

/-- **One level of `mapTable`**: it has failed above, or there is an entry already, or there is
nothing and a new table is made. -/
theorem mapTable_cases {b : Bool} (h : mapTable (d + 1) t c fm = .ok (b, t', fm')) :
    (b = false ∧ mapTable d t c fm = .ok (false, t', fm')) ∨ ∃ N t₁ fm₁, pagelevels - (d + 1) = N ∧
      mapTable d t c fm = .ok (true, t₁, fm₁) ∧
      ((t₁ (N + 1) (index (N + 1) c)).present = true ∧
        b = !isPage (N + 1) (t₁ (N + 1) (index (N + 1) c)) ∧ t' = t₁ ∧ fm' = fm₁ ∨
      (t₁ (N + 1) (index (N + 1) c)).present = false ∧ b = true ∧ ∃ pma,
        fm₁.allocFrame pagetablepl = .ok (pma, fm') ∧ pma ≠ topaddr ∧ t' = zeroTable
          (setPE t₁ (N + 1, index (N + 1) c) (BitVec.ofNat 64 pma ||| pageTable)) N c) := by
  rw [mapTable] at h
  split at h
  · cases h
  · cases h
    exact .inl ⟨rfl, ‹_›⟩
  · rename_i t₁ fm₁ h₁
    refine .inr ⟨_, t₁, fm₁, rfl, h₁, ?_⟩
    dsimp only at h
    split at h
    · cases h
      exact .inl ⟨‹_›, rfl, rfl, rfl⟩
    rename_i hpres
    split at h
    · cases h
    rename_i pma fm₂ halloc
    split at h
    · cases h
    · cases h
      exact .inr ⟨by simpa using hpres, rfl, pma, halloc, ‹_›, rfl⟩

/-- Where `mapTable` returns true, there is a table now. -/
theorem mapTable_succ (h : mapTable (d + 1) t c fm = .ok (true, t', fm')) :
    ∃ N t₁ fm₁, pagelevels - (d + 1) = N ∧ mapTable d t c fm = .ok (true, t₁, fm₁) ∧
      (isTable (N + 1) (t₁ (N + 1) (index (N + 1) c)) = true ∧ t' = t₁ ∨
        (t₁ (N + 1) (index (N + 1) c)).present = false ∧ ∃ pma, pma % sps = 0 ∧ t' = zeroTable
          (setPE t₁ (N + 1, index (N + 1) c) (BitVec.ofNat 64 pma ||| pageTable)) N c) := by
  obtain ⟨hb, -⟩ | ⟨N, t₁, fm₁, hN, h₁, hcase⟩ := mapTable_cases h
  · cases hb
  refine ⟨N, t₁, fm₁, hN, h₁, ?_⟩
  obtain ⟨hpres, hpage, rfl, -⟩ | ⟨hpres, -, pma, halloc, htop, rfl⟩ := hcase
  · exact .inl ⟨by rw [isTable, hpres, Bool.true_and, ← hpage], rfl⟩
  · exact .inr ⟨hpres, pma, (allocFrame1_mod halloc).resolve_left htop, rfl⟩

/-- New tables are empty. -/
theorem mapTable_entry {d : ℕ} (hd : d < pagelevels) (i : ℕ)
    (h : mapTable d t c fm = .ok (true, t', fm')) : t' 1 i = t 1 i ∨ t' 1 i = 0 := by
  induction d generalizing t' fm' with
  | zero =>
    cases h
    exact .inl rfl
  | succ d ih =>
    obtain ⟨N, t₁, fm₁, hN, h₁, hcase⟩ := mapTable_succ h
    rcases hcase with ⟨-, rfl⟩ | ⟨-, pma, -, rfl⟩
    · exact ih (by omega) h₁
    · rw [zeroTable]
      split
      · exact .inr rfl
      · rw [setPE_of_ne _ _ (by omega)]
        exact ih (by omega) h₁

theorem mapTable_spec (hd : d < pagelevels) (h : mapTable d t c fm = .ok (true, t', fm')) :
    Opened (pagelevels - d) t t' c := by
  induction d generalizing fm' t' with
  | zero =>
    cases h
    exact ⟨walk_le _ _ _, Or.inl rfl, fun x => Or.inl rfl⟩
  | succ d ih =>
    obtain ⟨N, t₁, fm₁, hN, h₁, hcase⟩ := mapTable_succ h
    have hopen := ih (by omega) h₁
    have hN1 : 1 ≤ N := by omega
    rw [show pagelevels - d = N + 1 by omega] at hopen
    rw [hN]
    rcases hcase with ⟨htab, rfl⟩ | ⟨hpres, pma, hpma, rfl⟩
    · refine ⟨?_, hopen.above.imp_right (by omega), hopen.same_or_empty⟩
      by_contra hgt
      have hlevel : (walk t' pagelevels c).1 = N + 1 := by
        have := hopen.reached
        omega
      obtain ⟨he, hno⟩ := walk_entry (by decide) (show walk t' pagelevels c = (N + 1, _) from
        Prod.ext hlevel rfl)
      rw [he, htab] at hno
      cases hno
    · have hwalk := walk_eq_of_le (by omega) (by omega) hopen.reached
        (isTable_eq_false_of_not_present hpres)
      have hnew := walk_zeroTable hwalk hN1 (by decide) (isTable_pageTable hpma (by omega))
      have hge : N + 1 ≤ (walk t pagelevels c).1 :=
        hopen.above.elim (fun hsame => by rw [← hsame, hwalk]) id
      refine ⟨?_, Or.inr (by omega), fun x => ?_⟩
      · rw [hnew, if_pos rfl]
      · rw [hnew]
        split
        · -- in the new table: it was the missing entry, or below it
          rename_i hx
          refine Or.inr ?_
          rcases hopen.same_or_empty c with hsame | ⟨-, hmiss, -⟩
          · rw [← hsame, hwalk]
            exact ⟨hx, hpres, rfl⟩
          · exact ⟨index_mono (by omega) hge hx, hmiss, rfl⟩
        · exact hopen.same_or_empty x

/-- `mapTable<N>` does not make a walk go below level `N`. -/
theorem mapTable_level (hd : d < pagelevels) (hM : M ≤ pagelevels - d)
    (hx : M ≤ (walk t pagelevels x).1) (h : mapTable d t c fm = .ok (true, t', fm')) :
    M ≤ (walk t' pagelevels x).1 := by
  induction d generalizing fm' t' with
  | zero =>
    cases h
    exact hx
  | succ d ih =>
    obtain ⟨N, t₁, fm₁, hN, h₁, hcase⟩ := mapTable_succ h
    have hup := ih (by omega) (by omega) h₁
    rcases hcase with ⟨-, rfl⟩ | ⟨hpres, pma, hpma, rfl⟩
    · exact hup
    · have hopen := mapTable_spec (by omega) h₁
      rw [show pagelevels - d = N + 1 by omega] at hopen
      have hwalk := walk_eq_of_le (by omega) (by omega) hopen.reached
        (isTable_eq_false_of_not_present hpres)
      rw [walk_zeroTable hwalk (by omega) (by decide) (isTable_pageTable hpma (by omega))]
      split
      · exact hN ▸ hM
      · exact hup

/-- `mapTable` makes a walk longer, and only below the entries that lead to `c`. -/
theorem mapTable_levels (hd : d < pagelevels) (x : ℕ)
    (h : mapTable d t c fm = .ok (true, t', fm')) :
    (walk t' pagelevels x).1 ≤ (walk t pagelevels x).1 ∧ ∀ k, 1 ≤ k → index k x ≠ index k c →
      k ≤ (walk t pagelevels x).1 → k ≤ (walk t' pagelevels x).1 := by
  induction d generalizing fm' t' with
  | zero =>
    cases h
    exact ⟨le_rfl, fun _ _ _ hk => hk⟩
  | succ d ih =>
    obtain ⟨N, t₁, fm₁, hN, h₁, hcase⟩ := mapTable_succ h
    obtain ⟨hdown, hkeep⟩ := ih (by omega) h₁
    rcases hcase with ⟨-, rfl⟩ | ⟨hpres, pma, hpma, rfl⟩
    · exact ⟨hdown, hkeep⟩
    · have hopen := mapTable_spec (by omega) h₁
      rw [show pagelevels - d = N + 1 by omega] at hopen
      have hwalk := walk_eq_of_le (by omega) (by omega) hopen.reached
        (isTable_eq_false_of_not_present hpres)
      rw [walk_zeroTable hwalk (by omega) (by decide) (isTable_pageTable hpma (by omega))]
      split
      · -- in the new table
        rename_i hx
        refine ⟨?_, fun k hk hne _ => ?_⟩
        · rw [walk_congr (congrArg Prod.fst hwalk) (by omega) hx.symm, hwalk] at hdown
          exact (Nat.le_succ N).trans hdown
        · by_contra hlt
          exact hne (index_mono (by omega) (by dsimp only at hlt; omega) hx)
      · exact ⟨hdown, hkeep⟩

/-- The leaf entry `map` writes. -/
def leaf (N : ℕ) (present : Bool) (pma type : PageEntry) : PageEntry :=
  pma ||| type ||| pageBit N ||| if present then P else 0

variable {pma type : PageEntry}

theorem isTable_leaf {present : Bool} (h1 : 1 ≤ N) (hN : N < pagelevels) :
    isTable N (leaf N present pma type) = false := by
  refine isTable_eq_false_of_isPage ?_
  rw [isPage, decide_eq_true hN, Bool.true_and, Bool.or_eq_true, beq_iff_eq]
  rcases h1.eq_or_lt with h1 | h1
  · exact Or.inl h1.symm
  · have hPS : PS.getLsbD 7 = true := by decide
    refine Or.inr ?_
    rw [large, leaf, pageBit, if_pos h1, BitVec.getLsbD_or, BitVec.getLsbD_or, hPS, Bool.or_true,
      Bool.true_or]

theorem aligned_pagesize {vma : ℕ} : aligned vma (pagesize N) = true ↔ vma % pagesize N = 0 :=
  aligned_iff

/-- What `map` does after `mapTable`. -/
theorem map_eq_ok {present : Bool} (h : map N present t c pma type fm = .ok (true, t', fm')) :
    c % pagesize N = 0 ∧ pma &&& ~~~ADDR = 0 ∧
      ∃ t₁, mapTable (pagelevels - N) t c fm = .ok (true, t₁, fm') ∧
      inWindow t₁ N c = true ∧ (t₁ N (index N c)).present = false ∧
      t' = setPE t₁ (N, index N c) (leaf N present pma type) := by
  unfold map at h
  split at h
  · cases h
  rename_i hal
  split at h
  · cases h
  rename_i hpma
  refine ⟨aligned_pagesize.mp (by simpa using hal), not_not.mp hpma, ?_⟩
  split at h
  · cases h
  · cases h
  · rename_i t₁ fm₁ htab
    split at h
    · cases h
    rename_i hwin
    split at h
    · cases h
    rename_i hpres
    cases h
    exact ⟨t₁, htab, by simpa using hwin, by simpa using hpres, rfl⟩

/-- The converse: `map` succeeds where `mapTable` finds a free entry. -/
theorem map_of_mapTable {present : Bool} {t₁ : Tables} (hal : c % pagesize N = 0)
    (hpma : pma &&& ~~~ADDR = 0) (htab : mapTable (pagelevels - N) t c fm = .ok (true, t₁, fm'))
    (hwin : inWindow t₁ N c = true) (hpres : (t₁ N (index N c)).present = false) :
    map N present t c pma type fm =
      .ok (true, setPE t₁ (N, index N c) (leaf N present pma type), fm') := by
  rw [map, if_neg (by simp [aligned_pagesize.mpr hal]), if_neg (not_not.mpr hpma), htab]
  simp only [hwin, hpres, Bool.true_eq_false, Bool.false_eq_true, if_false, leaf]

/-- **What `map` does to the translations**: the page gets its leaf, and at most empty entries
appear around it. -/
structure Mapped (N : ℕ) (e : PageEntry) (t t' : Tables) (c : ℕ) : Prop where
  missing : (walk t pagelevels c).2.present = false
  page : ∀ x, index N x = index N c → walk t' pagelevels x = (N, e)
  same_or_empty : ∀ x, index N x ≠ index N c → walk t' pagelevels x = walk t pagelevels x ∨
    (index (walk t pagelevels c).1 x = index (walk t pagelevels c).1 c ∧
      (walk t' pagelevels x).2 = 0)

theorem map_spec (h1 : 1 ≤ N) (hN : N < pagelevels) {present : Bool}
    (h : map N present t c pma type fm = .ok (true, t', fm')) :
    c % pagesize N = 0 ∧ pma &&& ~~~ADDR = 0 ∧ Mapped N (leaf N present pma type) t t' c := by
  obtain ⟨hal, hpma, t₁, htab, -, hpres, rfl⟩ := map_eq_ok h
  have hopen := mapTable_spec (by omega) htab
  rw [show pagelevels - (pagelevels - N) = N by omega] at hopen
  have hwalk := walk_eq_of_le h1 hN.le hopen.reached (isTable_eq_false_of_not_present hpres)
  have hset := walk_setPE hwalk (by decide) (isTable_leaf h1 hN : isTable N
    (leaf N present pma type) = false)
  refine ⟨hal, hpma, ?_, ?_, ?_⟩
  · rcases hopen.same_or_empty c with hsame | ⟨-, hmiss, -⟩
    · rw [← hsame, hwalk]
      exact hpres
    · exact hmiss
  · intro x hx
    exact (hset x).trans (if_pos hx)
  · intro x hx
    have hx' := (hset x).trans (if_neg hx)
    rcases hopen.same_or_empty x with hsame | ⟨hidx, -, hzero⟩
    · exact Or.inl (hx'.trans hsame)
    · exact Or.inr ⟨hidx, (congrArg Prod.snd hx').trans hzero⟩

/-- Outside its page, `map<N>` does not make a walk go below level `N`. -/
theorem map_level (h1 : 1 ≤ N) (hN : N < pagelevels) {present : Bool}
    (h : map N present t c pma type fm = .ok (true, t', fm')) (hne : index N x ≠ index N c)
    (hx : N ≤ (walk t pagelevels x).1) : N ≤ (walk t' pagelevels x).1 := by
  obtain ⟨-, -, t₁, htab, hwin, -, rfl⟩ := map_eq_ok h
  have hlevel := mapTable_level (show pagelevels - N < pagelevels by omega) (by omega) hx htab
  rw [walk_setPE_of_le (of_decide_eq_true hwin) h1 hN.le (isTable_leaf h1 hN), if_neg hne]
  exact hlevel

/-- **`map` makes a walk longer**, and only below the entries that lead to its page. -/
theorem map_levels (h1 : 1 ≤ N) (hN : N < pagelevels) {present : Bool}
    (h : map N present t c pma type fm = .ok (true, t', fm')) (hne : index N x ≠ index N c) :
    (walk t' pagelevels x).1 ≤ (walk t pagelevels x).1 ∧
      ∀ k, 1 ≤ k → index k x ≠ index k c → k ≤ (walk t pagelevels x).1 →
      k ≤ (walk t' pagelevels x).1 := by
  obtain ⟨-, -, t₁, htab, hwin, -, rfl⟩ := map_eq_ok h
  rw [walk_setPE_of_le (of_decide_eq_true hwin) h1 hN.le (isTable_leaf h1 hN), if_neg hne]
  exact mapTable_levels (by omega) x htab

/-- Below a missing entry, a new page leaves the rest empty. -/
theorem Mapped.empty (h : Mapped N e t t' c) (hlt : N < (walk t pagelevels c).1)
    (hL : index (walk t pagelevels c).1 x = index (walk t pagelevels c).1 c)
    (hne : index N x ≠ index N c) : (walk t' pagelevels x).2 = 0 := by
  rcases h.same_or_empty x hne with hsame | ⟨-, hzero⟩
  · -- the walk would stop above the page for `c` too
    have hx : walk t' pagelevels x = walk t pagelevels c :=
      hsame.trans (walk_congr rfl (by omega) hL.symm)
    have hc := walk_congr (congrArg Prod.fst hx) (by omega) hL
    rw [h.page c rfl, hx] at hc
    exact absurd (congrArg Prod.fst hc) hlt.ne
  · exact hzero

/-- **`mapTable` returns false** only for a larger page that is present, and then changes
nothing. -/
theorem mapTable_false (hd : d < pagelevels) (h : mapTable d t c fm = .ok (false, t', fm')) :
    (∀ x, walk t' pagelevels x = walk t pagelevels x) ∧ (walk t pagelevels c).2.present = true ∧
      pagelevels - d < (walk t pagelevels c).1 := by
  induction d generalizing fm' t' with
  | zero => cases h
  | succ d ih =>
    obtain ⟨-, h₁⟩ | ⟨N, t₁, fm₁, hN, h₁, ⟨hpres, hpage, rfl, -⟩ | ⟨-, hb, -⟩⟩ := mapTable_cases h
    · obtain ⟨hwalk, hpres, hlt⟩ := ih (by omega) h₁
      exact ⟨hwalk, hpres, by omega⟩
    · have hopen := mapTable_spec (by omega) h₁
      rw [show pagelevels - d = N + 1 by omega] at hopen
      have hw₁ := walk_eq_of_le (by omega) (by omega) hopen.reached
        (isTable_eq_false_of_isPage (by simpa using hpage.symm))
      have hsame : ∀ x, walk t' pagelevels x = walk t pagelevels x ∨
          (walk t pagelevels c).2.present = false :=
        fun x => (hopen.same_or_empty x).imp_right fun h => h.2.1
      have hc : walk t' pagelevels c = walk t pagelevels c := by
        rcases hopen.same_or_empty c with hc | ⟨-, -, hzero⟩
        · exact hc
        · rw [hw₁] at hzero
          rw [show t' (N + 1) (index (N + 1) c) = 0 from hzero] at hpres
          exact absurd hpres (by decide)
      rw [← hc, hw₁]
      refine ⟨fun x => (hsame x).resolve_right ?_, hpres, by omega⟩
      rw [← hc, hw₁, hpres]
      decide
    · cases hb

theorem map_false (h1 : 1 ≤ N) (hN : N < pagelevels) {present : Bool}
    (h : map N present t c pma type fm = .ok (false, t', fm')) :
    (∀ x, walk t' pagelevels x = walk t pagelevels x) ∧ (walk t pagelevels c).2.present = true ∧
      N < (walk t pagelevels c).1 := by
  unfold map at h
  split at h
  · cases h
  split at h
  · cases h
  split at h
  · cases h
  · rename_i t₁ fm₁ htab
    cases h
    obtain ⟨hwalk, hpres, hlt⟩ := mapTable_false (by omega) htab
    exact ⟨hwalk, hpres, by omega⟩
  · split at h
    · cases h
    split at h
    · cases h
    · cases h

/-! ## `unmap` and `fault` -/

theorem present_clearP (e : PageEntry) : present (e &&& ~~~P) = false := by
  have h : (~~~P).getLsbD 0 = false := by decide
  rw [present, BitVec.getLsbD_and, h, Bool.and_false]

theorem addr_clearP (e : PageEntry) : addr (e &&& ~~~P) = addr e := by
  have h : ~~~P &&& ADDR = ADDR := by decide
  rw [addr, BitVec.and_assoc, h, addr]

/-- What `unmap1` finds and does. -/
theorem unmap1_cases (h1 : 1 ≤ N) (hN : N < pagelevels) {async : Bool} {r : Option (ℕ × ℕ)}
    (h : unmap1 N async t c = .ok (r, t')) :
    c % pagesize N = 0 ∧ ∃ e, walk t pagelevels c = (N, e) ∧
      ((r = some (N, index N c) ∧ e.present = true ∧
        t' = if async then setPE t (N, index N c) (e &&& ~~~P) else t) ∨
        (r = none ∧ e.present = false ∧ (e.addr = lazyPage ∨ e.addr = guardPage) ∧
          t' = setPE t (N, index N c) 0)) := by
  unfold unmap1 at h
  split at h
  · cases h
  rename_i hal
  split at h
  · cases h
  rename_i hwin
  dsimp only at h
  split at h
  · cases h
  rename_i hpage
  have hwalk := walk_eq_of_le h1 hN.le (by simpa [inWindow] using hwin)
    (isTable_eq_false_of_isPage (by simpa using hpage))
  refine ⟨aligned_pagesize.mp (by simpa using hal), _, hwalk, ?_⟩
  split at h
  · rename_i hpres
    cases h
    exact Or.inl ⟨rfl, hpres, rfl⟩
  · rename_i hpres
    split at h
    · rename_i haddr
      cases h
      exact Or.inr ⟨rfl, by simpa using hpres, haddr, rfl⟩
    · cases h

/-- **`unmap1`**: a page that is present loses its `P` bit; a reserved one is cleared at once. -/
theorem unmap1_spec (h1 : 1 ≤ N) (hN : N < pagelevels) {r : Option (ℕ × ℕ)}
    (h : unmap1 N true t c = .ok (r, t')) : c % pagesize N = 0 ∧ ∃ e, walk t pagelevels c = (N, e) ∧
      ((r = some (N, index N c) ∧ e.present = true ∧ t' = setPE t (N, index N c) (e &&& ~~~P)) ∨
        (r = none ∧ e.present = false ∧ (e.addr = lazyPage ∨ e.addr = guardPage) ∧
          t' = setPE t (N, index N c) 0)) :=
  unmap1_cases h1 hN h

/-- **`unmap`** clears the entry of a page that is present. -/
theorem unmap_spec (h1 : 1 ≤ N) (hN : N < pagelevels) (h : unmap N t c = .ok (pma, t')) :
    ∃ e, walk t pagelevels c = (N, e) ∧ e.present = true ∧ pma = e.addr ∧
      t' = setPE t (N, index N c) 0 := by
  unfold unmap at h
  split at h
  · cases h
  · cases h
  · rename_i pe t₁ hun
    obtain ⟨-, e, hwalk, ⟨hpe, hpres, rfl⟩ | ⟨hnone, -⟩⟩ := unmap1_cases h1 hN hun
    · cases hpe
      cases h
      obtain ⟨rfl, -⟩ := walk_entry (by decide) hwalk
      exact ⟨_, hwalk, hpres, rfl, rfl⟩
    · cases hnone

/-- **`fault`** either leaves the tables alone or gives its frame to a lazily mapped page. -/
theorem fault_spec {b : Bool} (h : fault t c fm = .ok (b, t', fm')) :
    (t' = t ∧ fm' = fm) ∨ ∃ N e pma, walk t pagelevels c = (N, e) ∧ e.present = false ∧
      isPage N e = true ∧ e.addr = lazyPage ∧ fm.allocFrame N = .ok (pma, fm') ∧ pma ≠ topaddr ∧
      t' = setPE t (N, index N c) (BitVec.ofNat 64 pma ||| e &&& ~~~ADDR ||| P) := by
  unfold fault at h
  obtain ⟨N, e, hwalk⟩ : ∃ N e, walk t pagelevels c = (N, e) := ⟨_, _, rfl⟩
  rw [hwalk] at h
  dsimp only at h
  split at h
  · rename_i hlazy
    split at h
    · cases h
    rename_i pma fm₁ halloc
    split at h
    · cases h
    rename_i htop
    cases h
    exact Or.inr ⟨N, e, pma, hwalk, hlazy.1, hlazy.2.1, hlazy.2.2, halloc, htop, rfl⟩
  · cases h
    exact Or.inl ⟨rfl, rfl⟩

/-- **`vtop`** follows the walk. -/
theorem vtop_spec (hw : walk t K c = (N, e)) : vtop t K c =
    if 1 ≤ K ∧ e.present = true then .ok (e.addr.toNat + c % pagesize N) else .error .kassert := by
  induction K with
  | zero => rfl
  | succ K ih =>
    rw [walk] at hw
    rw [vtop]
    cases hpres : (t (K + 1) (index (K + 1) c)).present with
    | false =>
      rw [isTable, hpres, Bool.false_and, if_neg Bool.false_ne_true] at hw
      cases hw
      rw [if_pos rfl, hpres, if_neg (by simp)]
    | true =>
      cases hpage : isPage (K + 1) (t (K + 1) (index (K + 1) c)) with
      | false =>
        rw [isTable, hpres, hpage, if_pos (by decide)] at hw
        rw [if_neg (by simp), if_pos rfl, ih hw]
        rcases Nat.eq_zero_or_pos K with rfl | hK
        · rw [isPage_one] at hpage
          cases hpage
        · simp [show 1 ≤ K from hK]
      | true =>
        rw [isTable, hpres, hpage, if_neg (by simp)] at hw
        cases hw
        rw [if_neg (by simp), if_neg (by simp), hpres, if_pos ⟨by omega, rfl⟩]

end Paging

end Kos
