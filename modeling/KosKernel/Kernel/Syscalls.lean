import KosKernel.Kernel.Process
import KosKernel.Kernel.Sequences
import KosKernel.Kernel.Unmap
import Mathlib.Data.Set.Card
import Mathlib.Order.Interval.Finset.Nat

/-!
# Kernel/Syscalls — `_mmap` and `_munmap` with any arguments

`_mmap` and `_munmap` of `kernel/syscalls.cc` pass on what the process gives them.  Nothing on the
way compares an address with `usertop`; `getVmRange` compares the start of the range with
`mapBottom` only, and `unmap` compares nothing.  Where a page is already mapped, or not mapped, an
assertion fails.

`syscall_harmless_iff` says for which arguments a call keeps to the process's own area.  The loops
are followed exactly: `mapPages_iff` counts the tables that a range needs, and `unmapPages_iff`
wants an entry for every page.
-/

namespace Kos

open Paging PageEntry AddressSpace FrameManager Kos.Sequential

/-! ## The calls -/

/-- `_munmap`. -/
def Space.munmap (m : Space) (d : InvData) (addr len : ℕ) : Except Fault (ℤ × InvData × Space) :=
  (AddressSpace.unmap 1 true d m addr len).map fun (d, m) => (0, d, m)

/-- The system calls for memory, with the other arguments of `_mmap` as the kernel wants them. -/
inductive MemCall
  | mmap (addr len : ℕ)
  | munmap (addr len : ℕ)

namespace Space

/-- The result of a call, and the address space. -/
def perform (d : InvData) (m : Space) : MemCall → Except Fault (ℤ × Space)
  | .mmap addr len => (m.mmap addr len 0 (-1) 0).map fun (r, _, m) => (r, m)
  | .munmap addr len => (m.munmap d addr len).map fun (r, _, m) => (r, m)

/-- The entry where the translation of an address stops. -/
def entry (t : Tables) (x : ℕ) : PageEntry := (walk t pagelevels x).2

/-- The entry of a lazily mapped page of a process. -/
def lazyEntry : PageEntry := leaf 1 false (BitVec.ofNat 64 lazyPage.toNat) (data ||| US)

/-- Only entries of the process's area have changed. -/
def KeepsTo (m : Space) (t : Tables) : Prop :=
  ∀ x < 2 ^ pagebits, entry t x ≠ entry m.t x → m.area.mapBottom ≤ x ∧ x < usertop

/-- **What a call may do**: refuse and change nothing, or change entries of the process's area. -/
def Harmless (m : Space) (result : Except Fault (ℤ × Space)) : Prop :=
  ∃ ret m', result = .ok (ret, m') ∧ (ret < 0 ∧ m'.t = m.t ∨ m.KeepsTo m'.t)

/-- The address space of a process: `setup` has been called; the user half has pages of level 1
only; and no page outside the area is mapped lazily. -/
structure IsUser (m : Space) : Prop where
  area : m.area.mapBottom < m.area.mapTop
  start : m.area.mapStart < wordSize
  small : ∀ x < usertop, 1 < (walk m.t pagelevels x).1 → entry m.t x = 0
  lazily : ∀ x < 2 ^ pagebits, entry m.t x = lazyEntry → m.area.mapBottom ≤ x ∧ x < usertop

/-! ## What is asked of the arguments -/

/-- The address is translated as one of the area. -/
def InArea (m : Space) (x : ℕ) : Prop :=
  m.area.mapBottom ≤ x % 2 ^ pagebits ∧ x % 2 ^ pagebits < usertop

/-- A page is mapped, or set aside. -/
def Entered (t : Tables) (x : ℕ) : Prop :=
  (walk t pagelevels x).1 = 1 ∧
    ((entry t x).present = true ∨ (entry t x).addr = lazyPage ∨ (entry t x).addr = guardPage)

/-- The entries of tables that are missing on the way to the pages from `c` up to `b`. -/
def newTables (t : Tables) (c b : ℕ) : Set (ℕ × ℕ) :=
  {p | 2 ≤ p.1 ∧ ∃ x, c ≤ x ∧ x < b ∧ p.1 ≤ (walk t pagelevels x).1 ∧ index p.1 x = p.2}

/-- The end and the start of the range that `getVmRange<1>` computes. -/
def rangeStop (m : Space) (addr len : ℕ) : ℕ :=
  if addr ≠ 0 then alignUp (wadd addr len) (pagesize 1) else alignDown m.area.mapStart (pagesize 1)
def rangeStart (m : Space) (addr len : ℕ) : ℕ :=
  alignDown (wsub (m.rangeStop addr len) len) (pagesize 1)

/-- The calls that keep to the area. -/
def Acceptable (m : Space) : MemCall → Prop
  | .mmap addr len => m.area.mapBottom ≤ m.rangeStart addr len ∧
      (∀ x, m.rangeStart addr len ≤ x → x < m.rangeStop addr len →
        m.InArea x ∧ (entry m.t x).present = false) ∧
      atLeast (newTables m.t (m.rangeStart addr len) (m.rangeStop addr len)).ncard m.fm
  | .munmap addr len => addr % pagesize 1 = 0 ∧
      ∀ x, addr ≤ x → x < wadd addr (alignUp len (pagesize 1)) → m.InArea x ∧ Entered m.t x

/-! ## Pages of the area -/

variable {m m' : Space} {t t' : Tables} {e e' : PageEntry} {fm fm' : FrameManager} {c b x : ℕ}

/-- A range of addresses of the area does not leave its half. -/
theorem oneHalf_of_inArea (h : ∀ x, c ≤ x → x < b → m.InArea x) : OneHalf c b := by
  have hlt : ∀ x y, c ≤ x → x ≤ y → y < b → x / 2 ^ pagebits = y / 2 ^ pagebits := by
    intro x y hx hxy hy
    by_contra hne
    -- the first address of the upper half would be between them
    have hx' := (h x hx (by omega)).2
    have hmid := (h ((x / 2 ^ pagebits) * 2 ^ pagebits + usertop)
      (by simp only [usertop, show pagebits = 48 from rfl] at *; omega)
      (by simp only [usertop, show pagebits = 48 from rfl] at *; omega)).2
    simp only [usertop, show pagebits = 48 from rfl] at hmid
    omega
  intro x y hx hxb hy hyb
  rcases le_total x y with hxy | hxy
  · exact hlt x y hx hxy hyb
  · exact (hlt y x hy hxy hxb).symm

theorem walk_mod (t : Tables) (x : ℕ) :
    walk t pagelevels (x % 2 ^ pagebits) = walk t pagelevels x :=
  walk_of_index (by rw [index, index, Nat.mod_mod])

/-! ## Mapping lazily -/

variable {pma : ℕ}

/-- A page of `mapPageRegion<1,Lazy>`. -/
theorem mapPage_lazy : mapPage 1 .lazy true t fm pma c data = .ok (t', fm') ↔
    Paging.map 1 false t c (BitVec.ofNat 64 lazyPage.toNat) (data ||| US) fm =
      .ok (true, t', fm') := by
  have hne : lazyPage.toNat ≠ topaddr := by decide
  rw [mapPage, frameFor]
  simp only [if_neg hne, MapCode.present, if_true]
  generalize Paging.map 1 false t c (BitVec.ofNat 64 lazyPage.toNat) (data ||| US) fm = r
  rcases r with _ | ⟨_ | _, t, fm⟩
  · simp
  · simp
  · simp

variable {n : ℕ}

/-- **A step of the loop.** -/
theorem mapPages_succ : mapPages 1 .lazy true (n + 1) t fm pma c data = .ok (t', fm') ↔
    ∃ t₁ fm₁, Paging.map 1 false t c (BitVec.ofNat 64 lazyPage.toNat) (data ||| US) fm =
      .ok (true, t₁, fm₁) ∧ mapPages 1 .lazy true n t₁ fm₁ pma (c + pagesize 1) data =
      .ok (t', fm') := by
  constructor
  · intro h
    obtain ⟨t₁, fm₁, hpage, h⟩ := mapPages_cons h
    exact ⟨t₁, fm₁, mapPage_lazy.mp hpage, h⟩
  · rintro ⟨t₁, fm₁, hmap, h⟩
    rw [mapPages, mapPage_lazy.mpr hmap]
    exact h

/-- Outside its page, a mapping below an absent entry changes no entry. -/
theorem entry_of_mapped (hm : Mapped 1 e t t' c)
    (hsmall : 1 < (walk t pagelevels c).1 → entry t c = 0) (hne : index 1 x ≠ index 1 c) :
    entry t' x = entry t x := by
  rcases hm.same_or_empty x hne with hsame | ⟨hidx, hzero⟩
  · rw [entry, entry, hsame]
  · have h1 := one_le_walk t (show 1 ≤ pagelevels by decide) c
    have hw : walk t pagelevels x = walk t pagelevels c := walk_congr rfl h1 hidx.symm
    rw [entry, hzero, entry, hw]
    rcases h1.eq_or_lt with hone | hlt
    · rw [← hone] at hidx
      exact absurd hidx hne
    · exact (hsmall hlt).symm

/-- A page that is mapped stays so when others are. -/
theorem page_of_mapped (hm : Mapped 1 e t t' c) (hx : walk t pagelevels x = (1, e)) :
    walk t' pagelevels x = (1, e) := by
  by_cases hi : index 1 x = index 1 c
  · exact hm.page x hi
  · rcases hm.same_or_empty x hi with hsame | ⟨hidx, -⟩
    · rw [hsame, hx]
    · have hw : walk t pagelevels x = walk t pagelevels c :=
        walk_congr rfl (one_le_walk t (by decide) c) hidx.symm
      rw [← hw, hx] at hidx
      exact absurd hidx hi

theorem mapPages_keeps (h : mapPages 1 .lazy true n t fm pma c data = .ok (t', fm'))
    (hx : walk t pagelevels x = (1, lazyEntry)) : walk t' pagelevels x = (1, lazyEntry) := by
  refine mapPages_invariant (P := fun t _ => walk t pagelevels x = (1, lazyEntry))
    (fun hx hpage => ?_) hx h
  exact page_of_mapped (map_spec le_rfl (by decide) (mapPage_lazy.mp hpage)).2.2 hx

/-- **The pages of a range that has been mapped.** -/
theorem mapPages_pages (h : mapPages 1 .lazy true n t fm pma c data = .ok (t', fm')) :
    ∀ x, c ≤ x → x < c + n * pagesize 1 → walk t' pagelevels x = (1, lazyEntry) := by
  induction n generalizing t fm pma c with
  | zero =>
    intro x h₁ h₂
    omega
  | succ n ih =>
    intro x h₁ h₂
    obtain ⟨t₁, fm₁, hmap, h⟩ := mapPages_succ.mp h
    obtain ⟨hal, -, hm⟩ := map_spec le_rfl (by decide) hmap
    rw [Nat.succ_mul] at h₂
    rcases lt_or_ge x (c + pagesize 1) with hx | hx
    · exact mapPages_keeps h (hm.page x (Vm.index_of_inPage (by decide) hal ⟨h₁, hx⟩))
    · exact ih h x hx (by omega)

/-- Below an entry that is not of level 1 nothing is set aside. -/
def Small (t : Tables) (c b : ℕ) : Prop :=
  ∀ x, c ≤ x → x < b → 1 < (walk t pagelevels x).1 → entry t x = 0

theorem Small.mapped (h : Small t c b) {v : ℕ} (hm : Mapped 1 e t t' v) : Small t' c b := by
  intro x hx hxb hlevel
  by_cases hi : index 1 x = index 1 v
  · rw [hm.page x hi] at hlevel
    exact absurd hlevel (lt_irrefl 1)
  · rcases hm.same_or_empty x hi with hsame | ⟨-, hzero⟩
    · rw [hsame] at hlevel
      rw [entry, hsame]
      exact h x hx hxb hlevel
    · exact hzero

/-- A loop over the pages from `c` up to `b` comes by the entry of `x`. -/
def Hit (c b x : ℕ) : Prop := ∃ y, c ≤ y ∧ y < b ∧ index 1 y = index 1 x

theorem hit_first (n : ℕ) (h : index 1 x = index 1 c) : Hit c (c + (n + 1) * pagesize 1) x :=
  ⟨c, le_rfl, by have := pagesize_pos 1; rw [Nat.succ_mul]; omega, h.symm⟩

theorem Hit.next (h : Hit (c + pagesize 1) (c + pagesize 1 + n * pagesize 1) x) :
    Hit c (c + (n + 1) * pagesize 1) x := by
  obtain ⟨y, hy, hyb, hidx⟩ := h
  exact ⟨y, by omega, by rw [Nat.succ_mul]; omega, hidx⟩

/-- The other pages keep their entries. -/
theorem mapPages_off (h : mapPages 1 .lazy true n t fm pma c data = .ok (t', fm'))
    (hsmall : Small t c (c + n * pagesize 1)) (hoff : ¬ Hit c (c + n * pagesize 1) x) :
    entry t' x = entry t x := by
  induction n generalizing t fm pma c with
  | zero =>
    cases h
    rfl
  | succ n ih =>
    obtain ⟨t₁, fm₁, hmap, h⟩ := mapPages_succ.mp h
    obtain ⟨-, -, hm⟩ := map_spec le_rfl (by decide) hmap
    have hpos := pagesize_pos 1
    rw [Nat.succ_mul] at hsmall
    have hrest : Small t₁ (c + pagesize 1) (c + pagesize 1 + n * pagesize 1) :=
      fun x hx hxb => hsmall.mapped hm x (by omega) (by omega)
    exact (ih h hrest fun hh => hoff hh.next).trans
      (entry_of_mapped hm (hsmall c le_rfl (by omega)) fun hi => hoff (hit_first n hi))

/-! ### The tables of a range -/

theorem finite_newTables (t : Tables) (c b : ℕ) : (newTables t c b).Finite := by
  refine ((Set.finite_Iic pagelevels).prod (Set.finite_Iio (2 ^ pagebits))).subset ?_
  rintro ⟨k, i⟩ ⟨-, x, -, -, hk, hi⟩
  refine ⟨hk.trans (walk_le t pagelevels x), ?_⟩
  rw [← hi]
  exact (Nat.div_le_self _ _).trans_lt (Nat.mod_lt _ (Nat.two_pow_pos _))

/-- The tables that are missing on the way to one page. -/
def pathTables (t : Tables) (c : ℕ) : Set (ℕ × ℕ) :=
  (fun k => (k, index k c)) '' Set.Icc 2 (walk t pagelevels c).1

theorem ncard_pathTables (t : Tables) (c : ℕ) :
    (pathTables t c).ncard = (walk t pagelevels c).1 - 1 := by
  rw [pathTables, Set.ncard_image_of_injective _ fun _ _ h => (Prod.mk.inj h).1, ← Finset.coe_Icc,
    Set.ncard_coe_finset, Nat.card_Icc]
  omega

/-- Two addresses below one entry, from there up. -/
theorem level_of_index {k y : ℕ} (hk : 1 ≤ k) (hidx : index k x = index k y)
    (h : k ≤ (walk t pagelevels x).1) : k ≤ (walk t pagelevels y).1 := by
  rwa [walk_congr rfl (hk.trans h) (index_mono hk h hidx)]

variable {type : PageEntry}

/-- **The tables of a range**: those for its first page, and those for the others once it is
mapped. -/
theorem newTables_succ {pma : PageEntry} (hhalf : OneHalf c (c + (n + 1) * pagesize 1))
    (hmap : Paging.map 1 false t c pma type fm = .ok (true, t', fm')) :
    (newTables t c (c + (n + 1) * pagesize 1)).ncard =
      (newTables t' (c + pagesize 1) (c + pagesize 1 + n * pagesize 1)).ncard +
      ((walk t pagelevels c).1 - 1) := by
  obtain ⟨hal, -, hm⟩ := map_spec le_rfl (by decide) hmap
  have hpos := pagesize_pos 1
  have hb : c + (n + 1) * pagesize 1 = c + pagesize 1 + n * pagesize 1 := by
    rw [Nat.succ_mul]; omega
  rw [hb] at hhalf ⊢
  have hne : ∀ {x}, c + pagesize 1 ≤ x → x < c + pagesize 1 + n * pagesize 1 →
      index 1 x ≠ index 1 c :=
    fun hx hxb => index_ne_of_lt hhalf (by decide) hal le_rfl hx hxb
  have hunion : newTables t c (c + pagesize 1 + n * pagesize 1) =
      newTables t' (c + pagesize 1) (c + pagesize 1 + n * pagesize 1) ∪ pathTables t c := by
    ext ⟨k, i⟩
    constructor
    · rintro ⟨hk, x, hcx, hxb, hlevel, hi⟩
      dsimp only at hk hlevel hi
      subst hi
      by_cases hidx : index k x = index k c
      · exact .inr ⟨k, ⟨hk, level_of_index (by omega) hidx hlevel⟩, by rw [hidx]⟩
      · have hx : c + pagesize 1 ≤ x := by
          by_contra hlt
          have := Vm.index_of_inPage (M := 1) (by decide) hal ⟨hcx, not_le.mp hlt⟩
          exact hidx (index_mono le_rfl (by omega) this)
        exact .inl ⟨hk, x, hx, hxb,
          (map_levels le_rfl (by decide) hmap (hne hx hxb)).2 k (by omega) hidx hlevel, rfl⟩
    · rintro (⟨hk, x, hx, hxb, hlevel, hi⟩ | ⟨k, ⟨hk, hlevel⟩, heq⟩)
      · exact ⟨hk, x, by omega, hxb,
          hlevel.trans (map_levels le_rfl (by decide) hmap (hne hx hxb)).1, hi⟩
      · cases heq
        exact ⟨hk, c, le_rfl, by omega, hlevel, rfl⟩
  have hdisj :
      Disjoint (newTables t' (c + pagesize 1) (c + pagesize 1 + n * pagesize 1))
      (pathTables t c) := by
    refine Set.disjoint_left.mpr ?_
    rintro ⟨k, i⟩ ⟨hk, x, -, -, hlevel, hi⟩ ⟨k', -, heq⟩
    cases heq
    -- the path to `c` has all its tables now
    have hc := level_of_index (by dsimp only at hk; omega) hi hlevel
    rw [hm.page c rfl] at hc
    dsimp only at hk hc
    omega
  rw [hunion, Set.ncard_union_eq hdisj (finite_newTables _ _ _) ((finite_newTables t c
    (c + pagesize 1 + n * pagesize 1)).subset (hunion ▸ Set.subset_union_right)), ncard_pathTables]

theorem pathTables_subset (hb : c < b) : pathTables t c ⊆ newTables t c b := by
  rintro _ ⟨k, ⟨hk, hlevel⟩, rfl⟩
  exact ⟨hk, c, le_rfl, hb, hlevel, rfl⟩

/-- The pages of a range are free: the first one is, and the others are once it is mapped. -/
theorem forall_present_succ (hm : Mapped 1 e t t' c) (hal : c % pagesize 1 = 0)
    (hhalf : OneHalf c (c + (n + 1) * pagesize 1)) (hsmall : Small t c (c + (n + 1) * pagesize 1)) :
    (∀ x, c + pagesize 1 ≤ x → x < c + pagesize 1 + n * pagesize 1 → (entry t' x).present = false) ↔
      ∀ x, c ≤ x → x < c + (n + 1) * pagesize 1 → (entry t x).present = false := by
  have hpos := pagesize_pos 1
  have hb : c + (n + 1) * pagesize 1 = c + pagesize 1 + n * pagesize 1 := by
    rw [Nat.succ_mul]; omega
  rw [hb] at hhalf hsmall ⊢
  have hsame : ∀ x, c + pagesize 1 ≤ x → x < c + pagesize 1 + n * pagesize 1 →
      entry t' x = entry t x :=
    fun x hx hxb => entry_of_mapped hm (hsmall c le_rfl (by omega))
      (index_ne_of_lt hhalf (by decide) hal le_rfl hx hxb)
  constructor
  · intro h x hx hxb
    rcases lt_or_ge x (c + pagesize 1) with hlt | hge
    · rw [entry, walk_of_index (Vm.index_of_inPage (M := 1) (by decide) hal ⟨hx, hlt⟩)]
      exact hm.missing
    · rw [← hsame x hge hxb]
      exact h x hge hxb
  · intro h x hx hxb
    rw [hsame x hx hxb]
    exact h x (by omega) hxb

/-- **When a range is mapped**: its pages are not present, and there is a frame for each table. -/
theorem mapPages_iff : ∀ {t : Tables} {fm : FrameManager} {pma c : ℕ}, FrameManager.Inv fm →
    fm.lplock = false → c % pagesize 1 = 0 → OneHalf c (c + n * pagesize 1) →
      Small t c (c + n * pagesize 1) →
      ((∃ t' fm', mapPages 1 .lazy true n t fm pma c data = .ok (t', fm')) ↔
      (∀ x, c ≤ x → x < c + n * pagesize 1 → (entry t x).present = false) ∧
        atLeast (newTables t c (c + n * pagesize 1)).ncard fm) := by
  induction n with
  | zero =>
    intro t fm pma c _ _ _ _ _
    have hnone : newTables t c (c + 0 * pagesize 1) = ∅ := by
      refine Set.eq_empty_of_forall_notMem ?_
      rintro p ⟨-, x, hx, hxb, -⟩
      omega
    refine iff_of_true ⟨t, fm, rfl⟩ ⟨fun x _ _ => by omega, ?_⟩
    rw [hnone, Set.ncard_empty]
    exact atLeast_zero fm
  | succ n ih =>
    intro t fm pma c hinv hlp hal hhalf hsmall
    have hpos := pagesize_pos 1
    have hfirst : c < c + (n + 1) * pagesize 1 := by rw [Nat.succ_mul]; omega
    simp only [mapPages_succ]
    by_cases hp : (entry t c).present = true
    · -- `map` finds the page present
      refine iff_of_false ?_ fun h => ?_
      · rintro ⟨_, _, t₁, fm₁, hmap, -⟩
        exact absurd (map_spec le_rfl (by decide) hmap).2.2.missing (by simpa [entry] using hp)
      · exact absurd (h.1 c le_rfl hfirst) (by simpa using hp)
    · have hw : walk t pagelevels c = ((walk t pagelevels c).1, entry t c) := rfl
      rcases map_spent_iff le_rfl (by decide) hinv hlp hw (by simpa using hp)
        (one_le_walk t (by decide) c) hal (show BitVec.ofNat 64 lazyPage.toNat &&& ~~~ADDR =
        0 by decide) false (data ||| US) with
        ⟨⟨t₁, fm₁, hmap, hspent⟩, -⟩ | ⟨⟨f, hmap⟩, hfew⟩
      · obtain ⟨-, -, hm⟩ := map_spec le_rfl (by decide) hmap
        rw [newTables_succ hhalf hmap, ← hspent.atLeast, ← forall_present_succ hm hal hhalf hsmall]
        have hb : c + (n + 1) * pagesize 1 = c + pagesize 1 + n * pagesize 1 := by
          rw [Nat.succ_mul]; omega
        rw [hb] at hhalf hsmall
        have hloop := @ih t₁ fm₁ pma (c + pagesize 1) hspent.inv (hspent.lplock.trans hlp)
          (by rw [Nat.add_mod_right, hal])
          (fun x y hx hxb hy hyb => hhalf x y (by omega) hxb (by omega) hyb)
          (fun x hx hxb => hsmall.mapped hm x (by omega) hxb)
        rw [← hloop]
        simp only [hmap, Except.ok.injEq, Prod.mk.injEq, true_and, and_assoc, exists_and_left,
          exists_eq_left']
      · -- too few frames, even for the tables of the first page
        refine iff_of_false ?_ fun h => hfew ?_
        · rintro ⟨_, _, t₁, fm₁, hok, -⟩
          rw [hok] at hmap
          cases hmap
        · obtain ⟨S, hcard, hS⟩ := h.2
          refine ⟨S, le_trans ?_ hcard, hS⟩
          rw [← ncard_pathTables]
          exact Set.ncard_le_ncard (pathTables_subset hfirst) (finite_newTables _ _ _)

/-! ## Unmapping -/

theorem pageMapped_iff : PageMapped 1 t c ↔ c % pagesize 1 = 0 ∧ Entered t c := by
  have hle := one_le_walk t (show 1 ≤ pagelevels by decide) c
  constructor
  · intro h
    have hone : (walk t pagelevels c).1 = 1 := le_antisymm (of_decide_eq_true h.window) hle
    have hentry :=
      (walk_entry (by decide) (show walk t pagelevels c = (1, entry t c) from Prod.ext hone rfl)).1
    exact ⟨h.aligned, hone, hentry ▸ h.status⟩
  · rintro ⟨hal, hone, hstatus⟩
    have hentry :=
      (walk_entry (by decide) (show walk t pagelevels c = (1, entry t c) from Prod.ext hone rfl)).1
    exact ⟨hal, decide_eq_true hone.le, isPage_one _, hentry ▸ hstatus⟩

/-- What is left of an entry by the loop: never one that is present, and something has changed. -/
def Touched (e e' : PageEntry) : Prop := e'.present = false ∧ (e.present = true ∨ e' = 0 ∧ e ≠ 0)

theorem Touched.ne (h : Touched e e') : e' ≠ e := by
  rintro rfl
  rcases h with ⟨h₁, h₂ | ⟨h₂, h₃⟩⟩
  · rw [h₁] at h₂
    cases h₂
  · exact h₃ h₂

theorem Touched.trans {e'' : PageEntry} (h : Touched e e') (h' : Touched e' e'') :
    Touched e e'' := by
  refine ⟨h'.1, h.2.imp_right fun ⟨hzero, hne⟩ => ?_⟩
  rcases h'.2 with hp | ⟨-, hne'⟩
  · rw [h.1] at hp
    cases hp
  · exact absurd hzero hne'

theorem touched_leftOf (cores : ℕ) (h : Entered t x) :
    Touched (entry t x) (leftOf cores (entry t x)) := by
  refine ⟨present_leftOf cores _, ?_⟩
  rcases Bool.eq_false_or_eq_true (entry t x).present with hp | hp
  · exact .inl hp
  · refine .inr ⟨if_neg fun hc => by simp [hp] at hc, fun hzero => ?_⟩
    rcases h.2 with hpres | haddr
    · rw [hp] at hpres
      cases hpres
    · rw [hzero] at haddr
      exact absurd haddr (by decide)

/-- **A page of `unmapPageRegion`.** -/
theorem unmapPage_iff {d d' : InvData} : unmapPage 1 true false d m c = .ok (d', m') ↔
    PageMapped 1 m.t c ∧ (d', m') = (if 1 < d.activeCores ∧ (m.t 1 (index 1 c)).present = true
        then d.post (entryOf 1 c) c (pagesize 1) true else d,
      { m with t := setPE m.t (entryOf 1 c) (leftOf d.activeCores (m.t 1 (index 1 c))) }) := by
  constructor
  · intro h
    have hpage : PageMapped 1 m.t c := by
      rw [unmapPage, if_neg (by simp)] at h
      cases hu : unmap1 1 true m.t c with
      | error f =>
        rw [hu] at h
        cases h
      | ok r =>
        obtain ⟨hal, e, hw, hcase⟩ :=
          unmap1_spec le_rfl (by decide) (hu : unmap1 1 true m.t c = .ok (r.1, r.2))
        refine pageMapped_iff.mpr ⟨hal, by rw [hw], ?_⟩
        rw [entry, hw]
        rcases hcase with ⟨-, hp, -⟩ | ⟨-, -, haddr, -⟩
        · exact .inl hp
        · exact .inr haddr
    rw [unmapPage_spec hpage] at h
    exact ⟨hpage, (Except.ok.inj h).symm⟩
  · rintro ⟨hpage, heq⟩
    rw [unmapPage_spec hpage, heq]

/-- The entries after a page is unmapped. -/
theorem walk_unmapped (h : PageMapped 1 t c) (cores x : ℕ) :
    walk (setPE t (entryOf 1 c) (leftOf cores (t 1 (index 1 c)))) pagelevels x =
      if index 1 x = index 1 c then (1, leftOf cores (entry t c)) else walk t pagelevels x := by
  have hw : walk t pagelevels c = (1, entry t c) := Prod.ext (pageMapped_iff.mp h).2.1 rfl
  rw [← (walk_entry (by decide) hw).1]
  exact walk_setPE hw (by decide) (isTable_eq_false_of_not_present (present_leftOf _ _)) x

theorem entry_unmapped (h : PageMapped 1 t c) (cores x : ℕ) :
    entry (setPE t (entryOf 1 c) (leftOf cores (t 1 (index 1 c)))) x =
      if index 1 x = index 1 c then leftOf cores (entry t c) else entry t x := by
  rw [entry, walk_unmapped h, apply_ite Prod.snd]
  rfl

/-- **What the loop does to the entries.** -/
theorem unmapPages_entry {d d' : InvData} (h : unmapPages 1 true false n d m c = .ok (d', m')) :
    (Hit c (c + n * pagesize 1) x → Touched (entry m.t x) (entry m'.t x)) ∧
      (¬ Hit c (c + n * pagesize 1) x → entry m'.t x = entry m.t x) := by
  induction n generalizing d d' m c with
  | zero =>
    cases h
    refine ⟨?_, fun _ => rfl⟩
    rintro ⟨y, hy, hyb, -⟩
    omega
  | succ n ih =>
    rw [unmapPages] at h
    split at h
    · cases h
    rename_i d₁ m₁ hpage
    obtain ⟨hmapped, heq⟩ := unmapPage_iff.mp hpage
    cases heq
    obtain ⟨hhit, hoff⟩ := ih h
    have hal := hmapped.aligned
    rw [entry_unmapped hmapped] at hhit hoff
    by_cases hi : index 1 x = index 1 c
    · refine ⟨fun _ => ?_, fun hno => absurd (hit_first n hi) hno⟩
      rw [if_pos hi] at hhit hoff
      have htouched := touched_leftOf d.activeCores (pageMapped_iff.mp hmapped).2
      rw [show entry m.t x = entry m.t c by rw [entry, entry, walk_of_index hi]]
      by_cases hagain : Hit (c + pagesize 1) (c + pagesize 1 + n * pagesize 1) x
      · exact htouched.trans (hhit hagain)
      · rw [hoff hagain]
        exact htouched
    · rw [if_neg hi] at hhit hoff
      refine ⟨?_, fun hno => hoff fun hh => hno hh.next⟩
      rintro ⟨y, hy, hyb, hidx⟩
      rw [Nat.succ_mul] at hyb
      refine hhit ⟨y, ?_, by omega, hidx⟩
      by_contra hlt
      exact hi (hidx ▸ Vm.index_of_inPage (M := 1) (by decide) hal ⟨hy, not_le.mp hlt⟩)

/-- **When a range is unmapped**: all its pages are entered. -/
theorem unmapPages_iff {d : InvData} (hal : c % pagesize 1 = 0)
    (hhalf : OneHalf c (c + n * pagesize 1)) :
    ((∃ d' m', unmapPages 1 true false n d m c = .ok (d', m')) ↔ ∀ x, c ≤ x →
      x < c + n * pagesize 1 → Entered m.t x) := by
  induction n generalizing d m c with
  | zero => exact iff_of_true ⟨d, m, rfl⟩ fun x _ _ => by omega
  | succ n ih =>
    have hpos := pagesize_pos 1
    have hb : c + (n + 1) * pagesize 1 = c + pagesize 1 + n * pagesize 1 := by
      rw [Nat.succ_mul]; omega
    rw [hb] at hhalf ⊢
    by_cases hmapped : PageMapped 1 m.t c
    · rw [unmapPages, unmapPage_spec hmapped]
      dsimp only
      rw [ih (by rw [Nat.add_mod_right, hal]) fun x y hx hxb hy hyb =>
        hhalf x y (by omega) hxb (by omega) hyb]
      have hkept : ∀ x, c + pagesize 1 ≤ x → x < c + pagesize 1 + n * pagesize 1 →
          (Entered (setPE m.t (entryOf 1 c) (leftOf d.activeCores (m.t 1 (index 1 c)))) x ↔
            Entered m.t x) := by
        intro x hx hxb
        rw [Entered, Entered, entry, entry, walk_unmapped hmapped,
          if_neg (index_ne_of_lt hhalf (by decide) hal le_rfl hx hxb)]
      constructor
      · intro h x hx hxb
        rcases lt_or_ge x (c + pagesize 1) with hlt | hge
        · rw [Entered, entry, walk_of_index (Vm.index_of_inPage (M := 1) (by decide) hal ⟨hx, hlt⟩)]
          exact (pageMapped_iff.mp hmapped).2
        · exact (hkept x hge hxb).mp (h x hge hxb)
      · exact fun h x hx hxb => (hkept x hx hxb).mpr (h x (by omega) hxb)
    · refine iff_of_false ?_ fun h => hmapped (pageMapped_iff.mpr ⟨hal, h c le_rfl (by omega)⟩)
      rintro ⟨d', m', h⟩
      rw [unmapPages] at h
      split at h
      · cases h
      · rename_i hpage
        exact hmapped (unmapPage_iff.mp hpage).1

/-! ## The calls, as loops over pages -/

/-- The pages of a range between pages. -/
theorem lt_pages_iff (hc : c % pagesize 1 = 0) (hb : b % pagesize 1 = 0) (hx : c ≤ x) :
    x < c + (b - c) / pagesize 1 * pagesize 1 ↔ x < b := by
  rw [Nat.div_mul_cancel (Nat.dvd_sub (Nat.dvd_of_mod_eq_zero hb) (Nat.dvd_of_mod_eq_zero hc))]
  omega

theorem newTables_congr {b' : ℕ} (h : ∀ x, c ≤ x → (x < b ↔ x < b')) :
    newTables t c b = newTables t c b' := by
  ext p
  refine and_congr_right fun _ => exists_congr fun x => and_congr_right fun hx => ?_
  rw [h x hx]

theorem alignDown_page (hx : x < wordSize) : alignDown x (pagesize 1) % pagesize 1 = 0 :=
  alignDown_mod hx (VmArea.pagesizebits_le (by decide))

theorem rangeStop_mod (hu : IsUser m) (addr len : ℕ) : m.rangeStop addr len % pagesize 1 = 0 := by
  unfold rangeStop
  split
  · exact alignDown_page (wsub_lt _ _)
  · exact alignDown_page hu.start

theorem rangeStart_mod (m : Space) (addr len : ℕ) : m.rangeStart addr len % pagesize 1 = 0 :=
  alignDown_page (wsub_lt _ _)

theorem alignDown_lt (hx : x < wordSize) : alignDown x (pagesize 1) < wordSize :=
  (alignDown_le hx (VmArea.pagesizebits_le (by decide))).trans_lt hx

theorem rangeStop_lt (hu : IsUser m) (addr len : ℕ) : m.rangeStop addr len < wordSize := by
  unfold rangeStop
  split
  · exact alignDown_lt (wsub_lt _ _)
  · exact alignDown_lt hu.start

/-- `getVmRange<1>` in these words. -/
theorem getVmRange_range (hu : IsUser m) (addr len : ℕ) :
    m.area.getVmRange 1 addr len =
      if m.rangeStart addr len < m.area.mapBottom then .ok (topaddr, len, m.area)
      else .ok (m.rangeStart addr len, wsub (m.rangeStop addr len) (m.rangeStart addr len),
        if m.rangeStart addr len < m.area.mapStart then
          { m.area with mapStart := m.rangeStart addr len }
        else m.area) := by
  rw [VmArea.getVmRange, if_pos hu.area]
  rfl

theorem mapPageRegion_topaddr {mc : MapCode} {kernel : Bool} {size : ℕ} :
    m.mapPageRegion 1 mc kernel pma topaddr size type = .error .kassert := by
  have hodd : ¬ (aligned topaddr (pagesize 1) && aligned size (pagesize 1)) = true := fun h =>
    VmArea.topaddr_mod_ne 1 (aligned_pagesize.mp (Bool.and_eq_true _ _ ▸ h).1)
  rw [mapPageRegion, AddressSpace.mapPageRegion, if_neg hodd]
  rfl

/-- `mapPageRegion` on a range that `getVmRange` has given. -/
theorem mapPageRegion_range (hu : IsUser m) {mc : MapCode} {kernel : Bool} (addr len : ℕ)
    (area : VmArea) : Space.mapPageRegion 1 mc kernel { m with area } pma (m.rangeStart addr len)
        (wsub (m.rangeStop addr len) (m.rangeStart addr len)) type =
      (mapPages 1 mc (!kernel) ((m.rangeStop addr len - m.rangeStart addr len) / pagesize 1)
        m.t m.fm pma (m.rangeStart addr len) type).map fun r =>
      { m with area, t := r.1, fm := r.2 } := by
  have hstart := rangeStart_mod m addr len
  have hsize : wsub (m.rangeStop addr len) (m.rangeStart addr len) % pagesize 1 = 0 :=
    Nat.mod_eq_zero_of_dvd
      (dvd_wsub (by decide) (Nat.dvd_of_mod_eq_zero (rangeStop_mod hu addr len))
      (Nat.dvd_of_mod_eq_zero hstart))
  have hend : wadd (m.rangeStart addr len) (wsub (m.rangeStop addr len) (m.rangeStart addr len)) =
      m.rangeStop addr len := wadd_wsub (alignDown_lt (wsub_lt _ _)) (rangeStop_lt hu addr len)
  rw [mapPageRegion, AddressSpace.mapPageRegion, aligned_pagesize.mpr hstart,
    aligned_pagesize.mpr hsize, Bool.and_self, if_pos rfl, hend]

/-- **`map<1>` for a process**: below `mapBottom` an assertion fails; otherwise the range is
mapped. -/
theorem map_user (hu : IsUser m) (addr len : ℕ) :
    ∃ area, m.map 1 true false addr len 0 0 (mword (-1)) 0 0 =
      if m.rangeStart addr len < m.area.mapBottom then .error .kassert
      else (mapPages 1 .lazy true ((m.rangeStop addr len - m.rangeStart addr len) / pagesize 1)
        m.t m.fm 0 (m.rangeStart addr len) data).map fun r =>
      (m.rangeStart addr len, { m with area, t := r.1, fm := r.2 }) := by
  refine ⟨if m.rangeStart addr len < m.area.mapStart then { m.area with
    mapStart := m.rangeStart addr len }
    else m.area, ?_⟩
  rw [map, if_pos ⟨rfl, rfl, rfl, rfl⟩, getVmRange_range hu]
  by_cases hbot : m.rangeStart addr len < m.area.mapBottom
  · rw [if_pos hbot, if_pos hbot]
    simp only [mapPageRegion_topaddr]
    rfl
  · rw [if_neg hbot, if_neg hbot]
    simp only [if_true, Bool.false_eq_true, if_false, mapPageRegion_range hu, Bool.not_false]
    cases mapPages 1 .lazy true ((m.rangeStop addr len - m.rangeStart addr len) / pagesize 1)
      m.t m.fm 0 (m.rangeStart addr len) data with
    | error f => rfl
    | ok r => rfl

/-- `_mmap` passes on what `map` returns, which is not `topaddr`. -/
theorem mmap_of_map {addr len : ℕ} {r : Except Fault (ℕ × Space)}
    (h : m.map 1 true false addr len 0 0 (mword (-1)) 0 0 = r) :
    m.mmap addr len 0 (-1) 0 = r.map fun p => (0, p.1, p.2) := by
  have hargs : mword (0 % 16) = 0 ∧ mword (0 / 16) = 0 ∧ mword 0 = 0 := by decide
  rw [mmap, hargs.1, hargs.2.1, hargs.2.2, h]
  cases r with
  | error f => rfl
  | ok p => exact if_neg (map_ne_topaddr h)

/-- **`_mmap`.** -/
theorem perform_mmap (hu : IsUser m) (d : InvData) (addr len : ℕ) :
    ∃ area, m.perform d (.mmap addr len) =
      if m.rangeStart addr len < m.area.mapBottom then .error .kassert
      else (mapPages 1 .lazy true ((m.rangeStop addr len - m.rangeStart addr len) / pagesize 1)
        m.t m.fm 0 (m.rangeStart addr len) data).map fun r =>
      (0, { m with area, t := r.1, fm := r.2 }) := by
  obtain ⟨area, heq⟩ := map_user hu addr len
  refine ⟨area, ?_⟩
  rw [perform, mmap_of_map heq]
  split
  · rfl
  · cases mapPages 1 .lazy true ((m.rangeStop addr len - m.rangeStart addr len) / pagesize 1)
      m.t m.fm 0 (m.rangeStart addr len) data with
    | error f => rfl
    | ok r => rfl

/-- **`_munmap`.** -/
theorem perform_munmap (m : Space) (d : InvData) (addr len : ℕ) :
    m.perform d (.munmap addr len) = if addr % pagesize 1 = 0 then
        (unmapPages 1 true false ((wadd addr (alignUp len (pagesize 1)) - addr) / pagesize 1)
          d m addr).map fun r => (0, r.2)
      else .error .kassert := by
  have hsize : alignUp len (pagesize 1) % pagesize 1 = 0 := alignDown_page (wsub_lt _ _)
  rw [perform, munmap, AddressSpace.unmap]
  by_cases hal : addr % pagesize 1 = 0
  · rw [if_pos (aligned_pagesize.mpr hal), if_pos hal, unmapPageRegion, aligned_pagesize.mpr hal,
      aligned_pagesize.mpr hsize, Bool.and_self, if_pos rfl]
    cases unmapPages 1 true false ((wadd addr (alignUp len (pagesize 1)) - addr) / pagesize 1)
      d m addr with
    | error f => rfl
    | ok r => rfl
  · rw [if_neg fun h => hal (aligned_pagesize.mp h), if_neg hal]
    rfl

/-! ## What keeps to the area -/

theorem hit_self (hx : c ≤ x) (hxb : x < b) : Hit c b (x % 2 ^ pagebits) :=
  ⟨x, hx, hxb, by rw [index, index, Nat.mod_mod]⟩

/-- What a loop over a range of the area comes by is in the area. -/
theorem inArea_of_hit (hc : c % pagesize 1 = 0) (hb : b % pagesize 1 = 0)
    (h : ∀ x, c ≤ x → x < b → m.InArea x) (hx : x < 2 ^ pagebits) (hhit : Hit c b x) :
    m.area.mapBottom ≤ x ∧ x < usertop := by
  obtain ⟨y, hy, hyb, hidx⟩ := hhit
  have hps : pagesize 1 = 4096 := rfl
  have hbits : 2 ^ pagebits = 2 ^ 48 := rfl
  rw [hps] at hc hb
  rw [index, index, hps, hbits] at hidx
  rw [hbits] at hx
  -- the address of the page of `y` that is translated as `x`
  have hz : (y / 4096 * 4096 + x % 4096) % 2 ^ pagebits = x := by
    rw [hbits]
    omega
  have harea := h (y / 4096 * 4096 + x % 4096) (by omega) (by omega)
  rwa [InArea, hz] at harea

theorem small_of_inArea (hu : IsUser m) (h : ∀ x, c ≤ x → x < b → m.InArea x) : Small m.t c b := by
  intro x hx hxb hlevel
  rw [← walk_mod] at hlevel
  rw [entry, ← walk_mod]
  exact hu.small _ (h x hx hxb).2 hlevel

/-- **Mapping a range keeps to the area** exactly when the range is of the area and can be
mapped. -/
theorem mapPages_keepsTo_iff (hu : IsUser m) (hinv : FrameManager.Inv m.fm)
    (hlp : m.fm.lplock = false) (hal : c % pagesize 1 = 0) :
    (∃ t' fm', mapPages 1 .lazy true n m.t m.fm 0 c data = .ok (t', fm') ∧ m.KeepsTo t') ↔
      (∀ x, c ≤ x → x < c + n * pagesize 1 → m.InArea x ∧ (entry m.t x).present = false) ∧
        atLeast (newTables m.t c (c + n * pagesize 1)).ncard m.fm := by
  have hend : (c + n * pagesize 1) % pagesize 1 = 0 := by rw [Nat.add_mul_mod_self_right, hal]
  constructor
  · rintro ⟨t', fm', hmap, hkeep⟩
    have harea : ∀ x, c ≤ x → x < c + n * pagesize 1 → m.InArea x := by
      intro x hx hxb
      have hlt : x % 2 ^ pagebits < 2 ^ pagebits := Nat.mod_lt _ (Nat.two_pow_pos _)
      have hnew : entry t' (x % 2 ^ pagebits) = lazyEntry := by
        rw [entry, walk_mod, mapPages_pages hmap x hx hxb]
      by_cases hold : entry m.t (x % 2 ^ pagebits) = lazyEntry
      · exact hu.lazily _ hlt hold
      · exact hkeep _ hlt fun heq => hold (heq ▸ hnew)
    obtain ⟨hfree, hframes⟩ := (mapPages_iff hinv hlp hal (oneHalf_of_inArea harea)
      (small_of_inArea hu harea)).mp ⟨t', fm', hmap⟩
    exact ⟨fun x hx hxb => ⟨harea x hx hxb, hfree x hx hxb⟩, hframes⟩
  · rintro ⟨hrange, hframes⟩
    have harea : ∀ x, c ≤ x → x < c + n * pagesize 1 → m.InArea x :=
      fun x hx hxb => (hrange x hx hxb).1
    have hsmall := small_of_inArea hu harea
    obtain ⟨t', fm', hmap⟩ := (mapPages_iff hinv hlp hal (oneHalf_of_inArea harea) hsmall).mpr
      ⟨fun x hx hxb => (hrange x hx hxb).2, hframes⟩
    refine ⟨t', fm', hmap, fun x hx hne => inArea_of_hit hal hend harea hx ?_⟩
    by_contra hoff
    exact hne (mapPages_off hmap hsmall hoff)

/-- **Unmapping a range keeps to the area** exactly when the range is of the area and all
entered. -/
theorem unmapPages_keepsTo_iff {d : InvData} (hal : c % pagesize 1 = 0) :
    (∃ d' m', unmapPages 1 true false n d m c = .ok (d', m') ∧ m.KeepsTo m'.t) ↔
      ∀ x, c ≤ x → x < c + n * pagesize 1 → m.InArea x ∧ Entered m.t x := by
  have hend : (c + n * pagesize 1) % pagesize 1 = 0 := by rw [Nat.add_mul_mod_self_right, hal]
  constructor
  · rintro ⟨d', m', hunmap, hkeep⟩
    have harea : ∀ x, c ≤ x → x < c + n * pagesize 1 → m.InArea x := fun x hx hxb =>
      hkeep _ (Nat.mod_lt _ (Nat.two_pow_pos _)) ((unmapPages_entry hunmap).1 (hit_self hx hxb)).ne
    have hentered := (unmapPages_iff hal (oneHalf_of_inArea harea)).mp ⟨d', m', hunmap⟩
    exact fun x hx hxb => ⟨harea x hx hxb, hentered x hx hxb⟩
  · intro hrange
    have harea : ∀ x, c ≤ x → x < c + n * pagesize 1 → m.InArea x :=
      fun x hx hxb => (hrange x hx hxb).1
    obtain ⟨d', m', hunmap⟩ := (unmapPages_iff (d := d) hal (oneHalf_of_inArea harea)).mpr
      fun x hx hxb => (hrange x hx hxb).2
    refine ⟨d', m', hunmap, fun x hx hne => inArea_of_hit hal hend harea hx ?_⟩
    by_contra hoff
    exact hne ((unmapPages_entry hunmap).2 hoff)

/-- No call that returns has an error code. -/
theorem harmless_map_iff {α : Type} {r : Except Fault α} {f : α → Space} :
    m.Harmless (r.map fun a => (0, f a)) ↔ ∃ a, r = .ok a ∧ m.KeepsTo (f a).t := by
  constructor
  · rintro ⟨ret, m', h, hcase⟩
    obtain ⟨a, rfl, hpair⟩ := Fault.map_eq_ok h
    cases hpair
    exact ⟨a, rfl, hcase.resolve_left fun hneg => absurd hneg.1 (lt_irrefl 0)⟩
  · rintro ⟨a, rfl, hkeep⟩
    exact ⟨0, f a, rfl, .inr hkeep⟩

theorem not_harmless_error {f : Fault} : ¬ m.Harmless (.error f) := by
  rintro ⟨_, _, h, -⟩
  cases h

theorem harmless_mmap_iff (hu : IsUser m) (hinv : FrameManager.Inv m.fm) (hlp : m.fm.lplock = false)
    (d : InvData) (addr len : ℕ) : m.Harmless (m.perform d (.mmap addr len)) ↔
      m.Acceptable (.mmap addr len) := by
  obtain ⟨area, heq⟩ := perform_mmap hu d addr len
  have hstart := rangeStart_mod m addr len
  have hin := fun x => lt_pages_iff (x := x) hstart (rangeStop_mod hu addr len)
  rw [Acceptable, heq]
  by_cases hbot : m.rangeStart addr len < m.area.mapBottom
  · rw [if_pos hbot]
    exact iff_of_false not_harmless_error fun h => absurd h.1 (not_le.mpr hbot)
  · rw [if_neg hbot, and_iff_right (not_lt.mp hbot), harmless_map_iff, Prod.exists,
      mapPages_keepsTo_iff hu hinv hlp hstart, newTables_congr hin]
    exact and_congr_left fun _ => forall_congr' fun x => forall_congr' fun hx => by rw [hin x hx]

theorem harmless_munmap_iff (m : Space) (d : InvData) (addr len : ℕ) :
    m.Harmless (m.perform d (.munmap addr len)) ↔ m.Acceptable (.munmap addr len) := by
  rw [Acceptable, perform_munmap]
  by_cases hal : addr % pagesize 1 = 0
  · have hsize : alignUp len (pagesize 1) % pagesize 1 = 0 := alignDown_page (wsub_lt _ _)
    have hstop : wadd addr (alignUp len (pagesize 1)) % pagesize 1 = 0 :=
      Nat.mod_eq_zero_of_dvd ((Nat.dvd_mod_iff (by decide)).mpr
        (Nat.dvd_add (Nat.dvd_of_mod_eq_zero hal) (Nat.dvd_of_mod_eq_zero hsize)))
    rw [if_pos hal, and_iff_right hal, harmless_map_iff, Prod.exists, unmapPages_keepsTo_iff hal]
    exact forall_congr' fun x => forall_congr' fun hx => by rw [lt_pages_iff hal hstop hx]
  · rw [if_neg hal]
    exact iff_of_false not_harmless_error fun h => hal h.1

/-- **Which system calls are harmless.** -/
theorem syscall_harmless_iff (hu : IsUser m) (hinv : FrameManager.Inv m.fm)
    (hlp : m.fm.lplock = false) (d : InvData) (c : MemCall) :
    m.Harmless (m.perform d c) ↔ m.Acceptable c := by
  cases c with
  | mmap addr len => exact harmless_mmap_iff hu hinv hlp d addr len
  | munmap addr len => exact harmless_munmap_iff m d addr len

/-- A process right after `setup`. -/
def setupSpace (t : Tables) (fm : FrameManager) : Space := ⟨t, Vm.userSpace.area, fm, []⟩

theorem isUser_setupSpace (hzero : ∀ x < usertop, entry t x = 0)
    (hlazy : ∀ x, entry t x ≠ lazyEntry) : IsUser (setupSpace t fm) :=
  ⟨show 2 ^ 22 < 2 ^ 47 by decide, show 2 ^ 47 < wordSize by decide, fun x hx _ => hzero x hx,
    fun x _ hx => absurd hx (hlazy x)⟩

theorem entry_userSpace (x : ℕ) : entry Vm.userSpace.t x = 0 := Vm.walk_userSpace x

theorem syscall_harmless_firstPage : ∃ fm, IsUser (setupSpace Vm.userSpace.t fm) ∧
    (setupSpace Vm.userSpace.t fm).Acceptable (.mmap 0 4096) ∧
    (setupSpace Vm.userSpace.t fm).Harmless ((setupSpace Vm.userSpace.t fm).perform
      ⟨1, [], 0⟩ (.mmap 0 4096)) := by
  obtain ⟨fm, hfm⟩ := exists_hasFrames
  have hu : IsUser (setupSpace Vm.userSpace.t fm) :=
    isUser_setupSpace (fun x _ => entry_userSpace x) fun x => by rw [entry_userSpace]; decide
  have hstart : (setupSpace Vm.userSpace.t fm).rangeStart 0 4096 = 2 ^ 47 - 4096 := by
    show alignDown (wsub (alignDown (2 ^ 47) (pagesize 1)) 4096) (pagesize 1) = _
    decide
  have hstop : (setupSpace Vm.userSpace.t fm).rangeStop 0 4096 = 2 ^ 47 := by
    show alignDown (2 ^ 47) (pagesize 1) = _
    decide
  have hlevel : ∀ x, 2 ^ 47 - 4096 ≤ x → x < 2 ^ 47 → (walk Vm.userSpace.t pagelevels x).1 = 1 := by
    intro x hx hxb
    have hidx : index 1 x = index 1 (2 ^ 47 - 4096) :=
      Vm.index_of_inPage (M := 1) (by decide) (by decide)
        ⟨hx, by rw [show pagesize 1 = 4096 from rfl]; omega⟩
    rw [walk_of_index hidx]
    decide
  have hnone : newTables Vm.userSpace.t (2 ^ 47 - 4096) (2 ^ 47) = ∅ := by
    refine Set.eq_empty_of_forall_notMem ?_
    rintro p ⟨hp, x, hx, hxb, hle, -⟩
    rw [hlevel x hx hxb] at hle
    omega
  have hacc : (setupSpace Vm.userSpace.t fm).Acceptable (.mmap 0 4096) := by
    rw [Acceptable, hstart, hstop, show (setupSpace Vm.userSpace.t fm).t = Vm.userSpace.t from rfl,
      hnone, Set.ncard_empty]
    refine ⟨show 2 ^ 22 ≤ 2 ^ 47 - 4096 by decide, fun x hx hxb => ⟨⟨?_, ?_⟩, ?_⟩, atLeast_zero _⟩
    · rw [show (setupSpace Vm.userSpace.t fm).area.mapBottom = 2 ^ 22 from rfl,
        show pagebits = 48 from rfl]
      omega
    · rw [usertop, show pagebits = 48 from rfl]
      omega
    · rw [entry_userSpace]
      decide
  exact ⟨fm, hu, hacc, (syscall_harmless_iff hu hfm.inv hfm.lplock _ _).mpr hacc⟩

/-- The first address of the kernel's area. -/
def kernelAddr : ℕ := 2 ^ 64 - 2 ^ 41

/-- A page of the kernel, and nothing else. -/
def kernelPage : Tables := fun n i =>
  if (n, i) = (4, 508) ∨ (n, i) = (3, 508 * 2 ^ 9) ∨ (n, i) = (2, 508 * 2 ^ 18) then pageTable
  else if (n, i) = (1, 508 * 2 ^ 27) then 0x5000 ||| kernelData ||| P else 0

theorem isUser_kernelPage : IsUser (setupSpace kernelPage fm) := by
  refine isUser_setupSpace (fun x hx => ?_) fun x hx => ?_
  · -- the root has no entry for the user half
    have hlt : index 4 x < 508 := by
      rw [index, show pagesize 4 = 2 ^ 39 from rfl, show pagebits = 48 from rfl]
      rw [usertop] at hx
      omega
    have hzero : kernelPage 4 (index 4 x) = 0 := by simp [kernelPage, hlt.ne]
    rw [entry, show pagelevels = 3 + 1 from rfl, walk, show 3 + 1 = 4 from rfl, hzero, isTable_zero]
    rfl
  · obtain ⟨⟨N, e⟩, hw⟩ : ∃ p, walk kernelPage pagelevels x = p := ⟨_, rfl⟩
    obtain ⟨rfl, -⟩ := walk_entry (by decide) hw
    rw [entry, hw] at hx
    unfold kernelPage at hx
    dsimp only at hx
    split at hx
    · exact absurd hx (by decide)
    split at hx
    · exact absurd hx (by decide)
    · exact absurd hx (by decide)

/-- **A process can unmap a page of the kernel.** -/
theorem munmap_kernelPage : ∃ m d m', IsUser m ∧ FrameManager.Inv m.fm ∧ m.fm.lplock = false ∧
    (entry m.t kernelAddr).present = true ∧ m.perform d (.munmap kernelAddr 4096) = .ok (0, m') ∧
    entry m'.t kernelAddr = 0 ∧ ¬ m.Harmless (m.perform d (.munmap kernelAddr 4096)) := by
  obtain ⟨fm, hfm⟩ := exists_hasFrames
  have hmapped : PageMapped 1 kernelPage kernelAddr :=
    ⟨by decide, by decide, by decide, .inl (by decide)⟩
  have hcall : (setupSpace kernelPage fm).perform ⟨1, [], 0⟩ (.munmap kernelAddr 4096) =
      .ok (0, setupSpace (setPE kernelPage (entryOf 1 kernelAddr)
        (leftOf 1 (kernelPage 1 (index 1 kernelAddr)))) fm) := by
    have hn : (wadd kernelAddr (alignUp 4096 (pagesize 1)) - kernelAddr) / pagesize 1 = 0 + 1 := by
      decide
    rw [perform_munmap, if_pos (by decide), hn, unmapPages, unmapPage_spec hmapped]
    rfl
  refine ⟨setupSpace kernelPage fm, ⟨1, [], 0⟩, _, isUser_kernelPage, hfm.inv, hfm.lplock,
    show (entry kernelPage kernelAddr).present = true by decide, hcall, ?_, ?_⟩
  · exact (entry_unmapped hmapped 1 kernelAddr).trans (by decide)
  · rw [harmless_munmap_iff, Acceptable]
    rintro ⟨-, h⟩
    have harea := (h kernelAddr le_rfl (by decide)).1.2
    exact absurd harea (by decide)

end Space

end Kos
