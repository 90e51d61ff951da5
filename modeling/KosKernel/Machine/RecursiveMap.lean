import KosKernel.Machine.PageWalk
import Mathlib.Tactic.IntervalCases

/-!
# Machine/RecursiveMap — page tables as virtual memory

The entry `recptindex` of the root table points to the root table itself.  A walk that starts with
this index goes one level less deep, so the address whose indices are those of `vma`, moved down by
as many levels, is that of a page table entry of `vma`:

    target vaddr: ABCD|x|y     L4 entry  XXXX|A|0     L2 entry  XXAB|C|0
                               L3 entry  XXXA|B|0     L1 entry  XABC|D|0

`ptprefix`, `getTable` and `getEntry` of `machine/Paging.h` build these addresses; the hardware walk
over physical memory ends where they say (`getEntry_walks`).
-/

namespace Kos

namespace Paging

open PageEntry

/-! ## Addresses in the window -/

/-- `bitmask`. -/
def bitmask (width : ℕ) : ℕ := if width = 64 then limit else 2 ^ width - 1

def recptindex : ℕ := pagetableentries / 2

def canonPrefix : ℕ := lnot (bitmask pagebits)

/-- `ptprefix<N>()`. -/
def ptprefix : ℕ → ℕ
  | 0 => if recptindex < pagetableentries / 2 then 0 else canonPrefix
  | N + 1 => recptindex <<< pagesizebits (1 + pagelevels - (N + 1)) ||| ptprefix N

def ptend : ℕ := canonPrefix ||| (recptindex + 1) <<< pagesizebits pagelevels

def getTable (N vma : ℕ) : ℕ :=
  ptprefix N ||| ((vma &&& bitmask pagebits) >>> pagesizebits (N + 1)) <<< pagesizebits 1

def getEntry (N vma : ℕ) : ℕ := ptprefix N ||| ((vma &&& bitmask pagebits) >>> pagesizebits N) <<< 3

def getIndex (N x : ℕ) : ℕ := (x &&& bitmask (pagesizebits (N + 1))) >>> pagesizebits N

/-! ## The hardware -/

/-- The bits above the translated ones repeat the highest of these. -/
def canonical (va : ℕ) : Prop := va < 2 ^ (pagebits - 1) ∨ 2 ^ 64 - 2 ^ (pagebits - 1) ≤ va ∧
      va < 2 ^ 64

instance (va : ℕ) : Decidable (canonical va) := inferInstanceAs (Decidable (_ ∨ _))

/-- The walk from the table of level `N` at physical address `table`: the physical address of `va`,
if there is no page fault.  A root entry has no bit `PS`. -/
def hwWalk (mem : ℕ → PageEntry) : ℕ → ℕ → ℕ → Option ℕ
  | 0, _, _ => none
  | 1, table, va =>
    let e := mem (table + 8 * (va / pagesize 1 % pagetableentries))
    if e.present then some (e.addr.toNat + va % pagesize 1) else none
  | N + 2, table, va =>
    let e := mem (table + 8 * (va / pagesize (N + 2) % pagetableentries))
    if e.present = false then none
    else if e.large = false then hwWalk mem (N + 1) e.addr.toNat va
    else if N + 2 = pagelevels then none
    else some (e.addr.toNat / pagesize (N + 2) * pagesize (N + 2) + va % pagesize (N + 2))

variable (mem : ℕ → PageEntry)

/-- The translation of a virtual address; one that is not canonical is a general protection
fault. -/
def hwTranslate (root va : ℕ) : Option ℕ :=
  if canonical va then hwWalk mem pagelevels root va else none

/-- The physical address of the table of level `pagelevels - d` that translates `vma`. -/
def tableBelow (mem : ℕ → PageEntry) (root vma : ℕ) : ℕ → ℕ
  | 0 => root
  | d + 1 => (mem (tableBelow mem root vma d + 8 * getIndex (pagelevels - d) vma)).addr.toNat

/-- The physical address of the table of level `N`, and of its entry for `vma`. -/
def tableAddr (root N vma : ℕ) : ℕ := tableBelow mem root vma (pagelevels - N)

def entryAddr (root N vma : ℕ) : ℕ :=
  tableAddr mem root N vma + 8 * getIndex N vma

/-- An entry that points to a table at any level. -/
def pointsDown (e : PageEntry) : Prop := e.present = true ∧ e.large = false

/-! ## The arithmetic of the addresses -/

theorem and_bitmask {w : ℕ} (hw : w < 64) (x : ℕ) : x &&& bitmask w = x % 2 ^ w := by
  rw [bitmask, if_neg hw.ne, Nat.and_two_pow_sub_one_eq_mod]

/-- The bits of an offset below an aligned prefix. -/
theorem prefix_or {p x i : ℕ} (hp : p % 2 ^ i = 0) (hx : x < 2 ^ i) : p ||| x = p + x := by
  obtain ⟨q, rfl⟩ := Nat.dvd_of_mod_eq_zero hp
  exact (Nat.two_pow_add_eq_or_of_lt hx q).symm

theorem pagesize_eq : pagesize 1 = 2 ^ 12 ∧ pagesize 2 = 2 ^ 21 ∧ pagesize 3 = 2 ^ 30 ∧
      pagesize 4 = 2 ^ 39 ∧ pagetableentries = 2 ^ 9 ∧ pagebits = 48 := by decide

theorem ptprefix_eq : ptprefix 1 = 2 ^ 64 - 2 ^ 47 ∧ ptprefix 2 = 2 ^ 64 - 2 ^ 47 + 2 ^ 38 ∧
    ptprefix 3 = 2 ^ 64 - 2 ^ 47 + 2 ^ 38 + 2 ^ 29 ∧
    ptprefix 4 = 2 ^ 64 - 2 ^ 47 + 2 ^ 38 + 2 ^ 29 + 2 ^ 20 ∧ ptend = 2 ^ 64 - 2 ^ 47 + 2 ^ 39 ∧
    recptindex = 2 ^ 8 := by decide

theorem getIndex_eq {N : ℕ} (h1 : 1 ≤ N) (hN : N ≤ 4) (x : ℕ) :
    getIndex N x = x / pagesize N % pagetableentries := by
  obtain ⟨h1', h2, h3, h4, h9, -⟩ := pagesize_eq
  rw [getIndex, and_bitmask (by interval_cases N <;> decide), Nat.shiftRight_eq_div_pow, h9]
  interval_cases N
  all_goals
    simp only [h1', h2, h3, h4, pagesizebits, pageoffsetbits, pagetablebits]
    omega

/-- `getEntry` adds eight bytes for each page to the prefix. -/
theorem getEntry_eq {N : ℕ} (h1 : 1 ≤ N) (hN : N ≤ 4) (vma : ℕ) :
    getEntry N vma = ptprefix N + vma % 2 ^ pagebits / pagesize N * 8 := by
  rw [getEntry, and_bitmask (by decide), Nat.shiftRight_eq_div_pow, Nat.shiftLeft_eq]
  refine prefix_or (i := 48 - 9 * N) ?_ ?_
  · interval_cases N <;> decide
  · interval_cases N
    all_goals
      simp only [pagesizebits, pageoffsetbits, pagetablebits, pagebits, pagelevels]
      omega

/-- `getTable` adds one page for each table to the prefix. -/
theorem getTable_eq {N : ℕ} (h1 : 1 ≤ N) (hN : N ≤ 4) (vma : ℕ) :
    getTable N vma = ptprefix N + vma % 2 ^ pagebits / pagesize (N + 1) * 2 ^ 12 := by
  rw [getTable, and_bitmask (by decide), Nat.shiftRight_eq_div_pow, Nat.shiftLeft_eq]
  refine prefix_or (i := 48 - 9 * N) ?_ ?_
  · interval_cases N <;> decide
  · interval_cases N
    all_goals
      simp only [pagesizebits, pageoffsetbits, pagetablebits, pagebits, pagelevels]
      omega

/-! ## One level of a walk -/

variable {mem : ℕ → PageEntry} {root vma a table N l : ℕ} {e : PageEntry}

/-- The walk goes through an entry that points down. -/
theorem hwWalk_succ (he : mem (table + 8 * (a / pagesize (l + 2) % pagetableentries)) = e)
    (hdown : pointsDown e) : hwWalk mem (l + 2) table a = hwWalk mem (l + 1) e.addr.toNat a := by
  rw [hwWalk]
  simp only [he, hdown.1, hdown.2, Bool.true_eq_false, if_false, if_true]

/-- At the last level it ends in the page that the entry points to. -/
theorem hwWalk_one (he : mem (table + 8 * (a / pagesize 1 % pagetableentries)) = e)
    (hdown : pointsDown e) : hwWalk mem 1 table a = some (e.addr.toNat + a % pagesize 1) := by
  rw [hwWalk]
  simp only [he, hdown.1, if_true]

/-- The root table points to itself. -/
structure Recursive (mem : ℕ → PageEntry) (root : ℕ) : Prop where
  down : pointsDown (mem (root + 8 * recptindex))
  self : (mem (root + 8 * recptindex)).addr.toNat = root

/-- The address `a` has `N` times the recursive index, and then the indices of `vma`. -/
structure Moved (N vma a : ℕ) : Prop where
  self : ∀ l, 5 - N ≤ l → l ≤ 4 → a / pagesize l % pagetableentries = recptindex
  down : ∀ l, 1 ≤ l → l < 5 - N → a / pagesize l % pagetableentries = getIndex (l + N) vma

theorem Recursive.step (hrec : Recursive mem root)
    (ha : a / pagesize (l + 2) % pagetableentries = recptindex) :
    hwWalk mem (l + 2) root a = hwWalk mem (l + 1) root a := by
  rw [hwWalk_succ (congrArg (fun i => mem (root + 8 * i)) ha) hrec.down, hrec.self]

/-- **The walk of a moved address ends in the table of level `N`.** -/
theorem Recursive.walk (hrec : Recursive mem root) (h1 : 1 ≤ N) (hN : N ≤ 4) (ha : Moved N vma a)
    (hdown : ∀ M, N < M → M ≤ 4 → pointsDown (mem (entryAddr mem root M vma))) :
    hwWalk mem 4 root a = some (tableAddr mem root N vma + a % pagesize 1) := by
  have entry {l : ℕ} (hl : 1 ≤ l) (hlN : l < 5 - N) :
      mem (tableAddr mem root (l + N) vma + 8 * (a / pagesize l % pagetableentries)) =
        mem (entryAddr mem root (l + N) vma) := by
    rw [ha.down l hl hlN, entryAddr]
  have self {l : ℕ} (hl : 5 - N ≤ l) (hl4 : l ≤ 4) :
      mem (root + 8 * (a / pagesize l % pagetableentries)) = mem (root + 8 * recptindex) := by
    rw [ha.self l hl hl4]
  interval_cases N
  · rw [hrec.step (ha.self 4 (by omega) le_rfl)]
    refine (hwWalk_succ (entry (l := 3) (by omega) (by omega)) (hdown 4 (by omega) le_rfl)).trans ?_
    refine (hwWalk_succ (entry (l := 2) (by omega) (by omega))
      (hdown 3 (by omega) (by omega))).trans ?_
    exact hwWalk_one (entry (l := 1) (by omega) (by omega)) (hdown 2 (by omega) (by omega))
  · rw [hrec.step (ha.self 4 (by omega) le_rfl), hrec.step (ha.self 3 (by omega) (by omega))]
    refine (hwWalk_succ (entry (l := 2) (by omega) (by omega)) (hdown 4 (by omega) le_rfl)).trans ?_
    exact hwWalk_one (entry (l := 1) (by omega) (by omega)) (hdown 3 (by omega) (by omega))
  · rw [hrec.step (ha.self 4 (by omega) le_rfl), hrec.step (ha.self 3 (by omega) (by omega)),
      hrec.step (ha.self 2 (by omega) (by omega))]
    exact hwWalk_one (entry (l := 1) (by omega) (by omega)) (hdown 4 (by omega) le_rfl)
  · rw [hrec.step (ha.self 4 (by omega) le_rfl), hrec.step (ha.self 3 (by omega) (by omega)),
      hrec.step (ha.self 2 (by omega) (by omega)),
        hwWalk_one (self (l := 1) (by omega) (by omega)) hrec.down, hrec.self]
    rfl

/-- An offset of less than a page above the prefix and the page of the table. -/
theorem moved_add {x : ℕ} (h1 : 1 ≤ N) (hN : N ≤ 4) (hx : x < 2 ^ 12) :
    Moved N vma (getTable N vma + x) := by
  obtain ⟨hs1, hs2, hs3, hs4, h9, hb⟩ := pagesize_eq
  obtain ⟨hp1, hp2, hp3, hp4, -, hr⟩ := ptprefix_eq
  have h5 : pagesize 5 = 2 ^ 48 := by decide
  rw [getTable_eq h1 hN, hb]
  constructor
  · intro l hl hl4
    interval_cases N <;> interval_cases l
    all_goals
      simp only [hs1, hs2, hs3, hs4, h5, h9, hp1, hp2, hp3, hp4, hr] at *
      omega
  · intro l hl hl4
    rw [getIndex_eq (by omega) (by omega)]
    interval_cases N <;> interval_cases l
    all_goals
      simp only [hs1, hs2, hs3, hs4, h5, h9, hp1, hp2, hp3, hp4, hr, Nat.reduceAdd] at *
      omega

/-- The entry in its table. -/
theorem getEntry_eq_add (h1 : 1 ≤ N) (hN : N ≤ 4) (vma : ℕ) :
    getEntry N vma = getTable N vma + 8 * getIndex N vma := by
  obtain ⟨hs1, hs2, hs3, hs4, h9, hb⟩ := pagesize_eq
  have h5 : pagesize 5 = 2 ^ 48 := by decide
  rw [getEntry_eq h1 hN, getTable_eq h1 hN, getIndex_eq h1 hN, hb, h9]
  interval_cases N
  all_goals
    simp only [hs1, hs2, hs3, hs4, h5, Nat.reduceAdd]
    omega

theorem getTable_mod (h1 : 1 ≤ N) (hN : N ≤ 4) (vma : ℕ) : getTable N vma % 2 ^ 12 = 0 := by
  obtain ⟨hp1, hp2, hp3, hp4, -⟩ := ptprefix_eq
  rw [getTable_eq h1 hN]
  interval_cases N
  all_goals
    simp only [hp1, hp2, hp3, hp4]
    omega

theorem getTable_bounds (h1 : 1 ≤ N) (hN : N ≤ 4) (vma : ℕ) :
    ptprefix 1 ≤ getTable N vma ∧ getTable N vma + 2 ^ 12 ≤ ptend := by
  obtain ⟨-, hs2, hs3, hs4, h9, hb⟩ := pagesize_eq
  obtain ⟨hp1, hp2, hp3, hp4, hend, -⟩ := ptprefix_eq
  have h5 : pagesize 5 = 2 ^ 48 := by decide
  rw [getTable_eq h1 hN, hb]
  interval_cases N
  all_goals
    simp only [hs2, hs3, hs4, h5, hp1, hp2, hp3, hp4, hend, Nat.reduceAdd]
    omega

/-- The window is in the upper half of the canonical addresses. -/
theorem hwTranslate_window (hlo : ptprefix 1 ≤ a) (hhi : a < ptend) :
    canonical a ∧ hwTranslate mem root a = hwWalk mem 4 root a := by
  obtain ⟨hp1, -, -, -, hend, -⟩ := ptprefix_eq
  have hcanon : canonical a := by
    refine .inr ⟨?_, ?_⟩
    · rw [hp1] at hlo
      exact hlo
    · rw [hend] at hhi
      omega
  exact ⟨hcanon, if_pos hcanon⟩

/-- **`getEntry` is the virtual address of the entry, and `getTable` of its table**: the hardware
walk ends there if the entries of `vma` above the level point to tables. -/
theorem getEntry_walks (hrec : Recursive mem root) (h1 : 1 ≤ N) (hN : N ≤ pagelevels)
    (hdown : ∀ M, N < M → M ≤ pagelevels → pointsDown (mem (entryAddr mem root M vma))) :
    hwTranslate mem root (getEntry N vma) = some (entryAddr mem root N vma) ∧
      hwTranslate mem root (getTable N vma) = some (tableAddr mem root N vma) ∧
      getTable N vma % pagesize 1 = 0 ∧ getEntry N vma = getTable N vma + 8 * getIndex N vma ∧
      canonical (getEntry N vma) ∧ ptprefix 1 ≤ getEntry N vma ∧ getEntry N vma < ptend := by
  have hN : N ≤ 4 := hN
  have hmod := getTable_mod h1 hN vma
  obtain ⟨hlo, hhi⟩ := getTable_bounds h1 hN vma
  have hidx : getIndex N vma < 2 ^ 9 := by
    rw [getIndex_eq h1 hN]
    exact Nat.mod_lt _ (by decide)
  have hentry := getEntry_eq_add h1 hN vma
  -- an offset within the table
  have hwalk {x : ℕ} (hx : x < 2 ^ 12) :
      hwWalk mem 4 root (getTable N vma + x) = some (tableAddr mem root N vma + x) := by
    have hoff : (getTable N vma + x) % pagesize 1 = x := by
      rw [pagesize_eq.1]
      omega
    rw [hrec.walk h1 hN (moved_add h1 hN hx) hdown, hoff]
  obtain ⟨hcanon, htrans⟩ : canonical (getEntry N vma) ∧
      hwTranslate mem root (getEntry N vma) = hwWalk mem 4 root (getEntry N vma) :=
    hwTranslate_window (by omega) (by omega)
  refine ⟨?_, ?_, hmod, hentry, hcanon, by omega, by omega⟩
  · rw [htrans, hentry, hwalk (by omega), entryAddr]
  · rw [(hwTranslate_window hlo (by omega)).2]
    exact hwalk (x := 0) (by decide)

/-- A root table at `0x1000` with a table of level 3 at `0x2000`. -/
def twoTables (pa : ℕ) : PageEntry := if pa = 0x1800 then 0x1003 else if pa = 0x1000 then 0x2003
      else 0

theorem getEntry_walks_twoTables :
    hwTranslate twoTables 0x1000 (getEntry 3 0x40000000) =
      some (entryAddr twoTables 0x1000 3 0x40000000) ∧
      entryAddr twoTables 0x1000 3 0x40000000 = 0x2008 := by
  have hrec : Recursive twoTables 0x1000 := ⟨⟨by decide, by decide⟩, by decide⟩
  have hdown : ∀ M, 3 < M → M ≤ pagelevels →
      pointsDown (twoTables (entryAddr twoTables 0x1000 M 0x40000000)) := by
    intro M h3 h4
    obtain rfl : M = 4 := Nat.le_antisymm h4 h3
    exact ⟨by decide, by decide⟩
  exact ⟨(getEntry_walks hrec (by decide) (by decide) hdown).1, by decide⟩

end Paging

end Kos
