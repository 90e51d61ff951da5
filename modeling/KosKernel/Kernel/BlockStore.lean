import KosKernel.Lib.Links
import KosKernel.Lib.Runs
import KosKernel.Machine.Memory
import KosKernel.Machine.SpinLock
import Mathlib.Data.Finset.Range

/-!
# Kernel/BlockStore — small blocks cut from pages

`alloc2` and `release2` of `MemoryManager` keep a stack of free blocks for each of two sizes.  The
stacks are linked through the free blocks, and whoever has a block overwrites what it holds.  An
empty stack is filled with the blocks of one page, which comes from `MemoryManager::map` by way of
the `PageStore`.

A page belongs to one size, so the blocks of all pages are disjoint (`IsBlock.eq_of_overlap`), and
each of them is either in use or on its stack (`Inv.free`).  Both follow for any calls:
`blocks_sound`.
-/

namespace Kos

open Function Runs Links

/-- `ceilinglog2`; for `x = 1` the sum wraps to zero. -/
def ceilinglog2 (x : ℕ) : ℕ := if wsub x 1 = 0 then 0 else msbcond (wsub x 1) + 1

theorem le_two_pow_ceilinglog2 {x : ℕ} (hpos : 0 < x) (hx : x < wordSize) :
    x ≤ 2 ^ ceilinglog2 x := by
  have hpred : wsub x 1 = x - 1 := wsub_of_le hx hpos
  rw [ceilinglog2, hpred]
  split_ifs with hzero
  · omega
  have hlt : x - 1 < 2 ^ (Nat.log2 (x - 1) + 1) := Nat.lt_log2_self
  rw [msbcond, if_neg hzero]
  omega

/-- What the words of memory hold: a link of a free stack, or something else. -/
abbrev LinkMem : Type := ℕ → Option (Option ℕ)

namespace BlockStore

/-- `release`, on the memory and the pointer to the first block. -/
def release (st : LinkMem × Option ℕ) (p : ℕ) : LinkMem × Option ℕ :=
  (update st.1 p (some st.2), some p)

/-- `fill<S>`; `n` bounds the iterations. -/
def fill (S : ℕ) : ℕ → ℕ → ℕ → LinkMem × Option ℕ → LinkMem × Option ℕ
  | 0, _, _, st => st
  | n + 1, p, s, st => if s ≥ S then fill S n (p + S) (s - S) (release st p) else st

/-- `alloc`: the block, and the pointer to the next one. -/
def alloc (st : LinkMem × Option ℕ) : Except Fault (ℕ × Option ℕ) :=
  match st.2 with
  | none => .error .kassert
  | some p =>
    match st.1 p with
    | some next => .ok (p, next)
    | none => .error .outOfBounds

variable {t : LinkMem × Option ℕ} {l : List ℕ} {S p : ℕ}

theorem alloc_of_chain (h : Chain t.1 t.2 (p :: l)) :
    ∃ next, alloc t = .ok (p, next) ∧ Chain t.1 next l := by
  obtain ⟨htop, next, hnext, hrest⟩ := h
  refine ⟨next, ?_, hrest⟩
  simp only [alloc, htop, hnext]

theorem release_chain (h : Chain t.1 t.2 l) (hp : p ∉ l) :
    Chain (release t p).1 (release t p).2 (p :: l) :=
  h.push (update_self ..) fun _ hq => update_of_ne (ne_of_mem_of_not_mem hq hp) ..

/-- **`fill`** puts `k` blocks on the stack, and writes to nothing else. -/
theorem fill_spec {n : ℕ} {k : ℕ} (hk : k ≤ n) : 0 < S → Chain t.1 t.2 l → l.Nodup →
      (∀ q ∈ l, q < p) → ∃ l', Chain (fill S n p (k * S) t).1 (fill S n p (k * S) t).2 l' ∧
      l'.Nodup ∧ (∀ q, q ∈ l' ↔ q ∈ l ∨ ∃ j < k, q = p + j * S) ∧ ∀ q, q < p ∨ p + k * S ≤ q →
      (fill S n p (k * S) t).1 q = t.1 q := by
  induction n generalizing k p t l with
  | zero =>
    intro _ hchain hnodup _
    obtain rfl : k = 0 := by omega
    exact ⟨l, hchain, hnodup, by simp, fun _ _ => rfl⟩
  | succ n ih =>
    intro hS hchain hnodup hbelow
    cases k with
    | zero =>
      have hstop : ¬ 0 * S ≥ S := by omega
      rw [fill, if_neg hstop]
      exact ⟨l, hchain, hnodup, by simp, fun _ _ => rfl⟩
    | succ k =>
      have hgo : (k + 1) * S ≥ S := Nat.le_mul_of_pos_left S (Nat.succ_pos k)
      have hless : (k + 1) * S - S = k * S := by rw [Nat.succ_mul, Nat.add_sub_cancel]
      rw [fill, if_pos hgo, hless]
      have hp : p ∉ l := fun hin => lt_irrefl p (hbelow p hin)
      obtain ⟨l', hchain', hnodup', hmem, hframe⟩ :=
        ih (k := k) (p := p + S) (by omega) hS (release_chain hchain hp)
        (List.nodup_cons.mpr ⟨hp, hnodup⟩) fun q hq => by
          rcases List.mem_cons.mp hq with rfl | hq
          · omega
          · exact (hbelow q hq).trans (by omega)
      refine ⟨l', hchain', hnodup', fun q => ?_, fun q hq => ?_⟩
      · rw [hmem, List.mem_cons]
        constructor
        · rintro ((rfl | hq) | ⟨j, hj, rfl⟩)
          · exact .inr ⟨0, by omega, by omega⟩
          · exact .inl hq
          · exact .inr ⟨j + 1, by omega, by rw [Nat.succ_mul]; omega⟩
        · rintro (hq | ⟨j, hj, rfl⟩)
          · exact .inl (.inr hq)
          · cases j with
            | zero => exact .inl (.inl (by omega))
            | succ j => exact .inr ⟨j, by omega, by rw [Nat.succ_mul]; omega⟩
      · rw [Nat.succ_mul] at hq
        rw [hframe q (by omega)]
        exact update_of_ne (by omega) ..

end BlockStore

/-! ## The allocator -/

/-- The stacks of the `MemoryManager`.  `pages` are the pages from `map`, each with the index of its
size; `live` are the blocks in use, each with the index of the size it was allocated with. -/
structure SmallBlocks where
  mem : LinkMem
  blockStore : ℕ → Option ℕ
  pageStore : Option ℕ
  pages : List (ℕ × ℕ)
  live : List (ℕ × ℕ)

namespace SmallBlocks

def botidx : ℕ := 6
def topidx : ℕ := 7

/-- `PageStore::psize`. -/
def psize : ℕ := pagesize 1

/-- The assertion on the size of a type. -/
def inRange (size : ℕ) : Bool := botidx ≤ ceilinglog2 size && ceilinglog2 size ≤ topidx

def init : SmallBlocks := ⟨fun _ => none, fun _ => none, none, [], []⟩

variable (s : SmallBlocks)

/-- `PageStore::check`, where `map` returns `v`. -/
def check (v : ℕ) : SmallBlocks :=
  if s.pageStore.isNone then { s with mem := update s.mem v (some none), pageStore := some v }
    else s

/-- The part of `alloc2` for an empty stack. -/
def refill (tidx v : ℕ) : Except Fault SmallBlocks := do
  let s := s.check v
  let (page, next) ← BlockStore.alloc (s.mem, s.pageStore)
  let st := BlockStore.fill (2 ^ tidx) psize page psize (s.mem, s.blockStore (tidx - botidx))
  return { s with
    mem := st.1
    pageStore := next
    blockStore := update s.blockStore (tidx - botidx) st.2
    pages := (page, tidx) :: s.pages }

/-- `alloc2` of a type of `size` bytes. -/
def alloc2 (size v : ℕ) : Except Fault (ℕ × SmallBlocks) := do
  let tidx := ceilinglog2 size
  let s ← if (s.blockStore (tidx - botidx)).isNone then s.refill tidx v else pure s
  let (p, next) ← BlockStore.alloc (s.mem, s.blockStore (tidx - botidx))
  return (p, { s with
    blockStore := update s.blockStore (tidx - botidx) next
    live := (tidx, p) :: s.live })

/-- `release2`. -/
def release2 (size p : ℕ) : SmallBlocks :=
  let tidx := ceilinglog2 size
  let st := BlockStore.release (s.mem, s.blockStore (tidx - botidx)) p
  { s with
    mem := st.1
    blockStore := update s.blockStore (tidx - botidx) st.2
    live := s.live.erase (tidx, p) }

inductive Action
  /-- with the page that `map` returns if it is called -/
  | alloc2 (size v : ℕ)
  | release2 (size p : ℕ)
  /-- the owner of a block writes to it -/
  | write (a : ℕ) (word : Option (Option ℕ))

/-- What `map` is trusted to return. -/
def fresh (v : ℕ) : Bool := v % psize == 0 && s.pages.all fun page => page.1 != v

/-- The owner of a block may write to its addresses. -/
def owned (a : ℕ) : Bool := s.live.any fun b => b.2 ≤ a && a < b.2 + 2 ^ b.1

def step : Action → Option SmallBlocks
  | .alloc2 size v => if inRange size && s.fresh v then (s.alloc2 size v).toOption.map Prod.snd
      else none
  | .release2 size p =>
    if inRange size && s.live.contains (ceilinglog2 size, p) then some (s.release2 size p) else none
  | .write a word => if s.owned a then some { s with mem := update s.mem a word } else none

/-! ## Blocks -/

/-- A block of a page that was taken for the size `c`. -/
def IsBlock (pages : List (ℕ × ℕ)) (c p : ℕ) : Prop :=
  ∃ v, (v, c) ∈ pages ∧ v ≤ p ∧ p < v + psize ∧ 2 ^ c ∣ p

/-- Pages are aligned, different, and each has one of the two sizes. -/
structure Pages (pages : List (ℕ × ℕ)) : Prop where
  aligned : ∀ page ∈ pages, psize ∣ page.1
  inRange : ∀ page ∈ pages, botidx ≤ page.2 ∧ page.2 ≤ topidx
  nodup : (pages.map Prod.fst).Nodup

variable {pages : List (ℕ × ℕ)} {c c' p p' v : ℕ}

theorem two_pow_dvd_psize (hc : c ≤ topidx) : 2 ^ c ∣ psize :=
  Nat.pow_dvd_pow 2 (hc.trans (by decide))

/-- A block ends where its page ends at the latest. -/
theorem block_le (hv : psize ∣ v) (hc : c ≤ topidx) (hp : 2 ^ c ∣ p) (hlt : p < v + psize) :
    p + 2 ^ c ≤ v + psize := by
  obtain ⟨m, rfl⟩ := hp
  obtain ⟨k, hk⟩ : 2 ^ c ∣ v + psize :=
    Nat.dvd_add ((two_pow_dvd_psize hc).trans hv) (two_pow_dvd_psize hc)
  rw [hk] at hlt ⊢
  have hmk : m < k := Nat.lt_of_mul_lt_mul_left hlt
  calc 2 ^ c * m + 2 ^ c = 2 ^ c * (m + 1) := rfl
    _ ≤ 2 ^ c * k := Nat.mul_le_mul_left _ hmk

/-- Multiples that are less than `n` apart are the same. -/
theorem eq_of_dvd_of_lt {n x y : ℕ} (hx : n ∣ x) (hy : n ∣ y) (hxy : x < y + n) (hyx : y < x + n) :
    x = y := by
  obtain ⟨i, rfl⟩ := hx
  obtain ⟨j, rfl⟩ := hy
  have hij : i < j + 1 := Nat.lt_of_mul_lt_mul_left (a := n) (by rw [Nat.mul_succ]; exact hxy)
  have hji : j < i + 1 := Nat.lt_of_mul_lt_mul_left (a := n) (by rw [Nat.mul_succ]; exact hyx)
  rw [show i = j by omega]

/-- **Blocks that overlap are the same**, whatever their sizes. -/
theorem IsBlock.eq_of_overlap (h : IsBlock pages c p) (h' : IsBlock pages c' p')
    (hpages : Pages pages) (hlt : p < p' + 2 ^ c') (hlt' : p' < p + 2 ^ c) : c = c' ∧ p = p' := by
  obtain ⟨v, hv, hle, hltv, hdvd⟩ := h
  obtain ⟨v', hv', hle', hltv', hdvd'⟩ := h'
  have hc : c ≤ topidx := (hpages.inRange _ hv).2
  have hc' : c' ≤ topidx := (hpages.inRange _ hv').2
  have hend := block_le (hpages.aligned _ hv) hc hdvd hltv
  have hend' := block_le (hpages.aligned _ hv') hc' hdvd' hltv'
  obtain rfl : v = v' :=
    eq_of_dvd_of_lt (hpages.aligned _ hv) (hpages.aligned _ hv') (by omega) (by omega)
  have hpage : (v, c) = (v, c') := List.inj_on_of_nodup_map hpages.nodup hv hv' rfl
  obtain rfl := (Prod.mk.inj hpage).2
  exact ⟨rfl, eq_of_dvd_of_lt hdvd hdvd' hlt hlt'⟩

theorem isBlock_cons {q : ℕ} : IsBlock ((v, c') :: pages) c q ↔
    (c = c' ∧ v ≤ q ∧ q < v + psize ∧ 2 ^ c ∣ q) ∨ IsBlock pages c q := by
  constructor
  · rintro ⟨v', hv', hq⟩
    rcases List.mem_cons.mp hv' with heq | hv'
    · cases heq
      exact .inl ⟨rfl, hq⟩
    · exact .inr ⟨v', hv', hq⟩
  · rintro (⟨rfl, hq⟩ | ⟨v', hv', hq⟩)
    · exact ⟨v, by simp, hq⟩
    · exact ⟨v', by simp [hv'], hq⟩

theorem Pages.cons (h : Pages pages) (hv : psize ∣ v) (hother : ∀ page ∈ pages, page.1 ≠ v)
    (hbot : botidx ≤ c) (htop : c ≤ topidx) : Pages ((v, c) :: pages) := by
  refine ⟨List.forall_mem_cons.mpr ⟨hv, h.aligned⟩,
    List.forall_mem_cons.mpr ⟨⟨hbot, htop⟩, h.inRange⟩, List.nodup_cons.mpr ⟨?_, h.nodup⟩⟩
  rw [List.mem_map]
  rintro ⟨page, hin, heq⟩
  exact hother page hin heq

/-- A block of another page is not in a new page. -/
theorem Pages.off_fresh {q : ℕ} (h : Pages pages) (hv : psize ∣ v)
    (hother : ∀ page ∈ pages, page.1 ≠ v) (hq : IsBlock pages c q) : q < v ∨ v + psize ≤ q := by
  obtain ⟨v', hv', hle, hlt, -⟩ := hq
  by_contra hin
  exact hother _ hv' (eq_of_dvd_of_lt (h.aligned _ hv') hv (by dsimp only; omega)
    (by dsimp only; omega))

/-- The blocks of a page, as `fill` counts them. -/
theorem mem_page_iff (hv : 2 ^ c ∣ v) (hc : c ≤ topidx) :
    (∃ j < psize / 2 ^ c, p = v + j * 2 ^ c) ↔ v ≤ p ∧ p < v + psize ∧ 2 ^ c ∣ p := by
  have hpos : 0 < 2 ^ c := Nat.two_pow_pos c
  obtain ⟨m, hm⟩ := two_pow_dvd_psize hc
  rw [hm, Nat.mul_div_cancel_left m hpos]
  constructor
  · rintro ⟨j, hj, rfl⟩
    have hlt : j * 2 ^ c < 2 ^ c * m := by rw [mul_comm]; exact Nat.mul_lt_mul_of_pos_left hj hpos
    exact ⟨Nat.le_add_right _ _, by omega, Nat.dvd_add hv (Nat.dvd_mul_left _ _)⟩
  · rintro ⟨hle, hlt, hdvd⟩
    obtain ⟨j, hj⟩ : 2 ^ c ∣ p - v := Nat.dvd_sub hdvd hv
    refine ⟨j, Nat.lt_of_mul_lt_mul_left (a := 2 ^ c) (by omega), ?_⟩
    rw [mul_comm j]
    omega

/-! ## The invariant -/

/-- **Every block is in use or on its stack.** -/
structure Inv (s : SmallBlocks) : Prop where
  pages : Pages s.pages
  empty : s.pageStore = none
  isBlock : ∀ b ∈ s.live, IsBlock s.pages b.1 b.2
  nodup : s.live.Nodup
  free : ∀ c, botidx ≤ c → c ≤ topidx → ∃ l, Chain s.mem (s.blockStore (c - botidx)) l ∧ l.Nodup ∧
    ∀ p, p ∈ l ↔ IsBlock s.pages c p ∧ (c, p) ∉ s.live

variable {s s' : SmallBlocks} {size a : ℕ}

theorem inv_init : Inv init :=
  ⟨⟨by simp [init], by simp [init], List.nodup_nil⟩, rfl, by simp [init], List.nodup_nil,
    fun _ _ _ =>
    ⟨[], rfl, List.nodup_nil, by simp [init, IsBlock]⟩⟩

theorem inRange_iff : inRange size = true ↔ botidx ≤ ceilinglog2 size ∧
      ceilinglog2 size ≤ topidx := by
  simp [inRange]

/-- Different sizes have different stacks. -/
theorem store_ne (hc : botidx ≤ c) (hc' : botidx ≤ c') (hne : c ≠ c') :
    c - botidx ≠ c' - botidx := by omega

theorem fresh_iff : s.fresh v = true ↔ psize ∣ v ∧ ∀ page ∈ s.pages, page.1 ≠ v := by
  simp [fresh, Nat.dvd_iff_mod_eq_zero]

/-- `release2` of a block in use. -/
theorem Inv.release2 (h : Inv s) (hsize : inRange size = true)
    (hp : (ceilinglog2 size, p) ∈ s.live) : Inv (s.release2 size p) := by
  obtain ⟨hbot, htop⟩ := inRange_iff.mp hsize
  have hblock := h.isBlock _ hp
  generalize hc : ceilinglog2 size = c at *
  refine ⟨h.pages, h.empty, fun b hb => ?_, h.nodup.erase _, fun c' hbot' htop' => ?_⟩
  · rw [SmallBlocks.release2, hc] at hb
    exact h.isBlock b (List.mem_of_mem_erase hb)
  · obtain ⟨l, hchain, hnodup, hmem⟩ := h.free c' hbot' htop'
    rw [SmallBlocks.release2, hc]
    by_cases hcc : c' = c
    · subst hcc
      have hpl : p ∉ l := fun hin => ((hmem p).mp hin).2 hp
      refine ⟨p :: l, ?_, List.nodup_cons.mpr ⟨hpl, hnodup⟩, fun q => ?_⟩
      · dsimp only
        rw [update_self]
        exact BlockStore.release_chain (t := (s.mem, _)) hchain hpl
      · rw [List.mem_cons, hmem, h.nodup.mem_erase_iff]
        by_cases hqp : q = p
        · simp [hqp, hblock]
        · simp [hqp]
    · refine ⟨l, ?_, hnodup, fun q => ?_⟩
      · dsimp only
        rw [update_of_ne (store_ne hbot' hbot hcc)]
        refine hchain.congr fun q hq => update_of_ne ?_ ..
        rintro rfl
        exact hcc (((hmem q).mp hq).1.eq_of_overlap hblock h.pages (by simp) (by simp)).1
      · rw [hmem, h.nodup.mem_erase_iff]
        simp [hcc]

/-- What the owner of a block writes is not on a stack. -/
theorem Inv.write (h : Inv s) (ha : s.owned a = true) (word : Option (Option ℕ)) :
    Inv { s with mem := update s.mem a word } := by
  refine { h with free := fun c hbot htop => ?_ }
  obtain ⟨l, hchain, hnodup, hmem⟩ := h.free c hbot htop
  refine ⟨l, hchain.congr fun q hq => update_of_ne ?_ .., hnodup, hmem⟩
  rintro rfl
  obtain ⟨⟨c', p⟩, hlive, hin⟩ := List.any_eq_true.mp ha
  simp only [Bool.and_eq_true, decide_eq_true_eq] at hin
  obtain ⟨hblock, hnot⟩ := (hmem q).mp hq
  have hpos : 0 < 2 ^ c := Nat.two_pow_pos c
  obtain ⟨rfl, rfl⟩ :=
    hblock.eq_of_overlap (h.isBlock _ hlive) h.pages hin.2 (by dsimp only at hin ⊢; omega)
  exact hnot hlive

/-- The top of a stack is handed out. -/
theorem Inv.pop (h : Inv s) (hsize : inRange size = true)
    (hsome : s.blockStore (ceilinglog2 size - botidx) ≠ none) :
    ∃ p next, BlockStore.alloc (s.mem, s.blockStore (ceilinglog2 size - botidx)) = .ok (p, next) ∧
      Inv { s with
        blockStore := update s.blockStore (ceilinglog2 size - botidx) next
        live := (ceilinglog2 size, p) :: s.live } := by
  obtain ⟨hbot, htop⟩ := inRange_iff.mp hsize
  generalize ceilinglog2 size = c at *
  obtain ⟨l, hchain, hnodup, hmem⟩ := h.free c hbot htop
  cases l with
  | nil => exact absurd (chain_nil.mp hchain) hsome
  | cons p l =>
    obtain ⟨next, halloc, hrest⟩ := BlockStore.alloc_of_chain (t := (s.mem, _)) hchain
    obtain ⟨hblock, hfree⟩ := (hmem p).mp (by simp)
    obtain ⟨hpl, hnodup'⟩ := List.nodup_cons.mp hnodup
    refine ⟨p, next, halloc, h.pages, h.empty, fun b hb => ?_, List.nodup_cons.mpr ⟨hfree, h.nodup⟩,
      fun c' hbot' htop' => ?_⟩
    · rcases List.mem_cons.mp hb with rfl | hb
      · exact hblock
      · exact h.isBlock b hb
    · by_cases hcc : c' = c
      · subst hcc
        refine ⟨l, ?_, hnodup', fun q => ?_⟩
        · dsimp only
          rw [update_self]
          exact hrest
        · have hq := hmem q
          rw [List.mem_cons] at hq
          by_cases hqp : q = p
          · simp [hqp, hpl]
          · simpa [hqp] using hq
      · obtain ⟨l', hchain', hnodup₂, hmem'⟩ := h.free c' hbot' htop'
        refine ⟨l', ?_, hnodup₂, fun q => ?_⟩
        · dsimp only
          rw [update_of_ne (store_ne hbot' hbot hcc)]
          exact hchain'
        · rw [hmem']
          simp [hcc]

/-- What `refill` does to an empty stack: the stack holds the blocks of the page, and nothing else
is written. -/
theorem Inv.refill_eq (h : Inv s) (htop : c ≤ topidx) (hv : psize ∣ v)
    (hnone : s.blockStore (c - botidx) = none) : ∃ mem top l, s.refill c v = .ok { s with
        mem := mem, pageStore := none, blockStore := update s.blockStore (c - botidx) top,
        pages := (v, c) :: s.pages } ∧
      Chain mem top l ∧ l.Nodup ∧ (∀ q, q ∈ l ↔ v ≤ q ∧ q < v + psize ∧ 2 ^ c ∣ q) ∧
      ∀ q, q < v ∨ v + psize ≤ q → mem q = s.mem q := by
  have hcv : 2 ^ c ∣ v := (two_pow_dvd_psize htop).trans hv
  -- the page goes through the page store
  have hcheck : s.check v = { s with mem := update s.mem v (some none), pageStore := some v } := by
    rw [check, h.empty]
    rfl
  have hpage : BlockStore.alloc (update s.mem v (some none), some v) = .ok (v, none) := by
    simp [BlockStore.alloc]
  obtain ⟨l, hchain, hnodup, hmem, hframe⟩ :=
    BlockStore.fill_spec (S := 2 ^ c) (n := psize) (k := psize / 2 ^ c) (p := v)
      (t := (update s.mem v (some none), none)) (l := []) (Nat.div_le_self _ _) (Nat.two_pow_pos c)
      rfl List.nodup_nil (by simp)
  rw [Nat.div_mul_cancel (two_pow_dvd_psize htop)] at hchain hframe
  simp only [List.not_mem_nil, false_or, mem_page_iff hcv htop] at hmem
  refine ⟨_, _, l, ?_, hchain, hnodup, hmem, fun q hq => ?_⟩
  · rw [SmallBlocks.refill, hcheck]
    simp only [hpage, hnone]
    rfl
  · have hqv : q ≠ v := by
      have : 0 < psize := pagesize_pos 1
      omega
    rw [hframe q hq]
    exact update_of_ne hqv ..

/-- **A new page** for a size of which all blocks are in use. -/
theorem Inv.refill (h : Inv s) (hbot : botidx ≤ c) (htop : c ≤ topidx) (hv : s.fresh v = true)
    (hnone : s.blockStore (c - botidx) = none) :
    ∃ s', s.refill c v = .ok s' ∧ Inv s' ∧ s'.blockStore (c - botidx) ≠ none ∧ s'.live = s.live ∧
      s'.pages = (v, c) :: s.pages := by
  obtain ⟨hdvd, hother⟩ := fresh_iff.mp hv
  obtain ⟨mem, top, l, hres, hchain, hnodup, hmem, hframe⟩ := h.refill_eq htop hdvd hnone
  refine ⟨_, hres,
    ⟨h.pages.cons hdvd hother hbot htop, rfl, fun b hb => isBlock_cons.mpr (.inr (h.isBlock b hb)),
    h.nodup, fun c' hbot' htop' => ?_⟩, ?_, rfl, rfl⟩
  · obtain ⟨l', hchain', hnodup', hmem'⟩ := h.free c' hbot' htop'
    by_cases hcc : c' = c
    · -- the stack was empty, and all blocks of the page are free
      subst hcc
      rw [hnone, chain_none] at hchain'
      subst hchain'
      refine ⟨l, by simpa using hchain, hnodup, fun q => ?_⟩
      rw [hmem, isBlock_cons]
      constructor
      · intro hq
        refine ⟨.inl ⟨rfl, hq⟩, fun hlive => ?_⟩
        have hoff : q < v ∨ v + psize ≤ q := h.pages.off_fresh hdvd hother (h.isBlock _ hlive)
        omega
      · rintro ⟨⟨-, hq⟩ | hq, hfree⟩
        · exact hq
        · exact absurd ((hmem' q).mpr ⟨hq, hfree⟩) (by simp)
    · refine ⟨l', ?_, hnodup', fun q => by simp [hmem', isBlock_cons, hcc]⟩
      dsimp only
      rw [update_of_ne (store_ne hbot' hbot hcc)]
      exact hchain'.congr fun q hq => hframe q (h.pages.off_fresh hdvd hother ((hmem' q).mp hq).1)
  · dsimp only
    rw [update_self]
    rintro rfl
    obtain rfl := chain_none.mp hchain
    have hcv : 2 ^ c ∣ v := (two_pow_dvd_psize htop).trans hdvd
    exact absurd ((hmem v).mpr ⟨le_rfl, Nat.lt_add_of_pos_right (pagesize_pos 1), hcv⟩) (by simp)

/-- **`alloc2`** returns a block, of a new page only if all others are in use. -/
theorem Inv.alloc2 (h : Inv s) (hsize : inRange size = true) (hv : s.fresh v = true) :
    ∃ p s', s.alloc2 size v = .ok (p, s') ∧ Inv s' ∧ s'.live = (ceilinglog2 size, p) :: s.live ∧
      (s'.pages = s.pages ∨ s'.pages = (v, ceilinglog2 size) :: s.pages ∧
        ∀ q, IsBlock s.pages (ceilinglog2 size) q → (ceilinglog2 size, q) ∈ s.live) := by
  obtain ⟨hbot, htop⟩ := inRange_iff.mp hsize
  cases hstore : s.blockStore (ceilinglog2 size - botidx) with
  | none =>
    obtain ⟨s₁, hres, h₁, hsome, hlive, hpages⟩ := h.refill hbot htop hv hstore
    obtain ⟨p, next, halloc, h'⟩ := h₁.pop hsize hsome
    refine ⟨p, _, ?_, h', congrArg _ hlive, .inr ⟨hpages, fun q hq => ?_⟩⟩
    · rw [SmallBlocks.alloc2, hstore]
      show (s.refill _ v).bind _ = _
      rw [hres]
      show (BlockStore.alloc _).bind _ = _
      rw [halloc]
      rfl
    · obtain ⟨l, hchain, -, hmem⟩ := h.free _ hbot htop
      rw [hstore, chain_none] at hchain
      by_contra hfree
      have hin := (hmem q).mpr ⟨hq, hfree⟩
      simp [hchain] at hin
  | some top =>
    obtain ⟨p, next, halloc, h'⟩ := h.pop hsize (by simp [hstore])
    refine ⟨p, _, ?_, h', rfl, .inl rfl⟩
    rw [SmallBlocks.alloc2, hstore]
    show (BlockStore.alloc _).bind _ = _
    rw [halloc]
    rfl

theorem Inv.step {action : Action} (h : Inv s) (hstep : s.step action = some s') : Inv s' := by
  cases action with
  | alloc2 size v =>
    rw [SmallBlocks.step] at hstep
    split_ifs at hstep with hpre
    obtain ⟨hsize, hv⟩ := Bool.and_eq_true_iff.mp hpre
    obtain ⟨p, s₁, halloc, h₁, -⟩ := h.alloc2 hsize hv
    rw [halloc] at hstep
    cases hstep
    exact h₁
  | release2 size p =>
    rw [SmallBlocks.step] at hstep
    split_ifs at hstep with hpre
    obtain ⟨hsize, hlive⟩ := Bool.and_eq_true_iff.mp hpre
    cases hstep
    exact h.release2 hsize (by simpa using hlive)
  | write a word =>
    rw [SmallBlocks.step] at hstep
    split_ifs at hstep with hpre
    cases hstep
    exact h.write hpre word

/-- **Blocks in use are disjoint, and none is lost**, over any calls. -/
theorem blocks_sound {as : List Action} (hrun : run step init as = some s) :
    (s.live.Pairwise fun b b' => b.2 + 2 ^ b.1 ≤ b'.2 ∨ b'.2 + 2 ^ b'.1 ≤ b.2) ∧
    (∀ b ∈ s.live, 2 ^ b.1 ∣ b.2 ∧ ∃ page ∈ s.pages, page.1 ≤ b.2 ∧
      b.2 + 2 ^ b.1 ≤ page.1 + psize) ∧
    ∀ size v, 0 < size → size < wordSize → inRange size = true → s.fresh v = true →
      ∃ p s', s.alloc2 size v = .ok (p, s') ∧
        s'.live = (ceilinglog2 size, p) :: s.live ∧ size ≤ 2 ^ ceilinglog2 size ∧
        (s'.pages = s.pages ∨ s'.pages = (v, ceilinglog2 size) :: s.pages ∧
          ∀ q, IsBlock s.pages (ceilinglog2 size) q → (ceilinglog2 size, q) ∈ s.live) := by
  have h : Inv s := invariant Inv.step inv_init hrun
  refine ⟨?_, fun b hb => ?_, fun size v hpos hlt hsize hv => ?_⟩
  · refine List.Pairwise.imp_of_mem ?_ h.nodup
    intro b b' hb hb' hne
    by_contra hoverlap
    rw [not_or, not_le, not_le] at hoverlap
    obtain ⟨hc, hp⟩ :=
      (h.isBlock b hb).eq_of_overlap (h.isBlock b' hb') h.pages hoverlap.2 hoverlap.1
    exact hne (Prod.ext hc hp)
  · obtain ⟨v, hv, hle, hlt, hdvd⟩ := h.isBlock b hb
    exact ⟨hdvd, _, hv, hle, block_le (h.pages.aligned _ hv) (h.pages.inRange _ hv).2 hdvd hlt⟩
  · obtain ⟨p, s', halloc, -, hlive, hpages⟩ := h.alloc2 hsize hv
    exact ⟨p, s', halloc, hlive, le_two_pow_ceilinglog2 hpos hlt, hpages⟩

/-- A block of each size, and one of them comes back. -/
theorem blocks_sound_reused :
    ∃ s, run step init [.alloc2 48 4096, .alloc2 100 8192, .write 8128 none, .alloc2 64 12288,
        .release2 48 8128, .alloc2 40 12288] = some s ∧
      s.live = [(6, 8128), (6, 8064), (7, 12160)] ∧
      s.live.Pairwise fun b b' => b.2 + 2 ^ b.1 ≤ b'.2 ∨ b'.2 + 2 ^ b'.1 ≤ b.2 :=
  exists_run_and (by decide +kernel) fun _ hrun _ => (blocks_sound hrun).1

end SmallBlocks

end Kos
