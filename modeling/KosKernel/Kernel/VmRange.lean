import KosKernel.Machine.PageWalk
import KosKernel.Lib.Runs

/-!
# Kernel/VmRange — handing out virtual address ranges

`getVmRange` and `putVmRange` of `kernel/AddressSpace.h`, with the code that maps and unmaps the
pages of a range.  Ranges are taken from below `mapStart`; `putVmRange` moves `mapStart` up over the
range that is given back and then over every entry that `Paging::test` reports `Available`.
-/

namespace Kos

open Runs Paging PageEntry

/-! ## The code -/

/-- `mapBottom`, `mapStart` and `mapTop`, protected by `vlock`. -/
structure VmArea where
  mapBottom : ℕ
  mapStart : ℕ
  mapTop : ℕ

namespace VmArea

/-- `getVmRange<N>`: the start (or `topaddr`), the size after rounding, and the new state. -/
def getVmRange (N : ℕ) (a : VmArea) (addr size : ℕ) : Except Fault (ℕ × ℕ × VmArea) :=
  if a.mapBottom < a.mapTop then
    let stop := if addr ≠ 0 then alignUp (wadd addr size) (pagesize N)
      else alignDown a.mapStart (pagesize N)
    let start := alignDown (wsub stop size) (pagesize N)
    if start < a.mapBottom then .ok (topaddr, size, a)
    else .ok (start, wsub stop start, if start < a.mapStart then { a with mapStart := start }
      else a)
  else .error .kassert

/-- The `while` loop of `putVmRange`, cut off after `fuel` iterations. -/
def climb (t : Tables) (mapTop : ℕ) : ℕ → ℕ → ℕ
  | 0, stop => stop
  | fuel + 1, stop =>
    let size := test t stop [.available]
    if size ≠ 0 ∧ wadd stop size ≤ mapTop then climb t mapTop fuel (wadd stop size) else stop

/-- `putVmRange`; each iteration advances by at least one page. -/
def putVmRange (t : Tables) (a : VmArea) (addr size : ℕ) : VmArea :=
  let stop := wadd addr size
  if addr ≤ a.mapStart ∧ stop ≥ a.mapStart then
    { a with mapStart := climb t a.mapTop (a.mapTop / pagesize 1 + 1) stop }
  else a

/-! ## The contract of `getVmRange<N>(0,size)` -/

/-- What the caller of `getVmRange<N>(0,size)` relies on: either nothing is handed out and nothing
changes, or the result is a range of whole pages, at least as long as requested, that lies between
`mapBottom` and the old `mapStart`, and `mapStart` moves to its start. -/
def Granted (N : ℕ) (a : VmArea) (size : ℕ) : Except Fault (ℕ × ℕ × VmArea) → Prop
  | .ok (start, size', a') => (start = topaddr ∧ size' = size ∧ a' = a) ∨
      (start % pagesize N = 0 ∧ a.mapBottom ≤ start ∧ size' % pagesize N = 0 ∧ size ≤ size' ∧
        start + size' ≤ a.mapStart ∧ a' = { a with mapStart := start })
  | .error _ => False

/-- The sizes for which `end - size` does not leave the area by wrapping around: those not above
`mapStart` in whole pages, and those so large that the wrapped difference is below `mapBottom`. -/
def NoWrap (N : ℕ) (a : VmArea) (size : ℕ) : Prop :=
  size ≤ a.mapStart / pagesize N * pagesize N ∨
    wordSize + a.mapStart / pagesize N * pagesize N
      < size + (a.mapBottom + pagesize N - 1) / pagesize N * pagesize N

instance (N : ℕ) (a : VmArea) (size : ℕ) : Decidable (NoWrap N a size) :=
  inferInstanceAs (Decidable (_ ∨ _))

theorem pagesizebits_le {N : ℕ} (hN : N ≤ pagelevels) : pagesizebits N ≤ 64 := by
  simp only [pagesizebits, pageoffsetbits, pagetablebits, pagelevels] at *
  omega

/-- Rounding down falls below a bound exactly below the bound rounded up. -/
theorem div_mul_lt_iff {w b p : ℕ} (hp : 0 < p) : w / p * p < b ↔ w < (b + p - 1) / p * p := by
  rw [← Nat.div_lt_iff_lt_mul hp, Nat.lt_div_iff_mul_lt hp]
  omega

/-- A multiple of the page size survives rounding down from above. -/
theorem le_div_mul {e w p : ℕ} (he : e % p = 0) (h : e ≤ w) : e ≤ w / p * p := by
  rw [← Nat.div_mul_cancel (Nat.dvd_of_mod_eq_zero he)]
  exact Nat.mul_le_mul_right _ (Nat.div_le_div_right h)

/-- `topaddr` is not the start of a page. -/
theorem topaddr_mod_ne (N : ℕ) : topaddr % pagesize N ≠ 0 := by
  intro h
  have hdvd : 2 ∣ topaddr := (dvd_pow_self 2 (by simp [pagesizebits, pageoffsetbits])).trans
    (Nat.dvd_of_mod_eq_zero h)
  exact absurd hdvd (by decide)

/-- `getVmRange<N>(0,size)` with the rounding written as division. -/
theorem getVmRange_zero {N : ℕ} {a : VmArea} {size : ℕ} (hN : N ≤ pagelevels)
    (hw : a.mapStart < wordSize) (hlt : a.mapBottom < a.mapTop) {stop start : ℕ}
    (hstop : stop = a.mapStart / pagesize N * pagesize N)
    (hstart : start = wsub stop size / pagesize N * pagesize N) :
    a.getVmRange N 0 size = if start < a.mapBottom then .ok (topaddr, size, a)
      else .ok (start, wsub stop start,
        if start < a.mapStart then { a with mapStart := start } else a) := by
  have hdown : ∀ {x : ℕ}, x < wordSize → alignDown x (pagesize N) = x / pagesize N * pagesize N :=
    fun hx => alignDown_eq hx (pagesizebits_le hN)
  subst hstart hstop
  simp only [getVmRange, if_pos hlt, ne_eq, not_true_eq_false, if_false, hdown hw,
    hdown (wsub_lt _ _)]

/-- A size that fits below `mapStart` is granted or refused as it should be. -/
theorem granted_of_le {N : ℕ} {a : VmArea} {size : ℕ} (hN : N ≤ pagelevels)
    (hw : a.mapStart < wordSize) (hlt : a.mapBottom < a.mapTop)
    (hfit : size ≤ a.mapStart / pagesize N * pagesize N) :
    Granted N a size (a.getVmRange N 0 size) := by
  have hstop := Nat.div_mul_le_self a.mapStart (pagesize N)
  have hmod := Nat.mul_mod_left (a.mapStart / pagesize N) (pagesize N)
  rw [getVmRange_zero hN hw hlt rfl rfl]
  generalize a.mapStart / pagesize N * pagesize N = stop at *
  rw [wsub_of_le (by omega) hfit]
  have hle := Nat.div_mul_le_self (stop - size) (pagesize N)
  have hmod' := Nat.mul_mod_left ((stop - size) / pagesize N) (pagesize N)
  generalize (stop - size) / pagesize N * pagesize N = start at *
  split
  · exact Or.inl ⟨rfl, rfl, rfl⟩
  · rename_i hbot
    rw [wsub_of_le (by omega) (by omega)]
    refine Or.inr ⟨hmod', by omega, ?_, by omega, by omega, ?_⟩
    · exact Nat.sub_mod_eq_zero_of_mod_eq (hmod.trans hmod'.symm)
    · split
      · rfl
      · obtain rfl : start = a.mapStart := by omega
        rfl

/-- **`getVmRange<N>(0,size)` meets its contract exactly where `end - size` does not wrap around
into the area.**  The assertion moreover wants a non-empty area. -/
theorem getVmRange_granted_iff {N : ℕ} {a : VmArea} {size : ℕ} (hN : N ≤ pagelevels)
    (htop : a.mapStart ≤ a.mapTop) (hw : a.mapTop < wordSize)
    (hpos : 1 ≤ size) (hsize : size < wordSize) :
    Granted N a size (a.getVmRange N 0 size) ↔ a.mapBottom < a.mapTop ∧ NoWrap N a size := by
  by_cases hlt : a.mapBottom < a.mapTop
  · simp only [hlt, true_and, NoWrap]
    by_cases hfit : size ≤ a.mapStart / pagesize N * pagesize N
    · exact iff_of_true (granted_of_le hN (by omega) hlt hfit) (Or.inl hfit)
    · -- the difference wraps around, and its rounding is not below the rounded `mapStart`
      rw [or_iff_right hfit, getVmRange_zero hN (by omega) hlt rfl rfl]
      have hstop := Nat.div_mul_le_self a.mapStart (pagesize N)
      have hmod := Nat.mul_mod_left (a.mapStart / pagesize N) (pagesize N)
      generalize a.mapStart / pagesize N * pagesize N = stop at *
      have hsub : wsub stop size = stop + wordSize - size := Nat.mod_eq_of_lt (by omega)
      have hge := le_div_mul hmod (show stop ≤ wsub stop size by omega)
      have hle := Nat.div_mul_le_self (wsub stop size) (pagesize N)
      have hbelow := div_mul_lt_iff (w := wsub stop size) (b := a.mapBottom) (pagesize_pos N)
      have hmod' := Nat.mul_mod_left (wsub stop size / pagesize N) (pagesize N)
      generalize wsub stop size / pagesize N * pagesize N = start at *
      split
      · rename_i hb
        exact iff_of_true (Or.inl ⟨rfl, rfl, rfl⟩) (by have := hbelow.mp hb; omega)
      · rename_i hb
        refine iff_of_false ?_ (fun hc => hb (hbelow.mpr (by omega)))
        have hlong : wsub stop start = if start = stop then 0 else stop + wordSize - start := by
          rw [wsub]
          split
          · subst start
            rw [Nat.add_sub_cancel_left, Nat.mod_self]
          · exact Nat.mod_eq_of_lt (by omega)
        rintro (⟨rfl, -, -⟩ | ⟨-, -, -, hge', hle', -⟩)
        · exact topaddr_mod_ne N hmod'
        · split at hlong <;> omega
  · refine iff_of_false ?_ (fun h => hlt h.1)
    rw [getVmRange, if_neg hlt]
    exact id

/-- A request of one byte from an area that has room. -/
theorem getVmRange_granted_iff_oneByte :
    NoWrap 1 ⟨2 ^ 20, 2 ^ 30, 2 ^ 30⟩ 1 ∧
      Granted 1 ⟨2 ^ 20, 2 ^ 30, 2 ^ 30⟩ 1 (getVmRange 1 ⟨2 ^ 20, 2 ^ 30, 2 ^ 30⟩ 0 1) :=
  ⟨by decide,
    (getVmRange_granted_iff (by decide) (by decide) (by decide) (by decide) (by decide)).mpr
    ⟨by decide, by decide⟩⟩

/-- **A size above `mapStart` is granted.**  The start lies above the area, `mapStart` stays, and
the range that starts there wraps around the address space. -/
theorem getVmRange_wraps_around :
    getVmRange 1 ⟨2 ^ 20, 2 ^ 30, 2 ^ 30⟩ 0 (2 ^ 31)
      = .ok (2 ^ 64 - 2 ^ 30, 2 ^ 31, ⟨2 ^ 20, 2 ^ 30, 2 ^ 30⟩) ∧
    ¬ Granted 1 ⟨2 ^ 20, 2 ^ 30, 2 ^ 30⟩ (2 ^ 31)
      (getVmRange 1 ⟨2 ^ 20, 2 ^ 30, 2 ^ 30⟩ 0 (2 ^ 31)) := by
  have h : getVmRange 1 ⟨2 ^ 20, 2 ^ 30, 2 ^ 30⟩ 0 (2 ^ 31)
      = .ok (2 ^ 64 - 2 ^ 30, 2 ^ 31, ⟨2 ^ 20, 2 ^ 30, 2 ^ 30⟩) := by rfl
  refine ⟨h, ?_⟩
  rw [h]
  rintro (⟨h, -, -⟩ | ⟨-, -, -, -, h, -⟩)
  · exact absurd h (by decide)
  · exact absurd h (by decide)

end VmArea

/-! ## The system -/

/-- A range that has been handed out.  Its pages are mapped in order, up to `cursor`; `unmapped` are
the pages that have been unmapped and invalidated since. -/
structure VmRange where
  level : ℕ
  start : ℕ
  size : ℕ
  cursor : ℕ
  unmapped : List (ℕ × ℕ)
  deriving DecidableEq

namespace VmRange

/-- The addresses of a range. -/
def mem (r : VmRange) (x : ℕ) : Prop := r.start ≤ x ∧ x < r.start + r.size

/-- The addresses that have not been unmapped and invalidated, mapped or not. -/
def owed (r : VmRange) (x : ℕ) : Prop := r.mem x ∧ ∀ p ∈ r.unmapped, ¬ (p.1 ≤ x ∧ x < p.1 + p.2)

/-- A page of the range is unmapped and invalidated. -/
def mark (v sz : ℕ) (r : VmRange) : VmRange := { r with unmapped := (v, sz) :: r.unmapped }

end VmRange

/-- The state of an address space: its tables, the ranges handed out, the pages whose `P` bit
`unmapPage1` has cleared and whose entry is still to be cleared, and the page whose range an
invalidation under `ulock` is about to give back. -/
structure Vm where
  t : Tables
  area : VmArea
  range : ℕ → Option VmRange
  next : ℕ
  pending : List (ℕ × ℕ)
  putting : Option (ℕ × ℕ)

namespace Vm

/-- The steps of `map`, `kmap`, `allocStack`, of `unmap` and of the invalidations. -/
inductive Action
  /-- `getVmRange<N>(0,size)` -/
  | get (N size : ℕ)
  /-- one iteration of `mapPageRegion` for the range `i`, with the frame manager found at that
  time -/
  | mapPage (i : ℕ) (present : Bool) (pma type : PageEntry) (fm : FrameManager)
  /-- `unmapPage1<N,true>` -/
  | unmapPage (N vma : ℕ)
  /-- `unmapPage2` on the single-core path of `unmapPageRegion` -/
  | unmapPage2 (p : ℕ × ℕ)
  /-- `unmapPage2` in `runInvalidation` -/
  | finish (p : ℕ × ℕ)
  /-- `putVmRange` in `runInvalidation` -/
  | put
  | fault (vma : ℕ) (fm : FrameManager)

/-- The flags of a leaf: no address, and neither `P` nor `PS`. -/
def isFlags (type : PageEntry) : Prop := type &&& (P ||| PS ||| ADDR) = 0

/-- A frame manager that `init` and its own calls can produce. -/
def goodFrames (fm : FrameManager) : Prop := fm.Inv ∧ fm.bitcount ≤ 2 ^ 27

/-- The address of a real frame. -/
def isFrame (pma : PageEntry) : Prop := pma ≠ lazyPage ∧ pma ≠ guardPage

/-- What callers respect: ranges are mapped from their start to their end, with a frame, `guardPage`
or `lazyPage`, and pages are unmapped that belong to a range. -/
def Allowed (s : Vm) : Action → Prop
  | .get N _ => 1 ≤ N ∧ N < pagelevels
  | .mapPage i present pma type _ => isFlags type ∧ (present = true → isFrame pma) ∧
      ∃ r, s.range i = some r ∧ r.cursor < r.start + r.size
  | .unmapPage N vma => 1 ≤ N ∧ N < pagelevels ∧
      ∃ i r, s.range i = some r ∧ r.start ≤ vma ∧ vma + pagesize N ≤ r.start + r.size
  | .unmapPage2 p => p ∈ s.pending
  | .finish p => p ∈ s.pending ∧ s.putting = none
  | .put => s.putting.isSome = true
  | .fault _ fm => goodFrames fm

/-- The page `p` is unmapped and invalidated: its entry is cleared, and no range owes it any
more. -/
def clearEntry (s : Vm) (p : ℕ × ℕ) : Vm :=
  { s with
    t := (unmap2 s.t (p.1, index p.1 p.2)).2
    range := fun i => (s.range i).map (VmRange.mark p.2 (pagesize p.1))
    pending := s.pending.erase p }

/-- What an action does. -/
def act (s : Vm) : Action → Except Fault Vm
  | .get N size =>
    match s.area.getVmRange N 0 size with
    | .error e => .error e
    | .ok (start, size, area) =>
      if start = topaddr then .ok s
      else .ok { s with
        area
        range := Function.update s.range s.next
          (some { level := N, start, size, cursor := start, unmapped := [] })
        next := s.next + 1 }
  | .mapPage i present pma type fm =>
    match s.range i with
    | none => .error .kassert
    | some r =>
      match map r.level present s.t r.cursor pma type fm with
      | .error e => .error e
      | .ok (false, _, _) => .error .kassert
      | .ok (true, t, _) => .ok { s with
          t
          range :=
            Function.update s.range i (some { r with cursor := r.cursor + pagesize r.level }) }
  | .unmapPage N vma =>
    match unmap1 N true s.t vma with
    | .error e => .error e
    | .ok (some _, t) => .ok { s with t, pending := (N, vma) :: s.pending }
    | .ok (none, t) => .ok { s with
        t, range := fun i => (s.range i).map (VmRange.mark vma (pagesize N)) }
  | .unmapPage2 p => .ok (s.clearEntry p)
  | .finish p => .ok { s.clearEntry p with putting := some (p.2, pagesize p.1) }
  | .put =>
    match s.putting with
    | none => .error .kassert
    | some (v, sz) => .ok { s with area := s.area.putVmRange s.t v sz, putting := none }
  | .fault vma fm =>
    match fault s.t vma fm with
    | .error e => .error e
    | .ok (_, t, _) => .ok { s with t }

/-- A step is an action that returns. -/
def step (s : Vm) (a : Action) : Option Vm := (s.act a).toOption

/-- The condition on the state before a step.  When `putVmRange` moves `mapStart`, every address
that is owed to somebody lies behind one that is not available; a range is taken that fits below
`mapStart`. -/
def Clear (s : Vm) : Action → Prop
  | .put => ∀ v sz, s.putting = some (v, sz) → v ≤ s.area.mapStart → s.area.mapStart ≤ wadd v sz →
      ∀ i r x, s.range i = some r → r.owed x → wadd v sz ≤ x →
      ∃ y, wadd v sz ≤ y ∧ y ≤ x ∧ status (walk s.t pagelevels y).2 ≠ .available
  | .get N size => size ≤ alignDown s.area.mapStart (pagesize N)
  | _ => True

/-- No range has been unmapped and invalidated in part only. -/
def Whole (s : Vm) : Prop :=
  ∀ i r, s.range i = some r → (∃ x, r.owed x) → ∀ x, r.mem x → r.owed x

end Vm

end Kos
