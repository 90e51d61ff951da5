import KosKernel.Kernel.VmRange
import KosKernel.Kernel.Shootdown

/-!
# Kernel/AddressSpace — mapping and unmapping page by page

The loops of `mapPageRegion` and `unmapPageRegion` of `kernel/AddressSpace.h`, and what
`runInvalidation` does to an item that every core has seen.  A page is unmapped in one of three
ways: directly; by posting an item to `invList`; or, when no other core is active, at once.
-/

namespace Kos

open Paging PageEntry

/-- `AddressSpace::MapCode`. -/
inductive MapCode
  | noAlloc
  | alloc
  | guard
  | lazy
  deriving DecidableEq

/-- The `present` argument of `mapPage`. -/
def MapCode.present : MapCode → Bool
  | .noAlloc | .alloc => true
  | .guard | .lazy => false

/-- The page tables, the dynamic area and the frame manager.  `released` records the addresses that
have been passed to `releaseFrame` or `releaseFrames`. -/
structure Space where
  t : Tables
  area : VmArea
  fm : FrameManager
  released : List ℕ

namespace AddressSpace

/-! ## Mapping -/

/-- The address that an iteration of `mapPageRegion` maps. -/
def frameFor (N : ℕ) (mc : MapCode) (pma : ℕ) (fm : FrameManager) :
    Except Fault (ℕ × FrameManager) :=
  match mc with
  | .noAlloc => .ok (pma, fm)
  | .alloc => fm.allocFrame N
  | .guard => .ok (guardPage.toNat, fm)
  | .lazy => .ok (lazyPage.toNat, fm)

/-- One iteration of `mapPageRegion`; `user` is `!kernel`. -/
def mapPage (N : ℕ) (mc : MapCode) (user : Bool) (t : Tables) (fm : FrameManager) (pma vma : ℕ)
    (type : PageEntry) : Except Fault (Tables × FrameManager) :=
  match frameFor N mc pma fm with
  | .error e => .error e
  | .ok (pma, fm) =>
    if pma = topaddr then .error .kassert
    else
      match map N mc.present t vma (BitVec.ofNat 64 pma)
        (if user then type ||| US else type) fm with
      | .error e => .error e
      | .ok (false, _, _) => .error .kassert
      | .ok (true, t, fm) => .ok (t, fm)

/-- The `for` loop of `mapPageRegion`, over `n` pages. -/
def mapPages (N : ℕ) (mc : MapCode) (user : Bool) :
    ℕ → Tables → FrameManager → ℕ → ℕ → PageEntry → Except Fault (Tables × FrameManager)
  | 0, t, fm, _, _, _ => .ok (t, fm)
  | n + 1, t, fm, pma, vma, type =>
    match mapPage N mc user t fm pma vma type with
    | .error e => .error e
    | .ok (t, fm) => mapPages N mc user n t fm
        (if mc = .noAlloc then pma + pagesize N else pma) (vma + pagesize N) type

section mapping

variable {N n : ℕ} {mc : MapCode} {user : Bool} {t t' : Tables} {fm fm' : FrameManager}
  {pma vma : ℕ} {type : PageEntry}

theorem mapPage_map (h : mapPage N mc user t fm pma vma type = .ok (t', fm')) :
    ∃ a fm₀, frameFor N mc pma fm = .ok (a, fm₀) ∧ a ≠ topaddr ∧
      map N mc.present t vma (BitVec.ofNat 64 a) (if user then type ||| US else type) fm₀ =
        .ok (true, t', fm') := by
  unfold mapPage at h
  split at h
  · cases h
  rename_i a fm₀ hframe
  split at h
  · cases h
  rename_i htop
  split at h
  · cases h
  · cases h
  · rename_i hmap
    cases h
    exact ⟨a, fm₀, hframe, htop, hmap⟩

/-- The first page of a range, and the others. -/
theorem mapPages_cons {r : Tables × FrameManager}
    (h : mapPages N mc user (n + 1) t fm pma vma type = .ok r) :
    ∃ t₁ fm₁, mapPage N mc user t fm pma vma type = .ok (t₁, fm₁) ∧
      mapPages N mc user n t₁ fm₁ (if mc = .noAlloc then pma + pagesize N else pma)
        (vma + pagesize N) type = .ok r := by
  rw [mapPages] at h
  split at h
  · cases h
  · exact ⟨_, _, ‹_›, h⟩

/-- **What a page that is mapped keeps, a range keeps.** -/
theorem mapPages_invariant {P : Tables → FrameManager → Prop}
    (hstep : ∀ {t fm t' fm' pma vma}, P t fm →
      mapPage N mc user t fm pma vma type = .ok (t', fm') → P t' fm') (h : P t fm)
    (hr : mapPages N mc user n t fm pma vma type = .ok (t', fm')) : P t' fm' := by
  induction n generalizing t fm pma vma with
  | zero =>
    cases hr
    exact h
  | succ n ih =>
    obtain ⟨t₁, fm₁, hpage, hr⟩ := mapPages_cons hr
    exact ih (hstep h hpage) hr

end mapping

/-- `mapPageRegion`. -/
def mapPageRegion (N : ℕ) (mc : MapCode) (user : Bool) (t : Tables) (fm : FrameManager)
    (pma vma size : ℕ) (type : PageEntry) : Except Fault (Tables × FrameManager) :=
  if aligned vma (pagesize N) && aligned size (pagesize N) then
    mapPages N mc user ((wadd vma size - vma) / pagesize N) t fm pma vma type
  else .error .kassert

/-! ## Unmapping -/

/-- Is there a frame behind the address that `unmap2` returns? -/
def hasFrame (pma : PageEntry) : Bool := decide (pma ≠ lazyPage ∧ pma ≠ guardPage)

/-- One iteration of `unmapPageRegion`. -/
def unmapPage (N : ℕ) (alloc direct : Bool) (d : InvData) (m : Space) (vma : ℕ) :
    Except Fault (InvData × Space) :=
  if direct then
    match unmap N m.t vma with
    | .error e => .error e
    | .ok (pma, t) =>
      if alloc && hasFrame pma then
        (m.fm.releaseFrame N pma.toNat).map fun fm =>
          (d, { m with t, fm, released := m.released ++ [pma.toNat] })
      else .ok (d, { m with t })
  else
    match unmap1 N true m.t vma with
    | .error e => .error e
    | .ok (none, t) => .ok (d, { m with t })
    | .ok (some pe, t) =>
      if d.activeCores > 1 then .ok (d.post pe vma (pagesize N) alloc, { m with t })
      -- with one core the entry is cleared at once, and nothing else is done
      else .ok (d, { m with t := (unmap2 t pe).2 })

/-- The `for` loop of `unmapPageRegion`, over `n` pages. -/
def unmapPages (N : ℕ) (alloc direct : Bool) :
    ℕ → InvData → Space → ℕ → Except Fault (InvData × Space)
  | 0, d, m, _ => .ok (d, m)
  | n + 1, d, m, vma =>
    match unmapPage N alloc direct d m vma with
    | .error e => .error e
    | .ok (d, m) => unmapPages N alloc direct n d m (vma + pagesize N)

/-- `unmapPageRegion`. -/
def unmapPageRegion (N : ℕ) (alloc direct : Bool) (d : InvData) (m : Space) (vma size : ℕ) :
    Except Fault (InvData × Space) :=
  if aligned vma (pagesize N) && aligned size (pagesize N) then
    unmapPages N alloc direct ((wadd vma size - vma) / pagesize N) d m vma
  else .error .kassert

/-- `unmap<N,alloc>`. -/
def unmap (N : ℕ) (alloc : Bool) (d : InvData) (m : Space) (addr size : ℕ) :
    Except Fault (InvData × Space) :=
  if aligned addr (pagesize N) then
    unmapPageRegion N alloc false d m addr (alignUp size (pagesize N))
  else .error .kassert

/-- `stackpl` and `stackGuardPage`. -/
def stackpl : ℕ := 1
def stackGuardPage : ℕ := pagesize stackpl

/-- `releaseStack`. -/
def releaseStack (d : InvData) (m : Space) (vma ss : ℕ) : Except Fault (InvData × Space) :=
  unmapPageRegion stackpl true false d m (wsub vma stackGuardPage) (wadd ss stackGuardPage)

/-- What `runInvalidation` does to an item whose count has reached zero. -/
def finishItem (m : Space) (it : PageInvalidation) : Except Fault Space :=
  let (pma, t) := unmap2 m.t it.pentry
  if it.alloc && hasFrame pma then
    (m.fm.releaseFrames pma.toNat it.size).map fun fm =>
      { t, fm, area := m.area.putVmRange t it.vma it.size, released := m.released ++ [pma.toNat] }
  else .ok { m with t, area := m.area.putVmRange t it.vma it.size }

/-- `finishItem` as the parameter of the invalidation protocol; a fault stops the kernel. -/
def complete (r : Except Fault Space) (it : PageInvalidation) : Except Fault Space :=
  match r with
  | .error e => .error e
  | .ok m => finishItem m it

end AddressSpace

end Kos
