import KosKernel.Generic.HierarchicalBitmap
import KosKernel.Machine.SpinLock
import Std.Data.TreeMap.Lemmas
import Mathlib.Data.Finset.Basic

/-!
# Kernel/FrameManager — physical frames in two containers

`FrameManager` of `kernel/FrameManager.h`.  A 2MB block that is free as a whole is one bit of the
hierarchical bitmap `largeFrames`; a block that is free in part is a 512-bit bitmap in the ordered
map `smallFrames`.  Blocks migrate: `releaseSmall` moves a block that has become full to
`largeFrames`, and `allocFrame<1>` splits one when no partial block is left.

The two locks are modelled by the bits the lock words hold between calls.  `allocFrame<1>` takes
`lplock` by hand and, when it finds nothing, returns without releasing it.
-/

namespace Kos

open Std

/-- `FrameManager::dpl` and `FrameManager::spl`, the page levels of the two containers. -/
def dpl : ℕ := 2
def spl : ℕ := 1

/-- `FrameManager::dps`, the size of a block. -/
def dps : ℕ := pagesize dpl

/-- `FrameManager::sps`, the size of a frame. -/
def sps : ℕ := pagesize spl

/-- `Bitmap<pagetableentries>`. -/
abbrev FrameBitmap : Type := Bitmap 8

/-- `LFBitmap`; its `bitmaps` array has `lfLevels` entries. -/
abbrev LFBitmap : Type := HierarchicalBitmap 8

/-- `divup(W,logB)` for `LFBitmap`. -/
def lfLevels : ℕ := divup (framebits - pagesizebits dpl) (floorlog2 pagetableentries)

structure FrameManager where
  lplock : Bool
  largeFrames : LFBitmap
  splock : Bool
  smallFrames : TreeMap ℕ FrameBitmap
  bitcount : ℕ

namespace FrameManager

section

variable (fm : FrameManager)

/-- The bitmap of a partial block. -/
def small (i : ℕ) : Option FrameBitmap := fm.smallFrames[i]?

/-- `init`, which fails when the levels do not fit the `bitmaps` array. -/
def init (top : ℕ) : Except Fault FrameManager :=
  let bitcount := divup top dps
  (HierarchicalBitmap.init 8 lfLevels bitcount).elim (.error .outOfBounds) fun largeFrames =>
    .ok { lplock := false, largeFrames, splock := false, smallFrames := ∅, bitcount }

/-- `releaseSmall`; the caller holds `splock`. -/
def releaseSmall (addr size : ℕ) : Except Fault (ℕ × FrameManager) :=
  let idx := addr / dps
  -- `lower_bound`, or `emplace_hint` of an empty bitmap
  let bitmap := (fm.small idx).getD Bitmap.zero
  let start := addr % dps / sps
  let stop := min pagetableentries (start + size / sps)
  let bitmap := (List.range' start (stop - start)).foldl Bitmap.set bitmap
  let len := (stop - start) * sps
  if bitmap.full then
    scopedLock fm.lplock <| .ok (len, { fm with
      smallFrames := fm.smallFrames.erase idx, largeFrames := fm.largeFrames.set idx })
  else .ok (len, { fm with smallFrames := fm.smallFrames.insert idx bitmap })

/-- The end of `allocFrame<1>`: take the first frame of the first partial block. -/
def takeSmall : Except Fault (ℕ × FrameManager) :=
  -- `smallFrames.begin()`
  match fm.smallFrames.minKey? with
  | none => .error .outOfBounds
  | some idx =>
    let bitmap := (fm.small idx).getD Bitmap.zero
    let idx2 := bitmap.findset
    let bitmap := bitmap.clear idx2
    .ok (idx * dps + idx2 * sps, { fm with
      smallFrames := if bitmap.empty then fm.smallFrames.erase idx
        else fm.smallFrames.insert idx bitmap })

/-- `allocFrame<1>`. -/
def allocFrame1 : Except Fault (ℕ × FrameManager) :=
  scopedLock fm.splock <|
    if fm.smallFrames.isEmpty then
      if fm.lplock then .error .spin else
      let idx := fm.largeFrames.findset
      -- the early return leaves `lplock` acquired
      if idx = limit then .ok (topaddr, { fm with lplock := true })
      else takeSmall { fm with
        largeFrames := fm.largeFrames.clear idx
        smallFrames := fm.smallFrames.insert idx Bitmap.filled }
    else takeSmall fm

/-- `allocFrame<2>`. -/
def allocFrame2 : Except Fault (ℕ × FrameManager) :=
  scopedLock fm.lplock <|
    let idx := fm.largeFrames.findset
    if idx = limit then .ok (topaddr, fm)
    else .ok (idx * dps, { fm with largeFrames := fm.largeFrames.clear idx })

/-- `releaseFrame<1>`. -/
def releaseFrame1 (addr : ℕ) : Except Fault FrameManager :=
  if aligned addr (pagesize spl) then
    scopedLock fm.splock <| (fm.releaseSmall addr sps).map Prod.snd
  else .error .kassert

/-- `releaseFrame<2>`. -/
def releaseFrame2 (addr : ℕ) : Except Fault FrameManager :=
  if aligned addr (pagesize dpl) then
    scopedLock fm.lplock <| .ok { fm with largeFrames := fm.largeFrames.set (addr / dps) }
  else .error .kassert

end

/-- `allocFrame<N>`. -/
def allocFrame (N : ℕ) (fm : FrameManager) : Except Fault (ℕ × FrameManager) :=
  if N = spl then fm.allocFrame1 else if N = dpl then fm.allocFrame2 else .error .kassert

/-- `releaseFrame<N>`. -/
def releaseFrame (N : ℕ) (fm : FrameManager) (addr : ℕ) : Except Fault FrameManager :=
  if N = spl then fm.releaseFrame1 addr
  else if N = dpl then fm.releaseFrame2 addr else .error .kassert

/-- `releaseFrames`. -/
def releaseFrames (fm : FrameManager) (addr size : ℕ) : Except Fault FrameManager :=
  if size < dps then fm.releaseFrame1 addr else fm.releaseFrame2 addr

/-- The level of the step of `releaseRegion`: the coarsest page level that both the address and the
remaining size allow. -/
def regionLevel (addr size : ℕ) : ℕ :=
  min (1 + (alignment addr - pageoffsetbits) / pagetablebits)
    (1 + (floorlog2 size - pageoffsetbits) / pagetablebits)

/-- One iteration of `releaseRegion`: the bytes it covers, and the new state. -/
def regionStep (fm : FrameManager) (addr size : ℕ) : Except Fault (ℕ × FrameManager) :=
  if regionLevel addr size < dpl then scopedLock fm.splock (fm.releaseSmall addr size)
  else scopedLock fm.lplock (.ok (dps, { fm with largeFrames := fm.largeFrames.set (addr / dps) }))

/-- The `while` loop of `releaseRegion`, cut off after `fuel` iterations. -/
def regionLoop : ℕ → FrameManager → ℕ → ℕ → Except Fault FrameManager
  | 0, fm, _, size => if size = 0 then .ok fm else .error .diverge
  | fuel + 1, fm, addr, size =>
    if size = 0 then .ok fm else
      match fm.regionStep addr size with
      | .error e => .error e
      | .ok (len, fm') => regionLoop fuel fm' (addr + len) (size - len)

variable (fm : FrameManager)

/-- `releaseRegion`; an iteration that makes progress covers at least one frame. -/
def releaseRegion (addr size : ℕ) : Except Fault FrameManager :=
  if aligned addr sps && aligned size sps then regionLoop (size / sps) fm addr size
  else .error .kassert

/-! ## The abstract state: which frames are free -/

/-- The large bit of a block. -/
def largeFree (i : ℕ) : Prop :=
  i < fm.bitcount ∧ fm.largeFrames.test i = true

/-- Offset `o` of block `i` is free: the block is free as a whole, or its bitmap has the bit. -/
def freeIn (i o : ℕ) : Prop :=
  fm.largeFree i ∨ ∃ b, fm.small i = some b ∧ b.test o = true

/-- **Frame `f` is free.** -/
def free (f : ℕ) : Prop :=
  fm.freeIn (f / pagetableentries) (f % pagetableentries)

/-- No block is in both containers, and no partial block is empty or full. -/
structure Separated (fm : FrameManager) : Prop where
  not_large : ∀ {i b}, fm.small i = some b → ¬ fm.largeFree i
  not_empty : ∀ {i b}, fm.small i = some b → b.empty = false
  not_full : ∀ {i b}, fm.small i = some b → b.full = false

/-- **The invariant of the frame manager.** -/
structure Inv (fm : FrameManager) : Prop extends Separated fm where
  valid : fm.largeFrames.Valid fm.bitcount
  bounded : fm.bitcount < limit
  inRange : ∀ {i b}, fm.small i = some b → i < fm.bitcount
  unlocked : fm.splock = false

end FrameManager

end Kos
