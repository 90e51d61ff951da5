import KosKernel.Kernel.AddressSpace

/-!
# Kernel/Process — processes and the frames behind their pages

The life of a process as far as frames are concerned: its page table is cloned, `Process::exec` maps
the segments of an ELF file, `mmap` and `allocStack` reserve pages, `fault` gives them frames,
`munmap` and `releaseStack` take pages away, and `clearUserPaging` and the destructor of
`AddressSpace` give back what is left.  User pages are all of level 1.

A segment is mapped in place: its file pages are the frames of the boot module, which the frame
manager never owned.
-/

namespace Kos

open Paging PageEntry

/-- `usertop`. -/
def usertop : ℕ := 2 ^ 47

/-! ## `exec` -/

/-- `struct RamFile`: a boot module in physical memory. -/
structure RamFile where
  pma : ℕ
  size : ℕ

/-- The frames of a boot module. -/
def RamFile.frames (rf : RamFile) : Set ℕ :=
  {f | f * sps < rf.pma + rf.size ∧ rf.pma < (f + 1) * sps}

/-- What `exec` reads of an ELF segment; `load` is `get_type() == PT_LOAD`. -/
structure Segment where
  load : Bool
  fileOffset : ℕ
  fileSize : ℕ
  memorySize : ℕ
  virtualAddress : ℕ
  flagW : Bool
  flagX : Bool

namespace Segment

/-- `pageType`. -/
def pageType (seg : Segment) : PageEntry := if seg.flagW then data else if seg.flagX then code
      else roData

/-- `fend` and `mend`. -/
def fend (seg : Segment) : ℕ := wadd seg.virtualAddress seg.fileSize
def mend (seg : Segment) : ℕ := wadd seg.virtualAddress seg.memorySize

end Segment

namespace AddressSpace

/-- `mapDirect<N>` and `allocDirect<N>` check that the address is outside the dynamic area. -/
def mapOutside (N : ℕ) (mc : MapCode) (area : VmArea) (t : Tables) (fm : FrameManager)
    (pma vma size : ℕ) (type : PageEntry) : Except Fault (Tables × FrameManager) :=
  if vma < area.mapBottom ∨ vma > area.mapTop then mapPageRegion N mc true t fm pma vma size type
  else .error .kassert

end AddressSpace

open AddressSpace

/-- The checks of `exec` on a segment. -/
def Segment.valid (rf : RamFile) (seg : Segment) : Bool :=
  decide (wadd seg.fileOffset seg.fileSize ≤ rf.size) && decide (seg.memorySize ≥ seg.fileSize) &&
    decide (wsub seg.virtualAddress (alignDown seg.virtualAddress (pagesize 1)) =
      wsub (wadd rf.pma seg.fileOffset) (alignDown (wadd rf.pma seg.fileOffset) (pagesize 1)))

/-- One iteration of the loop of `Process::exec` over a loadable segment. -/
def execSegment (rf : RamFile) (area : VmArea) (t : Tables) (fm : FrameManager) (seg : Segment) :
    Except Fault (Tables × FrameManager) :=
  if seg.valid rf = false then .error .kassert
  else
    let apma := alignDown (wadd rf.pma seg.fileOffset) (pagesize 1)
    let avma := alignDown seg.virtualAddress (pagesize 1)
    let afend := alignUp seg.fend (pagesize 1)
    let amend := alignUp seg.mend (pagesize 1)
    match mapOutside 1 .noAlloc area t fm apma avma (wsub afend avma) seg.pageType with
    | .error e => .error e
    | .ok (t, fm) =>
      if seg.mend > seg.fend ∧ amend > afend then
        mapOutside 1 .alloc area t fm 0 afend (wsub amend afend) data
      else .ok (t, fm)

/-- The loop of `Process::exec`, with the break it computes. -/
def execSegments (rf : RamFile) (area : VmArea) :
    List Segment → ℕ → Tables → FrameManager → Except Fault (ℕ × Tables × FrameManager)
  | [], currBreak, t, fm => .ok (currBreak, t, fm)
  | seg :: segs, currBreak, t, fm =>
    if seg.load = false then execSegments rf area segs currBreak t fm
    else
      match execSegment rf area t fm seg with
      | .error e => .error e
      | .ok (t, fm) => execSegments rf area segs (max currBreak seg.mend) t fm

/-! ## The system -/

/-- A process.  `pending` are the entries between `unmapPage1` and `unmapPage2`, with whether an
item has been posted for them; `queue` are the calls of `releaseFrame` that `runInvalidation` or
`clearAll` has still to make; `dying` is set by `clearUserPaging`. -/
structure Proc where
  pagetable : ℕ
  t : Tables
  area : VmArea
  pending : List ((ℕ × ℕ) × Bool)
  queue : List (ℕ × ℕ)
  dying : Bool

structure System where
  fm : FrameManager
  proc : ℕ → Option Proc

namespace System

inductive Action
  /-- the constructor of `AddressSpace`, with the kernel half that `cloneKernelPT` copies -/
  | create (p : ℕ) (kernelHalf : Tables)
  | exec (p : ℕ) (rf : RamFile) (segs : List Segment)
  /-- one iteration of `mapPageRegion` for `map` or `allocStack` -/
  | mapPage (p vma : ℕ) (guard : Bool)
  | fault (p vma : ℕ)
  /-- `unmapPage1<1,true>`, and whether an item is posted for a page that was present -/
  | unmapPage (p vma : ℕ) (posted : Bool)
  /-- `unmapPage2` when no other core is active -/
  | unmapPage2 (p : ℕ) (pe : ℕ × ℕ)
  /-- `unmapPage2` in `runInvalidation`, whose `releaseFrames` is still to come -/
  | finish (p : ℕ) (pe : ℕ × ℕ)
  /-- `clearAll` in `clearUserPaging` -/
  | teardown (p : ℕ)
  | release (p : ℕ) (call : ℕ × ℕ)
  /-- the destructor of `AddressSpace` -/
  | delete (p : ℕ)
  /-- calls on behalf of the kernel itself -/
  | kernelAlloc (N : ℕ)
  | kernelRelease (N addr : ℕ)

/-- The number of entries of level `N` in the user half. -/
def userEntries (N : ℕ) : ℕ := usertop / pagesize N

/-- The tables of a new process: nothing in the user half. -/
def cloned (kernelHalf : Tables) : Tables := fun n i => if i < userEntries n then 0
      else kernelHalf n i

/-- A new process with its root at `newpt`. -/
def created (newpt : ℕ) (kernelHalf : Tables) : Proc where
  pagetable := newpt
  t := cloned kernelHalf
  area := ⟨0, 0, 0⟩
  pending := []
  queue := []
  dying := false

variable (s : System)

/-- Replace the tables of a process, and the frame manager. -/
def put (p : ℕ) (q : Proc) (r : Tables × FrameManager) : System :=
  { fm := r.2, proc := Function.update s.proc p (some { q with t := r.1 }) }

/-- What an action of the process `q` does. -/
def actOn (p : ℕ) (q : Proc) : Action → Except Fault System
  | .exec _ rf segs => (execSegments rf q.area segs 0 q.t s.fm).map fun (currBreak, t, fm) =>
      s.put p { q with area := ⟨currBreak, usertop, usertop⟩ } (t, fm)
  | .mapPage _ vma guard =>
      (AddressSpace.mapPage 1 (if guard then .guard else .lazy) true q.t s.fm 0 vma data).map
        (s.put p q)
  | .fault _ vma => (fault q.t vma s.fm).map fun (_, t, fm) => s.put p q (t, fm)
  | .unmapPage _ vma posted => (unmap1 1 true q.t vma).map fun (pe, t) =>
      s.put p { q with pending := pe.toList.map (·, posted) ++ q.pending } (t, s.fm)
  | .unmapPage2 _ pe => .ok (s.put p { q with pending := q.pending.erase (pe, false) }
      ((unmap2 q.t pe).2, s.fm))
  | .finish _ pe =>
      let (pma, t) := unmap2 q.t pe
      .ok (s.put p { q with
        pending := q.pending.erase (pe, true)
        queue := if hasFrame pma then (1, pma.toNat) :: q.queue else q.queue } (t, s.fm))
  | .teardown _ =>
      let r := clearAll pagelevels 0 (userEntries pagelevels) q.t
      .ok (s.put p { q with queue := q.queue ++ r.1, dying := true } (r.2, s.fm))
  | .release _ call => (s.fm.releaseFrame call.1 call.2).map fun fm =>
      s.put p { q with queue := q.queue.erase call } (q.t, fm)
  | .delete _ => (s.fm.releaseFrame pagetablepl q.pagetable).map fun fm =>
      { fm, proc := Function.update s.proc p none }
  | _ => .ok s

/-- The process that an action is about. -/
def Action.pid : Action → Option ℕ
  | .create _ _ | .kernelAlloc _ | .kernelRelease _ _ => none
  | .exec p _ _ | .mapPage p _ _ | .fault p _ | .unmapPage p _ _ | .unmapPage2 p _ | .finish p _
  | .teardown p | .release p _ | .delete p => some p

/-- What an action does. -/
def act : Action → Except Fault System
  | .create p kernelHalf =>
    match s.fm.allocFrame pagetablepl with
    | .error e => .error e
    | .ok (newpt, fm) =>
      -- `map` asserts that the address has no other bits
      if newpt = topaddr then .error .kassert
      else .ok { fm, proc := Function.update s.proc p (some (created newpt kernelHalf)) }
  | .kernelAlloc N => (s.fm.allocFrame N).map fun (_, fm) => { s with fm }
  | .kernelRelease N addr => (s.fm.releaseFrame N addr).map fun fm => { s with fm }
  | a =>
    match a.pid with
    | none => .ok s
    | some p =>
      match s.proc p with
      | none => .error .kassert
      | some q => s.actOn p q a

def step (a : Action) : Option System := (s.act a).toOption

/-- The calls of `releaseFrame` that an action makes, with their level. -/
def releases : Action → List (ℕ × ℕ)
  | .release _ call => [call]
  | .delete p => ((s.proc p).map fun q => (pagetablepl, q.pagetable)).toList
  | .kernelRelease N addr => [(N, addr)]
  | _ => []

end System

end Kos
