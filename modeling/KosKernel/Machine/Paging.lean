import KosKernel.Kernel.FrameManager

/-!
# Machine/Paging — page tables seen through the recursive window

`Paging` of `machine/Paging.h`.  The recursive entry of the top-level table makes every entry of
level `N` a word of one array, indexed by the virtual address without its low `pagesizebits N` bits
(`getEntry`), so the page tables are a function of a level and an index.  An entry is mapped in the
window only when all entries above it are tables; reading past a missing table is a fault.

`walk` is the common part of `test`, `fault` and of the hardware: the level at which the translation
of an address stops, and the entry found there.
-/

namespace Kos

/-- `Paging::PageEntry`. -/
abbrev PageEntry : Type := BitVec 64

namespace PageEntry

def P : PageEntry := 1#64
def RW : PageEntry := 1#64 <<< 1
def US : PageEntry := 1#64 <<< 2
def PS : PageEntry := 1#64 <<< 7
def G : PageEntry := 1#64 <<< 8
def ADDR : PageEntry := 0x000FFFFFFFFFF000#64
def XD : PageEntry := 1#64 <<< 63

/-- `P.get`. -/
def present (e : PageEntry) : Bool := e.getLsbD 0

/-- `PS.get`. -/
def large (e : PageEntry) : Bool := e.getLsbD 7

/-- `e & ADDR()`. -/
def addr (e : PageEntry) : PageEntry := e &&& ADDR

end PageEntry

open PageEntry

namespace Paging

/-- The values of `PageType` that leaf entries are made of. -/
def code : PageEntry := 0
def roData : PageEntry := XD
def data : PageEntry := XD ||| RW
def kernelData : PageEntry := XD ||| RW ||| G
def pageTable : PageEntry := RW ||| P ||| US

def guardPage : PageEntry := BitVec.ofNat 64 topaddr &&& ADDR
def lazyPage : PageEntry := guardPage - BitVec.ofNat 64 (pagesize 1)

/-- `pagetablepl`. -/
def pagetablepl : ℕ := 1

/-- `isPage<N>`. -/
def isPage (N : ℕ) (e : PageEntry) : Bool := decide (N < pagelevels) && (N == 1 || e.large)

/-- `pageBit<N>`. -/
def pageBit (N : ℕ) : PageEntry := if N > 1 then PS else 0

/-- An entry that points to a table of the next level. -/
def isTable (N : ℕ) (e : PageEntry) : Bool := e.present && !isPage N e

/-- The page tables of an address space, by level and index. -/
abbrev Tables : Type := ℕ → ℕ → PageEntry

/-- The index of `getEntry<N>` in the window. -/
def index (N vma : ℕ) : ℕ := vma % 2 ^ pagebits / pagesize N

/-- `setPE`, through a pointer into the window. -/
def setPE (t : Tables) (pe : ℕ × ℕ) (e : PageEntry) : Tables :=
  fun n i => if (n, i) = pe then e else t n i

/-- Where the translation of an address stops, from level `N` down. -/
def walk (t : Tables) : ℕ → ℕ → ℕ × PageEntry
  | 0, _ => (0, 0)
  | N + 1, vma =>
    let e := t (N + 1) (index (N + 1) vma)
    if isTable (N + 1) e then walk t N vma else (N + 1, e)

/-- The entry of level `N` is mapped in the window. -/
def inWindow (t : Tables) (N vma : ℕ) : Bool := decide ((walk t pagelevels vma).1 ≤ N)

/-- `PageStatus`. -/
inductive PageStatus
  | available
  | unmapped
  | reserved
  | mapped
  deriving DecidableEq

/-- The status `test` gives to the entry it stops at. -/
def status (e : PageEntry) : PageStatus :=
  if e.present then .mapped
  else if e.addr = lazyPage ∨ e.addr = guardPage then .reserved
  else if e.addr = 0 then .available
  else .unmapped

/-- `test`: the size of the page if its status is among those asked for. -/
def test (t : Tables) (vma : ℕ) (s : List PageStatus) : ℕ :=
  let (N, e) := walk t pagelevels vma
  if status e ∈ s then pagesize N else 0

/-- `vtop<N>`: the physical address, on a present page. -/
def vtop (t : Tables) : ℕ → ℕ → Except Fault ℕ
  | 0, _ => .error .kassert
  | N + 1, vma =>
    let e := t (N + 1) (index (N + 1) vma)
    if e.present = false then .error .kassert
    else if isPage (N + 1) e = false then vtop t N vma
    else .ok (e.addr.toNat + vma % pagesize (N + 1))

/-- `unmap1`. -/
def unmap1 (N : ℕ) (async : Bool) (t : Tables) (vma : ℕ) : Except Fault (Option (ℕ × ℕ) × Tables) :=
  if aligned vma (pagesize N) = false then .error .kassert
  else if inWindow t N vma = false then .error .outOfBounds
  else
    let pe := (N, index N vma)
    let e := t N (index N vma)
    if isPage N e = false then .error .kassert
    else if e.present then .ok (some pe, if async then setPE t pe (e &&& ~~~P) else t)
    else if e.addr = lazyPage ∨ e.addr = guardPage then .ok (none, setPE t pe 0)
    else .error .kassert

/-- `unmap2`: the address in the entry, which is cleared. -/
def unmap2 (t : Tables) (pe : ℕ × ℕ) : PageEntry × Tables := ((t pe.1 pe.2).addr, setPE t pe 0)

/-- `unmap`; without an entry, `unmap2` reads through the null pointer. -/
def unmap (N : ℕ) (t : Tables) (vma : ℕ) : Except Fault (PageEntry × Tables) :=
  match unmap1 N false t vma with
  | .error e => .error e
  | .ok (none, _) => .error .outOfBounds
  | .ok (some pe, t) => .ok (unmap2 t pe)

/-- `memset` of the table of level `N` that translates `vma`. -/
def zeroTable (t : Tables) (N vma : ℕ) : Tables :=
  fun n i => if n = N ∧ i / pagetableentries = index (N + 1) vma then 0 else t n i

/-- `mapTable<N>` for `N = pagelevels - d`: make sure that the entry of level `N` is mapped in the
window.  The frame is not checked against `topaddr`; the `memset` of a table at that address
faults. -/
def mapTable : ℕ → Tables → ℕ → FrameManager → Except Fault (Bool × Tables × FrameManager)
  | 0, t, _, fm => .ok (true, t, fm)
  | d + 1, t, vma, fm =>
    match mapTable d t vma fm with
    | .error e => .error e
    | .ok (false, t, fm) => .ok (false, t, fm)
    | .ok (true, t, fm) =>
      let N := pagelevels - (d + 1)
      let e := t (N + 1) (index (N + 1) vma)
      if e.present then .ok (!isPage (N + 1) e, t, fm)
      else
        match fm.allocFrame pagetablepl with
        | .error e => .error e
        | .ok (pma, fm) =>
          if pma = topaddr then .error .outOfBounds
          else .ok (true, zeroTable
            (setPE t (N + 1, index (N + 1) vma) (BitVec.ofNat 64 pma ||| pageTable)) N vma, fm)

/-- `map<N,present>`. -/
def map (N : ℕ) (present : Bool) (t : Tables) (vma : ℕ) (pma type : PageEntry) (fm : FrameManager) :
    Except Fault (Bool × Tables × FrameManager) :=
  if aligned vma (pagesize N) = false then .error .kassert
  else if pma &&& ~~~ADDR ≠ 0 then .error .kassert
  else
    match mapTable (pagelevels - N) t vma fm with
    | .error e => .error e
    | .ok (false, t, fm) => .ok (false, t, fm)
    | .ok (true, t, fm) =>
      if inWindow t N vma = false then .error .outOfBounds
      else if (t N (index N vma)).present then .error .kassert
      else .ok (true, setPE t (N, index N vma)
        (pma ||| type ||| pageBit N ||| if present then P else 0), fm)

/-- `fault`: a lazily mapped page gets its frame. -/
def fault (t : Tables) (vma : ℕ) (fm : FrameManager) :
    Except Fault (Bool × Tables × FrameManager) :=
  let (N, e) := walk t pagelevels vma
  if e.present = false ∧ isPage N e ∧ e.addr = lazyPage then
    match fm.allocFrame N with
    | .error e => .error e
    | .ok (pma, fm) =>
      if pma = topaddr then .error .kassert
      else .ok (true, setPE t (N, index N vma) (BitVec.ofNat 64 pma ||| e &&& ~~~ADDR ||| P), fm)
  else .ok (false, t, fm)

/-- The body of the loop of `clearAll<N>` for the entry `j`, with `clearAll<N-1>` as `below`: the
calls of `releaseFrame` in order, each with its level and address, and the tables. -/
def clearOne (below : ℕ → Tables → List (ℕ × ℕ) × Tables) (N : ℕ) (t : Tables) (j : ℕ) :
    List (ℕ × ℕ) × Tables :=
  let e := t N j
  if e.present = false then ([], setPE t (N, j) 0)
  else if isPage N e then ([(N, e.addr.toNat)], setPE t (N, j) 0)
  else
    let (calls, t) := below (j * pagetableentries) t
    (calls ++ [(pagetablepl, e.addr.toNat)], setPE t (N, j) 0)

/-- The loop of `clearAll<N>` over the `n` entries from index `i` on. -/
def clearLoop (one : Tables → ℕ → List (ℕ × ℕ) × Tables) : ℕ → ℕ → Tables → List (ℕ × ℕ) × Tables
  | _, 0, t => ([], t)
  | i, n + 1, t =>
    let (calls, t) := one t i
    let (rest, t) := clearLoop one (i + 1) n t
    (calls ++ rest, t)

/-- `clearAll<N>`.  Nothing in the walk reads the frame manager. -/
def clearAll : ℕ → ℕ → ℕ → Tables → List (ℕ × ℕ) × Tables
  | 0, _, _, t => ([], t)
  | N + 1, i, n, t => clearLoop
      (clearOne (fun j t => clearAll N j pagetableentries t) (N + 1)) i n t

end Paging

end Kos
