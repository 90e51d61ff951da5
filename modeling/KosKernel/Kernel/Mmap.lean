import KosKernel.Kernel.AddressSpace
import KosKernel.Kernel.VmRuns

/-!
# Kernel/Mmap — the calls that map a range, down to the system call

`map`, `kmap` and `allocStack` of `kernel/AddressSpace.h`, and `_mmap` of `kernel/syscalls.cc`.  All
of them hand what `getVmRange` returns to `mapPageRegion`.

`getVmRange` reports failure as `topaddr`, and `_mmap` turns `topaddr` into `-ENOMEM`.  In between,
`mapPageRegion` wants a page-aligned address, which `topaddr` is not: `_mmap` never gets to return
`-ENOMEM` (`mmap_ne_enomem`).
-/

namespace Kos

open Paging PageEntry AddressSpace

/-! ## The code -/

/-- The conversion of an `int` or `long` to `mword`. -/
def mword (z : ℤ) : ℕ := (z % wordSize).toNat

/-- `ENOMEM`. -/
def enomem : ℤ := 12

/-- `minimumStack`. -/
def minimumStack : ℕ := pagesize stackpl

namespace Space

/-- `mapPageRegion` on the address space. -/
def mapPageRegion (N : ℕ) (mc : MapCode) (kernel : Bool) (m : Space) (pma vma size : ℕ)
    (type : PageEntry) : Except Fault Space :=
  (AddressSpace.mapPageRegion N mc (!kernel) m.t m.fm pma vma size type).map fun (t, fm) =>
    { m with t, fm }

/-- `map<N,alloc>`. -/
def map (N : ℕ) (alloc kernel : Bool) (m : Space) (addr size prot flags filedes off pma : ℕ) :
    Except Fault (ℕ × Space) :=
  if prot = 0 ∧ flags = 0 ∧ filedes = mword (-1) ∧ off = 0 then
    match m.area.getVmRange N addr size with
    | .error e => .error e
    | .ok (start, size, area) =>
      let mc := if alloc then if kernel then .alloc else .lazy else .noAlloc
      (mapPageRegion N mc kernel { m with area } pma start size data).map (start, ·)
  else .error .kassert

/-- `kmap<N,alloc>`. -/
def kmap (N : ℕ) (alloc kernel : Bool) (m : Space) (addr size pma : ℕ) : Except Fault (ℕ × Space) :=
  match m.area.getVmRange N addr size with
  | .error e => .error e
  | .ok (start, size, area) =>
    (mapPageRegion N (if alloc then .alloc else .noAlloc) kernel { m with area } pma start size
      kernelData).map (start, ·)

/-- `allocStack`. -/
def allocStack (kernel : Bool) (m : Space) (ss : ℕ) : Except Fault (ℕ × Space) :=
  if ss < minimumStack then .error .kassert
  else
    match m.area.getVmRange stackpl 0 (wadd ss stackGuardPage) with
    | .error e => .error e
    | .ok (vma, size, area) =>
      if vma = topaddr ∨ size ≠ wadd ss stackGuardPage then .error .kassert
      else
        match mapPageRegion stackpl .guard kernel { m with area } 0 vma stackGuardPage data with
        | .error e => .error e
        | .ok m =>
          let vma := wadd vma stackGuardPage
          (mapPageRegion stackpl (if kernel then .alloc else .lazy) kernel m 0 vma ss data).map
            (vma, ·)

/-- `_mmap`: the result, the new value of `*addr`, and the address space. -/
def mmap (m : Space) (addr len : ℕ) (protflags fildes off : ℤ) : Except Fault (ℤ × ℕ × Space) :=
  let prot := protflags % 16
  let flags := protflags / 16
  match m.map 1 true false addr len (mword prot) (mword flags) (mword fildes) (mword off) 0 with
  | .error e => .error e
  | .ok (va, m) => if va = topaddr then .ok (-enomem, addr, m) else .ok (0, va, m)

/-! ## The failure value -/

variable {m m' : Space}

/-- What is mapped starts at a page. -/
theorem aligned_of_mapPageRegion {N : ℕ} {mc : MapCode} {kernel : Bool} {pma vma size : ℕ}
    {type : PageEntry} (h : mapPageRegion N mc kernel m pma vma size type = .ok m') :
    vma % pagesize N = 0 := by
  unfold mapPageRegion AddressSpace.mapPageRegion at h
  split at h
  · rename_i hal
    exact aligned_pagesize.mp (Bool.and_eq_true _ _ ▸ hal).1
  · cases h

/-- **`map` does not return `topaddr`.** -/
theorem map_ne_topaddr {N : ℕ} {alloc kernel : Bool} {addr size prot flags filedes off pma va : ℕ}
    (h : m.map N alloc kernel addr size prot flags filedes off pma = .ok (va, m')) :
    va ≠ topaddr := by
  unfold map at h
  split at h
  · split at h
    · cases h
    dsimp only at h
    rename_i start size' area hget
    cases hreg :
      mapPageRegion N (if alloc then if kernel then .alloc else .lazy else .noAlloc) kernel
        { m with area } pma start size' data with
    | error e =>
      rw [hreg] at h
      cases h
    | ok m₁ =>
      rw [hreg] at h
      cases h
      rintro rfl
      exact VmArea.topaddr_mod_ne N (aligned_of_mapPageRegion hreg)
  · cases h

/-- **`_mmap` does not return `-ENOMEM`.** -/
theorem mmap_ne_enomem {addr len va : ℕ} {protflags fildes off : ℤ} :
    m.mmap addr len protflags fildes off ≠ .ok (-enomem, va, m') := by
  intro h
  unfold mmap at h
  dsimp only at h
  split at h
  · cases h
  rename_i va' m₁ hmap
  rw [if_neg (map_ne_topaddr hmap)] at h
  exact absurd (Prod.mk.inj (Except.ok.inj h)).1 (by decide)

end Space

/-- Whole pages that hold `size` bytes are left between `mapBottom` and `mapStart`. -/
def VmArea.RangeLeft (N : ℕ) (a : VmArea) (size : ℕ) : Prop :=
  ∃ start n, start % pagesize N = 0 ∧ a.mapBottom ≤ start ∧ size ≤ n * pagesize N ∧
    start + n * pagesize N ≤ a.mapStart

namespace Space

/-- `_mmap` with `*addr = 0` refuses a request for which there is no range: it returns `-ENOMEM` and
changes neither `*addr` nor anything in the address space. -/
def RefusesMmap (m : Space) (len : ℕ) (protflags fildes off : ℤ) : Prop :=
  ¬ m.area.RangeLeft 1 len → m.mmap 0 len protflags fildes off = .ok (-enomem, 0, m)

/-- **No request is refused**: whatever `_mmap` does when no range is left, it is not to return
`-ENOMEM`. -/
theorem refusesMmap_iff (m : Space) (len : ℕ) (protflags fildes off : ℤ) :
    m.RefusesMmap len protflags fildes off ↔ m.area.RangeLeft 1 len :=
  ⟨fun h => by_contra fun hleft => mmap_ne_enomem (h hleft), fun hleft hnot => absurd hleft hnot⟩

/-- A process of which 4 MB are left, with no frames: none are needed. -/
def smallProcess (fm : FrameManager) : Space :=
  { t := fun _ _ => 0, area := ⟨2 ^ 22, 2 ^ 23, 2 ^ 47⟩, fm, released := [] }

theorem mmap_smallProcess (fm : FrameManager) :
    ¬ (smallProcess fm).RefusesMmap (2 ^ 23) 0 (-1) 0 ∧
    (smallProcess fm).mmap 0 (2 ^ 23) 0 (-1) 0 = .error .kassert ∧
    ¬ (smallProcess fm).RefusesMmap (2 ^ 24) 0 (-1) 0 ∧
    (smallProcess fm).mmap 0 (2 ^ 24) 0 (-1) 0 = .ok (0, 2 ^ 64 - 2 ^ 23, smallProcess fm) := by
  have hnone : ∀ {len}, 2 ^ 22 < len → ¬ (smallProcess fm).RefusesMmap len 0 (-1) 0 := by
    refine fun {len} hlen h => mmap_ne_enomem (h ?_)
    rintro ⟨start, n, -, hbot, hle, htop⟩
    have hbot : 2 ^ 22 ≤ start := hbot
    have htop : start + n * pagesize 1 ≤ 2 ^ 23 := htop
    omega
  have hargs : ∀ len, (smallProcess fm).mmap 0 len 0 (-1) 0 =
      match (smallProcess fm).map 1 true false 0 len 0 0 (mword (-1)) 0 0 with
      | .error e => .error e
      | .ok (va, m) => if va = topaddr then .ok (-enomem, 0, m) else .ok (0, va, m) := fun len => by
    rw [mmap, show mword (0 % 16) = 0 by decide, show mword (0 / 16) = 0 by decide,
      show mword 0 = 0 by decide]
  have hmap : ∀ len, (smallProcess fm).map 1 true false 0 len 0 0 (mword (-1)) 0 0 =
      match (smallProcess fm).area.getVmRange 1 0 len with
      | .error e => .error e
      | .ok (start, size, area) =>
        (mapPageRegion 1 .lazy false { smallProcess fm with area } 0 start size data).map
          (start, ·) :=
    fun len => by rw [map, if_pos ⟨rfl, rfl, rfl, rfl⟩]; rfl
  have hget₁ : VmArea.getVmRange 1 ⟨2 ^ 22, 2 ^ 23, 2 ^ 47⟩ 0 (2 ^ 23) =
      .ok (topaddr, 2 ^ 23, ⟨2 ^ 22, 2 ^ 23, 2 ^ 47⟩) := by rfl
  have hget₂ : VmArea.getVmRange 1 ⟨2 ^ 22, 2 ^ 23, 2 ^ 47⟩ 0 (2 ^ 24) =
      .ok (2 ^ 64 - 2 ^ 23, 2 ^ 24, ⟨2 ^ 22, 2 ^ 23, 2 ^ 47⟩) := by rfl
  refine ⟨hnone (by decide), ?_, hnone (by decide), ?_⟩
  · rw [hargs, hmap, smallProcess, hget₁]
    simp only [mapPageRegion]
    rw [AddressSpace.mapPageRegion, if_neg (by decide)]
    rfl
  · rw [hargs, hmap, smallProcess, hget₂]
    simp only [mapPageRegion]
    rw [AddressSpace.mapPageRegion, if_pos (by decide)]
    rfl

/-- **An exhausted address space.**  A request for 8 MB, with 4 MB left, fails the assertion in
`mapPageRegion`; one for 16 MB makes the start of the range wrap around, and `_mmap` returns 0 with
that start in `*addr` and nothing mapped there. -/
theorem mmap_exhausted :
    ¬ (smallProcess Vm.noFrames).RefusesMmap (2 ^ 23) 0 (-1) 0 ∧
    (smallProcess Vm.noFrames).mmap 0 (2 ^ 23) 0 (-1) 0 = .error .kassert ∧
    ¬ (smallProcess Vm.noFrames).RefusesMmap (2 ^ 24) 0 (-1) 0 ∧
    (smallProcess Vm.noFrames).mmap 0 (2 ^ 24) 0 (-1) 0 =
      .ok (0, 2 ^ 64 - 2 ^ 23, smallProcess Vm.noFrames) :=
  mmap_smallProcess Vm.noFrames

end Space

end Kos
