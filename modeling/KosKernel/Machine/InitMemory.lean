import KosKernel.Generic.BitmapSets
import KosKernel.Generic.RegionSet
import KosKernel.Kernel.FrameManager
import Mathlib.Order.Interval.Set.OrdConnectedComponent

/-!
# Machine/InitMemory — the memory that the frame manager starts with

`Machine::initBSP` collects the AVAILABLE entries of the multiboot memory map in a `RegionSet`,
rounds the regions inward to whole pages, carves out the kernel and the boot code of the other
processors, takes 2MB blocks for the frame manager's own bitmaps, and passes what is left to
`frameManager.releaseRegion`.

Rounding can turn a region that holds no whole page inside out.  Such a region is neither dropped by
`insert` nor touched by `remove`, and its size wraps (`released_iff`).
-/

namespace Kos

open RegionSet

/-- `multiboot_memory_map_t`. -/
structure MemoryMap where
  addr : ℕ
  len : ℕ
  type : ℕ

/-- `MULTIBOOT_MEMORY_AVAILABLE`. -/
def memoryAvailable : ℕ := 1

/-- `kernelps`. -/
def kernelps : ℕ := pagesize 2

/-- `kerneltop`, where the last 512GB begin. -/
def kerneltop : ℕ := pagesize pagelevels * (pagetableentries - 1) ||| lnot (2 ^ pagebits - 1)

/-- `bootHeapSize`. -/
def bootHeapSize : ℕ := 16 * pagesize 1

/-- `getSize`: the bytes that `largeFrames` needs for memory up to `top`. -/
def FrameManager.getSize (top : ℕ) : ℕ := HierarchicalBitmap.allocsize 8 (divup top dps)

/-- What the linker and the boot loader have put into memory. -/
structure BootImage where
  /-- the end of the multiboot information and the modules -/
  mbiEnd : ℕ
  /-- `&boot16End - &boot16Begin` -/
  boot16 : ℕ
  mbiEnd_pos : 0 < mbiEnd
  /-- the sum of two 32-bit numbers -/
  mbiEnd_lt : mbiEnd < 2 ^ 33
  boot16_pos : 0 < boot16
  boot16_lt : boot16 < 2 ^ 32

namespace BootImage

/-! ## The code -/

/-- From `__KernelBoot` to `kernelEnd`, as physical addresses. -/
def kernel (b : BootImage) : MemRegion ℕ := ⟨0x100000, alignUp b.mbiEnd kernelps⟩

/-- The place that the 16-bit boot code is copied to. -/
def boot16Region (b : BootImage) : MemRegion ℕ := ⟨0x1000, 0x1000 + alignUp b.boot16 (pagesize 1)⟩

/-- `Multiboot::getMemory`. -/
def getMemory (entries : List MemoryMap) : RegionSet ℕ :=
  entries.foldl (fun rs m =>
    if m.type = memoryAvailable ∧ 0 < m.len then rs.insert ⟨m.addr, wadd m.addr m.len⟩ else rs) []

/-- The whole pages of a region. -/
def rounded (r : MemRegion ℕ) : MemRegion ℕ :=
  ⟨alignUp r.start (pagesize 1), alignDown r.stop (pagesize 1)⟩

/-- `mem`, before anything is removed. -/
def collect (entries : List MemoryMap) : RegionSet ℕ :=
  (getMemory entries).foldl (fun mem r => mem.insert (rounded r)) []

/-- The loop over `mem.retrieve`, where `initStart` is the first argument times `kernelps`. -/
def takeBlocks (fmStart : ℕ) : ℕ → RegionSet ℕ → Except Fault (List ℕ × RegionSet ℕ)
  | 0, mem => .ok ([], mem)
  | n + 1, mem =>
    if fmStart < (n + 1) * kernelps + bootHeapSize then
      if (mem.retrieve kernelps).1 = topaddr then .error .kassert
      else (takeBlocks fmStart n (mem.retrieve kernelps).2).map fun p =>
    ((mem.retrieve kernelps).1 :: p.1, p.2)
    else .ok ([], mem)

/-- `initBSP`, up to the initialisation of the frame manager: the blocks taken, and `mem`. -/
def initBSP (b : BootImage) (entries : List MemoryMap) : Except Fault (List ℕ × RegionSet ℕ) :=
  match (collect entries).remove b.kernel with
  | none => .error .kassert
  | some mem =>
    match mem.remove b.boot16Region with
    | none => .error .kassert
    | some mem =>
      match mem.getLast? with
      | none => .error .kassert
      | some last =>
        -- `Paging::bootstrap` has room for `MAXKERNSIZE` bytes
        if 2 ^ 30 < b.kernel.stop then .error .kassert
        else takeBlocks (wsub kerneltop (FrameManager.getSize last.stop)) (kerneltop / kernelps) mem

/-- The arguments of the calls of `releaseRegion`. -/
def released (mem : RegionSet ℕ) : List (ℕ × ℕ) := mem.map fun r => (r.start, wsub r.stop r.start)

/-! ## What should be released -/

/-- The addresses in AVAILABLE entries. -/
def available (entries : List MemoryMap) : Set ℕ :=
  {a | ∃ m ∈ entries, m.type = memoryAvailable ∧ a ∈ Set.Ico m.addr (m.addr + m.len)}

/-- The addresses of a frame. -/
def page (f : ℕ) : Set ℕ := Set.Ico (pagesize 1 * f) (pagesize 1 * (f + 1))

/-- The addresses that are in use when the frame manager starts. -/
def inUse (b : BootImage) (blocks : List ℕ) : Set ℕ :=
  b.kernel.addrs ∪ b.boot16Region.addrs ∪ {a | ∃ c ∈ blocks, a ∈ Set.Ico c (c + kernelps)}

/-- **What `releaseRegion` should be called with.** -/
structure Exact (b : BootImage) (entries : List MemoryMap) (blocks : List ℕ)
    (regions : List (ℕ × ℕ)) : Prop where
  aligned : ∀ p ∈ regions, p.1 % pagesize 1 = 0 ∧ p.2 % pagesize 1 = 0
  nonempty : ∀ p ∈ regions, 0 < p.2
  disjoint :
    regions.Pairwise fun p q => Disjoint (Set.Ico p.1 (p.1 + p.2)) (Set.Ico q.1 (q.1 + q.2))
  frames : ∀ f, (∃ p ∈ regions, page f ⊆ Set.Ico p.1 (p.1 + p.2)) ↔
    page f ⊆ available entries ∧ Disjoint (page f) (b.inUse blocks)

/-- Every maximal range of available addresses has a whole page. -/
def WholePages (entries : List MemoryMap) : Prop :=
  ∀ a ∈ available entries, ∃ f, page f ⊆ (available entries).ordConnectedComponent a

/-! ## Collecting -/

variable {b : BootImage} {entries : List MemoryMap} {mem mem' : RegionSet ℕ} {r : MemRegion ℕ}
  {S : Set ℕ}

/-- The entries lie below the largest physical address. -/
def Bounded (entries : List MemoryMap) : Prop := ∀ m ∈ entries, m.addr + m.len ≤ 2 ^ 52

/-- **`getMemory`** holds the available addresses, in valid regions. -/
theorem getMemory_spec (h : Bounded entries) :
    Apart (getMemory entries) ∧ Valid (getMemory entries) ∧
      cover (getMemory entries) = available entries := by
  induction entries using List.reverseRecOn with
  | nil => exact ⟨.nil, by simp [Valid, getMemory], by ext a; simp [getMemory, available]⟩
  | append_singleton entries m ih =>
    obtain ⟨hl, hv, hc⟩ := ih fun m' hm' => h m' (by simp [hm'])
    have hm : m.addr + m.len ≤ 2 ^ 52 := h m (by simp)
    have hadd : wadd m.addr m.len = m.addr + m.len := wadd_of_lt (by unfold wordSize; omega)
    have havail : available (entries ++ [m]) =
        {a | m.type = memoryAvailable ∧ a ∈ Set.Ico m.addr (m.addr + m.len)} ∪
          available entries := by
      ext a
      simp [available, or_and_right, exists_or, or_comm]
    rw [getMemory, List.foldl_append, List.foldl_cons, List.foldl_nil, ← getMemory, havail, ← hc]
    split_ifs with hin
    · rw [hadd]
      obtain ⟨hl', hv', hc'⟩ :=
        insert_spec (r := ⟨m.addr, m.addr + m.len⟩) hl hv (by simpa using hin.2)
      refine ⟨hl', hv', hc'.trans ?_⟩
      simp [MemRegion.addrs, hin.1]
      rfl
    · refine ⟨hl, hv, ?_⟩
      have hempty : {a | m.type = memoryAvailable ∧ a ∈ Set.Ico m.addr (m.addr + m.len)} = ∅ := by
        ext a
        simp only [Set.mem_ofPred_eq, Set.mem_Ico, Set.mem_empty_iff_false, iff_false]
        rintro ⟨ht, hle, hlt⟩
        exact hin ⟨ht, by omega⟩
      rw [hempty, Set.empty_union]

theorem start_lt_of_bounded (h : Bounded entries) (hr : r ∈ getMemory entries) :
    r.start < r.stop ∧ r.stop ≤ 2 ^ 52 := by
  obtain ⟨-, hv, hc⟩ := getMemory_spec h
  have hlt : r.start < r.stop := hv r hr
  -- the last address of `r` is in an entry
  obtain ⟨m, hm, -, hmem⟩ : r.stop - 1 ∈ available entries := by
    rw [← hc]
    exact ⟨r, hr, by simp only [MemRegion.addrs, Set.mem_Ico]; omega⟩
  have := h m hm
  have := hmem.2
  omega

/-- Rounding, in numbers. -/
theorem rounded_eq (hr : r.start ≤ 2 ^ 52) (hr' : r.stop ≤ 2 ^ 52) :
    (rounded r).start = (r.start + 4095) / 4096 * 4096 ∧ (rounded r).stop = r.stop / 4096 * 4096 :=
  ⟨alignUp_eq (k := 12) (by unfold wordSize; omega) (by omega),
    alignDown_eq (k := 12) (by unfold wordSize; omega) (by omega)⟩

/-- **`collect`** has one region for each region of `getMemory`. -/
theorem collect_eq (h : Bounded entries) : collect entries = (getMemory entries).map rounded ∧
    Apart (collect entries) := by
  have happart : Apart ((getMemory entries).map rounded) := by
    refine List.pairwise_map.mpr ((getMemory_spec h).1.imp_of_mem fun {x y} hx hy hxy => ?_)
    obtain ⟨hx₁, hx₂⟩ := start_lt_of_bounded h hx
    obtain ⟨hy₁, hy₂⟩ := start_lt_of_bounded h hy
    rw [(rounded_eq (by omega) hx₂).2, (rounded_eq (by omega) hy₂).1, (rounded_eq (by omega) hy₂).2]
    omega
  have heq : collect entries = (getMemory entries).map rounded := by
    rw [← foldl_insert happart, List.foldl_map]
    rfl
  exact ⟨heq, heq ▸ happart⟩

/-! ## Carving -/

/-- What is left of the collected regions when `S` is taken. -/
structure Left (entries : List MemoryMap) (S : Set ℕ) (mem : RegionSet ℕ) : Prop where
  apart : Apart mem
  cover : cover mem = RegionSet.cover (collect entries) \ S
  mem_iff : ∀ x : MemRegion ℕ, ¬ x.start < x.stop → (x ∈ mem ↔ x ∈ collect entries)
  ends : ∀ x ∈ mem, (x.start % 4096 = 0 ∧ x.start ≤ 2 ^ 52) ∧ x.stop % 4096 = 0 ∧ x.stop ≤ 2 ^ 52

theorem left_collect (h : Bounded entries) : Left entries ∅ (collect entries) := by
  refine ⟨(collect_eq h).2, by simp, fun _ _ => Iff.rfl, fun x hx => ?_⟩
  rw [(collect_eq h).1] at hx
  obtain ⟨r, hr, rfl⟩ := List.mem_map.mp hx
  obtain ⟨hlt, hle⟩ := start_lt_of_bounded h hr
  rw [(rounded_eq (by omega) hle).1, (rounded_eq (by omega) hle).2]
  omega

theorem Left.carve (h : Left entries S mem) (hc : Carves mem r mem') (hstart : r.start % 4096 = 0)
    (hstop : r.stop % 4096 = 0) (hle : r.start ≤ r.stop) (hmax : r.stop ≤ 2 ^ 52) :
    Left entries (S ∪ r.addrs) mem' := by
  refine ⟨hc.apart, ?_, fun x hx => (hc.mem_iff x hx).trans (h.mem_iff x hx), ?_⟩
  · rw [hc.cover, h.cover, Set.sdiff_sdiff]
  · exact hc.ends (fun a => a % 4096 = 0 ∧ a ≤ 2 ^ 52) ⟨hstart, hle.trans hmax⟩ ⟨hstop, hmax⟩ h.ends

theorem Left.remove (h : Left entries S mem) (hr : r.start < r.stop) (hstart : r.start % 4096 = 0)
    (hstop : r.stop % 4096 = 0) (hrem : mem.remove r = some mem') :
    Left entries (S ∪ r.addrs) mem' := by
  obtain ⟨pre, t, post, rfl, -, hle, -⟩ := remove_eq_some h.apart hr hrem
  have ht := (h.ends t (by simp)).2.2
  exact h.carve (remove_spec h.apart hr hrem) hstart hstop hr.le (hle.trans ht)

theorem takeBlocks_left {fmStart n : ℕ} {blocks : List ℕ} (h : Left entries S mem)
    (heq : takeBlocks fmStart n mem = .ok (blocks, mem')) :
    Left entries (S ∪ {a | ∃ c ∈ blocks, a ∈ Set.Ico c (c + kernelps)}) mem' := by
  induction n generalizing S mem mem' blocks with
  | zero =>
    cases heq
    simpa using h
  | succ n ih =>
    rw [takeBlocks] at heq
    split_ifs at heq with hmore htop
    · obtain ⟨⟨blocks', mem''⟩, hrest, hpair⟩ := Fault.map_eq_ok heq
      cases hpair
      obtain ⟨hmod, ⟨x, hx, hstop⟩, hc⟩ := retrieve_spec (k := 21) (by omega) h.apart
        (fun x hx => by have := (h.ends x hx).1.2; unfold wordSize; omega) rfl htop
      have hmax := hstop.trans (h.ends x hx).2.2
      have hleft := ih (h.carve hc (by dsimp only; omega) (by dsimp only; omega)
        (by dsimp only; omega) hmax) hrest
      rw [Set.union_assoc] at hleft
      convert hleft using 2
      ext a
      simp [MemRegion.addrs, kernelps]
      rfl
    · cases heq
      simpa using h

/-- The image's regions consist of whole pages. -/
theorem kernel_bounds (b : BootImage) : b.kernel.start < b.kernel.stop ∧ b.kernel.start % 4096 = 0 ∧
    b.kernel.stop % 4096 = 0 := by
  have hstop : b.kernel.stop = (b.mbiEnd + 2 ^ 21 - 1) / 2 ^ 21 * 2 ^ 21 :=
    alignUp_eq (k := 21) (by have := b.mbiEnd_lt; unfold wordSize; omega) (by omega)
  have hpos := b.mbiEnd_pos
  have hstart : b.kernel.start = 0x100000 := rfl
  omega

theorem boot16Region_bounds (b : BootImage) : b.boot16Region.start < b.boot16Region.stop ∧
    b.boot16Region.start % 4096 = 0 ∧ b.boot16Region.stop % 4096 = 0 := by
  have hup : alignUp b.boot16 (pagesize 1) = (b.boot16 + 4095) / 4096 * 4096 :=
    alignUp_eq (k := 12) (by have := b.boot16_lt; unfold wordSize; omega) (by omega)
  have hstart : b.boot16Region.start = 0x1000 := rfl
  have hstop : b.boot16Region.stop = 0x1000 + alignUp b.boot16 (pagesize 1) := rfl
  have hpos := b.boot16_pos
  omega

variable {blocks : List ℕ}

/-- **`initBSP`** takes out what is in use, and nothing else. -/
theorem initBSP_left (h : Bounded entries) (hinit : b.initBSP entries = .ok (blocks, mem)) :
    Left entries (b.inUse blocks) mem := by
  rw [initBSP] at hinit
  split at hinit
  · cases hinit
  rename_i mem₁ hkernel
  split at hinit
  · cases hinit
  rename_i mem₂ hboot
  split at hinit
  · cases hinit
  split_ifs at hinit
  obtain ⟨hk, hks, hke⟩ := b.kernel_bounds
  obtain ⟨hb, hbs, hbe⟩ := b.boot16Region_bounds
  have hleft :=
    takeBlocks_left
    (((left_collect h).remove hk hks hke hkernel).remove hb hbs hbe hboot) hinit
  rwa [Set.empty_union] at hleft

/-! ## Whole pages -/

variable {f : ℕ}

/-- A page within a region lies within its rounded region. -/
theorem page_subset_rounded_iff (hr : r.start ≤ 2 ^ 52) (hr' : r.stop ≤ 2 ^ 52) :
    page f ⊆ (rounded r).addrs ↔ page f ⊆ r.addrs := by
  obtain ⟨hs, he⟩ := rounded_eq hr hr'
  have hpage : ∀ s e : ℕ, page f ⊆ Set.Ico s e ↔ s ≤ 4096 * f ∧ 4096 * (f + 1) ≤ e := fun s e =>
    Set.Ico_subset_Ico_iff (by show 4096 * f < 4096 * (f + 1); omega)
  rw [MemRegion.addrs, MemRegion.addrs, hpage, hpage, hs, he]
  omega

theorem rounded_valid_iff (hr : r.start ≤ 2 ^ 52) (hr' : r.stop ≤ 2 ^ 52) :
    (rounded r).start < (rounded r).stop ↔ ∃ f, page f ⊆ r.addrs := by
  obtain ⟨hs, he⟩ := rounded_eq hr hr'
  rw [hs, he]
  constructor
  · intro hlt
    refine ⟨(r.start + 4095) / 4096, Set.Ico_subset_Ico ?_ ?_⟩
    · show r.start ≤ 4096 * _
      omega
    · show 4096 * _ ≤ r.stop
      omega
  · rintro ⟨f, hf⟩
    obtain ⟨h₁, h₂⟩ := (Set.Ico_subset_Ico_iff (by show 4096 * f < 4096 * (f + 1); omega)).mp hf
    have h₁ : r.start ≤ 4096 * f := h₁
    have h₂ : 4096 * (f + 1) ≤ r.stop := h₂
    omega

/-- The maximal ranges of available addresses are the regions of `getMemory`. -/
theorem ordConnectedComponent_eq (h : Bounded entries) (hr : r ∈ getMemory entries) {a : ℕ}
    (ha : a ∈ r.addrs) : (available entries).ordConnectedComponent a = r.addrs := by
  obtain ⟨hl, -, hc⟩ := getMemory_spec h
  rw [← hc]
  have hsub : r.addrs ⊆ cover (getMemory entries) := fun x hx => ⟨r, hr, hx⟩
  have hord : r.addrs.OrdConnected := Set.ordConnected_Ico
  refine Set.Subset.antisymm (fun x hx => ?_) (Set.subset_ordConnectedComponent ha hsub)
  -- `a` and `x` are in one region, which can only be `r`
  obtain ⟨y, hy, hmin, hmax⟩ := hl.exists_region inf_le_sup hx
  have hmem : ∀ z ∈ Set.uIcc a x, z ∈ y.addrs := fun z hz => ⟨hmin.trans hz.1, hz.2.trans_lt hmax⟩
  have hya := hmem a Set.left_mem_uIcc
  by_cases hyr : y = r
  · exact hyr ▸ hmem x Set.right_mem_uIcc
  · rcases hl.apart_or hy hr hyr with hlt | hlt
    · exact absurd (hya.2.trans hlt) (not_lt.mpr ha.1)
    · exact absurd (ha.2.trans hlt) (not_lt.mpr hya.1)

/-- **Whole pages everywhere** — exactly then all collected regions are valid. -/
theorem wholePages_iff (h : Bounded entries) : WholePages entries ↔ Valid (collect entries) := by
  obtain ⟨-, hv, hc⟩ := getMemory_spec h
  have hvalid :
      ∀ r ∈ getMemory entries, ((rounded r).start < (rounded r).stop ↔ ∃ f, page f ⊆ r.addrs) :=
    fun r hr =>
      rounded_valid_iff ((hv r hr).le.trans (start_lt_of_bounded h hr).2)
      (start_lt_of_bounded h hr).2
  rw [WholePages, Valid, (collect_eq h).1, List.forall_mem_map]
  constructor
  · intro hw r hr
    have hstart : r.start ∈ r.addrs := Set.left_mem_Ico.mpr (hv r hr)
    obtain ⟨f, hf⟩ := hw r.start (hc ▸ ⟨r, hr, hstart⟩)
    rw [ordConnectedComponent_eq h hr hstart] at hf
    exact (hvalid r hr).mpr ⟨f, hf⟩
  · intro hcol a ha
    rw [← hc] at ha
    obtain ⟨r, hr, har⟩ := ha
    rw [ordConnectedComponent_eq h hr har]
    exact (hvalid r hr).mp (hcol r hr)

theorem page_eq (f : ℕ) : page f = Set.Icc (4096 * f) (4096 * f + 4095) := by
  ext a
  simp only [page, Set.mem_Ico, Set.mem_Icc]
  show 4096 * f ≤ a ∧ a < 4096 * (f + 1) ↔ _
  omega

/-- A page in a set lies in one of its regions. -/
theorem page_subset_cover_iff (hl : Apart mem) : page f ⊆ cover mem ↔
      ∃ x ∈ mem, page f ⊆ x.addrs := by
  constructor
  · intro hsub
    obtain ⟨x, hx, h₁, h₂⟩ := hl.exists_region (by omega) (page_eq f ▸ hsub)
    exact ⟨x, hx, page_eq f ▸ fun a ha => ⟨h₁.trans ha.1, ha.2.trans_lt h₂⟩⟩
  · rintro ⟨x, hx, hsub⟩ a ha
    exact ⟨x, hx, hsub ha⟩

/-- **The collected regions** have the pages that are available. -/
theorem page_subset_collect_iff (h : Bounded entries) :
    page f ⊆ cover (collect entries) ↔ page f ⊆ available entries := by
  obtain ⟨hl, hv, hc⟩ := getMemory_spec h
  rw [← hc, page_subset_cover_iff hl, page_subset_cover_iff (collect_eq h).2, (collect_eq h).1]
  simp only [List.mem_map, exists_exists_and_eq_and]
  refine exists_congr fun r => and_congr_right fun hr => ?_
  exact page_subset_rounded_iff ((hv r hr).le.trans (start_lt_of_bounded h hr).2)
    (start_lt_of_bounded h hr).2

/-! ## The calls of `releaseRegion` -/

/-- **Valid regions** are passed on as they are. -/
theorem exact_of_valid (h : Bounded entries) (hleft : Left entries (b.inUse blocks) mem)
    (hv : Valid mem) : Exact b entries blocks (released mem) := by
  have hsize : ∀ r ∈ mem, r.start + wsub r.stop r.start = r.stop := fun r hr => by
    have hlt := hv r hr
    have hmax := (hleft.ends r hr).2.2
    rw [wsub_of_le (by unfold wordSize; omega) hlt.le]
    omega
  refine ⟨List.forall_mem_map.mpr fun r hr => ?_, List.forall_mem_map.mpr fun r hr => ?_,
    List.pairwise_map.mpr (hleft.apart.imp_of_mem fun {x y} hx hy hxy => ?_), fun f => ?_⟩
  · obtain ⟨⟨hs, -⟩, he, -⟩ := hleft.ends r hr
    have := hsize r hr
    refine ⟨hs, ?_⟩
    show _ % 4096 = 0
    dsimp only
    omega
  · have := hsize r hr
    have := hv r hr
    dsimp only
    omega
  · rw [hsize x hx, hsize y hy]
    exact Set.disjoint_left.mpr fun a hax hay => absurd (hax.2.trans hxy.1) (not_lt.mpr hay.1)
  · rw [← page_subset_collect_iff h, ← Set.subset_sdiff, ← hleft.cover,
      page_subset_cover_iff hleft.apart, released]
    simp only [List.mem_map, exists_exists_and_eq_and]
    refine exists_congr fun r => and_congr_right fun hr => ?_
    rw [hsize r hr]
    rfl

/-- **A region that is not valid** is empty, or its size wraps and it covers memory that does not
exist. -/
theorem not_exact_of_not_valid (h : Bounded entries) (hleft : Left entries (b.inUse blocks) mem)
    (hr : r ∈ mem) (hinv : ¬ r.start < r.stop) : ¬ Exact b entries blocks (released mem) := by
  intro hexact
  have hmem : (r.start, wsub r.stop r.start) ∈ released mem := List.mem_map.mpr ⟨r, hr, rfl⟩
  obtain ⟨⟨-, hs⟩, -, he⟩ := hleft.ends r hr
  have hpos : 0 < wsub r.stop r.start := hexact.nonempty _ hmem
  have hsize : 2 ^ 63 ≤ wsub r.stop r.start := by
    unfold wsub wordSize at *
    omega
  -- the first page above all physical memory
  have hpage : page (2 ^ 40) ⊆ Set.Ico r.start (r.start + wsub r.stop r.start) := by
    rw [page_eq]
    rintro a ⟨h₁, h₂⟩
    exact ⟨by omega, by omega⟩
  obtain ⟨havail, -⟩ := (hexact.frames (2 ^ 40)).mp ⟨_, hmem, hpage⟩
  obtain ⟨m, hm, -, ha⟩ := havail (page_eq _ ▸ Set.left_mem_Icc.mpr (Nat.le_add_right _ _))
  have := h m hm
  have := ha.2
  omega

/-- **The frame manager gets what it should, exactly when every maximal range of available memory
has a whole page.** -/
theorem released_iff (b : BootImage) (entries : List MemoryMap) (h : Bounded entries)
    (blocks : List ℕ) (mem : RegionSet ℕ) (hinit : b.initBSP entries = .ok (blocks, mem)) :
    Exact b entries blocks (released mem) ↔ WholePages entries := by
  have hleft := initBSP_left h hinit
  have hvalid : Valid mem ↔ Valid (collect entries) := by
    refine forall_congr' fun x => ?_
    rw [← not_imp_not, ← not_imp_not (b := x ∈ collect entries)]
    exact forall_congr' fun hx => not_congr (hleft.mem_iff x hx)
  rw [wholePages_iff h, ← hvalid]
  refine ⟨fun hexact r hr => ?_, exact_of_valid h hleft⟩
  by_contra hinv
  exact not_exact_of_not_valid h hleft hr hinv hexact

/-! ## Two memory maps -/

/-- A kernel of 3MB. -/
def smallKernel : BootImage := ⟨0x400000, 0x100, by decide, by decide, by decide, by decide⟩

/-- 640KB below 1MB, with the top kilobyte in use, and 127MB above; the rest of the first MB is
reserved. -/
def pcMap : List MemoryMap := [⟨0, 0x9fc00, 1⟩, ⟨0x9fc00, 0x400, 2⟩, ⟨0x100000, 0x7f00000, 1⟩]

/-- Half a kilobyte more. -/
def oddMap : List MemoryMap := pcMap ++ [⟨0x8000100, 0x200, 1⟩]

theorem getSize_small {top : ℕ} (h : divup top dps < 512) : FrameManager.getSize top = 2 ^ 15 := by
  rw [FrameManager.getSize, HierarchicalBitmap.allocsize, HierarchicalBitmap.size, if_pos (.inl h)]
  rfl

theorem initBSP_of_small (mem₁ mem₂ : RegionSet ℕ) (last : MemRegion ℕ) {res : List ℕ × RegionSet ℕ}
    (hkernel : (collect entries).remove b.kernel = some mem₁)
    (hboot : mem₁.remove b.boot16Region = some mem₂) (hlast : mem₂.getLast? = some last)
    (hsmall : divup last.stop dps < 512) (hmax : ¬ 2 ^ 30 < b.kernel.stop)
    (htake : takeBlocks (wsub kerneltop (2 ^ 15)) (kerneltop / kernelps) mem₂ = .ok res) :
    b.initBSP entries = .ok res := by
  simp only [initBSP, hkernel, hboot, hlast, if_neg hmax, getSize_small hsmall, htake]

theorem initBSP_pcMap : smallKernel.initBSP pcMap =
    .ok ([0x400000], [⟨0, 0x1000⟩, ⟨0x2000, 0x9f000⟩, ⟨0x600000, 0x8000000⟩]) :=
  initBSP_of_small [⟨0, 0x9f000⟩, ⟨0x400000, 0x8000000⟩]
    [⟨0, 0x1000⟩, ⟨0x2000, 0x9f000⟩, ⟨0x400000, 0x8000000⟩]
    ⟨0x400000, 0x8000000⟩ (by decide +kernel) (by decide +kernel) rfl (by decide +kernel)
    (by decide +kernel) rfl

/-- The region at 128MB ends below its start. -/
theorem initBSP_oddMap : smallKernel.initBSP oddMap =
    .ok ([0x400000], [⟨0, 0x1000⟩, ⟨0x2000, 0x9f000⟩, ⟨0x600000, 0x8000000⟩,
      ⟨0x8001000, 0x8000000⟩]) :=
  initBSP_of_small [⟨0, 0x9f000⟩, ⟨0x400000, 0x8000000⟩, ⟨0x8001000, 0x8000000⟩]
    [⟨0, 0x1000⟩, ⟨0x2000, 0x9f000⟩, ⟨0x400000, 0x8000000⟩, ⟨0x8001000, 0x8000000⟩]
    ⟨0x8001000, 0x8000000⟩ (by decide +kernel) (by decide +kernel) rfl (by decide +kernel)
      (by decide +kernel) rfl

/-- Entries that have a whole page each. -/
theorem wholePages_of_entries (h : ∀ m ∈ entries, m.type = memoryAvailable →
    ∃ f, m.addr ≤ 4096 * f ∧ 4096 * f + 4095 < m.addr + m.len) : WholePages entries := by
  rintro a ⟨m, hm, ht, ha⟩
  obtain ⟨f, h₁, h₂⟩ := h m hm ht
  have hsub : Set.Ico m.addr (m.addr + m.len) ⊆ available entries := fun x hx => ⟨m, hm, ht, hx⟩
  refine ⟨f, fun x hx => Set.subset_ordConnectedComponent ha hsub ?_⟩
  rw [page_eq] at hx
  exact ⟨h₁.trans hx.1, hx.2.trans_lt h₂⟩

theorem released_pcMap : ∃ blocks mem, smallKernel.initBSP pcMap = .ok (blocks, mem) ∧
    Exact smallKernel pcMap blocks (released mem) := by
  refine ⟨_, _, initBSP_pcMap,
    (released_iff _ _ ?_ _ _ initBSP_pcMap).mpr (wholePages_of_entries ?_)⟩
  · simp [Bounded, pcMap]
  · simp only [pcMap, List.forall_mem_cons, memoryAvailable]
    exact ⟨fun _ => ⟨1, by omega⟩, by omega, fun _ => ⟨0x200, by omega⟩, by simp⟩

/-- **Half a kilobyte too much**: the last call is for all of memory but one page. -/
theorem released_oddMap : ∃ blocks mem, smallKernel.initBSP oddMap = .ok (blocks, mem) ∧
    (0x8001000, 2 ^ 64 - 0x1000) ∈ released mem ∧
      ¬ Exact smallKernel oddMap blocks (released mem) := by
  have hbounded : Bounded oddMap := by simp [Bounded, oddMap, pcMap]
  refine ⟨_, _, initBSP_oddMap, by decide +kernel, ?_⟩
  exact not_exact_of_not_valid (r := ⟨0x8001000, 0x8000000⟩) hbounded
    (initBSP_left hbounded initBSP_oddMap) (by simp) (by simp)

end BootImage

end Kos
