import KosKernel.Kernel.UserMemory

/-!
# Kernel/ExecFile — `exec` and the bytes of the file

`Process::exec` maps the frames of the boot module itself, page by page, and gives them the
protection of the segment.  A data segment is therefore writable in the file (`file_overwritten`),
and the bss of a segment starts in the last page of its file range, where `memset` clears what the
file has behind that range.

Where neither happens (`Intact`), the files stay as they are in every run of all processes, and each
`exec` starts from the same memory image (`files_kept`).
-/

namespace Kos

open Function Runs Paging PageEntry AddressSpace FrameManager

namespace Machine

variable {pool files : Set ℕ} {s s' : Machine} {sys : System} {p : ℕ} {q : Proc} {t t' : Tables}
  {fm fm' : FrameManager} {mem mem' : Bytes} {x a n c : ℕ} {mc : MapCode} {type : PageEntry}

/-! ## Pages that `exec` maps -/

variable {pma : ℕ}

/-- A page of a process that is mapped gets its leaf. -/
theorem mapPage_leaf (h : AddressSpace.mapPage 1 mc true t fm pma c type = .ok (t', fm')) :
    ∃ a fm₀, frameFor 1 mc pma fm = .ok (a, fm₀) ∧ a ≠ topaddr ∧ BitVec.ofNat 64 a &&& ~~~ADDR = 0 ∧
      c % pagesize 1 = 0 ∧
      Mapped 1 (leaf 1 mc.present (BitVec.ofNat 64 a) (type ||| US)) t t' c := by
  obtain ⟨a, fm₀, hframe, htop, hmap⟩ := mapPage_map h
  obtain ⟨hal, hbits, hm⟩ := map_spec le_rfl (by decide) hmap
  exact ⟨a, fm₀, hframe, htop, hbits, hal, hm⟩

theorem mapPages_translate (h : mapPages 1 mc true n t fm pma c type = .ok (t', fm'))
    (ha : Paging.translate t x = some a) : Paging.translate t' x = some a := by
  refine mapPages_invariant (P := fun t _ => Paging.translate t x = some a)
    (fun ha hpage => ?_) ha h
  obtain ⟨_, _, -, -, -, -, hm⟩ := mapPage_leaf hpage
  exact hm.translate_kept ha

/-- The addresses of a page that has been mapped. -/
theorem translate_of_mapped (hm : Mapped 1 (leaf 1 true (BitVec.ofNat 64 a) (type ||| US)) t t' c)
    (hal : c % pagesize 1 = 0) (hbits : BitVec.ofNat 64 a &&& ~~~ADDR = 0) (ha : a < wordSize)
    (htype : (type ||| US) &&& (P ||| PS ||| ADDR) = 0) (hx : c ≤ x) (hxc : x < c + pagesize 1) :
    Paging.translate t' x = some (a + (x - c)) := by
  have hps : pagesize 1 = 4096 := rfl
  rw [hps] at hal hxc
  have hpage : x / pagesize 1 = c / pagesize 1 := by
    rw [hps]
    omega
  rw [translate_eq (hm.page x (index_congr (by decide) hpage)), if_pos present_leaf_true,
    addr_leaf hbits htype, BitVec.toNat_ofNat, Nat.mod_eq_of_lt ha, hps]
  refine congrArg _ ?_
  omega

/-- **Pages that are mapped in place.** -/
theorem translate_direct (htype : (type ||| US) &&& (P ||| PS ||| ADDR) = 0)
    (h : mapPages 1 .noAlloc true n t fm pma c type = .ok (t', fm'))
    (hpma : pma + n * pagesize 1 ≤ wordSize) (x : ℕ) (hx : c ≤ x) (hxc : x < c + n * pagesize 1) :
    Paging.translate t' x = some (pma + (x - c)) := by
  induction n generalizing t fm pma c with
  | zero => omega
  | succ n ih =>
    have hpos := pagesize_pos 1
    rw [Nat.succ_mul] at hpma hxc
    obtain ⟨t₁, fm₁, hpage, h⟩ := mapPages_cons h
    obtain ⟨a, fm₀, hframe, -, hbits, hal, hm⟩ := mapPage_leaf hpage
    cases hframe
    rcases lt_or_ge x (c + pagesize 1) with hlt | hge
    · exact mapPages_translate h (translate_of_mapped hm hal hbits (by omega) htype hx hlt)
    · rw [ih h (by rw [if_pos rfl]; omega) hge (by omega), if_pos rfl]
      refine congrArg _ ?_
      omega

/-- **Pages that get frames of their own.** -/
theorem translate_alloc (hfiles : ∀ f ∈ files, f ∉ pool) (hlive : q.dying = false)
    (htype : (type ||| US) &&& (P ||| PS ||| ADDR) = 0)
    (hinv : System.Inv pool files (sys.put p q (t, fm)))
    (h : mapPages 1 .alloc true n t fm pma c type = .ok (t', fm')) (x : ℕ) (hx : c ≤ x)
    (hxc : x < c + n * pagesize 1) : ∃ a, Paging.translate t' x = some a ∧ a / sps ∉ files := by
  induction n generalizing t fm pma c with
  | zero => omega
  | succ n ih =>
    rw [Nat.succ_mul] at hxc
    obtain ⟨t₁, fm₁, hpage, h⟩ := mapPages_cons h
    have hinv₁ := System.inv_mapPage hfiles hlive htype (fun hmc => by cases hmc) hinv hpage
    obtain ⟨a, fm₀, hframe, htop, hbits, hal, hm⟩ := mapPage_leaf hpage
    obtain ⟨-, -, hone⟩ := hinv.frames.alloc hframe
    obtain ⟨g, rfl, hg, hfree, -⟩ := hone rfl htop
    rcases lt_or_ge x (c + pagesize 1) with hlt | hge
    · have hword : g * sps < wordSize := by
        rw [show sps = 4096 from rfl, wordSize]
        omega
      refine ⟨_, mapPages_translate h (translate_of_mapped hm hal hbits hword htype hx hlt), ?_⟩
      rw [show (g * sps + (x - c)) / sps = g by
        rw [show sps = 4096 from rfl]
        rw [show pagesize 1 = 4096 from rfl] at hlt
        omega]
      exact hinv.frames.not_lent hfiles hfree
    · exact ih hinv₁ h hge (by omega)

/-! ## Writable pages -/

/-- No page that the process can write is one of `files`. -/
def Sealed (files : Set ℕ) (t : Tables) : Prop :=
  ∀ i < System.userEntries 1, (t 1 i).present = true → (t 1 i).writable = true →
    frameOf (t 1 i) ∉ files

/-- An entry is replaced. -/
theorem Sealed.setPE (h : Sealed files t) {N j : ℕ} {e : PageEntry}
    (he : N = 1 → e.present = true → e.writable = true → frameOf e ∉ files) :
    Sealed files (setPE t (N, j) e) := by
  intro i hi
  by_cases hij : 1 = N ∧ i = j
  · obtain ⟨rfl, rfl⟩ := hij
    rw [setPE_self]
    exact he rfl
  · rw [setPE_of_ne t e hij]
    exact h i hi

/-- A leaf has the flags of its type. -/
theorem writable_leaf {present : Bool} {pma : PageEntry} (hbits : pma &&& ~~~ADDR = 0) :
    (leaf 1 present pma (type ||| US)).writable = type.writable := by
  have hpma : pma.getLsbD 1 = false := by
    rw [← and_eq_self_of_and_not hbits, BitVec.getLsbD_and, show ADDR.getLsbD 1 = false by decide,
      Bool.and_false]
  have hP : (if present then P else 0).getLsbD 1 = false := by cases present <;> decide
  rw [writable, writable, leaf, BitVec.getLsbD_or, BitVec.getLsbD_or, BitVec.getLsbD_or,
    BitVec.getLsbD_or, hpma, hP,
    show US.getLsbD 1 = false by decide, show (pageBit 1).getLsbD 1 = false by decide]
  simp

theorem Sealed.mapPage (h : Sealed files t) (htype : (type ||| US) &&& (P ||| PS ||| ADDR) = 0)
    (hr : AddressSpace.mapPage 1 mc true t fm pma c type = .ok (t', fm'))
    (hleaf : ∀ a fm₀, frameFor 1 mc pma fm = .ok (a, fm₀) → a ≠ topaddr → mc.present = true →
      type.writable = true → (BitVec.ofNat 64 a).toNat / sps ∉ files) : Sealed files t' := by
  obtain ⟨a, fm₀, t₁, hframe, htop, hbits, htab, -, rfl⟩ := System.mapPage_eq_ok hr
  have h₁ : Sealed files t₁ := by
    intro i hi hp
    rcases mapTable_entry (by decide) i htab with heq | heq
    · rw [heq] at hp ⊢
      exact h i hi hp
    · rw [heq] at hp
      exact absurd hp (by decide)
  refine h₁.setPE fun _ hp hw => ?_
  rw [frameOf, addr_leaf hbits htype]
  rw [present_leaf hbits htype] at hp
  exact hleaf a fm₀ hframe htop hp (writable_leaf hbits ▸ hw)

theorem Sealed.mapPages_direct (hw : type.writable = false)
    (htype : (type ||| US) &&& (P ||| PS ||| ADDR) = 0) (h : Sealed files t)
    (hr : mapPages 1 mc true n t fm pma c type = .ok (t', fm')) : Sealed files t' := by
  refine mapPages_invariant (P := fun t _ => Sealed files t) (fun h hpage => ?_) h hr
  refine h.mapPage htype hpage fun _ _ _ _ _ hw' => ?_
  rw [hw] at hw'
  cases hw'

/-- A frame that has been handed out for a page is no frame of a file. -/
theorem Sealed.mapPage_alloc (hfiles : ∀ f ∈ files, f ∉ pool) (hpool : System.PoolOk pool fm)
    (h : Sealed files t) (htype : (type ||| US) &&& (P ||| PS ||| ADDR) = 0)
    (hr : AddressSpace.mapPage 1 .alloc true t fm pma c type = .ok (t', fm')) :
    Sealed files t' := by
  refine h.mapPage htype hr fun a fm₀ hframe htop _ _ => ?_
  obtain ⟨-, -, hone⟩ := hpool.alloc hframe
  obtain ⟨g, rfl, hg, hfree, -⟩ := hone rfl htop
  rw [(ofNat_frame (hg.trans (by decide))).2, Nat.mul_div_cancel _ sps_pos]
  exact hpool.not_lent hfiles hfree

theorem Sealed.mapPages_alloc (hfiles : ∀ f ∈ files, f ∉ pool) (hlive : q.dying = false)
    (htype : (type ||| US) &&& (P ||| PS ||| ADDR) = 0)
    (hinv : System.Inv pool files (sys.put p q (t, fm))) (h : Sealed files t)
    (hr : mapPages 1 .alloc true n t fm pma c type = .ok (t', fm')) : Sealed files t' := by
  refine (mapPages_invariant
    (P := fun t fm => System.Inv pool files (sys.put p q (t, fm)) ∧ Sealed files t)
    (fun h hpage => ?_) ⟨hinv, h⟩ hr).2
  exact ⟨System.inv_mapPage hfiles hlive htype (fun hmc => by cases hmc) h.1 hpage,
    h.2.mapPage_alloc hfiles h.1.frames htype hpage⟩

/-! ## Segments -/

/-- The bytes of boot modules, and their frames. -/
def fileBytes (fs : Set RamFile) : Set ℕ := {a | ∃ rf ∈ fs, rf.pma ≤ a ∧ a < rf.pma + rf.size}
def fileFrames (fs : Set RamFile) : Set ℕ := {f | ∃ rf ∈ fs, f ∈ rf.frames}

theorem frame_of_byte {fs : Set RamFile} (h : a ∈ fileBytes fs) : a / sps ∈ fileFrames fs := by
  obtain ⟨rf, hrf, h₁, h₂⟩ := h
  refine ⟨rf, hrf, ?_⟩
  rw [RamFile.frames, show sps = 4096 from rfl]
  constructor
  · omega
  · omega

/-- `exec` of a segment leaves the files alone: the segment lies in the user half, it has no page of
its file that is writable, and no byte of a file is in the part of its last file page that is
cleared. -/
structure Intact (fs : Set RamFile) (rf : RamFile) (seg : Segment) : Prop where
  user : seg.virtualAddress + seg.memorySize ≤ usertop
  readOnly : seg.flagW = true → seg.fileSize = 0 ∧ seg.virtualAddress % pagesize 1 = 0
  tail : ∀ k, seg.fileSize ≤ k → k < seg.memorySize →
    seg.virtualAddress + k < alignUp (seg.virtualAddress + seg.fileSize) (pagesize 1) →
    rf.pma + seg.fileOffset + k ∉ fileBytes fs

/-- The pages of a segment: `n` in place from `c` on, and `m` with frames of their own behind
them. -/
structure Pages (rf : RamFile) (seg : Segment) (c n m apma : ℕ) : Prop where
  sizes : seg.fileSize ≤ seg.memorySize ∧ seg.fileOffset + seg.fileSize ≤ rf.size
  start : c ≤ seg.virtualAddress ∧ seg.virtualAddress - c = rf.pma + seg.fileOffset - apma ∧
    apma ≤ rf.pma + seg.fileOffset
  direct : c + n * pagesize 1 = alignUp (seg.virtualAddress + seg.fileSize) (pagesize 1)
  covered : seg.virtualAddress + seg.fileSize ≤ c + n * pagesize 1 ∧
    seg.virtualAddress + seg.memorySize ≤ c + n * pagesize 1 + m * pagesize 1
  fits : apma + n * pagesize 1 ≤ wordSize
  none : seg.fileSize = 0 → seg.virtualAddress % pagesize 1 = 0 → n = 0

theorem alignUp_page (hx : x ≤ usertop) : alignUp x (pagesize 1) = (x + 4095) / 4096 * 4096 :=
  alignUp_eq (k := 12) (by rw [usertop] at hx; rw [wordSize]; omega) (by decide)

theorem alignDown_page_eq {x : ℕ} (hx : x < wordSize) :
    alignDown x (pagesize 1) = x / 4096 * 4096 :=
  alignDown_eq (k := 12) hx (by decide)

theorem valid_iff {rf : RamFile} {seg : Segment} : seg.valid rf = true ↔
    wadd seg.fileOffset seg.fileSize ≤ rf.size ∧ seg.fileSize ≤ seg.memorySize ∧
      wsub seg.virtualAddress (alignDown seg.virtualAddress (pagesize 1)) =
        wsub (wadd rf.pma seg.fileOffset)
      (alignDown (wadd rf.pma seg.fileOffset) (pagesize 1)) := by
  simp [Segment.valid, and_assoc]

/-- Whole pages from `v` to `e`. -/
theorem pages_up {v e : ℕ} (h : v ≤ e) :
    v / 4096 * 4096 + ((e + 4095) / 4096 * 4096 - v / 4096 * 4096) / 4096 * 4096 =
      (e + 4095) / 4096 * 4096 ∧ e ≤ (e + 4095) / 4096 * 4096 ∧
      (e + 4095) / 4096 * 4096 < e + 4096 := by
  omega

/-- The numbers of pages. -/
theorem pages_of_valid {rf : RamFile} {seg : Segment} {m : ℕ} (hrf : rf.pma + rf.size < wordSize)
    (hseg : System.SegmentOk seg) (huser : seg.virtualAddress + seg.memorySize ≤ usertop)
    (hvalid : seg.valid rf = true)
    (hm : seg.virtualAddress + seg.memorySize ≤
      alignUp (seg.virtualAddress + seg.fileSize) (pagesize 1) + m * pagesize 1) :
    Pages rf seg (alignDown seg.virtualAddress (pagesize 1))
      ((alignUp (seg.virtualAddress + seg.fileSize) (pagesize 1) -
        alignDown seg.virtualAddress (pagesize 1)) / pagesize 1) m
      (alignDown (wadd rf.pma seg.fileOffset) (pagesize 1)) := by
  obtain ⟨hsize, hmem, hoff⟩ := valid_iff.mp hvalid
  rw [wadd_of_lt hseg.range] at hsize
  have hpma : rf.pma + seg.fileOffset < wordSize := by omega
  have hup := alignUp_page (x := seg.virtualAddress + seg.fileSize) (by omega)
  have hps : pagesize 1 = 4096 := rfl
  rw [wadd_of_lt hpma, alignDown_page_eq hseg.address, alignDown_page_eq hpma,
    wsub_of_le hseg.address (Nat.div_mul_le_self _ _),
      wsub_of_le hpma (Nat.div_mul_le_self _ _)] at hoff
  rw [wadd_of_lt hpma, alignDown_page_eq hseg.address, alignDown_page_eq hpma, hup, hps]
  rw [hup, hps] at hm
  obtain ⟨hdirect, hle, hlt⟩ := pages_up (Nat.le_add_right seg.virtualAddress seg.fileSize)
  have hnone : seg.fileSize = 0 → seg.virtualAddress % 4096 = 0 →
      ((seg.virtualAddress + seg.fileSize + 4095) / 4096 * 4096 -
        seg.virtualAddress / 4096 * 4096) / 4096 = 0 := by
    intro h₁ h₂
    rw [h₁]
    omega
  refine ⟨⟨hmem, hsize⟩, ⟨Nat.div_mul_le_self _ _, hoff, Nat.div_mul_le_self _ _⟩, ?_, ⟨?_, ?_⟩, ?_,
    hnone⟩
  · rw [hup]
    exact hdirect
  · rw [hps, hdirect]
    exact hle
  · rw [hps, hdirect]
    exact hm
  · -- the last page in place starts below the end of the file
    generalize ((seg.virtualAddress + seg.fileSize + 4095) / 4096 * 4096 -
      seg.virtualAddress / 4096 * 4096) / 4096 = n at *
    rw [hps, show wordSize = 2 ^ 52 * 4096 by decide]
    rw [show wordSize = 2 ^ 52 * 4096 by decide] at hrf
    omega

/-- **The two loops over the pages of a segment.** -/
theorem execSegment_pages {rf : RamFile} {seg : Segment} {area : VmArea}
    (hrf : rf.pma + rf.size < wordSize) (hseg : System.SegmentOk seg)
    (huser : seg.virtualAddress + seg.memorySize ≤ usertop)
    (hr : execSegment rf area t fm seg = .ok (t', fm')) : seg.valid rf = true ∧
    ∃ n m t₁ fm₁, Pages rf seg (alignDown seg.virtualAddress (pagesize 1)) n m
        (alignDown (wadd rf.pma seg.fileOffset) (pagesize 1)) ∧
      n = (wadd (alignDown seg.virtualAddress (pagesize 1)) (wsub (alignUp seg.fend (pagesize 1))
        (alignDown seg.virtualAddress (pagesize 1))) - alignDown seg.virtualAddress (pagesize 1)) /
        pagesize 1 ∧
      mapPages 1 .noAlloc true n t fm (alignDown (wadd rf.pma seg.fileOffset) (pagesize 1))
        (alignDown seg.virtualAddress (pagesize 1)) seg.pageType = .ok (t₁, fm₁) ∧
      mapPages 1 .alloc true m t₁ fm₁ 0
        (alignDown seg.virtualAddress (pagesize 1) + n * pagesize 1) data = .ok (t', fm') := by
  unfold execSegment at hr
  split at hr
  · cases hr
  rename_i hvalid
  have hvalid : seg.valid rf = true := by simpa using hvalid
  have hmem := (valid_iff.mp hvalid).2.1
  have hword : usertop < wordSize := by decide
  have hfend : seg.fend = seg.virtualAddress + seg.fileSize := wadd_of_lt (by omega)
  have hmend : seg.mend = seg.virtualAddress + seg.memorySize := wadd_of_lt (by omega)
  have hupf := alignUp_page (x := seg.virtualAddress + seg.fileSize) (by omega)
  have hupm := alignUp_page huser
  have hdown := alignDown_page_eq hseg.address
  have hps : pagesize 1 = 4096 := rfl
  dsimp only at hr
  split at hr
  · cases hr
  rename_i t₁ fm₁ hfile
  have hpages := System.mapOutside_eq_ok hfile
  have hend : wadd (alignDown seg.virtualAddress (pagesize 1)) (wsub (alignUp seg.fend (pagesize 1))
      (alignDown seg.virtualAddress (pagesize 1))) = alignUp seg.fend (pagesize 1) := by
    refine wadd_wsub ?_ ?_
    · rw [hdown]
      have := hseg.address
      omega
    · rw [hfend, hupf]
      rw [usertop] at huser
      rw [wordSize]
      omega
  refine ⟨hvalid, ?_⟩
  rw [hend]
  rw [hend] at hpages
  split at hr
  · rename_i hbss
    have hend' : wadd (alignUp seg.fend (pagesize 1)) (wsub (alignUp seg.mend (pagesize 1))
        (alignUp seg.fend (pagesize 1))) = alignUp seg.mend (pagesize 1) := by
      rw [hmend, hfend, hupm, hupf]
      rw [usertop] at huser
      refine wadd_wsub ?_ ?_
      · rw [wordSize]
        omega
      · rw [wordSize]
        omega
    have hpages' := System.mapOutside_eq_ok hr
    rw [hend'] at hpages'
    have hP := pages_of_valid
      (m := (alignUp seg.mend (pagesize 1) - alignUp seg.fend (pagesize 1)) / pagesize 1)
      hrf hseg huser hvalid (by
        rw [hmend, hfend, hupm, hupf, hps]
        omega)
    rw [← hfend] at hP
    refine ⟨_, _, t₁, fm₁, hP, rfl, hpages, ?_⟩
    rw [hP.direct, ← hfend]
    exact hpages'
  · rename_i hbss
    obtain ⟨rfl, rfl⟩ := Prod.mk.inj (Except.ok.inj hr)
    have hP := pages_of_valid (m := 0) hrf hseg huser hvalid (by
      rw [hmend, hfend, hupm, hupf] at hbss
      rw [hupf]
      omega)
    rw [← hfend] at hP
    exact ⟨_, 0, t₁, fm₁, hP, rfl, hpages, rfl⟩

theorem writable_pageType (seg : Segment) : seg.pageType.writable = seg.flagW := by
  unfold Segment.pageType
  cases seg.flagW with
  | true =>
    rw [if_pos rfl]
    decide
  | false =>
    rw [if_neg (by decide)]
    cases seg.flagX <;> decide

/-- The files that `exec` may read. -/
structure FilesOk (pool : Set ℕ) (fs : Set RamFile) : Prop where
  outside : ∀ f ∈ fileFrames fs, f ∉ pool
  fits : ∀ rf ∈ fs, rf.pma + rf.size < wordSize

variable {fs : Set RamFile} {rf : RamFile} {seg : Segment} {area : VmArea}

/-- The loops over the pages of a segment, with the invariant between them. -/
theorem execSegment_parts (hfs : FilesOk pool fs) (hrf : rf ∈ fs) (hlive : q.dying = false)
    (hseg : System.SegmentOk seg) (huser : seg.virtualAddress + seg.memorySize ≤ usertop)
    (hinv : System.Inv pool (fileFrames fs) (sys.put p q (t, fm)))
    (hr : execSegment rf area t fm seg = .ok (t', fm')) :
    ∃ c n m apma t₁ fm₁, Pages rf seg c n m apma ∧
      mapPages 1 .noAlloc true n t fm apma c seg.pageType = .ok (t₁, fm₁) ∧
      System.Inv pool (fileFrames fs) (sys.put p q (t₁, fm₁)) ∧
      mapPages 1 .alloc true m t₁ fm₁ 0 (c + n * pagesize 1) data = .ok (t', fm') := by
  obtain ⟨hvalid, n, m, t₁, fm₁, hP, hn, hdirect, halloc⟩ :=
    execSegment_pages (hfs.fits rf hrf) hseg huser hr
  refine ⟨_, n, m, _, t₁, fm₁, hP, hdirect, ?_, halloc⟩
  exact System.inv_mapPages hfs.outside hlive (System.pageType_flags seg) n
    (fun _ k hk => ⟨rf, hrf, System.frame_mem_frames hseg (hfs.fits rf hrf) hvalid (hn ▸ hk)⟩) hinv
      hdirect

/-- The addresses of a segment, and who owns the bytes behind them. -/
theorem execSegment_translate (hfs : FilesOk pool fs) (hrf : rf ∈ fs) (hlive : q.dying = false)
    (hseg : System.SegmentOk seg) (huser : seg.virtualAddress + seg.memorySize ≤ usertop)
    (hinv : System.Inv pool (fileFrames fs) (sys.put p q (t, fm)))
    (hr : execSegment rf area t fm seg = .ok (t', fm')) (k : ℕ) (hk : k < seg.memorySize) :
    (seg.virtualAddress + k < alignUp (seg.virtualAddress + seg.fileSize) (pagesize 1) →
      Paging.translate t' (seg.virtualAddress + k) = some (rf.pma + seg.fileOffset + k)) ∧
    (alignUp (seg.virtualAddress + seg.fileSize) (pagesize 1) ≤ seg.virtualAddress + k →
      ∃ a, Paging.translate t' (seg.virtualAddress + k) = some a ∧ a / sps ∉ fileFrames fs) := by
  obtain ⟨c, n, m, apma, t₁, fm₁, hP, hdirect, hinv₁, halloc⟩ :=
    execSegment_parts hfs hrf hlive hseg huser hinv hr
  obtain ⟨hstart, hoff, hle⟩ := hP.start
  have hcovered := hP.covered.2
  rw [← hP.direct]
  constructor
  · intro hlt
    have ha :=
      translate_direct (System.pageType_flags seg) hdirect hP.fits (seg.virtualAddress + k)
      (by omega) hlt
    rw [mapPages_translate halloc ha]
    refine congrArg _ ?_
    omega
  · intro hge
    exact translate_alloc hfs.outside hlive (by decide) hinv₁ halloc (seg.virtualAddress + k) hge
      (by omega)

/-- **A segment in memory**: its file bytes in place, and zeros behind them. -/
def Placed (rf : RamFile) (seg : Segment) (t : Tables) (mem : Bytes) : Prop :=
  ∀ k < seg.memorySize, ∃ a, Paging.translate t (seg.virtualAddress + k) = some a ∧
    (k < seg.fileSize → a = rf.pma + seg.fileOffset + k ∧ seg.fileOffset + k < rf.size) ∧
    (seg.fileSize ≤ k → mem a = 0)

/-- What `exec` does to the translations and the bytes that are there. -/
structure Adds (fs : Set RamFile) (t t' : Tables) (mem mem' : Bytes) : Prop where
  kept : ∀ {x a}, Paging.translate t x = some a → Paging.translate t' x = some a
  cleared : ∀ a, mem' a = mem a ∨ mem' a = 0
  files : ∀ a ∈ fileBytes fs, mem' a = mem a

theorem Adds.trans {t'' : Tables} {mem'' : Bytes} (h : Adds fs t t' mem mem')
    (h' : Adds fs t' t'' mem' mem'') : Adds fs t t'' mem mem'' := by
  refine ⟨fun ha => h'.kept (h.kept ha), fun a => ?_,
    fun a ha => (h'.files a ha).trans (h.files a ha)⟩
  rcases h'.cleared a with heq | hzero
  · rw [heq]
    exact h.cleared a
  · exact .inr hzero

theorem Placed.adds (h : Placed rf seg t mem) (hadds : Adds fs t t' mem mem') :
    Placed rf seg t' mem' := by
  intro k hk
  obtain ⟨a, ha, hfile, hbss⟩ := h k hk
  refine ⟨a, hadds.kept ha, hfile, fun hge => ?_⟩
  rcases hadds.cleared a with heq | hzero
  · rw [heq, hbss hge]
  · exact hzero

/-- **One segment**: the bytes of the files stay, and the segment is in memory. -/
theorem loadSegment_spec (hfs : FilesOk pool fs) (hrf : rf ∈ fs) (hlive : q.dying = false)
    (hseg : System.SegmentOk seg) (hintact : Intact fs rf seg)
    (hinv : System.Inv pool (fileFrames fs) (sys.put p q (t, fm)))
    (hr : loadSegment rf area t fm mem seg = .ok (t', fm', mem')) :
    Adds fs t t' mem mem' ∧ Placed rf seg t' mem' := by
  obtain ⟨hexec, hbss⟩ := loadSegment_eq_ok hr
  have hwhere := execSegment_translate hfs hrf hlive hseg hintact.user hinv hexec
  obtain ⟨c, n, m, apma, t₁, fm₁, hP, hdirect, -, halloc⟩ :=
    execSegment_parts hfs hrf hlive hseg hintact.user hinv hexec
  have hkept : ∀ {x a}, Paging.translate t x = some a → Paging.translate t' x = some a := fun ha =>
    mapPages_translate halloc (mapPages_translate hdirect ha)
  obtain ⟨hsizes, hrange⟩ := hP.sizes
  have hcovered := hP.covered.1
  rw [hP.direct] at hcovered
  have hword : usertop < wordSize := by decide
  have huser := hintact.user
  have hfend : seg.fend = seg.virtualAddress + seg.fileSize := wadd_of_lt (by omega)
  have hmend : seg.mend = seg.virtualAddress + seg.memorySize := wadd_of_lt (by omega)
  rw [hfend, hmend] at hbss
  have hfile : ∀ k < seg.fileSize, Paging.translate t' (seg.virtualAddress + k) =
      some (rf.pma + seg.fileOffset + k) :=
    fun k hk => (hwhere k (by omega)).1 (by omega)
  rcases hbss with ⟨hle, rfl⟩ | ⟨hlt, hfilled⟩
  · refine ⟨⟨hkept, fun a => .inl rfl, fun _ _ => rfl⟩, fun k hk => ?_⟩
    exact ⟨_, hfile k (by omega), fun _ => ⟨rfl, by omega⟩, fun hge => by omega⟩
  · rw [show seg.virtualAddress + seg.memorySize - (seg.virtualAddress + seg.fileSize) =
      seg.memorySize - seg.fileSize by omega] at hfilled
    have hshift :
        ∀ j, seg.virtualAddress + seg.fileSize + j = seg.virtualAddress + (seg.fileSize + j) :=
      fun j => by omega
    refine ⟨⟨hkept, fun a => (hfilled.changed a).imp_right And.left, fun a ha => ?_⟩,
      fun k hk => ?_⟩
    · rcases hfilled.changed a with heq | ⟨-, j, hj, haj⟩
      · exact heq
      · -- what is cleared is no byte of a file
        exfalso
        rw [hshift] at haj
        obtain ⟨hdirect, halloc⟩ := hwhere (seg.fileSize + j) (by omega)
        rcases lt_or_ge (seg.virtualAddress + (seg.fileSize + j))
          (alignUp (seg.virtualAddress + seg.fileSize) (pagesize 1)) with hlast | hown
        · rw [hdirect hlast] at haj
          cases haj
          exact hintact.tail (seg.fileSize + j) (by omega) (by omega) hlast ha
        · obtain ⟨a', ha', hnot⟩ := halloc hown
          rw [ha'] at haj
          cases haj
          exact hnot (frame_of_byte ha)
    · rcases lt_or_ge k seg.fileSize with hin | hge
      · exact ⟨_, hfile k hin, fun _ => ⟨rfl, by omega⟩, fun hge => by omega⟩
      · obtain ⟨a, ha, hzero⟩ := hfilled.filled (k - seg.fileSize) (by omega)
        rw [hshift, show seg.fileSize + (k - seg.fileSize) = k by omega] at ha
        exact ⟨a, ha, fun hin => by omega, fun _ => hzero⟩

/-- The pages of a segment that the process can write are its own. -/
theorem Sealed.execSegment (hfs : FilesOk pool fs) (hrf : rf ∈ fs) (hlive : q.dying = false)
    (hseg : System.SegmentOk seg) (hintact : Intact fs rf seg)
    (hinv : System.Inv pool (fileFrames fs) (sys.put p q (t, fm))) (h : Sealed (fileFrames fs) t)
    (hr : execSegment rf area t fm seg = .ok (t', fm')) : Sealed (fileFrames fs) t' := by
  obtain ⟨c, n, m, apma, t₁, fm₁, hP, hdirect, hinv₁, halloc⟩ :=
    execSegment_parts hfs hrf hlive hseg hintact.user hinv hr
  have h₁ : Sealed (fileFrames fs) t₁ := by
    cases hw : seg.flagW with
    | false =>
      exact Sealed.mapPages_direct ((writable_pageType seg).trans hw)
        (System.pageType_flags seg) h hdirect
    | true =>
      obtain ⟨hsize, hal⟩ := hintact.readOnly hw
      obtain rfl := hP.none hsize hal
      cases hdirect
      exact h
  exact Sealed.mapPages_alloc hfs.outside hlive (by decide) hinv₁ h₁ halloc

/-- **All segments.** -/
theorem loadSegments_spec (hfs : FilesOk pool fs) (hrf : rf ∈ fs) (hlive : q.dying = false)
    {segs : List Segment}
    (hsegs : ∀ seg ∈ segs, seg.load = true → System.SegmentOk seg ∧ Intact fs rf seg) {b b' : ℕ}
    (hinv : System.Inv pool (fileFrames fs) (sys.put p q (t, fm)))
    (hsealed : Sealed (fileFrames fs) t)
    (h : loadSegments rf area segs b t fm mem = .ok (b', t', fm', mem')) :
    Adds fs t t' mem mem' ∧ Sealed (fileFrames fs) t' ∧ ∀ seg ∈ segs, seg.load = true →
      Placed rf seg t' mem' := by
  induction segs generalizing b b' t t' fm fm' mem mem' with
  | nil =>
    cases h
    exact ⟨⟨fun ha => ha, fun a => .inl rfl, fun _ _ => rfl⟩, hsealed,
      fun seg hmem => absurd hmem List.not_mem_nil⟩
  | cons seg segs ih =>
    have hrest := fun seg' hmem => hsegs seg' (List.mem_cons_of_mem seg hmem)
    rw [loadSegments] at h
    split at h
    · rename_i hload
      obtain ⟨hadds, hsealed', hplaced⟩ := ih hrest hinv hsealed h
      refine ⟨hadds, hsealed', fun seg' hmem hload' => ?_⟩
      rcases List.mem_cons.mp hmem with rfl | hmem
      · rw [hload] at hload'
        cases hload'
      · exact hplaced seg' hmem hload'
    · rename_i hload
      obtain ⟨hok, hintact⟩ := hsegs seg List.mem_cons_self (by simpa using hload)
      split at h
      · cases h
      rename_i t₁ fm₁ mem₁ hseg
      have hexec := (loadSegment_eq_ok hseg).1
      have hinv₁ :=
        System.inv_execSegment hfs.outside hlive (hfs.fits rf hrf) (fun f hf => ⟨rf, hrf, hf⟩) hok
        hinv hexec
      obtain ⟨hadds₁, hplaced₁⟩ := loadSegment_spec hfs hrf hlive hok hintact hinv hseg
      obtain ⟨hadds, hsealed', hplaced⟩ :=
        ih hrest hinv₁ (hsealed.execSegment hfs hrf hlive hok hintact hinv hexec) h
      refine ⟨hadds₁.trans hadds, hsealed', fun seg' hmem hload' => ?_⟩
      rcases List.mem_cons.mp hmem with rfl | hmem
      · exact hplaced₁.adds hadds
      · exact hplaced seg' hmem hload'

/-! ## Runs -/

/-- No process can write a page of `files`. -/
def AllSealed (files : Set ℕ) (sys : System) : Prop :=
  ∀ p q, sys.proc p = some q → q.dying = false → Sealed files q.t

theorem AllSealed.put (h : AllSealed files sys) {r : Tables × FrameManager}
    (ht : q.dying = false → Sealed files r.1) : AllSealed files (sys.put p q r) := by
  intro p' q' hq' hlive
  by_cases hp : p' = p
  · rw [hp, System.proc_put_self] at hq'
    cases hq'
    exact ht hlive
  · rw [System.proc_put_of_ne hp] at hq'
    exact h p' q' hq' hlive

theorem AllSealed.updated (h : AllSealed files sys) {r : Option Proc} {fm : FrameManager}
    (hr : ∀ q ∈ r, Sealed files q.t) : AllSealed files ⟨fm, update sys.proc p r⟩ := by
  intro p' q' hq' hlive
  by_cases hp : p' = p
  · subst hp
    exact hr q' (by simpa using hq')
  · exact h p' q' (by simpa [update_of_ne hp] using hq') hlive

/-- The entry that `fault` writes. -/
theorem Sealed.fault (hfiles : ∀ f ∈ files, f ∉ pool) (hpool : System.PoolOk pool fm)
    (h : Sealed files t) {b : Bool} (hr : Paging.fault t x fm = .ok (b, t', fm')) :
    Sealed files t' := by
  rcases fault_spec hr with ⟨rfl, -⟩ | ⟨N, e, pma, -, -, -, -, halloc, htop, rfl⟩
  · exact h
  · refine h.setPE fun hN _ _ => ?_
    obtain ⟨-, -, hone⟩ := hpool.alloc halloc
    obtain ⟨g, rfl, hg, hfree, -⟩ := hone hN htop
    rw [System.frameOf_of_addr hg (addr_fault (ofNat_frame (hg.trans (by decide))).1 e)]
    exact hpool.not_lent hfiles hfree

/-- **A step other than `exec` makes no page of a file writable.** -/
theorem AllSealed.step {sys' : System} (hfiles : ∀ f ∈ files, f ∉ pool)
    (hinv : System.Inv pool files sys) (h : AllSealed files sys) {a : System.Action}
    (hne : ∀ p rf segs, a ≠ .exec p rf segs) (ha : sys.Allowed pool files a)
    (hr : sys.step a = some sys') : AllSealed files sys' := by
  have hr : sys.act a = .ok sys' := Fault.toOption_eq_some hr
  cases a with
  | create p k =>
    simp only [System.act] at hr
    split at hr
    · cases hr
    split at hr
    · cases hr
    cases hr
    refine h.updated fun q hq i hi hp => ?_
    cases hq
    rw [show (System.created _ k).t 1 i = 0 from if_pos hi] at hp
    exact absurd hp (by decide)
  | exec p rf segs => exact absurd rfl (hne p rf segs)
  | mapPage p vma guard =>
    obtain ⟨q, hq, hlive⟩ := ha
    obtain ⟨⟨t, fm⟩, hmap, rfl⟩ := Fault.map_eq_ok (System.actOn_of_act hr hq rfl)
    refine h.put fun _ => (h p q hq hlive).mapPage (by decide) hmap fun _ _ _ _ hp => ?_
    cases guard <;> cases hp
  | fault p vma =>
    obtain ⟨q, hq, hlive⟩ := ha
    obtain ⟨⟨b, t, fm⟩, hf, rfl⟩ := Fault.map_eq_ok (System.actOn_of_act hr hq rfl)
    exact h.put fun _ => (h p q hq hlive).fault hfiles hinv.frames hf
  | unmapPage p vma posted =>
    obtain ⟨q, hq, hlive⟩ := ha
    obtain ⟨⟨pe, t⟩, hun, rfl⟩ := Fault.map_eq_ok (System.actOn_of_act hr hq rfl)
    refine h.put fun _ => ?_
    obtain ⟨-, e, -, ⟨-, -, rfl⟩ | ⟨-, -, -, rfl⟩⟩ := unmap1_spec le_rfl (by decide) hun
    · exact (h p q hq hlive).setPE fun _ hp => by rw [present_clearP] at hp; cases hp
    · exact (h p q hq hlive).setPE fun _ hp => absurd hp (by decide)
  | unmapPage2 p pe =>
    obtain ⟨q, hq, -⟩ := ha
    obtain rfl := Except.ok.inj (System.actOn_of_act hr hq rfl)
    exact h.put fun hlive => (h p q hq hlive).setPE fun _ hp => absurd hp (by decide)
  | finish p pe =>
    obtain ⟨q, hq, -⟩ := ha
    obtain rfl := Except.ok.inj (System.actOn_of_act hr hq rfl)
    exact h.put fun hlive => (h p q hq hlive).setPE fun _ hp => absurd hp (by decide)
  | teardown p =>
    obtain ⟨q, hq, -⟩ := ha
    obtain rfl := Except.ok.inj (System.actOn_of_act hr hq rfl)
    exact h.put fun hlive => by cases hlive
  | release p call =>
    obtain ⟨q, hq, -⟩ := ha
    obtain ⟨fm, -, rfl⟩ := Fault.map_eq_ok (System.actOn_of_act hr hq rfl)
    exact h.put fun hlive => h p q hq hlive
  | delete p =>
    obtain ⟨q, hq, -⟩ := ha
    obtain ⟨fm, -, rfl⟩ := Fault.map_eq_ok (System.actOn_of_act hr hq rfl)
    exact h.updated fun q' hq' => by cases hq'
  | kernelAlloc N =>
    obtain ⟨r, -, rfl⟩ := Fault.map_eq_ok hr
    exact h
  | kernelRelease N addr =>
    obtain ⟨r, -, rfl⟩ := Fault.map_eq_ok hr
    exact h

/-- The condition on a step: that of `Kernel/ProcessRuns`, and `exec` of a boot module leaves the
files alone. -/
def Careful (pool : Set ℕ) (fs : Set RamFile) (s : Machine) : Action → Prop
  | .sys (.exec p rf segs) => rf ∈ fs ∧ s.sys.Allowed pool (fileFrames fs) (.exec p rf segs) ∧
      s.sys.Returns (fileFrames fs) (.exec p rf segs) ∧ ∀ seg ∈ segs, seg.load = true →
        Intact fs rf seg
  | .sys a => s.sys.Allowed pool (fileFrames fs) a ∧ s.sys.Returns (fileFrames fs) a
  | .store _ _ _ => True

theorem Careful.system {a : System.Action} (h : s.Careful pool fs (.sys a)) :
    s.sys.Allowed pool (fileFrames fs) a ∧ s.sys.Returns (fileFrames fs) a := by
  cases a with
  | exec p rf segs => exact ⟨h.2.1, h.2.2.1⟩
  | _ => exact h

/-- **The invariant**: no process can write a page of a file, and the files are as they were. -/
structure Kept (pool : Set ℕ) (fs : Set RamFile) (mem₀ : Bytes) (s : Machine) : Prop where
  sys : System.Inv pool (fileFrames fs) s.sys
  sealed : AllSealed (fileFrames fs) s.sys
  bytes : ∀ a ∈ fileBytes fs, s.mem a = mem₀ a

variable {mem₀ : Bytes}

/-- What `exec` leaves behind. -/
theorem Kept.exec (hfs : FilesOk pool fs) (h : Kept pool fs mem₀ s) {segs : List Segment}
    (hc : s.Careful pool fs (.sys (.exec p rf segs)))
    (hr : s.step (.sys (.exec p rf segs)) = some s') :
    Kept pool fs mem₀ s' ∧ ∃ q, s'.sys.proc p = some q ∧ ∀ seg ∈ segs, seg.load = true →
      Placed rf seg q.t s'.mem := by
  obtain ⟨hallowed, hreturns⟩ := hc.system
  obtain ⟨hrf, ⟨⟨q₀, hq₀, hlive⟩, -, -, haddr⟩, hrange, hintact⟩ := hc
  obtain ⟨q, b, t, fm, hq, hload, hsys⟩ := step_exec hr
  obtain rfl : q₀ = q := Option.some.inj (hq₀.symm.trans hq)
  have hinv := h.sys.step hfs.outside hallowed hreturns (step_sys hr).1
  obtain ⟨hadds, hsealed, hplaced⟩ := loadSegments_spec hfs hrf hlive
    (fun seg hseg hload => ⟨⟨haddr seg hseg, hrange seg hseg⟩, hintact seg hseg hload⟩)
    ((System.put_self hq).symm ▸ h.sys) (h.sealed p q₀ hq hlive) hload
  refine ⟨⟨hinv, ?_, fun a ha => (hadds.files a ha).trans (h.bytes a ha)⟩, ?_⟩
  · rw [hsys]
    exact h.sealed.put fun _ => hsealed
  · rw [hsys]
    exact ⟨_, System.proc_put_self _, hplaced⟩

/-- A store goes to a page of the process. -/
theorem Kept.store (h : Kept pool fs mem₀ s) {vma : ℕ} {byte : BitVec 8}
    (hr : s.step (.store p vma byte) = some s') : Kept pool fs mem₀ s' := by
  obtain ⟨q, a, hq, htarget, rfl⟩ := step_store hr
  rw [target, Option.ite_none_right_eq_some] at htarget
  obtain ⟨⟨hlive, hvma, hw, -⟩, ha⟩ := htarget
  obtain ⟨hone, hheld⟩ := held_of_translate h.sys hq hlive hvma ha
  rw [System.heldAt_entry hq] at hheld
  obtain ⟨hidx, hframe⟩ := System.heldIn_eq_some hheld
  have hentry :=
    (walk_entry (by decide) (show walk q.t pagelevels vma = (1, _) from Prod.ext hone rfl)).1
  have hpres : (q.t 1 (index 1 vma)).present = true := by
    by_contra hp
    rw [Paging.translate,
      show walk q.t pagelevels vma = (1, q.t 1 (index 1 vma)) from Prod.ext hone hentry] at ha
    dsimp only at ha
    rw [if_neg hp] at ha
    cases ha
  have hnot : a / sps ∉ fileFrames fs := by
    rw [hframe]
    exact h.sealed p q hq hlive _ hidx hpres (hentry ▸ hw)
  refine ⟨h.sys, h.sealed, fun b hb => ?_⟩
  have hne : b ≠ a := by
    rintro rfl
    exact hnot (frame_of_byte hb)
  show update s.mem a byte b = mem₀ b
  rw [update_of_ne hne]
  exact h.bytes b hb

/-- **One step keeps the invariant.** -/
theorem Kept.step (hfs : FilesOk pool fs) (h : Kept pool fs mem₀ s) {a : Action}
    (hc : s.Careful pool fs a) (hr : s.step a = some s') : Kept pool fs mem₀ s' := by
  cases a with
  | store p vma byte => exact h.store hr
  | sys a =>
    by_cases hexec : ∃ p rf segs, a = .exec p rf segs
    · obtain ⟨p, rf, segs, rfl⟩ := hexec
      exact (h.exec hfs hc hr).1
    · obtain ⟨hsys, hmem⟩ := step_sys hr
      obtain ⟨hallowed, hreturns⟩ := hc.system
      refine ⟨h.sys.step hfs.outside hallowed hreturns hsys, ?_, ?_⟩
      · exact h.sealed.step hfs.outside h.sys
          (fun p rf segs heq => hexec ⟨p, rf, segs, heq⟩) hallowed hsys
      · rw [hmem.resolve_left hexec]
        exact h.bytes

/-- **Running programs leaves their files alone.**  In every run whose steps meet the condition, the
bytes of the boot modules are those of the start; and every `exec` gives the memory image that the
file had then. -/
theorem files_kept {s₀ : Machine} (hboot : System.Booted (fileFrames fs) s₀.sys)
    (hfits : ∀ rf ∈ fs, rf.pma + rf.size < wordSize) {as : List Action}
    (hrun : run step s₀ as = some s)
    (hguard : Guarded step (Careful {f | s₀.sys.fm.free f} fs) s₀ as) :
    (∀ rf ∈ fs, ∀ k < rf.size, s.mem (rf.pma + k) = s₀.mem (rf.pma + k)) ∧
    ∀ p rf segs s', s.Careful {f | s₀.sys.fm.free f} fs (.sys (.exec p rf segs)) →
      s.step (.sys (.exec p rf segs)) = some s' → ∀ seg ∈ segs, seg.load = true →
      ∀ k < seg.memorySize, s'.read p (seg.virtualAddress + k) =
        some (if k < seg.fileSize then s₀.mem (rf.pma + seg.fileOffset + k) else 0) := by
  obtain ⟨hfiles, hinv⟩ := hboot.inv
  have hfs : FilesOk {f | s₀.sys.fm.free f} fs := ⟨hfiles, hfits⟩
  have hkept₀ : Kept {f | s₀.sys.fm.free f} fs s₀.mem s₀ := by
    refine ⟨hinv, fun p q hq => ?_, fun _ _ => rfl⟩
    rw [hboot.proc p] at hq
    cases hq
  have hkept : Kept {f | s₀.sys.fm.free f} fs s₀.mem s :=
    invariant_of_guarded (P := Kept _ fs s₀.mem)
      (fun h hc hr => h.step hfs hc hr) hkept₀ hguard hrun
  refine ⟨fun rf hrf k hk => hkept.bytes _ ⟨rf, hrf, by omega, by omega⟩, ?_⟩
  intro p rf segs s' hc hr seg hseg hload k hk
  obtain ⟨hkept', q, hq, hplaced⟩ := hkept.exec hfs hc hr
  obtain ⟨a, ha, hfile, hbss⟩ := hplaced seg hseg hload k hk
  simp only [read, hq, Option.bind_eq_bind, Option.bind_some, ha]
  refine congrArg some ?_
  split
  · rename_i hlt
    obtain ⟨rfl, hin⟩ := hfile hlt
    exact hkept'.bytes _ ⟨rf, hc.1, by omega, by omega⟩
  · rename_i hge
    exact hbss (not_lt.mp hge)

/-! ## A small machine -/

theorem fileFrames_file : fileFrames {System.file} = {256} := by
  ext f
  simp [fileFrames, System.file_frames]

/-- One segment without a bss. -/
theorem loadSegments_one (b : ℕ) (mem : Bytes) (hload : seg.load = true)
    (hbss : seg.mend ≤ seg.fend) (hexec : execSegment rf area t fm seg = .ok (t', fm')) :
    loadSegments rf area [seg] b t fm mem = .ok (max b seg.mend, t', fm', mem) := by
  have hseg : loadSegment rf area t fm mem seg = .ok (t', fm', mem) := by
    rw [loadSegment, hexec]
    exact if_neg (not_lt.mpr hbss)
  rw [loadSegments, if_neg (by simp [hload]), hseg]
  rfl

/-- The segment of one page, writable or not. -/
def pageSegment (w : Bool) : Segment := { System.segment with flagW := w }

/-- A process runs the program of one page. -/
theorem exists_running (w : Bool) (mem : Bytes) : ∃ (sys₀ sys₁ : System) (s : Machine) (q : Proc),
    System.Booted {256} sys₀ ∧ step ⟨sys₀, mem⟩ (.sys (.create 0 fun _ _ => 0)) = some ⟨sys₁, mem⟩ ∧
    sys₁.live 0 ∧ step ⟨sys₁, mem⟩ (.sys (.exec 0 System.file [pageSegment w])) = some s ∧
    s.sys.proc 0 = some q ∧ q.dying = false ∧ s.mem = mem ∧ walk q.t pagelevels (2 ^ 22) =
      (1, leaf 1 true (BitVec.ofNat 64 (2 ^ 20)) ((pageSegment w).pageType ||| US)) := by
  obtain ⟨sys₀, hboot, hframes⟩ := System.exists_booted
  obtain ⟨f, sys₁, hcreate, hq, hframes₁⟩ :=
    System.create_returns (p := 0) (k := fun _ _ => 0) hframes
  obtain ⟨t₁, fm', -, hwin, hexec⟩ := System.execSegment_file (k := fun _ _ => 0) w hframes₁
  have hexec :
      execSegment System.file ⟨0, 0, 0⟩ (System.cloned fun _ _ => 0) sys₁.fm (pageSegment w) = _ :=
      hexec
  have hload := loadSegments_one 0 mem rfl (by cases w <;> decide) hexec
  refine ⟨sys₀, sys₁, _, _, hboot, ?_, ⟨_, hq, rfl⟩, step_exec_of hq hload, System.proc_put_self _,
    rfl, rfl, ?_⟩
  · show (sys₀.step (.create 0 fun _ _ => 0)).map _ = _
    rw [hcreate]
    rfl
  · refine (walk_setPE_of_le (of_decide_eq_true hwin) le_rfl (by decide)
      (isTable_leaf le_rfl (by decide)) (2 ^ 22)).trans ?_
    rw [if_pos rfl]
    rfl

/-- A program with a read-only page is in memory as it is in its file. -/
theorem files_kept_readOnly : ∃ (s₀ s : Machine), System.Booted (fileFrames {System.file}) s₀.sys ∧
    run step s₀ [.sys (.create 0 fun _ _ => 0), .sys (.exec 0 System.file [pageSegment false])] =
      some s ∧ ∀ k < 4096, s.read 0 (2 ^ 22 + k) = some (s₀.mem (2 ^ 20 + k)) := by
  obtain ⟨sys₀, sys₁, s, q, hboot, hcreate, hlive, hexec, -⟩ :=
    exists_running false fun a => BitVec.ofNat 8 a
  rw [← fileFrames_file] at hboot
  have hrun : run step ⟨sys₀, fun a => BitVec.ofNat 8 a⟩ [.sys (.create 0 fun _ _ => 0)] =
      some ⟨sys₁, fun a => BitVec.ofNat 8 a⟩ := run_cons.mpr ⟨_, hcreate, rfl⟩
  have hguard :
      Guarded step (Careful {f | sys₀.fm.free f} {System.file}) ⟨sys₀, fun a => BitVec.ofNat 8 a⟩
      [.sys (.create 0 fun _ _ => 0)] := ⟨⟨hboot.proc 0, trivial⟩, fun _ _ => trivial⟩
  have hintact : Intact {System.file} System.file (pageSegment false) := by
    refine ⟨by decide, ?_, ?_⟩
    · intro hw
      cases hw
    · intro k hk hk'
      exact absurd (hk'.trans_le (show (pageSegment false).memorySize ≤
        (pageSegment false).fileSize from le_rfl)) (not_lt.mpr hk)
  have hcareful : Careful {f | sys₀.fm.free f} {System.file} ⟨sys₁, fun a => BitVec.ofNat 8 a⟩
      (.sys (.exec 0 System.file [pageSegment false])) := by
    refine ⟨rfl, ⟨hlive, by decide, fun f hf => ⟨System.file, rfl, hf⟩, ?_⟩, ?_, ?_⟩
    · simp only [List.mem_singleton, forall_eq]
      decide
    · simp only [System.Returns, List.mem_singleton, forall_eq]
      decide
    · simp only [List.mem_singleton, forall_eq]
      exact fun _ => hintact
  refine ⟨_, s, hboot, run_cons.mpr ⟨_, hcreate, run_cons.mpr ⟨_, hexec, rfl⟩⟩, fun k hk => ?_⟩
  have hfits : ∀ rf ∈ ({System.file} : Set RamFile), rf.pma + rf.size < wordSize := by
    rintro rf rfl
    decide
  have himage := (files_kept hboot hfits hrun hguard).2 0 _ _ s hcareful hexec (pageSegment false)
    (List.mem_singleton_self _) rfl k hk
  exact himage.trans (congrArg some (if_pos hk))

/-- **A program can overwrite its file**: its data segment is mapped onto the file itself. -/
theorem file_overwritten : ∃ (s₀ s : Machine), System.Booted (fileFrames {System.file}) s₀.sys ∧
    run step s₀ [.sys (.create 0 fun _ _ => 0), .sys (.exec 0 System.file [pageSegment true]),
      .store 0 (2 ^ 22) 1] = some s ∧
    s₀.mem System.file.pma = 0 ∧ s.mem System.file.pma = 1 := by
  obtain ⟨sys₀, sys₁, s, q, hboot, hcreate, -, hexec, hq, hlive, hmem, hw⟩ :=
    exists_running true fun _ => 0
  rw [← fileFrames_file] at hboot
  have hbits : BitVec.ofNat 64 (2 ^ 20) &&& ~~~ADDR = 0 := by decide
  have htranslate : Paging.translate q.t (2 ^ 22) = some (2 ^ 20) := by
    rw [translate_eq hw, if_pos present_leaf_true, addr_leaf hbits (System.pageType_flags _)]
    decide
  have htarget : target q (2 ^ 22) = some (2 ^ 20) := by
    have hwritable : (walk q.t pagelevels (2 ^ 22)).2.writable = true := by
      rw [hw]
      exact writable_leaf hbits
    have huser : (walk q.t pagelevels (2 ^ 22)).2.user = true := by
      rw [hw]
      decide
    rw [target, if_pos ⟨hlive, by decide, hwritable, huser⟩, htranslate]
  have hstore : s.step (.store 0 (2 ^ 22) 1) = some { s with mem := update s.mem (2 ^ 20) 1 } := by
    simp only [step, hq, Option.bind_eq_bind, Option.bind_some, htarget]
    rfl
  have hbyte : update s.mem (2 ^ 20) 1 (2 ^ 20) = 1 := update_self (2 ^ 20) 1 s.mem
  exact ⟨⟨sys₀, fun _ => 0⟩, _, hboot,
    run_cons.mpr ⟨_, hcreate, run_cons.mpr ⟨_, hexec, run_cons.mpr ⟨_, hstore, rfl⟩⟩⟩, rfl, hbyte⟩

end Machine

end Kos
