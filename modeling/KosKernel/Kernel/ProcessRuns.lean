import KosKernel.Kernel.FrameOwnership
import KosKernel.Machine.TableFrames
import KosKernel.Machine.ClearAll

/-!
# Kernel/ProcessRuns — frames over the lives of processes

Each step of a process keeps the invariant of `Kernel/FrameOwnership` when it meets a condition:
what `clearAll` and `runInvalidation` pass to `releaseFrame` is no frame of a boot module, an entry
is unmapped only once before it is cleared, and nothing is pending when the tables are torn down.
-/

namespace Kos

open Function Runs Paging PageEntry AddressSpace FrameManager Ownership

namespace System

variable {pool files : Set ℕ} {s s' : System} {p : ℕ} {q : Proc} {t t' : Tables}
  {fm fm' : FrameManager}

/-! ## What callers respect, and the condition -/

/-- The process `p` exists and is not being torn down. -/
def live (s : System) (p : ℕ) : Prop := ∃ q, s.proc p = some q ∧ q.dying = false

/-- The frames of a page of level `N`. -/
def pageFrames (N addr : ℕ) : Set ℕ := {f | f * sps / pagesize N = addr / pagesize N}

/-- What the code around these steps guarantees: processes exist while they act, an entry is cleared
after `unmapPage1`, a process is deleted after its teardown, the kernel releases only what it has
itself.  `exec` reads a boot module, and the fields of its segments are words. -/
def Allowed (pool files : Set ℕ) (s : System) : Action → Prop
  | .create p _ => s.proc p = none
  | .exec p rf segs => s.live p ∧ rf.pma + rf.size < wordSize ∧ rf.frames ⊆ files ∧
      ∀ seg ∈ segs, seg.virtualAddress < wordSize
  | .mapPage p _ _ | .fault p _ | .unmapPage p _ _ | .teardown p => s.live p
  | .unmapPage2 p pe => ∃ q, s.proc p = some q ∧ (pe, false) ∈ q.pending
  | .finish p pe => ∃ q, s.proc p = some q ∧ (pe, true) ∈ q.pending
  | .release p call => ∃ q, s.proc p = some q ∧ call ∈ q.queue
  | .delete p => ∃ q, s.proc p = some q ∧ q.dying = true ∧ q.queue = []
  | .kernelAlloc _ => True
  | .kernelRelease N addr => (N = 1 ∨ N = 2) ∧ addr % pagesize N = 0 ∧
      ∀ f ∈ pageFrames N addr, f ∈ handedOut pool s.fm ∧ ∀ k, s.heldAt k ≠ some f

/-- The condition on the state before a step. -/
def Returns (files : Set ℕ) (s : System) : Action → Prop
  | .exec _ _ segs => ∀ seg ∈ segs, seg.fileOffset + seg.fileSize < wordSize
  | .unmapPage p vma _ => vma < usertop ∧
      ∀ q, s.proc p = some q → (1, index 1 vma) ∉ q.pending.map Prod.fst
  | .finish p pe => ∀ q, s.proc p = some q → frameOf (q.t pe.1 pe.2) ∉ files
  | .teardown p => ∀ q, s.proc p = some q → q.pending = [] ∧
      ∀ i < userEntries 1, (q.t 1 i).present = true → frameOf (q.t 1 i) ∉ files
  | _ => True

variable {f addr : ℕ}

theorem mem_pageFrames_one : f ∈ pageFrames 1 addr ↔ f = addr / sps := by
  show f * sps / sps = addr / sps ↔ _
  rw [Nat.mul_div_cancel _ sps_pos]

theorem mem_pageFrames_two : f ∈ pageFrames 2 addr ↔ f / pagetableentries = addr / dps := by
  show f * sps / dps = addr / dps ↔ _
  rw [div_dps (f * sps), Nat.mul_div_cancel _ sps_pos]

/-! ## Steps -/

theorem put_self (h : s.proc p = some q) : s.put p q (q.t, s.fm) = s := by
  show ({ fm := s.fm, proc := update s.proc p (some q) } : System) = s
  rw [← h, update_eq_self]

variable {k : Tables}

/-- A new process holds its root, and nothing in its user half. -/
theorem heldAt_create {g : ℕ} (hp : s.proc p = none) {κ : Slot}
    (hk : System.heldAt ⟨fm, update s.proc p (some (created (g * sps) k))⟩ κ = some f) :
    s.heldAt κ = some f ∨ κ = .root p ∧ f = g := by
  by_cases hpid : κ.pid = p
  · cases κ with
    | entry p' N i =>
      obtain rfl : p' = p := hpid
      simp only [heldAt, update_self, Option.bind_some] at hk
      obtain ⟨⟨-, hi, hpres | ⟨hmem, -⟩⟩, -⟩ := heldIn_iff.mp hk
      · rw [show (created (g * sps) k).t N i = 0 from if_pos hi] at hpres
        exact absurd hpres (by decide)
      · cases hmem
    | root p' =>
      obtain rfl : p' = p := hpid
      simp only [heldAt, update_self, Option.map_some, Option.some.injEq] at hk
      exact Or.inr ⟨rfl, hk.symm.trans (Nat.mul_div_cancel g sps_pos)⟩
    | queued p' call =>
      obtain rfl : p' = p := hpid
      simp [heldAt, created] at hk
  · exact Or.inl ((heldAt_of_proc (update_of_ne hpid _ _)).symm.trans hk)

/-- A new process: its root is a fresh frame, and its user half is empty. -/
theorem inv_create (hfiles : ∀ f ∈ files, f ∉ pool) (h : Inv pool files s) (hp : s.proc p = none)
    (hr : s.act (.create p k) = .ok s') : Inv pool files s' := by
  simp only [act] at hr
  split at hr
  · cases hr
  rename_i newpt fm₁ halloc
  split at hr
  · cases hr
  rename_i htop
  cases hr
  obtain ⟨hpool, hfree, hone⟩ := h.frames.alloc halloc
  obtain ⟨g, rfl, hg, hgfree, hgout⟩ := hone rfl htop
  have hempty : TablesOk (cloned k) := ⟨fun _ _ hi _ => if_pos hi, fun _ hi => Or.inl (if_pos hi)⟩
  have hok : ProcOk (created (g * sps) k) :=
    ⟨fun _ => hempty, fun _ hx => absurd hx List.not_mem_nil, List.nodup_nil, List.nodup_nil,
      fun _ hx => absurd hx List.not_mem_nil, Nat.mul_mod_left g sps, fun _ => rfl⟩
  refine ⟨hpool, h.procs_update hok rfl,
    h.owned.take (k := .root p) (h.not_held hfiles hgfree) ?_ (heldAt_create hp),
    fun hk hf => ?_⟩
  · rintro f (hf | rfl)
    · exact handedOut_mono hfree hf
    · exact ⟨h.frames.free f hgfree, hgout⟩
  · rcases heldAt_create hp hk with hk | ⟨-, rfl⟩
    · exact h.lent hk hf
    · exact absurd hf (h.frames.not_lent hfiles hgfree)

/-- `exec`, whose break changes only the area for later mappings. -/
theorem inv_exec (hfiles : ∀ f ∈ files, f ∉ pool) (h : Inv pool files s) (hq : s.proc p = some q)
    (hlive : q.dying = false) {rf : RamFile} {segs : List Segment}
    (hrf : rf.pma + rf.size < wordSize) (hlent : rf.frames ⊆ files)
    (hsegs : ∀ seg ∈ segs, SegmentOk seg) (hr : s.actOn p q (.exec p rf segs) = .ok s') :
    Inv pool files s' := by
  obtain ⟨⟨currBreak, t, fm⟩, hex, rfl⟩ := Fault.map_eq_ok hr
  have h₁ : Inv pool files (s.put p q (t, fm)) :=
    inv_execSegments hfiles hlive hrf hlent segs (fun seg hseg _ => hsegs seg hseg)
      ((put_self hq).symm ▸ h) hex
  have hok := h₁.proc (proc_put_self _)
  exact h₁.lose (proc_put_self _) (update_idem _ _ _).symm h₁.frames (fun _ hf => hf)
    { hok with }
    (fun _ _ _ hf => hf) rfl (fun _ hc => hc)

variable {vma : ℕ}

/-- **A page fault**: in the user half the missing page is of level 1, since above there are only
tables. -/
theorem inv_fault (hfiles : ∀ f ∈ files, f ∉ pool) (h : Inv pool files s) (hq : s.proc p = some q)
    (hlive : q.dying = false) (hr : s.actOn p q (.fault p vma) = .ok s') : Inv pool files s' := by
  obtain ⟨⟨b, t, fm⟩, hf, rfl⟩ := Fault.map_eq_ok hr
  have hok := h.proc hq
  have h₀ : Inv pool files (s.put p q (q.t, s.fm)) := (put_self hq).symm ▸ h
  rcases fault_spec hf with ⟨rfl, rfl⟩ | ⟨N, e, pma, hw, hpres, hpage, haddr, halloc, htop, rfl⟩
  · exact h₀
  · obtain ⟨he, -⟩ := walk_entry (by decide) hw
    obtain ⟨hpool, hfree, hone⟩ := h.frames.alloc halloc
    by_cases hin : index N vma < userEntries N
    · obtain rfl : N = 1 := by
        have h1 : 1 ≤ N := by simpa [hw] using one_le_walk q.t (show 1 ≤ pagelevels by decide) vma
        by_contra hne
        rcases (hok.tables hlive).tables (by omega) hin with h0 | ⟨hp, -⟩
        · rw [he, h0] at haddr
          exact absurd haddr (by decide)
        · rw [he, hp] at hpres
          cases hpres
      obtain ⟨g, rfl, hg, hgfree, hgout⟩ := hone rfl htop
      have hbits := (ofNat_frame (hg.trans (by decide))).1
      refine h₀.take (M := 1) (j := index 1 vma) hfiles hpool hfree (h.frames.free g hgfree)
        (h₀.not_held hfiles hgfree) hgout (hok.with_tables fun _ => (hok.tables hlive).setPE_leaf
          (by simp [inWindow, hw]) _) fun n i f hf => ?_
      refine (heldIn_of_setPE (fun _ => rfl) hf).imp_right fun hheld => ⟨hheld.1, ?_⟩
      rw [(heldIn_eq_some hheld.2).2]
      exact frameOf_of_addr hg (addr_fault hbits e)
    · refine h₀.drop hpool hfree (hok.with_tables fun _ => (hok.tables hlive).setPE_kernel hin _)
        fun n i f hf => (heldIn_of_setPE (fun _ => rfl) hf).resolve_right fun hc => ?_
      exact hin (heldIn_eq_some hc.2).1

variable {N i : ℕ} {q' : Proc}

theorem heldIn_unmap1 {j : ℕ}
    (hf : q'.heldIn N i (setPE q.t (1, j) (q.t 1 j &&& ~~~P) N i) = some f)
    (hpres : (q.t 1 j).present = true) (hdying : q'.dying = q.dying)
    (hpend : q'.pending.map Prod.fst = (1, j) :: q.pending.map Prod.fst) :
    q.heldIn N i (q.t N i) = some f := by
  obtain ⟨⟨hd, hi, hheld⟩, rfl⟩ := heldIn_iff.mp hf
  by_cases hpos : N = 1 ∧ i = j
  · obtain ⟨rfl, rfl⟩ := hpos
    rw [setPE_self, frameOf, addr_clearP]
    exact heldIn_iff.mpr ⟨⟨hdying ▸ hd, hi, Or.inl hpres⟩, rfl⟩
  · have hmem : (N, i) ∈ q'.pending.map Prod.fst → (N, i) ∈ q.pending.map Prod.fst := by
      rw [hpend]
      simp [hpos]
    rw [setPE_of_ne _ _ hpos] at hheld ⊢
    exact heldIn_iff.mpr ⟨⟨hdying ▸ hd, hi, hheld.imp_right (And.imp_left hmem)⟩, rfl⟩

/-- `unmapPage1`: a page that was present goes to the pending entries with its frame. -/
theorem inv_unmapPage (h : Inv pool files s) (hq : s.proc p = some q) (hlive : q.dying = false)
    {posted : Bool} (hv : vma < usertop) (hnew : (1, index 1 vma) ∉ q.pending.map Prod.fst)
    (hr : s.actOn p q (.unmapPage p vma posted) = .ok s') : Inv pool files s' := by
  obtain ⟨⟨r, t⟩, hu, rfl⟩ := Fault.map_eq_ok hr
  have hok := h.proc hq
  obtain ⟨-, e, hw, hcase⟩ := unmap1_spec le_rfl (by decide) hu
  obtain ⟨rfl, -⟩ := walk_entry (by decide) hw
  have hwin : inWindow q.t 1 vma = true := by simp [inWindow, hw]
  have hin : index 1 vma < userEntries 1 := by
    rw [index, userEntries]
    exact Nat.div_lt_div_of_lt_of_dvd (by decide) (lt_of_le_of_lt (Nat.mod_le _ _) hv)
  rcases hcase with ⟨rfl, hpres, rfl⟩ | ⟨rfl, hpres, -, rfl⟩
  · refine h.lose hq rfl h.frames (fun _ hf => hf) ⟨fun _ => (hok.tables hlive).setPE_leaf hwin _,
      ?_, List.nodup_cons.mpr ⟨hnew, hok.nodup⟩, hok.queue, hok.calls, hok.root, fun hd => ?_⟩
      (fun N i f hf => ?_) rfl (fun _ hc => hc)
    · rintro x (_ | ⟨_, hx⟩)
      · exact ⟨rfl, hin⟩
      · exact hok.pending x hx
    · exact absurd (hlive.symm.trans hd) Bool.false_ne_true
    · exact heldIn_unmap1 hf hpres rfl rfl
  · refine h.lose hq rfl h.frames (fun _ hf => hf) (hok.with_tables fun _ =>
      (hok.tables hlive).setPE_leaf hwin _) (fun N i f hf => ?_) rfl (fun _ hc => hc)
    refine (heldIn_of_setPE (fun _ => rfl) hf).resolve_right fun hc => ?_
    obtain ⟨⟨-, -, hzero | ⟨hmem, -⟩⟩, -⟩ := heldIn_iff.mp hc.2
    · exact absurd hzero (by decide)
    · exact hnew hmem

variable {pe : ℕ × ℕ} {b : Bool}

/-- What is pending besides one entry. -/
theorem ProcOk.not_mem_erase (h : ProcOk q) (hmem : (pe, b) ∈ q.pending) :
    pe ∉ (q.pending.erase (pe, b)).map Prod.fst := by
  have hperm := (List.perm_cons_erase hmem).map Prod.fst
  exact (List.nodup_cons.mp (hperm.nodup_iff.mp h.nodup)).1

/-- `unmapPage2` clears a pending entry. -/
theorem ProcOk.unmap2 (h : ProcOk q) (hmem : (pe, b) ∈ q.pending) :
    ProcOk { q with pending := q.pending.erase (pe, b), t := (unmap2 q.t pe).2 } := by
  obtain ⟨N, i⟩ := pe
  obtain rfl : N = 1 := (h.pending _ hmem).1
  exact ⟨fun hd => (h.tables hd).setPE_zero i, fun x hx => h.pending x (List.mem_of_mem_erase hx),
    h.nodup.sublist ((List.erase_sublist).map _), h.queue, h.calls, h.root,
    fun hd => by rw [h.quiet hd, List.erase_nil]⟩

theorem heldIn_unmap2 (hf : q'.heldIn N i ((Paging.unmap2 q.t pe).2 N i) = some f) (hok : ProcOk q)
    (hmem : (pe, b) ∈ q.pending) (hdying : q'.dying = q.dying)
    (hpend : q'.pending = q.pending.erase (pe, b)) :
    q.heldIn N i (q.t N i) = some f ∧ (N, i) ≠ pe := by
  obtain ⟨⟨hd, hi, hheld⟩, rfl⟩ := heldIn_iff.mp hf
  rw [hpend] at hheld
  by_cases hpe : (N, i) = pe
  · subst hpe
    rw [show (Paging.unmap2 q.t (N, i)).2 N i = 0 from setPE_self _ _ _ _] at hheld
    rcases hheld with hzero | ⟨hin, -⟩
    · exact absurd hzero (by decide)
    · exact absurd hin (hok.not_mem_erase hmem)
  · rw [show (Paging.unmap2 q.t pe).2 N i = q.t N i from if_neg hpe] at hheld ⊢
    refine ⟨heldIn_iff.mpr ⟨⟨hdying ▸ hd, hi, hheld.imp_right (And.imp_left fun hx => ?_)⟩, rfl⟩,
      hpe⟩
    exact ((List.erase_sublist).map _).subset hx

/-- The entry that is cleared loses its frame. -/
theorem inv_unmapPage2 (h : Inv pool files s) (hq : s.proc p = some q)
    (hmem : (pe, false) ∈ q.pending) (hr : s.actOn p q (.unmapPage2 p pe) = .ok s') :
    Inv pool files s' := by
  cases hr
  exact h.lose hq rfl h.frames (fun _ hf => hf) ((h.proc hq).unmap2 hmem)
    (fun N i f hf => (heldIn_unmap2 hf (h.proc hq) hmem rfl rfl).1) rfl (fun _ hc => hc)

variable {call : ℕ × ℕ}

/-- A call for the frame of an entry is not yet to be made. -/
theorem Inv.not_queued (h : Inv pool files s) (hq : s.proc p = some q)
    (hheld : q.heldIn N i (q.t N i) = some (call.2 / sps)) (hown : call.2 / sps ∉ files) :
    call ∉ q.queue := by
  intro hmem
  have hentry : s.heldAt (.entry p N i) = some (call.2 / sps) := (heldAt_entry hq N i).trans hheld
  have hqueued : s.heldAt (.queued p call) = some (call.2 / sps) :=
    (heldAt_queued hq call).trans (if_pos hmem)
  cases h.owned.unique hown hentry hqueued

/-- **Entries hand their frames to calls of `releaseFrame`.** -/
theorem Inv.enqueue (h : Inv pool files s) (hq : s.proc p = some q)
    (hs' : s'.proc = update s.proc p (some q')) (hfm : s'.fm = s.fm) (hok : ProcOk q')
    (hentry : ∀ N i f, q'.heldIn N i (q'.t N i) = some f → q.heldIn N i (q.t N i) = some f)
    (hroot : q'.pagetable = q.pagetable)
    (hqueue : ∀ c ∈ q'.queue, c ∈ q.queue ∨ c.2 / sps ∉ files ∧ ∃ N i,
    q.heldIn N i (q.t N i) = some (c.2 / sps) ∧ q'.heldIn N i (q'.t N i) = none) :
    Inv pool files s' := by
  have hq' : s'.proc p = some q' := by rw [hs', update_self]
  let src : Slot → Slot → Prop := fun k k' => ∃ c N i, k = .queued p c ∧ k' = .entry p N i ∧
    c ∈ q'.queue ∧ q'.heldIn N i (q'.t N i) = none
  have hmove : ∀ {k f}, s'.heldAt k = some f →
      s.heldAt k = some f ∨ f ∉ files ∧ ∃ k', src k k' ∧ s.heldAt k' = some f := fun hk => by
    refine heldAt_replace (C := fun k f => f ∉ files ∧ ∃ k', src k k' ∧ s.heldAt k' = some f) hq hs'
      (fun N i f hf => Or.inl (hentry N i f hf)) hroot (fun c hc => (hqueue c hc).imp_right ?_) hk
    rintro ⟨hown, N, i, hheld, hnone⟩
    exact ⟨hown, .entry p N i, ⟨c, N, i, rfl, rfl, hc, hnone⟩, (heldAt_entry hq N i).trans hheld⟩
  refine ⟨hfm ▸ h.frames, h.procs_update hok hs', hfm ▸ h.owned.move (fun k k' => k = k' ∨ src k k')
    (fun {k f} hk => ?_) ?_, fun hk hf => ?_⟩
  · rcases hmove hk with hk | ⟨-, k', hsrc, hk'⟩
    · exact ⟨k, Or.inl rfl, hk⟩
    · exact ⟨k', Or.inr hsrc, hk'⟩
  · have hempty : ∀ {k k' f}, src k k' → s'.heldAt k' ≠ some f := by
      rintro k k' f ⟨c, N, i, -, rfl, -, hnone⟩
      simp [heldAt_entry hq', hnone]
    rintro k₁ k₂ k f hk₁ hk₂ (rfl | h₁) (rfl | h₂)
    · rfl
    · exact absurd hk₁ (hempty h₂)
    · exact absurd hk₂ (hempty h₁)
    · -- two calls for one frame are the same call
      obtain ⟨c₁, -, -, rfl, -, hc₁, -⟩ := h₁
      obtain ⟨c₂, -, -, rfl, -, hc₂, -⟩ := h₂
      simp only [heldAt_queued hq', if_pos hc₁, if_pos hc₂, Option.some.injEq] at hk₁ hk₂
      obtain ⟨hl₁, ha₁⟩ := hok.calls c₁ hc₁
      obtain ⟨hl₂, ha₂⟩ := hok.calls c₂ hc₂
      have haddr : c₁.2 = c₂.2 := by
        rw [← Nat.div_add_mod c₁.2 sps, ← Nat.div_add_mod c₂.2 sps, ha₁, ha₂, hk₁, hk₂]
      rw [show c₁ = c₂ from Prod.ext (hl₁.trans hl₂.symm) haddr]
  · rcases hmove hk with hk | ⟨hown, -⟩
    · exact h.lent hk hf
    · exact absurd hf hown

/-- **`runInvalidation` has taken the frame of an entry**: it goes to the call of
`releaseFrames`. -/
theorem inv_finish (h : Inv pool files s) (hq : s.proc p = some q) (hmem : (pe, true) ∈ q.pending)
    (hown : frameOf (q.t pe.1 pe.2) ∉ files) (hr : s.actOn p q (.finish p pe) = .ok s') :
    Inv pool files s' := by
  cases hr
  have hok := (h.proc hq).unmap2 hmem
  obtain ⟨N, i⟩ := pe
  obtain ⟨rfl, hi⟩ : N = 1 ∧ i < userEntries 1 := (h.proc hq).pending _ hmem
  have hlive : q.dying = false := by
    by_contra hd
    rw [(h.proc hq).quiet (by simpa using hd)] at hmem
    exact List.not_mem_nil hmem
  by_cases hframe : hasFrame (q.t 1 i).addr = true
  · have hheld : q.heldIn 1 i (q.t 1 i) = some (frameOf (q.t 1 i)) :=
      heldIn_iff.mpr ⟨⟨hlive, hi, Or.inr ⟨List.mem_map_of_mem hmem, hframe⟩⟩, rfl⟩
    have hnew : (1, (q.t 1 i).addr.toNat) ∉ q.queue := h.not_queued hq hheld hown
    refine h.enqueue hq rfl rfl ?_ (fun n j f hf => (heldIn_unmap2 hf (h.proc hq) hmem rfl rfl).1)
      rfl ?_
    · simp only [if_pos hframe]
      refine { hok with queue := List.nodup_cons.mpr ⟨hnew, hok.queue⟩, calls := ?_ }
      exact List.forall_mem_cons.mpr ⟨⟨rfl, addr_mod _⟩, hok.calls⟩
    · simp only [if_pos hframe]
      refine List.forall_mem_cons.mpr ⟨Or.inr ⟨hown, 1, i, hheld, ?_⟩, fun c hc => Or.inl hc⟩
      exact Option.eq_none_iff_forall_ne_some.mpr fun f hf => 
        (heldIn_unmap2 hf (h.proc hq) hmem rfl rfl).2 rfl
  · refine h.lose hq rfl h.frames (fun _ hf => hf) ?_
      (fun n j f hf => (heldIn_unmap2 hf (h.proc hq) hmem rfl rfl).1) rfl ?_
    · simp only [if_neg hframe]
      exact hok
    · simp only [if_neg hframe]
      exact fun _ hc => hc

/-! ### Teardown -/

/-- Below the user part of the root there is the user half. -/
theorem lt_userEntries_of_below {j : ℕ} {x : ℕ × ℕ} (hj : j < userEntries pagelevels)
    (hx : Below pagelevels j x) : x.2 < userEntries x.1 := by
  obtain ⟨N, i⟩ := x
  obtain ⟨h1, hN, hdiv⟩ : 1 ≤ N ∧ N ≤ pagelevels ∧ i / pagetableentries ^ (pagelevels - N) = j := hx
  have hmul : userEntries N = userEntries pagelevels * pagetableentries ^ (pagelevels - N) := by
    obtain rfl | rfl | rfl | rfl : N = 1 ∨ N = 2 ∨ N = 3 ∨ N = 4 := by
      unfold pagelevels at hN
      omega
    all_goals decide
  have hpos : 0 < pagetableentries ^ (pagelevels - N) := Nat.pow_pos (by decide)
  rw [hmul]
  exact Nat.lt_mul_of_div_lt (hdiv ▸ hj) hpos

/-- **What `clearAll` finds in the user half**: pages of level 1 and tables, all released as
frames. -/
theorem callOf_eq (ht : TablesOk t) {x : ℕ × ℕ}
    (hx : x ∈ cleared t pagelevels 0 (userEntries pagelevels)) : x.2 < userEntries x.1 ∧
      (t x.1 x.2).present = true ∧ callOf t x = (1, (t x.1 x.2).addr.toNat) := by
  obtain ⟨hpres, j, -, hj, hb⟩ := mem_cleared _ hx
  have hin := lt_userEntries_of_below (by simpa using hj) hb
  refine ⟨hin, hpres, ?_⟩
  have hlevel : (if isPage x.1 (t x.1 x.2) then x.1 else pagetablepl) = 1 := by
    rcases hb.1.eq_or_lt with h1 | h1
    · rw [← h1]
      exact ite_self 1
    · rcases ht.tables h1 hin with h0 | ⟨-, hlarge⟩
      · rw [h0] at hpres
        exact absurd hpres (by decide)
      · rw [if_neg (by simp [isPage, hlarge, h1.ne'])]
        rfl
  exact Prod.ext hlevel rfl

/-- **`clearUserPaging`**: every entry hands its frame to one call. -/
theorem inv_teardown (h : Inv pool files s) (hq : s.proc p = some q) (hlive : q.dying = false)
    (hpend : q.pending = [])
    (hown : ∀ i < userEntries 1, (q.t 1 i).present = true → frameOf (q.t 1 i) ∉ files)
    (hr : s.actOn p q (.teardown p) = .ok s') : Inv pool files s' := by
  cases hr
  have hok := h.proc hq
  have ht := hok.tables hlive
  have hcalls := (clearAll_spec pagelevels 0 (userEntries pagelevels) q.t).1
  have hheld : ∀ x ∈ cleared q.t pagelevels 0 (userEntries pagelevels),
      q.heldIn x.1 x.2 (q.t x.1 x.2) = some ((callOf q.t x).2 / sps) ∧
        (callOf q.t x).2 / sps ∉ files := by
    intro x hx
    obtain ⟨hin, hpres, hcall⟩ := callOf_eq ht hx
    have hx' : q.heldIn x.1 x.2 (q.t x.1 x.2) = some (frameOf (q.t x.1 x.2)) :=
      heldIn_iff.mpr ⟨⟨hlive, hin, Or.inl hpres⟩, rfl⟩
    refine ⟨hx', fun hf => ?_⟩
    obtain ⟨p', i, hslot⟩ := h.lent ((heldAt_entry hq x.1 x.2).trans hx') hf
    obtain ⟨-, hN, rfl⟩ := Slot.entry.inj hslot
    exact hown x.2 (hN ▸ hin) (hN ▸ hpres) (hN ▸ hf)
  have hnodup : ((cleared q.t pagelevels 0 (userEntries pagelevels)).map (callOf q.t)).Nodup := by
    refine List.Nodup.map_on (fun x hx y hy hxy => ?_) (nodup_cleared _)
    have hslot := h.owned.unique (hheld x hx).2 ((heldAt_entry hq x.1 x.2).trans (hheld x hx).1)
      ((heldAt_entry hq y.1 y.2).trans (hxy ▸ (hheld y hy).1))
    obtain ⟨-, h1, h2⟩ := Slot.entry.inj hslot
    exact Prod.ext h1 h2
  have hdead : ∀ {r : Proc} {N i e}, r.dying = true → r.heldIn N i e = none := fun hd =>
    if_neg fun hc => by simp [hd] at hc
  refine h.enqueue hq rfl rfl ⟨fun hd => (nomatch hd), hok.pending, hok.nodup, ?_, ?_, hok.root,
    fun _ => hpend⟩ (fun N i f hf => absurd hf (by simp [hdead])) rfl fun c hc => ?_
  · rw [hcalls]
    refine hok.queue.append hnodup fun c hc hc' => ?_
    obtain ⟨x, hx, rfl⟩ := List.mem_map.mp hc'
    exact h.not_queued hq (hheld x hx).1 (hheld x hx).2 hc
  · rw [hcalls]
    refine List.forall_mem_append.mpr ⟨hok.calls, fun c hc => ?_⟩
    obtain ⟨x, hx, rfl⟩ := List.mem_map.mp hc
    rw [(callOf_eq ht hx).2.2]
    exact ⟨rfl, addr_mod _⟩
  · rcases List.mem_append.mp hc with hc | hc
    · exact Or.inl hc
    · rw [hcalls] at hc
      obtain ⟨x, hx, rfl⟩ := List.mem_map.mp hc
      exact Or.inr ⟨(hheld x hx).2, x.1, x.2, (hheld x hx).1, hdead rfl⟩

/-! ### Releases -/

/-- A place that holds a frame of the pool releases it. -/
theorem Inv.give (h : Inv pool files s) {k : Slot} {a : ℕ} (hk : s.heldAt k = some (a / sps))
    (hown : a / sps ∉ files) (hr : s.fm.releaseFrame 1 a = .ok fm')
    (hfm : s'.fm = fm') (hproc : ∀ {p q}, s'.proc p = some q → ProcOk q)
    (hold : ∀ {k' f}, s'.heldAt k' = some f → s.heldAt k' = some f ∧ k' ≠ k) :
    Inv pool files s' := by
  subst hfm
  obtain ⟨hin, hout⟩ := h.owned.out hk hown
  have hrel : Released s.fm s'.fm (· = a / sps) :=
    releaseFrame1_spec h.frames.inv (div_dps a ▸ h.frames.inRange _ hin) hout hr
  refine ⟨h.frames.release hrel fun f hf => hf ▸ hin, hproc, h.owned.give hk hown ?_ hold,
    fun hk hf => h.lent (hold hk).1 hf⟩
  rintro f ⟨hf, hnf⟩ hne
  exact ⟨hf, fun hfree => ((hrel.free f).mp hfree).elim hnf hne⟩

/-- A frame in a root or in a call is not lent. -/
theorem Inv.not_lent (h : Inv pool files s) {k : Slot} (hk : s.heldAt k = some f)
    (hne : ∀ p i, k ≠ .entry p 1 i) : f ∉ files := fun hf => by
  obtain ⟨p, i, rfl⟩ := h.lent hk hf
  exact hne p i rfl

/-- A call of `releaseFrame` is made. -/
theorem inv_release (h : Inv pool files s) (hq : s.proc p = some q) (hmem : call ∈ q.queue)
    (hr : s.actOn p q (.release p call) = .ok s') : Inv pool files s' := by
  obtain ⟨fm', hrel, rfl⟩ := Fault.map_eq_ok hr
  have hok := h.proc hq
  have hk : s.heldAt (.queued p call) = some (call.2 / sps) :=
    (heldAt_queued hq call).trans (if_pos hmem)
  rw [(hok.calls call hmem).1] at hrel
  have hok' : ProcOk { q with queue := q.queue.erase call } :=
    { hok with queue := hok.queue.erase call,
               calls := fun c hc => hok.calls c (List.mem_of_mem_erase hc) }
  have hs' : (s.put p { q with queue := q.queue.erase call } (q.t, fm')).proc =
      update s.proc p (some { q with queue := q.queue.erase call }) := rfl
  refine h.give hk (h.not_lent hk fun _ _ hc => by cases hc) hrel rfl (h.procs_update hok' hs')
    fun {k' f} hk' =>
      ⟨(heldAt_replace (C := fun _ _ => False) hq hs' (fun _ _ _ hf => Or.inl hf) rfl
      (fun c hc => Or.inl (List.mem_of_mem_erase hc)) hk').resolve_right id, ?_⟩
  rintro rfl
  rw [heldAt_queued (proc_put_self _), if_neg hok.queue.not_mem_erase] at hk'
  cases hk'

/-- The destructor releases the root. -/
theorem inv_delete (h : Inv pool files s) (hq : s.proc p = some q)
    (hr : s.actOn p q (.delete p) = .ok s') : Inv pool files s' := by
  obtain ⟨fm', hrel, rfl⟩ := Fault.map_eq_ok hr
  have hk := heldAt_root hq
  refine h.give hk (h.not_lent hk fun _ _ hc => by cases hc) hrel rfl (fun {p' r} hr => ?_)
    fun {k f} hk' => ?_
  · by_cases hp : p' = p
    · subst hp
      simp at hr
    · exact h.proc ((update_of_ne hp _ _).symm.trans hr)
  · by_cases hp : k.pid = p
    · cases k <;>
      · obtain rfl := hp
        simp [heldAt, Slot.pid] at hk'
    · refine ⟨(heldAt_of_proc (update_of_ne hp _ _)).symm.trans hk', ?_⟩
      rintro rfl
      exact hp rfl

theorem inv_kernelAlloc (h : Inv pool files s) (hr : s.act (.kernelAlloc N) = .ok s') :
    Inv pool files s' := by
  obtain ⟨⟨a, fm'⟩, halloc, rfl⟩ := Fault.map_eq_ok hr
  obtain ⟨hpool, hfree, -⟩ := h.frames.alloc halloc
  exact ⟨hpool, h.proc, h.owned.change fun _ hf => handedOut_mono hfree hf, h.lent⟩

/-- The kernel releases a page that it has itself. -/
theorem releaseFrame_kernel (h : Inv pool files s) (hN : N = 1 ∨ N = 2)
    (hout : ∀ f ∈ pageFrames N addr, f ∈ handedOut pool s.fm ∧ ∀ k, s.heldAt k ≠ some f)
    (hrel : s.fm.releaseFrame N addr = .ok fm') : Released s.fm fm' (· ∈ pageFrames N addr) := by
  rcases hN with rfl | rfl
  · obtain ⟨⟨hin, hnf⟩, -⟩ := hout _ (mem_pageFrames_one.mpr rfl)
    simp only [mem_pageFrames_one]
    exact releaseFrame1_spec h.frames.inv (div_dps addr ▸ h.frames.inRange _ hin) hnf hrel
  · simp only [mem_pageFrames_two] at hout ⊢
    obtain ⟨⟨hin, -⟩, -⟩ := hout _ (div_dps addr).symm
    exact releaseFrame2_spec h.frames.inv (div_dps addr ▸ h.frames.inRange _ hin)
      (fun f hf => (hout f hf).1.2) hrel

theorem inv_kernelRelease (h : Inv pool files s) (hN : N = 1 ∨ N = 2)
    (hout : ∀ f ∈ pageFrames N addr, f ∈ handedOut pool s.fm ∧ ∀ k, s.heldAt k ≠ some f)
    (hr : s.act (.kernelRelease N addr) = .ok s') : Inv pool files s' := by
  obtain ⟨fm', hrel, rfl⟩ := Fault.map_eq_ok hr
  have hspec := releaseFrame_kernel h hN hout hrel
  refine ⟨h.frames.release hspec fun f hf => (hout f hf).1.1, h.proc, h.owned.change ?_, h.lent⟩
  rintro k f hk ⟨hin, hnf⟩
  exact ⟨hin, fun hf => ((hspec.free f).mp hf).elim hnf fun hf => (hout f hf).2 k hk⟩

/-! ## Runs -/

variable {a : Action}

theorem act_of_pid (hq : s.proc p = some q) (ha : a.pid = some p) : s.act a = s.actOn p q a := by
  cases a with
  | create => cases ha
  | kernelAlloc => cases ha
  | kernelRelease => cases ha
  | _ =>
    cases ha
    simp only [act, Action.pid, hq]

theorem actOn_of_act (hr : s.act a = .ok s') (hq : s.proc p = some q) (ha : a.pid = some p) :
    s.actOn p q a = .ok s' :=
  (act_of_pid hq ha).symm.trans hr

/-- **One step keeps the invariant.** -/
theorem Inv.step (hfiles : ∀ f ∈ files, f ∉ pool) (h : Inv pool files s)
    (ha : s.Allowed pool files a) (hc : s.Returns files a) (hr : s.step a = some s') :
    Inv pool files s' := by
  have hr : s.act a = .ok s' := by
    revert hr
    unfold System.step
    cases s.act a with
    | error e => exact fun hr => nomatch hr
    | ok s₁ => exact fun hr => congrArg _ (Option.some.inj hr)
  cases a with
  | create p k => exact inv_create hfiles h ha hr
  | exec p rf segs =>
    obtain ⟨⟨q, hq, hlive⟩, hrf, hlent, hsegs⟩ := ha
    exact inv_exec hfiles h hq hlive hrf hlent (fun seg hseg => ⟨hsegs seg hseg, hc seg hseg⟩)
      (actOn_of_act hr hq rfl)
  | mapPage p vma guard =>
    obtain ⟨q, hq, hlive⟩ := ha
    obtain ⟨⟨t, fm⟩, hmap, rfl⟩ := Fault.map_eq_ok (actOn_of_act hr hq rfl)
    exact inv_mapPage hfiles hlive (by decide) (fun hmc => by cases guard <;> cases hmc)
      ((put_self hq).symm ▸ h) hmap
  | fault p vma =>
    obtain ⟨q, hq, hlive⟩ := ha
    exact inv_fault hfiles h hq hlive (actOn_of_act hr hq rfl)
  | unmapPage p vma posted =>
    obtain ⟨q, hq, hlive⟩ := ha
    exact inv_unmapPage h hq hlive hc.1 (hc.2 q hq) (actOn_of_act hr hq rfl)
  | unmapPage2 p pe =>
    obtain ⟨q, hq, hmem⟩ := ha
    exact inv_unmapPage2 h hq hmem (actOn_of_act hr hq rfl)
  | finish p pe =>
    obtain ⟨q, hq, hmem⟩ := ha
    exact inv_finish h hq hmem (hc q hq) (actOn_of_act hr hq rfl)
  | teardown p =>
    obtain ⟨q, hq, hlive⟩ := ha
    exact inv_teardown h hq hlive (hc q hq).1 (hc q hq).2 (actOn_of_act hr hq rfl)
  | release p call =>
    obtain ⟨q, hq, hmem⟩ := ha
    exact inv_release h hq hmem (actOn_of_act hr hq rfl)
  | delete p =>
    obtain ⟨q, hq, -⟩ := ha
    exact inv_delete h hq (actOn_of_act hr hq rfl)
  | kernelAlloc N => exact inv_kernelAlloc h hr
  | kernelRelease N addr => exact inv_kernelRelease h ha.1 ha.2.2 hr

/-- What an action releases has been handed out. -/
theorem Inv.releases (h : Inv pool files s) (ha : s.Allowed pool files a)
    (hcall : call ∈ s.releases a) (hf : f ∈ pageFrames call.1 call.2) :
    f ∈ handedOut pool s.fm := by
  cases a with
  | release p c =>
    obtain rfl := List.mem_singleton.mp hcall
    obtain ⟨q, hq, hmem⟩ := ha
    have hk := (heldAt_queued hq call).trans (if_pos hmem)
    rw [((h.proc hq).calls call hmem).1, mem_pageFrames_one] at hf
    exact hf ▸ h.owned.out hk (h.not_lent hk fun _ _ hc => by cases hc)
  | delete p =>
    obtain ⟨q, hq, -⟩ := ha
    obtain rfl : call = (pagetablepl, q.pagetable) := by simpa [System.releases, hq] using hcall
    have hk := heldAt_root hq
    rw [mem_pageFrames_one.mp hf]
    exact h.owned.out hk (h.not_lent hk fun _ _ hc => by cases hc)
  | kernelRelease N addr =>
    obtain rfl := List.mem_singleton.mp hcall
    exact (ha.2.2 f hf).1
  | _ => cases hcall

/-- The state after the bootstrap: `init` and the regions of free memory, no process yet, and the
boot modules outside of these regions. -/
structure Booted (files : Set ℕ) (s : System) : Prop where
  boot : ∃ top fm₀ rs, 0 < top ∧ top ≤ 2 ^ 48 ∧ FrameManager.init top = .ok fm₀ ∧ Regions top rs ∧
    releaseRegions fm₀ rs = .ok s.fm ∧ ∀ f ∈ files, ∀ r ∈ rs, ¬ inRegion r (f * sps)
  proc : ∀ p, s.proc p = none

theorem Booted.inv (h : Booted files s) : (∀ f ∈ files, f ∉ {f | s.fm.free f}) ∧
    Inv {f | s.fm.free f} files s := by
  obtain ⟨top, fm₀, rs, hpos, htop, hinit, hrs, hrun, hfiles⟩ := h.boot
  obtain ⟨fm₁, hfm₁, hboot, hnone⟩ := booting_init hpos htop (rs ++ [])
  obtain rfl : fm₁ = fm₀ := Except.ok.inj (hfm₁.symm.trans hinit)
  obtain ⟨fm, hfm, hbooted, -, hfree⟩ := Booting.run rs hboot (by simpa using hrs)
  rw [Except.ok.inj (hfm.symm.trans hrun)] at hbooted hfree
  have hin : ∀ {f}, s.fm.free f → ∃ r ∈ rs, inRegion r (f * sps) := fun hf =>
    ((hfree _).mp hf).resolve_left (hnone _)
  have hbelow : ∀ {f}, s.fm.free f → f * sps < top := fun hf => by
    obtain ⟨r, hr, hlt⟩ := hin hf
    exact lt_of_lt_of_le hlt.2 (hrs.below r hr)
  have hempty : s.heldAt = fun _ => none := by
    funext k
    cases k <;> simp [heldAt, h.proc]
  have hpool : PoolOk {f | s.fm.free f} s.fm := by
    refine ⟨hbooted.inv, fun f hf => ?_, fun f hf => ?_, fun f hf => hf⟩
    · have := hbelow hf
      rw [show sps = 2 ^ 12 from rfl] at this
      omega
    · rw [← Nat.mul_div_cancel f sps_pos, ← div_dps]
      exact Nat.div_lt_of_lt_mul (lt_of_lt_of_le (hbelow hf) (mul_comm dps _ ▸ hbooted.covers))
  refine ⟨fun f hf hfree' => ?_, hpool, fun {p q} hp => ?_, hempty ▸ .empty, ?_⟩
  · obtain ⟨r, hr, hrf⟩ := hin hfree'
    exact hfiles f hf r hr hrf
  · rw [h.proc p] at hp
    cases hp
  · intro k f hk
    rw [hempty] at hk
    cases hk

/-! ## A small machine -/

/-- `mapPage` where nothing is mapped, and without a frame for the page. -/
theorem mapPage_empty {a : ℕ} (mc : MapCode) (pma : ℕ) (type : PageEntry)
    (hroot : t pagelevels (index pagelevels vma) = 0) (hvma : vma % pagesize 1 = 0)
    (hframe : frameFor 1 mc pma fm = .ok (a, fm)) (ha : a ≠ topaddr)
    (hbits : BitVec.ofNat 64 a &&& ~~~ADDR = 0) (h : HasFrames 3 fm) :
    ∃ t₁ fm', HasFrames 0 fm' ∧ inWindow t₁ 1 vma = true ∧
      AddressSpace.mapPage 1 mc true t fm pma vma type =
        .ok (setPE t₁ (1, index 1 vma) (leaf 1 mc.present (BitVec.ofNat 64 a) (type ||| US)),
          fm') := by
  have hwalk : walk t pagelevels vma = (pagelevels, 0) := by
    rw [show pagelevels = 3 + 1 from rfl, walk, show t (3 + 1) (index (3 + 1) vma) = 0 from hroot,
      isTable_zero, if_neg Bool.false_ne_true]
  obtain ⟨t₁, fm₁, htab, h₁, habs⟩ := mapTable_returns (R := HasFrames) HasFrames.table hwalk
    (by decide) le_rfl 3 (by decide) (show HasFrames (3 + 0) fm from h)
  have htab : mapTable 3 t vma fm = .ok (true, t₁, fm₁) := htab
  have habs : (t₁ 1 (index 1 vma)).present = false := habs
  have hwin : inWindow t₁ 1 vma = true :=
    decide_eq_true (mapTable_spec (show 3 < pagelevels by decide) htab).reached
  refine ⟨t₁, fm₁, h₁, hwin, ?_⟩
  have hmap : map 1 mc.present t vma (BitVec.ofNat 64 a) (type ||| US) fm = .ok (true, setPE t₁
      (1, index 1 vma) (leaf 1 mc.present (BitVec.ofNat 64 a) (type ||| US)), fm₁) :=
    map_of_mapTable hvma hbits htab hwin habs
  rw [AddressSpace.mapPage, hframe]
  simp only [if_neg ha, if_true]
  rw [hmap]

/-- A boot module of one page, and the segment that covers it. -/
def file : RamFile := ⟨2 ^ 20, 4096⟩

def segment : Segment where
  load := true
  fileOffset := 0
  fileSize := 4096
  memorySize := 4096
  virtualAddress := 2 ^ 22
  flagW := false
  flagX := true

theorem file_frames : file.frames = {256} := by
  ext f
  simp only [RamFile.frames, file, show sps = 4096 from rfl, Set.mem_ofPred_eq,
    Set.mem_singleton_iff]
  omega

/-- The segment is mapped, writable or not. -/
theorem execSegment_file (w : Bool) (h : HasFrames 3 fm) : ∃ t₁ fm', HasFrames 0 fm' ∧
    inWindow t₁ 1 (2 ^ 22) = true ∧
    execSegment file ⟨0, 0, 0⟩ (cloned k) fm { segment with flagW := w } =
      .ok (setPE t₁ (1, 1024) (leaf 1 true (BitVec.ofNat 64 (2 ^ 20))
        (({ segment with flagW := w } : Segment).pageType ||| US)), fm') := by
  have hroot : cloned k pagelevels (index pagelevels (2 ^ 22)) = 0 :=
    if_pos (show index pagelevels (2 ^ 22) < userEntries pagelevels by decide)
  obtain ⟨type, htype⟩ : ∃ type, ({ segment with flagW := w } : Segment).pageType = type := ⟨_, rfl⟩
  obtain ⟨t₁, fm', h', hwin, hpage⟩ := mapPage_empty .noAlloc (2 ^ 20) type hroot
    (by decide) rfl (by decide) (by decide) h
  refine ⟨t₁, fm', h', hwin, ?_⟩
  have hpages : mapPages 1 .noAlloc true 1 (cloned k) fm (2 ^ 20) (2 ^ 22) type =
      .ok (setPE t₁ (1, 1024) (leaf 1 true (BitVec.ofNat 64 (2 ^ 20)) (type ||| US)), fm') := by
    rw [mapPages, hpage]
    rfl
  have hout : mapOutside 1 .noAlloc ⟨0, 0, 0⟩ (cloned k) fm (2 ^ 20) (2 ^ 22) 4096 type =
      .ok (setPE t₁ (1, 1024) (leaf 1 true (BitVec.ofNat 64 (2 ^ 20)) (type ||| US)), fm') := by
    rw [mapOutside, if_pos (by decide), mapPageRegion, if_pos (by decide)]
    exact hpages
  rw [execSegment, if_neg (by cases w <;> decide), htype]
  simp only [Segment.fend, Segment.mend, segment,
    show alignDown (wadd file.pma 0) (pagesize 1) = 2 ^ 20 by decide,
    show alignDown (2 ^ 22) (pagesize 1) = 2 ^ 22 by decide,
    show wsub (alignUp (wadd (2 ^ 22) 4096) (pagesize 1)) (2 ^ 22) = 4096 by decide, hout]
  exact if_neg (by decide)

/-- `exec` maps the page of the file. -/
theorem exec_file (h : HasFrames 3 fm) : ∃ t₁ fm', HasFrames 0 fm' ∧
    inWindow t₁ 1 (2 ^ 22) = true ∧ execSegments file ⟨0, 0, 0⟩ [segment] 0 (cloned k) fm =
      .ok (2 ^ 22 + 4096, setPE t₁ (1, 1024) (leaf 1 true (BitVec.ofNat 64 (2 ^ 20)) (code ||| US)),
        fm') := by
  obtain ⟨t₁, fm', h', hwin, hseg⟩ := execSegment_file (k := k) false h
  refine ⟨t₁, fm', h', hwin, ?_⟩
  rw [execSegments, if_neg (by decide),
    show execSegment file ⟨0, 0, 0⟩ (cloned k) fm segment = _ from hseg]
  rfl

/-- A machine of 2 MB with `n` free frames from frame `a` on, and a boot module in frame 256. -/
theorem booted_frames {a n : ℕ} (h : a + n ≤ 256 ∨ 256 < a ∧ a + n ≤ 512) :
    ∃ s₀ : System, Booted {256} s₀ ∧ FrameManager.Inv s₀.fm ∧ s₀.fm.lplock = false ∧
      ∀ f, s₀.fm.free f ↔ a ≤ f ∧ f < a + n := by
  have hrs : Regions (2 ^ 21) ([(a * sps, n * sps)] ++ []) := by
    refine ⟨?_, ?_, List.pairwise_singleton _ _⟩
    · simp [show sps = 4096 from rfl]
    · simp only [List.append_nil, List.mem_singleton, forall_eq, show sps = 4096 from rfl]
      omega
  obtain ⟨fm₀, hinit, hboot, hnone⟩ := booting_init (show 0 < 2 ^ 21 by decide) (by decide)
    ([(a * sps, n * sps)] ++ [])
  obtain ⟨fm, hrun, hbooted, -, hfree⟩ := Booting.run [(a * sps, n * sps)] hboot hrs
  refine ⟨⟨fm, fun _ => none⟩,
    ⟨⟨2 ^ 21, fm₀, [(a * sps, n * sps)], by decide, by decide, hinit, hrs, hrun,
    ?_⟩, fun _ => rfl⟩, hbooted.inv, hbooted.lplock, fun f => ?_⟩
  · rintro f rfl r hr
    obtain rfl := List.mem_singleton.mp hr
    rintro ⟨hle, hlt⟩
    rw [show sps = 4096 from rfl] at hle hlt
    omega
  · rw [hfree, or_iff_right (hnone f)]
    simp only [List.mem_singleton, exists_eq_left, inRegion, show sps = 4096 from rfl]
    omega

theorem exists_booted : ∃ s₀ : System, Booted {256} s₀ ∧ HasFrames 4 s₀.fm := by
  obtain ⟨s₀, hboot, hinv, hlp, hfree⟩ := booted_frames (a := 16) (n := 4) (.inl (by decide))
  refine ⟨s₀, hboot, hinv, hlp, (Finset.range 4).image (16 + ·), by decide, fun f hf => ?_⟩
  obtain ⟨i, hi, rfl⟩ := Finset.mem_image.mp hf
  have hi := Finset.mem_range.mp hi
  exact (hfree _).mpr ⟨by omega, by omega⟩

theorem create_of_alloc {a : ℕ} (halloc : s.fm.allocFrame 1 = .ok (a, fm')) (htop : a ≠ topaddr) :
    s.step (.create p k) = some ⟨fm', update s.proc p (some (created a k))⟩ := by
  rw [step, act, show s.fm.allocFrame pagetablepl = _ from halloc]
  simp only [if_neg htop]
  rfl

/-- `create` succeeds while there are frames. -/
theorem create_returns {n : ℕ} (h : HasFrames (n + 1) s.fm) : ∃ f s₁,
    s.step (.create p k) = some s₁ ∧ s₁.proc p = some (created (f * sps) k) ∧
      HasFrames n s₁.fm := by
  obtain ⟨f, fm', halloc, htop, h'⟩ := h.alloc
  exact ⟨f, _, create_of_alloc halloc htop, update_self _ _ _, h'⟩

theorem step_of_actOn (hq : s.proc p = some q) (ha : a.pid = some p) (hr : s.actOn p q a = .ok s') :
    s.step a = some s' := by
  rw [step, act_of_pid hq ha, hr]
  rfl

/-- A teardown queues the calls of `clearAll`. -/
theorem teardown_returns (hq : s.proc p = some q) : ∃ s₁ q', s.step (.teardown p) = some s₁ ∧
    s₁.fm = s.fm ∧ s₁.proc p = some q' ∧ q'.dying = true ∧ q'.pagetable = q.pagetable ∧ q'.queue =
      q.queue ++ (cleared q.t pagelevels 0 (userEntries pagelevels)).map (callOf q.t) := by
  refine ⟨_, _, step_of_actOn hq rfl rfl, rfl, proc_put_self _, rfl, rfl, ?_⟩
  rw [← (clearAll_spec pagelevels 0 (userEntries pagelevels) q.t).1]

/-- **Frames are released by whoever they were handed out to.**  In every run of processes whose
steps meet the condition, whatever is passed to `releaseFrame` next has been handed out and not been
released since, and no frame of a boot module is free. -/
theorem releaseFrame_of_handedOut {s₀ : System} (hboot : Booted files s₀) {as : List Action}
    (hrun : run step s₀ as = some s)
    (hguard : Guarded step (fun s a => s.Allowed {f | s₀.fm.free f} files a ∧
      s.Returns files a) s₀ as) :
    (∀ a, s.Allowed {f | s₀.fm.free f} files a → ∀ call ∈ s.releases a,
      ∀ f ∈ pageFrames call.1 call.2, f ∈ handedOut {f | s₀.fm.free f} s.fm) ∧
      ∀ f ∈ files, ¬ s.fm.free f := by
  obtain ⟨hfiles, hinv₀⟩ := hboot.inv
  have hinv : Inv {f | s₀.fm.free f} files s :=
    invariant_of_guarded (P := Inv _ files)
      (fun h hc hr => h.step hfiles hc.1 hc.2 hr) hinv₀ hguard hrun
  exact ⟨fun a ha call hcall f hf => hinv.releases ha hcall hf,
    fun f hf hfree => hinv.frames.not_lent hfiles hfree hf⟩

/-- A process with tables down to the page at `2 ^ 22`: `clearAll` finds what is present on the
way. -/
theorem mem_cleared_of_inWindow {N : ℕ} {e : PageEntry} (h : inWindow t 1 (2 ^ 22) = true)
    (hN : N = 1 ∨ N = 2) (hp : (setPE t (1, 1024) e N (index N (2 ^ 22))).present = true) :
    (N, index N (2 ^ 22)) ∈
      cleared (setPE t (1, 1024) e) pagelevels 0 (userEntries pagelevels) := by
  have hbelow : Below pagelevels 0 (N, index N (2 ^ 22)) := by
    rcases hN with rfl | rfl <;> exact ⟨by decide, by decide, by decide⟩
  refine mem_cleared_of_present hp _ le_rfl (by decide) hbelow fun M h1 h4 => ?_
  have hidx : index N (2 ^ 22) / pagetableentries ^ (M - N) = index M (2 ^ 22) := by
    obtain rfl | rfl | rfl : M = 2 ∨ M = 3 ∨ M = 4 := by
      unfold pagelevels at h4
      omega
    all_goals rcases hN with rfl | rfl <;> decide
  have hM : 1 < M := lt_of_le_of_lt hbelow.1 h1
  rw [setPE_of_ne _ _ (fun hc => hM.ne' hc.1), hidx]
  exact isTable_of_lt_walk (lt_of_le_of_lt (of_decide_eq_true h) hM) h4

/-- A process with a page that has not been touched: what its teardown releases are its tables. -/
theorem releaseFrame_of_handedOut_table : ∃ (s₀ s : System) (call : ℕ × ℕ), Booted {256} s₀ ∧
    run step s₀ [.create 0 (fun _ _ => 0), .mapPage 0 (2 ^ 22) false, .teardown 0] = some s ∧
      s.Allowed {f | s₀.fm.free f} {256} (.release 0 call) ∧
      ∀ f ∈ pageFrames call.1 call.2, f ∈ handedOut {f | s₀.fm.free f} s.fm := by
  obtain ⟨s₀, hboot, hframes⟩ := exists_booted
  obtain ⟨f, s₁, hcreate, hq₁, hframes₁⟩ := create_returns (p := 0) (k := fun _ _ => 0) hframes
  have hzero : ∀ {N i}, i < userEntries N → (created (f * sps) fun _ _ => 0).t N i = 0 := fun hi =>
    if_pos hi
  obtain ⟨t, fm, -, hwin, hpage⟩ := mapPage_empty .lazy 0 data
    (hzero (i := index pagelevels (2 ^ 22)) (by decide)) (by decide) rfl (by decide)
      (by decide) hframes₁
  obtain ⟨s₂, q₂, hmap, hq₂, ht₂, hlive₂, hpend₂⟩ : ∃ s₂ q₂,
      s₁.step (.mapPage 0 (2 ^ 22) false) = some s₂ ∧ s₂.proc 0 = some q₂ ∧ q₂.t = setPE t (1, 1024)
        (leaf 1 false (BitVec.ofNat 64 lazyPage.toNat) (data ||| US)) ∧ q₂.dying = false ∧
        q₂.pending = [] :=
    ⟨_, _, step_of_actOn hq₁ rfl (congrArg (Except.map _) hpage), proc_put_self _, rfl, rfl, rfl⟩
  obtain ⟨s₃, q₃, htear, -, hq₃, -, -, hqueue⟩ := teardown_returns hq₂
  -- the page itself is not present, and the tables of the process were empty
  have habsent : ∀ i < userEntries 1, (q₂.t 1 i).present = false := by
    intro i hi
    obtain ⟨a, fm₀, t₁, -, -, hbits, htab, -, heq⟩ := mapPage_eq_ok hpage
    have ht :
        q₂.t = setPE t₁ (1, index 1 (2 ^ 22)) (leaf 1 false (BitVec.ofNat 64 a) (data ||| US)) :=
      ht₂.trans heq
    rw [ht]
    by_cases hidx : i = index 1 (2 ^ 22)
    · rw [hidx, setPE_self]
      exact present_leaf hbits (by decide)
    · rw [setPE_of_ne _ _ fun hc => hidx hc.2]
      rcases mapTable_entry (by decide) i htab with hnew | hnew
      · rw [hnew, hzero hi]
        decide
      · rw [hnew]
        decide
  have hrun : run step s₀ [.create 0 (fun _ _ => 0), .mapPage 0 (2 ^ 22) false, .teardown 0] =
      some s₃ :=
    run_cons.mpr ⟨s₁, hcreate, run_cons.mpr ⟨s₂, hmap, run_cons.mpr ⟨s₃, htear, rfl⟩⟩⟩
  have hguard :
      Guarded step (fun s a => s.Allowed {f | s₀.fm.free f} {256} a ∧ s.Returns {256} a) s₀
      [.create 0 (fun _ _ => 0), .mapPage 0 (2 ^ 22) false, .teardown 0] := by
    refine ⟨⟨hboot.proc 0, trivial⟩, fun s' hs' => ?_⟩
    obtain rfl : s₁ = s' := Option.some.inj (hcreate.symm.trans hs')
    refine ⟨⟨⟨_, hq₁, rfl⟩, trivial⟩, fun s' hs' => ?_⟩
    obtain rfl : s₂ = s' := Option.some.inj (hmap.symm.trans hs')
    refine ⟨⟨⟨_, hq₂, hlive₂⟩, fun r hr => ?_⟩, fun _ _ => trivial⟩
    obtain rfl := Option.some.inj (hq₂.symm.trans hr)
    refine ⟨hpend₂, fun i hi hpres => ?_⟩
    rw [habsent i hi] at hpres
    cases hpres
  have hcall : callOf q₂.t (2, 2) ∈ q₃.queue := by
    rw [hqueue]
    refine List.mem_append_right _ (List.mem_map.mpr ⟨(2, 2), ?_, rfl⟩)
    rw [ht₂]
    refine mem_cleared_of_inWindow hwin (.inr rfl) ?_
    rw [setPE_of_ne _ _ (by simp)]
    exact present_of_isTable (isTable_of_lt_walk
      (lt_of_le_of_lt (of_decide_eq_true hwin) (by decide : 1 < 2)) (by decide))
  have hallowed : s₃.Allowed {f | s₀.fm.free f} {256} (.release 0 (callOf q₂.t (2, 2))) :=
    ⟨q₃, hq₃, hcall⟩
  exact ⟨s₀, s₃, _, hboot, hrun, hallowed,
    (releaseFrame_of_handedOut hboot hrun hguard).1 _ hallowed _ (List.mem_singleton_self _)⟩

/-- The process of `exec_file` has the page of the file where `clearAll` finds it. -/
theorem file_page_cleared (h : inWindow t 1 (2 ^ 22) = true) :
    (1, 2 ^ 20) ∈
      (cleared (setPE t (1, 1024) (leaf 1 true (BitVec.ofNat 64 (2 ^ 20)) (code ||| US)))
        pagelevels 0 (userEntries pagelevels)).map
        (callOf (setPE t (1, 1024) (leaf 1 true (BitVec.ofNat 64 (2 ^ 20)) (code ||| US)))) := by
  have hbits : BitVec.ofNat 64 (2 ^ 20) &&& ~~~ADDR = 0 := by decide
  have hflags : (code ||| US) &&& (P ||| PS ||| ADDR) = 0 := by decide
  refine List.mem_map.mpr ⟨(1, 1024), mem_cleared_of_inWindow h (.inl rfl) ?_, ?_⟩
  · rw [show index 1 (2 ^ 22) = 1024 by decide, setPE_self]
    exact present_leaf hbits hflags
  · rw [callOf, setPE_self, addr_leaf hbits hflags]
    rfl

/-- **`clearAll` releases what the process never owned.**  The process runs a file of one page; its
teardown passes the frame of the boot module to `releaseFrame`, and then it is free. -/
theorem file_frame_released : ∃ s₀ s s' : System, Booted {256} s₀ ∧
    run step s₀ [.create 0 (fun _ _ => 0), .exec 0 file [segment], .teardown 0] = some s ∧
    Guarded step (fun s a => s.Allowed {f | s₀.fm.free f} {256} a) s₀
      [.create 0 (fun _ _ => 0), .exec 0 file [segment], .teardown 0] ∧
    s.Allowed {f | s₀.fm.free f} {256} (.release 0 (1, 2 ^ 20)) ∧
    (1, 2 ^ 20) ∈ s.releases (.release 0 (1, 2 ^ 20)) ∧ 256 ∈ pageFrames 1 (2 ^ 20) ∧
    256 ∉ handedOut {f | s₀.fm.free f} s.fm ∧
    s.step (.release 0 (1, 2 ^ 20)) = some s' ∧ s'.fm.free 256 := by
  obtain ⟨s₀, hboot, hframes⟩ := exists_booted
  obtain ⟨hfiles, hinv₀⟩ := hboot.inv
  obtain ⟨f, s₁, hcreate, hq₁, hframes₁⟩ := create_returns (p := 0) (k := fun _ _ => 0) hframes
  obtain ⟨t, fm, hframes₂, hwin, hexec⟩ := exec_file (k := fun _ _ => 0) hframes₁
  have hallowed : s₁.Allowed {f | s₀.fm.free f} {256} (.exec 0 file [segment]) :=
    ⟨⟨_, hq₁, rfl⟩, by decide, file_frames.subset, by simp [segment, wordSize]⟩
  obtain ⟨s₂, q₂, hexec, hq₂, hfm₂, ht₂, hdying₂⟩ :
      ∃ s₂ q₂, s₁.step (.exec 0 file [segment]) = some s₂ ∧ s₂.proc 0 = some q₂ ∧ s₂.fm = fm ∧
      q₂.t = setPE t (1, 1024) (leaf 1 true (BitVec.ofNat 64 (2 ^ 20))
        (code ||| US)) ∧ q₂.dying = false :=
    ⟨_, _, step_of_actOn hq₁ rfl (congrArg (Except.map _) hexec), proc_put_self _, rfl, rfl, rfl⟩
  obtain ⟨s₃, q₃, htear, hfm₃, hq₃, -, -, hqueue⟩ := teardown_returns hq₂
  -- up to the teardown nothing has gone wrong
  have hinv₁ := hinv₀.step hfiles (a := .create 0 fun _ _ => 0) (hboot.proc 0) trivial hcreate
  have hinv₂ := hinv₁.step hfiles hallowed (by simp [Returns, segment, wordSize]) hexec
  have hmem : (1, 2 ^ 20) ∈ q₃.queue := by
    rw [hqueue, ht₂]
    exact List.mem_append_right _ (file_page_cleared hwin)
  have hnot : ¬ s₃.fm.free 256 := fun hf => hinv₂.frames.not_lent hfiles (hfm₃ ▸ hf) rfl
  have hin : 2 ^ 20 / dps < s₃.fm.bitcount := by
    obtain ⟨S, hcard, hS⟩ := hframes.frames
    obtain ⟨g, hg⟩ : S.Nonempty := Finset.card_pos.mp (by omega)
    exact hfm₃ ▸ lt_of_le_of_lt (by decide) (Nat.zero_lt_of_lt (hinv₂.frames.inRange g (hS g hg)))
  rw [← hfm₂, ← hfm₃] at hframes₂
  obtain ⟨fm', hrel⟩ :=
    releaseFrame1_returns (show 2 ^ 20 % sps = 0 by decide) hframes₂.inv.unlocked
    hframes₂.lplock
  refine ⟨s₀, s₃, _, hboot, run_cons.mpr ⟨s₁, hcreate, run_cons.mpr
    ⟨s₂, hexec, run_cons.mpr ⟨s₃, htear, rfl⟩⟩⟩, ⟨hboot.proc 0, fun s' hs' => ?_⟩, ⟨q₃, hq₃, hmem⟩,
      List.mem_singleton_self _, mem_pageFrames_one.mpr rfl, fun hout => hfiles 256 rfl hout.1,
      step_of_actOn hq₃ rfl (congrArg (Except.map _) hrel),
      ((releaseFrame1_spec hframes₂.inv hin hnot hrel).free 256).mpr (Or.inr rfl)⟩
  obtain rfl : s₁ = s' := Option.some.inj (hcreate.symm.trans hs')
  refine ⟨hallowed, fun s' hs' => ⟨?_, fun _ _ => trivial⟩⟩
  obtain rfl : s₂ = s' := Option.some.inj (hexec.symm.trans hs')
  exact ⟨q₂, hq₂, hdying₂⟩

end System

end Kos
