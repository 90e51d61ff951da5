import KosKernel.Kernel.Syscalls
import KosKernel.Kernel.UserMemory
import Mathlib.Logic.Relation

/-!
# Kernel/FreshPages — what a process finds in a new page

Neither `releaseFrame` nor `allocFrame` nor `fault` clears a frame, so a process reads in a page
that it has just got what the process before it has stored there (`secret_read`).

Two runs that differ only in the data that the process `P` stores have the same tables and the same
free frames. Their memories differ in frames that only `P` has seen (`Private`), and this stays so
as long as a frame has the same contents in both runs when it goes back to the frame manager.  Then
no other process can tell the runs apart by its own pages (`fresh_pages_alike`).
-/

namespace Kos

open Function Runs Paging PageEntry AddressSpace FrameManager Ownership

variable {x n : ℕ} {rf : RamFile} {area : VmArea}

namespace System

variable {pool files : Set ℕ} {s s' : System} {P p f : ℕ} {q : Proc} {t t' : Tables}
  {fm fm' : FrameManager}
  {a : Action}

/-! ## Operations that only take frames -/

/-- `fm'` is `fm` after calls of `allocFrame`. -/
def Allocates : FrameManager → FrameManager → Prop :=
  Relation.ReflTransGen fun fm fm' => ∃ N a, fm.allocFrame N = .ok (a, fm')

theorem Allocates.free (ha : Allocates fm fm') (h : PoolOk pool fm) :
    PoolOk pool fm' ∧ ∀ f, fm'.free f → fm.free f := by
  induction ha with
  | refl => exact ⟨h, fun _ hf => hf⟩
  | tail _ hstep ih =>
    obtain ⟨N, a, hr⟩ := hstep
    obtain ⟨hpool, hfree, -⟩ := ih.1.alloc hr
    exact ⟨hpool, fun f hf => ih.2 f (hfree f hf)⟩

theorem mapTable_allocates {d : ℕ} {b : Bool} (h : mapTable d t x fm = .ok (b, t', fm')) :
    Allocates fm fm' := by
  induction d generalizing b t' fm' with
  | zero =>
    cases h
    exact .refl
  | succ d ih =>
    obtain ⟨-, h₁⟩ | ⟨_, _, _, -, h₁, ⟨-, -, -, rfl⟩ | ⟨-, -, _, halloc, -⟩⟩ := mapTable_cases h
    · exact ih h₁
    · exact ih h₁
    · exact (ih h₁).tail ⟨_, _, halloc⟩

theorem mapPage_allocates {mc : MapCode} {pma : ℕ} {type : PageEntry}
    (h : AddressSpace.mapPage 1 mc true t fm pma x type = .ok (t', fm')) : Allocates fm fm' := by
  obtain ⟨a, fm₀, t₁, hframe, -, -, htab, -⟩ := mapPage_eq_ok h
  have h₀ : Allocates fm fm₀ := by
    cases mc with
    | alloc => exact .single ⟨1, a, hframe⟩
    | _ =>
      cases hframe
      exact .refl
  exact h₀.trans (mapTable_allocates htab)

theorem mapPages_allocates {mc : MapCode} {pma : ℕ} {type : PageEntry}
    (h : mapPages 1 mc true n t fm pma x type = .ok (t', fm')) : Allocates fm fm' :=
  mapPages_invariant (P := fun _ fm₁ => Allocates fm fm₁)
    (fun h₁ hpage => h₁.trans (mapPage_allocates hpage)) .refl h

theorem execSegment_allocates {seg : Segment} (h : execSegment rf area t fm seg = .ok (t', fm')) :
    Allocates fm fm' := by
  unfold execSegment at h
  split at h
  · cases h
  dsimp only at h
  split at h
  · cases h
  rename_i hfile
  have h₁ := mapPages_allocates (mapOutside_eq_ok hfile)
  split at h
  · exact h₁.trans (mapPages_allocates (mapOutside_eq_ok h))
  · cases h
    exact h₁

theorem execSegments_allocates {segs : List Segment} {b b' : ℕ}
    (h : execSegments rf area segs b t fm = .ok (b', t', fm')) : Allocates fm fm' := by
  induction segs generalizing b b' t fm with
  | nil =>
    cases h
    exact .refl
  | cons seg segs ih =>
    rw [execSegments] at h
    split at h
    · exact ih h
    · split at h
      · cases h
      · rename_i hseg
        exact (execSegment_allocates hseg).trans (ih h)

theorem fault_allocates {b : Bool} (h : Paging.fault t x fm = .ok (b, t', fm')) :
    Allocates fm fm' := by
  rcases fault_spec h with ⟨-, rfl⟩ | ⟨N, e, pma, -, -, -, -, halloc, -⟩
  · exact .refl
  · exact .single ⟨N, pma, halloc⟩

/-- The level of what is released on behalf of a process. -/
theorem releaseFrame_free (h : Inv pool files s) {k : Slot} (hk : s.heldAt k = some (x / sps))
    (hne : ∀ p i, k ≠ .entry p 1 i) (hr : s.fm.releaseFrame 1 x = .ok fm') (hf : fm'.free f) :
    s.fm.free f ∨ f ∈ pageFrames 1 x := by
  obtain ⟨hin, hout⟩ := h.owned.out hk (h.not_lent hk hne)
  rw [mem_pageFrames_one]
  exact ((releaseFrame1_spec h.frames.inv (div_dps x ▸ h.frames.inRange _ hin) hout hr).free f).mp
    hf

/-- **What is free after a step** was free before it or has been released in it. -/
theorem Inv.free_of_act (h : Inv pool files s) (ha : s.Allowed pool files a) (hr : s.act a = .ok s')
    (hf : s'.fm.free f) : s.fm.free f ∨ ∃ call ∈ s.releases a, f ∈ pageFrames call.1 call.2 := by
  have hof : Allocates s.fm s'.fm → s.fm.free f := fun hall => (hall.free h.frames).2 f hf
  cases a with
  | create p k =>
    simp only [act] at hr
    split at hr
    · cases hr
    rename_i halloc
    split at hr
    · cases hr
    · cases hr
      exact .inl (hof (.single ⟨_, _, halloc⟩))
  | exec p rf segs =>
    obtain ⟨⟨q, hq, -⟩, -⟩ := ha
    obtain ⟨⟨b, t, fm⟩, hexec, rfl⟩ := Fault.map_eq_ok (actOn_of_act hr hq rfl)
    exact .inl (hof (execSegments_allocates hexec))
  | mapPage p vma guard =>
    obtain ⟨q, hq, -⟩ := ha
    obtain ⟨⟨t, fm⟩, hmap, rfl⟩ := Fault.map_eq_ok (actOn_of_act hr hq rfl)
    exact .inl (hof (mapPage_allocates hmap))
  | fault p vma =>
    obtain ⟨q, hq, -⟩ := ha
    obtain ⟨⟨b, t, fm⟩, hfault, rfl⟩ := Fault.map_eq_ok (actOn_of_act hr hq rfl)
    exact .inl (hof (fault_allocates hfault))
  | unmapPage p vma posted =>
    obtain ⟨q, hq, -⟩ := ha
    obtain ⟨r, -, rfl⟩ := Fault.map_eq_ok (actOn_of_act hr hq rfl)
    exact .inl hf
  | unmapPage2 p pe =>
    obtain ⟨q, hq, -⟩ := ha
    obtain rfl := Except.ok.inj (actOn_of_act hr hq rfl)
    exact .inl hf
  | finish p pe =>
    obtain ⟨q, hq, -⟩ := ha
    obtain rfl := Except.ok.inj (actOn_of_act hr hq rfl)
    exact .inl hf
  | teardown p =>
    obtain ⟨q, hq, -⟩ := ha
    obtain rfl := Except.ok.inj (actOn_of_act hr hq rfl)
    exact .inl hf
  | release p call =>
    obtain ⟨q, hq, hmem⟩ := ha
    obtain ⟨fm, hrel, rfl⟩ := Fault.map_eq_ok (actOn_of_act hr hq rfl)
    have hone := ((h.proc hq).calls call hmem).1
    rw [hone] at hrel
    refine (releaseFrame_free h ((heldAt_queued hq call).trans (if_pos hmem))
      (fun _ _ hc => by cases hc) hrel hf).imp_right fun hf => ⟨call, List.mem_singleton_self _, ?_⟩
    rw [hone]
    exact hf
  | delete p =>
    obtain ⟨q, hq, -⟩ := ha
    obtain ⟨fm, hrel, rfl⟩ := Fault.map_eq_ok (actOn_of_act hr hq rfl)
    refine (releaseFrame_free h (heldAt_root hq) (fun _ _ hc => by cases hc) hrel hf).imp_right
      fun hf => ?_
    exact ⟨(pagetablepl, q.pagetable), by simp [System.releases, hq], hf⟩
  | kernelAlloc N =>
    obtain ⟨⟨x, fm⟩, halloc, rfl⟩ := Fault.map_eq_ok hr
    exact .inl (hof (.single ⟨_, _, halloc⟩))
  | kernelRelease N addr =>
    obtain ⟨fm', hrel, rfl⟩ := Fault.map_eq_ok hr
    obtain ⟨hN, -, hout⟩ := ha
    exact (((releaseFrame_kernel h hN hout hrel).free f).mp hf).imp_right fun hf =>
      ⟨(N, addr), List.mem_singleton_self _, hf⟩

/-! ## The system without one process -/

def without (P : ℕ) (s : System) : System := { s with proc := update s.proc P none }

theorem without_put (hne : p ≠ P) (r : Tables × FrameManager) :
    (s.without P).put p q r = (s.put p q r).without P :=
  congrArg (System.mk r.2) (update_comm hne.symm _ _ _)

/-- The other processes do not notice. -/
theorem actOn_without (hne : p ≠ P) (hr : s.actOn p q a = .ok s') :
    (s.without P).actOn p q a = .ok (s'.without P) := by
  cases a with
  | create p k => exact congrArg _ (congrArg _ (Except.ok.inj hr))
  | kernelAlloc N => exact congrArg _ (congrArg _ (Except.ok.inj hr))
  | kernelRelease N addr => exact congrArg _ (congrArg _ (Except.ok.inj hr))
  | unmapPage2 p pe =>
    cases hr
    exact congrArg _ (without_put hne _)
  | finish p pe =>
    cases hr
    exact congrArg _ (without_put hne _)
  | teardown p =>
    cases hr
    exact congrArg _ (without_put hne _)
  | delete p =>
    obtain ⟨fm', hrel, rfl⟩ := Fault.map_eq_ok hr
    refine (congrArg (Except.map _) hrel).trans (congrArg _ (congrArg (System.mk fm') ?_))
    exact update_comm hne.symm _ _ _
  | exec p rf segs =>
    obtain ⟨⟨b, t, fm⟩, hok, rfl⟩ := Fault.map_eq_ok hr
    exact (congrArg (Except.map _) hok).trans (congrArg _ (without_put hne _))
  | fault p vma =>
    obtain ⟨⟨b, t, fm⟩, hok, rfl⟩ := Fault.map_eq_ok hr
    exact (congrArg (Except.map _) hok).trans (congrArg _ (without_put hne _))
  | unmapPage p vma posted =>
    obtain ⟨⟨pe, t⟩, hok, rfl⟩ := Fault.map_eq_ok hr
    exact (congrArg (Except.map _) hok).trans (congrArg _ (without_put hne _))
  | mapPage p vma guard =>
    obtain ⟨r, hok, rfl⟩ := Fault.map_eq_ok hr
    exact (congrArg (Except.map _) hok).trans (congrArg _ (without_put hne _))
  | release p call =>
    obtain ⟨fm, hok, rfl⟩ := Fault.map_eq_ok hr
    exact (congrArg (Except.map _) hok).trans (congrArg _ (without_put hne _))

theorem heldAt_without {k : Slot} : (s.without P).heldAt k = some f ↔
      k.pid ≠ P ∧ s.heldAt k = some f := by
  by_cases hk : k.pid = P
  · have hnone : (s.without P).proc k.pid = none := by rw [hk]; exact update_self _ _ _
    refine iff_of_false (fun h => ?_) fun h => h.1 hk
    cases k with
    | _ =>
      simp only [Slot.pid] at hnone
      simp [heldAt, hnone] at h
  · rw [heldAt_of_proc (show (s.without P).proc k.pid = s.proc k.pid from update_of_ne hk _ _)]
    exact (and_iff_right hk).symm

/-! ## Frames that only one process has seen -/

/-- No process but `P` has the frame, and it cannot be handed out. -/
def Private (P : ℕ) (s : System) (f : ℕ) : Prop :=
  ¬ s.fm.free f ∧ ∀ k : Slot, k.pid ≠ P → s.heldAt k ≠ some f

/-- For the other processes, such a frame need not be in the pool. -/
theorem Inv.without (h : Inv pool files s) (hf : Private P s f) :
    Inv (pool \ {f}) files (s.without P) := by
  have hout : ∀ {k g}, (s.without P).heldAt k = some g → g ∈ handedOut pool s.fm →
      g ∈ handedOut (pool \ {f}) s.fm := by
    rintro k g hk ⟨hg, hfree⟩
    obtain ⟨hne, hk⟩ := heldAt_without.mp hk
    refine ⟨⟨hg, ?_⟩, hfree⟩
    rintro rfl
    exact hf.2 k hne hk
  refine ⟨⟨h.frames.inv, fun g hg => h.frames.small g hg.1, fun g hg => h.frames.inRange g hg.1,
    fun g hg => ?_⟩, fun {p q} hq => ?_, ?_, fun hk => h.lent (heldAt_without.mp hk).2⟩
  · refine ⟨h.frames.free g hg, ?_⟩
    rintro rfl
    exact hf.1 hg
  · by_cases hp : p = P
    · rw [hp, show (s.without P).proc P = none from update_self _ _ _] at hq
      cases hq
    · exact h.proc ((update_of_ne hp _ _).symm.trans hq)
  · exact (h.owned.drop fun hk => (heldAt_without.mp hk).2).change hout

/-- A frame outside of the pool is never handed out. -/
theorem Inv.private_of_without (h : Inv (pool \ {f}) files (s.without P)) (hf : f ∉ files) :
    Private P s f :=
  ⟨fun hfree => (h.frames.free f hfree).2 rfl,
    fun _ hk hheld => (h.owned.out (heldAt_without.mpr ⟨hk, hheld⟩) hf).1.2 rfl⟩

theorem proc_actOn {p' : ℕ} (hne : p' ≠ p) (hr : s.actOn p q a = .ok s') :
    s'.proc p' = s.proc p' := by
  have hput : ∀ {q : Proc} {r : Tables × FrameManager}, (s.put p q r).proc p' = s.proc p' :=
    proc_put_of_ne hne _
  cases a with
  | create p k => exact congrArg (System.proc · p') (Except.ok.inj hr).symm
  | kernelAlloc N => exact congrArg (System.proc · p') (Except.ok.inj hr).symm
  | kernelRelease N addr => exact congrArg (System.proc · p') (Except.ok.inj hr).symm
  | unmapPage2 p pe => exact Except.ok.inj hr ▸ hput
  | finish p pe => exact Except.ok.inj hr ▸ hput
  | teardown p => exact Except.ok.inj hr ▸ hput
  | delete p =>
    obtain ⟨fm', -, rfl⟩ := Fault.map_eq_ok hr
    exact update_of_ne hne _ _
  | _ =>
    obtain ⟨r, -, rfl⟩ := Fault.map_eq_ok hr
    exact hput

/-- A process that acts exists. -/
theorem exists_proc (ha : a.pid = some p) (h : s.Allowed pool files a) :
    ∃ q, s.proc p = some q := by
  cases a with
  | create => cases ha
  | kernelAlloc => cases ha
  | kernelRelease => cases ha
  | exec =>
    cases ha
    obtain ⟨⟨q, hq, -⟩, -⟩ := h
    exact ⟨q, hq⟩
  | _ =>
    cases ha
    obtain ⟨q, hq, -⟩ := h
    exact ⟨q, hq⟩

/-- What an action says about one process can be said without the others. -/
theorem allowed_without (hne : p ≠ P) (ha : a.pid = some p) (h : s.Allowed pool files a)
    (hc : s.Returns files a) :
    (s.without P).Allowed (pool \ {f}) files a ∧ (s.without P).Returns files a := by
  have hproc : (s.without P).proc p = s.proc p := update_of_ne hne _ _
  cases a with
  | create => cases ha
  | kernelAlloc => cases ha
  | kernelRelease => cases ha
  | _ =>
    cases ha
    simp only [Allowed, Returns, live, hproc] at h hc ⊢
    exact ⟨h, hc⟩

theorem heldAt_of_create {k : Tables} (h : Inv pool files s) (hp : s.proc p = none)
    (hr : s.act (.create p k) = .ok s') {κ : Slot} (hκ : s'.heldAt κ = some f) :
    s.heldAt κ = some f ∨ s.fm.free f := by
  simp only [act] at hr
  split at hr
  · cases hr
  rename_i halloc
  split at hr
  · cases hr
  rename_i htop
  cases hr
  obtain ⟨-, -, hone⟩ := h.frames.alloc halloc
  obtain ⟨g, rfl, -, hfree, -⟩ := hone rfl htop
  refine (heldAt_create hp hκ).imp_right ?_
  rintro ⟨-, rfl⟩
  exact hfree

/-- **A private frame stays private** until it is released. -/
theorem Private.step (hfiles : ∀ f ∈ files, f ∉ pool) (hinv : Inv pool files s) (h : Private P s f)
    (hf : f ∉ files) (ha : s.Allowed pool files a) (hc : s.Returns files a)
    (hr : s.step a = some s')
    (hkept : (∀ p, a.pid = some p → p = P) → ∀ call ∈ s.releases a, f ∉ pageFrames call.1 call.2) :
    Private P s' f := by
  have hact : s.act a = .ok s' := Fault.toOption_eq_some hr
  by_cases hP : ∀ p, a.pid = some p → p = P
  · have hfree : ¬ s'.fm.free f := by
      intro hfree
      rcases hinv.free_of_act ha hact hfree with hfree | ⟨call, hcall, hin⟩
      · exact h.1 hfree
      · exact hkept hP call hcall hin
    refine ⟨hfree, fun k hk hheld => ?_⟩
    have hproc : s'.proc k.pid = s.proc k.pid → False :=
      fun heq => h.2 k hk ((heldAt_of_proc heq).symm.trans hheld)
    cases a with
    | create p t => exact (heldAt_of_create hinv ha hact hheld).elim (h.2 k hk) h.1
    | kernelAlloc N =>
      obtain ⟨r, -, rfl⟩ := Fault.map_eq_ok hact
      exact hproc rfl
    | kernelRelease N addr =>
      obtain ⟨r, -, rfl⟩ := Fault.map_eq_ok hact
      exact hproc rfl
    | _ =>
      obtain ⟨q, hq⟩ : ∃ q, s.proc P = some q := exists_proc (hP _ rfl ▸ rfl) ha
      exact hproc (proc_actOn hk (actOn_of_act hact hq (hP _ rfl ▸ rfl)))
  · -- another process acts, for which the frame might as well not exist
    obtain ⟨p, hp⟩ := not_forall.mp hP
    obtain ⟨hp, hne⟩ := Classical.not_imp.mp hp
    obtain ⟨q, hq⟩ := exists_proc hp ha
    obtain ⟨hallowed, hreturns⟩ := allowed_without (f := f) hne hp ha hc
    have hstep : (s.without P).step a = some (s'.without P) :=
      step_of_actOn ((update_of_ne hne _ _).trans hq) hp
        (actOn_without hne (actOn_of_act hact hq hp))
    exact ((hinv.without h).step (fun g hg hin => hfiles g hg hin.1) hallowed hreturns
      hstep).private_of_without hf

end System

namespace Machine

variable {pool files : Set ℕ} {P : ℕ} {s s' t t' : Machine}

/-! ## `exec` in two memories -/

theorem memset_alike {t : Tables} {byte : BitVec 8} {vma : ℕ} {mem₁ mem₂ mem₁' mem₂' : Bytes}
    (h₁ : memset t byte n vma mem₁ = .ok mem₁') (h₂ : memset t byte n vma mem₂ = .ok mem₂') {x}
    (hx : mem₁ x = mem₂ x) : mem₁' x = mem₂' x := by
  induction n generalizing vma mem₁ mem₂ mem₁' mem₂' x with
  | zero =>
    cases h₁
    cases h₂
    exact hx
  | succ n ih =>
    rw [memset] at h₁ h₂
    split at h₁
    · cases h₁
    rename_i a ha
    rw [ha] at h₂
    refine ih h₁ h₂ ?_
    simp only [update_apply, hx]

variable {fm : FrameManager}

theorem loadSegment_alike {seg : Segment} {t t₁ t₂ : Tables} {fm₁ fm₂ : FrameManager}
    {mem₁ mem₂ mem₁' mem₂' : Bytes} (h₁ : loadSegment rf area t fm mem₁ seg = .ok (t₁, fm₁, mem₁'))
    (h₂ : loadSegment rf area t fm mem₂ seg = .ok (t₂, fm₂, mem₂')) :
    t₂ = t₁ ∧ fm₂ = fm₁ ∧ ∀ {x}, mem₁ x = mem₂ x → mem₁' x = mem₂' x := by
  unfold loadSegment at h₁ h₂
  split at h₁
  · cases h₁
  rename_i hexec
  rw [hexec] at h₂
  dsimp only at h₂
  split at h₁
  · rename_i hbss
    rw [if_pos hbss] at h₂
    obtain ⟨m₁, hset₁, heq₁⟩ := Fault.map_eq_ok h₁
    obtain ⟨m₂, hset₂, heq₂⟩ := Fault.map_eq_ok h₂
    cases heq₁
    cases heq₂
    exact ⟨rfl, rfl, memset_alike hset₁ hset₂⟩
  · rename_i hbss
    rw [if_neg hbss] at h₂
    cases h₁
    cases h₂
    exact ⟨rfl, rfl, fun hx => hx⟩

/-- **`exec` makes no new difference.** -/
theorem loadSegments_alike {segs : List Segment} {b b₁ b₂ : ℕ} {t t₁ t₂ : Tables}
    {fm₁ fm₂ : FrameManager} {mem₁ mem₂ mem₁' mem₂' : Bytes}
    (h₁ : loadSegments rf area segs b t fm mem₁ = .ok (b₁, t₁, fm₁, mem₁'))
    (h₂ : loadSegments rf area segs b t fm mem₂ = .ok (b₂, t₂, fm₂, mem₂')) {x}
    (hx : mem₁ x = mem₂ x) : mem₁' x = mem₂' x := by
  induction segs generalizing b b₁ b₂ t t₁ t₂ fm fm₁ fm₂ mem₁ mem₂ mem₁' mem₂' x with
  | nil =>
    cases h₁
    cases h₂
    exact hx
  | cons seg segs ih =>
    rw [loadSegments] at h₁ h₂
    split at h₁
    · rename_i hload
      rw [if_pos hload] at h₂
      exact ih h₁ h₂ hx
    · rename_i hload
      rw [if_neg hload] at h₂
      split at h₁
      · cases h₁
      rename_i hseg₁
      split at h₂
      · cases h₂
      rename_i hseg₂
      obtain ⟨rfl, rfl, hmem⟩ := loadSegment_alike hseg₁ hseg₂
      exact ih h₁ h₂ (hmem hx)

/-! ## Two runs -/

/-- What `Kernel/ProcessRuns` asks of a step. -/
def Lawful (pool files : Set ℕ) (s : Machine) : Action → Prop
  | .sys a => s.sys.Allowed pool files a ∧ s.sys.Returns files a
  | .store _ _ _ => True

/-- The same action, or two stores of `P` to the same address. -/
def Twin (P : ℕ) (a a' : Action) : Prop :=
  a = a' ∨ ∃ vma byte byte', a = .store P vma byte ∧ a' = .store P vma byte'

/-- The frames that `P` or the kernel gives back have the same contents in both runs. -/
def Wiped (P : ℕ) (s s' : Machine) : Action → Prop
  | .sys a => (∀ p, a.pid = some p → p = P) → ∀ call ∈ s.sys.releases a,
      ∀ x, x / sps ∈ System.pageFrames call.1 call.2 → s.mem x = s'.mem x
  | .store _ _ _ => True

/-- The condition on a step of two runs that differ in the data of `P`. -/
structure Discreet (pool files : Set ℕ) (P : ℕ) (s : Machine × Machine) (a : Action × Action) :
    Prop where
  twin : Twin P a.1 a.2
  lawful : s.1.Lawful pool files a.1
  wiped : Wiped P s.1 s.2 a.1

/-- **The invariant**: the memories differ in files and in what only `P` has seen. -/
structure Alike (pool files : Set ℕ) (P : ℕ) (s : Machine × Machine) : Prop where
  sys : s.2.sys = s.1.sys
  inv : System.Inv pool files s.1.sys
  bytes : ∀ x, s.1.mem x = s.2.mem x ∨ x / sps ∈ files ∨ System.Private P s.1.sys (x / sps)

variable {a : System.Action}

/-- A step of the system makes no new difference. -/
theorem mem_alike (hsys : s'.sys = s.sys) (hr : s.step (.sys a) = some t)
    (hr' : s'.step (.sys a) = some t') (hx : s.mem x = s'.mem x) : t.mem x = t'.mem x := by
  by_cases hexec : ∃ p rf segs, a = .exec p rf segs
  · obtain ⟨p, rf, segs, rfl⟩ := hexec
    obtain ⟨q, b, _, _, hq, hload, -⟩ := step_exec hr
    obtain ⟨q', b', _, _, hq', hload', -⟩ := step_exec hr'
    rw [hsys] at hq' hload'
    obtain rfl := Option.some.inj (hq.symm.trans hq')
    exact loadSegments_alike hload hload' hx
  · rw [(step_sys hr).2.resolve_left hexec, (step_sys hr').2.resolve_left hexec]
    exact hx

theorem Alike.sys_step {u v : Machine × Machine} (hfiles : ∀ f ∈ files, f ∉ pool)
    (h : Alike pool files P u) (hlawful : u.1.Lawful pool files (.sys a))
    (hwiped : Wiped P u.1 u.2 (.sys a)) (hr : u.1.step (.sys a) = some v.1)
    (hr' : u.2.step (.sys a) = some v.2) : Alike pool files P v := by
  obtain ⟨hsys, -⟩ := step_sys hr
  obtain ⟨hsys', -⟩ := step_sys hr'
  rw [h.sys] at hsys'
  refine ⟨Option.some.inj (hsys'.symm.trans hsys), h.inv.step hfiles hlawful.1 hlawful.2 hsys,
    fun x => ?_⟩
  by_cases hx : u.1.mem x = u.2.mem x
  · exact .inl (mem_alike h.sys hr hr' hx)
  · by_cases hfile : x / sps ∈ files
    · exact .inr (.inl hfile)
    · have hpriv := ((h.bytes x).resolve_left hx).resolve_left hfile
      refine .inr (.inr (hpriv.step hfiles h.inv hfile hlawful.1 hlawful.2 hsys ?_))
      exact fun hP call hcall hin => hx (hwiped hP call hcall x hin)

variable {sys : System} {p : ℕ} {q : Proc}

/-- A page of `P` is private. -/
theorem private_of_target {vma a : ℕ} (hfiles : ∀ f ∈ files, f ∉ pool)
    (h : System.Inv pool files sys) (hq : sys.proc p = some q) (ha : target q vma = some a) :
    a / sps ∈ files ∨ System.Private p sys (a / sps) := by
  rw [target, Option.ite_none_right_eq_some] at ha
  obtain ⟨⟨hlive, hvma, -⟩, ha⟩ := ha
  obtain ⟨-, hheld⟩ := held_of_translate h hq hlive hvma ha
  by_cases hfile : a / sps ∈ files
  · exact .inl hfile
  · refine .inr ⟨fun hfree => h.not_held hfiles hfree _ hheld, fun k hk hk' => hk ?_⟩
    rw [h.owned.unique hfile hk' hheld]
    rfl

/-- **A step keeps the invariant.** -/
theorem Alike.step {u v : Machine × Machine} {a : Action × Action} (hfiles : ∀ f ∈ files, f ∉ pool)
    (h : Alike pool files P u) (hc : Discreet pool files P u a)
    (hr : both Machine.step u a = some v) : Alike pool files P v := by
  obtain ⟨a, a'⟩ := a
  obtain ⟨hr, hr'⟩ := both_eq_some.mp hr
  obtain ⟨htwin, hlawful, hwiped⟩ := hc
  cases a with
  | sys b =>
    obtain rfl : a' = .sys b := by
      rcases htwin with heq | ⟨_, _, _, heq, -⟩
      · exact heq.symm
      · cases heq
    exact h.sys_step hfiles hlawful hwiped hr hr'
  | store p vma byte =>
    obtain ⟨byte', rfl, hdata⟩ : ∃ byte', a' = .store p vma byte' ∧ (byte = byte' ∨ p = P) := by
      rcases htwin with heq | ⟨_, _, byte', heq, heq'⟩
      · exact ⟨byte, heq.symm, .inl rfl⟩
      · cases heq
        exact ⟨byte', heq', .inr rfl⟩
    obtain ⟨q, x₀, hq, hx₀, hv⟩ := step_store hr
    obtain ⟨q', x₀', hq', hx₀', hv'⟩ := step_store hr'
    rw [h.sys, hq] at hq'
    cases hq'
    obtain rfl := Option.some.inj (hx₀.symm.trans hx₀')
    rw [← Prod.mk.eta (p := v), hv, hv']
    refine ⟨h.sys, h.inv, fun x => ?_⟩
    by_cases hx : x = x₀
    · subst hx
      rcases hdata with rfl | rfl
      · exact .inl (by simp)
      · exact .inr (private_of_target hfiles h.inv hq hx₀)
    · simp only [update_of_ne hx]
      exact h.bytes x

/-- **No process sees in its own pages what `P` has stored.**  In two runs that differ only in the
data that `P` stores, and whose steps meet the condition, every other process reads the same at
every address that is not in a page of a file. -/
theorem fresh_pages_alike {s₀ : Machine} (hboot : System.Booted files s₀.sys)
    {as : List (Action × Action)} (hrun : run step s₀ (as.map Prod.fst) = some s)
    (hrun' : run step s₀ (as.map Prod.snd) = some s')
    (hguard : Guarded (both step) (Discreet {f | s₀.sys.fm.free f} files P) (s₀, s₀) as) :
    ∀ Q, Q ≠ P → ∀ q, s.sys.proc Q = some q → q.dying = false → ∀ x < usertop,
      (∀ a, Paging.translate q.t x = some a → a / sps ∉ files) → s.read Q x = s'.read Q x := by
  obtain ⟨hfiles, hinv⟩ := hboot.inv
  have h₀ : Alike {f | s₀.sys.fm.free f} files P (s₀, s₀) := ⟨rfl, hinv, fun _ => .inl rfl⟩
  have h : Alike {f | s₀.sys.fm.free f} files P (s, s') :=
    invariant_of_guarded (P := Alike _ files P) (fun h hc hr => h.step hfiles hc hr) h₀ hguard
      (run_both.mpr ⟨hrun, hrun'⟩)
  intro Q hQ q hq hlive x hx hown
  have hsys : s'.sys = s.sys := h.sys
  simp only [read, hsys, hq, Option.bind_eq_bind, Option.bind_some]
  cases ha : Paging.translate q.t x with
  | none => rfl
  | some a =>
    obtain ⟨-, hheld⟩ := held_of_translate h.inv hq hlive hx ha
    rcases h.bytes a with heq | hfile | hpriv
    · simp only [Option.bind_some]
      exact congrArg _ heq
    · exact absurd hfile (hown a ha)
    · exact absurd hheld (hpriv.2 _ hQ)

/-! ## A frame that changes hands -/

/-- Exactly `n` frames are free. -/
structure Exactly (n : ℕ) (fm : FrameManager) : Prop where
  has : HasFrames n fm
  most : ¬ atLeast (n + 1) fm

theorem Exactly.alloc (h : Exactly (n + 1) fm) :
    ∃ f fm', fm.allocFrame 1 = .ok (f * sps, fm') ∧ Taken fm fm' (· = f) ∧ Exactly n fm' := by
  obtain ⟨⟨a, fm'⟩, hr⟩ := allocFrame1_returns h.has.inv.unlocked h.has.lplock
  rcases allocFrame1_spec h.has.inv hr with ⟨-, hnone, -⟩ | ⟨f, rfl, -, ht⟩
  · exact absurd h.has.frames (not_atLeast_succ hnone n)
  · exact ⟨f, fm', hr, ht, ⟨ht.inv, ht.lplock.trans h.has.lplock, ht.atLeast_iff.mpr h.has.frames⟩,
      fun hmore => h.most (ht.atLeast_iff.mp hmore)⟩

theorem Exactly.table (h : Exactly (n + 1) fm) :
    ∃ pma fm', fm.allocFrame pagetablepl = .ok (pma, fm') ∧ pma ≠ topaddr ∧ Exactly n fm' := by
  obtain ⟨f, fm', halloc, -, h'⟩ := h.alloc
  exact ⟨f * sps, fm', halloc, mul_sps_ne_topaddr f, h'⟩

/-- What a page fault makes of the entry of a lazily mapped page. -/
def faulted (f : ℕ) : PageEntry :=
  BitVec.ofNat 64 (f * sps) ||| Space.lazyEntry &&& ~~~ADDR ||| PageEntry.P

theorem isTable_faulted (f : ℕ) : isTable 1 (faulted f) = false := by
  simp [isTable, isPage, show 1 < pagelevels by decide]

theorem present_faulted (f : ℕ) : (faulted f).present = true := present_or_P _

theorem exists_create {k : Tables} (h : Exactly (n + 1) sys.fm) :
    ∃ r sys', sys.step (.create p k) = some sys' ∧ Exactly n sys'.fm ∧
      sys'.proc = update sys.proc p (some (System.created r k)) := by
  obtain ⟨f, fm, halloc, -, h'⟩ := h.alloc
  exact ⟨f * sps, _, System.create_of_alloc halloc (mul_sps_ne_topaddr f), h', rfl⟩

/-- A page of a new process is mapped lazily. -/
theorem exists_mapPage {m : ℕ} (hq : sys.proc p = some q)
    (hroot : q.t pagelevels (index pagelevels (2 ^ 22)) = 0) (h : Exactly (3 + m) sys.fm) :
    ∃ t sys', sys.step (.mapPage p (2 ^ 22) false) = some sys' ∧ Exactly m sys'.fm ∧
      sys'.proc = update sys.proc p (some { q with t }) ∧
      walk t pagelevels (2 ^ 22) = (1, Space.lazyEntry) := by
  have hwalk : walk q.t pagelevels (2 ^ 22) = (pagelevels, 0) := by
    rw [show pagelevels = 3 + 1 from rfl, walk,
      show q.t (3 + 1) (index (3 + 1) (2 ^ 22)) = 0 from hroot, isTable_zero,
      if_neg Bool.false_ne_true]
  obtain ⟨t, fm, hmap, hm⟩ :=
    map_returns (R := Exactly) Exactly.table le_rfl (show 1 < pagelevels by decide) hwalk
    (by decide) (by decide) (show 2 ^ 22 % pagesize 1 = 0 by decide)
    (show BitVec.ofNat 64 lazyPage.toNat &&& ~~~ADDR = 0 by decide) false (data ||| US) h
  exact ⟨t, sys.put p q (t, fm),
    System.step_of_actOn hq rfl (congrArg (Except.map _) (Space.mapPage_lazy.mpr hmap)),
    hm, rfl, (map_spec le_rfl (by decide) hmap).2.2.page _ rfl⟩

variable {f : ℕ}

/-- It gets its frame. -/
theorem step_fault (hq : sys.proc p = some q)
    (hw : walk q.t pagelevels (2 ^ 22) = (1, Space.lazyEntry))
    (halloc : sys.fm.allocFrame 1 = .ok (f * sps, fm)) :
    sys.step (.fault p (2 ^ 22)) = some (sys.put p q (setPE q.t (1, 1024) (faulted f), fm)) := by
  have hfault :
      Paging.fault q.t (2 ^ 22) sys.fm = .ok (true, setPE q.t (1, 1024) (faulted f), fm) := by
    rw [Paging.fault, hw]
    simp only [halloc, if_neg (mul_sps_ne_topaddr f)]
    exact if_pos (by decide)
  exact System.step_of_actOn hq rfl (congrArg (Except.map _) hfault)

theorem walk_faulted {t : Tables} {e : PageEntry} (hw : walk t pagelevels (2 ^ 22) = (1, e))
    (f : ℕ) : walk (setPE t (1, 1024) (faulted f)) pagelevels (2 ^ 22) = (1, faulted f) :=
  (walk_setPE hw (by decide) (isTable_faulted f) (2 ^ 22)).trans (if_pos rfl)

theorem addr_faultedFrame (hf : f < 2 ^ 36) : (faulted f).addr.toNat = f * sps := by
  obtain ⟨hbits, hnat⟩ := ofNat_frame (show f < 2 ^ 40 by omega)
  rw [faulted, addr_fault hbits, hnat]

theorem hasFrame_faulted (hf : f < 2 ^ 36) : hasFrame (faulted f).addr = true := by
  have hnat := addr_faultedFrame hf
  rw [show sps = 4096 from rfl] at hnat
  refine decide_eq_true ⟨fun heq => ?_, fun heq => ?_⟩
  · rw [heq, show lazyPage.toNat = 2 ^ 52 - 8192 by decide] at hnat
    omega
  · rw [heq, show guardPage.toNat = 2 ^ 52 - 4096 by decide] at hnat
    omega

theorem translate_faulted {t : Tables} (hf : f < 2 ^ 36)
    (hw : walk t pagelevels (2 ^ 22) = (1, faulted f)) :
    Paging.translate t (2 ^ 22) = some (f * sps) := by
  rw [translate_eq hw, if_pos (present_faulted f), addr_faultedFrame hf,
    show 2 ^ 22 % pagesize 1 = 0 by decide, Nat.add_zero]

/-- The process can write the page. -/
theorem target_faulted (hf : f < 2 ^ 36) (hlive : q.dying = false)
    (hw : walk q.t pagelevels (2 ^ 22) = (1, faulted f)) : target q (2 ^ 22) = some (f * sps) := by
  have hbit : ∀ i, (Space.lazyEntry &&& ~~~ADDR).getLsbD i = true →
      (faulted f).getLsbD i = true := by
    intro i hi
    rw [faulted, BitVec.getLsbD_or, BitVec.getLsbD_or, hi, Bool.or_true, Bool.true_or]
  rw [target, hw, translate_faulted hf hw]
  exact if_pos ⟨hlive, by decide, hbit 1 (by decide), hbit 2 (by decide)⟩

/-- The page goes back: it is unmapped, its entry is cleared when every core has seen that, and its
frame is released. -/
theorem step_unmapPage (hq : sys.proc p = some q)
    (hw : walk q.t pagelevels (2 ^ 22) = (1, faulted f)) : sys.step (.unmapPage p (2 ^ 22) true) =
      some (sys.put p { q with pending := ((1, 1024), true) :: q.pending }
        (setPE q.t (1, 1024) (faulted f &&& ~~~PageEntry.P), sys.fm)) := by
  have hentry : q.t 1 (index 1 (2 ^ 22)) = faulted f := (walk_entry (by decide) hw).1.symm
  have hunmap : unmap1 1 true q.t (2 ^ 22) =
      .ok (some (1, 1024), setPE q.t (1, 1024) (faulted f &&& ~~~PageEntry.P)) := by
    have hwin : inWindow q.t 1 (2 ^ 22) = true := decide_eq_true (by rw [hw])
    rw [unmap1, if_neg (by decide), if_neg (by rw [hwin]; decide)]
    simp only [hentry]
    rw [if_neg (by simp [isPage, show 1 < pagelevels by decide]), if_pos (present_faulted f)]
    rfl
  exact System.step_of_actOn hq rfl (congrArg (Except.map _) hunmap)

theorem step_finish (hf : f < 2 ^ 36) (hq : sys.proc p = some q)
    (hentry : q.t 1 1024 = faulted f &&& ~~~PageEntry.P) : sys.step (.finish p (1, 1024)) =
      some (sys.put p { q with
        pending := q.pending.erase ((1, 1024), true), queue := (1, f * sps) :: q.queue }
        (setPE q.t (1, 1024) 0, sys.fm)) := by
  refine System.step_of_actOn hq rfl ?_
  have haddr : (q.t 1 1024).addr = (faulted f).addr := by rw [hentry, addr_clearP]
  simp only [System.actOn, unmap2, haddr, hasFrame_faulted hf, if_true, addr_faultedFrame hf]

/-- A process that is running, with nothing on its way back. -/
def Quiet (q : Proc) : Prop := q.dying = false ∧ q.pending = [] ∧ q.queue = []

theorem exists_returned (pool : Set ℕ) (hf : f < 2 ^ 36) (hown : f ∉ files)
    (hq : sys.proc p = some q) (hquiet : Quiet q)
    (hw : walk q.t pagelevels (2 ^ 22) = (1, faulted f))
    (hrel : sys.fm.releaseFrame 1 (f * sps) = .ok fm) : ∃ sys',
      run System.step sys [.unmapPage p (2 ^ 22) true, .finish p (1, 1024),
        .release p (1, f * sps)] = some sys' ∧
      Guarded System.step (fun s a => s.Allowed pool files a ∧ s.Returns files a) sys
        [.unmapPage p (2 ^ 22) true, .finish p (1, 1024), .release p (1, f * sps)] ∧
      sys'.fm = fm ∧ ∀ p', p' ≠ p → sys'.proc p' = sys.proc p' := by
  obtain ⟨hlive, hpending, hqueue⟩ := hquiet
  obtain ⟨s₁, hs₁, hfm₁, hp₁⟩ : ∃ s₁, sys.step (.unmapPage p (2 ^ 22) true) = some s₁ ∧
      s₁.fm = sys.fm ∧ s₁.proc = update sys.proc p (some { q with
        t := setPE q.t (1, 1024) (faulted f &&& ~~~PageEntry.P),
          pending := [((1, 1024), true)] }) :=
    ⟨_, step_unmapPage hq hw, rfl, by rw [hpending]; rfl⟩
  have hq₁ := (congrFun hp₁ p).trans (update_self _ _ _)
  have hcleared :
      setPE q.t (1, 1024) (faulted f &&& ~~~PageEntry.P) 1 1024 = faulted f &&& ~~~PageEntry.P :=
    setPE_self q.t 1 1024 _
  obtain ⟨s₂, hs₂, hfm₂, hp₂⟩ : ∃ s₂, s₁.step (.finish p (1, 1024)) = some s₂ ∧ s₂.fm = sys.fm ∧
      s₂.proc = update s₁.proc p (some { q with
        t := setPE (setPE q.t (1, 1024) (faulted f &&& ~~~PageEntry.P)) (1, 1024) 0, pending := []
        queue := [(1, f * sps)] }) := by
    refine ⟨_, step_finish hf hq₁ hcleared, hfm₁, ?_⟩
    rw [hqueue]
    rfl
  have hq₂ := (congrFun hp₂ p).trans (update_self _ _ _)
  have hs₃ := System.step_of_actOn (a := .release p (1, f * sps)) hq₂ rfl
    (congrArg (Except.map _) ((congrArg (FrameManager.releaseFrame 1 · (f * sps)) hfm₂).trans hrel))
  refine ⟨_, run_cons.mpr ⟨s₁, hs₁, run_cons.mpr ⟨s₂, hs₂, run_cons.mpr ⟨_, hs₃, rfl⟩⟩⟩,
    guarded_cons ⟨⟨q, hq, hlive⟩, by decide, fun q' hq' => ?_⟩ hs₁
      (guarded_cons ⟨⟨_, hq₁, List.mem_singleton_self _⟩, fun q' hq' => ?_⟩ hs₂
        (guarded_cons ⟨⟨_, hq₂, List.mem_singleton_self _⟩, trivial⟩ hs₃ trivial)),
    rfl, fun p' hne => ?_⟩
  · obtain rfl := Option.some.inj (hq.symm.trans hq')
    rw [hpending]
    exact List.not_mem_nil
  · obtain rfl := Option.some.inj (hq₁.symm.trans hq')
    show frameOf (setPE q.t (1, 1024) (faulted f &&& ~~~PageEntry.P) 1 1024) ∉ files
    rw [hcleared, frameOf, addr_clearP, addr_faultedFrame hf, Nat.mul_div_cancel f sps_pos]
    exact hown
  · rw [System.proc_put_of_ne hne, hp₂, update_of_ne hne, hp₁, update_of_ne hne]

/-- A machine with `n` free frames. -/
theorem exists_exactly (hn : n ≤ 16) : ∃ s₀ : System, System.Booted {256} s₀ ∧ Exactly n s₀.fm := by
  obtain ⟨s₀, hboot, hinv, hlp, hfree⟩ := System.booted_frames (a := 16) (n := n) (.inl (by omega))
  have hcard : (Finset.Ico 16 (16 + n)).card = n := by simp
  refine ⟨s₀, hboot, ⟨hinv, hlp, Finset.Ico 16 (16 + n), hcard.ge, fun f hf => ?_⟩, ?_⟩
  · exact (hfree f).mpr (Finset.mem_Ico.mp hf)
  · rintro ⟨S, hS, hall⟩
    have hle := Finset.card_le_card fun f hf => Finset.mem_Ico.mpr ((hfree f).mp (hall f hf))
    omega

/-- Two processes with a page each that has no frame yet. -/
def prepare : List System.Action :=
  [.create 0 fun _ _ => 0, .create 1 fun _ _ => 0, .mapPage 0 (2 ^ 22) false,
    .mapPage 1 (2 ^ 22) false]

/-- A page goes back, and the other process has a page fault. -/
def passOn (f : ℕ) : List System.Action :=
  [.unmapPage 0 (2 ^ 22) true, .finish 0 (1, 1024), .release 0 (1, f * sps), .fault 1 (2 ^ 22)]

theorem exists_prepared : ∃ (s₀ s : System) (q₀ q₁ : Proc), System.Booted {256} s₀ ∧
    run System.step s₀ prepare = some s ∧
    Guarded System.step (fun s a => s.Allowed {f | s₀.fm.free f} {256} a ∧
      s.Returns {256} a) s₀ prepare ∧ s.proc 0 = some q₀ ∧ s.proc 1 = some q₁ ∧ Quiet q₀ ∧
      Quiet q₁ ∧ walk q₀.t pagelevels (2 ^ 22) = (1, Space.lazyEntry) ∧
      walk q₁.t pagelevels (2 ^ 22) = (1, Space.lazyEntry) ∧ Exactly 1 s.fm := by
  obtain ⟨s₀, hboot, h₀⟩ := exists_exactly (n := 9) (by decide)
  have hroot : System.cloned (fun _ _ => 0) pagelevels (index pagelevels (2 ^ 22)) = 0 :=
    if_pos (show index pagelevels (2 ^ 22) < System.userEntries pagelevels by decide)
  -- a frame for each root, and three tables for each page
  obtain ⟨r₀, s₁, hs₁, h₁, hp₁⟩ := exists_create (p := 0) (k := fun _ _ => 0) h₀
  obtain ⟨r₁, s₂, hs₂, h₂, hp₂⟩ := exists_create (p := 1) (k := fun _ _ => 0) h₁
  have hq₀ : s₂.proc 0 = some (System.created r₀ fun _ _ => 0) := by simp [hp₂, hp₁]
  obtain ⟨t₀, s₃, hs₃, h₃, hp₃, hw₀⟩ := exists_mapPage (m := 4) hq₀ hroot h₂
  have hq₁ : s₃.proc 1 = some (System.created r₁ fun _ _ => 0) := by simp [hp₃, hp₂]
  obtain ⟨t₁, s₄, hs₄, h₄, hp₄, hw₁⟩ := exists_mapPage (m := 1) hq₁ hroot h₃
  refine ⟨s₀, s₄, { System.created r₀ fun _ _ => 0 with t := t₀ },
    { System.created r₁ fun _ _ => 0 with t := t₁ }, hboot, ?_,
    ?_, by simp [hp₄, hp₃], by simp [hp₄], ⟨rfl, rfl, rfl⟩, ⟨rfl, rfl, rfl⟩, hw₀, hw₁, h₄⟩
  · exact run_cons.mpr ⟨s₁, hs₁,
      run_cons.mpr ⟨s₂, hs₂, run_cons.mpr ⟨s₃, hs₃, run_cons.mpr ⟨s₄, hs₄, rfl⟩⟩⟩⟩
  · refine guarded_cons ⟨hboot.proc 0, trivial⟩ hs₁ (guarded_cons ⟨?_, trivial⟩ hs₂
      (guarded_cons ⟨⟨_, hq₀, rfl⟩, trivial⟩ hs₃
        (guarded_cons ⟨⟨_, hq₁, rfl⟩, trivial⟩ hs₄ trivial)))
    show s₁.proc 1 = none
    simp [hp₁, hboot.proc 1]

/-- **The frame changes hands**: the first process takes the last free frame; when it goes back, it
is the only free frame, and the second process gets it. -/
theorem exists_passed : ∃ (s₀ s s' : System) (q₀ q₁ : Proc) (f : ℕ), System.Booted {256} s₀ ∧
    run System.step s₀ (prepare ++ [.fault 0 (2 ^ 22)]) = some s ∧
      run System.step s (passOn f) = some s' ∧
      Guarded System.step (fun s a => s.Allowed {f | s₀.fm.free f} {256} a ∧ s.Returns {256} a) s₀
        (prepare ++ [.fault 0 (2 ^ 22)]) ∧
      Guarded System.step (fun s a => s.Allowed {f | s₀.fm.free f} {256} a ∧ s.Returns {256} a) s
        (passOn f) ∧
      s.proc 0 = some q₀ ∧ target q₀ (2 ^ 22) = some (f * sps) ∧
      s'.proc 1 = some q₁ ∧ q₁.dying = false ∧ Paging.translate q₁.t (2 ^ 22) = some (f * sps) ∧
      f ∉ ({256} : Set ℕ) := by
  obtain ⟨s₀, s, q₀, q₁, hboot, hrun, hguard, hq₀, hq₁, hquiet₀, hquiet₁, hw₀, hw₁, h₁⟩ :=
    exists_prepared
  obtain ⟨hfiles, hinv₀⟩ := hboot.inv
  have hinv : System.Inv {f | s₀.fm.free f} {256} s :=
    invariant_of_guarded (P := System.Inv _ _)
      (fun h hc hr => h.step hfiles hc.1 hc.2 hr) hinv₀ hguard hrun
  obtain ⟨f, fm, halloc, htaken, h₀⟩ := h₁.alloc
  have hfree := htaken.wasFree f rfl
  have hf : f < 2 ^ 36 := hinv.frames.small f (hinv.frames.free f hfree)
  obtain ⟨s₁, hs₁, rfl, hp₁⟩ : ∃ s₁, s.step (.fault 0 (2 ^ 22)) = some s₁ ∧ s₁.fm = fm ∧ s₁.proc =
      update s.proc 0 (some { q₀ with t := setPE q₀.t (1, 1024) (faulted f) }) :=
    ⟨_, step_fault hq₀ hw₀ halloc, rfl, rfl⟩
  have hq₀' := (congrFun hp₁ 0).trans (update_self _ _ _)
  have hw₀' := walk_faulted hw₀ f
  have hout : ¬ s₁.fm.free f := fun hf' => ((htaken.free f).mp hf').2 rfl
  have hin : f * sps / dps < s₁.fm.bitcount := by
    rw [div_dps, Nat.mul_div_cancel f sps_pos, htaken.bitcount]
    exact hinv.frames.inRange f (hinv.frames.free f hfree)
  obtain ⟨fm', hrel⟩ :=
    releaseFrame1_returns (Nat.mul_mod_left f sps) h₀.has.inv.unlocked h₀.has.lplock
  have hspec := releaseFrame1_spec h₀.has.inv hin (by rwa [Nat.mul_div_cancel f sps_pos]) hrel
  have hown : f ∉ ({256} : Set ℕ) := hinv.frames.not_lent hfiles hfree
  obtain ⟨s₂, hrun₂, hguard₂, rfl, hp₂⟩ :=
    exists_returned {f | s₀.fm.free f} hf hown hq₀' hquiet₀ hw₀' hrel
  have hq₁' : s₂.proc 1 = some q₁ := by
    rw [hp₂ 1 (by decide), hp₁, update_of_ne (by decide)]
    exact hq₁
  -- every other frame has been taken
  have honly : ∀ g, s₂.fm.free g → g = f := fun g hg => by
    rcases (hspec.free g).mp hg with hg | hg
    · exact absurd ⟨{g}, by simp, by simpa using hg⟩ h₀.most
    · rwa [Nat.mul_div_cancel f sps_pos] at hg
  obtain ⟨fm₃, halloc₃⟩ : ∃ fm₃, s₂.fm.allocFrame 1 = .ok (f * sps, fm₃) := by
    obtain ⟨⟨a, fm₃⟩, hr⟩ :=
      allocFrame1_returns hspec.inv.unlocked (hspec.lplock.trans h₀.has.lplock)
    rcases allocFrame1_spec hspec.inv hr with ⟨-, hnone, -⟩ | ⟨g, rfl, -, ht⟩
    · exact absurd ((hspec.free f).mpr (.inr (Nat.mul_div_cancel f sps_pos).symm)) (hnone f)
    · rw [honly g (ht.wasFree g rfl)] at hr
      exact ⟨fm₃, hr⟩
  have hs₃ := step_fault hq₁' hw₁ halloc₃
  refine ⟨s₀, s₁, _, _, _, f, hboot, run_append.mpr ⟨s, hrun, run_cons.mpr ⟨s₁, hs₁, rfl⟩⟩,
    run_append.mpr ⟨s₂, hrun₂, run_cons.mpr ⟨_, hs₃, rfl⟩⟩,
    guarded_append hrun hguard (guarded_cons ⟨⟨q₀, hq₀, hquiet₀.1⟩, trivial⟩ hs₁ trivial),
    guarded_append hrun₂ hguard₂ (guarded_cons ⟨⟨q₁, hq₁', hquiet₁.1⟩, trivial⟩ hs₃ trivial), hq₀',
    target_faulted hf hquiet₀.1 hw₀', System.proc_put_self _, hquiet₁.1,
      translate_faulted hf (walk_faulted hw₁ f), hown⟩

/-! ### The contents of the frame -/

theorem step_sys_of {sys' : System} {mem : Bytes} (hne : ∀ p rf segs, a ≠ .exec p rf segs)
    (h : sys.step a = some sys') : step ⟨sys, mem⟩ (.sys a) = some ⟨sys', mem⟩ := by
  cases a with
  | exec p rf segs => exact absurd rfl (hne p rf segs)
  | _ => exact congrArg (Option.map _) h

/-- A run of the system without `exec` does not touch the memory. -/
theorem run_sys (mem : Bytes) {as : List System.Action}
    (hne : ∀ a ∈ as, ∀ p rf segs, a ≠ .exec p rf segs) {sys' : System}
    (h : run System.step sys as = some sys') :
    run step ⟨sys, mem⟩ (as.map .sys) = some ⟨sys', mem⟩ := by
  induction as generalizing sys sys' with
  | nil =>
    rw [run_nil.mp h]
    rfl
  | cons a as ih =>
    obtain ⟨sys₁, h₁, h⟩ := run_cons.mp h
    exact run_cons.mpr ⟨_, step_sys_of (hne a List.mem_cons_self) h₁,
      ih (fun b hb => hne b (List.mem_cons_of_mem a hb)) h⟩

theorem guarded_sys (mem : Bytes) {as : List System.Action}
    (hne : ∀ a ∈ as, ∀ p rf segs, a ≠ .exec p rf segs) :
    ∀ {sys : System}, Guarded System.step (fun s a => s.Allowed pool files a ∧
      s.Returns files a) sys as → Guarded step (Lawful pool files) ⟨sys, mem⟩ (as.map .sys) := by
  induction as with
  | nil => exact fun _ => trivial
  | cons a as ih =>
    intro sys h
    refine ⟨h.1, fun t ht => ?_⟩
    obtain ⟨hsys, hmem⟩ := step_sys ht
    have hmem : t.mem = mem := hmem.resolve_left (by
      rintro ⟨p, rf, segs, heq⟩
      exact hne a List.mem_cons_self p rf segs heq)
    obtain ⟨sys', mem'⟩ := t
    obtain rfl : mem' = mem := hmem
    exact ih (fun b hb => hne b (List.mem_cons_of_mem a hb)) (h.2 sys' hsys)

/-- Stores one after the other: the last one is what is left. -/
theorem run_stores {a : ℕ} (hq : sys.proc 0 = some q) (ha : target q (2 ^ 22) = some a)
    (bytes : List (BitVec 8)) (mem : Bytes) :
    run step ⟨sys, mem⟩ (bytes.map (.store 0 (2 ^ 22))) = some
      ⟨sys, update mem a (bytes.getLastD (mem a))⟩ := by
  induction bytes generalizing mem with
  | nil =>
    rw [List.getLastD_nil, update_eq_self]
    rfl
  | cons b bytes ih =>
    refine run_cons.mpr ⟨⟨sys, update mem a b⟩, ?_, ?_⟩
    · simp only [step, hq, Option.bind_eq_bind, Option.bind_some, ha]
      rfl
    · refine (ih _).trans ?_
      rw [update_idem, update_self, List.getLastD_cons]

/-- The first process gets its page. -/
def acquire : List Action := (prepare ++ [.fault 0 (2 ^ 22)] : List System.Action).map .sys

theorem prepare_not_exec : ∀ a ∈ (prepare ++ [.fault 0 (2 ^ 22)] : List System.Action),
    ∀ p rf segs, a ≠ .exec p rf segs := by
  simp [prepare]

theorem passOn_not_exec (f : ℕ) : ∀ a ∈ passOn f, ∀ p rf segs, a ≠ .exec p rf segs := by
  simp [passOn]

/-- The first process stores the bytes in its page and gives it back; then the second gets a
page. -/
def secret (f : ℕ) (bytes : List (BitVec 8)) : List Action :=
  acquire ++ bytes.map (.store 0 (2 ^ 22)) ++ (passOn f).map .sys

/-- **A new page is not clean**: what the second process finds in it is what the first process has
stored. -/
theorem secret_read : ∃ (s₀ s s' : Machine) (f : ℕ), System.Booted {256} s₀.sys ∧
    List.Forall₂ (Twin 0) (secret f [1]) (secret f [2]) ∧
    run step s₀ (secret f [1]) = some s ∧ run step s₀ (secret f [2]) = some s' ∧
    Guarded step (Lawful {f | s₀.sys.fm.free f} {256}) s₀ (secret f [1]) ∧
    Guarded step (Lawful {f | s₀.sys.fm.free f} {256}) s₀ (secret f [2]) ∧
    s.read 1 (2 ^ 22) = some 1 ∧ s'.read 1 (2 ^ 22) = some 2 := by
  obtain ⟨s₀, s, s', q₀, q₁, f, hboot, hrun, hrun', hguard, hguard', hq₀, htarget, hq₁, -,
      htranslate, -⟩ := exists_passed
  have hbefore := run_sys (fun _ => 0) prepare_not_exec hrun
  have hstores := fun bytes => run_stores hq₀ htarget bytes fun _ => 0
  have hafter := fun mem => run_sys mem (passOn_not_exec f) hrun'
  have hsecret : ∀ b, ∃ t, run step ⟨s₀, fun _ => 0⟩ (secret f [b]) = some t ∧
      Guarded step (Lawful {f | s₀.fm.free f} {256}) ⟨s₀, fun _ => 0⟩ (secret f [b]) ∧
        t.read 1 (2 ^ 22) = some b := by
    intro b
    have hfirst := run_append.mpr ⟨_, hbefore, hstores [b]⟩
    refine ⟨_, run_append.mpr ⟨_, hfirst, hafter _⟩, guarded_append hfirst (guarded_append hbefore
      (guarded_sys _ prepare_not_exec hguard) ⟨trivial, fun _ _ => trivial⟩)
        (guarded_sys _ (passOn_not_exec f) hguard'), ?_⟩
    simp only [read, hq₁, Option.bind_eq_bind, Option.bind_some, htranslate]
    exact congrArg some (update_self _ _ _)
  obtain ⟨t, ht, hg, hread⟩ := hsecret 1
  obtain ⟨t', ht', hg', hread'⟩ := hsecret 2
  have hself : ∀ as, List.Forall₂ (Twin 0) as as :=
    fun as => List.forall₂_same.mpr fun _ _ => .inl rfl
  have hstore : Twin 0 (.store 0 (2 ^ 22) 1) (.store 0 (2 ^ 22) 2) := .inr ⟨_, _, _, rfl, rfl⟩
  exact ⟨⟨s₀, fun _ => 0⟩, t, t', f, hboot,
    List.rel_append (List.rel_append (hself _) (.cons hstore .nil)) (hself _),
    ht, ht', hg, hg', hread, hread'⟩

/-- Different data, and then the same. -/
def overwrites : List (Action × Action) :=
  [(.store 0 (2 ^ 22) 1, .store 0 (2 ^ 22) 2), (.store 0 (2 ^ 22) 0, .store 0 (2 ^ 22) 0)]

/-- The two runs in which the first process clears its page before it gives it back. -/
def twins (f : ℕ) : List (Action × Action) :=
  acquire.map (fun a => (a, a)) ++ overwrites ++ ((passOn f).map Action.sys).map fun a => (a, a)

/-- The second process then finds the same in its page. -/
theorem fresh_pages_alike_cleared : ∃ (s₀ s s' : Machine) (f : ℕ), System.Booted {256} s₀.sys ∧
    run step s₀ ((twins f).map Prod.fst) = some s ∧ run step s₀ ((twins f).map Prod.snd) = some s' ∧
    s.read 1 (2 ^ 22) = some 0 ∧ s.read 1 (2 ^ 22) = s'.read 1 (2 ^ 22) := by
  obtain ⟨s₀, s, s', q₀, q₁, f, hboot, hrun, hrun', hguard, hguard', hq₀, htarget, hq₁, hlive,
      htranslate, hown⟩ :=
    exists_passed
  obtain ⟨mem, hmem⟩ : ∃ mem : Bytes, mem = update (fun _ => 0) (f * sps) 0 := ⟨_, rfl⟩
  have hbefore := run_both_self (run_sys (fun _ => 0) prepare_not_exec hrun)
  have hstores : run (both step) (⟨s, fun _ => 0⟩, ⟨s, fun _ => 0⟩) overwrites =
      some (⟨s, mem⟩, ⟨s, mem⟩) := by
    rw [hmem]
    exact run_both.mpr ⟨run_stores hq₀ htarget [1, 0] fun _ => 0,
      run_stores hq₀ htarget [2, 0] fun _ => 0⟩
  have hfirst := run_append.mpr ⟨_, hbefore, hstores⟩
  obtain ⟨hleft, hright⟩ := run_both.mp (run_append.mpr ⟨_, hfirst,
    run_both_self (run_sys mem (passOn_not_exec f) hrun')⟩)
  have hself : ∀ {s : Machine} {a : Action}, s.Lawful {f | s₀.fm.free f} {256} a →
      Discreet {f | s₀.fm.free f} {256} 0 (s, s) (a, a) := by
    refine fun {s a} h => ⟨.inl rfl, h, ?_⟩
    cases a with
    | sys a => exact fun _ _ _ _ _ => rfl
    | store p vma byte => trivial
  have hstore : ∀ a ∈ overwrites, ∀ s, Discreet {f | s₀.fm.free f} {256} 0 s a := by
    intro a ha s
    simp only [overwrites, List.mem_cons, List.not_mem_nil, or_false] at ha
    rcases ha with rfl | rfl
    · exact ⟨.inr ⟨_, _, _, rfl, rfl⟩, trivial, trivial⟩
    · exact ⟨.inl rfl, trivial, trivial⟩
  have hguards := guarded_append hfirst (guarded_append hbefore
    (guarded_both_self hself (guarded_sys _ prepare_not_exec hguard)) (guarded_of_forall hstore))
    (guarded_both_self hself (guarded_sys mem (passOn_not_exec f) hguard'))
  refine ⟨⟨s₀, fun _ => 0⟩, _, _, f, hboot, hleft, hright, ?_,
    fresh_pages_alike hboot hleft hright hguards 1 (by decide) q₁ hq₁ hlive (2 ^ 22) (by decide)
      fun a ha => ?_⟩
  · simp only [read, hq₁, Option.bind_eq_bind, Option.bind_some, htranslate]
    rw [hmem]
    exact congrArg some (update_self _ _ _)
  · rw [← Option.some.inj (htranslate.symm.trans ha), Nat.mul_div_cancel f sps_pos]
    exact hown

end Machine

end Kos
