import KosKernel.Kernel.AllocContig
import KosKernel.Machine.Entries

/-!
# Machine/LazyFaults — several cores fault on one lazily mapped page

`Paging::fault` of `machine/Paging.h`, called from the page fault handler without `plock`: the entry
of each level is read, a frame is allocated, and the entry is written, each a step of its own.

If a core traps only while no other core is on its way from its trap to its store, the page gets one
frame and every handler returns `true` (`faults_once`).  Otherwise two cores both find the entry
lazy and both allocate, and the frame of the first store is lost (`faults_twice`); and a core that
reads the entry after the other's store finds it present, and its handler reboots.
-/

namespace Kos

open Function Runs

namespace FrameManager

variable {fm fm' : FrameManager} {N a : ℕ}

instance (fm : FrameManager) (f : ℕ) : Decidable (fm.free f) :=
  decidable_of_iff ((f / pagetableentries < fm.bitcount ∧
      fm.largeFrames.test (f / pagetableentries) = true) ∨
    (fm.small (f / pagetableentries)).any (·.test (f % pagetableentries)) = true)
    (or_congr Iff.rfl (by rw [Option.any_eq_true]))

/-- The frame `f` belongs to the page of level `N` at `a`. -/
def ofPage (N a f : ℕ) : Prop := inRegion (a, pagesize N) (f * sps)

theorem mul_sps_lt {f n : ℕ} (h : f < n * 512) : f * sps < n * dps := by
  rw [show dps = 512 * sps from rfl, ← mul_assoc]
  exact Nat.mul_lt_mul_of_pos_right h sps_pos

/-- **`allocFrame<N>`** hands out the frames of one page. -/
theorem allocFrame_spec (hinv : Inv fm) (h : fm.allocFrame N = .ok (a, fm')) (ha : a ≠ topaddr) :
    a % sps = 0 ∧ a < fm.bitcount * dps ∧ Taken fm fm' (ofPage N a) := by
  unfold allocFrame at h
  split at h
  case isTrue hN =>
    subst hN
    rcases allocFrame1_spec hinv h with ⟨rfl, -⟩ | ⟨f, rfl, hf, ht⟩
    · exact absurd rfl ha
    refine ⟨Nat.mul_mod_left _ _, mul_sps_lt hf, ?_⟩
    have heq : ofPage spl (f * sps) = (· = f) := by
      funext g
      rw [ofPage,
        inRegion_frame_iff (Nat.mul_mod_left _ _) (show pagesize spl % sps = 0 by decide),
        Nat.mul_div_cancel _ sps_pos, show pagesize spl / sps = 1 by decide]
      exact propext ⟨fun h => by omega, fun h => by omega⟩
    rwa [heq]
  case isFalse hN =>
    split at h
    case isTrue hN =>
      subst hN
      rcases allocFrame2_spec hinv h with ⟨rfl, -⟩ | ⟨i, rfl, hi, ht⟩
      · exact absurd rfl ha
      have hmod : i * dps % sps = 0 := by
        rw [show dps = 512 * sps from rfl, ← mul_assoc]
        exact Nat.mul_mod_left _ _
      refine ⟨hmod, Nat.mul_lt_mul_of_pos_right hi dps_pos, ?_⟩
      have heq : ofPage dpl (i * dps) = fun f => f / pagetableentries = i := by
        funext g
        rw [ofPage, inRegion_frame_iff hmod (show pagesize dpl % sps = 0 by decide),
          show pagesize dpl / sps = 512 by decide, show dps = 512 * sps from rfl, ← mul_assoc,
          Nat.mul_div_cancel _ sps_pos, show pagetableentries = 512 from rfl]
        exact propext ⟨fun h => by omega, fun h => by omega⟩
      rwa [heq]
    case isFalse => cases h

theorem exists_allocFrame (hinv : Inv fm) (hlp : fm.lplock = false) {f : ℕ}
    (hf : fm.free f) : ∃ g fm', fm.allocFrame 1 = .ok (g * sps, fm') ∧ g < fm.bitcount * 512 ∧
      Taken fm fm' (· = g) := by
  obtain ⟨⟨a, fm'⟩, hr⟩ := allocFrame1_returns hinv.unlocked hlp
  rcases allocFrame1_spec hinv hr with ⟨-, hnone, -⟩ | ⟨g, rfl, hlt, ht⟩
  · exact absurd hf (hnone f)
  · exact ⟨g, fm', hr, hlt, ht⟩

end FrameManager

namespace Paging

open FrameManager PageEntry

/-! ## The code -/

/-- Where a core is in handling a page fault at `vma`. -/
inductive FaultPc
  /-- not in the handler -/
  | resumed
  /-- `fault<N>`: the entry of level `N` is read next -/
  | read (N vma : ℕ)
  /-- `fm.allocFrame<N>()` -/
  | alloc (N vma : ℕ)
  /-- `setPE( *pe, pma | (*pe & ~ADDR()) | P() )` -/
  | write (N vma pma : ℕ)
  /-- `fault` has returned; the handler returns or reboots -/
  | returned (result : Bool)
  deriving DecidableEq

structure Faults (ι : Type) where
  pc : ι → FaultPc
  t : Tables
  fm : FrameManager

inductive FaultAction (ι : Type)
  /-- `exception_handler_errcode_0x0e` -/
  | trap (c : ι) (vma : ℕ)
  /-- the next step of a core in the handler -/
  | advance (c : ι)

namespace Faults

variable {ι : Type} [DecidableEq ι]

def init (t : Tables) (fm : FrameManager) : Faults ι := ⟨fun _ => .resumed, t, fm⟩

def go (s : Faults ι) (c : ι) (pc : FaultPc) : Faults ι := { s with pc := update s.pc c pc }

/-- What `fault<N>` does with the entry it has read. -/
def afterRead (N vma : ℕ) (e : PageEntry) : FaultPc :=
  if e.present then if isPage N e then .returned false else .read (N - 1) vma
  else if isPage N e ∧ e.addr = lazyPage then .alloc N vma
  else .returned false

/-- The next step of a core; `KABORT0`, a failed assertion and a lock that is not free are no steps,
and neither is anything after `Reboot`. -/
def advance (s : Faults ι) (c : ι) : Option (Faults ι) :=
  match s.pc c with
  | .resumed => none
  | .read 0 _ => none
  | .read (N + 1) vma =>
    some (s.go c (afterRead (N + 1) vma (s.t (N + 1) (index (N + 1) vma))))
  | .alloc N vma =>
    match s.fm.allocFrame N with
    | .error _ => none
    | .ok (pma, fm) => if pma = topaddr then none else some ({ s with fm }.go c (.write N vma pma))
  | .write N vma pma =>
    let pe := (N, index N vma)
    some ({ s with
      t := setPE s.t pe (BitVec.ofNat 64 pma ||| s.t N (index N vma) &&& ~~~ADDR ||| P) }.go
      c (.returned true))
  | .returned result => if result then some (s.go c .resumed) else none

/-- A core traps at an address of the page at `x` when it finds the page's entry not present. -/
def step (x : ℕ) (s : Faults ι) : FaultAction ι → Option (Faults ι)
  | .trap c vma =>
    let (N, e) := walk s.t pagelevels vma
    if s.pc c = .resumed ∧ e.present = false ∧ index N vma = index N x then
      some (s.go c (.read pagelevels vma))
    else none
  | .advance c => s.advance c

/-! ## The statement -/

/-- The entry of the page at `x`. -/
def entryAt (s : Faults ι) (x : ℕ) : PageEntry := (walk s.t pagelevels x).2

/-- The page at `x` is lazily mapped at level `N`, with the entry `e`. -/
structure LazyAt (t : Tables) (x N : ℕ) (e : PageEntry) : Prop where
  walk : walk t pagelevels x = (N, e)
  present : e.present = false
  isPage : isPage N e = true
  addr : e.addr = lazyPage

/-- The frames that were free in `fm` and are not any more. -/
def Gone (fm : FrameManager) (s : Faults ι) (f : ℕ) : Prop := fm.free f ∧ ¬ s.fm.free f

/-- **The page at `x`, of level `N`, gets one frame.** -/
structure Once (x N : ℕ) (fm : FrameManager) (s : Faults ι) : Prop where
  /-- at most one frame is allocated -/
  one : ∃ a, ∀ f, Gone fm s f → ofPage N a f
  /-- it is in the entry, or about to be stored there -/
  mapped : ∀ f, Gone fm s f →
    (∃ c vma a, s.pc c = .write N vma a ∧ ofPage N a f) ∨
      ((s.entryAt x).present = true ∧ ofPage N (s.entryAt x).addr.toNat f)
  /-- the frame in the entry is the one that was allocated -/
  seen : (s.entryAt x).present = true → ∀ f, ofPage N (s.entryAt x).addr.toNat f → Gone fm s f
  /-- a core whose handler has returned finds the page mapped -/
  returned : ∀ {c result}, s.pc c = .returned result → result = true ∧ (s.entryAt x).present = true

/-- A core is on its way from its trap to its store. -/
def Handling : FaultPc → Prop
  | .read _ _ => True
  | .alloc _ _ => True
  | .write _ _ _ => True
  | .resumed => False
  | .returned _ => False

/-- A core traps only while no other one is handling a page fault. -/
def Alone (s : Faults ι) : FaultAction ι → Prop
  | .trap _ _ => ∀ d, ¬ Handling (s.pc d)
  | .advance _ => True

/-! ## The three phases -/

/-- What is known of the one core in the handler; `walk` has stopped at `N` below what it read. -/
def Within (t : Tables) (fm : FrameManager) (x N : ℕ) (fm' : FrameManager) : FaultPc → Prop
  | .read K vma => index N vma = index N x ∧ walk t K vma = walk t pagelevels x ∧ fm' = fm
  | .alloc K vma => K = N ∧ index N vma = index N x ∧ fm' = fm
  | .write K vma a => K = N ∧ index N vma = index N x ∧ a % sps = 0 ∧ a < 2 ^ framebits ∧
      Taken fm fm' (ofPage N a)
  | .resumed => False
  | .returned _ => False

/-- The entry after the store. -/
def filled (e : PageEntry) (a : ℕ) : PageEntry := BitVec.ofNat 64 a ||| e &&& ~~~ADDR ||| P

/-- **The page before, during and after its one fault.** -/
inductive Phase (t : Tables) (fm : FrameManager) (x N : ℕ) (e : PageEntry) (s : Faults ι) : Prop
  | before (ht : s.t = t) (hfm : s.fm = fm) (hpc : ∀ d, s.pc d = .resumed)
  | during (c : ι) (ht : s.t = t) (hpc : ∀ d, d ≠ c → s.pc d = .resumed)
      (hc : Within t fm x N s.fm (s.pc c))
  | after (a : ℕ) (ht : s.t = setPE t (N, index N x) (filled e a)) (ha : a % sps = 0)
      (hlt : a < 2 ^ framebits) (htaken : Taken fm s.fm (ofPage N a))
      (hpc : ∀ d, s.pc d = .resumed ∨ s.pc d = .returned true)

variable {t : Tables} {fm : FrameManager} {x N a : ℕ} {e : PageEntry} {s s' : Faults ι}

theorem addr_filled (ha : a % sps = 0) (hlt : a < 2 ^ framebits) : (filled e a).addr.toNat = a := by
  obtain ⟨f, rfl⟩ : ∃ f, a = f * sps :=
    ⟨a / sps, (Nat.div_mul_cancel (Nat.dvd_of_mod_eq_zero ha)).symm⟩
  have hf : f < 2 ^ 40 := by
    rw [show sps = 4096 from rfl, show 2 ^ framebits = 2 ^ 52 from rfl] at hlt
    omega
  rw [filled, addr_fault (ofNat_frame hf).1, (ofNat_frame hf).2]

theorem present_filled (e : PageEntry) (a : ℕ) : (filled e a).present = true := present_or_P _

omit [DecidableEq ι] in
theorem gone_of_taken (h : Taken fm s.fm (ofPage N a)) (f : ℕ) : Gone fm s f ↔ ofPage N a f := by
  rw [Gone, h.free]
  exact ⟨fun hf => by_contra fun hn => hf.2 ⟨hf.1, hn⟩,
    fun hf => ⟨h.wasFree f hf, fun hn => hn.2 hf⟩⟩

omit [DecidableEq ι] in
theorem not_gone (h : s.fm = fm) (f : ℕ) : ¬ Gone fm s f := fun hf => hf.2 (h ▸ hf.1)

variable {c : ι}

/-- Every core but `c` is where it was. -/
theorem pc_go_of_ne (s : Faults ι) {d : ι} (pc : FaultPc) (h : d ≠ c) : (s.go c pc).pc d = s.pc d :=
  update_of_ne h ..

theorem pc_go_self (s : Faults ι) (c : ι) (pc : FaultPc) : (s.go c pc).pc c = pc :=
  update_self ..

variable {vma : ℕ}

/-- One level of the walk. -/
theorem within_afterRead (hl : LazyAt t x N e) {K : ℕ} (hvma : index N vma = index N x)
    (hwalk : walk t (K + 1) vma = (N, e)) :
    Within t fm x N fm (afterRead (K + 1) vma (t (K + 1) (index (K + 1) vma))) := by
  rw [walk] at hwalk
  split at hwalk
  case isTrue htab =>
    obtain ⟨hp, hnot⟩ : present _ = true ∧ isPage _ _ = false := by simpa [isTable] using htab
    rw [afterRead, if_pos hp, if_neg (by simp [hnot])]
    exact ⟨hvma, hwalk.trans hl.walk.symm, rfl⟩
  case isFalse htab =>
    cases hwalk
    rw [afterRead, if_neg (by simp [hl.present]), if_pos ⟨hl.isPage, hl.addr⟩]
    exact ⟨rfl, hvma, rfl⟩

theorem Phase.advance (hinv : Inv fm) (hcap : fm.bitcount * dps ≤ 2 ^ framebits)
    (hl : LazyAt t x N e) (h : Phase t fm x N e s) (hs : s.advance c = some s') :
    Phase t fm x N e s' := by
  cases h with
  | before ht hfm hpc =>
    rw [Faults.advance, hpc c] at hs
    cases hs
  | during c₀ ht hpc hc =>
    obtain rfl : c = c₀ := by
      by_contra hne
      rw [Faults.advance, hpc c hne] at hs
      cases hs
    have hothers : ∀ {m : Faults ι} {pc}, m.pc = s.pc → ∀ d, d ≠ c → (m.go c pc).pc d = .resumed :=
      fun hm d hd => (pc_go_of_ne _ _ hd).trans (hm ▸ hpc d hd)
    cases hpcc : s.pc c with
    | resumed => exact absurd hc (by rw [hpcc]; exact id)
    | returned => exact absurd hc (by rw [hpcc]; exact id)
    | read K vma =>
      rw [hpcc] at hc
      obtain ⟨hvma, hwalk, hfm⟩ := hc
      rw [Faults.advance, hpcc] at hs
      cases K with
      | zero => cases hs
      | succ K =>
        cases hs
        refine .during c ht (hothers rfl) ?_
        rw [pc_go_self, ht, show (s.go c _).fm = fm from hfm]
        exact within_afterRead hl hvma (hwalk.trans hl.walk)
    | alloc K vma =>
      rw [hpcc] at hc
      obtain ⟨rfl, hvma, hfm⟩ := hc
      rw [Faults.advance, hpcc] at hs
      dsimp only at hs
      split at hs
      case h_1 => cases hs
      case h_2 pma fm' halloc =>
        obtain ⟨htop, hs⟩ := Option.ite_none_left_eq_some.mp hs
        cases hs
        obtain ⟨ha, hlt, htaken⟩ := allocFrame_spec hinv (hfm ▸ halloc) htop
        refine .during c ht (hothers rfl) ?_
        rw [pc_go_self]
        exact ⟨rfl, hvma, ha, hlt.trans_le hcap, htaken⟩
    | write K vma a =>
      rw [hpcc] at hc
      obtain ⟨rfl, hvma, ha, hlt, htaken⟩ := hc
      rw [Faults.advance, hpcc] at hs
      cases hs
      refine .after a ?_ ha hlt htaken fun d => ?_
      · show setPE s.t _ _ = _
        rw [ht, hvma, ← (walk_entry (by decide) hl.walk).1]
        rfl
      · by_cases hd : d = c
        · exact Or.inr (hd ▸ pc_go_self ..)
        · exact Or.inl (hothers rfl d hd)
  | after a ht ha hlt htaken hpc =>
    rcases hpc c with hc | hc
    · rw [Faults.advance, hc] at hs
      cases hs
    · rw [Faults.advance, hc] at hs
      cases hs
      refine .after a ht ha hlt htaken fun d => ?_
      by_cases hd : d = c
      · exact Or.inl (hd ▸ pc_go_self ..)
      · rw [pc_go_of_ne _ _ hd]
        exact hpc d

theorem Phase.trap (hl : LazyAt t x N e) (h : Phase t fm x N e s) (hn : ∀ d, ¬ Handling (s.pc d))
    (hs : s.step x (.trap c vma) = some s') : Phase t fm x N e s' := by
  obtain ⟨M, e', hvma⟩ : ∃ M e', walk s.t pagelevels vma = (M, e') := ⟨_, _, rfl⟩
  rw [step, hvma] at hs
  obtain ⟨⟨-, hpres, hidx⟩, hs⟩ := Option.ite_none_right_eq_some.mp hs
  have hM : 1 ≤ M := by
    have := one_le_walk s.t (show 1 ≤ pagelevels by decide) vma
    rwa [hvma] at this
  have hsame : walk s.t pagelevels x = (M, e') := (walk_congr (by rw [hvma]) hM hidx).trans hvma
  cases hs
  cases h with
  | before ht hfm hpc =>
    rw [ht] at hsame hvma
    obtain ⟨rfl, rfl⟩ := Prod.mk.inj (hl.walk.symm.trans hsame)
    refine .during c ht (fun d hd => (pc_go_of_ne _ _ hd).trans (hpc d)) ?_
    rw [pc_go_self]
    exact ⟨hidx, hvma.trans hl.walk.symm, hfm⟩
  | during c₀ ht hpc hc =>
    refine absurd ?_ (hn c₀)
    cases hpcc : s.pc c₀ with
    | resumed => exact absurd hc (by rw [hpcc]; exact id)
    | returned => exact absurd hc (by rw [hpcc]; exact id)
    | read | alloc | write => trivial
  | after a ht ha hlt htaken hpc =>
    -- the page is mapped: no access traps
    have hleaf : isTable N (filled e a) = false :=
      isTable_eq_false_of_isPage (isPage_faulted hl.isPage)
    rw [ht, walk_setPE hl.walk (by decide) hleaf, if_pos rfl] at hsame
    cases hsame
    exact absurd (hpres.symm.trans (present_filled e a)) (by decide)

/-- **Every step under the condition stays within the three phases.** -/
theorem Phase.step (hinv : Inv fm) (hcap : fm.bitcount * dps ≤ 2 ^ framebits) (hl : LazyAt t x N e)
    (h : Phase t fm x N e s) {b : FaultAction ι} (hb : s.Alone b) (hs : s.step x b = some s') :
    Phase t fm x N e s' := by
  cases b with
  | trap c vma => exact h.trap hl hb hs
  | advance c => exact h.advance hinv hcap hl hs

omit [DecidableEq ι] in
theorem Phase.once (hl : LazyAt t x N e) (h : Phase t fm x N e s) : Once x N fm s := by
  cases h with
  | before ht hfm hpc =>
    have hentry : s.entryAt x = e := by rw [entryAt, ht, hl.walk]
    exact
      { one := ⟨0, fun f hf => absurd hf (not_gone hfm f)⟩
        mapped := fun f hf => absurd hf (not_gone hfm f)
        seen := fun hp => by rw [hentry, hl.present] at hp; cases hp
        returned := fun hc => by rw [hpc] at hc; cases hc }
  | during c ht hpc hc =>
    have hentry : s.entryAt x = e := by rw [entryAt, ht, hl.walk]
    have hgone : ∀ f, Gone fm s f → ∃ vma a, s.pc c = .write N vma a ∧ ofPage N a f := by
      intro f hf
      cases hpcc : s.pc c with
      | resumed => exact absurd hc (by rw [hpcc]; exact id)
      | returned => exact absurd hc (by rw [hpcc]; exact id)
      | read => rw [hpcc] at hc; exact absurd hf (not_gone hc.2.2 f)
      | alloc => rw [hpcc] at hc; exact absurd hf (not_gone hc.2.2 f)
      | write K vma a =>
        rw [hpcc] at hc
        obtain ⟨rfl, -, -, -, htaken⟩ := hc
        exact ⟨vma, a, rfl, (gone_of_taken htaken f).mp hf⟩
    exact
      { one := by
          by_cases hw : ∃ vma a, s.pc c = .write N vma a
          · obtain ⟨vma, a, hw⟩ := hw
            refine ⟨a, fun f hf => ?_⟩
            obtain ⟨vma', a', hw', hf'⟩ := hgone f hf
            obtain ⟨-, -, rfl⟩ := FaultPc.write.inj (hw.symm.trans hw')
            exact hf'
          · refine ⟨0, fun f hf => ?_⟩
            obtain ⟨vma, a, hw', -⟩ := hgone f hf
            exact absurd ⟨vma, a, hw'⟩ hw
        mapped := fun f hf => Or.inl ⟨c, hgone f hf⟩
        seen := fun hp => by rw [hentry, hl.present] at hp; cases hp
        returned := fun {d result} hd => by
          by_cases hdc : d = c
          · rw [← hdc, hd] at hc
            exact hc.elim
          · rw [hpc d hdc] at hd
            cases hd }
  | after a ht ha hlt htaken hpc =>
    have hentry : s.entryAt x = filled e a := by
      have hleaf : isTable N (filled e a) = false :=
        isTable_eq_false_of_isPage (isPage_faulted hl.isPage)
      rw [entryAt, ht, walk_setPE hl.walk (by decide) hleaf, if_pos rfl]
    have haddr : (s.entryAt x).addr.toNat = a := by rw [hentry, addr_filled ha hlt]
    have hpres : (s.entryAt x).present = true := by rw [hentry, present_filled]
    exact
      { one := ⟨a, fun f hf => (gone_of_taken htaken f).mp hf⟩
        mapped := fun f hf => Or.inr ⟨hpres, by rw [haddr]; exact (gone_of_taken htaken f).mp hf⟩
        seen := fun _ f hf => (gone_of_taken htaken f).mpr (by rwa [haddr] at hf)
        returned := fun {c result} hc => by
          refine ⟨?_, hpres⟩
          rcases hpc c with h | h
          · rw [h] at hc
            cases hc
          · rw [h] at hc
            exact (FaultPc.returned.inj hc).symm }

/-! ## Whole runs -/

/-- **A page gets one frame if a core traps only while no other one is handling a fault.** -/
theorem faults_once (hinv : Inv fm) (hcap : fm.bitcount * dps ≤ 2 ^ framebits)
    (hl : LazyAt t x N e) {as : List (FaultAction ι)} (hrun : run (step x) (init t fm) as = some s)
    (hg : Guarded (step x) Alone (init t fm) as) : Once x N fm s :=
  (invariant_of_guarded (fun h hb hs => h.step hinv hcap hl hb hs)
    (.before rfl rfl fun _ => rfl) hg hrun : Phase t fm x N e s).once hl

/-! ## Two cores on one page -/

/-- Tables in which only the first page is mapped, lazily. -/
def onePage : Tables := fun n i => if n = 1 then if i = 0 then lazyPage ||| data else 0
      else pageTable

theorem lazyAt_onePage : LazyAt onePage 0 1 (lazyPage ||| data) :=
  ⟨by decide +kernel, by decide +kernel, by decide +kernel, by decide +kernel⟩

theorem index_onePage (h : vma < pagesize 1) : index 1 vma = 0 := by
  rw [index, Nat.mod_eq_of_lt (h.trans (by decide)), Nat.div_eq_of_lt h]

@[simp] theorem go_go (s : Faults ι) (c : ι) (pc pc' : FaultPc) :
    (s.go c pc).go c pc' = s.go c pc' := by
  simp [go]

/-- `fault<4>` down to `fault<1>`, through tables that do not change. -/
theorem run_reads (hc : s.pc c = .read pagelevels vma) (ht : ∀ K i, 1 < K → s.t K i = pageTable) :
    run (step 0) s (.replicate 4 (.advance c)) =
      some (s.go c (afterRead 1 vma (s.t 1 (index 1 vma)))) := by
  have hread : ∀ K, (s.go c (.read (K + 1) vma)).advance c =
      some (s.go c (afterRead (K + 1) vma (s.t (K + 1) (index (K + 1) vma)))) := by
    intro K
    rw [Faults.advance, pc_go_self]
    simp [go]
  have htable :
      ∀ K, 1 ≤ K → (s.go c (.read (K + 1) vma)).advance c = some (s.go c (.read K vma)) := by
    intro K hK
    have hnot : isPage (K + 1) pageTable = false := by
      simp [isPage, show pageTable.large = false by decide, show K ≠ 0 by omega]
    rw [hread, ht _ _ (by omega), afterRead, if_pos (by decide), if_neg (by simp [hnot])]
    rfl
  have hself : s = s.go c (.read pagelevels vma) := by rw [go, ← hc, update_eq_self]
  nth_rewrite 1 [hself]
  exact run_cons.mpr ⟨_, htable 3 (by decide), run_cons.mpr ⟨_, htable 2 (by decide),
    run_cons.mpr ⟨_, htable 1 le_rfl, run_cons.mpr ⟨_, hread 0, rfl⟩⟩⟩⟩

theorem step_trap (hc : s.pc c = .resumed) (ht : s.t = onePage) (hvma : vma < pagesize 1) :
    step 0 s (.trap c vma) = some (s.go c (.read pagelevels vma)) := by
  have hidx := index_onePage hvma
  have hwalk :=
    walk_congr (congrArg Prod.fst lazyAt_onePage.walk) le_rfl (hidx.symm : index 1 0 = _)
  rw [step, ht, hwalk, lazyAt_onePage.walk]
  exact if_pos ⟨hc, by decide, hidx⟩

/-- The steps of a core that traps at `vma`, up to the allocation. -/
def toAlloc (c : ι) (vma : ℕ) : List (FaultAction ι) := .trap c vma :: .replicate 4 (.advance c)

/-- As long as nobody has stored the entry, a core that traps goes on to allocate. -/
theorem run_toAlloc (hc : s.pc c = .resumed) (ht : s.t = onePage) (hvma : vma < pagesize 1) :
    run (step 0) s (toAlloc c vma) = some (s.go c (.alloc 1 vma)) := by
  have hleaf : afterRead 1 vma (s.t 1 (index 1 vma)) = .alloc 1 vma := by
    rw [ht, index_onePage hvma, onePage, if_pos rfl, if_pos rfl, afterRead, if_neg (by decide),
      if_pos (by decide)]
  refine run_cons.mpr ⟨_, step_trap hc ht hvma, ?_⟩
  have hhigh : ∀ K i, 1 < K → (s.go c (.read pagelevels vma)).t K i = pageTable := fun K i hK => by
    rw [go, ht, onePage, if_neg (by omega)]
  rw [run_reads (pc_go_self ..) hhigh, go_go, show (s.go c _).t = s.t from rfl, hleaf]

theorem advance_alloc {fm' : FrameManager} (hc : s.pc c = .alloc N vma)
    (ha : s.fm.allocFrame N = .ok (a, fm')) (htop : a ≠ topaddr) :
    step x s (.advance c) = some ({ s with fm := fm' }.go c (.write N vma a)) := by
  simp [step, Faults.advance, hc, ha, htop]

theorem advance_write (hc : s.pc c = .write N vma a) : step x s (.advance c) = some ({ s with
      t := setPE s.t (N, index N vma) (filled (s.t N (index N vma)) a) }.go c
      (.returned true)) := by
  simp [step, Faults.advance, hc, filled]

/-- A small machine with one free block. -/
theorem exists_twoFrames : ∃ fm,
    ((FrameManager.init (2 ^ 23)).bind fun fm => fm.releaseRegion (2 ^ 21) (2 ^ 21)) = .ok fm ∧
      Inv fm ∧ fm.lplock = false ∧ fm.bitcount * dps ≤ 2 ^ framebits ∧ fm.free 512 ∧
      fm.free 513 := by
  obtain ⟨fm, hfm, hinv, hlp, hcap⟩ := exists_oneBlock
  have hfree : (((FrameManager.init (2 ^ 23)).bind fun fm => fm.releaseRegion (2 ^ 21) (2 ^ 21)).map
      fun fm => decide (fm.free 512 ∧ fm.free 513)) = .ok true := by decide +kernel
  rw [hfm] at hfree
  exact ⟨fm, hfm, hinv, hlp, hcap, of_decide_eq_true (Except.ok.inj hfree)⟩

/-- One core faults, and the page is mapped. -/
theorem faults_once_oneCore : ∃ fm, ∃ s : Faults Bool,
    ((FrameManager.init (2 ^ 23)).bind fun fm => fm.releaseRegion (2 ^ 21) (2 ^ 21)) = .ok fm ∧
      run (step 0) (init onePage fm) (toAlloc true 8 ++ [.advance true, .advance true]) = some s ∧
      s.pc true = .returned true ∧ Once 0 1 fm s := by
  obtain ⟨fm, hfm, hinv, hlp, hcap, hfree, -⟩ := exists_twoFrames
  obtain ⟨g, fm', halloc, -, -⟩ := exists_allocFrame hinv hlp hfree
  have hrun : ∃ s : Faults Bool, run (step 0) (init onePage fm)
      (toAlloc true 8 ++ [.advance true, .advance true]) = some s ∧ s.pc true = .returned true :=
    ⟨_, run_append.mpr ⟨_, run_toAlloc rfl rfl (by decide), run_cons.mpr
      ⟨_, advance_alloc (pc_go_self ..) halloc (mul_sps_ne_topaddr g), run_cons.mpr
        ⟨_, advance_write (pc_go_self ..), rfl⟩⟩⟩, pc_go_self ..⟩
  obtain ⟨s, hs, hpc⟩ := hrun
  have hg : Guarded (step 0) Alone (init onePage fm)
      (.trap true 8 :: (List.replicate 4 (.advance true) ++ [.advance true, .advance true])) := by
    refine ⟨fun _ => id, fun s' _ => guarded_of_forall fun b hb => ?_⟩
    obtain rfl : b = .advance true := by simpa using hb
    exact fun _ => trivial
  exact ⟨fm, s, hfm, hs, hpc, faults_once hinv hcap lazyAt_onePage hs hg⟩

omit [DecidableEq ι] in
/-- The entry that a store writes, whatever was there. -/
theorem entry_stored (hs : s.t = setPE t (1, 0) (filled e a))
    (h4 : ∀ K i, 1 < K → t K i = pageTable) : s.entryAt 0 = filled e a := by
  have hnot : ∀ K, isTable (K + 2) pageTable = true := fun K => by
    simp [isTable, isPage, show pageTable.present = true by decide,
      show pageTable.large = false by decide]
  have hhigh : ∀ K i, setPE t (1, 0) (filled e a) (K + 2) i = pageTable := fun K i => by
    rw [setPE_of_ne _ _ (by omega), h4 _ _ (by omega)]
  have hlow : setPE t (1, 0) (filled e a) 1 (index 1 0) = filled e a := setPE_self ..
  rw [entryAt, hs, show pagelevels = 4 from rfl]
  simp [walk, hhigh, hnot, hlow, isTable_one]

/-- Both cores have read the entry before either stores it. -/
theorem exists_run_both {g h : ℕ} {fm₁ fm₂ : FrameManager}
    (hg : fm.allocFrame 1 = .ok (g * sps, fm₁)) (hh : fm₁.allocFrame 1 = .ok (h * sps, fm₂)) :
    ∃ s : Faults Bool, run (step 0) (init onePage fm) [toAlloc false 0, toAlloc true 8,
        [.advance false, .advance true, .advance false, .advance true]].flatten = some s ∧
      (∀ c, s.pc c = .returned true) ∧ s.fm = fm₂ ∧
      ∃ e t, s.t = setPE t (1, 0) (filled e (h * sps)) ∧ ∀ K i, 1 < K → t K i = pageTable := by
  simp only [List.flatten_cons, List.flatten_nil, List.append_nil]
  refine ⟨_, run_append.mpr ⟨_, run_toAlloc rfl rfl (by decide),
    run_append.mpr ⟨_, run_toAlloc rfl rfl (by decide), run_cons.mpr
      ⟨_, advance_alloc (N := 1) (a := g * sps) rfl hg (mul_sps_ne_topaddr g), run_cons.mpr
        ⟨_, advance_alloc (N := 1) (a := h * sps) rfl hh (mul_sps_ne_topaddr h), run_cons.mpr
          ⟨_, advance_write (N := 1) (a := g * sps) rfl, run_cons.mpr
            ⟨_, advance_write (N := 1) (a := h * sps) rfl, rfl⟩⟩⟩⟩⟩⟩, ?_, rfl, _, _, rfl, ?_⟩
  · intro c
    cases c <;> rfl
  · intro K i hK
    rw [show index 1 0 = 0 from rfl]
    show setPE onePage (1, _) _ K i = _
    rw [setPE_of_ne _ _ (by omega), onePage, if_neg (by omega)]

/-- One core traps, the other one maps the page, and the first one reads the entry. -/
theorem exists_run_late {g : ℕ} {fm₁ : FrameManager} (hg : fm.allocFrame 1 = .ok (g * sps, fm₁)) :
    ∃ s : Faults Bool, run (step 0) (init onePage fm) [[.trap true 8], toAlloc false 0,
        .replicate 2 (.advance false), .replicate 4 (.advance true)].flatten = some s ∧
      s.pc true = .returned false := by
  have hfilled : afterRead 1 8 (filled (lazyPage ||| data) (g * sps)) = .returned false := by
    rw [afterRead, if_pos (present_filled _ _), if_pos (isPage_one _)]
  simp only [List.flatten_cons, List.flatten_nil, List.append_nil]
  refine ⟨_, run_append.mpr ⟨_, run_cons.mpr ⟨_, step_trap rfl rfl (by decide), rfl⟩,
    run_append.mpr ⟨_, run_toAlloc rfl rfl (by decide), run_append.mpr ⟨_, run_cons.mpr
      ⟨_, advance_alloc (N := 1) (a := g * sps) rfl hg (mul_sps_ne_topaddr g), run_cons.mpr
        ⟨_, advance_write (N := 1) (a := g * sps) rfl, rfl⟩⟩,
        run_reads rfl fun K i hK => ?_⟩⟩⟩, ?_⟩
  · show setPE onePage (1, _) _ K i = _
    rw [setPE_of_ne _ _ (by omega), onePage, if_neg (by omega)]
  · exact hfilled

/-- **Two cores both allocate**: each finds the page lazily mapped before the other one stores its
entry, and the frame of the first store is lost.  A core that traps before the store and reads the
entry after it makes its handler reboot. -/
theorem faults_twice : ∃ fm,
    ((FrameManager.init (2 ^ 23)).bind fun fm => fm.releaseRegion (2 ^ 21) (2 ^ 21)) = .ok fm ∧
    (∃ s : Faults Bool, ∃ g h, run (step 0) (init onePage fm) [toAlloc false 0, toAlloc true 8,
        [.advance false, .advance true, .advance false, .advance true]].flatten = some s ∧
      (∀ c, s.pc c = .returned true) ∧ g ≠ h ∧ Gone fm s g ∧ Gone fm s h ∧
      (s.entryAt 0).addr.toNat = h * sps ∧ ¬ Once 0 1 fm s) ∧
    ∃ s : Faults Bool, run (step 0) (init onePage fm) [[.trap true 8], toAlloc false 0,
        .replicate 2 (.advance false), .replicate 4 (.advance true)].flatten = some s ∧
      s.pc true = .returned false ∧ ¬ Once 0 1 fm s := by
  obtain ⟨fm, hfm, hinv, hlp, hcap, hfree, hfree'⟩ := exists_twoFrames
  obtain ⟨g, fm₁, halloc, -, ht⟩ := exists_allocFrame hinv hlp hfree
  have hnext : ∃ f, fm₁.free f := by
    by_cases hg : g = 512
    · exact ⟨513, (ht.free _).mpr ⟨hfree', by omega⟩⟩
    · exact ⟨512, (ht.free _).mpr ⟨hfree, fun h => hg h.symm⟩⟩
  obtain ⟨f, hf⟩ := hnext
  obtain ⟨h, fm₂, halloc', hh, ht'⟩ := exists_allocFrame ht.inv (ht.lplock.trans hlp) hf
  refine ⟨fm, hfm, ?_, ?_⟩
  · obtain ⟨s, hs, hpc, hfm₂, e, t, htables, hhigh⟩ := exists_run_both halloc halloc'
    have hne : g ≠ h := fun he => ((ht.free h).mp (ht'.wasFree h rfl)).2 he.symm
    have hgone : ∀ k, fm.free k → ¬ fm₂.free k → Gone fm s k := fun k hk hn => ⟨hk, hfm₂ ▸ hn⟩
    have hgg : Gone fm s g := hgone g (ht.wasFree g rfl)
      fun hk => ((ht.free g).mp ((ht'.free g).mp hk).1).2 rfl
    have hgh : Gone fm s h := hgone h ((ht.free h).mp (ht'.wasFree h rfl)).1
      fun hk => ((ht'.free h).mp hk).2 rfl
    have hlt : h * sps < 2 ^ framebits := by
      rw [ht.bitcount] at hh
      exact (mul_sps_lt hh).trans_le hcap
    refine ⟨s, g, h, hs, hpc, hne, hgg, hgh, ?_, fun honce => ?_⟩
    · rw [entry_stored htables hhigh, addr_filled (Nat.mul_mod_left _ _) hlt]
    · obtain ⟨b, hb⟩ := honce.one
      have h1 := hb g hgg
      have h2 := hb h hgh
      simp only [ofPage, inRegion, show pagesize 1 = 4096 from rfl,
        show sps = 4096 from rfl] at h1 h2
      omega
  · obtain ⟨s, hs, hpc⟩ := exists_run_late halloc
    exact ⟨s, hs, hpc, fun honce => absurd (honce.returned hpc).1 (by decide)⟩

end Faults

end Paging

end Kos
