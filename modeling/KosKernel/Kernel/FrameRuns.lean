import KosKernel.Kernel.FreeFrames
import KosKernel.Lib.Runs
import Mathlib.Data.Finset.Image

/-!
# Kernel/FrameRuns — the frame manager over whole runs

A run is `init`, a sequence of `releaseRegion`s, and then calls of `allocFrame` and `releaseFrame`
by clients that give back only what they hold.  The frames handed out are kept beside the manager;
they are a record of the run, not something the code stores.
-/

namespace Kos

open Runs

namespace FrameManager

/-! ## Bootstrap -/

/-- The `releaseRegion` calls of the bootstrap, each with an address and a size. -/
def releaseRegions : FrameManager → List (ℕ × ℕ) → Except Fault FrameManager
  | fm, [] => .ok fm
  | fm, r :: rs =>
    match fm.releaseRegion r.1 r.2 with
    | .error e => .error e
    | .ok fm' => releaseRegions fm' rs

/-- The addresses of a region. -/
def inRegion (r : ℕ × ℕ) (x : ℕ) : Prop := r.1 ≤ x ∧ x < r.1 + r.2

/-- Frame-aligned regions below `top`, pairwise disjoint. -/
structure Regions (top : ℕ) (rs : List (ℕ × ℕ)) : Prop where
  aligned : ∀ r ∈ rs, r.1 % sps = 0 ∧ r.2 % sps = 0
  below : ∀ r ∈ rs, r.1 + r.2 ≤ top
  disjoint : rs.Pairwise fun r r' => ∀ x, ¬ (inRegion r x ∧ inRegion r' x)

variable {r : ℕ × ℕ}

/-- The frames of an aligned region, by number and by address. -/
theorem inRegion_frame_iff (h1 : r.1 % sps = 0) (h2 : r.2 % sps = 0) (f : ℕ) :
    inRegion r (f * sps) ↔ r.1 / sps ≤ f ∧ f < r.1 / sps + r.2 / sps := by
  rw [inRegion, Nat.div_le_iff_le_mul_add_pred sps_pos]
  simp only [sps, pagesize, pagesizebits, pageoffsetbits, pagetablebits, spl] at *
  omega

/-- What the manager is during the bootstrap, with `rs` still to be released. -/
structure Booting (top : ℕ) (rs : List (ℕ × ℕ)) (fm : FrameManager) : Prop where
  inv : Inv fm
  lplock : fm.lplock = false
  covers : top ≤ fm.bitcount * dps
  pending : ∀ r ∈ rs, ∀ f, inRegion r (f * sps) → ¬ fm.free f

variable {top : ℕ}

/-- **One `releaseRegion` of the bootstrap**: it returns and frees exactly its region. -/
theorem Booting.step {rs : List (ℕ × ℕ)} {fm : FrameManager} (h : Booting top (r :: rs) fm)
    (hr : Regions top (r :: rs)) : ∃ fm', fm.releaseRegion r.1 r.2 = .ok fm' ∧ Booting top rs fm' ∧
      ∀ f, fm'.free f ↔ fm.free f ∨ inRegion r (f * sps) := by
  obtain ⟨ha, hs⟩ := hr.aligned r List.mem_cons_self
  have hframe := inRegion_frame_iff ha hs
  obtain ⟨fm', hcall, hrel⟩ := releaseRegion_spec h.inv h.lplock ha hs
    ((hr.below r List.mem_cons_self).trans h.covers)
    (fun f h1 h2 => h.pending r List.mem_cons_self f ((hframe f).mpr ⟨h1, h2⟩))
  have hfree : ∀ f, fm'.free f ↔ fm.free f ∨ inRegion r (f * sps) := fun f => by
    rw [hrel.free, hframe]
  refine ⟨fm', hcall, ⟨hrel.inv, hrel.lplock.trans h.lplock, hrel.bitcount ▸ h.covers, ?_⟩, hfree⟩
  intro r' hr' f hf
  rw [hfree, not_or]
  exact ⟨h.pending r' (List.mem_cons_of_mem _ hr') f hf,
    fun hc => (List.pairwise_cons.mp hr.disjoint).1 r' hr' _ ⟨hc, hf⟩⟩

theorem Regions.tail {rs : List (ℕ × ℕ)} (h : Regions top (r :: rs)) : Regions top rs :=
  ⟨fun r' hr' => h.aligned r' (List.mem_cons_of_mem _ hr'),
    fun r' hr' => h.below r' (List.mem_cons_of_mem _ hr'), (List.pairwise_cons.mp h.disjoint).2⟩

/-- The whole bootstrap after `init`. -/
theorem Booting.run (rs : List (ℕ × ℕ)) {fm : FrameManager} {rest : List (ℕ × ℕ)}
    (h : Booting top (rs ++ rest) fm) (hr : Regions top (rs ++ rest)) :
    ∃ fm', releaseRegions fm rs = .ok fm' ∧ Booting top rest fm' ∧ Regions top rest ∧
      ∀ f, fm'.free f ↔ fm.free f ∨ ∃ r ∈ rs, inRegion r (f * sps) := by
  induction rs generalizing fm rest with
  | nil => exact ⟨fm, rfl, h, hr, fun f => by simp⟩
  | cons r rs ih =>
    obtain ⟨fm₁, hcall, h₁, hfree₁⟩ := h.step hr
    obtain ⟨fm', hrun, h', hr', hfree⟩ := ih h₁ hr.tail
    refine ⟨fm', ?_, h', hr', fun f => ?_⟩
    · rw [releaseRegions, hcall]
      exact hrun
    · simp only [hfree, hfree₁, or_assoc, List.mem_cons, exists_eq_or_imp]

/-! ## Calls -/

inductive Call
  | alloc1
  | alloc2
  | release1 (addr : ℕ)
  | release2 (addr : ℕ)
  deriving DecidableEq

/-- The manager and the frames its clients hold. -/
structure World where
  fm : FrameManager
  out : Finset ℕ

/-- The frames of a block. -/
def blockFrames (i : ℕ) : Finset ℕ := (Finset.range 512).image (i * 512 + ·)

theorem mem_blockFrames {i f : ℕ} : f ∈ blockFrames i ↔ f / pagetableentries = i := by
  rw [blockFrames, show pagetableentries = 512 from rfl]
  simp only [Finset.mem_image, Finset.mem_range]
  constructor
  · rintro ⟨o, ho, rfl⟩
    omega
  · intro h
    exact ⟨f % 512, Nat.mod_lt _ (by norm_num), by omega⟩

/-- A client releases only frames it holds. -/
def Allowed (w : World) : Call → Prop
  | .alloc1 => True
  | .alloc2 => True
  | .release1 addr => addr % sps = 0 ∧ addr / sps ∈ w.out
  | .release2 addr => addr % dps = 0 ∧ blockFrames (addr / dps) ⊆ w.out

instance (w : World) : ∀ c, Decidable (Allowed w c)
  | .alloc1 => inferInstanceAs (Decidable True)
  | .alloc2 => inferInstanceAs (Decidable True)
  | .release1 _ => inferInstanceAs (Decidable (_ ∧ _))
  | .release2 _ => inferInstanceAs (Decidable (_ ∧ _))

/-- One call: its result (zero for a release), and the frames held afterwards. -/
def call (w : World) : Call → Except Fault (ℕ × World)
  | .alloc1 => (w.fm.allocFrame spl).map fun (a, fm) =>
      (a, ⟨fm, if a = topaddr then w.out else insert (a / sps) w.out⟩)
  | .alloc2 => (w.fm.allocFrame dpl).map fun (a, fm) =>
      (a, ⟨fm, if a = topaddr then w.out else w.out ∪ blockFrames (a / dps)⟩)
  | .release1 addr => (w.fm.releaseFrame spl addr).map fun fm => (0, ⟨fm, w.out.erase (addr / sps)⟩)
  | .release2 addr => (w.fm.releaseFrame dpl addr).map fun fm =>
      (0, ⟨fm, w.out \ blockFrames (addr / dps)⟩)

/-- A step of a run: a call that is allowed and returns. -/
def step (w : World) (c : Call) : Option World :=
  if Allowed w c then (call w c).toOption.map Prod.snd else none

/-- What a call does to the set of free frames: an allocation removes exactly the frame or block it
returns, all of it free before, and reports `topaddr` only when there is none; a release adds
exactly what it is given. -/
def Effect (fm fm' : FrameManager) (a : ℕ) : Call → Prop
  | .alloc1 => if a = topaddr then (∀ f, ¬ fm.free f) ∧ ∀ f, ¬ fm'.free f
      else ∃ f, a = f * sps ∧ fm.free f ∧ ∀ g, fm'.free g ↔ fm.free g ∧ g ≠ f
  | .alloc2 => if a = topaddr then
        (∀ i, ∃ f ∈ blockFrames i, ¬ fm.free f) ∧ ∀ g, fm'.free g ↔ fm.free g
      else ∃ i, a = i * dps ∧ (∀ f ∈ blockFrames i, fm.free f) ∧
        ∀ g, fm'.free g ↔ fm.free g ∧ g ∉ blockFrames i
  | .release1 addr => ∀ g, fm'.free g ↔ fm.free g ∨ g = addr / sps
  | .release2 addr => ∀ g, fm'.free g ↔ fm.free g ∨ g ∈ blockFrames (addr / dps)

/-- The invariant of a run: the manager's own, and the frames held are not free. -/
structure WorldInv (w : World) : Prop where
  inv : Inv w.fm
  held : ∀ f ∈ w.out, ¬ w.fm.free f
  inRange : ∀ f ∈ w.out, f / pagetableentries < w.fm.bitcount

theorem mul_sps_ne_topaddr (f : ℕ) : f * sps ≠ topaddr := by
  simp only [sps, pagesize, pagesizebits, pageoffsetbits, pagetablebits, spl, topaddr, limit,
    wordSize]
  omega

theorem mul_dps_ne_topaddr (i : ℕ) : i * dps ≠ topaddr := by
  rw [dps_eq]
  simp only [topaddr, limit, wordSize]
  omega

variable {w w' : World} {c : Call}

/-- **One call keeps the invariant and has its effect**, and leaves `lplock` as it was unless it is
an `allocFrame<1>` that finds nothing. -/
theorem call_spec {a : ℕ} (hw : WorldInv w) (hc : Allowed w c) (h : call w c = .ok (a, w')) :
    WorldInv w' ∧ Effect w.fm w'.fm a c ∧
      (w'.fm.lplock = w.fm.lplock ∨ c = .alloc1 ∧ ∀ f, ¬ w.fm.free f) := by
  cases c with
  | alloc1 =>
    obtain ⟨⟨a', fm'⟩, hr, he⟩ := Fault.map_eq_ok h
    cases he
    rcases allocFrame1_spec hw.inv hr with ⟨rfl, hnone, rfl⟩ | ⟨f, rfl, hf, ht⟩
    · rw [if_pos rfl]
      refine ⟨{ hw with inv := hw.inv.acquire_lplock }, ?_, Or.inr ⟨rfl, hnone⟩⟩
      rw [Effect, if_pos rfl]
      exact ⟨hnone, hnone⟩
    · rw [if_neg (mul_sps_ne_topaddr f), Nat.mul_div_cancel _ sps_pos]
      refine ⟨⟨ht.inv, fun g hg => ?_, fun g hg => ?_⟩, ?_, Or.inl ht.lplock⟩
      · rw [ht.free]
        rintro ⟨hfree, hne⟩
        exact (Finset.mem_insert.mp hg).elim hne fun hg => hw.held g hg hfree
      · show _ < fm'.bitcount
        rw [ht.bitcount]
        rcases Finset.mem_insert.mp hg with rfl | hg
        · exact Nat.div_lt_of_lt_mul (by rw [mul_comm]; exact hf)
        · exact hw.inRange g hg
      · rw [Effect, if_neg (mul_sps_ne_topaddr f)]
        exact ⟨f, rfl, ht.wasFree f rfl, ht.free⟩
  | alloc2 =>
    obtain ⟨⟨a', fm'⟩, hr, he⟩ := Fault.map_eq_ok h
    cases he
    rcases allocFrame2_spec hw.inv hr with ⟨rfl, hnone, rfl⟩ | ⟨i, rfl, hi, ht⟩
    · refine ⟨by simpa using hw, ?_, Or.inl rfl⟩
      rw [Effect, if_pos rfl]
      simp only [mem_blockFrames]
      exact ⟨hnone, fun g => trivial⟩
    · rw [if_neg (mul_dps_ne_topaddr i), Nat.mul_div_cancel _ dps_pos]
      refine ⟨⟨ht.inv, fun g hg => ?_, fun g hg => ?_⟩, ?_, Or.inl ht.lplock⟩
      · rw [ht.free]
        rintro ⟨hfree, hne⟩
        exact (Finset.mem_union.mp hg).elim (fun hg => hw.held g hg hfree)
          fun hg => hne (mem_blockFrames.mp hg)
      · show _ < fm'.bitcount
        rw [ht.bitcount]
        rcases Finset.mem_union.mp hg with hg | hg
        · exact hw.inRange g hg
        · rw [mem_blockFrames.mp hg]
          exact hi
      · rw [Effect, if_neg (mul_dps_ne_topaddr i)]
        simp only [mem_blockFrames]
        exact ⟨i, rfl, ht.wasFree, ht.free⟩
  | release1 addr =>
    obtain ⟨fm', hr, he⟩ := Fault.map_eq_ok h
    cases he
    obtain ⟨ha, hout⟩ := hc
    have hrel := releaseFrame1_spec hw.inv (div_dps addr ▸ hw.inRange _ hout) (hw.held _ hout) hr
    refine ⟨⟨hrel.inv, fun g hg => ?_, fun g hg => ?_⟩, hrel.free, Or.inl hrel.lplock⟩
    · rw [hrel.free, not_or]
      exact ⟨hw.held g (Finset.mem_of_mem_erase hg), Finset.ne_of_mem_erase hg⟩
    · show _ < fm'.bitcount
      rw [hrel.bitcount]
      exact hw.inRange g (Finset.mem_of_mem_erase hg)
  | release2 addr =>
    obtain ⟨fm', hr, he⟩ := Fault.map_eq_ok h
    cases he
    obtain ⟨ha, hout⟩ := hc
    have hin : addr / dps < w.fm.bitcount := by
      have hmem : addr / dps * 512 + 0 ∈ blockFrames (addr / dps) :=
        mem_blockFrames.mpr (div_entries _ (by norm_num))
      have := hw.inRange _ (hout hmem)
      rwa [div_entries _ (by norm_num)] at this
    have hrel := releaseFrame2_spec hw.inv hin
      (fun f hf => hw.held f (hout (mem_blockFrames.mpr hf))) hr
    refine ⟨⟨hrel.inv, fun g hg => ?_, fun g hg => ?_⟩, ?_, Or.inl hrel.lplock⟩
    · rw [hrel.free, not_or, ← mem_blockFrames]
      exact ⟨hw.held g (Finset.mem_sdiff.mp hg).1, (Finset.mem_sdiff.mp hg).2⟩
    · show _ < fm'.bitcount
      rw [hrel.bitcount]
      exact hw.inRange g (Finset.mem_sdiff.mp hg).1
    · simp only [Effect, mem_blockFrames]
      exact hrel.free

/-- With `lplock` released, every allowed call returns. -/
theorem call_returns (hw : WorldInv w) (hlp : w.fm.lplock = false) (hc : Allowed w c) :
    ∃ r, call w c = .ok r := by
  cases c with
  | alloc1 =>
    obtain ⟨r, hr⟩ := allocFrame1_returns hw.inv.unlocked hlp
    exact ⟨_, congrArg (Except.map _) hr⟩
  | alloc2 =>
    obtain ⟨r, hr⟩ := allocFrame2_returns hlp
    exact ⟨_, congrArg (Except.map _) hr⟩
  | release1 addr =>
    obtain ⟨r, hr⟩ := releaseFrame1_returns hc.1 hw.inv.unlocked hlp
    exact ⟨_, congrArg (Except.map _) hr⟩
  | release2 addr =>
    obtain ⟨r, hr⟩ := releaseFrame2_returns hc.1 hlp
    exact ⟨_, congrArg (Except.map _) hr⟩

theorem step_eq_some (h : step w c = some w') : Allowed w c ∧ ∃ a, call w c = .ok (a, w') := by
  unfold step at h
  split at h
  · rename_i hc
    refine ⟨hc, ?_⟩
    cases hcall : call w c with
    | error e => rw [hcall] at h; cases h
    | ok r =>
      rw [hcall] at h
      cases h
      exact ⟨r.1, rfl⟩
  · cases h

theorem step_of_call {a : ℕ} (hc : Allowed w c) (h : call w c = .ok (a, w')) :
    step w c = some w' := by
  rw [step, if_pos hc, h]
  rfl

/-! ## Runs -/

/-- The condition on a step under which `lplock` is not leaked. -/
def SomeFree (w : World) (c : Call) : Prop := c = .alloc1 → ∃ f, w.fm.free f

/-- The state of a run is as it should be: the containers are separated, and whatever allowed call
comes next returns with its effect. -/
structure Sound (w : World) : Prop where
  separated : Separated w.fm
  next : ∀ c, Allowed w c → ∃ a w', call w c = .ok (a, w') ∧ Effect w.fm w'.fm a c

theorem sound_of_worldInv (hw : WorldInv w) (hlp : w.fm.lplock = false) : Sound w := by
  refine ⟨hw.inv.toSeparated, fun c hc => ?_⟩
  obtain ⟨⟨a, w'⟩, hcall⟩ := call_returns hw hlp hc
  exact ⟨a, w', hcall, (call_spec hw hc hcall).2.1⟩

/-- A step that meets the condition keeps the invariant and leaves `lplock` released. -/
theorem step_inv (hw : WorldInv w ∧ w.fm.lplock = false) (hg : SomeFree w c)
    (h : step w c = some w') : WorldInv w' ∧ w'.fm.lplock = false := by
  obtain ⟨hc, a, hcall⟩ := step_eq_some h
  obtain ⟨hw', -, hlp | ⟨rfl, hnone⟩⟩ := call_spec hw.1 hc hcall
  · exact ⟨hw', hlp.trans hw.2⟩
  · obtain ⟨f, hf⟩ := hg rfl
    exact absurd hf (hnone f)

/-- The bootstrap before any region is released. -/
theorem booting_init (hpos : 0 < top) (htop : top ≤ 2 ^ 48) (rs : List (ℕ × ℕ)) :
    ∃ fm, init top = .ok fm ∧ Booting top rs fm ∧ ∀ f, ¬ fm.free f := by
  obtain ⟨fm, hfm, hinv, hlp, hcov, hnone⟩ := init_spec hpos htop
  exact ⟨fm, hfm, ⟨hinv, hlp, hcov, fun _ _ f _ => hnone f⟩, hnone⟩

/-- **The frame manager refines a set of free frames.**  `init` returns exactly for a memory of at
most 256 TB; then every `releaseRegion` of the bootstrap returns and frees exactly its region; and
in every run of calls in which `allocFrame<1>` is only called while some frame is free, every state
reached is sound. -/
theorem frameManager_refines_free_set {top : ℕ} (hlt : top < wordSize) {rs : List (ℕ × ℕ)}
    (hrs : Regions top rs) :
    ((∃ fm, init top = .ok fm) ↔ 0 < top ∧ top ≤ 2 ^ 48) ∧
    ∀ fm₀, init top = .ok fm₀ →
      (∀ f, ¬ fm₀.free f) ∧
      (∀ done r rest, rs = done ++ r :: rest → ∃ fm fm', releaseRegions fm₀ done = .ok fm ∧
        fm.releaseRegion r.1 r.2 = .ok fm' ∧ Separated fm' ∧
        ∀ f, fm'.free f ↔ fm.free f ∨ inRegion r (f * sps)) ∧
      ∃ fm, releaseRegions fm₀ rs = .ok fm ∧ ∀ calls w, run step ⟨fm, ∅⟩ calls = some w →
        Guarded step SomeFree ⟨fm, ∅⟩ calls → Sound w := by
  refine ⟨init_returns_iff hlt, fun fm₀ hfm₀ => ?_⟩
  obtain ⟨hpos, htop⟩ := (init_returns_iff hlt).mp ⟨fm₀, hfm₀⟩
  obtain ⟨fm, hfm, hboot, hnone⟩ := booting_init hpos htop rs
  obtain rfl := Except.ok.inj (hfm.symm.trans hfm₀)
  refine ⟨hnone, fun done r rest he => ?_, ?_⟩
  · subst he
    obtain ⟨fm₁, hrun, hboot₁, hrs₁, -⟩ := Booting.run done hboot hrs
    obtain ⟨fm₂, hcall, hboot₂, hfree⟩ := hboot₁.step hrs₁
    exact ⟨fm₁, fm₂, hrun, hcall, hboot₂.inv.toSeparated, hfree⟩
  · obtain ⟨fm₁, hrun, hboot₁, -, -⟩ := Booting.run rs
      (show Booting top (rs ++ []) fm by simpa using hboot) (by simpa using hrs)
    refine ⟨fm₁, hrun, fun calls w hw hg => ?_⟩
    have hstart : WorldInv ⟨fm₁, ∅⟩ ∧ fm₁.lplock = false :=
      ⟨⟨hboot₁.inv, by simp, by simp⟩, hboot₁.lplock⟩
    obtain ⟨hinv, hlp⟩ := invariant_of_guarded
      (P := fun w => WorldInv w ∧ w.fm.lplock = false) step_inv hstart hg hw
    exact sound_of_worldInv hinv hlp

/-- A machine of 2 GB with one region that neither starts nor ends on a block, and one
allocation. -/
theorem frameManager_refines_free_set_oneRegion : ∃ fm₀ fm w,
    init (2 ^ 31) = .ok fm₀ ∧ releaseRegions fm₀ [(2 ^ 21 - 2 ^ 12, 2 ^ 22)] = .ok fm ∧
      run step ⟨fm, ∅⟩ [.alloc1] = some w ∧ Sound w := by
  have hrs : Regions (2 ^ 31) [(2 ^ 21 - 2 ^ 12, 2 ^ 22)] :=
    ⟨by decide, by decide, List.pairwise_singleton _ _⟩
  obtain ⟨hinit, h⟩ := frameManager_refines_free_set (by decide) hrs
  obtain ⟨fm₀, hfm₀⟩ := hinit.mpr (by decide)
  obtain ⟨-, hregion, fm, hfm, hrun⟩ := h fm₀ hfm₀
  -- frame 511 is the first one of the region
  have hfree : fm.free 511 := by
    obtain ⟨fm₁, fm₂, h₁, h₂, -, hfree⟩ := hregion [] _ [] rfl
    obtain rfl : fm₀ = fm₁ := Except.ok.inj h₁
    obtain rfl : fm₂ = fm := by
      rw [releaseRegions, h₂] at hfm
      exact Except.ok.inj hfm
    exact (hfree 511).mpr (Or.inr ⟨by decide, by decide⟩)
  obtain ⟨a, w, hcall, -⟩ := (hrun [] _ rfl trivial).next .alloc1 trivial
  have hw : run step ⟨fm, ∅⟩ [.alloc1] = some w := run_cons.mpr ⟨w, step_of_call trivial hcall, rfl⟩
  exact ⟨fm₀, fm, w, hfm₀, hfm, hw, hrun _ w hw ⟨fun _ => ⟨511, hfree⟩, fun _ _ => trivial⟩⟩

/-- **The refinement fails without the conditions.**  With no frame free, `allocFrame<1>` returns
`topaddr` but keeps `lplock`, and the next `allocFrame<2>` spins; and `init` of a memory of more
than 256 TB writes past the `bitmaps` array. -/
theorem lplock_leak_stops_allocFrame2 :
    (∃ fm w, init (2 ^ 21) = .ok fm ∧ releaseRegions fm [] = .ok fm ∧
      call ⟨fm, ∅⟩ .alloc1 = .ok (topaddr, w) ∧ run step ⟨fm, ∅⟩ [.alloc1] = some w ∧
      Allowed w .alloc2 ∧ call w .alloc2 = .error .spin ∧ ¬ Sound w) ∧
    ¬ ∃ fm, init (2 ^ 48 + 1) = .ok fm := by
  constructor
  · obtain ⟨fm, hfm, hinv, hlp, -, hnone⟩ := init_spec (show 0 < 2 ^ 21 by decide) (by decide)
    obtain ⟨⟨a, fm'⟩, hr⟩ := allocFrame1_returns hinv.unlocked hlp
    rcases allocFrame1_spec hinv hr with ⟨rfl, -, rfl⟩ | ⟨f, -, -, ht⟩
    · have hcall : call ⟨fm, ∅⟩ .alloc1 = .ok (topaddr, ⟨{ fm with lplock := true }, ∅⟩) :=
        congrArg (Except.map _) hr
      have hspin : call ⟨{ fm with lplock := true }, ∅⟩ .alloc2 = .error .spin := rfl
      refine ⟨fm, _, hfm, rfl, hcall, ?_, trivial, hspin, fun hs => ?_⟩
      · exact run_cons.mpr ⟨_, step_of_call trivial hcall, rfl⟩
      · obtain ⟨a, w', hok, -⟩ := hs.next .alloc2 trivial
        rw [hspin] at hok
        cases hok
    · exact absurd (ht.wasFree f rfl) (hnone f)
  · rw [init_returns_iff (by decide)]
    decide

end FrameManager

end Kos
