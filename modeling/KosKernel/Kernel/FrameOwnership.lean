import KosKernel.Kernel.Process
import KosKernel.Machine.Entries
import KosKernel.Lib.Ownership

/-!
# Kernel/FrameOwnership — frames are released by whoever holds them

Every frame that a process can release stands in one place: in a page entry that is present or on
its way out, in the root of the page tables, or in a call of `releaseFrame` that is still to be
made.  The invariant says that such a frame has been handed out and stands in no second place,
unless it belongs to a boot module.  Page entries do not tell a frame of a boot module from any
other, so a release of one is excluded by the condition on the steps.
-/

namespace Kos

open Function Runs Paging PageEntry AddressSpace FrameManager Ownership

/-- The frame behind an entry. -/
def frameOf (e : PageEntry) : ℕ := e.addr.toNat / sps

/-- The frame that the entry `e` at level `N` and index `i` of the user half holds: it is present,
or between `unmapPage1` and `unmapPage2`. -/
def Proc.heldIn (q : Proc) (N i : ℕ) (e : PageEntry) : Option ℕ :=
  if q.dying = false ∧ i < System.userEntries N ∧
    (e.present = true ∨ (N, i) ∈ q.pending.map Prod.fst ∧ hasFrame e.addr = true)
  then some (frameOf e) else none

namespace System

/-- The places of frames. -/
inductive Slot
  | entry (p N i : ℕ)
  | root (p : ℕ)
  | queued (p : ℕ) (call : ℕ × ℕ)

def heldAt (s : System) : Slot → Option ℕ
  | .entry p N i => (s.proc p).bind fun q => q.heldIn N i (q.t N i)
  | .root p => (s.proc p).map fun q => q.pagetable / sps
  | .queued p call => (s.proc p).bind fun q => if call ∈ q.queue then some (call.2 / sps) else none

/-- The frames handed out and not released since: in the pool that the bootstrap has filled, and not
free. -/
def handedOut (pool : Set ℕ) (fm : FrameManager) : Set ℕ := {f | f ∈ pool ∧ ¬ fm.free f}

/-- The tables of a process that is not being torn down: below an entry that is not present there is
nothing, and above level 1 there are only tables. -/
structure TablesOk (t : Tables) : Prop where
  closed : ∀ {N i}, 1 ≤ N → N < pagelevels → i < userEntries N →
    (t (N + 1) (i / pagetableentries)).present = false → t N i = 0
  tables : ∀ {N i}, 1 < N → i < userEntries N →
    t N i = 0 ∨ (t N i).present = true ∧ (t N i).large = false

structure ProcOk (q : Proc) : Prop where
  tables : q.dying = false → TablesOk q.t
  pending : ∀ x ∈ q.pending, x.1.1 = 1 ∧ x.1.2 < userEntries 1
  nodup : (q.pending.map Prod.fst).Nodup
  queue : q.queue.Nodup
  calls : ∀ call ∈ q.queue, call.1 = 1 ∧ call.2 % sps = 0
  root : q.pagetable % sps = 0
  quiet : q.dying = true → q.pending = []

/-- The frame manager of a run. -/
structure PoolOk (pool : Set ℕ) (fm : FrameManager) : Prop where
  inv : FrameManager.Inv fm
  small : ∀ f ∈ pool, f < 2 ^ 36
  inRange : ∀ f ∈ pool, f / pagetableentries < fm.bitcount
  free : ∀ f, fm.free f → f ∈ pool

/-- **The invariant**: every frame in a place is lent by a boot module, or handed out and in no
other place; lent frames are only in entries of level 1. -/
structure Inv (pool files : Set ℕ) (s : System) : Prop where
  frames : PoolOk pool s.fm
  proc : ∀ {p q}, s.proc p = some q → ProcOk q
  owned : Owned (handedOut pool s.fm) files s.heldAt
  lent : ∀ {k f}, s.heldAt k = some f → f ∈ files → ∃ p i, k = .entry p 1 i

variable {pool files : Set ℕ} {s s' : System} {p : ℕ} {q : Proc} {t t' : Tables}
  {fm fm' : FrameManager}

/-! ## The frame manager -/

variable {N : ℕ}

/-- **`allocFrame` takes from the pool**, and `allocFrame<1>` takes one frame. -/
theorem PoolOk.alloc {a : ℕ} (h : PoolOk pool fm) (hr : fm.allocFrame N = .ok (a, fm')) :
    PoolOk pool fm' ∧ (∀ f, fm'.free f → fm.free f) ∧
      (N = 1 → a ≠ topaddr → ∃ f, a = f * sps ∧ f < 2 ^ 36 ∧ fm.free f ∧ ¬ fm'.free f) := by
  have hof : ∀ {P : ℕ → Prop}, Taken fm fm' P → PoolOk pool fm' ∧ ∀ f, fm'.free f → fm.free f :=
    fun ht => ⟨⟨ht.inv, h.small, fun f hf => ht.bitcount ▸ h.inRange f hf,
      fun f hf => h.free f ((ht.free f).mp hf).1⟩, fun f hf => ((ht.free f).mp hf).1⟩
  unfold allocFrame at hr
  split at hr
  · rcases allocFrame1_spec h.inv hr with ⟨rfl, -, rfl⟩ | ⟨f, rfl, -, ht⟩
    · exact ⟨{ h with inv := h.inv.acquire_lplock }, fun f hf => hf, fun _ hne => absurd rfl hne⟩
    · refine ⟨(hof ht).1, (hof ht).2, fun _ _ => ⟨f, rfl, h.small f (h.free f (ht.wasFree f rfl)),
        ht.wasFree f rfl, ?_⟩⟩
      rw [ht.free]
      exact fun hf' => hf'.2 rfl
  · rename_i hN
    split at hr
    · refine ⟨?_, ?_, fun h1 => absurd h1 hN⟩
      all_goals
        rcases allocFrame2_spec h.inv hr with ⟨-, -, rfl⟩ | ⟨i, -, -, ht⟩
      · exact h
      · exact (hof ht).1
      · exact fun f hf => hf
      · exact (hof ht).2
    · cases hr

/-- Releasing frames of the pool. -/
theorem PoolOk.release {P : ℕ → Prop} (h : PoolOk pool fm) (hr : Released fm fm' P)
    (hP : ∀ f, P f → f ∈ pool) : PoolOk pool fm' :=
  ⟨hr.inv, h.small, fun f hf => hr.bitcount ▸ h.inRange f hf,
    fun f hf => ((hr.free f).mp hf).elim (h.free f) (hP f)⟩

variable {f : ℕ}

theorem PoolOk.not_lent (h : PoolOk pool fm) (hfiles : ∀ f ∈ files, f ∉ pool) (hf : fm.free f) :
    f ∉ files :=
  fun hlent => hfiles f hlent (h.free f hf)

/-- A frame that is free is in no place. -/
theorem Inv.not_held (h : Inv pool files s) (hfiles : ∀ f ∈ files, f ∉ pool) (hf : s.fm.free f)
    (k : Slot) : s.heldAt k ≠ some f :=
  fun hk => (h.owned.out hk (h.frames.not_lent hfiles hf)).2 hf

/-- What is handed out stays so while frames are only taken. -/
theorem handedOut_mono (hfree : ∀ f, fm'.free f → fm.free f) (hf : f ∈ handedOut pool fm) :
    f ∈ handedOut pool fm' :=
  ⟨hf.1, fun h => hf.2 (hfree f h)⟩

/-! ## Changing the tables of one process -/

@[simp] theorem proc_put_self (r : Tables × FrameManager) :
    (s.put p q r).proc p = some { q with t := r.1 } := update_self _ _ _

variable {p' : ℕ}

theorem proc_put_of_ne (h : p' ≠ p) (r : Tables × FrameManager) :
    (s.put p q r).proc p' = s.proc p' := update_of_ne h _ _

/-- The process of a place. -/
def Slot.pid : Slot → ℕ
  | .entry p _ _ | .root p | .queued p _ => p

variable {k : Slot}

theorem heldAt_of_proc (h : s'.proc k.pid = s.proc k.pid) : s'.heldAt k = s.heldAt k := by
  cases k with
  | entry p N i => simp only [heldAt, show s'.proc p = s.proc p from h]
  | root p => simp only [heldAt, show s'.proc p = s.proc p from h]
  | queued p call => simp only [heldAt, show s'.proc p = s.proc p from h]

theorem heldAt_entry (hq : s.proc p = some q) (N i : ℕ) :
    s.heldAt (.entry p N i) = q.heldIn N i (q.t N i) := by
  simp only [heldAt, hq, Option.bind_some]

theorem heldAt_root (hq : s.proc p = some q) : s.heldAt (.root p) = some (q.pagetable / sps) := by
  simp only [heldAt, hq, Option.map_some]

theorem heldAt_queued (hq : s.proc p = some q) (call : ℕ × ℕ) :
    s.heldAt (.queued p call) = if call ∈ q.queue then some (call.2 / sps) else none := by
  simp only [heldAt, hq, Option.bind_some]

variable {q' : Proc}

/-- The places after the process `p` has changed: what they do not hold as before, they hold as `C`
says. -/
theorem heldAt_replace {C : Slot → ℕ → Prop} (hq : s.proc p = some q)
    (hs' : s'.proc = update s.proc p (some q'))
    (hentry : ∀ N i f, q'.heldIn N i (q'.t N i) = some f → q.heldIn N i (q.t N i) = some f ∨
      C (.entry p N i) f) (hroot : q'.pagetable = q.pagetable)
    (hqueue : ∀ call ∈ q'.queue, call ∈ q.queue ∨ C (.queued p call) (call.2 / sps))
    (hk : s'.heldAt k = some f) : s.heldAt k = some f ∨ C k f := by
  by_cases hp : k.pid = p
  · have hq' : s'.proc p = some q' := by rw [hs', update_self]
    cases k with
    | entry p' N i =>
      obtain rfl : p' = p := hp
      rw [heldAt_entry hq'] at hk
      rw [heldAt_entry hq]
      exact hentry N i f hk
    | root p' =>
      obtain rfl : p' = p := hp
      rw [heldAt_root hq', hroot] at hk
      exact Or.inl ((heldAt_root hq).trans hk)
    | queued p' call =>
      obtain rfl : p' = p := hp
      rw [heldAt_queued hq'] at hk
      rw [heldAt_queued hq]
      split at hk
      · rename_i hmem
        cases hk
        exact (hqueue call hmem).imp_left fun hin => if_pos hin
      · cases hk
  · exact Or.inl ((heldAt_of_proc (by rw [hs', update_of_ne hp])).symm.trans hk)

/-- The places after the tables of `p` have changed. -/
theorem heldAt_put {C : Slot → ℕ → Prop}
    (h : ∀ N i f, q.heldIn N i (t' N i) = some f → q.heldIn N i (t N i) = some f ∨
      C (.entry p N i) f) (hk : (s.put p q (t', fm')).heldAt k = some f) :
    (s.put p q (t, fm)).heldAt k = some f ∨ C k f := by
  have hs' : (s.put p q (t', fm')).proc =
      update (s.put p q (t, fm)).proc p (some { q with t := t' }) :=
    (update_idem _ _ _).symm
  exact heldAt_replace (proc_put_self _) hs' h rfl (fun _ hc => Or.inl hc) hk

theorem Inv.procs_update (h : Inv pool files s) (hq : ProcOk q')
    (hs' : s'.proc = update s.proc p (some q')) {r : Proc} (hr : s'.proc p' = some r) :
    ProcOk r := by
  rw [hs'] at hr
  by_cases hp : p' = p
  · subst hp
    rw [update_self] at hr
    exact Option.some.inj hr ▸ hq
  · rw [update_of_ne hp] at hr
    exact h.proc hr

theorem Inv.procs_put (h : Inv pool files (s.put p q (t, fm))) (hq : ProcOk { q with t := t' })
    (h' : (s.put p q (t', fm')).proc p' = some q') : ProcOk q' :=
  h.procs_update hq (update_idem _ _ _).symm h'

/-- A process changes and holds nothing new. -/
theorem Inv.lose (h : Inv pool files s) (hq : s.proc p = some q)
    (hs' : s'.proc = update s.proc p (some q')) (hpool : PoolOk pool s'.fm)
    (hfree : ∀ f, s'.fm.free f → s.fm.free f) (hok : ProcOk q')
    (hentry : ∀ N i f, q'.heldIn N i (q'.t N i) = some f → q.heldIn N i (q.t N i) = some f)
    (hroot : q'.pagetable = q.pagetable) (hqueue : q'.queue ⊆ q.queue) : Inv pool files s' := by
  have hold : ∀ {k f}, s'.heldAt k = some f → s.heldAt k = some f := fun hk =>
    (heldAt_replace (C := fun _ _ => False) hq hs' (fun N i f hf => Or.inl (hentry N i f hf)) hroot
      (fun _ hc => Or.inl (hqueue hc)) hk).resolve_right id
  exact ⟨hpool, h.procs_update hok hs',
    (h.owned.drop hold).change fun _ hf => handedOut_mono hfree hf,
      fun hk hf => h.lent (hold hk) hf⟩

/-- Entries lose their frames. -/
theorem Inv.drop (h : Inv pool files (s.put p q (t, fm))) (hpool : PoolOk pool fm')
    (hfree : ∀ f, fm'.free f → fm.free f) (hq : ProcOk { q with t := t' })
    (hold : ∀ N i f, q.heldIn N i (t' N i) = some f → q.heldIn N i (t N i) = some f) :
    Inv pool files (s.put p q (t', fm')) :=
  h.lose (proc_put_self _) (update_idem _ _ _).symm hpool hfree hq hold rfl (fun _ hc => hc)

variable {j : ℕ}

/-- An entry gets a frame of the pool that is in no place. -/
theorem Inv.take (h : Inv pool files (s.put p q (t, fm))) (hfiles : ∀ f ∈ files, f ∉ pool)
    (hpool : PoolOk pool fm') (hfree : ∀ f, fm'.free f → fm.free f) {g M : ℕ} (hin : g ∈ pool)
    (hg : ∀ k, (s.put p q (t, fm)).heldAt k ≠ some g) (hg' : ¬ fm'.free g)
    (hq : ProcOk { q with t := t' })
    (hold : ∀ N i f, q.heldIn N i (t' N i) = some f → q.heldIn N i (t N i) = some f ∨
      (N = M ∧ i = j) ∧ f = g) : Inv pool files (s.put p q (t', fm')) := by
  have hold' : ∀ {k f}, (s.put p q (t', fm')).heldAt k = some f →
      (s.put p q (t, fm)).heldAt k = some f ∨ k = .entry p M j ∧ f = g := fun hk =>
    heldAt_put (C := fun k f => k = .entry p M j ∧ f = g) (fun N i f hf => (hold N i f hf).imp_right
      fun ⟨⟨hN, hi⟩, hf⟩ => ⟨by rw [hN, hi], hf⟩) hk
  refine ⟨hpool, h.procs_put hq, h.owned.take hg ?_ hold', fun hk hf => ?_⟩
  · rintro f (hf | rfl)
    · exact handedOut_mono hfree hf
    · exact ⟨hin, hg'⟩
  · rcases hold' hk with hk | ⟨-, rfl⟩
    · exact h.lent hk hf
    · exact absurd hin (hfiles _ hf)

/-- An entry of level 1 gets a frame of a boot module. -/
theorem Inv.borrow (h : Inv pool files (s.put p q (t, fm))) (hpool : PoolOk pool fm')
    (hfree : ∀ f, fm'.free f → fm.free f) (hq : ProcOk { q with t := t' })
    (hold : ∀ N i f, q.heldIn N i (t' N i) = some f → q.heldIn N i (t N i) = some f ∨
      (N = 1 ∧ i = j) ∧ f ∈ files) : Inv pool files (s.put p q (t', fm')) := by
  have hold' : ∀ {k f}, (s.put p q (t', fm')).heldAt k = some f →
      (s.put p q (t, fm)).heldAt k = some f ∨ k = .entry p 1 j ∧ f ∈ files := fun hk =>
    heldAt_put (C := fun k f => k = .entry p 1 j ∧ f ∈ files)
      (fun N i f hf => (hold N i f hf).imp_right fun ⟨⟨hN, hi⟩, hf⟩ => ⟨by rw [hN, hi], hf⟩) hk
  refine ⟨hpool, h.procs_put hq, (h.owned.borrow hold').change fun _ hf => handedOut_mono hfree hf,
    fun hk hf => ?_⟩
  rcases hold' hk with hk | ⟨rfl, -⟩
  · exact h.lent hk hf
  · exact ⟨p, j, rfl⟩

/-! ## Tables -/

variable {i : ℕ}

/-- The parent of an entry of the user half is in the user half. -/
theorem div_lt_userEntries (h1 : 1 ≤ N) (hN : N < pagelevels) (hi : i < userEntries N) :
    i / pagetableentries < userEntries (N + 1) := by
  have hmul : userEntries N = userEntries (N + 1) * pagetableentries := by
    obtain rfl | rfl | rfl : N = 1 ∨ N = 2 ∨ N = 3 := by
      unfold pagelevels at hN
      omega
    · decide
    · decide
    · decide
  exact Nat.div_lt_of_lt_mul (by rw [mul_comm, ← hmul]; exact hi)

variable {x : ℕ} {e : PageEntry}

/-- The tables after `mapTable` has added one: on the user half only the entry changes, since there
was nothing below it. -/
theorem TablesOk.zeroTable_setPE (h : TablesOk t) (h1 : 1 ≤ N) (hN : N < pagelevels)
    (habs : (t (N + 1) (index (N + 1) x)).present = false) {n : ℕ} (hi : i < userEntries n) :
    zeroTable (setPE t (N + 1, index (N + 1) x) e) N x n i =
      setPE t (N + 1, index (N + 1) x) e n i := by
  unfold zeroTable
  split
  · rename_i hin
    obtain ⟨rfl, hidx⟩ := hin
    have hne : ¬ (n = n + 1 ∧ i = index (n + 1) x) := fun hc => by omega
    rw [setPE_of_ne _ _ hne, h.closed h1 hN hi (hidx ▸ habs)]
  · rfl

theorem TablesOk.setPE_table (h : TablesOk t) (h1 : 1 ≤ N) (hN : N < pagelevels)
    (hpres : e.present = true) (hlarge : e.large = false)
    (habove : N + 1 = pagelevels ∨ (t (N + 2) (index (N + 2) x)).present = true)
    (habs : (t (N + 1) (index (N + 1) x)).present = false) :
    TablesOk (zeroTable (setPE t (N + 1, index (N + 1) x) e) N x) := by
  have heq := fun {n i} => h.zeroTable_setPE (e := e) h1 hN habs (n := n) (i := i)
  refine ⟨fun {n i} hn hn4 hi hpar => ?_, fun {n i} hn hi => ?_⟩
  · rw [heq (div_lt_userEntries hn hn4 hi)] at hpar
    rw [heq hi]
    by_cases hc : n + 1 = N + 1 ∧ i / pagetableentries = index (N + 1) x
    · rw [hc.1, hc.2, setPE_self] at hpar
      exact absurd hpar (by simp [hpres])
    · rw [setPE_of_ne _ _ hc] at hpar
      have hne : ¬ (n = N + 1 ∧ i = index (N + 1) x) := by
        rintro ⟨rfl, rfl⟩
        rcases habove with h4 | hab
        · omega
        · rw [index_succ (by omega)] at hab
          exact absurd hpar (by simp [hab])
      rw [setPE_of_ne _ _ hne]
      exact h.closed hn hn4 hi hpar
  · rw [heq hi]
    by_cases hc : n = N + 1 ∧ i = index (N + 1) x
    · rw [hc.1, hc.2, setPE_self]
      exact Or.inr ⟨hpres, hlarge⟩
    · rw [setPE_of_ne _ _ hc]
      exact h.tables hn hi

theorem TablesOk.setPE_leaf (h : TablesOk t) (hwin : inWindow t 1 x = true) (e : PageEntry) :
    TablesOk (setPE t (1, index 1 x) e) := by
  have hpar : (t 2 (index 2 x)).present = true :=
    present_of_isTable (isTable_of_lt_walk (Nat.lt_succ_of_le (of_decide_eq_true hwin)) (by decide))
  refine ⟨fun {n i} hn hn4 hi hp => ?_, fun {n i} hn hi => ?_⟩
  · rw [setPE_of_ne _ _ (fun hc => by omega)] at hp
    have hne : ¬ (n = 1 ∧ i = index 1 x) := by
      rintro ⟨rfl, rfl⟩
      rw [← index_succ le_rfl] at hp
      exact absurd hpar (by simp [hp])
    rw [setPE_of_ne _ _ hne]
    exact h.closed hn hn4 hi hp
  · rw [setPE_of_ne _ _ (fun hc => by omega)]
    exact h.tables hn hi

/-- Clearing an entry of level 1. -/
theorem TablesOk.setPE_zero (h : TablesOk t) (j : ℕ) : TablesOk (setPE t (1, j) 0) := by
  refine ⟨fun {n i} hn hn4 hi hp => ?_, fun {n i} hn hi => ?_⟩
  · rw [setPE_of_ne _ _ (fun hc => by omega)] at hp
    by_cases hc : n = 1 ∧ i = j
    · rw [hc.1, hc.2, setPE_self]
    · rw [setPE_of_ne _ _ hc]
      exact h.closed hn hn4 hi hp
  · rw [setPE_of_ne _ _ (fun hc => by omega)]
    exact h.tables hn hi

/-- The kernel half does not matter. -/
theorem TablesOk.setPE_kernel (h : TablesOk t) (hj : ¬ j < userEntries N) (e : PageEntry) :
    TablesOk (setPE t (N, j) e) := by
  have hsame : ∀ {n i}, i < userEntries n → setPE t (N, j) e n i = t n i := fun hi =>
    setPE_of_ne _ _ fun hc => hj (hc.1 ▸ hc.2 ▸ hi)
  refine ⟨fun hn hn4 hi hp => ?_, fun hn hi => ?_⟩
  · rw [hsame (div_lt_userEntries hn hn4 hi)] at hp
    rw [hsame hi]
    exact h.closed hn hn4 hi hp
  · rw [hsame hi]
    exact h.tables hn hi

theorem ProcOk.with_tables (h : ProcOk { q with t := t }) (ht : q.dying = false → TablesOk t') :
    ProcOk { q with t := t' } :=
  { h with tables := ht }

/-! ## Mapping -/

theorem heldIn_iff : q.heldIn N i e = some f ↔ (q.dying = false ∧
    i < userEntries N ∧
      (e.present = true ∨ (N, i) ∈ q.pending.map Prod.fst ∧ hasFrame e.addr = true)) ∧
      frameOf e = f := by
  rw [Proc.heldIn, Option.ite_none_right_eq_some, Option.some.injEq]

theorem heldIn_eq_some (h : q.heldIn N i e = some f) : i < userEntries N ∧ f = frameOf e :=
  ⟨(heldIn_iff.mp h).1.2.1, (heldIn_iff.mp h).2.symm⟩

theorem frameOf_of_addr {g : ℕ} (hg : g < 2 ^ 36) (he : e.addr = BitVec.ofNat 64 (g * sps)) :
    frameOf e = g := by
  rw [frameOf, he, (ofNat_frame (hg.trans (by decide))).2, Nat.mul_div_cancel _ sps_pos]

/-- One entry changes on the user half: what the others hold stays. -/
theorem heldIn_of_setPE {M : ℕ} (ht : ∀ {n i}, i < userEntries n → t' n i = setPE t (M, j) e n i)
    (h : q.heldIn N i (t' N i) = some f) :
    q.heldIn N i (t N i) = some f ∨ (N = M ∧ i = j) ∧ q.heldIn M j e = some f := by
  rw [ht (heldIn_eq_some h).1] at h
  by_cases hc : N = M ∧ i = j
  · obtain ⟨rfl, rfl⟩ := hc
    rw [setPE_self] at h
    exact Or.inr ⟨⟨rfl, rfl⟩, h⟩
  · rw [setPE_of_ne _ _ hc] at h
    exact Or.inl h

/-- Frames are taken, and places get only frames that were free. -/
structure Grows (s s' : System) : Prop where
  free : ∀ f, s'.fm.free f → s.fm.free f
  held : ∀ {k f}, s'.heldAt k = some f → s.heldAt k = some f ∨ s.fm.free f

theorem Grows.refl (s : System) : Grows s s := ⟨fun _ h => h, Or.inl⟩

theorem Grows.trans {s₁ s₂ s₃ : System} (h : Grows s₁ s₂) (h' : Grows s₂ s₃) : Grows s₁ s₃ :=
  ⟨fun f hf => h.free f (h'.free f hf),
    fun hk => (h'.held hk).elim h.held fun hf => Or.inr (h.free _ hf)⟩

variable {vma : ℕ}

/-- **The tables that `mapTable` adds are held by the entries above them.** -/
theorem inv_mapTable (hfiles : ∀ f ∈ files, f ∉ pool) (hlive : q.dying = false) {d : ℕ}
    (hd : d < pagelevels) (h : Inv pool files (s.put p q (t, fm))) {b t' fm'}
    (hr : mapTable d t vma fm = .ok (b, t', fm')) :
    Inv pool files (s.put p q (t', fm')) ∧ Grows (s.put p q (t, fm)) (s.put p q (t', fm')) := by
  induction d generalizing b t' fm' with
  | zero =>
    cases hr
    exact ⟨h, .refl _⟩
  | succ d ih =>
    obtain ⟨-, hd'⟩ | ⟨N, t₁, fm₁, hN, hd', hcase⟩ := mapTable_cases hr
    · exact ih (by omega) hd'
    obtain ⟨h₁, hgrow⟩ := ih (by omega) hd'
    have hopen := (mapTable_spec (show d < pagelevels by omega) hd').reached
    rw [show pagelevels - d = N + 1 by omega] at hopen
    obtain ⟨-, -, rfl, rfl⟩ | ⟨habs, -, pma, halloc, htop, rfl⟩ := hcase
    · exact ⟨h₁, hgrow⟩
    · obtain ⟨hpool, hfree, hone⟩ := h₁.frames.alloc halloc
      obtain ⟨g, rfl, hg, hgfree, hgout⟩ := hone rfl htop
      have hok : TablesOk t₁ := (h₁.proc (proc_put_self _)).tables hlive
      have hbits := ofNat_frame (hg.trans (by decide))
      have htab := isTable_pageTable (Nat.mul_mod_left g sps) (show 1 < N + 1 by omega)
      have hlarge := large_pageTable (Nat.mul_mod_left g sps)
      have habove : N + 1 = pagelevels ∨ (t₁ (N + 2) (index (N + 2) vma)).present = true := by
        rcases Nat.eq_or_lt_of_le (show N + 1 ≤ pagelevels by omega) with h4 | h4
        · exact Or.inl h4
        · exact Or.inr
            (present_of_isTable (isTable_of_lt_walk (Nat.lt_succ_of_le hopen) (by omega)))
      have hheld : ∀ n i f, q.heldIn n i (zeroTable (setPE t₁ (N + 1, index (N + 1) vma)
          (BitVec.ofNat 64 (g * sps) ||| pageTable)) N vma n i) = some f →
          q.heldIn n i (t₁ n i) = some f ∨ (n = N + 1 ∧ i = index (N + 1) vma) ∧ f = g := by
        intro n i f hf
        refine (heldIn_of_setPE (fun hi => hok.zeroTable_setPE (by omega) (by omega) habs hi)
          hf).imp_right fun hheld => ⟨hheld.1, ?_⟩
        rw [(heldIn_eq_some hheld.2).2]
        exact frameOf_of_addr hg (addr_table hbits.1)
      refine ⟨h₁.take hfiles hpool hfree (h₁.frames.free g hgfree)
        (h₁.not_held hfiles hgfree) hgout ((h₁.proc (proc_put_self _)).with_tables fun _ =>
        hok.setPE_table (by omega) (by omega) (present_of_isTable htab) hlarge habove habs)
        hheld, hgrow.trans ⟨hfree, fun hk => ?_⟩⟩
      exact heldAt_put (C := fun _ f => fm₁.free f)
        (fun n i f hf => (hheld n i f hf).imp_right fun hc : _ ∧ f = g => hc.2 ▸ hgfree) hk

theorem heldIn_eq_none (hp : e.present = false) (h : hasFrame e.addr = false) :
    q.heldIn N i e = none := if_neg fun hc => by simp [hp, h] at hc

variable {mc : MapCode} {pma : ℕ} {type : PageEntry}

/-- What one page of `mapPageRegion` does in a process: tables are added, and then the leaf is
set. -/
theorem mapPage_eq_ok (h : AddressSpace.mapPage 1 mc true t fm pma vma type = .ok (t', fm')) :
    ∃ a fm₀ t₁, frameFor 1 mc pma fm = .ok (a, fm₀) ∧ a ≠ topaddr ∧
      BitVec.ofNat 64 a &&& ~~~ADDR = 0 ∧
      mapTable (pagelevels - 1) t vma fm₀ = .ok (true, t₁, fm') ∧ inWindow t₁ 1 vma = true ∧
      t' = setPE t₁ (1, index 1 vma) (leaf 1 mc.present (BitVec.ofNat 64 a) (type ||| US)) := by
  obtain ⟨a, fm₀, hframe, htop, hmap⟩ := mapPage_map h
  obtain ⟨-, hbits, t₁, htab, hwin, -, rfl⟩ := map_eq_ok hmap
  exact ⟨a, fm₀, t₁, hframe, htop, hbits, htab, hwin, rfl⟩

/-- **One page of a process**, mapped with a frame of its own, a frame of a boot module, or
reserved. -/
theorem inv_mapPage (hfiles : ∀ f ∈ files, f ∉ pool) (hlive : q.dying = false)
    (htype : (type ||| US) &&& (P ||| PS ||| ADDR) = 0)
    (hpma : mc = .noAlloc → (BitVec.ofNat 64 pma).toNat / sps ∈ files)
    (h : Inv pool files (s.put p q (t, fm)))
    (hr : AddressSpace.mapPage 1 mc true t fm pma vma type = .ok (t', fm')) :
    Inv pool files (s.put p q (t', fm')) := by
  obtain ⟨a, fm₀, t₁, hframe, htop, hbits, htab, hwin, rfl⟩ := mapPage_eq_ok hr
  have hleaf : ∀ {s₁ : System}, Inv pool files (s₁.put p q (t₁, fm')) → ProcOk { q with
      t := setPE t₁ (1, index 1 vma) (leaf 1 mc.present (BitVec.ofNat 64 a) (type ||| US)) } :=
    fun h₁ => (h₁.proc (proc_put_self _)).with_tables fun hd =>
      ((h₁.proc (proc_put_self _)).tables hd).setPE_leaf hwin _
  have haddr : (leaf 1 mc.present (BitVec.ofNat 64 a) (type ||| US)).addr = BitVec.ofNat 64 a :=
    addr_leaf hbits htype
  have hheld : ∀ {N i f}, q.heldIn N i (setPE t₁ (1, index 1 vma)
      (leaf 1 mc.present (BitVec.ofNat 64 a) (type ||| US)) N i) = some f →
      q.heldIn N i (t₁ N i) = some f ∨ (N = 1 ∧ i = index 1 vma) ∧
        q.heldIn 1 (index 1 vma) (leaf 1 mc.present (BitVec.ofNat 64 a) (type ||| US)) = some f :=
    fun hf => heldIn_of_setPE (fun _ => rfl) hf
  cases mc with
  | noAlloc =>
    cases hframe
    obtain ⟨h₁, hgrow⟩ := inv_mapTable hfiles hlive (by decide) h htab
    refine h₁.borrow (j := index 1 vma) h₁.frames (fun _ hf => hf) (hleaf h₁) fun N i f hf => ?_
    refine (hheld hf).imp_right fun ⟨hpos, hf⟩ => ⟨hpos, ?_⟩
    rw [(heldIn_eq_some hf).2, frameOf, haddr]
    exact hpma rfl
  | alloc =>
    obtain ⟨hpool, hfree, hone⟩ := h.frames.alloc hframe
    obtain ⟨g, rfl, hg, hgfree, hgout⟩ := hone rfl htop
    have h₀ : Inv pool files (s.put p q (t, fm₀)) :=
      h.drop hpool hfree (h.proc (proc_put_self _)) fun _ _ _ hf => hf
    have hnot₀ : ∀ k, (s.put p q (t, fm₀)).heldAt k ≠ some g := h.not_held hfiles hgfree
    obtain ⟨h₁, hgrow⟩ := inv_mapTable hfiles hlive (by decide) h₀ htab
    refine h₁.take (M := 1) (j := index 1 vma) hfiles h₁.frames (fun _ hf => hf)
      (h.frames.free g hgfree) (fun k hk => ?_) (fun hf => hgout (hgrow.free g hf)) (hleaf h₁)
      fun N i f hf => ?_
    · exact (hgrow.held hk).elim (hnot₀ k) hgout
    · refine (hheld hf).imp_right fun hheld => ⟨hheld.1, ?_⟩
      rw [(heldIn_eq_some hheld.2).2]
      exact frameOf_of_addr hg haddr
  | guard =>
    cases hframe
    obtain ⟨h₁, hgrow⟩ := inv_mapTable hfiles hlive (by decide) h htab
    have hnone : hasFrame (leaf 1 MapCode.guard.present (BitVec.ofNat 64 guardPage.toNat)
        (type ||| US)).addr = false := by
      rw [haddr]
      decide
    have hpres :
        (leaf 1 MapCode.guard.present (BitVec.ofNat 64 guardPage.toNat) (type ||| US)).present =
        false := present_leaf hbits htype
    exact h₁.drop h₁.frames (fun _ hf => hf) (hleaf h₁) fun N i f hf =>
      (hheld hf).resolve_right fun hc => by rw [heldIn_eq_none hpres hnone] at hc; cases hc.2
  | lazy =>
    cases hframe
    obtain ⟨h₁, hgrow⟩ := inv_mapTable hfiles hlive (by decide) h htab
    have hnone : hasFrame (leaf 1 MapCode.lazy.present (BitVec.ofNat 64 lazyPage.toNat)
        (type ||| US)).addr = false := by
      rw [haddr]
      decide
    have hpres :
        (leaf 1 MapCode.lazy.present (BitVec.ofNat 64 lazyPage.toNat) (type ||| US)).present =
        false := present_leaf hbits htype
    exact h₁.drop h₁.frames (fun _ hf => hf) (hleaf h₁) fun N i f hf =>
      (hheld hf).resolve_right fun hc => by rw [heldIn_eq_none hpres hnone] at hc; cases hc.2

/-! ## `exec` -/

/-- The loop of `mapPageRegion`. -/
theorem inv_mapPages (hfiles : ∀ f ∈ files, f ∉ pool) (hlive : q.dying = false)
    (htype : (type ||| US) &&& (P ||| PS ||| ADDR) = 0) (n : ℕ)
    (hpma : mc = .noAlloc → ∀ k < n, (BitVec.ofNat 64 (pma + k * sps)).toNat / sps ∈ files)
    (h : Inv pool files (s.put p q (t, fm)))
    (hr : mapPages 1 mc true n t fm pma vma type = .ok (t', fm')) :
    Inv pool files (s.put p q (t', fm')) := by
  induction n generalizing t fm pma vma with
  | zero =>
    cases hr
    exact h
  | succ n ih =>
    obtain ⟨t₁, fm₁, hpage, hr⟩ := mapPages_cons hr
    have h₁ :=
      inv_mapPage hfiles hlive htype (fun hmc => by simpa using hpma hmc 0 n.succ_pos) h hpage
    refine ih (fun hmc k hk => ?_) h₁ hr
    rw [if_pos hmc, add_assoc,
      show pagesize 1 + k * sps = (k + 1) * sps by rw [Nat.succ_mul, add_comm]; rfl]
    exact hpma hmc (k + 1) (Nat.succ_lt_succ hk)

theorem alignUp_bounds (hx : x < wordSize) :
    alignUp x (pagesize 1) % 4096 = 0 ∧ alignUp x (pagesize 1) < wordSize ∧
      (alignUp x (pagesize 1) = 0 ∨ alignUp x (pagesize 1) < x + 4096) := by
  have heq : alignUp x (pagesize 1) = wsub (wadd x 4096) 1 / 4096 * 4096 :=
    alignDown_eq (k := 12) (wsub_lt _ _) (by decide)
  rw [heq]
  unfold wsub wadd wordSize at *
  omega

/-- The fields of a segment are words, and its file range does not wrap around. -/
structure SegmentOk (seg : Segment) : Prop where
  address : seg.virtualAddress < wordSize
  range : seg.fileOffset + seg.fileSize < wordSize

/-- The pages of a region that ends at `stop`, rounded up, start before it. -/
theorem page_before_end {v k afend stop : ℕ} (hk : k < (afend - v / 4096 * 4096) / 4096)
    (hup : afend % 4096 = 0) (hbound : afend = 0 ∨ afend < stop + 4096) :
    v / 4096 * 4096 + k * 4096 < stop := by
  omega

/-- A page that starts before the end of the file range lies in the file. -/
theorem page_in_file {v off size fsz fend k : ℕ}
    (hmod : v - v / 4096 * 4096 = pma + off - (pma + off) / 4096 * 4096)
    (hfend : fend = v + fsz ∨ fend < v) (hstart : v / 4096 * 4096 + k * 4096 < fend)
    (hsize : off + fsz ≤ size) : (pma + off) / 4096 * 4096 + k * 4096 < pma + size ∧
      pma < (pma + off) / 4096 * 4096 + k * 4096 + 4096 := by
  omega

variable {rf : RamFile}

/-- **The frames that `exec` maps in place are frames of the file.** -/
theorem frame_mem_frames {seg : Segment} (hseg : SegmentOk seg) (hrf : rf.pma + rf.size < wordSize)
    (hvalid : seg.valid rf = true) {k : ℕ}
    (hk : k < (wadd (alignDown seg.virtualAddress (pagesize 1)) (wsub
    (alignUp seg.fend (pagesize 1)) (alignDown seg.virtualAddress (pagesize 1))) -
      alignDown seg.virtualAddress (pagesize 1)) / pagesize 1) :
    (BitVec.ofNat 64 (alignDown (wadd rf.pma seg.fileOffset) (pagesize 1) + k * sps)).toNat / sps
      ∈ rf.frames := by
  obtain ⟨⟨hsize, -⟩, hoff⟩ : (wadd seg.fileOffset seg.fileSize ≤ rf.size ∧ _) ∧ _ := by
    simpa [Segment.valid] using hvalid
  rw [wadd_of_lt hseg.range] at hsize
  have hpma : wadd rf.pma seg.fileOffset = rf.pma + seg.fileOffset := wadd_of_lt (by omega)
  have hpmalt : rf.pma + seg.fileOffset < wordSize := by omega
  obtain ⟨hup, hlt, hbound⟩ :=
    alignUp_bounds (show seg.fend < wordSize from Nat.mod_lt _ (by decide))
  have hdown : ∀ {x}, x < wordSize → alignDown x (pagesize 1) = x / 4096 * 4096 := fun hx =>
    alignDown_eq (k := 12) hx (by decide)
  have hvma := hseg.address
  rw [hpma, hdown hvma, hdown hpmalt, wsub_of_le hvma (Nat.div_mul_le_self _ _),
    wsub_of_le hpmalt (Nat.div_mul_le_self _ _)] at hoff
  rw [hdown hvma, wadd_wsub (lt_of_le_of_lt (Nat.div_mul_le_self _ _) hvma) hlt,
    show pagesize 1 = 4096 from rfl] at hk
  have hfend : seg.fend = seg.virtualAddress + seg.fileSize ∨ seg.fend < seg.virtualAddress := by
    have := hseg.range
    unfold Segment.fend wadd wordSize at *
    omega
  rw [show pagesize 1 = 4096 from rfl] at hup hlt hbound
  obtain ⟨hbefore, hafter⟩ := page_in_file hoff hfend (page_before_end hk hup hbound) hsize
  rw [hpma, hdown hpmalt, BitVec.toNat_ofNat, show sps = 4096 from rfl,
    Nat.mod_eq_of_lt (hbefore.trans hrf), RamFile.frames, show sps = 4096 from rfl]
  have hdiv : ((rf.pma + seg.fileOffset) / 4096 * 4096 + k * 4096) / 4096 * 4096 =
      (rf.pma + seg.fileOffset) / 4096 * 4096 + k * 4096 :=
    Nat.div_mul_cancel (Dvd.intro_left _ (Nat.add_mul _ _ _))
  exact ⟨hdiv.symm ▸ hbefore, by rw [Nat.add_mul, hdiv]; exact hafter⟩

variable {area : VmArea}

theorem mapOutside_eq_ok {size : ℕ}
    (h : mapOutside 1 mc area t fm pma vma size type = .ok (t', fm')) :
    mapPages 1 mc true ((wadd vma size - vma) / pagesize 1) t fm pma vma type = .ok (t', fm') := by
  unfold mapOutside mapPageRegion at h
  split at h
  · split at h
    · exact h
    · cases h
  · cases h

/-- The three page types are flags. -/
theorem pageType_flags (seg : Segment) : (seg.pageType ||| US) &&& (P ||| PS ||| ADDR) = 0 := by
  unfold Segment.pageType
  split
  · decide
  · split
    · decide
    · decide

/-- **One segment**: its file pages are lent by the boot module, its other pages get frames of their
own. -/
theorem inv_execSegment (hfiles : ∀ f ∈ files, f ∉ pool) (hlive : q.dying = false) {seg : Segment}
    (hrf : rf.pma + rf.size < wordSize) (hlent : rf.frames ⊆ files) (hseg : SegmentOk seg)
    (h : Inv pool files (s.put p q (t, fm))) (hr : execSegment rf area t fm seg = .ok (t', fm')) :
    Inv pool files (s.put p q (t', fm')) := by
  unfold execSegment at hr
  split at hr
  · cases hr
  rename_i hvalid
  dsimp only at hr
  split at hr
  · cases hr
  rename_i t₁ fm₁ hfile
  have h₁ : Inv pool files (s.put p q (t₁, fm₁)) :=
    inv_mapPages hfiles hlive (pageType_flags seg) _
      (fun _ k hk => hlent (frame_mem_frames hseg hrf (by simpa using hvalid) hk)) h
      (mapOutside_eq_ok hfile)
  split at hr
  · exact inv_mapPages hfiles hlive (by decide) _ (fun hmc => by cases hmc) h₁ (mapOutside_eq_ok hr)
  · cases hr
    exact h₁

theorem inv_execSegments (hfiles : ∀ f ∈ files, f ∉ pool) (hlive : q.dying = false)
    (hrf : rf.pma + rf.size < wordSize) (hlent : rf.frames ⊆ files) (segs : List Segment)
    {b b' t fm t' fm'} (hsegs : (∀ seg ∈ segs, seg.load = true → SegmentOk seg))
    (h : Inv pool files (s.put p q (t, fm)))
    (hr : execSegments rf area segs b t fm = .ok (b', t', fm')) :
    Inv pool files (s.put p q (t', fm')) := by
  induction segs generalizing b b' t fm t' fm' with
  | nil =>
    cases hr
    exact h
  | cons seg segs ih =>
    have htail := fun seg' hseg' => hsegs seg' (List.mem_cons_of_mem _ hseg')
    rw [execSegments] at hr
    split at hr
    · exact ih htail h hr
    · rename_i hload
      split at hr
      · cases hr
      rename_i t₁ fm₁ hone
      have hseg := hsegs seg List.mem_cons_self (by simpa using hload)
      exact ih htail (inv_execSegment hfiles hlive hrf hlent hseg h hone) hr

end System

end Kos
