import KosKernel.Kernel.Mmap
import KosKernel.Machine.TableFrames

/-!
# Kernel/Sequences — one operation after another

Ranges are taken and mapped at once, pages are unmapped, and invalidations complete, each operation
on its own.  Then everything below `mapStart` is available (`mapStart_invariant`): a range that is
taken lies above the new `mapStart`, and `putVmRange` climbs over available entries only, because
the address it stands at is aligned for whatever entry it finds there.

What the climb does not see is tables.  A page table stays when its pages are unmapped, and then the
addresses below it are available, but no larger page can be mapped there (`mapRange_iff`).
-/

namespace Kos

open Runs Paging PageEntry AddressSpace VmArea

/-! ## The system -/

/-- An address space, and the pages whose invalidation has not completed, by level and address. -/
structure Sequential where
  t : Tables
  area : VmArea
  pending : List (ℕ × ℕ)

namespace Sequential

/-- An operation, with the frame manager that it finds. -/
inductive Action
  /-- `map<N,alloc>(0,size,..)` -/
  | map (N : ℕ) (alloc kernel : Bool) (size pma : ℕ) (fm : FrameManager)
  /-- `kmap<N,alloc>(0,size,pma)` -/
  | kmap (N : ℕ) (alloc kernel : Bool) (size pma : ℕ) (fm : FrameManager)
  | allocStack (kernel : Bool) (ss : ℕ) (fm : FrameManager)
  /-- an iteration of `unmapPageRegion`, up to the call of `unmapPage2` -/
  | unmap (N vma : ℕ)
  /-- `unmapPage2` when no other core is active -/
  | unmapPage2 (p : ℕ × ℕ)
  /-- the last core has seen the item: `unmapPage2` and `putVmRange` -/
  | invalidate (p : ℕ × ℕ)
  | fault (vma : ℕ) (fm : FrameManager)

variable {s s' : Sequential}

section

variable (s : Sequential)

/-- The address space that an operation works on. -/
def space (fm : FrameManager) : Space := ⟨s.t, s.area, fm, []⟩

/-- What an operation leaves. -/
def after (m : Space) : Sequential := { s with t := m.t, area := m.area }

/-- The tables after `unmapPage2` on a page. -/
def cleared (p : ℕ × ℕ) : Tables := (unmap2 s.t (p.1, index p.1 p.2)).2

/-- `unmapPage2`, through a pointer into the window. -/
def clearPage (p : ℕ × ℕ) : Except Fault Sequential :=
  if s.pending.contains p ∧ inWindow s.t p.1 p.2 then
    .ok { s with t := s.cleared p, pending := s.pending.erase p }
  else .error .outOfBounds

/-- What an action does. -/
def act : Action → Except Fault Sequential
  | .map N alloc kernel size pma fm =>
    ((s.space fm).map N alloc kernel 0 size 0 0 (mword (-1)) 0 pma).map fun r => s.after r.2
  | .kmap N alloc kernel size pma fm => ((s.space fm).kmap N alloc kernel 0 size pma).map fun r =>
    s.after r.2
  | .allocStack kernel ss fm => ((s.space fm).allocStack kernel ss).map fun r => s.after r.2
  | .unmap N vma =>
    match unmap1 N true s.t vma with
    | .error e => .error e
    | .ok (none, t) => .ok { s with t }
    | .ok (some _, t) => .ok { s with t, pending := (N, vma) :: s.pending }
  | .unmapPage2 p => s.clearPage p
  | .invalidate p => (s.clearPage p).map fun s' =>
      { s' with area := s'.area.putVmRange s'.t p.2 (pagesize p.1) }
  | .fault vma fm => (Paging.fault s.t vma fm).map fun (_, t, _) => { s with t }

/-- A step is an action that returns. -/
def step (a : Action) : Option Sequential := (s.act a).toOption

/-- What callers respect: page levels exist, a stack fits into the address space, and what is
unmapped ends in the area. -/
def Allowed : Action → Prop
  | .map N _ _ _ _ _ | .kmap N _ _ _ _ _ => 1 ≤ N ∧ N < pagelevels
  | .allocStack _ ss _ => ss + stackGuardPage ≤ alignDown s.area.mapStart (pagesize stackpl)
  | .unmap N vma => (1 ≤ N ∧ N < pagelevels) ∧ vma + pagesize N ≤ s.area.mapTop
  | _ => True

end

instance (s : Sequential) : DecidablePred s.Allowed
  | .map _ _ _ _ _ _ | .kmap _ _ _ _ _ _ => inferInstanceAs (Decidable (_ ∧ _))
  | .allocStack _ _ _ => inferInstanceAs (Decidable (_ ≤ _))
  | .unmap _ _ => inferInstanceAs (Decidable (_ ∧ _))
  | .unmapPage2 _ | .invalidate _ | .fault _ _ => inferInstanceAs (Decidable True)

/-! ## What is available stays available -/

/-- Every address from `bot` up to `b` is available. -/
def AvailableTo (bot b : ℕ) (t : Tables) : Prop :=
  ∀ x, bot ≤ x → x < b → status (walk t pagelevels x).2 = .available

/-- The addresses from `bot` up to `top` have different entries. -/
def OneHalf (bot top : ℕ) : Prop :=
  ∀ x y, bot ≤ x → x < top → bot ≤ y → y < top → x / 2 ^ pagebits = y / 2 ^ pagebits

variable {bot b top N M c n : ℕ} {t t' : Tables} {e e' : PageEntry} {fm fm' : FrameManager}
  {mc : MapCode}

theorem AvailableTo.mono (h : AvailableTo bot b t) {b' : ℕ} (hb : b' ≤ b) : AvailableTo bot b' t :=
  fun x h1 h2 => h x h1 (h2.trans_le hb)

variable {user : Bool} {pma : ℕ} {type : PageEntry}

/-- What one page of `mapPageRegion` does to the translations. -/
theorem mapPage_mapped (h1 : 1 ≤ N) (hN : N < pagelevels)
    (h : mapPage N mc user t fm pma c type = .ok (t', fm')) : ∃ pma' type' fm₁,
      Paging.map N mc.present t c pma' type' fm₁ = .ok (true, t', fm') ∧ c % pagesize N = 0 ∧
      Mapped N (leaf N mc.present pma' type') t t' c := by
  obtain ⟨_, _, -, -, hmap⟩ := mapPage_map h
  obtain ⟨hal, -, hm⟩ := map_spec h1 hN hmap
  exact ⟨_, _, _, hmap, hal, hm⟩

/-- A page is mapped above. -/
theorem AvailableTo.mapped (h : AvailableTo bot b t) (hhalf : OneHalf bot top) (hN : N ≤ pagelevels)
    (hal : c % pagesize N = 0) (hb : b ≤ c) (hc : c < top) (hm : Mapped N e t t' c) :
    AvailableTo bot b t' := by
  intro x h1 h2
  have hne : index N x ≠ index N c := fun heq => by
    have hx : x / 2 ^ pagebits = c / 2 ^ pagebits :=
      hhalf x c h1 (h2.trans_le (hb.trans hc.le)) (h1.trans (h2.trans_le hb).le) hc
    exact absurd (Vm.inPage_of_index hN hx hal heq).1 (not_le.mpr (h2.trans_le hb))
  rcases hm.same_or_empty x hne with hsame | ⟨-, hzero⟩
  · rw [hsame]
    exact h x h1 h2
  · rw [hzero]
    exact status_zero

theorem AvailableTo.mapPages (hhalf : OneHalf bot top) (h1 : 1 ≤ N) (hN : N < pagelevels) (n : ℕ)
    (h : AvailableTo bot b t) (hb : b ≤ c) (htop : c + n * pagesize N ≤ top)
    (hr : AddressSpace.mapPages N mc user n t fm pma c type = .ok (t', fm')) :
    AvailableTo bot b t' := by
  induction n generalizing t fm pma c with
  | zero =>
    cases hr
    exact h
  | succ n ih =>
    have hpos := pagesize_pos N
    obtain ⟨t₁, fm₁, hpage, hr⟩ := mapPages_cons hr
    obtain ⟨_, _, _, _, hal, hm⟩ := mapPage_mapped h1 hN hpage
    rw [Nat.succ_mul] at htop
    exact ih (h.mapped hhalf hN.le hal hb (by omega) hm) (by omega) (by omega) hr

variable {kernel : Bool} {vma size : ℕ}

/-- **A region is mapped above.** -/
theorem AvailableTo.mapPageRegion {m m' : Space} (h : AvailableTo bot b m.t)
    (hhalf : OneHalf bot top) (h1 : 1 ≤ N) (hN : N < pagelevels) (hb : b ≤ vma)
    (htop : wadd vma size ≤ top)
    (hr : Space.mapPageRegion N mc kernel m pma vma size type = .ok m') :
    AvailableTo bot b m'.t ∧ m'.area = m.area := by
  obtain ⟨⟨t', fm'⟩, hregion, rfl⟩ := Fault.map_eq_ok hr
  refine ⟨?_, rfl⟩
  unfold AddressSpace.mapPageRegion at hregion
  split at hregion
  · rcases Nat.eq_zero_or_pos ((wadd vma size - vma) / pagesize N) with hzero | hpos
    · rw [hzero] at hregion
      cases hregion
      exact h
    · have hle := Nat.div_mul_le_self (wadd vma size - vma) (pagesize N)
      have hlt : vma < wadd vma size := by
        by_contra hge
        rw [Nat.sub_eq_zero_of_le (not_lt.mp hge), Nat.zero_div] at hpos
        exact lt_irrefl _ hpos
      exact h.mapPages hhalf h1 hN _ hb (by omega) hregion
  · cases hregion

/-- An entry that is not available is changed. -/
theorem AvailableTo.setPE (h : AvailableTo bot b t) (hw : walk t pagelevels c = (M, e))
    (he : isTable M e' = false) (hst : status e ≠ .available) :
    AvailableTo bot b (setPE t (M, index M c) e') := by
  intro x h1 h2
  have hM : 1 ≤ M := by
    have := one_le_walk t (show 1 ≤ pagelevels by decide) c
    rwa [hw] at this
  rw [walk_setPE hw (by decide) he, if_neg]
  · exact h x h1 h2
  · intro heq
    have hsame := walk_congr (show (walk t pagelevels c).1 = M by rw [hw]) hM heq.symm
    have hx := h x h1 h2
    rw [hsame, hw] at hx
    exact hst hx

/-! ## Ranges -/

variable {x : ℕ}

theorem dvd_wsub {d y : ℕ} (hd : d ∣ wordSize) (hx : d ∣ x) (hy : d ∣ y) : d ∣ wsub x y :=
  (Nat.dvd_mod_iff hd).mpr (Nat.dvd_sub (Nat.dvd_add hx hd) hy)

variable {a : VmArea}

/-- **`getVmRange<N>(0,size)` for any size**: the start is aligned and not below the new `mapStart`,
and the end, which may have wrapped around, is aligned and not above the old one. -/
theorem getVmRange_any {a' : VmArea} {start size' : ℕ} (hN : N ≤ pagelevels)
    (hw : a.mapStart < wordSize) (h : a.getVmRange N 0 size = .ok (start, size', a'))
    (hne : start ≠ topaddr) : a'.mapBottom = a.mapBottom ∧ a'.mapTop = a.mapTop ∧
      a'.mapStart ≤ a.mapStart ∧ a'.mapStart ≤ start ∧ a.mapBottom ≤ start ∧
      start % pagesize N = 0 ∧ size' % pagesize N = 0 ∧ wadd start size' % pagesize N = 0 ∧
      wadd start size' ≤ a.mapStart := by
  have hlt : a.mapBottom < a.mapTop := by
    by_contra hlt
    rw [getVmRange, if_neg hlt] at h
    cases h
  rw [getVmRange_zero hN hw hlt rfl rfl] at h
  have hstop := Nat.div_mul_le_self a.mapStart (pagesize N)
  have hal := Nat.mul_mod_left (a.mapStart / pagesize N) (pagesize N)
  generalize a.mapStart / pagesize N * pagesize N = stop at *
  have hle := Nat.div_mul_le_self (wsub stop size) (pagesize N)
  have hmod := Nat.mul_mod_left (wsub stop size / pagesize N) (pagesize N)
  have hsub := wsub_lt stop size
  generalize wsub stop size / pagesize N * pagesize N = st at *
  split at h
  · exact absurd (Prod.mk.inj (Except.ok.inj h)).1.symm hne
  rename_i hbot
  obtain ⟨rfl, hpair⟩ := Prod.mk.inj (Except.ok.inj h)
  cases hpair
  have hend : wadd st (wsub stop st) = stop := wadd_wsub (by omega) (by omega)
  have hsize : wsub stop st % pagesize N = 0 := Nat.mod_eq_zero_of_dvd
    (dvd_wsub (pow_dvd_pow 2 (pagesizebits_le hN)) (Nat.dvd_of_mod_eq_zero hal)
      (Nat.dvd_of_mod_eq_zero hmod))
  rw [hend]
  split
  · rename_i hst
    exact ⟨rfl, rfl, hst.le, le_rfl, not_lt.mp hbot, hmod, hsize, hal, hstop⟩
  · rename_i hst
    exact ⟨rfl, rfl, le_rfl, not_lt.mp hst, not_lt.mp hbot, hmod, hsize, hal, hstop⟩

/-- Whole pages are taken from a `mapStart` between pages. -/
theorem getVmRange_pages (hN : N ≤ pagelevels) (hw : a.mapStart < wordSize)
    (hlt : a.mapBottom < a.mapTop) (hal : a.mapStart % pagesize N = 0)
    (hsize : size % pagesize N = 0) (hfit : a.mapBottom + size ≤ a.mapStart)
    (hpos : 0 < size) :
    a.getVmRange N 0 size =
      .ok (a.mapStart - size, size, { a with mapStart := a.mapStart - size }) := by
  have hstop : a.mapStart = a.mapStart / pagesize N * pagesize N :=
    (Nat.div_mul_cancel (Nat.dvd_of_mod_eq_zero hal)).symm
  have hsub : wsub a.mapStart size = a.mapStart - size := wsub_of_le hw (by omega)
  have hstart : a.mapStart - size = wsub a.mapStart size / pagesize N * pagesize N := by
    rw [hsub]
    exact (Nat.div_mul_cancel
      (Nat.dvd_sub (Nat.dvd_of_mod_eq_zero hal) (Nat.dvd_of_mod_eq_zero hsize))).symm
  rw [getVmRange_zero hN hw hlt hstop hstart, if_neg (by omega), if_pos (by omega),
    wsub_of_le hw (by omega), Nat.sub_sub_self (by omega)]

/-! ## The invariant -/

/-- **The invariant.** -/
structure Inv (s : Sequential) : Prop where
  top : s.area.mapTop + pagesize pagelevels < wordSize
  half : OneHalf s.area.mapBottom s.area.mapTop
  start_le : s.area.mapStart ≤ s.area.mapTop
  available : AvailableTo s.area.mapBottom s.area.mapStart s.t
  pending : ∀ p ∈ s.pending, (1 ≤ p.1 ∧ p.1 < pagelevels) ∧ p.2 % pagesize p.1 = 0 ∧
    p.2 + pagesize p.1 ≤ s.area.mapTop

/-- The bounds stay, and everything below the new `mapStart` is available. -/
theorem Inv.moved (h : Inv s) {t : Tables} (hbot : a.mapBottom = s.area.mapBottom)
    (htop : a.mapTop = s.area.mapTop) (hle : a.mapStart ≤ a.mapTop)
    (hav : AvailableTo a.mapBottom a.mapStart t) : Inv { s with t, area := a } :=
  ⟨htop ▸ h.top, hbot ▸ htop ▸ h.half, hle, hav, fun p hp => htop ▸ h.pending p hp⟩

/-- **A range is taken and mapped.** -/
theorem Inv.range (h : Inv s) {m : Space} {start size' : ℕ} (h1 : 1 ≤ N) (hN : N < pagelevels)
    (hget : s.area.getVmRange N 0 size = .ok (start, size', a))
    (hr : Space.mapPageRegion N mc kernel ⟨s.t, a, fm, []⟩ pma start size' type = .ok m) :
    Inv (s.after m) := by
  have hne : start ≠ topaddr := by
    rintro rfl
    exact topaddr_mod_ne N (Space.aligned_of_mapPageRegion hr)
  have hw : s.area.mapStart < wordSize := lt_of_le_of_lt h.start_le (by have := h.top; omega)
  obtain ⟨hbot, htop, hle, hst, -, -, -, -, hend⟩ := getVmRange_any hN.le hw hget hne
  have hbelow : AvailableTo s.area.mapBottom a.mapStart s.t := h.available.mono hle
  obtain ⟨hav, harea⟩ := AvailableTo.mapPageRegion (m := ⟨s.t, a, fm, []⟩) hbelow h.half h1 hN hst
    (hend.trans h.start_le) hr
  have harea : m.area = a := harea
  rw [after, harea]
  exact h.moved hbot htop (htop ▸ hle.trans h.start_le) (hbot.symm ▸ hav)

theorem inv_map {alloc : Bool} (h : Inv s) (hN : 1 ≤ N ∧ N < pagelevels)
    (hr : s.act (.map N alloc kernel size pma fm) = .ok s') : Inv s' := by
  obtain ⟨⟨start, m⟩, hmap, rfl⟩ := Fault.map_eq_ok hr
  unfold Space.map at hmap
  split at hmap
  · split at hmap
    · cases hmap
    rename_i hget
    obtain ⟨m', hregion, heq⟩ := Fault.map_eq_ok hmap
    cases heq
    exact h.range hN.1 hN.2 hget hregion
  · cases hmap

theorem inv_kmap {alloc : Bool} (h : Inv s) (hN : 1 ≤ N ∧ N < pagelevels)
    (hr : s.act (.kmap N alloc kernel size pma fm) = .ok s') : Inv s' := by
  obtain ⟨⟨start, m⟩, hmap, rfl⟩ := Fault.map_eq_ok hr
  unfold Space.kmap at hmap
  split at hmap
  · cases hmap
  rename_i hget
  obtain ⟨m', hregion, heq⟩ := Fault.map_eq_ok hmap
  cases heq
  exact h.range hN.1 hN.2 hget hregion

/-- **A stack is taken**: its guard page and its pages are mapped one after the other. -/
theorem inv_allocStack {ss : ℕ} (h : Inv s)
    (hfit : ss + stackGuardPage ≤ alignDown s.area.mapStart (pagesize stackpl))
    (hr : s.act (.allocStack kernel ss fm) = .ok s') : Inv s' := by
  obtain ⟨⟨start, m⟩, hstack, rfl⟩ := Fault.map_eq_ok hr
  have hw : s.area.mapStart < wordSize := lt_of_le_of_lt h.start_le (by have := h.top; omega)
  have hN : stackpl < pagelevels := by decide
  have hround : alignDown s.area.mapStart (pagesize stackpl) ≤ s.area.mapStart :=
    alignDown_le hw (pagesizebits_le hN.le)
  have hsize : wadd ss stackGuardPage = ss + stackGuardPage := wadd_of_lt (by omega)
  unfold Space.allocStack at hstack
  split at hstack
  · cases hstack
  split at hstack
  · cases hstack
  rename_i vma size a hget
  split at hstack
  · cases hstack
  rename_i hok
  obtain ⟨hne, hsz⟩ := not_or.mp hok
  obtain rfl : size = ss + stackGuardPage := (not_not.mp hsz).trans hsize
  obtain ⟨rfl, hbot, -, hle, -⟩ := Vm.getVmRange_spec hN hw (hsize.trans_le hfit) hget hne
  have hle : vma + (ss + stackGuardPage) ≤ s.area.mapStart := hle
  have hstart := h.start_le
  have hguard : wadd vma stackGuardPage = vma + stackGuardPage := wadd_of_lt (by omega)
  have hend : wadd (vma + stackGuardPage) ss = vma + stackGuardPage + ss := wadd_of_lt (by omega)
  split at hstack
  · cases hstack
  rename_i m₁ hfirst
  obtain ⟨m₂, hsecond, heq⟩ := Fault.map_eq_ok hstack
  obtain ⟨-, rfl⟩ := Prod.mk.inj heq
  have hbelow : AvailableTo s.area.mapBottom vma s.t := h.available.mono (by omega)
  obtain ⟨hav₁, harea₁⟩ := AvailableTo.mapPageRegion
    (m := ⟨s.t, { s.area with mapStart := vma }, fm, []⟩) hbelow h.half le_rfl hN le_rfl
    (hguard.trans_le (by omega)) hfirst
  rw [hguard] at hsecond
  obtain ⟨hav₂, harea₂⟩ :=
    AvailableTo.mapPageRegion hav₁ h.half le_rfl hN (Nat.le_add_right _ _)
    (hend.trans_le (by omega)) hsecond
  rw [after, harea₂, harea₁]
  exact h.moved rfl rfl (show vma ≤ s.area.mapTop by omega) hav₂

theorem inv_unmap (h : Inv s) (hN : 1 ≤ N ∧ N < pagelevels)
    (hend : vma + pagesize N ≤ s.area.mapTop) (hr : s.act (.unmap N vma) = .ok s') : Inv s' := by
  simp only [act] at hr
  split at hr
  · cases hr
  · rename_i t hun
    cases hr
    obtain ⟨-, e, hw, ⟨hpe, -⟩ | ⟨-, hpres, haddr, rfl⟩⟩ := unmap1_spec hN.1 hN.2 hun
    · cases hpe
    · exact h.moved rfl rfl h.start_le
        (h.available.setPE hw (isTable_zero _) (by simp [status, hpres, haddr]))
  · rename_i pe t hun
    cases hr
    obtain ⟨hal, e, hw, ⟨-, hpres, rfl⟩ | ⟨hpe, -⟩⟩ := unmap1_spec hN.1 hN.2 hun
    · have hclear := isTable_eq_false_of_not_present (N := N) (present_clearP e)
      refine ⟨h.top, h.half, h.start_le, h.available.setPE hw hclear (by simp [status, hpres]), ?_⟩
      rintro p hp
      rcases List.mem_cons.mp hp with rfl | hp
      · exact ⟨hN, hal, hend⟩
      · exact h.pending p hp
    · cases hpe

variable {p : ℕ × ℕ}

theorem walk_cleared (h : Inv s) (hp : p ∈ s.pending) (hwin : inWindow s.t p.1 p.2 = true) (x : ℕ) :
    walk (s.cleared p) pagelevels x =
      if index p.1 x = index p.1 p.2 then (p.1, 0) else walk s.t pagelevels x := by
  obtain ⟨hN, -⟩ := h.pending p hp
  exact walk_setPE_of_le (of_decide_eq_true hwin) hN.1 hN.2.le (isTable_zero _) x

theorem available_cleared (h : Inv s) (hp : p ∈ s.pending) (hwin : inWindow s.t p.1 p.2 = true) :
    AvailableTo s.area.mapBottom s.area.mapStart (s.cleared p) := by
  intro x h1 h2
  rw [walk_cleared h hp hwin]
  split
  · exact status_zero
  · exact h.available x h1 h2

/-- **The climb of `putVmRange`** passes over available addresses only. -/
theorem climb_cleared (h : Inv s) (hp : p ∈ s.pending) (hwin : inWindow s.t p.1 p.2 = true)
    (fuel : ℕ) : p.2 + pagesize p.1 ≤ climb (s.cleared p) s.area.mapTop fuel (p.2 + pagesize p.1) ∧
      climb (s.cleared p) s.area.mapTop fuel (p.2 + pagesize p.1) ≤ s.area.mapTop ∧
      ∀ x, p.2 + pagesize p.1 ≤ x →
      x < climb (s.cleared p) s.area.mapTop fuel (p.2 + pagesize p.1) →
        status (walk (s.cleared p) pagelevels x).2 = .available := by
  obtain ⟨-, hal, hend⟩ := h.pending p hp
  have hself : walk (s.cleared p) pagelevels p.2 = (p.1, 0) := by
    rw [walk_cleared h hp hwin, if_pos rfl]
  exact climb_spec h.top fuel (fun M hM => aligned_next hself hal hM) hend

theorem inv_clearPage (h : Inv s) (hr : s.clearPage p = .ok s') :
    Inv s' ∧ p ∈ s.pending ∧ inWindow s.t p.1 p.2 = true ∧ s'.t = s.cleared p ∧
      s'.area = s.area := by
  unfold clearPage at hr
  split at hr
  · rename_i hc
    cases hr
    have hp : p ∈ s.pending := List.contains_iff_mem.mp hc.1
    refine ⟨⟨h.top, h.half, h.start_le, available_cleared (s := s) h hp hc.2, fun q hq => ?_⟩, hp,
      hc.2, rfl, rfl⟩
    exact h.pending q (List.mem_of_mem_erase hq)
  · cases hr

/-- **An invalidation completes.** -/
theorem inv_invalidate (h : Inv s) (hr : s.act (.invalidate p) = .ok s') : Inv s' := by
  obtain ⟨s₁, hclear, rfl⟩ := Fault.map_eq_ok hr
  obtain ⟨h₁, hp, hwin, ht, harea⟩ := inv_clearPage h hclear
  obtain ⟨hN, hal, hend⟩ := h.pending p hp
  have hadd : wadd p.2 (pagesize p.1) = p.2 + pagesize p.1 := wadd_of_lt (by have := h.top; omega)
  rw [harea, ht]
  unfold putVmRange
  dsimp only
  rw [hadd]
  split
  · rename_i hcond
    obtain ⟨-, hle, hav⟩ := climb_cleared h hp hwin (s.area.mapTop / pagesize 1 + 1)
    refine ⟨h.top, h.half, hle, fun x h1 h2 => ?_, fun q hq => harea ▸ h₁.pending q hq⟩
    show status (walk (s.cleared p) pagelevels x).2 = .available
    rcases lt_or_ge x s.area.mapStart with hx | hx
    · exact available_cleared h hp hwin x h1 hx
    · rcases lt_or_ge x (p.2 + pagesize p.1) with hx' | hx'
      · -- in the page itself
        rw [walk_cleared h hp hwin, if_pos (Vm.index_of_inPage hN.2.le hal ⟨hcond.1.trans hx, hx'⟩)]
        exact status_zero
      · exact hav x hx' h2
  · exact ⟨h.top, h.half, h.start_le, available_cleared (s := s) h hp hwin,
      fun q hq => harea ▸ h₁.pending q hq⟩

theorem inv_fault (h : Inv s) (hr : s.act (.fault vma fm) = .ok s') : Inv s' := by
  obtain ⟨⟨b, t, fm'⟩, hf, rfl⟩ := Fault.map_eq_ok hr
  rcases fault_spec hf with ⟨rfl, -⟩ | ⟨N, e, pma, hw, hpres, hpage, haddr, -, -, rfl⟩
  · exact h
  · exact h.moved rfl rfl h.start_le (h.available.setPE hw
      (isTable_eq_false_of_isPage (isPage_faulted hpage)) (by simp [status, hpres, haddr]))

/-- **One operation keeps the invariant.** -/
theorem inv_step {a : Action} (h : Inv s) (ha : s.Allowed a) (hstep : s.step a = some s') :
    Inv s' := by
  have hr := Fault.toOption_eq_some hstep
  cases a with
  | map N alloc kernel size pma fm => exact inv_map h ha hr
  | kmap N alloc kernel size pma fm => exact inv_kmap h ha hr
  | allocStack kernel ss fm => exact inv_allocStack h ha hr
  | unmap N vma => exact inv_unmap h ha.1 ha.2 hr
  | unmapPage2 p => exact (inv_clearPage h hr).1
  | invalidate p => exact inv_invalidate h hr
  | fault vma fm => exact inv_fault h hr

/-- An address space after `initUser` or `initKernel`: the dynamic area lies in one canonical half
and nothing is mapped in it. -/
structure Fresh (s : Sequential) : Prop where
  top : s.area.mapTop + pagesize pagelevels < wordSize
  half : s.area.mapBottom / 2 ^ pagebits = (s.area.mapTop - 1) / 2 ^ pagebits
  start : s.area.mapStart = s.area.mapTop
  empty : AvailableTo s.area.mapBottom s.area.mapTop s.t
  pending : s.pending = []

theorem Fresh.inv (h : Fresh s) : Inv s := by
  have hdiv : ∀ x, s.area.mapBottom ≤ x → x < s.area.mapTop →
      x / 2 ^ pagebits = s.area.mapBottom / 2 ^ pagebits := fun x h1 h2 =>
    le_antisymm (h.half ▸ Nat.div_le_div_right (Nat.le_sub_one_of_lt h2)) (Nat.div_le_div_right h1)
  refine ⟨h.top, fun x y h1 h2 h3 h4 => (hdiv x h1 h2).trans (hdiv y h3 h4).symm, h.start.le,
    h.start ▸ h.empty, ?_⟩
  simp [h.pending]

/-- **Everything below `mapStart` is available**, after any sequence of operations, and `mapStart`
is not above `mapTop`; when an invalidation completes, every address that the loop of `putVmRange`
passes, however far it gets, is available. -/
theorem mapStart_invariant {s₀ : Sequential} (h₀ : Fresh s₀) {as : List Action}
    (hrun : run step s₀ as = some s) (hg : Guarded step Allowed s₀ as) :
    (∀ x, s.area.mapBottom ≤ x → x < s.area.mapStart →
      status (walk s.t pagelevels x).2 = .available) ∧ s.area.mapStart ≤ s.area.mapTop ∧
    ∀ p ∈ s.pending, inWindow s.t p.1 p.2 = true → ∀ fuel x, p.2 + pagesize p.1 ≤ x →
      x < climb (s.cleared p) s.area.mapTop fuel (p.2 + pagesize p.1) →
      status (walk (s.cleared p) pagelevels x).2 = .available := by
  have h : Inv s := invariant_of_guarded inv_step h₀.inv hg hrun
  exact ⟨h.available, h.start_le, fun p hp hwin fuel => (climb_cleared h hp hwin fuel).2.2⟩

/-- A user address space with tables for its last page. -/
def userSpace : Sequential := ⟨Vm.userSpace.t, Vm.userSpace.area, []⟩

theorem fresh_userSpace : Fresh userSpace :=
  ⟨by decide, by decide, rfl, fun x _ _ => (Vm.walk_userSpace x).symm ▸ status_zero, rfl⟩

/-- A stack and a page are taken; then the page is given back. -/
def stackAndPage : List Action :=
  [.allocStack false 8192 Vm.noFrames, .map 1 false false 4096 0x5000 Vm.noFrames,
    .unmap 1 (2 ^ 47 - 16384), .invalidate (1, 2 ^ 47 - 16384)]

theorem mapStart_invariant_stackAndPage : ∃ s, run step userSpace stackAndPage = some s ∧
    s.area.mapStart = 2 ^ 47 - 12288 ∧ ∀ x, s.area.mapBottom ≤ x → x < s.area.mapStart →
      status (walk s.t pagelevels x).2 = .available := by
  exact exists_run_and (by decide +kernel) fun s hrun _ =>
    (mapStart_invariant fresh_userSpace hrun (guarded_of_decide (by decide +kernel))).1

/-! ## Mapping what is handed out -/

/-- A page can be mapped to the address. -/
def Fits (pma : ℕ) : Prop := pma ≠ topaddr ∧ BitVec.ofNat 64 pma &&& ~~~ADDR = 0

/-- **Enough free frames**: whatever the order, `k` requests are met, by `mapTable` for its tables
and by `mapPageRegion<N,Alloc>` for its pages. -/
def Serves (N : ℕ) (mc : MapCode) : ℕ → FrameManager → Prop
  | 0, _ => True
  | k + 1, fm =>
    (∃ pma fm', fm.allocFrame pagetablepl = .ok (pma, fm') ∧ pma ≠ topaddr ∧ Serves N mc k fm') ∧
      (mc = .alloc →
        ∃ pma fm', fm.allocFrame N = .ok (pma, fm') ∧ Fits pma ∧ Serves N mc k fm')

variable {k : ℕ}

theorem Serves.mono {m : ℕ} (h : Serves N mc m fm) (hk : k ≤ m) : Serves N mc k fm := by
  induction m generalizing k fm with
  | zero =>
    obtain rfl : k = 0 := by omega
    exact h
  | succ m ih =>
    cases k with
    | zero => trivial
    | succ k =>
      obtain ⟨⟨pma, fm₁, hr, hne, h₁⟩, hpages⟩ := h
      refine ⟨⟨pma, fm₁, hr, hne, ih h₁ (by omega)⟩, fun halloc => ?_⟩
      obtain ⟨pma, fm₂, hr, hfits, h₂⟩ := hpages halloc
      exact ⟨pma, fm₂, hr, hfits, ih h₂ (by omega)⟩

/-- Without pages to allocate, small frames are enough. -/
theorem serves_of_hasFrames (hmc : mc ≠ .alloc) : ∀ {k : ℕ} {fm : FrameManager},
    FrameManager.HasFrames k fm → Serves N mc k fm
  | 0, _, _ => trivial
  | k + 1, _, h => by
    obtain ⟨pma, fm', hr, hne, h'⟩ := h.table
    exact ⟨⟨pma, fm', hr, hne, serves_of_hasFrames hmc h'⟩, fun halloc => absurd halloc hmc⟩

theorem frameFor_returns (hpma : mc = .noAlloc → Fits pma) (h : Serves N mc (k + 1) fm) :
    ∃ pma' fm', frameFor N mc pma fm = .ok (pma', fm') ∧ Fits pma' ∧ Serves N mc k fm' := by
  cases mc with
  | noAlloc => exact ⟨pma, fm, rfl, hpma rfl, h.mono (by omega)⟩
  | alloc => exact h.2 rfl
  | guard => exact ⟨_, fm, rfl, ⟨by decide, by decide⟩, h.mono (by omega)⟩
  | lazy => exact ⟨_, fm, rfl, ⟨by decide, by decide⟩, h.mono (by omega)⟩

/-- **A page without a table below it can be mapped**, with one frame for the page and one for each
missing table. -/
theorem mapPage_returns (type : PageEntry) (h1 : 1 ≤ N) (hN : N < pagelevels)
    (hal : c % pagesize N = 0) (hlevel : N ≤ (walk t pagelevels c).1)
    (hfree : (walk t pagelevels c).2.present = false) (hpma : mc = .noAlloc → Fits pma)
    (h : Serves N mc (k + pagelevels) fm) :
    ∃ t' fm', mapPage N mc user t fm pma c type = .ok (t', fm') ∧ Serves N mc k fm' := by
  obtain ⟨pma', fm₁, hframe, ⟨hne, hbits⟩, h₁⟩ := frameFor_returns hpma
    (show Serves N mc (k + (pagelevels - 1) + 1) fm from h)
  have hL := walk_le t pagelevels c
  obtain ⟨⟨L, e⟩, hw⟩ : ∃ p, walk t pagelevels c = p := ⟨_, rfl⟩
  rw [hw] at hlevel hfree hL
  dsimp only at hlevel hL
  obtain ⟨t', fm₂, hmap, h₂⟩ :=
    map_returns (R := Serves N mc) And.left h1 hN hw hfree hlevel hal hbits mc.present
    (if user then type ||| US else type) (m := k + (pagelevels - 1) - (L - N)) (h₁.mono (by omega))
  refine ⟨t', fm₂, ?_, h₂.mono (by omega)⟩
  rw [mapPage, hframe]
  simp only [if_neg hne, hmap]

/-- Nothing is mapped from `c` to `b`, and no table is in the way of a page of level `N`. -/
def Open (N c b : ℕ) (t : Tables) : Prop :=
  ∀ x, c ≤ x → x < b → N ≤ (walk t pagelevels x).1 ∧ (walk t pagelevels x).2.present = false

theorem index_ne_of_lt (hhalf : OneHalf bot top) (hN : N ≤ pagelevels) (hal : c % pagesize N = 0)
    (hbot : bot ≤ c) (hx : c + pagesize N ≤ x) (hxt : x < top) : index N x ≠ index N c := by
  intro heq
  have hpos := pagesize_pos N
  have hdiv : x / 2 ^ pagebits = c / 2 ^ pagebits := hhalf x c (by omega) hxt hbot (by omega)
  exact absurd (Vm.inPage_of_index hN hdiv hal heq).2 (not_lt.mpr hx)

/-- **The pages of an open range are mapped one after the other.** -/
theorem mapPages_returns (hhalf : OneHalf bot top) (h1 : 1 ≤ N) (hN : N < pagelevels) (n : ℕ) :
    ∀ {t : Tables} {fm : FrameManager} {pma c : ℕ}, bot ≤ c →
    c % pagesize N = 0 → c + n * pagesize N ≤ top → Open N c (c + n * pagesize N) t →
    (mc = .noAlloc → ∀ i < n, Fits (pma + i * pagesize N)) → Serves N mc (n * pagelevels) fm →
    ∃ r, mapPages N mc user n t fm pma c type = .ok r := by
  induction n with
  | zero => exact fun _ _ _ _ _ _ => ⟨_, rfl⟩
  | succ n ih =>
    intro t fm pma c hbot hal htop hopen hpma hserves
    have hpos := pagesize_pos N
    rw [Nat.succ_mul] at htop hserves hopen
    obtain ⟨hlevel, hfree⟩ := hopen c le_rfl (by omega)
    obtain ⟨t₁, fm₁, hpage, hserves₁⟩ := mapPage_returns type h1 hN hal hlevel hfree
      (fun hmc => by simpa using hpma hmc 0 (by omega)) hserves
    obtain ⟨_, _, _, hmap, -, hm⟩ := mapPage_mapped h1 hN hpage
    have hrest : Open N (c + pagesize N) (c + pagesize N + n * pagesize N) t₁ := by
      intro x hx hxb
      have hne : index N x ≠ index N c := index_ne_of_lt hhalf hN.le hal hbot hx (by omega)
      obtain ⟨hlevel, hfree⟩ := hopen x (by omega) (by omega)
      refine ⟨map_level h1 hN hmap hne hlevel, ?_⟩
      rcases hm.same_or_empty x hne with hsame | ⟨-, hzero⟩
      · rwa [hsame]
      · rw [hzero]
        decide
    rw [mapPages, hpage]
    refine ih (by omega) (by rw [Nat.add_mod_right, hal]) (by omega) hrest
      (fun hmc i hi => ?_) hserves₁
    have := hpma hmc (i + 1) (by omega)
    rwa [if_pos hmc, show pma + pagesize N + i * pagesize N = pma + (i + 1) * pagesize N by ring]

/-- What is open after a page is mapped was open before. -/
theorem level_of_mapped {present : Bool} {pma : PageEntry} (h1 : 1 ≤ N) (hN : N < pagelevels)
    (h : Paging.map N present t c pma type fm = .ok (true, t', fm'))
    (hx : N ≤ (walk t' pagelevels x).1) : N ≤ (walk t pagelevels x).1 := by
  have hc := level_of_map h1 hN h
  obtain ⟨-, -, hm⟩ := map_spec h1 hN h
  by_cases heq : index (walk t pagelevels c).1 x = index (walk t pagelevels c).1 c
  · rwa [walk_congr rfl (h1.trans hc) heq.symm]
  · rcases hm.same_or_empty x fun hidx => heq (index_mono h1 hc hidx) with hsame | ⟨hidx, -⟩
    · rwa [← hsame]
    · exact absurd hidx heq

/-- **Where pages have been mapped, there was no table in the way.** -/
theorem level_of_mapPages (h1 : 1 ≤ N) (hN : N < pagelevels) (n : ℕ) {r : Tables × FrameManager}
    (hr : mapPages N mc user n t fm pma c type = .ok r) (x : ℕ) (h2 : c ≤ x)
    (h3 : x < c + n * pagesize N) : N ≤ (walk t pagelevels x).1 := by
  induction n generalizing t fm pma c with
  | zero => omega
  | succ n ih =>
    obtain ⟨t₁, fm₁, hpage, hr⟩ := mapPages_cons hr
    obtain ⟨_, _, _, hmap, hal, hm⟩ := mapPage_mapped h1 hN hpage
    rw [Nat.succ_mul] at h3
    rcases lt_or_ge x (c + pagesize N) with hx | hx
    · refine level_of_mapped h1 hN hmap (le_of_eq ?_)
      rw [hm.page x (Vm.index_of_inPage hN.le hal ⟨h2, hx⟩)]
    · exact level_of_mapped h1 hN hmap (ih hr hx (by omega))

theorem present_of_available (h : status e = .available) : e.present = false := by
  by_contra hp
  rw [status, if_pos (by simpa using hp)] at h
  cases h

theorem fits_of_lt (hal : pma % pagesize 1 = 0) (hlt : pma < 2 ^ 52) : Fits pma := by
  have hpma : pma = pma / sps * sps := (Nat.div_mul_cancel (Nat.dvd_of_mod_eq_zero hal)).symm
  refine ⟨fun htop => absurd (htop ▸ hlt) (by decide), ?_⟩
  rw [hpma]
  exact (ofNat_frame (Nat.div_lt_of_lt_mul hlt)).1

/-- **A range handed out can be mapped exactly where no table is in the way of its pages**: in every
state reached, for every size and, unless the frames are given, with as many free frames as pages
and tables can need. -/
theorem mapRange_iff {s₀ : Sequential} (h₀ : Fresh s₀) {as : List Action}
    (hrun : run step s₀ as = some s) (hg : Guarded step Allowed s₀ as) (h1 : 1 ≤ N)
    (hN : N < pagelevels) {size start size' : ℕ} {a : VmArea}
    (hget : s.area.getVmRange N 0 size = .ok (start, size', a)) (hne : start ≠ topaddr)
    (kernel : Bool) (type : PageEntry) {pma : ℕ}
    (hpma : mc = .noAlloc → pma % pagesize 1 = 0 ∧ pma + size' ≤ 2 ^ 52)
    (hfm : Serves N mc (size' / pagesize N * pagelevels) fm) :
    (∃ m, Space.mapPageRegion N mc kernel ⟨s.t, a, fm, []⟩ pma start size' type = .ok m) ↔
      ∀ x, start ≤ x → x < wadd start size' → N ≤ (walk s.t pagelevels x).1 := by
  have h : Inv s := invariant_of_guarded inv_step h₀.inv hg hrun
  have hw : s.area.mapStart < wordSize := lt_of_le_of_lt h.start_le (by have := h.top; omega)
  obtain ⟨-, -, -, -, hbot, hal, hsize, hendal, hend⟩ := getVmRange_any hN.le hw hget hne
  have hpages : AddressSpace.mapPageRegion N mc (!kernel) s.t fm pma start size' type =
      mapPages N mc (!kernel) ((wadd start size' - start) / pagesize N) s.t fm pma start type := by
    rw [AddressSpace.mapPageRegion, aligned_pagesize.mpr hal, aligned_pagesize.mpr hsize]
    rfl
  have hn : (wadd start size' - start) / pagesize N * pagesize N = wadd start size' - start :=
    Nat.div_mul_cancel (Nat.dvd_sub (Nat.dvd_of_mod_eq_zero hendal) (Nat.dvd_of_mod_eq_zero hal))
  have hlong : wadd start size' ≤ start + size' := Nat.mod_le _ _
  have hmany : (wadd start size' - start) / pagesize N ≤ size' / pagesize N :=
    Nat.div_le_div_right (by omega)
  generalize (wadd start size' - start) / pagesize N = n at hpages hn hmany
  constructor
  · rintro ⟨m, hm⟩ x h2 h3
    obtain ⟨r, hr, -⟩ := Fault.map_eq_ok hm
    rw [hpages] at hr
    exact level_of_mapPages h1 hN n hr x h2 (by omega)
  · intro hlevel
    have hopen : Open N start (start + n * pagesize N) s.t := fun x h2 h3 =>
      ⟨hlevel x h2 (by omega), present_of_available (h.available x (by omega) (by omega))⟩
    have hfits : mc = .noAlloc → ∀ i < n, Fits (pma + i * pagesize N) := by
      intro hmc i hi
      obtain ⟨hpal, hle⟩ := hpma hmc
      have hi := Nat.mul_le_mul_right (pagesize N) (show i + 1 ≤ n from hi)
      have hpos := pagesize_pos N
      rw [Nat.succ_mul] at hi
      refine fits_of_lt ?_ (by omega)
      rw [Nat.add_mod, hpal, Nat.mod_eq_zero_of_dvd ((pagesize_dvd le_rfl h1).mul_left i)]
      rfl
    obtain ⟨r, hr⟩ : ∃ r, mapPages N mc (!kernel) n s.t fm pma start type = .ok r := by
      rcases lt_or_ge start (wadd start size') with hlt | hge
      · have := h.start_le
        exact mapPages_returns h.half h1 hN n hbot hal (by omega) hopen hfits
          (hfm.mono (Nat.mul_le_mul_right _ hmany))
      · -- the range has wrapped around and has no page
        obtain rfl : n = 0 := (Nat.mul_eq_zero.mp (by omega)).resolve_right (pagesize_pos N).ne'
        exact ⟨_, rfl⟩
    rw [Space.mapPageRegion, hpages]
    dsimp only
    rw [hr]
    exact ⟨_, rfl⟩

/-! ## A recycled block -/

/-- The kernel after `bootstrap2`, with the top 2 MB taken at boot: the tables of level 3 are
there. -/
def kernelSpace : Sequential :=
  ⟨fun n i => if n = pagelevels ∧ 508 ≤ i ∧ i < 511 then pageTable else 0,
    ⟨2 ^ 64 - 2 ^ 41, 2 ^ 64 - 2 ^ 39 - 2 ^ 21, 2 ^ 64 - 2 ^ 39 - 2 ^ 21⟩, []⟩

theorem walk_kernelSpace (x : ℕ) : (walk kernelSpace.t pagelevels x).2 = 0 := by
  obtain ⟨⟨N, e⟩, hwalk⟩ : ∃ p, walk kernelSpace.t pagelevels x = p := ⟨_, rfl⟩
  obtain ⟨rfl, hnot⟩ := walk_entry (by decide) hwalk
  rw [hwalk]
  unfold kernelSpace at hnot ⊢
  dsimp only at hnot ⊢
  split
  · rename_i hcase
    rw [if_pos hcase, hcase.1] at hnot
    exact absurd hnot (by decide)
  · rfl

theorem fresh_kernelSpace : Fresh kernelSpace :=
  ⟨by decide, by decide, rfl, fun x _ _ => (walk_kernelSpace x).symm ▸ status_zero, rfl⟩

/-- The page that the first `kmap<1>` gets. -/
def firstPage : ℕ := 2 ^ 64 - 2 ^ 39 - 2 ^ 21 - 4096

/-- The area without that page. -/
def leftArea : VmArea := ⟨2 ^ 64 - 2 ^ 41, firstPage, 2 ^ 64 - 2 ^ 39 - 2 ^ 21⟩

/-- A page is mapped, unmapped and invalidated. -/
def pageAndBack (fm : FrameManager) : List Action :=
  [.kmap 1 false true 4096 0x5000 fm, .unmap 1 firstPage, .invalidate (1, firstPage)]

theorem kmap_kernelSpace (hfm : FrameManager.HasFrames pagelevels fm) : ∃ t e,
    kernelSpace.step (.kmap 1 false true 4096 0x5000 fm) = some ⟨t, leftArea, []⟩ ∧
    walk t pagelevels firstPage = (1, e) ∧ e.present = true := by
  obtain ⟨t, fm', hpage, -⟩ :
      ∃ t fm', mapPage 1 .noAlloc false kernelSpace.t fm 0x5000 firstPage kernelData =
      .ok (t, fm') ∧ Serves 1 .noAlloc 0 fm' :=
    mapPage_returns kernelData le_rfl (by decide) (by decide)
      (one_le_walk kernelSpace.t (show 1 ≤ pagelevels by decide) firstPage)
      ((walk_kernelSpace firstPage).symm ▸ by decide) (fun _ => fits_of_lt (by decide) (by decide))
      (serves_of_hasFrames (by decide) hfm)
  obtain ⟨pma, type, fm₁, -, -, hm⟩ := mapPage_mapped le_rfl (by decide) hpage
  have hget : kernelSpace.area.getVmRange 1 0 4096 = .ok (firstPage, 4096, leftArea) :=
    getVmRange_pages (by decide) (by decide) (by decide) (by decide) (by decide) (by decide)
      (by decide)
  have hpages :
      AddressSpace.mapPageRegion 1 .noAlloc false kernelSpace.t fm 0x5000 firstPage 4096
      kernelData = .ok (t, fm') := by
    rw [AddressSpace.mapPageRegion, if_pos (by decide),
      show (wadd firstPage 4096 - firstPage) / pagesize 1 = 1 by decide, mapPages, hpage]
    rfl
  refine ⟨t, leaf 1 true pma type, ?_, hm.page _ rfl, present_leaf_true⟩
  rw [step, act, Space.kmap]
  simp only [space, hget, Space.mapPageRegion, Bool.false_eq_true, if_false, Bool.not_true, hpages]
  rfl

theorem unmap_present {v : ℕ} (hal : v % pagesize N = 0) (hw : walk s.t pagelevels v = (N, e))
    (he : e.present = true) : s.step (.unmap N v) =
      some ⟨setPE s.t (N, index N v) (e &&& ~~~P), s.area, (N, v) :: s.pending⟩ := by
  obtain ⟨hentry, htable⟩ := walk_entry (by decide) hw
  have hpage : isPage N e = true := by
    rwa [isTable, he, Bool.true_and, Bool.not_eq_false'] at htable
  have hwin : inWindow s.t N v = true := decide_eq_true (by rw [hw])
  rw [step, act, unmap1, if_neg (by simp [aligned_pagesize.mpr hal])]
  simp only [hwin, ← hentry, hpage, he, Bool.true_eq_false, if_false, if_true]
  rfl

/-- The page below `mapTop` is given back. -/
theorem invalidate_last (h : Inv s) (hp : p ∈ s.pending) (hwin : inWindow s.t p.1 p.2 = true)
    (hstart : p.2 = s.area.mapStart) (hend : p.2 + pagesize p.1 = s.area.mapTop) :
    s.step (.invalidate p) = some ⟨s.cleared p, { s.area with mapStart := s.area.mapTop },
      s.pending.erase p⟩ := by
  have hadd : wadd p.2 (pagesize p.1) = p.2 + pagesize p.1 := wadd_of_lt (by have := h.top; omega)
  obtain ⟨hge, hle, -⟩ := climb_cleared h hp hwin (s.area.mapTop / pagesize 1 + 1)
  have hclimb := le_antisymm hle (hend ▸ hge)
  rw [step, act, clearPage, if_pos ⟨List.contains_iff_mem.mpr hp, hwin⟩]
  simp only [Except.map, putVmRange, hadd, hclimb]
  rw [if_pos ⟨hstart.le, by omega⟩]
  rfl

/-- **The page is back, its table is still there.** -/
theorem run_pageAndBack (hfm : FrameManager.HasFrames pagelevels fm) :
    Guarded step Allowed kernelSpace (pageAndBack fm) ∧ ∃ t,
      run step kernelSpace (pageAndBack fm) = some ⟨t, kernelSpace.area, []⟩ ∧
      walk t pagelevels firstPage = (1, 0) := by
  obtain ⟨t₁, e, hmap, hw₁, he⟩ := kmap_kernelSpace hfm
  have hun :=
    unmap_present (s := ⟨t₁, leftArea, []⟩) (show firstPage % pagesize 1 = 0 by decide) hw₁ he
  have hw₂ : walk (setPE t₁ (1, index 1 firstPage) (e &&& ~~~P)) pagelevels firstPage =
      (1, e &&& ~~~P) := by
    rw [walk_setPE hw₁ (by decide) (isTable_eq_false_of_not_present (present_clearP e)), if_pos rfl]
  dsimp only at hun
  generalize setPE t₁ (1, index 1 firstPage) (e &&& ~~~P) = t₂ at hun hw₂
  have hwin : inWindow t₂ 1 firstPage = true := decide_eq_true (by rw [hw₂])
  have ha₁ : kernelSpace.Allowed (.kmap 1 false true 4096 0x5000 fm) := ⟨by decide, by decide⟩
  have ha₂ : Allowed ⟨t₁, leftArea, []⟩ (.unmap 1 firstPage) :=
    ⟨⟨by decide, by decide⟩, show firstPage + pagesize 1 ≤ leftArea.mapTop by decide⟩
  have h₂ : Inv ⟨t₂, leftArea, [(1, firstPage)]⟩ :=
    inv_step (inv_step fresh_kernelSpace.inv ha₁ hmap) ha₂ hun
  have hput := invalidate_last h₂ (List.mem_singleton_self (1, firstPage)) hwin rfl
    (show firstPage + pagesize 1 = leftArea.mapTop by decide)
  refine ⟨⟨ha₁, fun s hs => ⟨?_, fun _ _ => ⟨trivial, fun _ _ => trivial⟩⟩⟩, _,
    run_cons.mpr ⟨_, hmap, run_cons.mpr ⟨_, hun, run_cons.mpr ⟨_, hput, run_nil.mpr rfl⟩⟩⟩, ?_⟩
  · obtain rfl := Option.some.inj (hmap.symm.trans hs)
    exact ha₂
  · rw [walk_cleared h₂ (List.mem_singleton_self (1, firstPage)) hwin, if_pos rfl]

theorem level_kernelSpace (x : ℕ) : 2 ≤ (walk kernelSpace.t pagelevels x).1 := by
  by_contra hlt
  have htable := isTable_of_lt_walk (not_le.mp hlt) (by decide)
  have hzero : kernelSpace.t 2 (index 2 x) = 0 := by simp [kernelSpace, pagelevels]
  rw [hzero, isTable_zero] at htable
  cases htable

/-- The first 2 MB can be mapped, and the page that was given back can be mapped again. -/
theorem mapRange_pageAndBack : ∃ fm t m m',
    run step kernelSpace (pageAndBack fm) = some ⟨t, kernelSpace.area, []⟩ ∧
    Space.mapPageRegion 2 .noAlloc true
      ⟨kernelSpace.t, { kernelSpace.area with mapStart := 2 ^ 64 - 2 ^ 39 - 2 ^ 22 }, fm, []⟩
      (2 ^ 30) (2 ^ 64 - 2 ^ 39 - 2 ^ 22) (2 ^ 21) kernelData = .ok m ∧
    Space.mapPageRegion 1 .noAlloc true ⟨t, leftArea, fm, []⟩ 0x5000 firstPage 4096 kernelData =
      .ok m' := by
  obtain ⟨fm, hfm⟩ := FrameManager.exists_hasFrames
  obtain ⟨hg, t, hrun, -⟩ := run_pageAndBack (hfm.mono (by decide))
  have hblock :=
    getVmRange_pages (a := kernelSpace.area) (show 2 ≤ pagelevels by decide) (by decide) (by decide)
    (by decide) (show 2 ^ 21 % pagesize 2 = 0 by decide) (by decide) (by decide)
  have hpage :=
    getVmRange_pages (a := kernelSpace.area) (show 1 ≤ pagelevels by decide) (by decide) (by decide)
    (by decide) (show 4096 % pagesize 1 = 0 by decide) (by decide) (by decide)
  have hserves : ∀ {N : ℕ}, Serves N .noAlloc pagelevels fm :=
    serves_of_hasFrames (by decide) (hfm.mono (by decide))
  obtain ⟨m, hm⟩ :=
    (mapRange_iff fresh_kernelSpace (run_nil.mpr rfl) trivial (by decide) (by decide) hblock
    (by decide) true kernelData (fun _ => ⟨show 2 ^ 30 % _ = 0 by decide, by decide⟩)
    (hserves : Serves 2 .noAlloc _ fm)).mpr fun x _ _ => level_kernelSpace x
  obtain ⟨m', hm'⟩ := (mapRange_iff fresh_kernelSpace hrun hg (by decide) (by decide) hpage
    (by decide) true kernelData (fun _ => ⟨show 0x5000 % _ = 0 by decide, by decide⟩)
    (hserves : Serves 1 .noAlloc _ fm)).mpr fun x _ _ => one_le_walk t (by decide) x
  exact ⟨fm, t, m, m', hrun, hm, hm'⟩

/-- **A recycled block cannot be mapped**: after a page of 4 KB has been mapped and unmapped, and
its invalidation has completed, `getVmRange<2>` returns the block around it, and the assertion in
`map` that nothing is present fails on the table that is still there. -/
theorem recycled_block_blocked : ∃ fm t, FrameManager.HasFrames 16 fm ∧ Fresh kernelSpace ∧
    Guarded step Allowed kernelSpace (pageAndBack fm) ∧
    run step kernelSpace (pageAndBack fm) = some ⟨t, kernelSpace.area, []⟩ ∧
    kernelSpace.area.getVmRange 2 0 (2 ^ 21) = .ok (2 ^ 64 - 2 ^ 39 - 2 ^ 22, 2 ^ 21,
      { kernelSpace.area with mapStart := 2 ^ 64 - 2 ^ 39 - 2 ^ 22 }) ∧
    Space.mapPageRegion 2 .noAlloc true
      ⟨t, { kernelSpace.area with mapStart := 2 ^ 64 - 2 ^ 39 - 2 ^ 22 }, fm, []⟩ (2 ^ 30)
      (2 ^ 64 - 2 ^ 39 - 2 ^ 22) (2 ^ 21) kernelData = .error .kassert := by
  obtain ⟨fm, hfm⟩ := FrameManager.exists_hasFrames
  obtain ⟨hg, t, hrun, hw⟩ := run_pageAndBack (hfm.mono (by decide))
  refine ⟨fm, t, hfm, fresh_kernelSpace, hg, hrun, ?_, ?_⟩
  · exact getVmRange_pages (by decide) (by decide) (by decide) (by decide) (by decide) (by decide)
      (by decide)
  · have hlevel : (walk t pagelevels (2 ^ 64 - 2 ^ 39 - 2 ^ 22)).1 < 2 := by
      by_contra hge
      have hidx : index 2 (2 ^ 64 - 2 ^ 39 - 2 ^ 22) = index 2 firstPage := by decide
      have hsame := walk_congr rfl (by omega) (index_mono (by decide) (not_lt.mp hge) hidx)
      rw [← hsame, hw] at hge
      exact hge (by decide)
    have hmap : mapPage 2 .noAlloc false t fm (2 ^ 30) (2 ^ 64 - 2 ^ 39 - 2 ^ 22) kernelData =
        .error .kassert := by
      rw [mapPage, frameFor]
      simp only [if_neg (show 2 ^ 30 ≠ topaddr by decide), Bool.false_eq_true, if_false]
      rw [map_blocked (by decide) (by decide) (by decide) (by decide) hlevel]
    rw [Space.mapPageRegion, AddressSpace.mapPageRegion, if_pos (by decide)]
    rw [show (wadd (2 ^ 64 - 2 ^ 39 - 2 ^ 22) (2 ^ 21) - (2 ^ 64 - 2 ^ 39 - 2 ^ 22)) / pagesize 2 =
      1 by decide]
    rw [mapPages, show (!true) = false from rfl]
    dsimp only
    rw [hmap]
    rfl

end Sequential

end Kos
