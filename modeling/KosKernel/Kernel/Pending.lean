import KosKernel.Kernel.AddressSpace
import KosKernel.Kernel.VmRuns

/-!
# Kernel/Pending — the pages on their way out

Between `unmapPage1` and `unmapPage2` a page is not present, but its entry still holds the frame
that the invalidation will release.  The item in `invList` remembers where the entry is, not what is
in it.

The operations of the code, in any order and at any address: mapping, unmapping with and without
items, page faults, and `runInvalidation` from any node of the list.  `map` looks at the `P` bit
only, so it takes a page on its way out for a free one.  Where no mapping covers such a page, each
item finds the entry it was posted for (`pending_page_kept`); a mapping that does cover it always
overwrites the entry (`Pend.map_keeps_iff`).
-/

namespace Kos

open Function Runs Paging PageEntry AddressSpace

/-! ## The system -/

/-- A record of a finished item: the entry that `unmap2` found, and the address that was passed to
`releaseFrames`. -/
structure Undone where
  item : PageInvalidation
  found : PageEntry
  freed : Option ℕ
  deriving DecidableEq

/-- What the items change: the page tables, the dynamic area, and the record. -/
structure PageState where
  t : Tables
  area : VmArea
  undone : List Undone

/-- A page on its way out: its entry in the window, its address, and the entry it had. -/
structure Pend where
  pentry : ℕ × ℕ
  vma : ℕ
  was : PageEntry
  deriving DecidableEq

/-- A page between `unmapPage1` and the `ulock` section of `unmapPageRegion`. -/
structure Leaving extends Pend where
  size : ℕ
  alloc : Bool
  deriving DecidableEq

/-- The address space, the pages that are leaving, and a record of what each item was posted for. -/
structure Mappings extends PageState where
  d : InvData
  leaving : List Leaving
  was : ℕ → PageEntry

/-- What `runInvalidation` does to an item whose count has reached zero. -/
def PageState.finish (r : PageState) (it : PageInvalidation) : PageState :=
  let (pma, t) := unmap2 r.t it.pentry
  { t
    area := r.area.putVmRange t it.vma it.size
    undone := { item := it, found := r.t it.pentry.1 it.pentry.2
                freed := if it.alloc && hasFrame pma then some pma.toNat else none } :: r.undone }

namespace Mappings

inductive Action
  /-- `getVmRange<N>(addr,size)` -/
  | get (N addr size : ℕ)
  /-- an iteration of `mapPageRegion`, with the frame manager found at that time -/
  | map (N vma : ℕ) (present : Bool) (pma type : PageEntry) (fm : FrameManager)
  /-- `unmapPage1<N,true>` -/
  | unmapPage1 (N vma : ℕ) (alloc : Bool)
  /-- the rest of the iteration of `unmapPageRegion` for the `i`-th page that is leaving -/
  | post (i : ℕ)
  /-- an iteration of `unmapPageRegion<N,alloc,true>` -/
  | unmapDirect (N vma : ℕ)
  | fault (vma : ℕ) (fm : FrameManager)
  /-- cores enter and leave the address space -/
  | cores (n : ℕ)
  /-- `runInvalidation` from the node `pi` on -/
  | invalidate (pi : ℕ)

/-- The `ulock` section: the item is posted, or the entry is cleared at once. -/
def postPage (s : Mappings) (p : Leaving) : Mappings :=
  if s.d.activeCores > 1 then { s with
    d := s.d.post p.pentry p.vma p.size p.alloc
    leaving := s.leaving.erase p
    was := update s.was s.d.back p.was }
  else { s with t := (unmap2 s.t p.pentry).2, leaving := s.leaving.erase p }

/-- What an action does. -/
def act (s : Mappings) : Action → Except Fault Mappings
  | .get N addr size => (s.area.getVmRange N addr size).map fun (_, _, area) => { s with area }
  | .map N vma present pma type fm =>
    match Paging.map N present s.t vma pma type fm with
    | .error e => .error e
    | .ok (false, _, _) => .error .kassert
    | .ok (true, t, _) => .ok { s with t }
  | .unmapPage1 N vma alloc =>
    match unmap1 N true s.t vma with
    | .error e => .error e
    | .ok (none, t) => .ok { s with t }
    | .ok (some pe, t) => .ok { s with
        t
        leaving :=
          { pentry := pe, vma, was := s.t pe.1 pe.2, size := pagesize N, alloc } :: s.leaving }
  | .post i =>
    match s.leaving[i]? with
    | none => .error .kassert
    | some p => .ok (s.postPage p)
  | .unmapDirect N vma => (Paging.unmap N s.t vma).map fun (_, t) => { s with t }
  | .fault vma fm => (Paging.fault s.t vma fm).map fun (_, t, _) => { s with t }
  | .cores n => .ok { s with d := { s.d with activeCores := n } }
  | .invalidate pi =>
    (s.d.runInvalidation PageState.finish s.toPageState pi).map fun (d, r) =>
      { s with toPageState := r, d }

/-- A step is an action that returns. -/
def step (s : Mappings) (a : Action) : Option Mappings := (s.act a).toOption

/-- What callers respect: page levels exist, flags are flags, present pages are mapped to frames. -/
def Allowed : Action → Prop
  | .map N _ present pma type _ => (1 ≤ N ∧ N < pagelevels) ∧ Vm.isFlags type ∧
      (present = true → Vm.isFrame pma) ∧ (present = false → pma = lazyPage ∨ pma = guardPage)
  | .unmapPage1 N _ _ | .unmapDirect N _ => 1 ≤ N ∧ N < pagelevels
  | .fault _ fm => Vm.goodFrames fm
  | _ => True

/-- The page of an item. -/
def pendOf (was : ℕ → PageEntry) (it : PageInvalidation) : Pend := ⟨it.pentry, it.vma, was it.id⟩

/-- The pages on their way out. -/
def pending (s : Mappings) : List Pend := s.leaving.map (·.toPend) ++ s.d.posted.map (pendOf s.was)

end Mappings

/-! ## Pages on their way out -/

namespace Pend

variable {t t' : Tables} {N c M : ℕ} {e e' : PageEntry} {p : Pend} {ps qs : List Pend}

/-- The page of level `N` at `c` and the page `p` share an address. -/
def covers (N c : ℕ) (p : Pend) : Prop :=
  index (max N p.pentry.1) c = index (max N p.pentry.1) p.vma

instance (N c : ℕ) (p : Pend) : Decidable (covers N c p) := inferInstanceAs (Decidable (_ = _))

/-- The entry of the page is the one it had, without the `P` bit. -/
structure Kept (t : Tables) (p : Pend) : Prop where
  level_pos : 1 ≤ p.pentry.1
  level_le : p.pentry.1 ≤ pagelevels
  index : p.pentry.2 = index p.pentry.1 p.vma
  entry : walk t pagelevels p.vma = (p.pentry.1, p.was &&& ~~~P)
  frame : Vm.isFrame p.was.addr

/-- Present entries have frames, the pages on their way out are kept, and no two of them are one. -/
structure Sound (t : Tables) (ps : List Pend) : Prop where
  frames : ∀ x, (walk t pagelevels x).2.present = true → Vm.isFrame (walk t pagelevels x).2.addr
  kept : ∀ p ∈ ps, Kept t p
  distinct : (ps.map (·.pentry)).Nodup

theorem Sound.perm (h : Sound t ps) (hp : ps.Perm qs) : Sound t qs :=
  ⟨h.frames, fun p hq => h.kept p (hp.mem_iff.mpr hq), (hp.map _).nodup_iff.mp h.distinct⟩

/-- An entry with another content is another entry. -/
theorem Kept.ne_of_entry (h : Kept t p) (hw : walk t pagelevels c = (M, e))
    (hne : p.was &&& ~~~P ≠ e) : p.pentry ≠ (M, Paging.index M c) := by
  intro heq
  have hM : p.pentry.1 = M := by rw [heq]
  have hidx : Paging.index M p.vma = Paging.index M c := by
    rw [← hM, ← h.index, heq]
  have hsame := walk_congr (hM ▸ congrArg Prod.fst h.entry) (hM ▸ h.level_pos) hidx
  rw [h.entry, hw] at hsame
  exact hne (Prod.mk.inj hsame).2.symm

/-- Another entry is replaced. -/
theorem Kept.setPE (h : Kept t p) (hw : walk t pagelevels c = (M, e)) (he : isTable M e' = false)
    (hne : p.pentry ≠ (M, Paging.index M c)) : Kept (setPE t (M, Paging.index M c) e') p := by
  have h1 : 1 ≤ M := by
    have := one_le_walk t (show 1 ≤ pagelevels by decide) c
    rwa [hw] at this
  refine { h with entry := ?_ }
  rw [walk_setPE hw (by decide) he, if_neg, h.entry]
  intro hidx
  have hsame := walk_congr (show (walk t pagelevels c).1 = M by rw [hw]) h1 hidx.symm
  rw [h.entry, hw] at hsame
  obtain ⟨hM, -⟩ := Prod.mk.inj hsame
  exact hne (Prod.ext hM (h.index.trans (by rw [hM, hidx])))

theorem Sound.setPE (h : Sound t ps) (hw : walk t pagelevels c = (M, e)) (he : isTable M e' = false)
    (hframe : e'.present = true → Vm.isFrame e'.addr)
    (hne : ∀ p ∈ ps, p.pentry ≠ (M, Paging.index M c)) :
    Sound (setPE t (M, Paging.index M c) e') ps := by
  refine ⟨fun x hp => ?_, fun p hp => (h.kept p hp).setPE hw he (hne p hp), h.distinct⟩
  rw [walk_setPE hw (by decide) he] at hp ⊢
  split at hp
  · rename_i heq
    rw [if_pos heq]
    exact hframe hp
  · rename_i heq
    rw [if_neg heq]
    exact h.frames x hp

/-- **The last step of a page**: its entry is cleared. -/
theorem Sound.clear (h : Sound t (p :: ps)) : Sound (Paging.setPE t p.pentry 0) ps := by
  have hp := h.kept p List.mem_cons_self
  have hdist := List.nodup_cons.mp h.distinct
  have hpe : p.pentry = (p.pentry.1, Paging.index p.pentry.1 p.vma) := Prod.ext rfl hp.index
  have htail : Sound t ps := ⟨h.frames, fun q hq => h.kept q (List.mem_cons_of_mem _ hq), hdist.2⟩
  rw [hpe]
  refine htail.setPE hp.entry (isTable_zero _) (fun hpres => ?_) fun q hq heq => ?_
  · exact absurd hpres (show ¬ (0 : PageEntry).present = true by decide)
  · exact hdist.1 (List.mem_map.mpr ⟨q, hq, heq.trans hpe.symm⟩)

/-- **`map` keeps the pages it does not cover.** -/
theorem Kept.map (h : Kept t p) (hN : 1 ≤ N) (hm : Mapped N e t t' c) (hcov : ¬ covers N c p) :
    Kept t' p := by
  have hne : Paging.index N p.vma ≠ Paging.index N c := fun heq =>
    hcov (index_mono hN (le_max_left _ _) heq.symm)
  refine { h with entry := ?_ }
  rcases hm.same_or_empty p.vma hne with hsame | ⟨hidx, -⟩
  · rw [hsame, h.entry]
  · -- the walk to `c` stops at the page's own entry
    have hlev := one_le_walk t (show 1 ≤ pagelevels by decide) c
    have hsame := walk_congr rfl hlev hidx.symm
    have hK : (walk t pagelevels c).1 = p.pentry.1 := by rw [← hsame, h.entry]
    rw [hK] at hidx
    exact absurd (index_mono h.level_pos (le_max_right _ _) hidx.symm) hcov

/-- A page that `map` covers is lost. -/
theorem Kept.not_map (h : Kept t p) (hm : Mapped N e t t' c) (hcov : covers N c p)
    (hne : p.was &&& ~~~P ≠ e) : ¬ Kept t' p := by
  intro h'
  have hc := hm.page c rfl
  rcases le_total N p.pentry.1 with hle | hle
  · rw [covers, max_eq_right hle] at hcov
    have hsame := walk_congr (congrArg Prod.fst h'.entry) h.level_pos hcov.symm
    rw [hc, h'.entry] at hsame
    exact hne (Prod.mk.inj hsame).2.symm
  · rw [covers, max_eq_left hle] at hcov
    have hsame := hm.page p.vma hcov.symm
    rw [h'.entry] at hsame
    exact hne (Prod.mk.inj hsame).2

variable {present : Bool} {pma type : PageEntry}

theorem leaf_ne {was : PageEntry} (hpma : pma &&& ~~~ADDR = 0) (htype : Vm.isFlags type)
    (hframe : Vm.isFrame was.addr) (hres : present = false → pma = lazyPage ∨ pma = guardPage) :
    was &&& ~~~P ≠ leaf N present pma type := by
  intro heq
  cases hp : present
  · have haddr : was.addr = pma := by
      rw [← addr_clearP was, heq, hp]
      exact addr_leaf hpma htype
    exact (hres hp).elim (fun hl => hframe.1 (haddr.trans hl)) fun hg => hframe.2 (haddr.trans hg)
  · have hpres : (was &&& ~~~P).present = true := by
      rw [heq, present_leaf hpma htype, hp]
    rw [present_clearP] at hpres
    cases hpres

variable {fm fm' : FrameManager}

/-- **A mapping call keeps the entry of a page on its way out exactly if it does not cover the
page.** -/
theorem map_keeps_iff (h : Kept t p) (ha : Mappings.Allowed (.map N c present pma type fm))
    (hmap : Paging.map N present t c pma type fm = .ok (true, t', fm')) :
    Kept t' p ↔ ¬ covers N c p := by
  obtain ⟨hN, htype, -, hres⟩ := ha
  obtain ⟨-, hpma, hm⟩ := map_spec hN.1 hN.2 hmap
  exact ⟨fun h' hcov => h.not_map hm hcov (leaf_ne hpma htype h.frame hres) h', h.map hN.1 hm⟩

theorem Sound.map (h : Sound t ps) (ha : Mappings.Allowed (.map N c present pma type fm))
    (hmap : Paging.map N present t c pma type fm = .ok (true, t', fm'))
    (hcov : ∀ p ∈ ps, ¬ covers N c p) : Sound t' ps := by
  refine ⟨fun x hp => ?_, fun p hp => (map_keeps_iff (h.kept p hp) ha hmap).mpr (hcov p hp),
    h.distinct⟩
  obtain ⟨hN, htype, hframe, -⟩ := ha
  obtain ⟨-, hpma, hm⟩ := map_spec hN.1 hN.2 hmap
  by_cases hx : Paging.index N x = Paging.index N c
  · rw [hm.page x hx, present_leaf hpma htype] at hp
    rw [hm.page x hx, addr_leaf hpma htype]
    exact hframe hp
  · rcases hm.same_or_empty x hx with hsame | ⟨-, hzero⟩
    · rw [hsame] at hp ⊢
      exact h.frames x hp
    · rw [hzero] at hp
      exact absurd hp (show ¬ (0 : PageEntry).present = true by decide)

/-- A page on its way out is not present and not reserved. -/
theorem Kept.not_present (h : Kept t p) (hw : walk t pagelevels c = (M, e))
    (he : e.present = true ∨ e.addr = lazyPage ∨ e.addr = guardPage) :
    p.pentry ≠ (M, Paging.index M c) := by
  refine h.ne_of_entry hw fun heq => ?_
  rcases he with hpres | haddr
  · rw [← heq, present_clearP] at hpres
    cases hpres
  · rw [← heq, addr_clearP] at haddr
    exact haddr.elim h.frame.1 h.frame.2

theorem absent_zero {a : PageEntry} (h : (0 : PageEntry).present = true) : Vm.isFrame a :=
  absurd h (by decide)

/-- **`unmapPage1`** adds a page, or clears a reserved one. -/
theorem Sound.unmap1 {r : Option (ℕ × ℕ)} (h : Sound t ps) (hN : 1 ≤ N ∧ N < pagelevels)
    (hun : Paging.unmap1 N true t c = .ok (r, t')) :
    match r with
    | none => Sound t' ps
    | some pe => Sound t' (⟨pe, c, t pe.1 pe.2⟩ :: ps) := by
  obtain ⟨-, e, hw, ⟨rfl, hpres, rfl⟩ | ⟨rfl, -, haddr, rfl⟩⟩ := unmap1_spec hN.1 hN.2 hun
  · obtain ⟨rfl, -⟩ := walk_entry (by decide) hw
    have hne : ∀ p ∈ ps, p.pentry ≠ (N, Paging.index N c) := fun p hp =>
      (h.kept p hp).not_present hw (Or.inl hpres)
    have hclear :=
      isTable_eq_false_of_not_present (N := N) (present_clearP (t N (Paging.index N c)))
    have hs := h.setPE hw hclear (fun hp => by rw [present_clearP] at hp; cases hp) hne
    refine ⟨hs.frames, fun p hp => ?_, ?_⟩
    · rcases List.mem_cons.mp hp with rfl | hp
      · refine ⟨hN.1, hN.2.le, rfl, ?_, ?_⟩
        · show walk (Paging.setPE t (N, Paging.index N c) _) pagelevels c = _
          rw [walk_setPE hw (by decide) hclear, if_pos rfl]
        · have := h.frames c (by rw [hw]; exact hpres)
          rwa [hw] at this
      · exact hs.kept p hp
    · refine List.nodup_cons.mpr ⟨fun hmem => ?_, h.distinct⟩
      obtain ⟨p, hp, heq⟩ := List.mem_map.mp hmem
      exact hne p hp heq
  · exact h.setPE hw (isTable_zero _) absent_zero fun p hp =>
      (h.kept p hp).not_present hw (Or.inr haddr)

theorem Sound.unmap (h : Sound t ps) (hN : 1 ≤ N ∧ N < pagelevels)
    (hun : Paging.unmap N t c = .ok (pma, t')) : Sound t' ps := by
  obtain ⟨e, hw, hpres, -, rfl⟩ := unmap_spec hN.1 hN.2 hun
  exact h.setPE hw (isTable_zero _) absent_zero fun p hp =>
    (h.kept p hp).not_present hw (Or.inl hpres)

theorem Sound.fault {b : Bool} (h : Sound t ps) (hfm : Vm.goodFrames fm)
    (hf : Paging.fault t c fm = .ok (b, t', fm')) : Sound t' ps := by
  rcases fault_spec hf with ⟨rfl, -⟩ | ⟨N, e, pma, hw, -, hpage, haddr, halloc, htop, rfl⟩
  · exact h
  · refine h.setPE hw (isTable_eq_false_of_isPage (isPage_faulted hpage)) (fun _ => ?_) fun p hp =>
      (h.kept p hp).not_present hw (Or.inr (Or.inl haddr))
    exact Vm.isFrame_faulted hfm halloc htop

end Pend

/-! ## Runs -/

namespace Mappings

variable {s s' : Mappings} {was : ℕ → PageEntry} {b : ℕ}

/-- The condition on the state before a step: no page on its way out is mapped over. -/
def Spares (s : Mappings) : Action → Prop
  | .map N vma _ _ _ _ => ∀ p ∈ s.pending, ¬ p.covers N vma
  | _ => True

/-- The item has undone what it was posted for: `unmap2` found the entry without its `P` bit, and
the frame of that entry was released. -/
def Right (was : ℕ → PageEntry) (u : Undone) : Prop :=
  u.found = was u.item.id &&& ~~~P ∧
    u.freed = if u.item.alloc then some (was u.item.id).addr.toNat else none

/-- **The invariant**: the pages on their way out are kept, and every finished item was right. -/
structure Inv (s : Mappings) : Prop where
  sound : Pend.Sound s.t s.pending
  old : ∀ it ∈ s.d.posted, it.id < s.d.back
  undone : ∀ u ∈ s.undone, u.item.id < s.d.back ∧ Right s.was u

theorem right_finish {r : PageState} {it : PageInvalidation} (h : Pend.Kept r.t (pendOf was it)) :
    ∃ u : Undone, (r.finish it).undone = u :: r.undone ∧ u.item = it ∧ Right was u := by
  have hentry : r.t it.pentry.1 it.pentry.2 = was it.id &&& ~~~P := by
    have := (walk_entry (by decide) h.entry).1
    rw [← h.index] at this
    exact this.symm
  have haddr : (r.t it.pentry.1 it.pentry.2).addr = (was it.id).addr := by rw [hentry, addr_clearP]
  have hframe : hasFrame (was it.id).addr = true := decide_eq_true h.frame
  refine ⟨_, rfl, rfl, hentry, ?_⟩
  simp only [haddr, hframe, Bool.and_true]

/-- **The loop of `runInvalidation`**: the items it finishes are right, the others stay pending. -/
theorem invalidateLoop_sound (its : List PageInvalidation) {its' : List PageInvalidation}
    {r r' : PageState} (hs : Pend.Sound r.t (its.map (pendOf was) ++ qs))
    (hold : (∀ it ∈ its, it.id < b)) (hun : (∀ u ∈ r.undone, u.item.id < b ∧ Right was u))
    (h : InvData.invalidateLoop PageState.finish its r = .ok (its', r')) :
    Pend.Sound r'.t (its'.map (pendOf was) ++ qs) ∧ (∀ it ∈ its', it.id < b) ∧
      ∀ u ∈ r'.undone, u.item.id < b ∧ Right was u := by
  induction its generalizing its' r r' qs with
  | nil =>
    cases h
    exact ⟨hs, hold, hun⟩
  | cons it its ih =>
    have hit := hold it List.mem_cons_self
    have hrest : ∀ it' ∈ its, it'.id < b := fun it' h' => hold it' (List.mem_cons_of_mem _ h')
    rw [InvData.invalidateLoop] at h
    split at h
    · cases h
    split at h
    · -- the item is finished
      have hkept : Pend.Kept r.t (pendOf was it.dec) := hs.kept _ List.mem_cons_self
      obtain ⟨u, hu, huit, hright⟩ := right_finish hkept
      refine ih (r := r.finish it.dec) (Pend.Sound.clear hs) hrest (fun u' hu' => ?_) h
      rw [hu] at hu'
      rcases List.mem_cons.mp hu' with rfl | hu'
      · exact ⟨by rw [huit]; exact hit, hright⟩
      · exact hun u' hu'
    · -- the item stays, while the loop goes on
      cases hloop : InvData.invalidateLoop PageState.finish its r with
      | error e =>
        rw [hloop] at h
        cases h
      | ok q =>
        rw [hloop] at h
        cases h
        have hmid : Pend.Sound r.t (its.map (pendOf was) ++ pendOf was it :: qs) :=
          hs.perm List.perm_middle.symm
        obtain ⟨hs', hold', hun'⟩ := ih hmid hrest hun hloop
        refine ⟨hs'.perm List.perm_middle, fun it' h' => ?_, hun'⟩
        rcases List.mem_cons.mp h' with rfl | h'
        · exact hit
        · exact hold' it' h'

theorem inv_invalidate {pi : ℕ} (hs : Inv s) (h : s.act (.invalidate pi) = .ok s') : Inv s' := by
  simp only [act] at h
  cases hrun : s.d.runInvalidation PageState.finish s.toPageState pi with
  | error e =>
    rw [hrun] at h
    cases h
  | ok q =>
    rw [hrun] at h
    cases h
    unfold InvData.runInvalidation at hrun
    split at hrun
    · -- the items before `pi` are not visited
      cases hloop : InvData.invalidateLoop PageState.finish (s.d.posted.dropWhile (·.id ≠ pi))
          s.toPageState with
      | error e =>
        rw [hloop] at hrun
        cases hrun
      | ok q' =>
        rw [hloop] at hrun
        cases hrun
        have hsplit :=
          List.takeWhile_append_dropWhile (p := fun it : PageInvalidation => it.id ≠ pi)
          (l := s.d.posted)
        have hold := hs.old
        have hsound := hs.sound
        rw [pending, ← hsplit, List.map_append] at hsound
        rw [← hsplit] at hold
        obtain ⟨h1, h2, h3⟩ := invalidateLoop_sound (b := s.d.back) _
          (hsound.perm (by rw [← List.append_assoc]; exact List.perm_append_comm))
          (fun it hit => hold it (List.mem_append_right _ hit)) hs.undone hloop
        refine ⟨?_, fun it hit => ?_, h3⟩
        · show Pend.Sound q'.2.t (s.leaving.map (·.toPend) ++
            (s.d.posted.takeWhile (·.id ≠ pi) ++ q'.1).map (pendOf s.was))
          rw [List.map_append, ← List.append_assoc]
          exact h1.perm List.perm_append_comm
        · rcases List.mem_append.mp hit with hit | hit
          · exact hold it (List.mem_append_left _ hit)
          · exact h2 it hit
    · cases hrun

/-- The page of an item that is there is not renamed by a new item. -/
theorem map_pendOf_update (hold : ∀ it ∈ s.d.posted, it.id < s.d.back) (e : PageEntry) :
    s.d.posted.map (pendOf (update s.was s.d.back e)) = s.d.posted.map (pendOf s.was) :=
  List.map_congr_left fun it hit => by
    rw [pendOf, pendOf, update_of_ne (hold it hit).ne]

theorem inv_postPage {p : Leaving} (hs : Inv s) (hp : p ∈ s.leaving) : Inv (s.postPage p) := by
  have hperm : s.pending.Perm
      (p.toPend :: ((s.leaving.erase p).map (·.toPend) ++ s.d.posted.map (pendOf s.was))) :=
    ((List.perm_cons_erase hp).map (·.toPend)).append_right _
  have hsound := hs.sound.perm hperm
  unfold postPage
  split
  · rename_i hcores
    have hpost : s.d.post p.pentry p.vma p.size p.alloc = { s.d with
        posted := s.d.posted ++ [⟨s.d.back, p.pentry, p.vma, p.size, s.d.activeCores, p.alloc⟩]
        back := s.d.back + 1 } := if_pos hcores
    rw [hpost]
    refine ⟨?_, fun it hit => ?_, fun u hu => ?_⟩
    · refine hsound.perm ?_
      rw [pending, List.map_append, map_pendOf_update hs.old]
      have hnew : pendOf (update s.was s.d.back p.was)
          ⟨s.d.back, p.pentry, p.vma, p.size, s.d.activeCores, p.alloc⟩ = p.toPend := by
        rw [pendOf, update_self]
      rw [List.map_singleton, hnew, ← List.append_assoc]
      exact (List.perm_append_singleton _ _).symm
    · rcases List.mem_append.mp hit with hit | hit
      · exact (hs.old it hit).trans (Nat.lt_succ_self _)
      · rw [List.mem_singleton.mp hit]
        exact Nat.lt_succ_self _
    · obtain ⟨hlt, hright⟩ := hs.undone u hu
      refine ⟨hlt.trans (Nat.lt_succ_self _), ?_⟩
      show Right (update s.was s.d.back p.was) u
      rwa [Right, update_of_ne hlt.ne]
  · exact ⟨hsound.clear, hs.old, hs.undone⟩

/-- A step that changes the tables only. -/
theorem Inv.tables {t : Tables} (hs : Inv s) (h : Pend.Sound t s.pending) : Inv { s with t } :=
  ⟨h, hs.old, hs.undone⟩

variable {a : Action}

/-- **One step that meets the condition keeps the invariant.** -/
theorem inv_step (hs : Inv s) (ha : Allowed a ∧ s.Spares a) (h : s.step a = some s') : Inv s' := by
  have h := Fault.toOption_eq_some h
  obtain ⟨hallow, hspare⟩ := ha
  cases a with
  | get N addr size =>
    obtain ⟨r, -, rfl⟩ := Fault.map_eq_ok h
    exact { hs with }
  | map N vma present pma type fm =>
    simp only [act] at h
    split at h
    · cases h
    · cases h
    · rename_i hmap
      cases h
      exact hs.tables (hs.sound.map hallow hmap hspare)
  | unmapPage1 N vma alloc =>
    simp only [act] at h
    split at h
    · cases h
    · rename_i hun
      cases h
      exact hs.tables (hs.sound.unmap1 hallow hun)
    · rename_i pe t hun
      cases h
      exact ⟨hs.sound.unmap1 hallow hun, hs.old, hs.undone⟩
  | post i =>
    simp only [act] at h
    split at h
    · cases h
    rename_i p hp
    cases h
    exact inv_postPage hs (List.mem_of_getElem? hp)
  | unmapDirect N vma =>
    obtain ⟨⟨pma, t⟩, hun, rfl⟩ := Fault.map_eq_ok h
    exact hs.tables (hs.sound.unmap hallow hun)
  | fault vma fm =>
    obtain ⟨⟨b, t, fm'⟩, hf, rfl⟩ := Fault.map_eq_ok h
    exact hs.tables (hs.sound.fault hallow hf)
  | cores n =>
    cases h
    exact { hs with }
  | invalidate pi => exact inv_invalidate hs h

/-- An address space in which nothing is on its way out. -/
structure Fresh (s : Mappings) : Prop where
  frames : ∀ x, (walk s.t pagelevels x).2.present = true → Vm.isFrame (walk s.t pagelevels x).2.addr
  leaving : s.leaving = []
  posted : s.d.posted = []
  undone : s.undone = []

theorem Fresh.inv (h : Fresh s) : Inv s := by
  refine ⟨⟨h.frames, ?_, ?_⟩, ?_, ?_⟩
  · simp [pending, h.leaving, h.posted]
  · simp [pending, h.leaving, h.posted]
  · simp [h.posted]
  · simp [h.undone]

/-- **An item finds the page it was posted for**, in every run in which no mapping covers a page on
its way out: while the item is in the list, the page keeps its entry, and when the item is finished,
that entry is cleared and its frame released.  A mapping call that returns leaves the entry alone
exactly if it does not cover the page. -/
theorem pending_page_kept {s₀ : Mappings} (h₀ : Fresh s₀) {as : List Action}
    (hrun : run step s₀ as = some s) (hg : Guarded step (fun s a => Allowed a ∧ s.Spares a) s₀ as) :
    (∀ it ∈ s.d.posted, walk s.t pagelevels it.vma = (it.pentry.1, s.was it.id &&& ~~~P) ∧
      s.t it.pentry.1 it.pentry.2 = s.was it.id &&& ~~~P) ∧
    (∀ u ∈ s.undone, Right s.was u) ∧
    ∀ N vma present pma type fm s', Allowed (.map N vma present pma type fm) →
      s.act (.map N vma present pma type fm) = .ok s' → ∀ it ∈ s.d.posted,
      (walk s'.t pagelevels it.vma = (it.pentry.1, s.was it.id &&& ~~~P) ↔
        ¬ (pendOf s.was it).covers N vma) := by
  have hs : Inv s := invariant_of_guarded inv_step h₀.inv hg hrun
  have hkept : ∀ it ∈ s.d.posted, Pend.Kept s.t (pendOf s.was it) := fun it hit =>
    hs.sound.kept _ (List.mem_append_right _ (List.mem_map_of_mem hit))
  refine ⟨fun it hit => ⟨(hkept it hit).entry, ?_⟩, fun u hu => (hs.undone u hu).2, ?_⟩
  · have hentry := (walk_entry (by decide) (hkept it hit).entry).1
    rw [← (hkept it hit).index] at hentry
    exact hentry.symm
  · intro N vma present pma type fm s' ha hact it hit
    simp only [act] at hact
    split at hact
    · cases hact
    · cases hact
    · rename_i t' fm' hmap
      cases hact
      have h := hkept it hit
      rw [← Pend.map_keeps_iff h ha hmap]
      exact ⟨fun hw => { h with entry := hw }, fun h' => h'.entry⟩

/-- A process on two cores. -/
def onTwoCores : Mappings :=
  { t := Vm.userSpace.t, area := Vm.userSpace.area, undone := [], d := ⟨2, [], 0⟩, leaving := []
    was := fun _ => 0 }

theorem fresh_onTwoCores : Fresh onTwoCores := by
  refine ⟨fun x hp => ?_, rfl, rfl, rfl⟩
  rw [show onTwoCores.t = Vm.userSpace.t from rfl, Vm.walk_userSpace] at hp
  exact Pend.absent_zero hp

instance (s : Mappings) : ∀ a, Decidable (s.Spares a)
  | .map N vma _ _ _ _ =>
    inferInstanceAs (Decidable (∀ p ∈ s.pending,
      index (max N p.pentry.1) vma ≠ index (max N p.pentry.1) p.vma))
  | .get _ _ _ | .unmapPage1 _ _ _ | .post _ | .unmapDirect _ _ | .fault _ _ | .cores _
  | .invalidate _ => inferInstanceAs (Decidable True)

/-- A page is mapped and unmapped, the page below it is mapped, and both cores see the item. -/
def apart : List Action :=
  [.map 1 (2 ^ 47 - 4096) true 0x5000 data Vm.noFrames, .unmapPage1 1 (2 ^ 47 - 4096) true, .post 0,
    .map 1 (2 ^ 47 - 8192) true 0x7000 data Vm.noFrames, .invalidate 0, .invalidate 0]

theorem pending_page_kept_apart : ∃ s, run step onTwoCores apart = some s ∧ s.undone.length = 1 ∧
    ∀ u ∈ s.undone, Right s.was u := by
  have hallowed : ∀ a ∈ apart, Allowed a := by
    simp only [apart, List.forall_mem_cons, Allowed, Vm.isFlags, Vm.isFrame]
    simp +decide
  have hspares : Guarded step Spares onTwoCores apart := guarded_of_decide (by decide +kernel)
  exact exists_run_and (by decide +kernel) fun s hrun _ =>
    (pending_page_kept fresh_onTwoCores hrun
      ((guarded_of_forall fun a ha _ => hallowed a ha).and hspares)).2.1

/-- The same, with the second mapping at the address of the first. -/
def onTop : List Action :=
  [.map 1 (2 ^ 47 - 4096) true 0x5000 data Vm.noFrames, .unmapPage1 1 (2 ^ 47 - 4096) true, .post 0,
    .map 1 (2 ^ 47 - 4096) true 0x7000 data Vm.noFrames, .invalidate 0, .invalidate 0]

/-- **A page on its way out is mapped over**: the item was posted for a page with the frame
`0x5000`; when it is finished, it clears the new mapping and releases the frame `0x7000`. -/
theorem mapped_over : Fresh onTwoCores ∧ Guarded step (fun _ a => Allowed a) onTwoCores onTop ∧
    ∃ s, run step onTwoCores onTop = some s ∧ (s.was 0).addr = 0x5000 ∧
      walk s.t pagelevels (2 ^ 47 - 4096) = (1, 0) ∧
      s.undone.map (fun u => (u.item.id, u.found.addr, u.freed)) = [(0, 0x7000, some 0x7000)] := by
  have hallowed : ∀ a ∈ onTop, Allowed a := by
    simp only [onTop, List.forall_mem_cons, Allowed, Vm.isFlags, Vm.isFrame]
    simp +decide
  exact ⟨fresh_onTwoCores, guarded_of_forall fun a ha _ => hallowed a ha,
    exists_run (by decide +kernel)⟩

end Mappings

end Kos
