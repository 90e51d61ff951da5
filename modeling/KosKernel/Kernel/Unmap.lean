import KosKernel.Kernel.AddressSpace
import Mathlib.Data.Nat.ModEq

/-!
# Kernel/Unmap — what unmapping gives back

`unmap` and `releaseStack`, followed by the invalidations of every core inside.  The items that are
in the list are finished in an order that depends on the cores; finishing them touches pairwise
different entries and frames, so the result does not depend on it.
-/

namespace Kos

open Runs Paging PageEntry AddressSpace FrameManager

variable {m m' : Space} {t t' : Tables} {N vma n : ℕ}

/-! ## Frames and entries of an item -/

/-- The frames of the page of size `size` at the address `a`. -/
def inPageAt (size a f : ℕ) : Prop := f * sps / size = a / size

namespace PageInvalidation

/-- The address that finishing the item passes to `releaseFrames`, if any. -/
def gives (t : Tables) (it : PageInvalidation) : List ℕ :=
  if it.alloc &&
    hasFrame (t it.pentry.1 it.pentry.2).addr then [(t it.pentry.1 it.pentry.2).addr.toNat]
  else []

/-- Frame `f` is released when the item is finished. -/
def frees (t : Tables) (it : PageInvalidation) (f : ℕ) : Prop :=
  ∃ a ∈ it.gives t, inPageAt it.size a f

end PageInvalidation

/-- The items can be finished in any order: their entries differ, and the frames behind them are
handed out and differ too. -/
structure Ready (fm : FrameManager) (t : Tables) (its : List PageInvalidation) : Prop where
  entries : its.Pairwise fun it it' => it.pentry ≠ it'.pentry
  size : ∀ it ∈ its, it.size = pagesize 1 ∨ it.size = pagesize 2
  aligned : ∀ it ∈ its, ∀ a ∈ it.gives t, a % it.size = 0
  out : ∀ it ∈ its, ∀ f, it.frees t f → ¬ fm.free f ∧ f / pagetableentries < fm.bitcount
  frames : its.Pairwise fun it it' => ∀ f, it.frees t f → ¬ it'.frees t f

variable {fm : FrameManager}

/-- **`releaseFrames` of a page of level 1 or 2** frees exactly its frames. -/
theorem releaseFrames_spec {a size : ℕ} (hinv : Inv fm) (hlp : fm.lplock = false)
    (hsize : size = pagesize 1 ∨ size = pagesize 2) (ha : a % size = 0)
    (hout : ∀ f, inPageAt size a f → ¬ fm.free f ∧ f / pagetableentries < fm.bitcount) :
    ∃ fm', fm.releaseFrames a size = .ok fm' ∧ Released fm fm' (inPageAt size a) := by
  rcases hsize with rfl | rfl
  · have hpage : ∀ f, inPageAt (pagesize 1) a f ↔ f = a / sps := fun f => by
      rw [inPageAt, show pagesize 1 = sps from rfl, Nat.mul_div_cancel _ sps_pos]
    obtain ⟨hfree, hin⟩ := hout _ ((hpage _).mpr rfl)
    obtain ⟨fm', hfm'⟩ := releaseFrame1_returns ha hinv.unlocked hlp
    refine ⟨fm', by rwa [releaseFrames, if_pos (by decide)], ?_⟩
    rw [show inPageAt (pagesize 1) a = (· = a / sps) from funext fun f => propext (hpage f)]
    exact releaseFrame1_spec hinv (div_dps a ▸ hin) hfree hfm'
  · have hpage : ∀ f, inPageAt (pagesize 2) a f ↔ f / pagetableentries = a / dps := fun f => by
      rw [inPageAt, show pagesize 2 = dps from rfl, div_dps, Nat.mul_div_cancel _ sps_pos]
    obtain ⟨-, hin⟩ := hout (a / sps) ((hpage _).mpr (div_dps a).symm)
    obtain ⟨fm', hfm'⟩ := releaseFrame2_returns ha hlp
    refine ⟨fm', by rwa [releaseFrames, if_neg (by decide)], ?_⟩
    rw [show inPageAt (pagesize 2) a = (· / pagetableentries = a / dps) from
      funext fun f => propext (hpage f)]
    exact releaseFrame2_spec hinv (div_dps a ▸ hin) (fun f hf => (hout f ((hpage f).mpr hf)).1) hfm'

/-- **What finishing a list of items does.** -/
structure Finished (m m' : Space) (its : List PageInvalidation) : Prop where
  inv : Inv m'.fm
  lplock : m'.fm.lplock = false
  bitcount : m'.fm.bitcount = m.fm.bitcount
  free : ∀ f, m'.fm.free f ↔ m.fm.free f ∨ ∃ it ∈ its, it.frees m.t f
  entry : ∀ i j, m'.t i j = if (i, j) ∈ its.map (·.pentry) then 0 else m.t i j
  released : m'.released = m.released ++ its.flatMap (·.gives m.t)

variable {it : PageInvalidation} {its : List PageInvalidation}

theorem finishItem_spec (hinv : Inv m.fm) (hlp : m.fm.lplock = false)
    (h : Ready m.fm m.t (it :: its)) : ∃ m', finishItem m it = .ok m' ∧ Finished m m' [it] := by
  have hentry : ∀ i j, setPE m.t it.pentry 0 i j = if (i, j) ∈ [it].map (·.pentry) then 0
      else m.t i j :=
    fun i j => by simp [setPE]
  by_cases hgive : (it.alloc && hasFrame (m.t it.pentry.1 it.pentry.2).addr) = true
  · have hgives : it.gives m.t = [(m.t it.pentry.1 it.pentry.2).addr.toNat] := if_pos hgive
    have hfrees : ∀ f, it.frees m.t f ↔
        inPageAt it.size (m.t it.pentry.1 it.pentry.2).addr.toNat f :=
      fun f => by simp [PageInvalidation.frees, hgives]
    obtain ⟨fm', hfm', hrel⟩ := releaseFrames_spec hinv hlp (h.size it List.mem_cons_self)
      (h.aligned it List.mem_cons_self _ (by simp [hgives]))
      fun f hf => h.out it List.mem_cons_self f ((hfrees f).mpr hf)
    have hcall : finishItem m it = .ok ⟨setPE m.t it.pentry 0,
        m.area.putVmRange (setPE m.t it.pentry 0) it.vma it.size, fm',
        m.released ++ [(m.t it.pentry.1 it.pentry.2).addr.toNat]⟩ := by
      simp only [finishItem, unmap2, hgive, if_true, hfm', Except.map]
    refine ⟨_, hcall, hrel.inv, hrel.lplock.trans hlp, hrel.bitcount, fun f => ?_, hentry, ?_⟩
    · simp [hrel.free, hfrees]
    · simp [hgives]
  · have hgives : it.gives m.t = [] := if_neg hgive
    have hcall : finishItem m it = .ok { m with
        t := setPE m.t it.pentry 0
        area := m.area.putVmRange (setPE m.t it.pentry 0) it.vma it.size } := by
      simp only [finishItem, unmap2, hgive, Bool.false_eq_true, if_false]
    refine ⟨_, hcall, hinv, hlp, rfl, fun f => ?_, hentry, ?_⟩
    · simp [PageInvalidation.frees, hgives]
    · simp [hgives]

theorem PageInvalidation.frees_congr (h : it.gives t' = it.gives t) (f : ℕ) :
    it.frees t' f ↔ it.frees t f := by
  rw [PageInvalidation.frees, PageInvalidation.frees, h]

/-- `Ready` depends on the tables only through the addresses that are given back. -/
theorem Ready.congr (h : Ready fm t its) (hgives : ∀ it ∈ its, it.gives t' = it.gives t) :
    Ready fm t' its := by
  have hfrees := fun it hit => PageInvalidation.frees_congr (hgives it hit)
  refine ⟨h.entries, h.size, fun it hit a ha => h.aligned it hit a (hgives it hit ▸ ha),
    fun it hit f hf => h.out it hit f ((hfrees it hit f).mp hf), ?_⟩
  refine h.frames.imp_of_mem fun {a b} ha hb hab f hf => ?_
  rw [hfrees b hb]
  exact hab f ((hfrees a ha f).mp hf)

/-- What finishing an item leaves of the others. -/
theorem Ready.tail {m m' : Space} (h : Ready m.fm m.t (it :: its)) (hfin : Finished m m' [it]) :
    Ready m'.fm m'.t its ∧ ∀ it' ∈ its, it'.gives m'.t = it'.gives m.t := by
  have hgives : ∀ it' ∈ its, it'.gives m'.t = it'.gives m.t := fun it' hit' => by
    have hne : it'.pentry ≠ it.pentry := ((List.pairwise_cons.mp h.entries).1 it' hit').symm
    have hsame : m'.t it'.pentry.1 it'.pentry.2 = m.t it'.pentry.1 it'.pentry.2 := by
      rw [hfin.entry, if_neg (by simpa using hne)]
    rw [PageInvalidation.gives, PageInvalidation.gives, hsame]
  have htail : Ready m'.fm m.t its := by
    refine ⟨(List.pairwise_cons.mp h.entries).2,
      fun it' hit' => h.size it' (List.mem_cons_of_mem _ hit'),
      fun it' hit' => h.aligned it' (List.mem_cons_of_mem _ hit'), fun it' hit' f hf => ?_,
      (List.pairwise_cons.mp h.frames).2⟩
    obtain ⟨hfree, hin⟩ := h.out it' (List.mem_cons_of_mem _ hit') f hf
    refine ⟨?_, hfin.bitcount ▸ hin⟩
    rw [hfin.free]
    rintro (hf' | ⟨it'', hit'', hf'⟩)
    · exact hfree hf'
    · rw [List.mem_singleton.mp hit''] at hf'
      exact (List.pairwise_cons.mp h.frames).1 it' hit' f hf' hf
  exact ⟨htail.congr hgives, hgives⟩

/-- **Finishing a list of items that are ready.** -/
theorem foldl_complete (its : List PageInvalidation) : ∀ {m : Space}, Inv m.fm →
      m.fm.lplock = false → Ready m.fm m.t its → ∃ m', its.foldl complete (.ok m) = .ok m' ∧
      Finished m m' its := by
  induction its with
  | nil => exact fun {m} hinv hlp _ => ⟨m, rfl, hinv, hlp, rfl, by simp, by simp, by simp⟩
  | cons it its ih =>
    intro m hinv hlp h
    obtain ⟨m₁, hcall, hfin⟩ := finishItem_spec hinv hlp h
    obtain ⟨hready, hgives⟩ := h.tail hfin
    obtain ⟨m', hrun, hfin'⟩ := ih hfin.inv hfin.lplock hready
    have hflat : its.flatMap (·.gives m₁.t) = its.flatMap (·.gives m.t) := List.flatMap_congr hgives
    refine ⟨m', ?_, hfin'.inv, hfin'.lplock, hfin'.bitcount.trans hfin.bitcount, fun f => ?_,
      fun i j => ?_, ?_⟩
    · rw [List.foldl_cons, complete, hcall]
      exact hrun
    · have hfrees : (∃ it' ∈ its, it'.frees m₁.t f) ↔ ∃ it' ∈ its, it'.frees m.t f :=
        exists_congr fun it' => and_congr_right fun hit' =>
          PageInvalidation.frees_congr (hgives it' hit') f
      rw [hfin'.free, hfin.free, hfrees, or_assoc]
      simp
    · rw [hfin'.entry, hfin.entry]
      by_cases hi : (i, j) ∈ its.map (·.pentry)
      · simp [hi]
      · by_cases he : (i, j) = it.pentry
        · simp [he]
        · simp [hi, he]
    · rw [hfin'.released, hfin.released, hflat]
      simp

theorem Ready.sublist {its' : List PageInvalidation} (h : Ready fm t its) (hs : its'.Sublist its) :
    Ready fm t its' :=
  ⟨h.entries.sublist hs, fun it hit => h.size it (hs.subset hit),
    fun it hit => h.aligned it (hs.subset hit), fun it hit => h.out it (hs.subset hit),
    h.frames.sublist hs⟩

theorem Ready.perm {its' : List PageInvalidation} (h : Ready fm t its) (hp : its.Perm its') :
    Ready fm t its' :=
  ⟨(hp.pairwise_iff fun hab => hab.symm).mp h.entries, fun it hit => h.size it (hp.mem_iff.mpr hit),
    fun it hit => h.aligned it (hp.mem_iff.mpr hit), fun it hit => h.out it (hp.mem_iff.mpr hit),
    (hp.pairwise_iff fun hab f hb ha => hab f ha hb).mp h.frames⟩

/-! ## The loop over the pages -/

/-- The page of level `N` at `v` is mapped: present, or reserved for `fault` or as a guard. -/
structure PageMapped (N : ℕ) (t : Tables) (v : ℕ) : Prop where
  aligned : v % pagesize N = 0
  window : inWindow t N v = true
  page : isPage N (t N (index N v)) = true
  status : (t N (index N v)).present = true ∨ (t N (index N v)).addr = lazyPage ∨
    (t N (index N v)).addr = guardPage

/-- The pages of a region. -/
def pagesFrom (N : ℕ) : ℕ → ℕ → List ℕ
  | 0, _ => []
  | n + 1, v => v :: pagesFrom N n (v + pagesize N)

/-- The page entry of a page. -/
def entryOf (N v : ℕ) : ℕ × ℕ := (N, index N v)

/-- An item without its place in the list and its count. -/
def PageInvalidation.strip (it : PageInvalidation) : PageInvalidation :=
  { it with id := 0, count := 0 }

/-- The item that is posted for a page. -/
def itemOf (N v : ℕ) : PageInvalidation :=
  { id := 0, pentry := entryOf N v, vma := v, size := pagesize N, count := 0, alloc := true }

/-- The items for the pages of a region that are present. -/
def itemsOf (N : ℕ) (t : Tables) (vs : List ℕ) : List PageInvalidation :=
  (vs.filter fun v => (t N (index N v)).present).map (itemOf N)

/-- What `unmapPageRegion` leaves of a page entry: with other cores active, a present page keeps its
address until its item is finished. -/
def leftOf (cores : ℕ) (e : PageEntry) : PageEntry :=
  if 1 < cores ∧ e.present = true then e &&& ~~~P else 0

theorem setPE_setPE (t : Tables) (pe : ℕ × ℕ) (e e' : PageEntry) :
    setPE (setPE t pe e) pe e' = setPE t pe e' := by
  funext i j
  by_cases h : (i, j) = pe
  · simp [setPE, h]
  · simp [setPE, h]

variable {d : InvData} {v : ℕ}

/-- One page: its entry is left as `leftOf` says, and an item is posted if it was present and other
cores are active. -/
theorem unmapPage_spec (h : PageMapped N m.t v) : unmapPage N true false d m v = .ok
      (if 1 < d.activeCores ∧ (m.t N (index N v)).present = true
        then d.post (entryOf N v) v (pagesize N) true else d,
      { m with t := setPE m.t (entryOf N v) (leftOf d.activeCores (m.t N (index N v))) }) := by
  have hal := aligned_pagesize.mpr h.aligned
  have hunmap1 : unmap1 N true m.t v = .ok (if (m.t N (index N v)).present then
      (some (entryOf N v), setPE m.t (entryOf N v) (m.t N (index N v) &&& ~~~P))
      else (none, setPE m.t (entryOf N v) 0)) := by
    by_cases hp : (m.t N (index N v)).present = true
    · simp [unmap1, hal, h.window, h.page, hp, entryOf]
    · simp [unmap1, hal, h.window, h.page, hp, h.status.resolve_left hp, entryOf]
  rw [unmapPage, if_neg (by simp), hunmap1]
  by_cases hp : (m.t N (index N v)).present = true
  · by_cases hc : 1 < d.activeCores
    · simp [hp, hc, leftOf]
    · simp [hp, hc, leftOf, unmap2, setPE_setPE]
  · simp [hp, leftOf]

theorem PageMapped.of_setPE {w : ℕ} {e : PageEntry} (hN : 1 ≤ N ∧ N < pagelevels)
    (hv : PageMapped N t v) (hpres : e.present = false) (hw : PageMapped N t w)
    (hne : index N w ≠ index N v) : PageMapped N (setPE t (entryOf N v) e) w := by
  have hsame : setPE t (entryOf N v) e N (index N w) = t N (index N w) :=
    setPE_of_ne t e fun h => hne h.2
  have hle : (walk t pagelevels v).1 ≤ N := of_decide_eq_true hv.window
  have hwalk := walk_eq_of_le hN.1 hN.2.le hle (isTable_eq_false_of_isPage hv.page)
  refine ⟨hw.aligned, ?_, hsame.symm ▸ hw.page, hsame.symm ▸ hw.status⟩
  rw [inWindow, entryOf, walk_setPE hwalk (by decide) (isTable_eq_false_of_not_present hpres),
    if_neg hne]
  exact hw.window

theorem present_leftOf (cores : ℕ) (e : PageEntry) : (leftOf cores e).present = false := by
  unfold leftOf
  split
  · exact present_clearP e
  · decide

/-- A region whose pages are mapped, at most one address space long. -/
structure Region (N : ℕ) (t : Tables) (vs : List ℕ) : Prop where
  level : 1 ≤ N ∧ N < pagelevels
  mapped : ∀ v ∈ vs, PageMapped N t v
  nodup : (vs.map (index N)).Nodup

/-- What the loop of `unmapPageRegion` does to a region. -/
structure LoopDone (N : ℕ) (vs : List ℕ) (d d' : InvData) (m m' : Space) : Prop where
  cores : d'.activeCores = d.activeCores
  posted : ∃ new, d'.posted = d.posted ++ new ∧
    new.map PageInvalidation.strip = if 1 < d.activeCores then itemsOf N m.t vs else []
  /-- `d'` is reached by posting -/
  reached : ∀ {C : InvData → Prop}, (∀ {d pe v sz al}, C d → C (d.post pe v sz al)) → C d → C d'
  fm : m'.fm = m.fm
  released : m'.released = m.released
  entry : ∀ i j, m'.t i j = if (i, j) ∈ vs.map (entryOf N) then leftOf d.activeCores (m.t i j)
    else m.t i j

theorem Region.tail {vs : List ℕ} {e : PageEntry} (h : Region N t (v :: vs))
    (hpres : e.present = false) : Region N (setPE t (entryOf N v) e) vs ∧
      ∀ w ∈ vs, setPE t (entryOf N v) e N (index N w) = t N (index N w) := by
  obtain ⟨hnot, hnodup⟩ := List.nodup_cons.mp h.nodup
  have hne : ∀ w ∈ vs, index N w ≠ index N v := fun w hw he =>
    hnot (List.mem_map.mpr ⟨w, hw, he⟩)
  refine ⟨⟨h.level, fun w hw => ?_, hnodup⟩, fun w hw => setPE_of_ne t e fun he => hne w hw he.2⟩
  exact (h.mapped v List.mem_cons_self).of_setPE h.level hpres
    (h.mapped w (List.mem_cons_of_mem _ hw)) (hne w hw)

/-- What one page adds to the list. -/
theorem post_posted (N : ℕ) (d : InvData) (v : ℕ) (present : Bool) :
    ∃ new, (if 1 < d.activeCores ∧ present = true then d.post (entryOf N v) v (pagesize N) true
        else d).posted = d.posted ++ new ∧
      new.map PageInvalidation.strip = if 1 < d.activeCores ∧ present = true then [itemOf N v] else
    [] := by
  by_cases h : 1 < d.activeCores ∧ present = true
  · rw [if_pos h, if_pos h, InvData.post, if_pos h.1]
    exact ⟨_, rfl, rfl⟩
  · rw [if_neg h, if_neg h]
    exact ⟨[], by simp, rfl⟩

/-- The first page, then the rest. -/
theorem LoopDone.cons {vs : List ℕ} {d' : InvData} {m m' : Space} (h : Region N m.t (v :: vs))
    (hdone : LoopDone N vs
    (if 1 < d.activeCores ∧
      (m.t N (index N v)).present = true then d.post (entryOf N v) v (pagesize N) true
    else d) d' { m with
      t := setPE m.t (entryOf N v) (leftOf d.activeCores (m.t N (index N v))) } m') :
    LoopDone N (v :: vs) d d' m m' := by
  obtain ⟨-, hsame⟩ := h.tail (present_leftOf d.activeCores (m.t N (index N v)))
  have hcores : (if 1 < d.activeCores ∧ (m.t N (index N v)).present = true
      then d.post (entryOf N v) v (pagesize N) true else d).activeCores = d.activeCores := by
    by_cases hpost : 1 < d.activeCores ∧ (m.t N (index N v)).present = true
    · rw [if_pos hpost, InvData.post, if_pos hpost.1]
    · rw [if_neg hpost]
  have hcores' := hdone.cores
  obtain ⟨new, hnew, hstrip⟩ := hdone.posted
  have hentry := hdone.entry
  rw [hcores] at hcores' hstrip hentry
  refine ⟨hcores', ?_, fun hC hd => hdone.reached hC ?_, hdone.fm, hdone.released, fun i j => ?_⟩
  · obtain ⟨first, hfirst, hfstrip⟩ := post_posted N d v (m.t N (index N v)).present
    refine ⟨first ++ new, by rw [hnew, hfirst, List.append_assoc], ?_⟩
    have hitems : itemsOf N (setPE m.t (entryOf N v) (leftOf d.activeCores (m.t N (index N v)))) vs
        = itemsOf N m.t vs :=
      congrArg _ (List.filter_congr fun w hw => by rw [hsame w hw])
    rw [List.map_append, hfstrip, hstrip, hitems]
    by_cases hc : 1 < d.activeCores
    · by_cases hp : (m.t N (index N v)).present = true
      · simp [hc, hp, itemsOf]
      · simp [hc, hp, itemsOf]
    · simp [hc]
  · split
    · exact hC hd
    · exact hd
  · rw [hentry]
    by_cases hi : (i, j) = entryOf N v
    · obtain ⟨rfl, rfl⟩ := Prod.mk.inj hi
      have hnot : (i, index i v) ∉ vs.map (entryOf i) := fun hmem => by
        obtain ⟨w, hw, he⟩ := List.mem_map.mp hmem
        exact (List.nodup_cons.mp h.nodup).1 (List.mem_map.mpr ⟨w, hw, (Prod.mk.inj he).2⟩)
      have hin : (i, index i v) ∈ (v :: vs).map (entryOf i) :=
        List.mem_map.mpr ⟨v, List.mem_cons_self, rfl⟩
      rw [if_neg hnot, if_pos hin]
      exact setPE_self _ _ _ _
    · have hset :
          setPE m.t (entryOf N v) (leftOf d.activeCores (m.t N (index N v))) i j = m.t i j :=
        if_neg hi
      have hmem : (i, j) ∈ (v :: vs).map (entryOf N) ↔ (i, j) ∈ vs.map (entryOf N) := by
        rw [List.map_cons, List.mem_cons, or_iff_right hi]
      simp only [hset, hmem]

theorem unmapPages_spec (n : ℕ) : ∀ {d : InvData} {m : Space} {v : ℕ},
    Region N m.t (pagesFrom N n v) → ∃ d' m', unmapPages N true false n d m v = .ok (d', m') ∧
      LoopDone N (pagesFrom N n v) d d' m m' := by
  induction n with
  | zero =>
    exact fun _ => ⟨_, _, rfl, rfl, ⟨[], by simp [pagesFrom, itemsOf]⟩, fun _ h => h, rfl,
      rfl, by simp [pagesFrom]⟩
  | succ n ih =>
    intro d m v h
    have hpage := unmapPage_spec (d := d) (h.mapped v List.mem_cons_self)
    obtain ⟨htail, -⟩ := h.tail (present_leftOf d.activeCores (m.t N (index N v)))
    obtain ⟨d', m', hrun, hdone⟩ :=
      ih (d := if 1 < d.activeCores ∧ (m.t N (index N v)).present = true
          then d.post (entryOf N v) v (pagesize N) true else d)
        (m := { m with
          t := setPE m.t (entryOf N v) (leftOf d.activeCores (m.t N (index N v))) }) htail
    refine ⟨d', m', ?_, LoopDone.cons h hdone⟩
    rw [unmapPages, hpage]
    exact hrun

theorem mem_pagesFrom {w : ℕ} : w ∈ pagesFrom N n v → ∃ k < n, w = v + k * pagesize N := by
  induction n generalizing v with
  | zero => exact fun h => absurd h List.not_mem_nil
  | succ n ih =>
    intro h
    rcases List.mem_cons.mp h with rfl | h
    · exact ⟨0, Nat.succ_pos n, by simp⟩
    · obtain ⟨k, hk, rfl⟩ := ih h
      exact ⟨k + 1, Nat.succ_lt_succ hk, by rw [Nat.succ_mul, add_assoc, add_comm (pagesize N)]⟩

/-- The pages of a region that is at most one address space long have different entries. -/
theorem nodup_pagesFrom (hN : N < pagelevels) : ∀ {n v : ℕ}, n * pagesize N ≤ 2 ^ pagebits →
    ((pagesFrom N n v).map (index N)).Nodup := by
  intro n
  induction n with
  | zero => exact fun _ => List.nodup_nil
  | succ n ih =>
    intro v hn
    have hn' : n * pagesize N ≤ 2 ^ pagebits := (Nat.mul_le_mul_right _ n.le_succ).trans hn
    refine List.nodup_cons.mpr ⟨fun hmem => ?_, ih hn'⟩
    obtain ⟨w, hw, he⟩ := List.mem_map.mp hmem
    obtain ⟨k, hk, rfl⟩ := mem_pagesFrom hw
    have hdiv : (v + pagesize N + k * pagesize N) / pagesize N = v / pagesize N + (k + 1) := by
      rw [show v + pagesize N + k * pagesize N = v + (k + 1) * pagesize N by ring,
        Nat.add_mul_div_right _ _ (pagesize_pos N)]
    rw [index_eq hN.le, index_eq hN.le, hdiv] at he
    have hlt : k + 1 < 2 ^ pagebits / pagesize N :=
      lt_of_lt_of_le (Nat.succ_lt_succ hk) ((Nat.le_div_iff_mul_le (pagesize_pos N)).mpr hn)
    have hmod : Nat.ModEq (2 ^ pagebits / pagesize N) (k + 1) 0 :=
      Nat.ModEq.add_left_cancel' (v / pagesize N) he
    exact absurd (Nat.ModEq.eq_of_lt_of_lt hmod hlt (by omega)) (Nat.succ_ne_zero k)

/-! ## Unmapping and settling -/

namespace AddressSpace

/-- The calls that give back a region mapped with `alloc`. -/
inductive Release
  | unmap (N addr size : ℕ)
  | stack (vma ss : ℕ)

namespace Release

def level : Release → ℕ
  | .unmap N _ _ => N
  | .stack _ _ => stackpl

def start : Release → ℕ
  | .unmap _ addr _ => addr
  | .stack vma _ => wsub vma stackGuardPage

def length : Release → ℕ
  | .unmap N _ size => alignUp size (pagesize N)
  | .stack _ ss => wadd ss stackGuardPage

/-- The pages of the region. -/
def pages (r : Release) : List ℕ := pagesFrom r.level (r.length / pagesize r.level) r.start

def call (r : Release) (d : InvData) (m : Space) : Except Fault (InvData × Space) :=
  match r with
  | .unmap N addr size => AddressSpace.unmap N true d m addr size
  | .stack vma ss => releaseStack d m vma ss

end Release

variable {κ : Type}

/-- Every core of `cs` runs its invalidations. -/
def settle [DecidableEq κ] (s : Shootdown κ (Except Fault Space)) (cs : List κ) :
    Except Fault Space :=
  match Runs.run (Shootdown.step complete) s (cs.map .run) with
  | none => .error .kassert
  | some s' => s'.rest

/-- The call, and then the invalidations. -/
def Release.settled [DecidableEq κ] (r : Release) (s : Shootdown κ (Except Fault Space))
    (cs : List κ) : Except Fault Space :=
  match s.rest with
  | .error e => .error e
  | .ok m =>
    match r.call s.inv m with
    | .error e => .error e
    | .ok (d, m) => settle { s with inv := d, rest := .ok m } cs

/-- The region of the call is mapped with `alloc`, and what is pending can be finished: the entries
of the region and of the items in the list differ, and so do the frames behind them, which are
handed out. -/
structure Release.Ready (r : Release) (s : Shootdown κ (Except Fault Space)) (m : Space) :
    Prop where
  coherent : s.Coherent
  rest : s.rest = .ok m
  inv : Inv m.fm
  lplock : m.fm.lplock = false
  level : r.level = 1 ∨ r.level = 2
  aligned : r.start % pagesize r.level = 0 ∧ r.length % pagesize r.level = 0
  fits : r.start + r.length < wordSize ∧ r.length ≤ 2 ^ pagebits
  mapped : ∀ v ∈ r.pages, PageMapped r.level m.t v
  frame : ∀ v ∈ r.pages, (m.t r.level (index r.level v)).present = true →
    hasFrame (m.t r.level (index r.level v)).addr = true
  fresh : ∀ it ∈ s.inv.posted, it.pentry ∉ r.pages.map (entryOf r.level)
  work : Kos.Ready m.fm m.t (s.inv.posted.map PageInvalidation.strip ++ itemsOf r.level m.t r.pages)

variable {r : Release} {s : Shootdown κ (Except Fault Space)}

theorem unmapPageRegion_eq {alloc direct : Bool} {sz : ℕ} (hv : v % pagesize N = 0)
    (hsz : sz % pagesize N = 0) (hfit : v + sz < wordSize) :
    unmapPageRegion N alloc direct d m v sz =
      unmapPages N alloc direct (sz / pagesize N) d m v := by
  rw [unmapPageRegion, aligned_pagesize.mpr hv, aligned_pagesize.mpr hsz, wadd_of_lt hfit,
    Nat.add_sub_cancel_left, Bool.and_self, if_pos rfl]

theorem Release.Ready.call_eq (h : r.Ready s m) (d : InvData) (m' : Space) :
    r.call d m' = unmapPages r.level true false (r.length / pagesize r.level) d m' r.start := by
  refine Eq.trans ?_ (unmapPageRegion_eq h.aligned.1 h.aligned.2 h.fits.1)
  cases r with
  | unmap N addr size => exact if_pos (aligned_pagesize.mpr h.aligned.1)
  | stack vma ss => rfl

theorem Release.Ready.region (h : r.Ready s m) : Region r.level m.t r.pages := by
  have hlt : 1 ≤ r.level ∧ r.level < pagelevels := by
    rcases h.level with he | he
    · rw [he]
      exact ⟨le_rfl, by decide⟩
    · rw [he]
      exact ⟨by decide, by decide⟩
  exact ⟨hlt, h.mapped, nodup_pagesFrom hlt.2 ((Nat.div_mul_le_self _ _).trans h.fits.2)⟩

/-- The items to be finished once the call has run. -/
def Release.pending (r : Release) (s : Shootdown κ (Except Fault Space)) (m : Space) :
    List PageInvalidation :=
  s.inv.posted.map PageInvalidation.strip ++
    if 1 < s.inside.card then itemsOf r.level m.t r.pages else []

theorem Release.pending_sublist (r : Release) (s : Shootdown κ (Except Fault Space)) (m : Space) :
    (r.pending s m).Sublist
      (s.inv.posted.map PageInvalidation.strip ++ itemsOf r.level m.t r.pages) := by
  refine List.Sublist.append (List.Sublist.refl _) ?_
  split
  · exact List.Sublist.refl _
  · exact List.nil_sublist _

/-- The entries of the items that are pending after the call. -/
theorem Release.mem_pending (r : Release) {s : Shootdown κ (Except Fault Space)} {m : Space}
    {i j : ℕ} : (i, j) ∈ (r.pending s m).map (·.pentry) ↔ (i, j) ∈ s.inv.posted.map (·.pentry) ∨
      (1 < s.inside.card ∧ (i, j) ∈ r.pages.map (entryOf r.level) ∧ (m.t i j).present = true) := by
  have hold :
      (s.inv.posted.map PageInvalidation.strip).map (·.pentry) = s.inv.posted.map (·.pentry) := by
    rw [List.map_map]
    rfl
  have hitems : (i, j) ∈ (itemsOf r.level m.t r.pages).map (·.pentry) ↔
      (i, j) ∈ r.pages.map (entryOf r.level) ∧ (m.t i j).present = true := by
    simp only [itemsOf, List.map_map, List.mem_map, List.mem_filter, Function.comp_apply, itemOf]
    constructor
    · rintro ⟨v, ⟨hv, hp⟩, he⟩
      cases he
      exact ⟨⟨v, hv, rfl⟩, hp⟩
    · rintro ⟨⟨v, hv, he⟩, hp⟩
      cases he
      exact ⟨v, ⟨hv, hp⟩, rfl⟩
  rw [pending, List.map_append, List.mem_append, hold]
  split
  · rename_i hc
    rw [hitems, and_iff_right hc]
  · rename_i hc
    simp [hc]

/-- The pages of the region lose their entries, and the items that the call leaves are ready. -/
theorem Release.Ready.after (h : r.Ready s m) {d' : InvData} {m₁ : Space}
    (hdone : LoopDone r.level r.pages s.inv d' m m₁) :
    ∀ it ∈ r.pending s m, it.gives m₁.t = it.gives m.t := by
  intro it hit
  have hentry : m₁.t it.pentry.1 it.pentry.2 = m.t it.pentry.1 it.pentry.2 ∨
      (m₁.t it.pentry.1 it.pentry.2).addr = (m.t it.pentry.1 it.pentry.2).addr := by
    rcases List.mem_append.mp hit with hit | hit
    · obtain ⟨it', hit', rfl⟩ := List.mem_map.mp hit
      exact Or.inl ((hdone.entry _ _).trans (if_neg (h.fresh it' hit')))
    · rw [← h.coherent.active] at hit
      split at hit
      · rename_i hcores
        obtain ⟨v, hv, rfl⟩ := List.mem_map.mp hit
        obtain ⟨hv, hp⟩ := List.mem_filter.mp hv
        refine Or.inr ?_
        have hin : (r.level, index r.level v) ∈ r.pages.map (entryOf r.level) :=
          List.mem_map.mpr ⟨v, hv, rfl⟩
        show (m₁.t r.level (index r.level v)).addr = _
        rw [hdone.entry, if_pos hin, leftOf, if_pos ⟨hcores, hp⟩, addr_clearP]
        rfl
      · cases hit
  rw [PageInvalidation.gives, PageInvalidation.gives]
  rcases hentry with he | he
  · rw [he]
  · rw [he]

/-! ## What is given back -/

/-- The entry of a page of the region. -/
def Release.entry (r : Release) (m : Space) (v : ℕ) : PageEntry := m.t r.level (index r.level v)

/-- The frames that are mapped present in the region. -/
def Release.presentFrames (r : Release) (m : Space) (f : ℕ) : Prop :=
  ∃ v ∈ r.pages, (r.entry m v).present = true ∧
    inPageAt (pagesize r.level) (r.entry m v).addr.toNat f

/-- The addresses that are mapped present in the region. -/
def Release.presentAddrs (r : Release) (m : Space) : List ℕ :=
  (r.pages.filter fun v => (r.entry m v).present).map fun v => (r.entry m v).addr.toNat

/-- **Memory is given back**: beside what was pending already, exactly the frames that were mapped
present in the region become free, each released once. -/
structure Release.GivesBack (r : Release) (s : Shootdown κ (Except Fault Space)) (m m' : Space) :
    Prop where
  free : ∀ f, m'.fm.free f ↔
    (m.fm.free f ∨ ∃ it ∈ s.inv.posted, it.frees m.t f) ∨ r.presentFrames m f
  once : m'.released.Perm (m.released ++ s.inv.posted.flatMap (·.gives m.t) ++ r.presentAddrs m)

theorem Release.not_presentFrames (hp : ∀ v ∈ r.pages, (r.entry m v).present = false) {f : ℕ} :
    ¬ r.presentFrames m f := by
  rintro ⟨v, hv, hpres, -⟩
  exact absurd hpres (by simp [hp v hv])

theorem Release.Ready.gives_itemOf (h : r.Ready s m) (hv : v ∈ r.pages)
    (hp : (r.entry m v).present = true) :
    (itemOf r.level v).gives m.t = [(r.entry m v).addr.toNat] := by
  have hframe : hasFrame (r.entry m v).addr = true := h.frame v hv hp
  exact if_pos (by rw [Bool.and_eq_true]; exact ⟨rfl, hframe⟩)

theorem Release.Ready.frees_items (h : r.Ready s m) (f : ℕ) :
    (∃ it ∈ itemsOf r.level m.t r.pages, it.frees m.t f) ↔ r.presentFrames m f := by
  constructor
  · rintro ⟨it, hit, a, ha, hf⟩
    obtain ⟨v, hv, rfl⟩ := List.mem_map.mp hit
    obtain ⟨hv, hp⟩ := List.mem_filter.mp hv
    rw [h.gives_itemOf hv hp, List.mem_singleton] at ha
    exact ⟨v, hv, hp, ha ▸ hf⟩
  · rintro ⟨v, hv, hp, hf⟩
    refine ⟨itemOf r.level v, List.mem_map.mpr ⟨v, List.mem_filter.mpr ⟨hv, hp⟩, rfl⟩, _, ?_, hf⟩
    rw [h.gives_itemOf hv hp]
    exact List.mem_singleton.mpr rfl

theorem Release.Ready.gives_items (h : r.Ready s m) :
    (itemsOf r.level m.t r.pages).flatMap (·.gives m.t) = r.presentAddrs m := by
  rw [itemsOf, List.flatMap_map, Release.presentAddrs, List.map_eq_flatMap]
  refine List.flatMap_congr fun v hv => ?_
  obtain ⟨hv, hp⟩ := List.mem_filter.mp hv
  exact h.gives_itemOf hv hp

/-- A page that is present holds a frame that is neither free nor pending. -/
theorem Release.Ready.exists_frame (h : r.Ready s m) (hv : v ∈ r.pages)
    (hp : (r.entry m v).present = true) : ∃ f, r.presentFrames m f ∧ ¬ m.fm.free f ∧
      ¬ ∃ it ∈ s.inv.posted, it.frees m.t f := by
  set a := (r.entry m v).addr.toNat with ha
  have hitem : itemOf r.level v ∈ itemsOf r.level m.t r.pages :=
    List.mem_map.mpr ⟨v, List.mem_filter.mpr ⟨hv, hp⟩, rfl⟩
  have hgives := h.gives_itemOf hv hp
  have hal : a % pagesize r.level = 0 :=
    h.work.aligned _ (List.mem_append_right _ hitem) a
      (by rw [hgives]; exact List.mem_singleton.mpr rfl)
  have hsps : a / sps * sps = a := by
    have hdvd : sps ∣ pagesize r.level := pagesize_dvd le_rfl h.region.level.1
    exact Nat.div_mul_cancel (hdvd.trans (Nat.dvd_of_mod_eq_zero hal))
  have hin : inPageAt (pagesize r.level) a (a / sps) := by rw [inPageAt, hsps]
  have hfrees : (itemOf r.level v).frees m.t (a / sps) :=
    ⟨a, by rw [hgives]; exact List.mem_singleton.mpr rfl, hin⟩
  refine ⟨a / sps, ⟨v, hv, hp, hin⟩, (h.work.out _ (List.mem_append_right _ hitem) _ hfrees).1, ?_⟩
  rintro ⟨it, hit, hf⟩
  exact (List.pairwise_append.mp h.work.frames).2.2 _ (List.mem_map.mpr ⟨it, hit, rfl⟩) _ hitem _ hf
    hfrees

theorem frees_strip (t : Tables) (its : List PageInvalidation) (f : ℕ) :
    (∃ it ∈ its.map PageInvalidation.strip, it.frees t f) ↔ ∃ it ∈ its, it.frees t f := by
  simp only [List.mem_map, exists_exists_and_eq_and]
  rfl

/-- The addresses released, by what is in the list already and by the region. -/
theorem Release.Ready.gives_pending (h : r.Ready s m) : (r.pending s m).flatMap (·.gives m.t) =
    s.inv.posted.flatMap (·.gives m.t) ++ if 1 < s.inside.card then r.presentAddrs m else [] := by
  rw [Release.pending, List.flatMap_append, List.flatMap_map, ← h.gives_items]
  refine congrArg₂ _ rfl ?_
  split
  · rfl
  · rfl

/-- The frames released, by what is in the list already and by the region. -/
theorem Release.Ready.frees_pending (h : r.Ready s m) (f : ℕ) :
    (∃ it ∈ r.pending s m, it.frees m.t f) ↔ (∃ it ∈ s.inv.posted, it.frees m.t f) ∨
      (1 < s.inside.card ∧ r.presentFrames m f) := by
  have hold := frees_strip m.t s.inv.posted f
  rw [← h.frees_items, ← hold]
  simp only [Release.pending, List.mem_append, or_and_right, exists_or]
  split
  · rename_i hc
    rw [and_iff_right hc]
  · rename_i hc
    simp [hc]

variable [DecidableEq κ]

/-- **The call and the invalidations after it.**  They return; every entry of the region and of the
items in the list is cleared; and exactly the frames of the items that are pending after the call
are released, each once. -/
theorem Release.Ready.settled_spec (h : r.Ready s m) {cs : List κ}
    (hcs : ∀ c, c ∈ cs ↔ c ∈ s.inside) : ∃ m', r.settled s cs = .ok m' ∧
      (∀ i j, m'.t i j = if (i, j) ∈ s.inv.posted.map (·.pentry) ∨
        (i, j) ∈ r.pages.map (entryOf r.level) then 0 else m.t i j) ∧
      (∀ f, m'.fm.free f ↔ m.fm.free f ∨ ∃ it ∈ r.pending s m, it.frees m.t f) ∧
      m'.released.Perm (m.released ++ (r.pending s m).flatMap (·.gives m.t)) := by
  obtain ⟨d', m₁, hcall, hdone⟩ := unmapPages_spec (d := s.inv) _ h.region
  rw [← h.call_eq] at hcall
  have hdone : LoopDone r.level r.pages s.inv d' m m₁ := hdone
  have hcoh : Shootdown.Coherent { s with inv := d', rest := (.ok m₁ : Except Fault Space) } :=
    hdone.reached (C := fun d => Shootdown.Coherent { s with inv := d, rest := .ok m₁ })
      (fun hd => hd.post _ _ _ _) (h.coherent.other _)
  obtain ⟨s', done, hrun, -, hrest, hperm⟩ := hcoh.run_all complete hcs
  -- the items finished are those pending after the call, in some order
  have hdone' : (done.map PageInvalidation.strip).Perm (r.pending s m) := by
    obtain ⟨new, hnew, hstrip⟩ := hdone.posted
    have hmap := hperm.map PageInvalidation.strip
    rw [List.map_map, List.map_map] at hmap
    refine hmap.trans (.of_eq ?_)
    show d'.posted.map PageInvalidation.strip = _
    rw [hnew, List.map_append, hstrip, h.coherent.active]
    rfl
  have hfold : done.foldl complete (.ok m₁) =
      (done.map PageInvalidation.strip).foldl complete (.ok m₁) := by
    rw [List.foldl_map]
    rfl
  have hgives := h.after hdone
  have hfm := hdone.fm
  have hready : Kos.Ready m₁.fm m₁.t (done.map PageInvalidation.strip) := by
    refine Kos.Ready.perm (Kos.Ready.congr ?_ hgives) hdone'.symm
    rw [hfm]
    exact h.work.sublist (r.pending_sublist s m)
  obtain ⟨m', hm', hfin⟩ := foldl_complete _ (hfm ▸ h.inv) (hfm ▸ h.lplock) hready
  refine ⟨m', ?_, fun i j => ?_, fun f => ?_, ?_⟩
  · rw [Release.settled, h.rest]
    simp only [hcall, settle, hrun, hrest, hfold, hm']
  · simp only [hfin.entry, (hdone'.map _).mem_iff, r.mem_pending]
    by_cases hreg : (i, j) ∈ r.pages.map (entryOf r.level)
    · rw [if_pos (Or.inr hreg)]
      split
      · rfl
      · rename_i hnot
        rw [hdone.entry, if_pos hreg, leftOf, if_neg]
        rintro ⟨hcores, hp⟩
        exact hnot (Or.inr ⟨h.coherent.active ▸ hcores, hreg, hp⟩)
    · have hsame : m₁.t i j = m.t i j := (hdone.entry i j).trans (if_neg hreg)
      simp [hreg, hsame]
  · rw [hfin.free, hfm]
    refine or_congr Iff.rfl (exists_congr fun it => ?_)
    rw [hdone'.mem_iff]
    exact and_congr_right fun hit => PageInvalidation.frees_congr (hgives it hit) f
  · rw [hfin.released, hdone.released]
    refine (List.Perm.append_left _ (hdone'.flatMap_right _)).trans ?_
    rw [List.flatMap_congr hgives]

omit [DecidableEq κ] in
/-- The memory is given back exactly if the items of the region are pending after the call, or there
are none. -/
theorem Release.Ready.givesBack_iff (h : r.Ready s m)
    (hfree : ∀ f, m'.fm.free f ↔ m.fm.free f ∨ ∃ it ∈ r.pending s m, it.frees m.t f)
    (honce : m'.released.Perm (m.released ++ (r.pending s m).flatMap (·.gives m.t))) :
    r.GivesBack s m m' ↔ 1 < s.inside.card ∨ ∀ v ∈ r.pages, (r.entry m v).present = false := by
  simp only [h.frees_pending] at hfree
  refine ⟨fun hback => ?_, fun hcond => ⟨fun f => ?_, ?_⟩⟩
  · by_contra hcond
    push Not at hcond
    obtain ⟨hc, v, hv, hp⟩ := hcond
    obtain ⟨f, hf, hnot, hnot'⟩ := h.exists_frame hv (by simpa using hp)
    have hgot := (hback.free f).mpr (Or.inr hf)
    rw [hfree] at hgot
    exact hgot.elim hnot fun hgot => hgot.elim hnot' fun hgot => absurd hgot.1 (not_lt.mpr hc)
  · rw [hfree, or_assoc]
    refine or_congr Iff.rfl (or_congr Iff.rfl ?_)
    rcases hcond with hc | hp
    · rw [and_iff_right hc]
    · exact iff_of_false (fun hf => Release.not_presentFrames hp hf.2)
        (Release.not_presentFrames hp)
  · rw [h.gives_pending, ← List.append_assoc] at honce
    refine honce.trans (.of_eq (congrArg _ ?_))
    rcases hcond with hc | hp
    · exact if_pos hc
    · have hnil : r.presentAddrs m = [] :=
        List.map_eq_nil_iff.mpr (List.filter_eq_nil_iff.mpr fun v hv => by simp [hp v hv])
      rw [hnil, ite_self]

/-- **When unmapping gives memory back.**  The call and the invalidations of every core return with
the entries of the region cleared.  The memory is given back if and only if more than one core is
inside, or nothing in the region is present.  The same call with more than one core inside gives the
same page tables as with one; the free sets are the same if and only if nothing is present. -/
theorem unmap_gives_back_iff (h : r.Ready s m) {cs : List κ} (hcs : ∀ c, c ∈ cs ↔ c ∈ s.inside) :
    ∃ m', r.settled s cs = .ok m' ∧ (∀ v ∈ r.pages, r.entry m' v = 0) ∧
      (r.GivesBack s m m' ↔ 1 < s.inside.card ∨ ∀ v ∈ r.pages, (r.entry m v).present = false) ∧
      ∀ (s₂ : Shootdown κ (Except Fault Space)) (cs₂ : List κ), r.Ready s₂ m →
        s₂.inv.posted.map PageInvalidation.strip = s.inv.posted.map PageInvalidation.strip →
        (∀ c, c ∈ cs₂ ↔ c ∈ s₂.inside) → s.inside.card = 1 → 1 < s₂.inside.card →
        ∃ m₂, r.settled s₂ cs₂ = .ok m₂ ∧ m₂.t = m'.t ∧
          ((∀ f, m₂.fm.free f ↔ m'.fm.free f) ↔ ∀ v ∈ r.pages, (r.entry m v).present = false) := by
  obtain ⟨m', hm', hentry, hfree, honce⟩ := h.settled_spec hcs
  refine ⟨m', hm', fun v hv => ?_, h.givesBack_iff hfree honce, ?_⟩
  · exact (hentry _ _).trans (if_pos (Or.inr (List.mem_map.mpr ⟨v, hv, rfl⟩)))
  · intro s₂ cs₂ h₂ hsame hcs₂ hone hmore
    obtain ⟨m₂, hm₂, hentry₂, hfree₂, -⟩ := h₂.settled_spec hcs₂
    have hentries : s₂.inv.posted.map (·.pentry) = s.inv.posted.map (·.pentry) := by
      have hmap := congrArg (List.map (·.pentry)) hsame
      rwa [List.map_map, List.map_map] at hmap
    have hold : ∀ f, (∃ it ∈ s₂.inv.posted, it.frees m.t f) ↔
        ∃ it ∈ s.inv.posted, it.frees m.t f := by
      intro f
      rw [← frees_strip, hsame, frees_strip]
    simp only [h.frees_pending] at hfree
    simp only [h₂.frees_pending, hold, hmore, true_and] at hfree₂
    refine ⟨m₂, hm₂, funext₂ fun i j => ?_, fun heq v hv => ?_, fun hp f => ?_⟩
    · rw [hentry₂, hentry, hentries]
    · by_contra hp
      obtain ⟨f, hf, hnot, hnot'⟩ := h.exists_frame hv (by simpa using hp)
      have hgot := (heq f).mp ((hfree₂ f).mpr (Or.inr (Or.inr hf)))
      rw [hfree] at hgot
      exact hgot.elim hnot fun hgot => hgot.elim hnot' fun hgot => absurd hgot.1 (by omega)
    · rw [hfree₂, hfree, hone, or_iff_left (Release.not_presentFrames hp)]
      simp

/-! ## One page -/

/-- One page, at 4 MB, in the frame at `0x5000`. -/
def onePageTables : Tables := fun n i =>
  if (n, i) = (4, 0) ∨ (n, i) = (3, 0) ∨ (n, i) = (2, 2) then pageTable
  else if (n, i) = (1, 1024) then 0x5000 ||| data ||| P else 0

def onePageSpace (fm : FrameManager) : Space :=
  { t := onePageTables, area := ⟨2 ^ 22, 2 ^ 22, 2 ^ 47⟩, fm, released := [] }

/-- The cores `inside`, with nothing pending. -/
def onePageState (inside : Finset Bool) (fm : FrameManager) : Shootdown Bool (Except Fault Space) :=
  { inv := ⟨inside.card, [], 0⟩, inside, pi := fun _ => 0, rest := .ok (onePageSpace fm) }

def onePage : Release := .unmap 1 (2 ^ 22) 4096

theorem ready_onePage (hinv : Inv fm) (hlp : fm.lplock = false) (hnone : ∀ f, ¬ fm.free f)
    (hpos : 0 < fm.bitcount) (inside : Finset Bool) :
    onePage.Ready (onePageState inside fm) (onePageSpace fm) := by
  have hpages : onePage.pages = [2 ^ 22] := by decide
  have hcoh : (onePageState inside fm).Coherent :=
    ⟨List.Pairwise.nil, by simp [onePageState], rfl, fun _ _ => Or.inl rfl, by simp [onePageState],
      by simp [onePageState]⟩
  have hitems : itemsOf 1 onePageTables [2 ^ 22] = [itemOf 1 (2 ^ 22)] := by decide
  have hgives : (itemOf 1 (2 ^ 22)).gives onePageTables = [0x5000] := by decide
  have hfrees : ∀ f, (itemOf 1 (2 ^ 22)).frees onePageTables f → f = 5 := by
    rintro f ⟨a, ha, hf⟩
    rw [hgives, List.mem_singleton] at ha
    rw [ha, inPageAt, show (itemOf 1 (2 ^ 22)).size = sps from rfl,
      Nat.mul_div_cancel _ sps_pos] at hf
    exact hf
  have hmapped : PageMapped 1 onePageTables (2 ^ 22) :=
    ⟨by decide, by decide, by decide, Or.inl (by decide)⟩
  refine ⟨hcoh, rfl, hinv, hlp, Or.inl rfl, ⟨by decide, by decide⟩, ⟨by decide, by decide⟩,
    fun v hv => ?_, fun v hv _ => ?_, fun it hit => absurd hit List.not_mem_nil, ?_⟩
  · rw [hpages, List.mem_singleton] at hv
    exact hv ▸ hmapped
  · rw [hpages, List.mem_singleton] at hv
    rw [hv]
    show hasFrame (onePageTables 1 (index 1 (2 ^ 22))).addr = true
    decide
  · rw [hpages, show (onePageState inside fm).inv.posted = [] from rfl, List.map_nil,
      List.nil_append]
    show Kos.Ready fm onePageTables (itemsOf 1 onePageTables [2 ^ 22])
    rw [hitems]
    refine ⟨List.pairwise_singleton _ _, fun it hit => ?_, fun it hit a ha => ?_,
      fun it hit f hf => ?_, List.pairwise_singleton _ _⟩
    · exact Or.inl (List.mem_singleton.mp hit ▸ rfl)
    · rw [List.mem_singleton.mp hit] at ha ⊢
      rw [hgives, List.mem_singleton] at ha
      exact ha ▸ by decide
    · rw [List.mem_singleton.mp hit] at hf
      exact ⟨hnone f, hfrees f hf ▸ hpos⟩

/-- A frame manager with no free frame. -/
theorem exists_noFree : ∃ fm : FrameManager, Inv fm ∧ fm.lplock = false ∧ (∀ f, ¬ fm.free f) ∧
    0 < fm.bitcount := by
  obtain ⟨fm, -, hinv, hlp, hcov, hnone⟩ := init_spec dps_pos (show dps ≤ 2 ^ 48 by decide)
  exact ⟨fm, hinv, hlp, hnone, Nat.pos_of_mul_pos_right (lt_of_lt_of_le dps_pos hcov)⟩

/-- With two cores inside, the page is given back. -/
theorem unmap_gives_back_twoCores : ∃ fm m', onePage.settled (onePageState {false, true} fm)
      [false, true] = .ok m' ∧
    onePage.GivesBack (onePageState {false, true} fm) (onePageSpace fm) m' := by
  obtain ⟨fm, hinv, hlp, hnone, hpos⟩ := exists_noFree
  obtain ⟨m', hm', -, hiff, -⟩ :=
    unmap_gives_back_iff (ready_onePage hinv hlp hnone hpos {false, true})
    (show ∀ c, c ∈ [false, true] ↔ c ∈ ({false, true} : Finset Bool) by simp)
  exact ⟨fm, m', hm', hiff.mpr (Or.inl (by simp [onePageState]))⟩

/-- **With one core inside, the page is not given back**: its entry is cleared, and its frame is
released neither then nor later. -/
theorem unmap_leaks_oneCore : ∃ fm m', onePage.Ready (onePageState {true} fm) (onePageSpace fm) ∧
    onePage.settled (onePageState {true} fm) [true] = .ok m' ∧
    onePage.presentFrames (onePageSpace fm) 5 ∧ ¬ m'.fm.free 5 ∧ m'.released = [] ∧
    ¬ onePage.GivesBack (onePageState {true} fm) (onePageSpace fm) m' := by
  obtain ⟨fm, hinv, hlp, hnone, hpos⟩ := exists_noFree
  have h := ready_onePage hinv hlp hnone hpos {true}
  obtain ⟨m', hm', -, hfree, honce⟩ := h.settled_spec
    (show ∀ c, c ∈ [true] ↔ c ∈ ({true} : Finset Bool) by simp)
  have hpages : onePage.pages = [2 ^ 22] := by decide
  have hnothing : onePage.pending (onePageState {true} fm) (onePageSpace fm) = [] := by
    simp [Release.pending, onePageState]
  have hpresent : (onePage.entry (onePageSpace fm) (2 ^ 22)).present = true := by
    show (onePageTables 1 (index 1 (2 ^ 22))).present = true
    decide
  refine ⟨fm, m', h, hm', ⟨2 ^ 22, by simp [hpages], hpresent, ?_⟩, fun hf => ?_, ?_, ?_⟩
  · show 5 * sps / pagesize 1 = (onePageTables 1 (index 1 (2 ^ 22))).addr.toNat / pagesize 1
    decide
  · simp only [hfree, hnothing, List.not_mem_nil, false_and, exists_false, or_false] at hf
    exact hnone 5 hf
  · rw [hnothing] at honce
    exact List.perm_nil.mp honce
  · rw [h.givesBack_iff hfree honce, hpages]
    rintro (hc | hp)
    · simp [onePageState] at hc
    · exact absurd hpresent (by rw [hp _ (List.mem_singleton.mpr rfl)]; decide)

end AddressSpace

end Kos
