import KosKernel.Kernel.VmRuns
import KosKernel.Machine.ClearAll
import KosKernel.Machine.TableFrames

/-!
# Machine/PageMap — the page tables as a map of pages

What the four levels of tables are for: a status for each 4 KB page.  `PageMap` is that map, with
the operations of `Paging` as updates of a range of pages, and `pageMap` reads it off the tables.

`fault`, `unmap1`, `unmap2` and `clearAll` do to the tables what they do to the map.  `map` does so
unless it is called inside a larger page that is reserved or unmapped: `mapTable` takes an entry
that is not present for an empty one and puts a table there, and the rest of the larger page is
forgotten (`paging_refines_iff`).
-/

namespace Kos

open Runs PageEntry FrameManager

namespace Paging

/-! ## The abstract map -/

/-- The bits of an entry besides the address, `P` and `PS`. -/
def flags (e : PageEntry) : PageEntry := e &&& ~~~(P ||| PS ||| ADDR)

inductive Reservation
  | lazy
  | guard
  deriving DecidableEq

/-- What a 4 KB page is: `N` is the level of the page that it is a part of, and `base` the address
that this page is mapped to. -/
inductive Page
  | available
  | reserved (N : ℕ) (kind : Reservation) (flags : PageEntry)
  | unmapped (N : ℕ) (base : PageEntry)
  | mapped (N : ℕ) (base flags : PageEntry)
  deriving DecidableEq

def Page.status : Page → PageStatus
  | .available => .available
  | .reserved _ _ _ => .reserved
  | .unmapped _ _ => .unmapped
  | .mapped _ _ _ => .mapped

/-- The 4 KB pages that addresses can have. -/
abbrev PageNumber : Type := Fin (2 ^ pagebits / pagesize 1)

/-- The first address of a page. -/
def PageNumber.start (n : PageNumber) : ℕ := n.val * pagesize 1

/-- The page lies in `[vma, vma + size)`. -/
def PageNumber.inRange (n : PageNumber) (vma size : ℕ) : Prop :=
  vma % 2 ^ pagebits ≤ n.start ∧ n.start < vma % 2 ^ pagebits + size

instance (n : PageNumber) (vma size : ℕ) : Decidable (n.inRange vma size) :=
  inferInstanceAs (Decidable (_ ∧ _))

theorem index_lt (N x : ℕ) (hN : N ≤ pagelevels) : index N x < 2 ^ pagebits / pagesize N :=
  Nat.div_lt_div_of_lt_of_dvd (pagesize_dvd_pagebits hN) (Nat.mod_lt _ (by decide))

/-- The page of an address. -/
def pageOf (a : ℕ) : PageNumber := ⟨index 1 a, index_lt 1 a (by decide)⟩

/-- The status of each page. -/
abbrev PageMap : Type := PageNumber → Page

/-- An operation of `Paging`, with the frame manager that it finds. -/
inductive Action
  | map (N : ℕ) (present : Bool) (vma : ℕ) (pma type : PageEntry) (fm : FrameManager)
  | unmap1 (N : ℕ) (async : Bool) (vma : ℕ)
  /-- `unmap2`, through the pointer to the entry of level `N` for `vma` -/
  | unmap2 (N vma : ℕ)
  | fault (vma : ℕ) (fm : FrameManager)
  /-- `clearAll`, from the root entry `i` on, over `n` root entries -/
  | clearAll (i n : ℕ)

/-- What `map<N,present>` makes of a page. -/
def entered (N : ℕ) (present : Bool) (pma type : PageEntry) : Page :=
  if present then .mapped N pma type
  else if pma = lazyPage then .reserved N .lazy type
  else if pma = guardPage then .reserved N .guard type
  else if pma = 0 then .available
  else .unmapped N pma

/-- What `unmap1` makes of a page. -/
def left (async : Bool) : Page → Page
  | .mapped N base flags => if async then .unmapped N base else .mapped N base flags
  | _ => .available

namespace PageMap

/-- Change the pages of a range. -/
def set (A : PageMap) (vma size : ℕ) (f : Page → Page) : PageMap :=
  fun n => if n.inRange vma size then f (A n) else A n

/-- **What the operations are for.** -/
def step (A : PageMap) : Action → PageMap
  | .map N present vma pma type _ =>
    match A (pageOf vma) with
    | .mapped _ _ _ => A
    | _ => A.set vma (pagesize N) fun _ => entered N present pma type
  | .unmap1 N async vma => A.set vma (pagesize N) (left async)
  | .unmap2 N vma => A.set vma (pagesize N) fun _ => .available
  | .fault vma fm =>
    match A (pageOf vma) with
    | .reserved N .lazy flags =>
      match fm.allocFrame N with
      | .ok (pma, _) => A.set (vma / pagesize N * pagesize N) (pagesize N) fun _ =>
          .mapped N (BitVec.ofNat 64 pma) flags
      | .error _ => A
    | _ => A
  | .clearAll i n => A.set (i * pagesize pagelevels) (n * pagesize pagelevels) fun _ => .available

/-- `map<N>` is not called inside a larger page that is reserved or unmapped. -/
def Apart (A : PageMap) : Action → Prop
  | .map N _ vma _ _ _ =>
    match A (pageOf vma) with
    | .reserved L _ _ => L ≤ N
    | .unmapped L _ => L ≤ N
    | _ => True
  | _ => True

end PageMap

/-! ## The tables -/

/-- An operation on the tables, if it passes its assertions. -/
def step (t : Tables) : Action → Option Tables
  | .map N present vma pma type fm => (map N present t vma pma type fm).toOption.map (·.2.1)
  | .unmap1 N async vma => (unmap1 N async t vma).toOption.map (·.2)
  | .unmap2 N vma =>
    if vma % pagesize N = 0 ∧ inWindow t N vma = true then some (unmap2 t (N, index N vma)).2
      else none
  | .fault vma fm => (fault t vma fm).toOption.map (·.2.1)
  | .clearAll i n => some (clearAll pagelevels i n t).2

/-- The address of a frame, not one of the values that stand for something else. -/
def IsFrame (pma : PageEntry) : Prop := pma ≠ 0 ∧ pma ≠ lazyPage ∧ pma ≠ guardPage

instance (pma : PageEntry) : Decidable (IsFrame pma) := inferInstanceAs (Decidable (_ ∧ _ ∧ _))

/-- The operations that the code makes: pages of level 1 and 2, page types without address, frames
that are frames, and root entries that exist. -/
def Allowed : Action → Prop
  | .map N present _ pma type _ =>
    (N = 1 ∨ N = 2) ∧ type &&& (P ||| PS ||| ADDR) = 0 ∧ (present = true → IsFrame pma)
  | .unmap1 N _ _ => N = 1 ∨ N = 2
  | .unmap2 N _ => N = 1 ∨ N = 2
  | .fault _ fm => ∀ N pma fm', fm.allocFrame N = .ok (pma, fm') → pma ≠ topaddr →
      BitVec.ofNat 64 pma &&& ~~~ADDR = 0 ∧ IsFrame (BitVec.ofNat 64 pma)
  | .clearAll i n => i + n ≤ pagetableentries

/-- The page that an entry stands for, at the level where the walk stops. -/
def content (N : ℕ) (e : PageEntry) : Page := entered N e.present e.addr (flags e)

/-- The page that an address is translated by. -/
def contentAt (t : Tables) (x : ℕ) : Page := content (walk t pagelevels x).1 (walk t pagelevels x).2

/-- **The map that the tables hold.** -/
def pageMap (t : Tables) : PageMap := fun n => contentAt t n.start

/-! ## Pages and addresses -/

variable {t t' : Tables} {N L c x : ℕ} {e : PageEntry} {fm fm' : FrameManager}

theorem PageNumber.start_lt (n : PageNumber) : n.start < 2 ^ pagebits :=
  calc n.val * pagesize 1 < 2 ^ pagebits / pagesize 1 * pagesize 1 :=
        Nat.mul_lt_mul_of_pos_right n.isLt (pagesize_pos 1)
    _ = 2 ^ pagebits := by decide

/-- The pages of a page of level `N`. -/
theorem inRange_iff (hN : N ≤ pagelevels) (hal : c % pagesize N = 0) (n : PageNumber) :
    n.inRange c (pagesize N) ↔ index N n.start = index N c := by
  have hal' : c % 2 ^ pagebits % pagesize N = 0 := by
    rwa [Nat.mod_mod_of_dvd _ (pagesize_dvd_pagebits hN)]
  rw [PageNumber.inRange, index, index, Nat.mod_eq_of_lt n.start_lt,
    div_eq_iff_of_aligned (pagesize_pos N) hal']

theorem index_pageOf (a : ℕ) : index 1 (pageOf a).start = index 1 a := by
  rw [index, Nat.mod_eq_of_lt (PageNumber.start_lt _)]
  exact Nat.mul_div_cancel _ (pagesize_pos 1)

theorem pageMap_pageOf (t : Tables) (a : ℕ) : pageMap t (pageOf a) = contentAt t a := by
  rw [pageMap, contentAt, contentAt, walk_of_index (index_pageOf a)]

/-- **An update of a page of level `N`**, address by address. -/
theorem pageMap_eq_set_iff (h1 : 1 ≤ N) (hN : N ≤ pagelevels) (hal : c % pagesize N = 0)
    {f : Page → Page} : pageMap t' = (pageMap t).set c (pagesize N) f ↔
      (∀ x, index N x = index N c → contentAt t' x = f (contentAt t x)) ∧
      ∀ x, index N x ≠ index N c → contentAt t' x = contentAt t x := by
  constructor
  · intro h
    have hx : ∀ x, contentAt t' x = if index N x = index N c then f (contentAt t x)
        else contentAt t x := by
      intro x
      have := congrFun h (pageOf x)
      rwa [PageMap.set, pageMap_pageOf, pageMap_pageOf, if_congr (inRange_iff hN hal _) rfl rfl,
        index_mono le_rfl h1 (index_pageOf x)] at this
    exact ⟨fun x hi => (hx x).trans (if_pos hi), fun x hi => (hx x).trans (if_neg hi)⟩
  · rintro ⟨hin, hout⟩
    funext n
    rw [PageMap.set, if_congr (inRange_iff hN hal n) rfl rfl]
    split
    · rename_i hi
      exact hin _ hi
    · rename_i hi
      exact hout _ hi

/-! ## Entries -/

variable {present : Bool} {pma type : PageEntry}

theorem entered_available (hp : present = false) (hpma : pma = 0) :
    entered N present pma type = .available := by
  rw [entered, hp, hpma, if_neg Bool.false_ne_true, if_neg (by decide), if_neg (by decide),
    if_pos rfl]

theorem content_zero (N : ℕ) : content N 0 = .available := entered_available (by decide) (by decide)

theorem content_of_present (h : e.present = true) : content N e = .mapped N e.addr (flags e) := by
  rw [content, entered, if_pos h]

/-- A lazily mapped page. -/
theorem entered_eq_lazy {type' : PageEntry} : entered N present pma type = .reserved L .lazy type' ↔
      present = false ∧ pma = lazyPage ∧ L = N ∧ type' = type := by
  unfold entered
  split
  · rename_i hp
    simp [hp]
  · rename_i hp
    split
    · rename_i hlazy
      simp [hp, hlazy, eq_comm]
    · rename_i hlazy
      simp only [hlazy, false_and, and_false, iff_false]
      split
      · simp
      · split
        · simp
        · simp

/-- **The status that `test` finds is that of the page.** -/
theorem status_content (N : ℕ) (e : PageEntry) : (content N e).status = status e := by
  unfold content entered status
  split
  · rfl
  · by_cases hlazy : e.addr = lazyPage
    · rw [if_pos hlazy, if_pos (Or.inl hlazy)]
      rfl
    · by_cases hguard : e.addr = guardPage
      · rw [if_neg hlazy, if_pos hguard, if_pos (Or.inr hguard)]
        rfl
      · rw [if_neg hlazy, if_neg hguard, if_neg (not_or.mpr ⟨hlazy, hguard⟩)]
        split
        · rfl
        · rfl

theorem and_not_mask {a : PageEntry} (h : a &&& ~~~ADDR = 0) : a &&& ~~~(P ||| PS ||| ADDR) = 0 :=
  and_eq_zero_of_le h (by decide)

theorem flags_leaf (hpma : pma &&& ~~~ADDR = 0) (htype : type &&& (P ||| PS ||| ADDR) = 0) :
    flags (leaf N present pma type) = type := by
  have h2 : type &&& ~~~(P ||| PS ||| ADDR) = type :=
    and_eq_self_of_and_not (by rwa [BitVec.not_not])
  have h3 : pageBit N &&& ~~~(P ||| PS ||| ADDR) = 0 := by
    unfold pageBit
    split
    · decide
    · decide
  have h4 : (if present then P else 0) &&& ~~~(P ||| PS ||| ADDR) = 0 := by
    cases present
    · decide
    · decide
  rw [flags, leaf, or_and, or_and, or_and, and_not_mask hpma, h2, h3, h4]
  simp

theorem flags_faulted (hpma : pma &&& ~~~ADDR = 0) (e : PageEntry) :
    flags (pma ||| e &&& ~~~ADDR ||| P) = flags e := by
  rw [flags, or_and, or_and, and_not_mask hpma, BitVec.and_assoc,
    show ~~~ADDR &&& ~~~(P ||| PS ||| ADDR) = ~~~(P ||| PS ||| ADDR) by decide,
    show P &&& ~~~(P ||| PS ||| ADDR) = 0 by decide, flags]
  simp

/-- The entry that `map` writes. -/
theorem content_leaf (hpma : pma &&& ~~~ADDR = 0) (htype : type &&& (P ||| PS ||| ADDR) = 0) :
    content N (leaf N present pma type) = entered N present pma type := by
  rw [content, present_leaf hpma htype, addr_leaf hpma htype, flags_leaf hpma htype]

/-- The entry that `unmap1` leaves. -/
theorem content_clearP (he : IsFrame e.addr) : content N (e &&& ~~~P) = .unmapped N e.addr := by
  obtain ⟨hzero, hlazy, hguard⟩ := he
  rw [content, present_clearP, addr_clearP, entered, if_neg Bool.false_ne_true, if_neg hlazy,
    if_neg hguard, if_neg hzero]

/-! ## What the entries of a run are like -/

/-- The entry at the end of a walk: one that is in use is the entry of a page of level 1 or 2, and
one that is present has a frame. -/
structure Good (N : ℕ) (e : PageEntry) : Prop where
  frame : e.present = true → IsFrame e.addr
  page : status e ≠ .available → N ≤ 2 ∧ isPage N e = true

def Inv (t : Tables) : Prop := ∀ x, Good (walk t pagelevels x).1 (walk t pagelevels x).2

theorem good_zero (N : ℕ) : Good N 0 :=
  ⟨fun h => absurd h (by decide), fun h => absurd status_zero h⟩

theorem isPage_leaf (h1 : 1 ≤ N) (hN : N < pagelevels) :
    isPage N (leaf N present pma type) = true := by
  have hPS : PS.getLsbD 7 = true := by decide
  rcases eq_or_lt_of_le h1 with rfl | hlt
  · exact isPage_one _
  · simp [isPage, hN, leaf, large, pageBit, hlt, hPS]

theorem good_leaf (hN : N = 1 ∨ N = 2) (hpma : pma &&& ~~~ADDR = 0)
    (htype : type &&& (P ||| PS ||| ADDR) = 0) (hframe : present = true → IsFrame pma) :
    Good N (leaf N present pma type) := by
  have hlt : N < pagelevels := by rcases hN with rfl | rfl <;> decide
  refine ⟨fun h => ?_, fun _ => ⟨by omega, isPage_leaf (by omega) hlt⟩⟩
  rw [present_leaf hpma htype] at h
  rw [addr_leaf hpma htype]
  exact hframe h

theorem isPage_clearP (h : isPage N e = true) : isPage N (e &&& ~~~P) = true := by
  have hmask : (~~~P).getLsbD 7 = true := by decide
  rw [isPage, large, BitVec.getLsbD_and, hmask, Bool.and_true]
  exact h

/-- An entry that is present is not available. -/
theorem status_of_present (h : e.present = true) : status e = .mapped := by
  rw [status, if_pos h]

theorem present_of_mapped (h : status e = .mapped) : e.present = true := by
  by_contra hp
  rw [status, if_neg hp] at h
  split at h
  · cases h
  split at h
  · cases h
  · cases h

theorem Good.clearP (h : Good N e) (hp : e.present = true) : Good N (e &&& ~~~P) := by
  obtain ⟨hN, hpage⟩ := h.page (by rw [status_of_present hp]; decide)
  refine ⟨fun hc => ?_, fun _ => ⟨hN, isPage_clearP hpage⟩⟩
  rw [present_clearP] at hc
  cases hc

theorem good_faulted (hpma : pma &&& ~~~ADDR = 0) (hframe : IsFrame pma) (hN : N ≤ 2)
    (hpage : isPage N e = true) : Good N (pma ||| e &&& ~~~ADDR ||| P) :=
  ⟨fun _ => (addr_fault hpma e).symm ▸ hframe, fun _ => ⟨hN, isPage_faulted hpage⟩⟩

/-- One entry is changed. -/
theorem Inv.setPE {e' : PageEntry} (h : Inv t) (hw : walk t pagelevels c = (N, e))
    (ht : isTable N e' = false) (he : Good N e') : Inv (setPE t (N, index N c) e') := by
  intro x
  rw [walk_setPE hw (by decide) ht]
  split
  · exact he
  · exact h x

/-! ## Each operation -/

/-- The change of one entry, at the level where the walk stops. -/
theorem pageMap_setPE {e' : PageEntry} (h1 : 1 ≤ N) (hN : N ≤ pagelevels) (hal : c % pagesize N = 0)
    (hw : walk t pagelevels c = (N, e)) (ht : isTable N e' = false) {f : Page → Page}
    (hf : content N e' = f (content N e)) :
    pageMap (setPE t (N, index N c) e') = (pageMap t).set c (pagesize N) f := by
  refine (pageMap_eq_set_iff h1 hN hal).mpr ⟨fun x hx => ?_, fun x hx => ?_⟩
  · have hsame := walk_congr (congrArg Prod.fst hw) h1 hx.symm
    rw [contentAt, contentAt, walk_setPE hw (by decide) ht, if_pos hx, hsame, hw]
    exact hf
  · rw [contentAt, contentAt, walk_setPE hw (by decide) ht, if_neg hx]

theorem level_bounds (hN : N = 1 ∨ N = 2) : 1 ≤ N ∧ N < pagelevels := by
  rcases hN with rfl | rfl
  · decide
  · decide

theorem left_entered (async : Bool) (pma type : PageEntry) :
    left async (entered N false pma type) = .available := by
  rw [entered, if_neg Bool.false_ne_true]
  split
  · rfl
  · split
    · rfl
    · split
      · rfl
      · rfl

theorem unmap1_refines {async : Bool} {r : Option (ℕ × ℕ)} (h : Inv t) (hN : N = 1 ∨ N = 2)
    (hr : unmap1 N async t c = .ok (r, t')) :
    pageMap t' = (pageMap t).set c (pagesize N) (left async) ∧ Inv t' := by
  obtain ⟨h1, hlt⟩ := level_bounds hN
  obtain ⟨hal, e, hw, ⟨-, hpres, rfl⟩ | ⟨-, hpres, haddr, rfl⟩⟩ := unmap1_cases h1 hlt hr
  · have hgood : Good N e := by simpa [hw] using h c
    have hcontent := content_of_present (N := N) hpres
    cases async with
    | true =>
      have ht : isTable N (e &&& ~~~P) = false := isTable_eq_false_of_not_present (present_clearP e)
      refine ⟨pageMap_setPE h1 hlt.le hal hw ht ?_, h.setPE hw ht (hgood.clearP hpres)⟩
      rw [hcontent, content_clearP (hgood.frame hpres)]
      rfl
    | false =>
      refine ⟨(pageMap_eq_set_iff h1 hlt.le hal).mpr ⟨fun x hx => ?_, fun x _ => rfl⟩, h⟩
      have hsame : contentAt t x = content N e := by
        rw [contentAt, walk_congr (congrArg Prod.fst hw) h1 hx.symm, hw]
      show contentAt t x = _
      rw [hsame, hcontent]
      rfl
  · refine ⟨pageMap_setPE h1 hlt.le hal hw (isTable_zero N) ?_,
      h.setPE hw (isTable_zero N) (good_zero N)⟩
    rw [content_zero, content, hpres, left_entered]

theorem unmap2_refines (h : Inv t) (hN : N = 1 ∨ N = 2) (hal : c % pagesize N = 0)
    (hwin : inWindow t N c = true) : pageMap (unmap2 t (N, index N c)).2 =
      (pageMap t).set c (pagesize N) (fun _ => .available) ∧ Inv (unmap2 t (N, index N c)).2 := by
  obtain ⟨h1, hlt⟩ := level_bounds hN
  have hwalk : ∀ x, walk (setPE t (N, index N c) 0) pagelevels x =
      if index N x = index N c then (N, 0) else walk t pagelevels x :=
    walk_setPE_of_le (of_decide_eq_true hwin) h1 hlt.le (isTable_zero N)
  refine ⟨(pageMap_eq_set_iff h1 hlt.le hal).mpr ⟨fun x hx => ?_, fun x hx => ?_⟩, fun x => ?_⟩
  · rw [unmap2, contentAt, hwalk, if_pos hx]
    exact content_zero N
  · rw [unmap2, contentAt, contentAt, hwalk, if_neg hx]
  · rw [unmap2, hwalk]
    split
    · exact good_zero N
    · exact h x

theorem contentAt_eq (hw : walk t pagelevels c = (N, e)) : contentAt t c = content N e := by
  rw [contentAt, hw]

/-- A lazily mapped page is the entry of a page, and gets its frame. -/
theorem fault_lazy (h : Inv t) (hpage : pageMap t (pageOf c) = .reserved N .lazy type) :
    ∃ e, walk t pagelevels c = (N, e) ∧ e.present = false ∧ isPage N e = true ∧ e.addr = lazyPage ∧
      N ≤ 2 ∧ type = flags e := by
  obtain ⟨⟨M, e⟩, hw⟩ : ∃ p, walk t pagelevels c = p := ⟨_, rfl⟩
  rw [pageMap_pageOf, contentAt_eq hw, content] at hpage
  obtain ⟨hpres, haddr, rfl, htype⟩ := entered_eq_lazy.mp hpage
  have hgood : Good N e := by simpa [hw] using h c
  obtain ⟨hN, hisPage⟩ := hgood.page (by simp [status, hpres, haddr])
  exact ⟨e, hw, hpres, hisPage, haddr, hN, htype⟩

theorem fault_refines {b : Bool} (h : Inv t) (hfm : Allowed (.fault c fm))
    (hr : fault t c fm = .ok (b, t', fm')) : pageMap t' = (pageMap t).step (.fault c fm) ∧
      Inv t' := by
  rw [PageMap.step]
  split
  · rename_i N type hlazy
    obtain ⟨e, hw, hpres, hpage, haddr, hN, rfl⟩ := fault_lazy h hlazy
    have h1 := one_le_walk t (show 1 ≤ pagelevels by decide) c
    have hlevel : N ≤ pagelevels := hN.trans (by decide)
    rw [hw] at h1
    rw [fault, hw] at hr
    dsimp only at hr
    rw [if_pos ⟨hpres, hpage, haddr⟩] at hr
    split at hr
    · cases hr
    rename_i pma fm₁ halloc
    split at hr
    · cases hr
    rename_i htop
    obtain ⟨-, heq⟩ := Prod.mk.inj (Except.ok.inj hr)
    obtain ⟨rfl, -⟩ := Prod.mk.inj heq
    obtain ⟨hbits, hframe⟩ := hfm N pma fm₁ halloc htop
    -- the page starts below the address that faulted
    have hidx : index N (c / pagesize N * pagesize N) = index N c :=
      index_congr hlevel (Nat.mul_div_cancel _ (pagesize_pos N))
    have hw' := walk_congr (congrArg Prod.fst hw) h1 hidx.symm
    have ht := isTable_eq_false_of_isPage (isPage_faulted (a := BitVec.ofNat 64 pma) hpage)
    rw [halloc]
    refine ⟨?_, h.setPE hw ht (good_faulted hbits hframe hN hpage)⟩
    rw [← hidx]
    refine pageMap_setPE h1 hlevel (Nat.mul_mod_left _ _) (hw'.trans hw) ht ?_
    rw [content_of_present (present_or_P _), addr_fault hbits, flags_faulted hbits]
  · rename_i hlazy
    rcases fault_spec hr with ⟨rfl, -⟩ | ⟨N, e, pma, hw, hpres, -, haddr, -⟩
    · exact ⟨rfl, h⟩
    · refine absurd ?_ (hlazy N (flags e))
      rw [pageMap_pageOf, contentAt_eq hw]
      exact entered_eq_lazy.mpr ⟨hpres, haddr, rfl, rfl⟩

/-- The root entry above an entry. -/
theorem index_div {M : ℕ} (h1 : 1 ≤ M) (hM : M ≤ N) (x : ℕ) :
    index M x / pagetableentries ^ (N - M) = index N x := by
  induction N, hM using Nat.le_induction with
  | base => simp
  | succ N hN ih =>
    rw [Nat.succ_sub hN, pow_succ, ← Nat.div_div_eq_div_mul, ih, index_succ (h1.trans hN)]

theorem inRange_root {i n : ℕ} (h : i + n ≤ pagetableentries) (k : PageNumber) :
    k.inRange (i * pagesize pagelevels) (n * pagesize pagelevels) ↔
      i ≤ index pagelevels k.start ∧ index pagelevels k.start < i + n := by
  have hlt := k.start_lt
  rw [PageNumber.inRange, index]
  simp only [show pagesize pagelevels = 2 ^ 39 by decide, show 2 ^ pagebits = 2 ^ 48 by decide,
    show pagetableentries = 512 from rfl] at *
  omega

/-- **`clearAll`** empties the root entries that it walks over, and changes no other page. -/
theorem clearAll_refines {i n : ℕ} (h : Inv t) (hin : i + n ≤ pagetableentries) :
    pageMap (clearAll pagelevels i n t).2 = (pageMap t).step (.clearAll i n) ∧
      Inv (clearAll pagelevels i n t).2 := by
  have hwalk : ∀ x, walk (clearAll pagelevels i n t).2 pagelevels x =
      if i ≤ index pagelevels x ∧ index pagelevels x < i + n then (pagelevels, 0)
      else walk t pagelevels x := by
    intro x
    split
    · rename_i hx
      have hzero : (clearAll pagelevels i n t).2 pagelevels (index pagelevels x) = 0 :=
        clearAll_self n hx.1 hx.2
      rw [show pagelevels = 3 + 1 from rfl] at hzero ⊢
      rw [walk, hzero, isTable_zero, if_neg Bool.false_ne_true]
    · rename_i hx
      refine walk_ext fun M hM =>
        (clearAll_spec pagelevels i n t).2 (M, index M x) fun j h1 h2 hb => ?_
      have hroot : index M x / pagetableentries ^ (pagelevels - M) = j := hb.2.2
      rw [index_div hb.1 hM] at hroot
      exact hx (hroot.symm ▸ ⟨h1, h2⟩)
  refine ⟨funext fun k => ?_, fun x => ?_⟩
  · rw [PageMap.step, PageMap.set, if_congr (inRange_root hin k) rfl rfl, pageMap, contentAt, hwalk]
    split
    · exact content_zero _
    · rfl
  · rw [hwalk]
    split
    · exact good_zero _
    · exact h x

/-! ## `map` -/

/-- A larger page has other pages of level `N`. -/
theorem exists_sibling (h1 : 1 ≤ N) (hL : N < L) (hLK : L ≤ pagelevels) (c : ℕ) :
    ∃ x, index L x = index L c ∧ index N x ≠ index N c := by
  obtain ⟨j, hj⟩ : ∃ j, index N c = j := ⟨_, rfl⟩
  have hup : index (N + 1) c = j / pagetableentries := by rw [index_succ h1, hj]
  have hlt := index_lt (N + 1) c (by omega)
  have hB : 2 ^ pagebits / pagesize N = 2 ^ pagebits / pagesize (N + 1) * pagetableentries := by
    have hdvd := pagesize_dvd_pagebits (N := N + 1) (by omega)
    have hstep : pagesize (N + 1) = pagesize N * pagetableentries := by
      rw [pagesize, pagesize, pagetableentries, ← pow_add]
      congr 1
      simp only [pagesizebits]
      rw [show N + 1 - 1 = N - 1 + 1 by omega, Nat.succ_mul, Nat.add_assoc]
    obtain ⟨k, hk⟩ := hdvd
    rw [hk, Nat.mul_div_cancel_left _ (pagesize_pos _), hstep, mul_assoc,
      Nat.mul_div_cancel_left _ (pagesize_pos _), mul_comm]
  rw [hup] at hlt
  -- the next entry of the same table, or its first one
  obtain ⟨j', hne, hdiv, hj'⟩ : ∃ j', j' ≠ j ∧ j' / pagetableentries = j / pagetableentries ∧
      j' < 2 ^ pagebits / pagesize N := by
    refine ⟨j / pagetableentries * pagetableentries + (j + 1) % pagetableentries, ?_, ?_, ?_⟩
    all_goals rw [show pagetableentries = 512 from rfl] at *
    all_goals omega
  have hidx : index N (j' * pagesize N) = j' := by
    rw [index_eq (by omega), Nat.mul_div_cancel _ (pagesize_pos N), Nat.mod_eq_of_lt hj']
  refine ⟨j' * pagesize N, index_mono (by omega) (show N + 1 ≤ L from hL) ?_, ?_⟩
  · rw [index_succ h1, index_succ h1, hidx, hdiv, hj]
  · rwa [hidx, hj]

/-- Where nothing is present, `Apart` is about the page that the walk stops at. -/
theorem apart_iff {A : PageMap} {a fl : PageEntry} (h : A (pageOf c) = entered L false a fl) :
    A.Apart (.map N present c pma type fm) ↔ entered L false a fl = .available ∨ L ≤ N := by
  rw [PageMap.Apart, h, entered, if_neg Bool.false_ne_true]
  by_cases hlazy : a = lazyPage
  · simp [hlazy]
  · by_cases hguard : a = guardPage
    · rw [if_neg hlazy, if_pos hguard]
      simp
    · by_cases hzero : a = 0
      · rw [if_neg hlazy, if_neg hguard, if_pos hzero]
        simp
      · rw [if_neg hlazy, if_neg hguard, if_neg hzero]
        simp

/-- **`map<N>` changes exactly its own pages** if and only if it is not called inside a larger page
that is reserved or unmapped. -/
theorem map_refines_iff (hN : N = 1 ∨ N = 2) (htype : type &&& (P ||| PS ||| ADDR) = 0)
    (hr : map N present t c pma type fm = .ok (true, t', fm')) :
    pageMap t' = (pageMap t).step (.map N present c pma type fm) ↔
      (pageMap t).Apart (.map N present c pma type fm) := by
  obtain ⟨h1, hlt⟩ := level_bounds hN
  obtain ⟨hal, hpma, hm⟩ := map_spec h1 hlt hr
  obtain ⟨⟨L, e⟩, hw⟩ : ∃ p, walk t pagelevels c = p := ⟨_, rfl⟩
  have hpres : e.present = false := by simpa [hw] using hm.missing
  have hL1 := one_le_walk t (show 1 ≤ pagelevels by decide) c
  have hLK := walk_le t pagelevels c
  rw [hw] at hL1 hLK
  have hpage : pageMap t (pageOf c) = content L e := by rw [pageMap_pageOf, contentAt_eq hw]
  have hstep : (pageMap t).step (.map N present c pma type fm) =
      (pageMap t).set c (pagesize N) fun _ => entered N present pma type := by
    rw [PageMap.step]
    split
    · rename_i hmapped
      rw [hpage, content, hpres] at hmapped
      exact absurd (congrArg (left true) hmapped) (by rw [left_entered]; exact Page.noConfusion)
    · rfl
  have hin : ∀ x, index N x = index N c → contentAt t' x = entered N present pma type := by
    intro x hx
    rw [contentAt, hm.page x hx]
    exact content_leaf hpma htype
  have hside : ∀ x, index L x = index L c → contentAt t x = content L e := fun x hx =>
    contentAt_eq ((walk_congr (congrArg Prod.fst hw) hL1 hx.symm).trans hw)
  rw [hstep, pageMap_eq_set_iff h1 hlt.le hal, and_iff_right hin,
    apart_iff (hpage.trans (by rw [content, hpres])), ← hpres]
  constructor
  · intro hout
    by_contra hap
    obtain ⟨hused, hbig⟩ := not_or.mp hap
    obtain ⟨x, hxL, hxN⟩ := exists_sibling h1 (not_le.mp hbig) hLK c
    have hx' : contentAt t' x = .available := by
      rw [contentAt, hm.empty (by rw [hw]; exact not_le.mp hbig) (by rw [hw]; exact hxL) hxN]
      exact content_zero _
    exact hused ((hside x hxL).symm.trans ((hout x hxN).symm.trans hx'))
  · rintro hap x hx
    rcases hm.same_or_empty x hx with hsame | ⟨hidx, hzero⟩
    · rw [contentAt, contentAt, hsame]
    · rw [hw] at hidx
      rw [hside x hidx, contentAt, hzero, content_zero]
      rcases hap with havail | hle
      · exact havail.symm
      · exact absurd (index_mono hL1 hle hidx) hx

/-- The entries after `map`. -/
theorem Inv.mapped (h : Inv t) (ha : Allowed (.map N present c pma type fm))
    (hr : map N present t c pma type fm = .ok (true, t', fm')) : Inv t' := by
  obtain ⟨hN, htype, hframe⟩ := ha
  obtain ⟨h1, hlt⟩ := level_bounds hN
  obtain ⟨-, hpma, hm⟩ := map_spec h1 hlt hr
  intro x
  by_cases hx : index N x = index N c
  · rw [hm.page x hx]
    exact good_leaf hN hpma htype hframe
  · rcases hm.same_or_empty x hx with hsame | ⟨-, hzero⟩
    · rw [hsame]
      exact h x
    · rw [hzero]
      exact good_zero _

/-! ## Runs -/

/-- **One operation**: it does to the map what it is for, unless it forgets a larger page. -/
theorem step_refines {a : Action} (h : Inv t) (ha : Allowed a) (hstep : step t a = some t') :
    (pageMap t' = (pageMap t).step a ↔ (pageMap t).Apart a) ∧ Inv t' := by
  cases a with
  | map N present c pma type fm =>
    obtain ⟨⟨b, t₁, fm₁⟩, hr, rfl⟩ := Option.map_eq_some_iff.mp hstep
    have hr := Fault.toOption_eq_some hr
    cases b with
    | true => exact ⟨map_refines_iff ha.1 ha.2.1 hr, h.mapped ha hr⟩
    | false =>
      obtain ⟨h1, hlt⟩ := level_bounds ha.1
      obtain ⟨hwalk, hpres, -⟩ := map_false h1 hlt hr
      have hsame : pageMap t₁ = pageMap t := funext fun n => by
        rw [pageMap, pageMap, contentAt, contentAt, hwalk]
      have hpage := (pageMap_pageOf t c).trans (content_of_present hpres)
      refine ⟨iff_of_true ?_ ?_, fun x => hwalk x ▸ h x⟩
      · rw [PageMap.step, hpage]
        exact hsame
      · rw [PageMap.Apart, hpage]
        trivial
  | unmap1 N async c =>
    obtain ⟨⟨r, t₁⟩, hr, rfl⟩ := Option.map_eq_some_iff.mp hstep
    exact (unmap1_refines h ha (Fault.toOption_eq_some hr)).imp_left fun heq =>
      iff_of_true heq trivial
  | unmap2 N c =>
    rw [step] at hstep
    split at hstep
    · rename_i hc
      cases hstep
      exact (unmap2_refines h ha hc.1 hc.2).imp_left fun heq => iff_of_true heq trivial
    · cases hstep
  | fault c fm =>
    obtain ⟨⟨b, t₁, fm₁⟩, hr, rfl⟩ := Option.map_eq_some_iff.mp hstep
    exact (fault_refines h ha (Fault.toOption_eq_some hr)).imp_left fun heq =>
      iff_of_true heq trivial
  | clearAll i n =>
    cases hstep
    exact (clearAll_refines h ha).imp_left fun heq => iff_of_true heq trivial

/-- **A run does to the map what its operations are for.** -/
theorem run_refines {as : List Action} {t₀ : Tables} (h : Inv t₀) (hrun : run step t₀ as = some t)
    (hallow : Guarded step (fun _ a => Allowed a) t₀ as)
    (hapart : Guarded step (fun t a => (pageMap t).Apart a) t₀ as) :
    pageMap t = as.foldl PageMap.step (pageMap t₀) := by
  induction as generalizing t₀ with
  | nil =>
    obtain rfl := run_nil.mp hrun
    rfl
  | cons a as ih =>
    obtain ⟨t₁, hstep, hrest⟩ := run_cons.mp hrun
    obtain ⟨hiff, h₁⟩ := step_refines h hallow.1 hstep
    rw [List.foldl_cons, ← hiff.mpr hapart.1]
    exact ih h₁ hrest (hallow.2 t₁ hstep) (hapart.2 t₁ hstep)

/-- Nothing is mapped. -/
def Empty (t : Tables) : Prop := ∀ x, status (walk t pagelevels x).2 = .available

theorem Empty.inv (h : Empty t) : Inv t := by
  refine fun x => ⟨fun hp => ?_, fun hx => absurd (h x) hx⟩
  have hx := h x
  rw [status_of_present hp] at hx
  cases hx

/-- A frame of each size can be had. -/
def FramesAvailable (fm : FrameManager) : Prop :=
  ∀ N, N = 1 ∨ N = 2 → ∃ pma fm', fm.allocFrame N = .ok (pma, fm') ∧ pma ≠ topaddr

theorem fault_iff (h : Inv t) (hfm : FramesAvailable fm) :
    (∃ t' fm', fault t c fm = .ok (true, t', fm')) ↔
      ∃ N type, pageMap t (pageOf c) = .reserved N .lazy type := by
  constructor
  · rintro ⟨t', fm', hr⟩
    obtain ⟨⟨N, e⟩, hw⟩ : ∃ p, walk t pagelevels c = p := ⟨_, rfl⟩
    rw [fault, hw] at hr
    dsimp only at hr
    split at hr
    · rename_i hlazy
      refine ⟨N, flags e, ?_⟩
      rw [pageMap_pageOf, contentAt_eq hw]
      exact entered_eq_lazy.mpr ⟨hlazy.1, hlazy.2.2, rfl, rfl⟩
    · cases hr
  · rintro ⟨N, type, hlazy⟩
    obtain ⟨e, hw, hpres, hpage, haddr, hN, -⟩ := fault_lazy h hlazy
    have h1 := one_le_walk t (show 1 ≤ pagelevels by decide) c
    rw [hw] at h1
    obtain ⟨pma, fm', halloc, htop⟩ := hfm N (by dsimp only at h1; omega)
    rw [fault, hw]
    simp only [hpres, hpage, haddr, and_self, if_true, halloc, if_neg htop]
    exact ⟨_, _, rfl⟩

/-- **The page tables are a map of pages, exactly where no larger page is forgotten.**  In every
state that a sequence of operations reaches: each further operation changes the map as it should if
and only if it is not a `map<N>` inside a larger page that is reserved or unmapped; `vtop` is the
base of the page plus the offset; `test` reports the status; and `fault` succeeds for lazily mapped
pages.  If no operation so far was such a `map<N>`, the map is what the operations make of the first
one. -/
theorem paging_refines_iff {t₀ : Tables} (h₀ : Empty t₀) {as : List Action}
    (hrun : run step t₀ as = some t) (hg : Guarded step (fun _ a => Allowed a) t₀ as) :
    (∀ a t', Allowed a → step t a = some t' →
      (pageMap t' = (pageMap t).step a ↔ (pageMap t).Apart a)) ∧
    (∀ a N base type, pageMap t (pageOf a) = .mapped N base type →
      vtop t pagelevels a = .ok (base.toNat + a % pagesize N)) ∧
    (∀ a s, test t a s ≠ 0 ↔ (pageMap t (pageOf a)).status ∈ s) ∧
    (∀ a fm, FramesAvailable fm → ((∃ t' fm', fault t a fm = .ok (true, t', fm')) ↔
      ∃ N type, pageMap t (pageOf a) = .reserved N .lazy type)) ∧
    (Guarded step (fun t a => (pageMap t).Apart a) t₀ as →
      pageMap t = as.foldl PageMap.step (pageMap t₀)) := by
  have h : Inv t := invariant_of_guarded (fun h ha hs => (step_refines h ha hs).2) h₀.inv hg hrun
  refine ⟨fun a t' ha hs => (step_refines h ha hs).1, fun a N base type hpage => ?_, fun a s => ?_,
    fun a fm hfm => fault_iff h hfm, run_refines h₀.inv hrun hg⟩
  · obtain ⟨⟨M, e⟩, hw⟩ : ∃ p, walk t pagelevels a = p := ⟨_, rfl⟩
    rw [pageMap_pageOf, contentAt_eq hw] at hpage
    have hpres := present_of_mapped ((status_content M e).symm.trans (congrArg Page.status hpage))
    rw [content_of_present hpres] at hpage
    obtain ⟨rfl, rfl, -⟩ := Page.mapped.inj hpage
    rw [vtop_spec hw, if_pos ⟨by decide, hpres⟩]
  · rw [pageMap_pageOf, contentAt, status_content, test]
    dsimp only
    split
    · rename_i hs
      simp [hs, (pagesize_pos _).ne']
    · rename_i hs
      simp [hs]

/-! ## Two runs -/

theorem empty_userSpace : Empty Vm.userSpace.t := fun x => (Vm.walk_userSpace x).symm ▸ status_zero

/-- A page of 2 MB is mapped lazily, and the last page of 4 KB is mapped, above it. -/
def sideBySide : List Action :=
  [.map 2 false (2 ^ 47 - 2 ^ 22) lazyPage data Vm.noFrames,
    .map 1 true (2 ^ 47 - 4096) 0x5000 data Vm.noFrames]

theorem paging_refines_sideBySide : ∃ t, run step Vm.userSpace.t sideBySide = some t ∧
    pageMap t (pageOf (2 ^ 47 - 2 ^ 22)) = .reserved 2 .lazy data ∧
    pageMap t (pageOf (2 ^ 47 - 1)) = .mapped 1 0x5000 data ∧
    vtop t pagelevels (2 ^ 47 - 1) = .ok 0x5fff := by
  have hg : Guarded step (fun _ a => Allowed a) Vm.userSpace.t sideBySide :=
    ⟨⟨Or.inr rfl, by decide, by decide⟩,
      fun _ _ => ⟨⟨Or.inl rfl, by decide, by decide⟩, fun _ _ => trivial⟩⟩
  obtain ⟨t, hrun, hlazy, hmapped⟩ : ∃ t, run step Vm.userSpace.t sideBySide = some t ∧
      pageMap t (pageOf (2 ^ 47 - 2 ^ 22)) = .reserved 2 .lazy data ∧
      pageMap t (pageOf (2 ^ 47 - 1)) = .mapped 1 0x5000 data := exists_run (by decide +kernel)
  exact ⟨t, hrun, hlazy, hmapped, (paging_refines_iff empty_userSpace hrun hg).2.1 _ _ _ _ hmapped⟩

/-- A page of 2 MB is mapped lazily, then a page of 4 KB inside it. -/
def inside (fm : FrameManager) : List Action :=
  [.map 2 false (2 ^ 47 - 2 ^ 22) lazyPage data Vm.noFrames,
    .map 1 true (2 ^ 47 - 2 ^ 22) 0x5000 data fm]

/-- **A larger page is forgotten**: of 512 reserved pages one is mapped, and the next one is not
reserved any more. -/
theorem reserved_page_forgotten : ∃ fm t₁ t₂, HasFrames 16 fm ∧ Empty Vm.userSpace.t ∧
    Guarded step (fun _ a => Allowed a) Vm.userSpace.t (inside fm) ∧
    run step Vm.userSpace.t [.map 2 false (2 ^ 47 - 2 ^ 22) lazyPage data Vm.noFrames] = some t₁ ∧
    run step Vm.userSpace.t (inside fm) = some t₂ ∧
    pageMap t₁ (pageOf (2 ^ 47 - 2 ^ 22 + 4096)) = .reserved 2 .lazy data ∧
    pageMap t₂ (pageOf (2 ^ 47 - 2 ^ 22 + 4096)) = .available := by
  obtain ⟨fm, hfm⟩ := exists_hasFrames
  obtain ⟨t₁, hrun, hw, hlazy⟩ : ∃ t₁, run step Vm.userSpace.t
      [.map 2 false (2 ^ 47 - 2 ^ 22) lazyPage data Vm.noFrames] = some t₁ ∧
      walk t₁ pagelevels (2 ^ 47 - 2 ^ 22) = (2, leaf 2 false lazyPage data) ∧
      pageMap t₁ (pageOf (2 ^ 47 - 2 ^ 22 + 4096)) = .reserved 2 .lazy data :=
        exists_run (by decide +kernel)
  obtain ⟨t₂, fm', hmap, -⟩ := map_returns (R := HasFrames) (m := 0) HasFrames.table
    le_rfl (by decide) hw (by decide) (by decide) (by decide) (show 0x5000 &&& ~~~ADDR =
      0 by decide) true data (hfm.mono (by decide))
  obtain ⟨-, -, hm⟩ := map_spec le_rfl (by decide) hmap
  refine ⟨fm, t₁, t₂, hfm, empty_userSpace, ⟨⟨Or.inr rfl, by decide, by decide⟩, fun _ _ =>
    ⟨⟨Or.inl rfl, by decide, by decide⟩, fun _ _ => trivial⟩⟩, hrun, ?_, hlazy, ?_⟩
  · obtain ⟨t, hstep, hnil⟩ := run_cons.mp hrun
    obtain rfl := run_nil.mp hnil
    refine run_cons.mpr ⟨t, hstep, run_cons.mpr ⟨t₂, ?_, run_nil.mpr rfl⟩⟩
    rw [step, hmap]
    rfl
  · rw [pageMap_pageOf, contentAt, hm.empty (by rw [hw]; decide) (by rw [hw]; decide) (by decide)]
    exact content_zero _

end Paging

end Kos
