import KosKernel.Machine.SpinLock
import KosKernel.Lib.Runs
import Mathlib.Data.Finset.Card
import Mathlib.Data.List.Pairwise

/-!
# Kernel/Shootdown — page invalidations and the cores that still have to see them

The invalidation data of an `AddressSpace` (`kernel/AddressSpace.h`): `activeCores` and the list
`invList`, whose last element is a sentinel that the next `unmap` fills.  Each core keeps a pointer
`PI` into the list, and an item is finished — its page entry cleared, its frame released, its range
given back — when its `count` reaches zero.

Nodes are named by the number of their allocation, so a pointer to a deleted node is never equal to
a pointer to a live one.  What finishing an item does is a parameter `complete` on an arbitrary
state: the protocol does not depend on it, and between two `ulock` sections that state may change in
any way.
-/

namespace Kos

open Function Runs

/-! ## The code -/

/-- `struct PageInvalidation`; `pentry` is a page level with an index in the recursive window. -/
structure PageInvalidation where
  id : ℕ
  pentry : ℕ × ℕ
  vma : ℕ
  size : ℕ
  count : ℕ
  alloc : Bool
  deriving DecidableEq

/-- `activeCores` and `invList`: the items in order, and the sentinel `invList.back()`. -/
structure InvData where
  activeCores : ℕ
  posted : List PageInvalidation
  back : ℕ
  deriving DecidableEq

namespace PageInvalidation

/-- `pi->count -= 1`. -/
def dec (it : PageInvalidation) : PageInvalidation := { it with count := it.count - 1 }

/-- An item without its count. -/
def key (it : PageInvalidation) : PageInvalidation := { it with count := 0 }

end PageInvalidation

namespace InvData

variable {ρ : Type} (complete : ρ → PageInvalidation → ρ)

/-- The `while` loop of `runInvalidation` over the nodes from `pi` up to the sentinel. -/
def invalidateLoop : List PageInvalidation → ρ → Except Fault (List PageInvalidation × ρ)
  | [], r => .ok ([], r)
  | it :: its, r =>
    if it.count = 0 then .error .kassert
    else if it.dec.count = 0 then invalidateLoop its (complete r it.dec)
    else (invalidateLoop its r).map fun (its', r') => (it.dec :: its', r')

/-- `runInvalidation`; a pointer that is not to a node of the list is dangling. -/
def runInvalidation (d : InvData) (r : ρ) (pi : ℕ) : Except Fault (InvData × ρ) :=
  if pi = d.back ∨ pi ∈ d.posted.map (·.id) then
    (invalidateLoop complete (d.posted.dropWhile (·.id ≠ pi)) r).map fun (its, r') =>
      ({ d with posted := d.posted.takeWhile (·.id ≠ pi) ++ its }, r')
  else .error .outOfBounds

/-- The `ulock` section of `unmapPageRegion`: fill the sentinel and push a new one, unless only this
core is active. -/
def post (d : InvData) (pentry : ℕ × ℕ) (vma size : ℕ) (alloc : Bool) : InvData :=
  if d.activeCores > 1 then { d with
    posted := d.posted ++ [{ id := d.back, pentry, vma, size, count := d.activeCores, alloc }]
    back := d.back + 1 }
  else d

/-! ### What `runInvalidation` computes -/

/-- What is left of an item when a core walks the list from `pi`: items before `pi` are not visited,
and an item whose count reaches zero is removed. -/
def passed (pi : ℕ) (it : PageInvalidation) : Option PageInvalidation :=
  if it.id < pi then some it else if it.count = 1 then none else some it.dec

variable {pi : ℕ}

theorem id_passed {it it' : PageInvalidation} (h : passed pi it = some it') : it'.id = it.id := by
  unfold passed at h
  split at h
  · exact (Option.some.inj h) ▸ rfl
  · split at h
    · cases h
    · exact (Option.some.inj h) ▸ rfl

/-- The items that such a walk finishes, in order. -/
def finished (pi : ℕ) (its : List PageInvalidation) : List PageInvalidation :=
  (its.filter fun it => pi ≤ it.id ∧ it.count = 1).map PageInvalidation.dec

theorem invalidateLoop_eq (its : List PageInvalidation) (r : ρ)
    (h : (∀ it ∈ its, pi ≤ it.id ∧ 0 < it.count)) :
    invalidateLoop complete its r =
      .ok (its.filterMap (passed pi), (finished pi its).foldl complete r) := by
  induction its generalizing r with
  | nil => rfl
  | cons it its ih =>
    obtain ⟨hpi, hpos⟩ := h it List.mem_cons_self
    have ih := fun r => ih r fun it' hit' => h it' (List.mem_cons_of_mem _ hit')
    rw [invalidateLoop, if_neg hpos.ne']
    by_cases h1 : it.count = 1
    · have hzero : it.dec.count = 0 := by simp [PageInvalidation.dec, h1]
      simp [hzero, ih, passed, finished, h1, hpi, not_lt.mpr hpi]
    · have hzero : it.dec.count ≠ 0 := by simp only [PageInvalidation.dec]; omega
      simp [hzero, ih, passed, finished, h1, not_lt.mpr hpi, Except.map]

variable {its : List PageInvalidation}

/-- In a sorted list, the nodes from a live pointer on are those with no smaller number. -/
theorem dropWhile_eq_filter (hs : its.Pairwise (·.id < ·.id))
    (hpi : pi ∈ its.map (·.id) ∨ ∀ it ∈ its, it.id < pi) :
    its.takeWhile (·.id ≠ pi) = its.filter (·.id < pi) ∧
      its.dropWhile (·.id ≠ pi) = its.filter (pi ≤ ·.id) := by
  induction its with
  | nil => exact ⟨rfl, rfl⟩
  | cons it its ih =>
    obtain ⟨hlt, hs⟩ := List.pairwise_cons.mp hs
    by_cases he : it.id = pi
    · -- the walk starts here
      have hge : ∀ it' ∈ its, pi ≤ it'.id := fun it' h => he ▸ (hlt it' h).le
      simp only [List.takeWhile_cons, List.dropWhile_cons, he, ne_eq, not_true_eq_false,
        decide_false, Bool.false_eq_true, if_false, List.filter_cons, lt_irrefl, le_refl,
        decide_true, if_true]
      refine ⟨(List.filter_eq_nil_iff.mpr fun it' h => ?_).symm,
        congrArg (it :: ·) (List.filter_eq_self.mpr fun it' h => ?_).symm⟩
      · simpa using hge it' h
      · simpa using hge it' h
    · have hlt' : it.id < pi := by
        rcases hpi with hmem | hall
        · obtain ⟨it', hit', rfl⟩ := List.mem_map.mp hmem
          rcases List.mem_cons.mp hit' with rfl | hit'
          · exact absurd rfl he
          · exact hlt it' hit'
        · exact hall it List.mem_cons_self
      have htail : pi ∈ its.map (·.id) ∨ ∀ it' ∈ its, it'.id < pi := by
        refine hpi.imp (fun hmem => ?_) fun hall it' h => hall it' (List.mem_cons_of_mem _ h)
        rw [List.map_cons, List.mem_cons] at hmem
        exact hmem.resolve_left fun h => he h.symm
      obtain ⟨h1, h2⟩ := ih hs htail
      simp only [List.takeWhile_cons, List.dropWhile_cons, ne_eq, he, not_false_eq_true,
        decide_true, if_true, List.filter_cons, hlt', not_le.mpr hlt', decide_false,
        Bool.false_eq_true, if_false]
      exact ⟨congrArg (it :: ·) h1, h2⟩

theorem filterMap_passed_of_lt :
    (its.filter (·.id < pi)).filterMap (passed pi) = its.filter (·.id < pi) := by
  induction its with
  | nil => rfl
  | cons it its ih =>
    by_cases h : it.id < pi
    · simp [h, passed, ih]
    · simp [h, ih]

/-- A sorted list is its part before `pi` followed by its part from `pi` on. -/
theorem filter_append_filter (hs : its.Pairwise (·.id < ·.id))
    (hpi : pi ∈ its.map (·.id) ∨ ∀ it ∈ its, it.id < pi) :
    its.filter (·.id < pi) ++ its.filter (pi ≤ ·.id) = its := by
  obtain ⟨h1, h2⟩ := dropWhile_eq_filter hs hpi
  rw [← h1, ← h2, List.takeWhile_append_dropWhile]

/-- **`runInvalidation` from a live pointer**: it returns, each item from the pointer on loses one
count, and exactly the items whose count reaches zero are finished and removed. -/
theorem runInvalidation_eq {d : InvData} (r : ρ) (hs : d.posted.Pairwise (·.id < ·.id))
    (hback : ∀ it ∈ d.posted, it.id < d.back) (hpi : pi = d.back ∨ pi ∈ d.posted.map (·.id))
    (hpos : ∀ it ∈ d.posted, 0 < it.count) :
    d.runInvalidation complete r pi = .ok ({ d with posted := d.posted.filterMap (passed pi) },
      (finished pi d.posted).foldl complete r) := by
  have hlive : pi ∈ d.posted.map (·.id) ∨ ∀ it ∈ d.posted, it.id < pi :=
    hpi.symm.imp_right fun (h : pi = d.back) it hit => h ▸ hback it hit
  obtain ⟨h1, h2⟩ := dropWhile_eq_filter hs hlive
  have hloop := invalidateLoop_eq complete (d.posted.filter (pi ≤ ·.id)) r fun it hit => by
    obtain ⟨hmem, hle⟩ := List.mem_filter.mp hit
    exact ⟨by simpa using hle, hpos it hmem⟩
  have hfin : finished pi (d.posted.filter (pi ≤ ·.id)) = finished pi d.posted := by
    rw [finished, finished, List.filter_filter]
    exact congrArg _ (List.filter_congr fun it _ => by
      by_cases h : pi ≤ it.id
      · simp [h]
      · simp [h])
  have hpass : d.posted.filter (·.id < pi) ++ (d.posted.filter (pi ≤ ·.id)).filterMap (passed pi)
      = d.posted.filterMap (passed pi) := by
    conv_rhs => rw [← filter_append_filter hs hlive, List.filterMap_append, filterMap_passed_of_lt]
  rw [runInvalidation, if_pos hpi, h1, h2, hloop, hfin]
  simp only [Except.map, hpass]

end InvData

/-! ## The system -/

/-- The address space, the cores inside it, and every core's `PI` pointer. -/
structure Shootdown (κ ρ : Type) where
  inv : InvData
  inside : Finset κ
  pi : κ → ℕ
  rest : ρ

namespace Shootdown

variable {κ ρ : Type} (complete : ρ → PageInvalidation → ρ)

/-- The `ulock` sections, and a change of the remaining state by code outside them. -/
inductive Action (κ ρ : Type)
  /-- the end of `enter`, or `initProcessor` -/
  | enter (c : κ)
  /-- the part of `enter` on the address space that is left -/
  | leave (c : κ)
  | post (pentry : ℕ × ℕ) (vma size : ℕ) (alloc : Bool)
  /-- `runKernelInvalidation`, or the start of `clearUserPaging` -/
  | run (c : κ)
  | other (r : ρ)

/-- A core enters when it is outside, and leaves or invalidates when it is inside. -/
def Allowed (s : Shootdown κ ρ) : Action κ ρ → Prop
  | .enter c => c ∉ s.inside
  | .leave c => c ∈ s.inside
  | .post _ _ _ _ => True
  | .run c => c ∈ s.inside
  | .other _ => True

instance [DecidableEq κ] (s : Shootdown κ ρ) : ∀ a, Decidable (s.Allowed a)
  | .enter c => inferInstanceAs (Decidable (c ∉ s.inside))
  | .leave c => inferInstanceAs (Decidable (c ∈ s.inside))
  | .post _ _ _ _ => inferInstanceAs (Decidable True)
  | .run c => inferInstanceAs (Decidable (c ∈ s.inside))
  | .other _ => inferInstanceAs (Decidable True)

/-- What an action does. -/
def act [DecidableEq κ] (s : Shootdown κ ρ) : Action κ ρ → Except Fault (Shootdown κ ρ)
  | .enter c => .ok { s with
      inv := { s.inv with activeCores := s.inv.activeCores + 1 }
      inside := insert c s.inside
      pi := update s.pi c s.inv.back }
  | .leave c => (s.inv.runInvalidation complete s.rest (s.pi c)).map fun (d, r) => { s with
      inv := { d with activeCores := d.activeCores - 1 }
      inside := s.inside.erase c
      rest := r }
  | .post pentry vma size alloc => .ok { s with inv := s.inv.post pentry vma size alloc }
  | .run c => (s.inv.runInvalidation complete s.rest (s.pi c)).map fun (d, r) => { s with
      inv := d
      pi := update s.pi c d.back
      rest := r }
  | .other r => .ok { s with rest := r }

def step [DecidableEq κ] (s : Shootdown κ ρ) (a : Action κ ρ) : Option (Shootdown κ ρ) :=
  if s.Allowed a then (s.act complete a).toOption else none

/-- A new address space: only the sentinel, and no core inside. -/
def init (back : ℕ) (pi : κ → ℕ) (rest : ρ) : Shootdown κ ρ :=
  { inv := { activeCores := 0, posted := [], back }, inside := ∅, pi, rest }

/-! ## The invariant -/

/-- The cores inside whose pointer is at or before an item. -/
def waiting (s : Shootdown κ ρ) (id : ℕ) : Finset κ := s.inside.filter fun c => s.pi c ≤ id

/-- A pointer to a node of `invList`. -/
def Live (s : Shootdown κ ρ) (p : ℕ) : Prop := p = s.inv.back ∨ p ∈ s.inv.posted.map (·.id)

/-- **The invariant of the protocol.** -/
structure Coherent (s : Shootdown κ ρ) : Prop where
  sorted : s.inv.posted.Pairwise (·.id < ·.id)
  below : ∀ it ∈ s.inv.posted, it.id < s.inv.back
  active : s.inv.activeCores = s.inside.card
  live : ∀ c ∈ s.inside, s.Live (s.pi c)
  counted : ∀ it ∈ s.inv.posted, it.count = (s.waiting it.id).card
  pending : ∀ it ∈ s.inv.posted, 0 < it.count

theorem coherent_init (back : ℕ) (pi : κ → ℕ) (rest : ρ) : Coherent (init back pi rest) :=
  ⟨List.Pairwise.nil, by simp [init], by simp [init], by simp [init], by simp [init], by
    simp [init]⟩

variable {complete} {s s' : Shootdown κ ρ}

variable {c : κ}

theorem Coherent.le_back (h : Coherent s) (hc : c ∈ s.inside) : s.pi c ≤ s.inv.back := by
  rcases h.live c hc with he | hmem
  · exact he.le
  · obtain ⟨it, hit, he⟩ := List.mem_map.mp hmem
    exact he ▸ (h.below it hit).le

/-- The list after a walk of core `c`. -/
def walked (s : Shootdown κ ρ) (c : κ) : List PageInvalidation :=
  s.inv.posted.filterMap (InvData.passed (s.pi c))

/-- A core inside can walk the list. -/
theorem Coherent.runInvalidation (h : Coherent s) (hc : c ∈ s.inside) :
    s.inv.runInvalidation complete s.rest (s.pi c) = .ok ({ s.inv with posted := s.walked c },
      (InvData.finished (s.pi c) s.inv.posted).foldl complete s.rest) :=
  InvData.runInvalidation_eq complete s.rest h.sorted h.below (h.live c hc) h.pending

/-- An item that another core waits for survives the walk. -/
theorem Coherent.walked_of_waiting (h : Coherent s) {d : κ} (hc : c ∈ s.inside) (hcd : d ≠ c)
    {it : PageInvalidation} (hit : it ∈ s.inv.posted) (hd : d ∈ s.waiting it.id) :
    it.id ∈ (s.walked c).map (·.id) := by
  rw [List.mem_map]
  by_cases hlt : it.id < s.pi c
  · exact ⟨it, List.mem_filterMap.mpr ⟨it, hit, by simp [InvData.passed, hlt]⟩, rfl⟩
  · have hmem : c ∈ s.waiting it.id := by simp [waiting, hc, not_lt.mp hlt]
    have htwo : it.count ≠ 1 := by
      rw [h.counted it hit]
      intro hone
      obtain ⟨e, he⟩ := Finset.card_eq_one.mp hone
      rw [he, Finset.mem_singleton] at hmem hd
      exact hcd (hd.trans hmem.symm)
    exact ⟨it.dec, List.mem_filterMap.mpr ⟨it, hit, by simp [InvData.passed, hlt, htwo]⟩, rfl⟩

theorem Coherent.sorted_walked (h : Coherent s) (c : κ) : (s.walked c).Pairwise (·.id < ·.id) := by
  refine List.Pairwise.filterMap _ ?_ h.sorted
  intro a b hab a' ha' b' hb'
  rw [InvData.id_passed ha', InvData.id_passed hb']
  exact hab

/-- The pointer of any other core inside stays live under the walk of `c`. -/
theorem Coherent.live_walked (h : Coherent s) {d : κ} (hc : c ∈ s.inside) (hd : d ∈ s.inside)
    (hcd : d ≠ c) : s.pi d = s.inv.back ∨ s.pi d ∈ (s.walked c).map (·.id) := by
  rcases h.live d hd with he | hmem
  · exact Or.inl he
  · obtain ⟨it, hit, he⟩ := List.mem_map.mp hmem
    refine Or.inr (he ▸ h.walked_of_waiting hc hcd hit ?_)
    simp [waiting, hd, he]

theorem Coherent.eq_of_id (h : Coherent s) {x y : PageInvalidation} (hx : x ∈ s.inv.posted)
    (hy : y ∈ s.inv.posted) (he : x.id = y.id) : x = y := by
  have hnodup : (s.inv.posted.map (·.id)).Nodup :=
    List.pairwise_map.mpr (h.sorted.imp fun h => h.ne)
  exact List.inj_on_of_nodup_map hnodup hx hy he

/-- **The walk of a core finishes exactly the items it removes.** -/
theorem Coherent.mem_finished_iff (h : Coherent s) (c : κ) (id : ℕ) :
    id ∈ (InvData.finished (s.pi c) s.inv.posted).map (·.id) ↔
      id ∈ s.inv.posted.map (·.id) ∧ id ∉ (s.walked c).map (·.id) := by
  simp only [InvData.finished, walked, List.mem_map, List.mem_filter, List.mem_filterMap,
    decide_eq_true_eq]
  constructor
  · rintro ⟨-, ⟨it, ⟨hit, hle, hone⟩, rfl⟩, rfl⟩
    refine ⟨⟨it, hit, rfl⟩, ?_⟩
    rintro ⟨x', ⟨x, hx, hpass⟩, he⟩
    obtain rfl := h.eq_of_id hx hit ((InvData.id_passed hpass).symm.trans he)
    simp [InvData.passed, not_lt.mpr hle, hone] at hpass
  · rintro ⟨⟨it, hit, rfl⟩, hgone⟩
    by_contra hnot
    by_cases hlt : it.id < s.pi c
    · exact hgone ⟨it, ⟨it, hit, by simp [InvData.passed, hlt]⟩, rfl⟩
    · by_cases hone : it.count = 1
      · exact hnot ⟨it.dec, ⟨it, ⟨hit, not_lt.mp hlt, hone⟩, rfl⟩, rfl⟩
      · exact hgone ⟨it.dec, ⟨it, hit, by simp [InvData.passed, hlt, hone]⟩, rfl⟩

variable [DecidableEq κ]

/-- **What the walk of a core leaves**: the items some other core still waits for, each counted with
that core taken out. -/
theorem Coherent.mem_walked (h : Coherent s) (hc : c ∈ s.inside) {it' : PageInvalidation}
    (hit' : it' ∈ s.walked c) : ∃ it ∈ s.inv.posted, it'.id = it.id ∧
      it'.count = ((s.waiting it.id).erase c).card ∧ 0 < it'.count := by
  obtain ⟨it, hit, hpass⟩ := List.mem_filterMap.mp hit'
  refine ⟨it, hit, ?_⟩
  have hmem : c ∈ s.waiting it.id ↔ s.pi c ≤ it.id := by simp [waiting, hc]
  unfold InvData.passed at hpass
  split at hpass
  · rename_i hlt
    obtain rfl := Option.some.inj hpass
    rw [Finset.erase_eq_of_notMem (mt hmem.mp (not_le.mpr hlt))]
    exact ⟨rfl, h.counted it hit, h.pending it hit⟩
  · rename_i hge
    split at hpass
    · cases hpass
    rename_i hone
    cases hpass
    have hcard := Finset.card_erase_of_mem (hmem.mpr (not_lt.mp hge))
    have hpos := h.pending it hit
    have hcount := h.counted it hit
    refine ⟨rfl, ?_, ?_⟩
    · simp only [PageInvalidation.dec]
      omega
    · simp only [PageInvalidation.dec]
      omega

/-! ## Steps -/

variable {a : Action κ ρ}

theorem step_eq_some (h : s.step complete a = some s') :
    s.Allowed a ∧ s.act complete a = .ok s' := by
  unfold step at h
  split at h
  · rename_i ha
    exact ⟨ha, Fault.toOption_eq_some h⟩
  · cases h

theorem step_of_act (ha : s.Allowed a) (h : s.act complete a = .ok s') :
    s.step complete a = some s' := by
  rw [step, if_pos ha, h]
  rfl

theorem act_leave (h : Coherent s) (hc : c ∈ s.inside) :
    s.act complete (.leave c) = .ok
      { inv := ⟨s.inv.activeCores - 1, s.walked c, s.inv.back⟩, inside := s.inside.erase c
        pi := s.pi, rest := (InvData.finished (s.pi c) s.inv.posted).foldl complete s.rest } := by
  rw [act, h.runInvalidation hc]
  rfl

theorem act_run (h : Coherent s) (hc : c ∈ s.inside) : s.act complete (.run c) = .ok
      { inv := ⟨s.inv.activeCores, s.walked c, s.inv.back⟩, inside := s.inside
        pi := update s.pi c s.inv.back
        rest := (InvData.finished (s.pi c) s.inv.posted).foldl complete s.rest } := by
  rw [act, h.runInvalidation hc]
  rfl

/-- **Every allowed action returns**: no assertion fails and no pointer dangles. -/
theorem Coherent.act_returns (h : Coherent s) (ha : s.Allowed a) :
    ∃ s', s.act complete a = .ok s' := by
  cases a with
  | enter c => exact ⟨_, rfl⟩
  | leave c => exact ⟨_, act_leave h ha⟩
  | post pentry vma size alloc => exact ⟨_, rfl⟩
  | run c => exact ⟨_, act_run h ha⟩
  | other r => exact ⟨_, rfl⟩

theorem coherent_enter (h : Coherent s) (hc : c ∉ s.inside)
    (hs : s.act complete (.enter c) = .ok s') : Coherent s' := by
  cases hs
  have hpi : ∀ d ∈ s.inside, update s.pi c s.inv.back d = s.pi d :=
    fun d hd => update_of_ne (fun he : d = c => hc (he ▸ hd)) _ _
  refine ⟨h.sorted, h.below, ?_, fun d hd => ?_, fun it hit => ?_, h.pending⟩
  · show s.inv.activeCores + 1 = (insert c s.inside).card
    rw [Finset.card_insert_of_notMem hc, h.active]
  · rcases Finset.mem_insert.mp hd with rfl | hd
    · exact Or.inl (update_self _ _ _)
    · show Live s (update s.pi c s.inv.back d)
      rw [hpi d hd]
      exact h.live d hd
  · rw [h.counted it hit]
    refine congrArg _ ?_
    ext d
    simp only [waiting, Finset.mem_filter, Finset.mem_insert]
    constructor
    · rintro ⟨hd, hle⟩
      exact ⟨Or.inr hd, (hpi d hd).symm ▸ hle⟩
    · rintro ⟨rfl | hd, hle⟩
      · rw [update_self] at hle
        exact absurd (h.below it hit) (not_lt.mpr hle)
      · exact ⟨hd, hpi d hd ▸ hle⟩

theorem coherent_leave (h : Coherent s) (hc : c ∈ s.inside)
    (hs : s.act complete (.leave c) = .ok s') : Coherent s' := by
  obtain rfl := Except.ok.inj ((act_leave h hc).symm.trans hs)
  refine ⟨h.sorted_walked c, fun it' hit' => ?_, ?_, fun d hd => ?_, fun it' hit' => ?_,
    fun it' hit' => ?_⟩
  · obtain ⟨it, hit, hid, -, -⟩ := h.mem_walked hc hit'
    exact hid ▸ h.below it hit
  · show s.inv.activeCores - 1 = (s.inside.erase c).card
    rw [Finset.card_erase_of_mem hc, h.active]
  · exact h.live_walked hc (Finset.mem_of_mem_erase hd) (Finset.ne_of_mem_erase hd)
  · obtain ⟨it, hit, hid, hcount, -⟩ := h.mem_walked hc hit'
    rw [hcount, hid, waiting, waiting, Finset.filter_erase]
  · exact (h.mem_walked hc hit').choose_spec.2.2.2

theorem coherent_run (h : Coherent s) (hc : c ∈ s.inside) (hs : s.act complete (.run c) = .ok s') :
    Coherent s' := by
  obtain rfl := Except.ok.inj ((act_run h hc).symm.trans hs)
  refine ⟨h.sorted_walked c, fun it' hit' => ?_, h.active, fun d hd => ?_, fun it' hit' => ?_,
    fun it' hit' => ?_⟩
  · obtain ⟨it, hit, hid, -, -⟩ := h.mem_walked hc hit'
    exact hid ▸ h.below it hit
  · by_cases hdc : d = c
    · exact Or.inl (hdc ▸ update_self _ _ _)
    · have := h.live_walked hc hd hdc
      rwa [← update_of_ne hdc s.inv.back s.pi] at this
  · obtain ⟨it, hit, hid, hcount, -⟩ := h.mem_walked hc hit'
    rw [hcount, hid]
    refine congrArg _ ?_
    -- the core that walked is past every item
    ext d
    simp only [waiting, Finset.mem_filter, Finset.mem_erase]
    by_cases hdc : d = c
    · subst hdc
      simp only [ne_eq, not_true_eq_false, false_and, update_self, false_iff, not_and, not_le]
      exact fun _ => h.below it hit
    · simp only [ne_eq, hdc, not_false_eq_true, true_and, update_of_ne]
  · exact (h.mem_walked hc hit').choose_spec.2.2.2

omit [DecidableEq κ] in
theorem Coherent.post (h : Coherent s) (pentry : ℕ × ℕ) (vma size : ℕ) (alloc : Bool) :
    Coherent { s with inv := s.inv.post pentry vma size alloc } := by
  unfold InvData.post
  split
  · rename_i hact
    -- every core inside is at or before the node that was the sentinel
    have hall : ∀ d ∈ s.inside, s.pi d ≤ s.inv.back := fun d hd => h.le_back hd
    refine ⟨?_, fun it hit => ?_, h.active, fun d hd => ?_, fun it hit => ?_, fun it hit => ?_⟩
    · refine List.pairwise_append.mpr ⟨h.sorted, List.pairwise_singleton _ _, fun a ha b hb => ?_⟩
      rw [List.mem_singleton.mp hb]
      exact h.below a ha
    · rcases List.mem_append.mp hit with hit | hit
      · exact (h.below it hit).trans (Nat.lt_succ_self _)
      · rw [List.mem_singleton.mp hit]
        exact Nat.lt_succ_self _
    · refine Or.inr ?_
      rw [List.map_append, List.mem_append]
      rcases h.live d hd with he | hmem
      · exact Or.inr (by simp [he])
      · exact Or.inl hmem
    · rcases List.mem_append.mp hit with hit | hit
      · exact h.counted it hit
      · rw [List.mem_singleton.mp hit]
        show s.inv.activeCores = (s.inside.filter fun c => s.pi c ≤ s.inv.back).card
        rw [Finset.filter_true_of_mem hall, h.active]
    · rcases List.mem_append.mp hit with hit | hit
      · exact h.pending it hit
      · rw [List.mem_singleton.mp hit]
        show 0 < s.inv.activeCores
        omega
  · exact { h with }

omit [DecidableEq κ] in
theorem Coherent.other (h : Coherent s) (r : ρ) : Coherent { s with rest := r } :=
  { h with }

/-- **One step keeps the invariant.** -/
theorem coherent_step (h : Coherent s) (hs : s.step complete a = some s') : Coherent s' := by
  obtain ⟨ha, hs⟩ := step_eq_some hs
  cases a with
  | enter c => exact coherent_enter h ha hs
  | leave c => exact coherent_leave h ha hs
  | post pentry vma size alloc => exact Except.ok.inj hs ▸ h.post pentry vma size alloc
  | run c => exact coherent_run h ha hs
  | other r => exact Except.ok.inj hs ▸ h.other r

/-! ## Items are finished when they are removed, and not before their time -/

/-- A core is inside and has not yet passed the item `id`, which is still in the list. -/
structure Waits (c : κ) (id : ℕ) (s : Shootdown κ ρ) : Prop where
  coherent : Coherent s
  inside : c ∈ s.inside
  le : s.pi c ≤ id
  posted : id ∈ s.inv.posted.map (·.id)

/-- The two actions by which a core passes the items. -/
def passes (c : κ) (a : Action κ ρ) : Prop := a = .leave c ∨ a = .run c

theorem waits_step {id : ℕ} (h : Waits c id s) (ha : ¬ passes c a)
    (hs : s.step complete a = some s') : Waits c id s' := by
  have hcoh := coherent_step h.coherent hs
  obtain ⟨hallow, hact⟩ := step_eq_some hs
  obtain ⟨it, hit, rfl⟩ := List.mem_map.mp h.posted
  have hwait : c ∈ s.waiting it.id := by simp [waiting, h.inside, h.le]
  cases a with
  | enter d =>
    cases hact
    have hdc : c ≠ d := fun he : c = d => hallow (he ▸ h.inside)
    refine ⟨hcoh, Finset.mem_insert_of_mem h.inside, ?_, h.posted⟩
    show update s.pi d s.inv.back c ≤ it.id
    rw [update_of_ne hdc]
    exact h.le
  | leave d =>
    have hdc : c ≠ d := fun he : c = d => ha (Or.inl (he ▸ rfl))
    obtain rfl := Except.ok.inj ((act_leave h.coherent hallow).symm.trans hact)
    exact ⟨hcoh, Finset.mem_erase.mpr ⟨hdc, h.inside⟩, h.le,
      h.coherent.walked_of_waiting hallow hdc hit hwait⟩
  | post pentry vma size alloc =>
    cases hact
    refine ⟨hcoh, h.inside, h.le, ?_⟩
    show it.id ∈ (s.inv.post pentry vma size alloc).posted.map (·.id)
    unfold InvData.post
    split
    · rw [List.map_append]
      exact List.mem_append_left _ h.posted
    · exact h.posted
  | run d =>
    have hdc : c ≠ d := fun he : c = d => ha (Or.inr (he ▸ rfl))
    obtain rfl := Except.ok.inj ((act_run h.coherent hallow).symm.trans hact)
    refine ⟨hcoh, h.inside, ?_, h.coherent.walked_of_waiting hallow hdc hit hwait⟩
    show update s.pi d s.inv.back c ≤ it.id
    rw [update_of_ne hdc]
    exact h.le
  | other r =>
    cases hact
    exact { h with coherent := hcoh }

/-- **An item stays until every core that was inside when it was posted has left or run its
invalidations.** -/
theorem posted_until_passed (h : Coherent s) (hact : 1 < s.inv.activeCores) {pentry : ℕ × ℕ}
    {vma size : ℕ} {alloc : Bool} {s₁ s₂ : Shootdown κ ρ} {as : List (Action κ ρ)}
    (hpost : s.step complete (.post pentry vma size alloc) = some s₁)
    (hrun : Runs.run (step complete) s₁ as = some s₂)
    (hgone : s.inv.back ∉ s₂.inv.posted.map (·.id)) (hc : c ∈ s.inside) : ∃ a ∈ as, passes c a := by
  by_contra hnone
  push Not at hnone
  have hs₁ : Waits c s.inv.back s₁ := by
    have hcoh := coherent_step h hpost
    obtain rfl := Except.ok.inj (step_eq_some hpost).2
    refine ⟨hcoh, hc, h.le_back hc, ?_⟩
    show s.inv.back ∈ (s.inv.post pentry vma size alloc).posted.map (·.id)
    rw [InvData.post, if_pos hact]
    simp
  have hguard : Guarded (step complete) (fun _ a => ¬ passes c a) s₁ as :=
    guarded_of_forall fun a ha _ => hnone a ha
  exact hgone (invariant_of_guarded waits_step hs₁ hguard hrun).posted

/-- A step inside the protocol changes the remaining state by finishing the items it removes, each
one once, and in no other way. -/
theorem Coherent.finishes_removed (h : Coherent s) (ha : ∀ r, a ≠ .other r)
    (hs : s.step complete a = some s') : ∃ done : List PageInvalidation,
      s'.rest = done.foldl complete s.rest ∧ (done.map (·.id)).Nodup ∧
      ∀ id, id ∈ done.map (·.id) ↔ id ∈ s.inv.posted.map (·.id) ∧
      id ∉ s'.inv.posted.map (·.id) := by
  obtain ⟨hallow, hact⟩ := step_eq_some hs
  have hnodup : ∀ c, ((InvData.finished (s.pi c) s.inv.posted).map (·.id)).Nodup := fun c => by
    rw [InvData.finished, List.map_map]
    exact List.pairwise_map.mpr ((h.sorted.sublist List.filter_sublist).imp fun h => h.ne)
  cases a with
  | enter c =>
    cases hact
    exact ⟨[], rfl, List.nodup_nil, fun id => by simp⟩
  | leave c =>
    obtain rfl := Except.ok.inj ((act_leave h hallow).symm.trans hact)
    exact ⟨_, rfl, hnodup c, h.mem_finished_iff c⟩
  | post pentry vma size alloc =>
    cases hact
    refine ⟨[], rfl, List.nodup_nil, fun id => ?_⟩
    have hsub : id ∈ s.inv.posted.map (·.id) →
        id ∈ (s.inv.post pentry vma size alloc).posted.map (·.id) := fun hid => by
      unfold InvData.post
      split
      · rw [List.map_append]
        exact List.mem_append_left _ hid
      · exact hid
    simpa using hsub
  | run c =>
    obtain rfl := Except.ok.inj ((act_run h hallow).symm.trans hact)
    exact ⟨_, rfl, hnodup c, h.mem_finished_iff c⟩
  | other r => exact absurd rfl (ha r)

/-! ## When every core has run its invalidations -/

omit [DecidableEq κ] in
/-- What a walk finishes and what it leaves are the items of the list, up to their counts. -/
theorem finished_append_passed_perm (pi : ℕ) (its : List PageInvalidation) :
    ((InvData.finished pi its ++ its.filterMap (InvData.passed pi)).map PageInvalidation.key).Perm
      (its.map PageInvalidation.key) := by
  induction its with
  | nil => exact .nil
  | cons it its ih =>
    by_cases hlt : it.id < pi
    · have hfin : InvData.finished pi (it :: its) = InvData.finished pi its := by
        simp [InvData.finished, not_le.mpr hlt]
      rw [hfin, List.filterMap_cons_some (by rw [InvData.passed, if_pos hlt]), List.map_append,
        List.map_cons]
      exact List.perm_middle.trans ((List.map_append ▸ ih).cons _)
    · by_cases hone : it.count = 1
      · have hfin : InvData.finished pi (it :: its) = it.dec :: InvData.finished pi its := by
          simp [InvData.finished, not_lt.mp hlt, hone]
        rw [hfin, List.filterMap_cons_none (by rw [InvData.passed, if_neg hlt, if_pos hone])]
        exact ih.cons _
      · have hfin : InvData.finished pi (it :: its) = InvData.finished pi its := by
          simp [InvData.finished, hone]
        rw [hfin, List.filterMap_cons_some (by rw [InvData.passed, if_neg hlt, if_neg hone]),
          List.map_append, List.map_cons]
        exact List.perm_middle.trans ((List.map_append ▸ ih).cons _)

variable (complete) in
/-- A sequence of `runKernelInvalidation`s by cores inside: what has been finished and what is left
are the items of the list, and these cores are past all of them. -/
theorem Coherent.run_cores (cs : List κ) : ∀ {s : Shootdown κ ρ}, Coherent s →
    (∀ c ∈ cs, c ∈ s.inside) → ∃ (s' : Shootdown κ ρ) (done : List PageInvalidation),
      Runs.run (step complete) s (cs.map .run) = some s' ∧ Coherent s' ∧ s'.inside = s.inside ∧
      s'.inv.back = s.inv.back ∧ s'.rest = done.foldl complete s.rest ∧
      ((done ++ s'.inv.posted).map PageInvalidation.key).Perm
      (s.inv.posted.map PageInvalidation.key) ∧ ∀ c, s'.pi c = if c ∈ cs then s.inv.back
      else s.pi c := by
  induction cs with
  | nil => exact fun h _ => ⟨_, [], rfl, h, rfl, rfl, rfl, .refl _, fun c => by simp⟩
  | cons c cs ih =>
    intro s h hcs
    have hc := hcs c List.mem_cons_self
    have hact : s.act complete (.run c) = .ok _ := act_run h hc
    have hstep := step_of_act (a := .run c) hc hact
    obtain ⟨s', done, hrun, hcoh, hin, hback, hrest, hperm, hpi⟩ :=
      ih (coherent_step h hstep) fun d hd => hcs d (List.mem_cons_of_mem _ hd)
    refine ⟨s', InvData.finished (s.pi c) s.inv.posted ++ done, run_cons.mpr ⟨_, hstep, hrun⟩,
      hcoh, hin, hback, ?_, ?_, fun d => ?_⟩
    · rw [List.foldl_append]
      exact hrest
    · rw [List.append_assoc, List.map_append]
      refine (hperm.append_left _).trans ?_
      rw [← List.map_append]
      exact finished_append_passed_perm _ _
    · rw [hpi]
      by_cases hd : d ∈ cs
      · simp [hd]
      · by_cases hdc : d = c
        · simp [hdc]
        · simp [hd, hdc]

variable (complete) in
/-- **When every core inside has run its invalidations, nothing is left**: each item that was in the
list has been finished once. -/
theorem Coherent.run_all (h : Coherent s) {cs : List κ} (hcs : ∀ c, c ∈ cs ↔ c ∈ s.inside) :
    ∃ (s' : Shootdown κ ρ) (done : List PageInvalidation),
      Runs.run (step complete) s (cs.map .run) = some s' ∧ s'.inv.posted = [] ∧
      s'.rest = done.foldl complete s.rest ∧
      (done.map PageInvalidation.key).Perm (s.inv.posted.map PageInvalidation.key) := by
  obtain ⟨s', done, hrun, hcoh, hin, hback, hrest, hperm, hpi⟩ :=
    h.run_cores complete cs fun c hc => (hcs c).mp hc
  have hempty : s'.inv.posted = [] := by
    refine List.eq_nil_iff_forall_not_mem.mpr fun it hit => ?_
    have hpos := hcoh.pending it hit
    rw [hcoh.counted it hit] at hpos
    obtain ⟨c, hc⟩ := Finset.card_pos.mp hpos
    obtain ⟨hc, hle⟩ := Finset.mem_filter.mp hc
    rw [hpi, if_pos ((hcs c).mpr (hin ▸ hc)), ← hback] at hle
    exact absurd (hcoh.below it hit) (not_lt.mpr hle)
  refine ⟨s', done, hrun, hempty, hrest, ?_⟩
  simpa [hempty] using hperm

/-! ## The protocol -/

/-- **The shootdown protocol**, for every interleaving of the `ulock` sections on any set of cores:
the cores inside are counted, each item counts the cores inside that are at or before it, no
assertion fails and no pointer of a core inside dangles; an item is finished exactly when it is
removed, and that is not before every core that was inside when it was posted has left or run its
invalidations. -/
theorem shootdown_protocol (complete : ρ → PageInvalidation → ρ) (back : ℕ) (pi : κ → ℕ) (rest : ρ)
    {as : List (Action κ ρ)} {s : Shootdown κ ρ}
    (hrun : Runs.run (step complete) (init back pi rest) as = some s) :
    s.inv.activeCores = s.inside.card ∧
    (s.inv.posted.Pairwise (·.id < ·.id) ∧ ∀ it ∈ s.inv.posted, it.id < s.inv.back) ∧
    (∀ it ∈ s.inv.posted, it.count = (s.inside.filter fun c => s.pi c ≤ it.id).card) ∧
    (∀ a, s.Allowed a → ∃ s', s.act complete a = .ok s') ∧
    (∀ a s', (∀ r, a ≠ .other r) → s.step complete a = some s' → ∃ done : List PageInvalidation,
      s'.rest = done.foldl complete s.rest ∧ (done.map (·.id)).Nodup ∧
      ∀ id, id ∈ done.map (·.id) ↔ id ∈ s.inv.posted.map (·.id) ∧ id ∉ s'.inv.posted.map (·.id)) ∧
    (∀ pentry vma size alloc s₁ bs s₂, 1 < s.inv.activeCores →
      s.step complete (.post pentry vma size alloc) = some s₁ →
      Runs.run (step complete) s₁ bs = some s₂ → s.inv.back ∉ s₂.inv.posted.map (·.id) →
      ∀ c ∈ s.inside, ∃ a ∈ bs, a = .leave c ∨ a = .run c) ∧
    ∀ c ∈ s.inside, s.Live (s.pi c) := by
  have h : Coherent s := invariant coherent_step (coherent_init back pi rest) hrun
  exact ⟨h.active, ⟨h.sorted, h.below⟩, h.counted, fun a => h.act_returns,
    fun a s' ha hs => h.finishes_removed ha hs,
    fun _ _ _ _ _ _ _ hact hpost hrun' hgone c hc =>
      posted_until_passed h hact hpost hrun' hgone hc, h.live⟩

/-- Two cores enter, one page is posted, and one of them leaves. -/
def twoCores : List (Action ℕ Unit) :=
  [.enter 0, .enter 1, .post (1, 7) 0x7000 0x1000 true, .leave 0]

/-- After these steps one core still has to pass the item. -/
theorem shootdown_protocol_twoCores : ∃ s : Shootdown ℕ Unit,
    Runs.run (step fun r _ => r) (init 0 (fun _ => 0) ()) twoCores = some s ∧
      s.inv.posted.map (·.count) = [1] ∧ s.inv.activeCores = s.inside.card ∧ s.inside = {1} :=
  have hrun := (rfl : Runs.run (step fun r _ => r) (init 0 (fun _ => 0) ()) twoCores = some _)
  ⟨_, hrun, rfl, (shootdown_protocol (fun r _ => r) 0 (fun _ => 0) () hrun).1, by decide⟩

/-- **A core that has left keeps its pointer**, and the item it refers to can be deleted. -/
theorem left_core_pointer_dangles : ∃ s₁ s₂ : Shootdown ℕ Unit,
    Runs.run (step fun r _ => r) (init 0 (fun _ => 0) ()) twoCores = some s₁ ∧
      s₁.Live (s₁.pi 0) ∧ s₁.step (fun r _ => r) (.leave 1) = some s₂ ∧ ¬ s₂.Live (s₂.pi 0) :=
  ⟨_, _, rfl, Or.inr (by decide), rfl, by unfold Live; decide⟩

end Shootdown

end Kos
