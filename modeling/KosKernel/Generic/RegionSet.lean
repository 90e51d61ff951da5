import KosKernel.Machine.Memory
import Mathlib.Data.List.Induction
import Mathlib.Data.List.Pairwise
import Mathlib.Data.List.TakeWhile
import Mathlib.Order.Interval.Set.LinearOrder

/-!
# Generic/RegionSet — disjoint regions in a set

`RegionSet` of `generic/RegionSet.h` is a `std::set` of regions, with `end < r.start` as the order:
two regions that overlap or touch are equivalent.  The set is modelled by the list of its elements,
as the iterators go through them.

A region need not be `valid`: nothing stops a caller from inserting one whose end is not above its
start. As long as the ends do not decrease and each lies below the start of the next region
(`Apart`), the searches find what they should, whether or not all regions are valid.
-/

namespace Kos

/-- `Region`, whose field `end` is called `stop` here. -/
structure MemRegion (T : Type) where
  start : T
  stop : T
  deriving DecidableEq, Repr

namespace MemRegion

variable {T : Type} [LinearOrder T]

/-- `operator<`. -/
def before (x r : MemRegion T) : Bool := x.stop < r.start

/-- The addresses of a region. -/
def addrs (r : MemRegion T) : Set T := Set.Ico r.start r.stop

end MemRegion

/-- `RegionSet`. -/
abbrev RegionSet (T : Type) : Type := List (MemRegion T)

namespace RegionSet

variable {T : Type} [LinearOrder T]

/-! ## The code -/

variable (l : RegionSet T)

/-- The elements before `lower_bound(r)`. -/
def below (r : MemRegion T) : RegionSet T := l.takeWhile (·.before r)

/-- The elements from `lower_bound(r)` on. -/
def lowerBound (r : MemRegion T) : RegionSet T := l.dropWhile (·.before r)

/-- `set::insert` and `set::emplace_hint`: nothing happens if there is an equivalent element. -/
def put (r : MemRegion T) : RegionSet T :=
  if (l.lowerBound r).head?.all (r.before ·) then l.below r ++ r :: l.lowerBound r else l

/-- The first half of `insert`: `r` is joined to the first region `x` that does not end below it. -/
def joined (r x : MemRegion T) : MemRegion T :=
  ⟨if x.start < r.start then x.start else r.start, r.stop⟩

/-- The second half of `insert`, from the iterator `it` on: regions that `r` covers are erased, and
the next one is merged if it overlaps or touches. -/
def absorb (r : MemRegion T) : RegionSet T → MemRegion T × RegionSet T
  | [] => (r, [])
  | x :: xs =>
    if x.stop ≤ r.stop then absorb r xs
    else if x.start ≤ r.stop then (⟨r.start, x.stop⟩, xs)
    else (r, x :: xs)

/-- `insert`. -/
def insert (r : MemRegion T) : RegionSet T :=
  match l.lowerBound r with
  | [] => l.put r
  | x :: xs =>
    let (r', rest) := absorb (joined r x) (x :: xs)
    put (l.below r ++ rest) r'

/-- The region that `insert` puts into the set and returns. -/
def inserted (r : MemRegion T) : MemRegion T :=
  match l.lowerBound r with
  | [] => r
  | x :: xs => (absorb (joined r x) (x :: xs)).1

/-- `remove`, where `none` is `false`. -/
def remove (r : MemRegion T) : Option (RegionSet T) :=
  match l.lowerBound r with
  | [] => none
  | t :: rest =>
    if r.start < t.start ∨ t.stop < r.stop then none
    else
      let l := l.below r ++ rest
      let l := if r.stop < t.stop then l.put ⟨r.stop, t.stop⟩ else l
      some (if t.start < r.start then l.put ⟨t.start, r.start⟩ else l)

/-- The loop of `retrieve`: the first region with room for an aligned block. -/
def findBlock (s : ℕ) : RegionSet ℕ → Option ℕ
  | [] => none
  | x :: xs => if wadd (alignUp x.start s) s ≤ x.stop then some (alignUp x.start s)
      else findBlock s xs

/-- `retrieve`; the result of `remove` is not looked at. -/
def retrieve (l : RegionSet ℕ) (s : ℕ) : ℕ × RegionSet ℕ :=
  match findBlock s l with
  | some astart => (astart, (l.remove ⟨astart, wadd astart s⟩).getD l)
  | none => (limit, l)

/-! ## What a set stands for -/

/-- The addresses in the regions. -/
def cover (l : RegionSet T) : Set T := {a | ∃ r ∈ l, a ∈ r.addrs}

/-- The order of the elements. -/
def Apart (l : RegionSet T) : Prop := l.Pairwise fun x y => x.stop < y.start ∧ x.stop ≤ y.stop

/-- All regions are valid. -/
def Valid (l : RegionSet T) : Prop := ∀ r ∈ l, r.start < r.stop

variable {l l' pre post : RegionSet T} {r t x : MemRegion T} {a : T}

@[simp] theorem cover_nil : cover ([] : RegionSet T) = ∅ := by simp [cover]

@[simp] theorem cover_cons : cover (r :: l) = r.addrs ∪ cover l := by
  ext a
  simp [cover]

@[simp] theorem cover_append : cover (l ++ l') = cover l ∪ cover l' := by
  ext a
  simp only [cover, List.mem_append, Set.mem_ofPred_eq, Set.mem_union, or_and_right, exists_or]

theorem below_append_lowerBound (l : RegionSet T) (r : MemRegion T) :
    l.below r ++ l.lowerBound r = l :=
  List.takeWhile_append_dropWhile

theorem stop_lt_of_mem_below (h : x ∈ l.below r) : x.stop < r.start := by
  simpa [MemRegion.before] using List.mem_takeWhile_imp h

/-- **`lower_bound`** separates the regions that end below `r` from the others. -/
theorem Apart.le_stop (hl : Apart l) (h : x ∈ l.lowerBound r) : r.start ≤ x.stop := by
  have hrest : Apart (l.lowerBound r) := hl.sublist (List.dropWhile_sublist _)
  cases hd : l.lowerBound r with
  | nil => simp [hd] at h
  | cons y ys =>
    rw [hd] at h hrest
    have hy : r.start ≤ y.stop := by
      have := List.head?_dropWhile_not (·.before r) l
      rw [show l.dropWhile (·.before r) = y :: ys from hd] at this
      simpa [MemRegion.before] using this
    rcases List.mem_cons.mp h with rfl | hx
    · exact hy
    · exact hy.trans ((List.pairwise_cons.mp hrest).1 x hx).2

/-- Where the search for `r` ends, from what comes before and after. -/
theorem lowerBound_append (hpre : ∀ x ∈ pre, x.stop < r.start)
    (hpost : ∀ x ∈ post, r.start ≤ x.stop) :
    below (pre ++ post) r = pre ∧ lowerBound (pre ++ post) r = post := by
  have hpre' : ∀ x ∈ pre, x.before r = true :=
    fun x hx => by simpa [MemRegion.before] using hpre x hx
  rw [below, lowerBound, List.takeWhile_append_of_pos hpre', List.dropWhile_append_of_pos hpre']
  cases post with
  | nil => simp
  | cons y ys =>
    have hy : y.before r = false := by simpa [MemRegion.before] using hpost y (by simp)
    simp [hy]

/-- **`put` inserts** between the regions below and the regions above. -/
theorem put_append (hpre : ∀ x ∈ pre, x.stop < r.start)
    (hpost : ∀ x ∈ post, r.stop < x.start ∧ r.start ≤ x.stop) :
    put (pre ++ post) r = pre ++ r :: post := by
  obtain ⟨hb, hlb⟩ := lowerBound_append hpre fun x hx => (hpost x hx).2
  have hhead : post.head?.all (r.before ·) = true := by
    cases post with
    | nil => rfl
    | cons y ys => simpa [MemRegion.before] using (hpost y (by simp)).1
  rw [put, hlb, hb, if_pos hhead]

/-- **A region above all others** is appended, be it valid or not. -/
theorem insert_of_above (h : ∀ x ∈ l, x.stop < r.start) : insert l r = l ++ [r] := by
  have hlb : lowerBound (l ++ []) r = [] := (lowerBound_append h (by simp)).2
  have hput : put (l ++ []) r = l ++ [r] := put_append h (by simp)
  rw [List.append_nil] at hlb hput
  rw [insert, hlb, hput]

/-! ## `insert` -/

/-- What `absorb` leaves: one region for all it has taken, below the rest. -/
structure Absorbs (r : MemRegion T) (l : RegionSet T) (r' : MemRegion T) (rest : RegionSet T) :
    Prop where
  start : r'.start = r.start
  stop : r.stop ≤ r'.stop
  sublist : rest.Sublist l
  above : ∀ x ∈ rest, r'.stop < x.start
  cover : r'.addrs ∪ cover rest = r.addrs ∪ cover l

theorem absorb_spec (hl : Apart l) (hv : Valid l) (hstart : ∀ x ∈ l, r.start ≤ x.start) :
    Absorbs r l (absorb r l).1 (absorb r l).2 := by
  induction l with
  | nil => exact ⟨rfl, le_rfl, .slnil, by simp [absorb], rfl⟩
  | cons x xs ih =>
    obtain ⟨hx, hxs⟩ := List.pairwise_cons.mp hl
    have hle : r.start ≤ x.start := hstart x (by simp)
    have hxv : x.start < x.stop := hv x (by simp)
    rw [absorb]
    split_ifs with hcov htouch
    · -- `x` is covered
      obtain h := ih hxs (fun y hy => hv y (by simp [hy])) fun y hy => hstart y (by simp [hy])
      refine ⟨h.start, h.stop, h.sublist.cons _, h.above, ?_⟩
      have hsub : x.addrs ⊆ r.addrs := Set.Ico_subset_Ico hle hcov
      rw [h.cover, cover_cons, ← Set.union_assoc, Set.union_eq_left.mpr hsub]
    · -- `x` is merged
      refine ⟨rfl, (not_le.mp hcov).le, List.sublist_cons_self _ _, fun y hy => (hx y hy).1, ?_⟩
      have hmerge : r.addrs ∪ x.addrs = Set.Ico r.start x.stop := by
        rw [MemRegion.addrs, MemRegion.addrs, Set.Ico_union_Ico' htouch (hle.trans hxv.le),
          min_eq_left hle, max_eq_right (not_le.mp hcov).le]
      rw [cover_cons, ← Set.union_assoc, hmerge]
      rfl
    · -- all that is left lies above
      have habove : r.stop < x.start := not_le.mp htouch
      refine ⟨rfl, le_rfl, .refl _, fun y hy => ?_, rfl⟩
      rcases List.mem_cons.mp hy with rfl | hy
      · exact habove
      · exact (habove.trans hxv).trans (hx y hy).1

theorem joined_start_le (r x : MemRegion T) :
    (joined r x).start ≤ x.start ∧ (joined r x).start ≤ r.start := by
  rw [joined]
  split_ifs with h
  · exact ⟨le_rfl, h.le⟩
  · exact ⟨not_lt.mp h, le_rfl⟩

theorem lt_joined_start (hx : a < x.start) (hr : a < r.start) : a < (joined r x).start := by
  rw [joined]
  split_ifs
  · exact hx
  · exact hr

theorem joined_union (hr : r.start < r.stop) (hx : r.start ≤ x.stop) :
    (joined r x).addrs ∪ x.addrs = r.addrs ∪ x.addrs := by
  rw [joined]
  split_ifs with h
  · simp only [MemRegion.addrs]
    rw [Set.Ico_union_Ico' (h.trans hr).le (h.le.trans hx), Set.Ico_union_Ico' (h.trans hr).le hx,
      min_self, min_eq_right h.le]
  · rfl

/-- The set after `insert`: the new region between what stays below it and above it. -/
structure Inserts (l : RegionSet T) (r : MemRegion T) (pre rest : RegionSet T) : Prop where
  eq : insert l r = pre ++ inserted l r :: rest
  sublist : (pre ++ rest).Sublist l
  below : ∀ y ∈ pre, y.stop < (inserted l r).start
  above : ∀ y ∈ rest, (inserted l r).stop < y.start
  start : (inserted l r).start ≤ r.start
  stop : r.stop ≤ (inserted l r).stop
  cover : cover (pre ++ inserted l r :: rest) = r.addrs ∪ cover l

/-- Nothing is joined if all regions end below. -/
theorem inserts_of_above (h : ∀ x ∈ l, x.stop < r.start) : Inserts l r l [] := by
  have hlb : lowerBound (l ++ []) r = [] := (lowerBound_append h (by simp)).2
  have hreg : inserted l r = r := by
    rw [inserted, show l.lowerBound r = [] by simpa using hlb]
  refine ⟨by rw [hreg, insert_of_above h], by simp, by rwa [hreg], by simp, by rw [hreg], by
    rw [hreg], ?_⟩
  rw [hreg, cover_append, cover_cons, cover_nil, Set.union_empty, Set.union_comm]

theorem exists_inserts (hl : Apart l) (hv : Valid l) (hr : r.start < r.stop) :
    ∃ pre rest, Inserts l r pre rest := by
  have hsplit := below_append_lowerBound l r
  have hbelow : ∀ y ∈ l.below r, y.stop < r.start := fun y hy => stop_lt_of_mem_below hy
  cases hlb : l.lowerBound r with
  | nil =>
    rw [hlb, List.append_nil] at hsplit
    rw [hsplit] at hbelow
    exact ⟨l, [], inserts_of_above hbelow⟩
  | cons x xs =>
    have hx : r.start ≤ x.stop := hl.le_stop (by rw [hlb]; simp)
    have heq :
        insert l r = put (l.below r ++ (absorb (joined r x) (x :: xs)).2) (inserted l r) := by
      rw [insert, inserted, hlb]
    have hreg : inserted l r = (absorb (joined r x) (x :: xs)).1 := by rw [inserted, hlb]
    rw [hlb] at hsplit
    have hl' := hl
    rw [← hsplit] at hl'
    obtain ⟨hpre, hpost, hacross⟩ := List.pairwise_append.mp hl'
    have hvpost : Valid (x :: xs) := fun y hy => hv y (by rw [← hsplit]; simp [hy])
    have hstart : ∀ y ∈ x :: xs, (joined r x).start ≤ y.start := fun y hy => by
      rcases List.mem_cons.mp hy with rfl | hy
      · exact (joined_start_le r y).1
      · have hxy := ((List.pairwise_cons.mp hpost).1 y hy).1
        exact ((joined_start_le r x).1.trans (hvpost x (by simp)).le).trans hxy.le
    obtain ⟨hs, hstop, hsub, habove, hcover⟩ := absorb_spec hpost hvpost hstart
    rw [← hreg] at hs hstop habove hcover
    generalize (absorb (joined r x) (x :: xs)).2 = rest at *
    have hlt : (inserted l r).start < (inserted l r).stop := by
      rw [hs]
      exact ((joined_start_le r x).2.trans_lt hr).trans_le hstop
    have hbelow' : ∀ y ∈ l.below r, y.stop < (inserted l r).start := fun y hy => by
      rw [hs]
      exact lt_joined_start (hacross y hy x (by simp)).1 (hbelow y hy)
    have hput : insert l r = l.below r ++ inserted l r :: rest := by
      refine heq.trans (put_append hbelow' fun y hy => ⟨habove y hy, ?_⟩)
      exact (hlt.trans ((habove y hy).trans (hvpost y (hsub.subset hy)))).le
    refine ⟨l.below r, rest, hput, ?_, hbelow', habove, hs ▸ (joined_start_le r x).2, hstop, ?_⟩
    · have hall := hsub.append_left (l.below r)
      rwa [hsplit] at hall
    · calc cover (l.below r ++ inserted l r :: rest)
          = cover (l.below r) ∪ ((joined r x).addrs ∪ x.addrs ∪ cover xs) := by
            rw [cover_append, cover_cons, hcover, cover_cons, Set.union_assoc]
        _ = r.addrs ∪ cover (l.below r ++ x :: xs) := by
            rw [joined_union hr hx, cover_append, cover_cons, Set.union_assoc, Set.union_left_comm]
        _ = r.addrs ∪ cover l := by rw [hsplit]

/-- **`insert`** adds the addresses of a valid region, and merges. -/
theorem insert_spec (hl : Apart l) (hv : Valid l) (hr : r.start < r.stop) :
    Apart (insert l r) ∧ Valid (insert l r) ∧ cover (insert l r) = r.addrs ∪ cover l := by
  obtain ⟨pre, rest, h⟩ := exists_inserts hl hv hr
  have hlt : (inserted l r).start < (inserted l r).stop := (h.start.trans_lt hr).trans_le h.stop
  have hvalid : ∀ y ∈ pre ++ rest, y.start < y.stop := fun y hy => hv y (h.sublist.subset hy)
  obtain ⟨hpre, hrest, hacross⟩ := List.pairwise_append.mp (List.Pairwise.sublist h.sublist hl)
  rw [h.eq]
  refine ⟨List.pairwise_append.mpr ⟨hpre, List.pairwise_cons.mpr ⟨fun y hy => ?_, hrest⟩,
    fun y hy z hz => ?_⟩, fun y hy => ?_, h.cover⟩
  · exact ⟨h.above y hy, (h.above y hy).le.trans (hvalid y (by simp [hy])).le⟩
  · rcases List.mem_cons.mp hz with rfl | hz
    · exact ⟨h.below y hy, (h.below y hy).le.trans hlt.le⟩
    · exact hacross y hy z hz
  · rcases List.mem_append.mp hy with hy | hy
    · exact hvalid y (by simp [hy])
    · rcases List.mem_cons.mp hy with rfl | hy
      · exact hlt
      · exact hvalid y (by simp [hy])

/-- Regions that are in order are inserted one after the other. -/
theorem foldl_insert (hl : Apart l) : l.foldl insert [] = l := by
  induction l using List.reverseRecOn with
  | nil => rfl
  | append_singleton l r ih =>
    obtain ⟨hinit, -, habove⟩ := List.pairwise_append.mp hl
    rw [List.foldl_append, ih hinit, List.foldl_cons, List.foldl_nil]
    exact insert_of_above fun x hx => (habove x hx r (by simp)).1

theorem Apart.apart_or {y : MemRegion T} (hl : Apart l) (hx : x ∈ l) (hy : y ∈ l) (hne : x ≠ y) :
    x.stop < y.start ∨ y.stop < x.start := by
  have hpair : l.Pairwise fun x y => x.stop < y.start ∨ y.stop < x.start := hl.imp fun h => .inl h.1
  have : Std.Symm fun x y : MemRegion T => x.stop < y.start ∨ y.stop < x.start :=
    ⟨fun _ _ h => h.symm⟩
  exact hpair.forall hx hy hne

/-- **An interval in the set** lies in one of its regions. -/
theorem Apart.exists_region {b : T} (hl : Apart l) (hab : a ≤ b) (h : Set.Icc a b ⊆ cover l) :
    ∃ x ∈ l, x.start ≤ a ∧ b < x.stop := by
  obtain ⟨x, hx, hxa, hax⟩ := h (Set.left_mem_Icc.mpr hab)
  refine ⟨x, hx, hxa, ?_⟩
  by_contra hb
  -- the end of `x` would be in another region
  obtain ⟨y, hy, hyx, hxy⟩ := h ⟨hax.le, not_lt.mp hb⟩
  rcases hl.apart_or hx hy (fun he => absurd hxy (he ▸ lt_irrefl _)) with h | h
  · exact absurd hyx (not_le.mpr h)
  · exact lt_irrefl _ ((hxa.trans_lt hax).trans (hxy.trans h))

/-! ## `remove` -/

/-- What is left of `t` below `r`, and above it. -/
def front (t r : MemRegion T) : RegionSet T := if t.start < r.start then [⟨t.start, r.start⟩]
      else []
def back (t r : MemRegion T) : RegionSet T := if r.stop < t.stop then [⟨r.stop, t.stop⟩] else []

theorem mem_front : x ∈ front t r ↔ t.start < r.start ∧ x = ⟨t.start, r.start⟩ := by
  rw [front]
  split_ifs with h <;> simp [h]

theorem mem_back : x ∈ back t r ↔ r.stop < t.stop ∧ x = ⟨r.stop, t.stop⟩ := by
  rw [back]
  split_ifs with h <;> simp [h]

/-- **`remove`** on the region that covers `r`. -/
theorem remove_append (hl : Apart (pre ++ t :: post)) (hr : r.start < r.stop)
    (hstart : t.start ≤ r.start) (hstop : r.stop ≤ t.stop) :
    remove (pre ++ t :: post) r = some (pre ++ (front t r ++ (back t r ++ post))) := by
  obtain ⟨-, hpost, hacross⟩ := List.pairwise_append.mp hl
  have habove : ∀ y ∈ post, t.stop < y.start ∧ t.stop ≤ y.stop := (List.pairwise_cons.mp hpost).1
  have hbelow : ∀ x ∈ pre, x.stop < t.start := fun x hx => (hacross x hx t (by simp)).1
  obtain ⟨hb, hlb⟩ :
      below (pre ++ t :: post) r = pre ∧ lowerBound (pre ++ t :: post) r = t :: post := by
    refine lowerBound_append (fun x hx => (hbelow x hx).trans_le hstart) fun y hy => ?_
    rcases List.mem_cons.mp hy with rfl | hy
    · exact hr.le.trans hstop
    · exact (hr.le.trans hstop).trans (habove y hy).2
  have hback : (if r.stop < t.stop then put (pre ++ post) ⟨r.stop, t.stop⟩ else pre ++ post) =
      pre ++ (back t r ++ post) := by
    rw [back]
    split_ifs
    · exact put_append (fun x hx => (hbelow x hx).trans (hstart.trans_lt hr)) fun y hy =>
        ⟨(habove y hy).1, hstop.trans (habove y hy).2⟩
    · rfl
  have hfront : (if t.start < r.start then put (pre ++ (back t r ++ post)) ⟨t.start, r.start⟩
      else pre ++ (back t r ++ post)) = pre ++ (front t r ++ (back t r ++ post)) := by
    rw [front]
    split_ifs
    · refine put_append (fun x hx => hbelow x hx) fun y hy => ?_
      rcases List.mem_append.mp hy with hy | hy
      · obtain ⟨-, rfl⟩ := mem_back.mp hy
        exact ⟨hr, hstart.trans (hr.le.trans hstop)⟩
      · have hle : r.start < t.stop := hr.trans_le hstop
        exact ⟨hle.trans (habove y hy).1, hstart.trans (hle.le.trans (habove y hy).2)⟩
    · rfl
  rw [remove, hlb]
  dsimp only
  rw [if_neg (by simp [hstart, hstop]), hb, hback, hfront]

/-- `remove` fails unless a region covers `r`. -/
theorem remove_eq_some (hl : Apart l) (hr : r.start < r.stop) (h : remove l r = some l') :
    ∃ pre t post, l = pre ++ t :: post ∧ t.start ≤ r.start ∧ r.stop ≤ t.stop ∧
      l' = pre ++ (front t r ++ (back t r ++ post)) := by
  have hrem := h
  rw [remove] at hrem
  split at hrem
  · cases hrem
  rename_i t post hlb
  have hsplit := below_append_lowerBound l r
  rw [hlb] at hsplit
  by_cases hcov : r.start < t.start ∨ t.stop < r.stop
  · rw [if_pos hcov] at hrem
    cases hrem
  · rw [not_or, not_lt, not_lt] at hcov
    rw [← hsplit] at hl h
    rw [remove_append hl hr hcov.1 hcov.2] at h
    exact ⟨_, t, post, hsplit.symm, hcov.1, hcov.2, (Option.some.inj h).symm⟩

/-- The pieces are valid and lie within `t`. -/
theorem piece_bounds (hr : r.start < r.stop) (hstart : t.start ≤ r.start) (hstop : r.stop ≤ t.stop)
    (hx : x ∈ front t r ++ back t r) : t.start ≤ x.start ∧ x.start < x.stop ∧ x.stop ≤ t.stop := by
  rcases List.mem_append.mp hx with hx | hx
  · obtain ⟨hlt, rfl⟩ := mem_front.mp hx
    exact ⟨le_rfl, hlt, hr.le.trans hstop⟩
  · obtain ⟨hlt, rfl⟩ := mem_back.mp hx
    exact ⟨hstart.trans hr.le, hlt, le_rfl⟩

theorem cover_pieces (hr : r.start < r.stop) (hstart : t.start ≤ r.start)
    (hstop : r.stop ≤ t.stop) : cover (front t r ++ back t r) = t.addrs \ r.addrs := by
  ext a
  simp only [cover, List.mem_append, mem_front, mem_back, Set.mem_ofPred_eq, MemRegion.addrs,
    Set.mem_sdiff, Set.mem_Ico]
  constructor
  · rintro ⟨x, ⟨-, rfl⟩ | ⟨-, rfl⟩, hle, hlt⟩
    · exact ⟨⟨hle, hlt.trans (hr.trans_le hstop)⟩, fun h => absurd h.1 (not_le.mpr hlt)⟩
    · exact ⟨⟨(hstart.trans hr.le).trans hle, hlt⟩, fun h => absurd hle (not_le.mpr h.2)⟩
  · rintro ⟨⟨hle, hlt⟩, hout⟩
    rcases lt_or_ge a r.start with ha | ha
    · exact ⟨_, .inl ⟨hle.trans_lt ha, rfl⟩, hle, ha⟩
    · have hge : r.stop ≤ a := not_lt.mp fun h => hout ⟨ha, h⟩
      exact ⟨_, .inr ⟨hge.trans_lt hlt, rfl⟩, hge, hlt⟩

/-- What `l'` has of `l` once `r` is taken out. -/
structure Carves (l : RegionSet T) (r : MemRegion T) (l' : RegionSet T) : Prop where
  apart : Apart l'
  cover : cover l' = RegionSet.cover l \ r.addrs
  /-- regions that are not valid stay, and no new ones come -/
  mem_iff : ∀ x : MemRegion T, ¬ x.start < x.stop → (x ∈ l' ↔ x ∈ l)
  ends : ∀ P : T → Prop, P r.start → P r.stop → (∀ x ∈ l, P x.start ∧ P x.stop) →
    ∀ x ∈ l', P x.start ∧ P x.stop

/-- **`remove`** takes a region out. -/
theorem remove_spec (hl : Apart l) (hr : r.start < r.stop) (h : remove l r = some l') :
    Carves l r l' := by
  obtain ⟨pre, t, post, rfl, hstart, hstop, rfl⟩ := remove_eq_some hl hr h
  rw [← List.append_assoc (front t r)]
  obtain ⟨hpre, hpost, hacross⟩ := List.pairwise_append.mp hl
  obtain ⟨habove, hpost'⟩ := List.pairwise_cons.mp hpost
  have hbelow : ∀ x ∈ pre, x.stop < t.start := fun x hx => (hacross x hx t (by simp)).1
  have hpiece : ∀ x ∈ front t r ++ back t r, t.start ≤ x.start ∧ x.start < x.stop ∧
      x.stop ≤ t.stop :=
    fun x hx => piece_bounds hr hstart hstop hx
  refine ⟨?_, ?_, fun x hx => ?_, fun P hPs hPe hP x hx => ?_⟩
  · have hpieces : Apart (front t r ++ back t r) := by
      refine List.pairwise_append.mpr ⟨?_, ?_, fun x hx y hy => ?_⟩
      · rw [front]
        split_ifs <;> simp
      · rw [back]
        split_ifs <;> simp
      · obtain ⟨-, rfl⟩ := mem_front.mp hx
        obtain ⟨-, rfl⟩ := mem_back.mp hy
        exact ⟨hr, hr.le.trans hstop⟩
    refine List.pairwise_append.mpr ⟨hpre,
      List.pairwise_append.mpr ⟨hpieces, hpost', fun x hx y hy => ?_⟩,
      fun x hx y hy => ?_⟩
    · exact ⟨(hpiece x hx).2.2.trans_lt (habove y hy).1, (hpiece x hx).2.2.trans (habove y hy).2⟩
    · rcases List.mem_append.mp hy with hy | hy
      · have hlt : x.stop < y.start := (hbelow x hx).trans_le (hpiece y hy).1
        exact ⟨hlt, hlt.le.trans (hpiece y hy).2.1.le⟩
      · exact hacross x hx y (by simp [hy])
  · have hdisj : ∀ {m : RegionSet T}, (∀ x ∈ m, x.stop ≤ r.start ∨ r.stop ≤ x.start) →
        cover m \ r.addrs = cover m := fun {m} hm => by
      refine (Set.disjoint_left.mpr ?_).sdiff_eq_left
      rintro a ⟨x, hx, hax⟩ har
      rcases hm x hx with h | h
      · exact absurd har.1 (not_le.mpr (hax.2.trans_le h))
      · exact absurd har.2 (not_lt.mpr (h.trans hax.1))
    rw [cover_append, cover_append, cover_pieces hr hstart hstop, cover_append, cover_cons,
      Set.union_sdiff_distrib, Set.union_sdiff_distrib,
        hdisj fun x hx => .inl ((hbelow x hx).le.trans hstart),
        hdisj fun x hx => .inr (hstop.trans (habove x hx).1.le)]
  · have ht : x ≠ t := fun he => hx (he ▸ hstart.trans_lt (hr.trans_le hstop))
    have hp : x ∉ front t r ++ back t r := fun h => hx (hpiece x h).2.1
    simp only [List.mem_append, List.mem_cons, ht, false_or] at hp ⊢
    simp only [hp, false_or]
  · have ht := hP t (by simp)
    rcases List.mem_append.mp hx with hx | hx
    · exact hP x (by simp [hx])
    · rcases List.mem_append.mp hx with hx | hx
      · rcases List.mem_append.mp hx with hx | hx
        · obtain ⟨-, rfl⟩ := mem_front.mp hx
          exact ⟨ht.1, hPs⟩
        · obtain ⟨-, rfl⟩ := mem_back.mp hx
          exact ⟨hPe, ht.2⟩
      · exact hP x (by simp [hx])

/-! ## `retrieve` -/

theorem findBlock_eq_some {l : RegionSet ℕ} {s b : ℕ} (h : findBlock s l = some b) :
    ∃ x ∈ l, b = alignUp x.start s ∧ wadd b s ≤ x.stop := by
  induction l with
  | nil => cases h
  | cons x xs ih =>
    rw [findBlock] at h
    split_ifs at h with hx
    · cases h
      exact ⟨x, by simp, rfl, hx⟩
    · obtain ⟨y, hy, hb⟩ := ih h
      exact ⟨y, by simp [hy], hb⟩

/-- **`retrieve`** takes an aligned block out. -/
theorem retrieve_spec {l l' : RegionSet ℕ} {k b : ℕ} (hk : k ≤ 64) (hl : Apart l)
    (hword : ∀ x ∈ l, x.start + 2 ^ k + 2 ^ k < wordSize) (h : l.retrieve (2 ^ k) = (b, l'))
    (hb : b ≠ limit) : b % 2 ^ k = 0 ∧ (∃ x ∈ l, b + 2 ^ k ≤ x.stop) ∧
      Carves l ⟨b, b + 2 ^ k⟩ l' := by
  rw [retrieve] at h
  split at h
  · rename_i c hc
    cases h
    obtain ⟨x, hx, rfl, hstop⟩ := findBlock_eq_some hc
    have hw := hword x hx
    have hpos : 0 < 2 ^ k := Nat.two_pow_pos k
    have hup : alignUp x.start (2 ^ k) = (x.start + 2 ^ k - 1) / 2 ^ k * 2 ^ k :=
      alignUp_eq (by omega) hk
    have hle : x.start ≤ alignUp x.start (2 ^ k) ∧ alignUp x.start (2 ^ k) < x.start + 2 ^ k := by
      have := Nat.div_add_mod' (x.start + 2 ^ k - 1) (2 ^ k)
      have := Nat.mod_lt (x.start + 2 ^ k - 1) hpos
      omega
    rw [wadd_of_lt (by omega)] at hstop ⊢
    refine ⟨by rw [hup, Nat.mul_mod_left], ⟨x, hx, hstop⟩, ?_⟩
    have hlt : alignUp x.start (2 ^ k) < alignUp x.start (2 ^ k) + 2 ^ k := by omega
    obtain ⟨pre, post, rfl⟩ := List.append_of_mem hx
    have hrem := remove_append (r := ⟨alignUp x.start (2 ^ k), _⟩) hl hlt hle.1 hstop
    rw [hrem]
    exact remove_spec hl hlt hrem
  · exact absurd (Prod.mk.inj h).1.symm hb

end RegionSet

end Kos
