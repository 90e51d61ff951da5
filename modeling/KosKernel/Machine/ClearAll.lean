import KosKernel.Machine.PageWalk

/-!
# Machine/ClearAll — what the teardown of page tables releases

`clearAll` reads an entry before it changes anything below or at it, and the parts of the tables
below two entries of one level are apart.  So the calls of `releaseFrame` it makes are those for the
entries that are present at the start, each entry once.
-/

namespace Kos

open PageEntry

namespace Paging

variable {t t' : Tables} {N i n j : ℕ} {x : ℕ × ℕ}

/-- The entries at and below the entry `j` of level `N`. -/
def Below (N j : ℕ) (x : ℕ × ℕ) : Prop := 1 ≤ x.1 ∧ x.1 ≤ N ∧ x.2 / pagetableentries ^ (N - x.1) = j

/-- The call that `clearAll` makes for an entry that is present. -/
def callOf (t : Tables) (x : ℕ × ℕ) : ℕ × ℕ :=
  (if isPage x.1 (t x.1 x.2) then x.1 else pagetablepl, (t x.1 x.2).addr.toNat)

/-- The entries at and below the entry `j` of level `N` that `clearAll` finds present, with those of
the next level as `below`. -/
def clearedOne (t : Tables) (below : ℕ → List (ℕ × ℕ)) (N j : ℕ) : List (ℕ × ℕ) :=
  if (t N j).present = false then []
  else if isPage N (t N j) then [(N, j)]
  else below (j * pagetableentries) ++ [(N, j)]

/-- The entries that `clearAll` finds present, in the order of its calls. -/
def cleared (t : Tables) : ℕ → ℕ → ℕ → List (ℕ × ℕ)
  | 0, _, _ => []
  | N + 1, i, n => (List.range' i n).flatMap
      (clearedOne t (fun j => cleared t N j pagetableentries) (N + 1))

/-! ## Parts -/

theorem below_self (hN : 1 ≤ N) (j : ℕ) : Below N j (N, j) := ⟨hN, le_rfl, by simp⟩

/-- Below an entry there are the entries of its table and what is below them. -/
theorem below_succ : Below (N + 1) j x ↔ (x = (N + 1, j)) ∨
    ∃ k, j * pagetableentries ≤ k ∧ k < j * pagetableentries + pagetableentries ∧ Below N k x := by
  constructor
  · rintro ⟨h1, hle, hdiv⟩
    rcases Nat.of_le_succ hle with hle' | heq
    · obtain ⟨k, hk⟩ : ∃ k, x.2 / pagetableentries ^ (N - x.1) = k := ⟨_, rfl⟩
      rw [Nat.succ_sub hle', pow_succ, ← Nat.div_div_eq_div_mul, hk] at hdiv
      have hk512 : j * pagetableentries ≤ k ∧ k < j * pagetableentries + pagetableentries := by
        rw [show pagetableentries = 512 from rfl] at hdiv ⊢
        omega
      exact Or.inr ⟨k, hk512.1, hk512.2, h1, hle', hk⟩
    · rw [heq] at hdiv
      exact Or.inl (Prod.ext heq (by simpa using hdiv))
  · rintro (rfl | ⟨k, hk, hk', h1, hle, hdiv⟩)
    · exact below_self (Nat.succ_pos N) j
    · refine ⟨h1, hle.trans N.le_succ, ?_⟩
      rw [Nat.succ_sub hle, pow_succ, ← Nat.div_div_eq_div_mul, hdiv]
      exact Nat.div_eq_of_lt_le hk (by rw [Nat.succ_mul]; exact hk')

theorem Below.unique {j' : ℕ} (h : Below N j x) (h' : Below N j' x) : j = j' :=
  h.2.2.symm.trans h'.2.2

/-! ## The loop -/

/-- A loop whose iterations touch disjoint parts, and read only their own, computes each from the
start. -/
theorem clearLoop_spec {one : Tables → ℕ → List (ℕ × ℕ) × Tables} {g : Tables → ℕ → List (ℕ × ℕ)}
    (hcalls : ∀ t j, (one t j).1 = g t j)
    (hframe : ∀ t j x, ¬ Below N j x → (one t j).2 x.1 x.2 = t x.1 x.2)
    (hcongr : ∀ t t' j, (∀ x, Below N j x → t' x.1 x.2 = t x.1 x.2) → g t' j = g t j) (n : ℕ) :
    ∀ (i : ℕ) (t : Tables), (clearLoop one i n t).1 = (List.range' i n).flatMap (g t) ∧
      ∀ x, (∀ j, i ≤ j → j < i + n → ¬ Below N j x) →
      (clearLoop one i n t).2 x.1 x.2 = t x.1 x.2 := by
  induction n with
  | zero => exact fun i t => ⟨rfl, fun x _ => rfl⟩
  | succ n ih =>
    intro i t
    obtain ⟨ih1, ih2⟩ := ih (i + 1) (one t i).2
    have hrest : (List.range' (i + 1) n).flatMap (g (one t i).2) =
        (List.range' (i + 1) n).flatMap (g t) := by
      refine List.flatMap_congr fun j hj => hcongr _ _ j fun x hx => hframe t i x fun hc => ?_
      have := hc.unique hx
      have := (List.mem_range'_1.mp hj).1
      omega
    refine ⟨?_, fun x hx => ?_⟩
    · show (one t i).1 ++ (clearLoop one (i + 1) n (one t i).2).1 = _
      rw [ih1, hrest, hcalls, List.range'_succ, List.flatMap_cons]
    · show (clearLoop one (i + 1) n (one t i).2).2 x.1 x.2 = _
      rw [ih2 x fun j h1 h2 => hx j (by omega) (by omega)]
      exact hframe t i x (hx i le_rfl (by omega))

/-- The calls for a part of the tables depend on that part only. -/
theorem cleared_congr (N : ℕ) : ∀ {i n : ℕ},
    (∀ j x, i ≤ j → j < i + n → Below N j x → t' x.1 x.2 = t x.1 x.2) →
    (cleared t' N i n).map (callOf t') = (cleared t N i n).map (callOf t) := by
  induction N with
  | zero => exact fun _ => rfl
  | succ N ih =>
    intro i n h
    simp only [cleared, List.map_flatMap]
    refine List.flatMap_congr fun j hj => ?_
    obtain ⟨h1, h2⟩ := List.mem_range'_1.mp hj
    have hself : t' (N + 1) j = t (N + 1) j := h j (N + 1, j) h1 h2 (below_self N.succ_pos j)
    have hbelow : (cleared t' N (j * pagetableentries) pagetableentries).map (callOf t') =
        (cleared t N (j * pagetableentries) pagetableentries).map (callOf t) :=
      ih fun k x hk hk' hx => h j x h1 h2 (below_succ.mpr (Or.inr ⟨k, hk, hk', hx⟩))
    have hcall : callOf t' (N + 1, j) = callOf t (N + 1, j) := by
      simp only [callOf, hself]
    unfold clearedOne
    rw [hself]
    split
    · rfl
    · split
      · rw [List.map_singleton, List.map_singleton, hcall]
      · rw [List.map_append, List.map_append, hbelow, List.map_singleton, List.map_singleton, hcall]

/-- **The calls of `clearAll`**, and the entries it leaves alone. -/
theorem clearAll_spec (N : ℕ) : ∀ (i n : ℕ) (t : Tables),
    (clearAll N i n t).1 = (cleared t N i n).map (callOf t) ∧
      ∀ x, (∀ j, i ≤ j → j < i + n → ¬ Below N j x) → (clearAll N i n t).2 x.1 x.2 = t x.1 x.2 := by
  induction N with
  | zero => exact fun i n t => ⟨rfl, fun x _ => rfl⟩
  | succ N ih =>
    intro i n t
    let one := clearOne (fun j t => clearAll N j pagetableentries t) (N + 1)
    let g :=
      fun t j => (clearedOne t (fun j => cleared t N j pagetableentries) (N + 1) j).map (callOf t)
    have hcalls : ∀ t j, (one t j).1 = g t j := by
      intro t j
      show (clearOne _ (N + 1) t j).1 = (clearedOne t _ (N + 1) j).map (callOf t)
      unfold clearOne clearedOne
      dsimp only
      split
      · rfl
      · split
        · rename_i hpage
          simp [callOf, hpage]
        · rename_i hpage
          simp [callOf, hpage, (ih (j * pagetableentries) pagetableentries t).1]
    have hframe : ∀ t j x, ¬ Below (N + 1) j x → (one t j).2 x.1 x.2 = t x.1 x.2 := by
      intro t j x hx
      rw [below_succ, not_or] at hx
      have hset : ∀ t' : Tables, setPE t' (N + 1, j) 0 x.1 x.2 = t' x.1 x.2 := fun t' => if_neg hx.1
      show (clearOne _ (N + 1) t j).2 x.1 x.2 = t x.1 x.2
      unfold clearOne
      dsimp only
      split
      · exact hset t
      · split
        · exact hset t
        · refine (hset _).trans ((ih _ _ t).2 x fun k hk hk' hb => hx.2 ⟨k, hk, hk', hb⟩)
    have hcongr : ∀ t t' j, (∀ x, Below (N + 1) j x → t' x.1 x.2 = t x.1 x.2) → g t' j = g t j := by
      intro t t' j h
      have := cleared_congr (N + 1) (i := j) (n := 1) fun k x h1 h2 hx => h x (by
        obtain rfl : k = j := by omega
        exact hx)
      simpa [cleared] using this
    have hspec := clearLoop_spec hcalls hframe hcongr n i t
    rw [clearAll, cleared, List.map_flatMap]
    exact hspec

theorem clearOne_self (below : ℕ → Tables → List (ℕ × ℕ) × Tables) (t : Tables) (j : ℕ) :
    (clearOne below N t j).2 N j = 0 := by
  unfold clearOne
  dsimp only
  split
  · exact if_pos rfl
  · split
    · exact if_pos rfl
    · exact if_pos rfl

/-- **The entries that `clearAll<N>` walks over are cleared.** -/
theorem clearAll_self (n : ℕ) (h1 : i ≤ j) (h2 : j < i + n) :
    (clearAll (N + 1) i n t).2 (N + 1) j = 0 := by
  induction n generalizing i j t with
  | zero => omega
  | succ n ih =>
    show (clearAll (N + 1) (i + 1) n
      (clearOne (fun j t => clearAll N j pagetableentries t) (N + 1) t i).2).2 (N + 1) j = 0
    rcases eq_or_lt_of_le h1 with rfl | hlt
    · rw [(clearAll_spec (N + 1) (i + 1) n _).2 (N + 1, i) fun k hk _ hb => ?_]
      · exact clearOne_self _ t i
      · have := hb.unique (below_self N.succ_pos i)
        omega
    · exact ih hlt (by omega)

/-- The entries found present are in the part that is walked. -/
theorem mem_cleared (N : ℕ) : ∀ {i n : ℕ}, x ∈ cleared t N i n →
    (t x.1 x.2).present = true ∧ ∃ j, i ≤ j ∧ j < i + n ∧ Below N j x := by
  induction N with
  | zero => exact fun h => absurd h List.not_mem_nil
  | succ N ih =>
    intro i n h
    obtain ⟨j, hj, hx⟩ := List.mem_flatMap.mp h
    obtain ⟨h1, h2⟩ := List.mem_range'_1.mp hj
    unfold clearedOne at hx
    split at hx
    · cases hx
    rename_i hp
    have hself : x = (N + 1, j) → (t x.1 x.2).present = true ∧ ∃ j, i ≤ j ∧ j < i + n ∧
        Below (N + 1) j x := by
      rintro rfl
      exact ⟨by simpa using hp, j, h1, h2, below_self N.succ_pos j⟩
    split at hx
    · exact hself (List.mem_singleton.mp hx)
    · rcases List.mem_append.mp hx with hx | hx
      · obtain ⟨hp', k, hk, hk', hb⟩ := ih hx
        exact ⟨hp', j, h1, h2, below_succ.mpr (Or.inr ⟨k, hk, hk', hb⟩)⟩
      · exact hself (List.mem_singleton.mp hx)

/-- An entry that is present, below tables only, is found. -/
theorem mem_cleared_of_present (hp : (t x.1 x.2).present = true) (N : ℕ) : ∀ {i n j : ℕ},
    i ≤ j → j < i + n → Below N j x → (∀ M, x.1 < M → M ≤ N →
      isTable M (t M (x.2 / pagetableentries ^ (M - x.1))) = true) → x ∈ cleared t N i n := by
  induction N with
  | zero => exact fun _ _ hb => absurd (hb.1.trans hb.2.1) (by decide)
  | succ N ih =>
    intro i n j hi hj hb htab
    refine List.mem_flatMap.mpr ⟨j, List.mem_range'_1.mpr ⟨hi, hj⟩, ?_⟩
    rcases below_succ.mp hb with rfl | ⟨k, hk, hk', hbk⟩
    · rw [clearedOne, if_neg (by simp [hp])]
      split
      · exact List.mem_singleton_self _
      · exact List.mem_append_right _ (List.mem_singleton_self _)
    · have hj' : isTable (N + 1) (t (N + 1) j) = true :=
        hb.2.2 ▸ htab (N + 1) (Nat.lt_succ_of_le hbk.2.1) le_rfl
      obtain ⟨hpj, hpage⟩ :
          (t (N + 1) j).present = true ∧ isPage (N + 1) (t (N + 1) j) = false := by
        simpa [isTable] using hj'
      rw [clearedOne, if_neg (by simp [hpj]), if_neg (by simp [hpage])]
      exact List.mem_append_left _ (ih hk hk' hbk fun M hM hMN => htab M hM (hMN.trans N.le_succ))

/-- **No entry is walked twice.** -/
theorem nodup_cleared (N : ℕ) : ∀ {i n : ℕ}, (cleared t N i n).Nodup := by
  induction N with
  | zero => exact List.nodup_nil
  | succ N ih =>
    intro i n
    have hone : ∀ j, ∀ x ∈ clearedOne t (fun j => cleared t N j pagetableentries) (N + 1) j,
        Below (N + 1) j x := by
      intro j x hx
      have hx' : x ∈ cleared t (N + 1) j 1 := by simpa [cleared] using hx
      obtain ⟨-, k, hk, hk', hb⟩ := mem_cleared (N + 1) hx'
      obtain rfl : k = j := by omega
      exact hb
    refine List.nodup_flatMap.mpr ⟨fun j _ => ?_, ?_⟩
    · unfold clearedOne
      split
      · exact List.nodup_nil
      · split
        · exact List.nodup_singleton _
        · refine List.Nodup.append ih (List.nodup_singleton _) fun x hx hx' => ?_
          obtain rfl := List.mem_singleton.mp hx'
          obtain ⟨-, k, -, -, hb⟩ := mem_cleared N hx
          exact absurd hb.2.1 (by simp)
    · have hrange : (List.range' i n).Nodup := List.nodup_range'
      refine hrange.imp fun {a b} hab => ?_
      exact fun x hx hx' => hab ((hone a x hx).unique (hone b x hx'))

end Paging

end Kos
