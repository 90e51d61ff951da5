import Mathlib.Data.Fintype.Order
import Mathlib.Data.List.Nodup
import Mathlib.Logic.Relation
import Mathlib.Order.WellFounded

/-!
# Lib/Walks — visiting a graph without marking the nodes

A node is a list of items and of links to other nodes.  `walk` collects the items of a node and
follows each link where it finds it; it marks no node, so it comes to a node once for each `Trail`
that leads there.  The depth of the recursion is bounded, and `walk` gives `none` if the bound is
reached.

* `exists_walk_iff` — some depth is enough if and only if no node behind the start reaches itself.
* `mem_walk`, `nodup_walk` — the collected items are the trails to a node that holds the item, each
  of them once.
* `Emits` — how an accumulating visitor is compared with `collect`, part by part.
-/

namespace Walks

variable {β ι κ : Type}

/-! ## Cycles -/

variable {r : β → β → Prop}

/-- In a finite graph a node starts no infinite path if and only if it does not lead to a cycle. -/
theorem acc_iff_acyclic [Finite β] {a : β} :
    Acc (flip r) a ↔ ∀ b, Relation.ReflTransGen r a b → ¬ Relation.TransGen r b b := by
  constructor
  · intro h
    induction h with
    | intro a _ ih =>
      intro b hab hbb
      -- a cycle through `a` itself passes through a successor of `a` as well
      obtain ⟨c, hac, hcb⟩ : ∃ c, r a c ∧ ∃ b, Relation.ReflTransGen r c b ∧
          Relation.TransGen r b b := by
        obtain rfl | ⟨c, hac, hcb⟩ := hab.cases_head
        · obtain ⟨c, hac, hca⟩ := Relation.TransGen.head'_iff.mp hbb
          exact ⟨c, hac, a, hca, hbb⟩
        · exact ⟨c, hac, b, hcb, hbb⟩
      obtain ⟨b, hcb, hbb⟩ := hcb
      exact ih c hac b hcb hbb
  · intro h
    -- the paths between nodes behind `a` are a strict order
    let below : β → β → Prop := fun c b => Relation.ReflTransGen r a b ∧ Relation.TransGen r b c
    have : IsTrans β below := ⟨fun _ _ _ hab hbc => ⟨hbc.1, hbc.2.trans hab.2⟩⟩
    have : Std.Irrefl below := ⟨fun b hb => h b hb.1 hb.2⟩
    have hacc := (Finite.wellFounded_of_trans_of_irrefl below).apply a
    have hkey : ∀ b, Acc below b → Relation.ReflTransGen r a b → Acc (flip r) b := by
      intro b hb
      induction hb with
      | intro b _ ih => exact fun hab => ⟨_, fun c hc => ih c ⟨hab, .single hc⟩ (hab.tail hc)⟩
    exact hkey a hacc .refl

/-! ## Collecting items -/

/-- The items of a list and those that `inner` finds behind its links, each with the links that lead
to it. -/
def collect (inner : κ → Option (List (List κ × ι))) : List (ι ⊕ κ) → Option (List (List κ × ι))
  | [] => some []
  | .inl i :: xs => (collect inner xs).map (([], i) :: ·)
  | .inr k :: xs =>
    (inner k).bind fun found => (collect inner xs).map (found.map (fun p => (k :: p.1, p.2)) ++ ·)

section collect

variable {inner : κ → Option (List (List κ × ι))} {xs ys : List (ι ⊕ κ)} {found : List (List κ × ι)}

theorem collect_append :
    collect inner (xs ++ ys) =
      (collect inner xs).bind fun found => (collect inner ys).map (found ++ ·) := by
  induction xs with
  | nil => simp [collect]
  | cons x xs ih =>
    cases x with
    | inl i =>
      rw [List.cons_append, collect, ih, collect]
      cases collect inner xs <;> cases collect inner ys <;> rfl
    | inr k =>
      rw [List.cons_append, collect, ih, collect]
      cases inner k <;> cases collect inner xs <;> cases collect inner ys <;> simp

theorem isSome_collect : (collect inner xs).isSome ↔ ∀ k, .inr k ∈ xs → (inner k).isSome := by
  induction xs with
  | nil => simp [collect]
  | cons x xs ih =>
    cases x with
    | inl i => simpa [collect] using ih
    | inr k =>
      cases hk : inner k with
      | none => simp [collect, hk]
      | some found => simp [collect, hk, ih]

theorem mem_collect (h : collect inner xs = some found) {ks : List κ} {i : ι} :
    (ks, i) ∈ found ↔
      (ks = [] ∧ .inl i ∈ xs) ∨
        ∃ k rest behind, ks = k :: rest ∧ .inr k ∈ xs ∧ inner k = some behind ∧
      (rest, i) ∈ behind := by
  induction xs generalizing found with
  | nil =>
    cases h
    simp
  | cons x xs ih =>
    cases x with
    | inl j =>
      obtain ⟨found, hxs, rfl⟩ := Option.map_eq_some_iff.mp h
      rw [List.mem_cons, ih hxs]
      simp only [Prod.mk.injEq, List.mem_cons, Sum.inl.injEq, reduceCtorEq, false_or]
      tauto
    | inr k =>
      obtain ⟨behind, hk, h⟩ := Option.bind_eq_some_iff.mp h
      obtain ⟨found, hxs, rfl⟩ := Option.map_eq_some_iff.mp h
      rw [List.mem_append, ih hxs]
      simp only [List.mem_map, Prod.mk.injEq, Prod.exists, List.mem_cons, reduceCtorEq, false_or,
        Sum.inr.injEq]
      constructor
      · rintro (⟨rest, _, hmem, rfl, rfl⟩ | hnil | ⟨k', rest, behind', hks, hk', hin, hmem⟩)
        · exact .inr ⟨k, rest, behind, rfl, .inl rfl, hk, hmem⟩
        · exact .inl hnil
        · exact .inr ⟨k', rest, behind', hks, .inr hk', hin, hmem⟩
      · rintro (hnil | ⟨k', rest, behind', rfl, rfl | hk', hin, hmem⟩)
        · exact .inr (.inl hnil)
        · obtain rfl := Option.some.inj (hk.symm.trans hin)
          exact .inl ⟨rest, i, hmem, rfl, rfl⟩
        · exact .inr (.inr ⟨k', rest, behind', rfl, hk', hin, hmem⟩)

theorem nodup_collect (h : collect inner xs = some found) (hxs : xs.Nodup)
    (hin : ∀ k behind, inner k = some behind → behind.Nodup) : found.Nodup := by
  induction xs generalizing found with
  | nil =>
    cases h
    exact List.nodup_nil
  | cons x xs ih =>
    obtain ⟨hx, hrest⟩ := List.nodup_cons.mp hxs
    cases x with
    | inl i =>
      obtain ⟨found, hfound, rfl⟩ := Option.map_eq_some_iff.mp h
      refine List.nodup_cons.mpr ⟨fun hmem => ?_, ih hfound hrest⟩
      obtain ⟨-, hi⟩ | ⟨k, rest, behind, hks, -⟩ := (mem_collect hfound).mp hmem
      · exact hx hi
      · cases hks
    | inr k =>
      obtain ⟨behind, hk, h⟩ := Option.bind_eq_some_iff.mp h
      obtain ⟨found, hfound, rfl⟩ := Option.map_eq_some_iff.mp h
      have hinj : Function.Injective fun p : List κ × ι => (k :: p.1, p.2) := by
        rintro ⟨_, _⟩ ⟨_, _⟩ heq
        simpa using heq
      refine List.Nodup.append ((hin k behind hk).map hinj) (ih hfound hrest) ?_
      rintro ⟨ks, i⟩ hleft hright
      obtain ⟨p, -, hp⟩ := List.mem_map.mp hleft
      cases hp
      obtain ⟨hks, -⟩ | ⟨k', rest, _, hks, hk', -⟩ := (mem_collect hfound).mp hright
      · cases hks
      · obtain ⟨rfl, -⟩ := List.cons.inj hks
        exact hx hk'

end collect

/-! ## Trails and walks -/

/-- The links `ks` lead from `a` to `b`. -/
def Trail (link : β → κ → Prop) (target : κ → β) : List κ → β → β → Prop
  | [], a, b => a = b
  | k :: ks, a, b => link a k ∧ Trail link target ks (target k) b

/-- Visits a node, to a depth of at most `n` links. -/
def walk (node : β → List (ι ⊕ κ)) (target : κ → β) : ℕ → β → Option (List (List κ × ι))
  | 0, _ => none
  | n + 1, b => collect (fun k => walk node target n (target k)) (node b)

section walk

variable {node : β → List (ι ⊕ κ)} {target : κ → β} {link : β → κ → Prop} {n m : ℕ} {b : β}
  {found : List (List κ × ι)}

theorem isSome_walk_mono (hnm : n ≤ m) (h : (walk node target n b).isSome) :
    (walk node target m b).isSome := by
  induction n generalizing m b with
  | zero => cases h
  | succ n ih =>
    obtain ⟨m, rfl⟩ : ∃ m', m = m' + 1 := ⟨m - 1, by omega⟩
    exact isSome_collect.mpr fun k hk => ih (by omega) (isSome_collect.mp h k hk)

/-- One depth is enough for all links of a list. -/
theorem exists_collect_walk {xs : List (ι ⊕ κ)}
    (h : ∀ k, .inr k ∈ xs → ∃ n, (walk node target n (target k)).isSome) :
    ∃ n, (collect (fun k => walk node target n (target k)) xs).isSome := by
  suffices hall : ∃ n, ∀ k, .inr k ∈ xs → (walk node target n (target k)).isSome by
    exact hall.imp fun n hn => isSome_collect.mpr hn
  induction xs with
  | nil => exact ⟨0, by simp⟩
  | cons x xs ih =>
    obtain ⟨n, hn⟩ := ih fun k hk => h k (List.mem_cons_of_mem x hk)
    cases x with
    | inl i => exact ⟨n, by simpa using hn⟩
    | inr k =>
      obtain ⟨m, hm⟩ := h k List.mem_cons_self
      refine ⟨max n m, fun k' hk' => ?_⟩
      obtain heq | hk' := List.mem_cons.mp hk'
      · obtain rfl := Sum.inr.inj heq
        exact isSome_walk_mono (le_max_right n m) hm
      · exact isSome_walk_mono (le_max_left n m) (hn k' hk')

theorem exists_walk_iff_acc (hr : ∀ b c, r b c ↔ ∃ k, .inr k ∈ node b ∧ target k = c) :
    (∃ n, (walk node target n b).isSome) ↔ Acc (flip r) b := by
  constructor
  · rintro ⟨n, h⟩
    induction n generalizing b with
    | zero => cases h
    | succ n ih =>
      refine ⟨b, fun c hc => ?_⟩
      obtain ⟨k, hk, rfl⟩ := (hr b c).mp hc
      exact ih (isSome_collect.mp h k hk)
  · intro h
    induction h with
    | intro b _ ih =>
      obtain ⟨n, hn⟩ := exists_collect_walk fun k hk => ih (target k) ((hr b _).mpr ⟨k, hk, rfl⟩)
      exact ⟨n + 1, hn⟩

/-- **Termination**: some depth is enough if and only if no node behind `b` reaches itself. -/
theorem exists_walk_iff [Finite β] (hr : ∀ b c, r b c ↔ ∃ k, .inr k ∈ node b ∧ target k = c) :
    (∃ n, (walk node target n b).isSome) ↔ ∀ c, Relation.ReflTransGen r b c →
      ¬ Relation.TransGen r c c :=
  (exists_walk_iff_acc hr).trans acc_iff_acyclic

/-- **What a walk collects**: an item for each trail to a node that holds it. -/
theorem mem_walk (hlink : ∀ b k, .inr k ∈ node b ↔ link b k) (h : walk node target n b = some found)
    {ks : List κ} {i : ι} : (ks, i) ∈ found ↔ ∃ c, Trail link target ks b c ∧ .inl i ∈ node c := by
  induction n generalizing b found ks with
  | zero => cases h
  | succ n ih =>
    rw [mem_collect h]
    constructor
    · rintro (⟨rfl, hi⟩ | ⟨k, rest, behind, rfl, hk, hbehind, hmem⟩)
      · exact ⟨b, rfl, hi⟩
      · obtain ⟨c, htrail, hi⟩ := (ih hbehind).mp hmem
        exact ⟨c, ⟨(hlink b k).mp hk, htrail⟩, hi⟩
    · rintro ⟨c, htrail, hi⟩
      cases ks with
      | nil =>
        obtain rfl : b = c := htrail
        exact .inl ⟨rfl, hi⟩
      | cons k rest =>
        have hk := (hlink b k).mpr htrail.1
        have hsome : (collect (fun k => walk node target n (target k)) (node b)).isSome := by
          rw [show collect _ _ = some found from h]
          rfl
        obtain ⟨behind, hbehind⟩ := Option.isSome_iff_exists.mp (isSome_collect.mp hsome k hk)
        exact .inr ⟨k, rest, behind, rfl, hk, hbehind, (ih hbehind).mpr ⟨c, htrail.2, hi⟩⟩

/-- No trail is followed twice. -/
theorem nodup_walk (hnode : ∀ b, (node b).Nodup) (h : walk node target n b = some found) :
    found.Nodup := by
  induction n generalizing b found with
  | zero => cases h
  | succ n ih => exact nodup_collect h (hnode b) fun _ _ hk => ih hk

end walk

variable {α : Type}

/-- An item is collected once if exactly one collected pair holds it. -/
theorem countP_snd_eq_one {l : List (α × ι)} (hl : l.Nodup) {p : ι → Prop} [DecidablePred p] :
    (l.map Prod.snd).countP (fun i => p i) = 1 ↔ ∃! x, x ∈ l ∧ p x.2 := by
  rw [List.countP_map, List.countP_eq_length_filter, List.length_eq_one_iff]
  have hnodup := hl.filter ((fun i => decide (p i)) ∘ Prod.snd)
  have hmem : ∀ x, x ∈ l.filter ((fun i => decide (p i)) ∘ Prod.snd) ↔ x ∈ l ∧ p x.2 := by
    simp [List.mem_filter]
  constructor
  · rintro ⟨x, hx⟩
    refine ⟨x, (hmem x).mp (by simp [hx]), fun y hy => ?_⟩
    simpa [hx] using (hmem y).mpr hy
  · rintro ⟨x, hx, huniq⟩
    refine ⟨x,
      List.perm_singleton.mp ((List.perm_ext_iff_of_nodup hnodup (List.nodup_singleton x)).mpr ?_)⟩
    intro y
    rw [hmem, List.mem_singleton]
    exact ⟨huniq y, fun hy => hy ▸ hx⟩

/-- The parts of a list stay apart if each element tells the part it is from. -/
theorem nodup_flatMap_of_tag {γ : Type} {l : List α} {f : α → List γ} (tag : γ → α) (hl : l.Nodup)
    (hf : ∀ x ∈ l, (f x).Nodup) (htag : ∀ x ∈ l, ∀ y ∈ f x, tag y = x) : (l.flatMap f).Nodup := by
  refine List.nodup_flatMap.mpr ⟨hf, hl.imp_of_mem fun {x x'} hx hx' hne y hy hy' => hne ?_⟩
  exact (htag x hx y hy).symm.trans (htag x' hx' y hy')

/-! ## Accumulating visitors -/

/-- `visit` appends the items that `collect` finds in `xs`, and fails with `e` where `collect`
does. -/
def Emits {ε : Type} (e : ε) (inner : κ → Option (List (List κ × ι)))
    (visit : List ι → Except ε (List ι)) (xs : List (ι ⊕ κ)) : Prop :=
  ∀ l, visit l = (collect inner xs).elim (.error e) fun found => .ok (l ++ found.map Prod.snd)

namespace Emits

variable {ε : Type} {e : ε} {inner : κ → Option (List (List κ × ι))}
  {f g : List ι → Except ε (List ι)}
  {xs ys : List (ι ⊕ κ)}

theorem nil : Emits e inner (fun l => .ok l) [] := fun l => by simp [collect]

theorem item (i : ι) : Emits e inner (fun l => .ok (l ++ [i])) [.inl i] :=
  fun l => by simp [collect]

theorem link {k : κ}
    (h : ∀ l, f l = (inner k).elim (.error e) fun found => .ok (l ++ found.map Prod.snd)) :
    Emits e inner f [.inr k] := by
  intro l
  rw [h l]
  cases hk : inner k <;> simp [collect, hk]

theorem bind (hf : Emits e inner f xs) (hg : Emits e inner g ys) :
    Emits e inner (fun l => f l >>= g) (xs ++ ys) := by
  intro l
  change f l >>= g = _
  rw [collect_append, hf l]
  cases collect inner xs with
  | none => rfl
  | some found =>
    rw [Option.elim_some, show (Except.ok (l ++ _) >>= g) = g (l ++ found.map Prod.snd) from rfl,
      hg]
    cases collect inner ys <;> simp

theorem foldlM {l : List α} {f : List ι → α → Except ε (List ι)} {part : α → List (ι ⊕ κ)}
    (h : ∀ x ∈ l, Emits e inner (fun acc => f acc x) (part x)) :
    Emits e inner (fun acc => l.foldlM f acc) (l.flatMap part) := by
  induction l with
  | nil => exact nil
  | cons x l ih =>
    rw [List.flatMap_cons]
    exact bind (h x List.mem_cons_self) (ih fun y hy => h y (List.mem_cons_of_mem x hy))

end Emits

end Walks
