import Mathlib.Data.Set.Basic

/-!
# Lib/Ownership — resources that are held in one place

A map `hold` says which resource each place holds.  A resource is either `lent`, and then any number
of places may hold it, or it has been handed out and at most one place holds it.  The lemmas say how
the places may change: contents move or are dropped, a fresh resource is taken, a lent one is
borrowed, and a resource is given back by the place that held it.
-/

namespace Ownership

variable {ι κ φ : Type} {out lent : Set φ} {hold : ι → Option φ}

/-- **What is held is lent, or handed out and held once.** -/
structure Owned (out lent : Set φ) (hold : ι → Option φ) : Prop where
  out : ∀ {i f}, hold i = some f → f ∉ lent → f ∈ out
  unique : ∀ {i j f}, f ∉ lent → hold i = some f → hold j = some f → i = j

namespace Owned

theorem empty : Owned out lent fun _ : ι => none := ⟨fun h => (nomatch h), fun _ h => (nomatch h)⟩

/-- Contents move: what a new place holds was held in a place that `R` relates to it, and to no
other new place with the same contents. -/
theorem move (h : Owned out lent hold) {hold' : κ → Option φ} (R : κ → ι → Prop)
    (hm : ∀ {i f}, hold' i = some f → ∃ j, R i j ∧ hold j = some f)
    (hinj : ∀ {i i' j f}, hold' i = some f → hold' i' = some f → R i j → R i' j → i = i') :
    Owned out lent hold' := by
  refine ⟨fun hi hf => ?_, fun hf hi hi' => ?_⟩
  · obtain ⟨j, -, hj⟩ := hm hi
    exact h.out hj hf
  · obtain ⟨j, hij, hj⟩ := hm hi
    obtain ⟨j', hij', hj'⟩ := hm hi'
    exact hinj hi hi' hij (h.unique hf hj hj' ▸ hij')

variable {hold' : ι → Option φ}

/-- Contents are dropped. -/
theorem drop (h : Owned out lent hold) (hd : ∀ {i f}, hold' i = some f → hold i = some f) :
    Owned out lent hold' :=
  h.move Eq (fun {i _} hi => ⟨i, rfl, hd hi⟩) fun _ _ hij hij' => hij.trans hij'.symm

variable {out' : Set φ} {k : ι}

/-- A resource that nobody holds is put in the place `k`. -/
theorem take (h : Owned out lent hold) {f : φ} (hf : ∀ i, hold i ≠ some f)
    (hout : ∀ {g}, g ∈ out ∨ g = f → g ∈ out')
    (ht : ∀ {i g}, hold' i = some g → hold i = some g ∨ i = k ∧ g = f) :
    Owned out' lent hold' := by
  refine ⟨fun hi hg => hout ((ht hi).imp (fun hi => h.out hi hg) And.right), ?_⟩
  intro i j g hg hi hj
  rcases ht hi with hi | ⟨rfl, rfl⟩
  · rcases ht hj with hj | ⟨-, rfl⟩
    · exact h.unique hg hi hj
    · exact absurd hi (hf i)
  · rcases ht hj with hj | ⟨rfl, -⟩
    · exact absurd hj (hf j)
    · rfl

/-- A lent resource is put in the place `k`. -/
theorem borrow (h : Owned out lent hold)
    (hb : ∀ {i g}, hold' i = some g → hold i = some g ∨ i = k ∧ g ∈ lent) :
    Owned out lent hold' := by
  have hold_of : ∀ {i g}, g ∉ lent → hold' i = some g → hold i = some g :=
    fun hg hi => (hb hi).resolve_right fun hk => hg hk.2
  exact ⟨fun hi hg => h.out (hold_of hg hi) hg,
    fun hg hi hj => h.unique hg (hold_of hg hi) (hold_of hg hj)⟩

/-- The place `k` gives back what it holds. -/
theorem give (h : Owned out lent hold) {f : φ} (hk : hold k = some f) (hf : f ∉ lent)
    (hout : ∀ {g}, g ∈ out → g ≠ f → g ∈ out')
    (hg : ∀ {i g}, hold' i = some g → hold i = some g ∧ i ≠ k) :
    Owned out' lent hold' := by
  refine ⟨fun hi hg' => hout (h.out (hg hi).1 hg') ?_,
    fun hg' hi hj => h.unique hg' (hg hi).1 (hg hj).1⟩
  rintro rfl
  exact (hg hi).2 (h.unique hf (hg hi).1 hk)

/-- Resources that no place holds are handed out or come back. -/
theorem change (h : Owned out lent hold) (hout : ∀ {i f}, hold i = some f → f ∈ out → f ∈ out') :
    Owned out' lent hold :=
  ⟨fun hi hf => hout hi (h.out hi hf), fun hf hi hj => h.unique hf hi hj⟩

end Owned

end Ownership
