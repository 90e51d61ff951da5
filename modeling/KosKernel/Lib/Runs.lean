import Mathlib.Data.List.Basic

/-!
# Lib/Runs — runs of a partial step function

A system is a step function `σ → α → Option σ`: the actions `α` name who does what, and `none` says
that the action is not possible.  A run is a list of actions.  The rules below carry an invariant
from one step to a run, for every run and for the runs all of whose steps meet a condition on the
state before the step.
-/

namespace Runs

variable {σ α : Type*} {step : σ → α → Option σ} {s s' s'' : σ} {a : α} {as bs : List α}

/-- The state after the actions `as`, if all of them are possible. -/
def run (step : σ → α → Option σ) : σ → List α → Option σ
  | s, [] => some s
  | s, a :: as => (step s a).bind fun s' => run step s' as

@[simp] theorem run_nil : run step s [] = some s' ↔ s = s' := by simp [run]

@[simp] theorem run_cons : run step s (a :: as) = some s'' ↔
      ∃ s', step s a = some s' ∧ run step s' as = some s'' :=
  Option.bind_eq_some_iff

theorem run_append : run step s (as ++ bs) = some s'' ↔
    ∃ s', run step s as = some s' ∧ run step s' bs = some s'' := by
  induction as generalizing s with
  | nil => simp
  | cons a as ih =>
    simp only [List.cons_append, run_cons, ih]
    constructor
    · rintro ⟨t, ht, s', hs', h⟩
      exact ⟨s', ⟨t, ht, hs'⟩, h⟩
    · rintro ⟨s', ⟨t, ht, hs'⟩, h⟩
      exact ⟨t, ht, s', hs', h⟩

/-- Every step of the run `as` from `s` meets `C` in the state before it. -/
def Guarded (step : σ → α → Option σ) (C : σ → α → Prop) : σ → List α → Prop
  | _, [] => True
  | s, a :: as => C s a ∧ ∀ s', step s a = some s' → Guarded step C s' as

variable {C : σ → α → Prop}

theorem guarded_of_forall (h : ∀ a ∈ as, ∀ s, C s a) : Guarded step C s as := by
  induction as generalizing s with
  | nil => trivial
  | cons a as ih =>
    exact ⟨h a List.mem_cons_self s, fun _ _ => ih fun b hb => h b (List.mem_cons_of_mem _ hb)⟩

theorem guarded_cons (hC : C s a) (hs : step s a = some s') (h : Guarded step C s' as) :
    Guarded step C s (a :: as) :=
  ⟨hC, fun _ ht => Option.some.inj (hs.symm.trans ht) ▸ h⟩

theorem guarded_append (hrun : run step s as = some s') (h : Guarded step C s as)
    (h' : Guarded step C s' bs) : Guarded step C s (as ++ bs) := by
  induction as generalizing s with
  | nil => exact run_nil.mp hrun ▸ h'
  | cons a as ih =>
    obtain ⟨t, ht, hrun⟩ := run_cons.mp hrun
    exact guarded_cons h.1 ht (ih hrun (h.2 t ht))

/-- A check of every step of a run, to be evaluated. -/
def checked (step : σ → α → Option σ) (c : σ → α → Bool) : σ → List α → Bool
  | _, [] => true
  | s, a :: as => c s a && (step s a).all fun s' => checked step c s' as

theorem guarded_of_checked {c : σ → α → Bool} (hc : ∀ {s a}, c s a = true → C s a)
    (h : checked step c s as = true) : Guarded step C s as := by
  induction as generalizing s with
  | nil => trivial
  | cons a as ih =>
    simp only [checked, Bool.and_eq_true] at h
    refine ⟨hc h.1, fun s' hs' => ih ?_⟩
    simpa only [hs', Option.all_some] using h.2

theorem Guarded.and {D : σ → α → Prop} (hC : Guarded step C s as) (hD : Guarded step D s as) :
    Guarded step (fun s a => C s a ∧ D s a) s as := by
  induction as generalizing s with
  | nil => trivial
  | cons a as ih => exact ⟨⟨hC.1, hD.1⟩, fun s' hs' => ih (hC.2 s' hs') (hD.2 s' hs')⟩

theorem guarded_of_decide [∀ s a, Decidable (C s a)]
    (h : checked step (fun s a => decide (C s a)) s as = true) :
    Guarded step C s as :=
  guarded_of_checked of_decide_eq_true h

variable {P : σ → Prop}

/-- A run to be evaluated, with what holds after it. -/
theorem exists_run [DecidablePred P] (h : (run step s as).any (fun s' => decide (P s')) = true) :
    ∃ s', run step s as = some s' ∧ P s' := by
  obtain ⟨s', hrun, hs'⟩ := (Option.any_eq_true _ _).mp h
  exact ⟨s', hrun, of_decide_eq_true hs'⟩

/-- A run to be evaluated, with a result about it. -/
theorem exists_run_and {Q : σ → Prop} [DecidablePred P]
    (h : (run step s as).any (fun s' => decide (P s')) = true)
    (hQ : ∀ s', run step s as = some s' → P s' → Q s') :
    ∃ s', run step s as = some s' ∧ P s' ∧ Q s' := by
  obtain ⟨s', hrun, hs'⟩ := exists_run h
  exact ⟨s', hrun, hs', hQ s' hrun hs'⟩

/-- **The invariant rule under a condition**: what a step that meets `C` preserves, a run whose
steps all meet `C` preserves. -/
theorem invariant_of_guarded (hstep : ∀ {s a s'}, P s → C s a → step s a = some s' → P s') :
    ∀ {as : List α} {s s' : σ}, P s → Guarded step C s as → run step s as = some s' → P s'
  | [], _, _, hs, _, h => run_nil.mp h ▸ hs
  | _ :: _, _, _, hs, hg, h => by
    obtain ⟨t, ht, h⟩ := run_cons.mp h
    exact invariant_of_guarded hstep (hstep hs hg.1 ht) (hg.2 t ht) h

/-- **The invariant rule.** -/
theorem invariant (hstep : ∀ {s a s'}, P s → step s a = some s' → P s') :
    ∀ {as : List α} {s s' : σ}, P s → run step s as = some s' → P s'
  | [], _, _, hs, h => run_nil.mp h ▸ hs
  | _ :: _, _, _, hs, h => by
    obtain ⟨t, ht, h⟩ := run_cons.mp h
    exact invariant hstep (hstep hs ht) h

/-- **The progress rule**: if the action `a` is possible wherever `P` holds, and leads to `Q` or to
a smaller rank, then `Q` is reached by repeating it. -/
theorem exists_run_of_rank {Q : σ → Prop} (rank : σ → ℕ)
    (hstep : ∀ s, P s → ∃ s', step s a = some s' ∧ (Q s' ∨ P s' ∧ rank s' < rank s)) (hs : P s) :
    ∃ n s', run step s (List.replicate n a) = some s' ∧ Q s' := by
  induction hr : rank s using Nat.strongRecOn generalizing s with
  | _ r ih =>
    obtain ⟨t, ht, hQ | ⟨hP, hlt⟩⟩ := hstep s hs
    · exact ⟨1, t, by simpa using ht, hQ⟩
    · obtain ⟨n, s', hrun, hQ⟩ := ih _ (hr ▸ hlt) hP rfl
      exact ⟨n + 1, s', run_cons.mpr ⟨t, ht, hrun⟩, hQ⟩

/-! ## Two runs -/

/-- Two copies of the system side by side, each with an action of its own. -/
def both (step : σ → α → Option σ) (s : σ × σ) (a : α × α) : Option (σ × σ) :=
  (step s.1 a.1).bind fun s₁ => (step s.2 a.2).map fun s₂ => (s₁, s₂)

theorem both_eq_some {s t : σ × σ} {a : α × α} :
    both step s a = some t ↔ step s.1 a.1 = some t.1 ∧ step s.2 a.2 = some t.2 := by
  simp only [both, Option.bind_eq_some_iff, Option.map_eq_some_iff]
  constructor
  · rintro ⟨s₁, h₁, s₂, h₂, rfl⟩
    exact ⟨h₁, h₂⟩
  · rintro ⟨h₁, h₂⟩
    exact ⟨t.1, h₁, t.2, h₂, rfl⟩

/-- **Two runs are one run of both copies.** -/
theorem run_both {as : List (α × α)} {s t : σ × σ} : run (both step) s as = some t ↔
    run step s.1 (as.map Prod.fst) = some t.1 ∧ run step s.2 (as.map Prod.snd) = some t.2 := by
  induction as generalizing s with
  | nil => simp [Prod.ext_iff]
  | cons a as ih =>
    simp only [List.map_cons, run_cons, both_eq_some, ih]
    constructor
    · rintro ⟨u, ⟨h₁, h₂⟩, hr₁, hr₂⟩
      exact ⟨⟨u.1, h₁, hr₁⟩, u.2, h₂, hr₂⟩
    · rintro ⟨⟨u₁, h₁, hr₁⟩, u₂, h₂, hr₂⟩
      exact ⟨(u₁, u₂), ⟨h₁, h₂⟩, hr₁, hr₂⟩

/-- A run beside itself. -/
theorem run_both_self (h : run step s as = some s') :
    run (both step) (s, s) (as.map fun a => (a, a)) = some (s', s') := by
  refine run_both.mpr ⟨?_, ?_⟩
  · simpa [Function.comp_def] using h
  · simpa [Function.comp_def] using h

theorem guarded_both_self {D : σ × σ → α × α → Prop} (hD : ∀ {s a}, C s a → D (s, s) (a, a))
    (h : Guarded step C s as) : Guarded (both step) D (s, s) (as.map fun a => (a, a)) := by
  induction as generalizing s with
  | nil => trivial
  | cons a as ih =>
    refine ⟨hD h.1, fun t ht => ?_⟩
    obtain ⟨h₁, h₂⟩ := both_eq_some.mp ht
    obtain ⟨t₁, t₂⟩ := t
    obtain rfl : t₁ = t₂ := Option.some.inj (h₁.symm.trans h₂)
    exact ih (h.2 t₁ h₁)

end Runs
