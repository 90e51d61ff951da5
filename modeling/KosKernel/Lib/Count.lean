import Mathlib.Algebra.BigOperators.Group.Finset.Basic
import Mathlib.Algebra.BigOperators.Group.Finset.Piecewise
import Mathlib.Algebra.Order.BigOperators.Group.Finset
import Mathlib.Data.Fintype.Basic

/-!
# Lib/Count — how many agents are in a phase

A system of agents keeps a phase for each of them, and an action moves one agent.  The number of
agents whose phase satisfies a predicate then changes by what the old and the new phase contribute.
-/

namespace Count

variable {τ α : Type*} [Fintype τ]

/-- The number of agents whose phase satisfies `p`. -/
def count (p : α → Bool) (f : τ → α) : ℕ := ∑ t, (p (f t)).toNat

variable {p : α → Bool} {f : τ → α} {t : τ} {a : α}

theorem count_eq_card : count p f = (Finset.univ.filter fun t => p (f t) = true).card := by
  rw [count, Finset.card_filter]
  refine Finset.sum_congr rfl fun t _ => ?_
  cases p (f t) <;> rfl

theorem count_congr {g : τ → α} (h : ∀ t, p (g t) = p (f t)) : count p g = count p f := by
  simp only [count, h]

theorem count_const (h : p a = false) : count p (fun _ : τ => a) = 0 := by simp [count, h]

variable [DecidableEq τ]

/-- **Moving one agent**: the new phase counts instead of the old one. -/
theorem count_update :
    count p (Function.update f t a) + (p (f t)).toNat = count p f + (p a).toNat := by
  have hupd : (fun u => (p (Function.update f t a u)).toNat) =
      Function.update (fun u => (p (f u)).toNat) t (p a).toNat := by
    funext u
    by_cases hu : u = t
    · subst hu
      simp
    · simp [hu]
  have hnew : count p (Function.update f t a) = (p a).toNat + ∑ u ∈ Finset.univ \ {t},
      (p (f u)).toNat := by
    rw [count, hupd, Finset.sum_update_of_mem (Finset.mem_univ t)]
  have hold : count p f = (p (f t)).toNat + ∑ u ∈ Finset.univ \ {t}, (p (f u)).toNat := by
    rw [count, ← Finset.sum_update_of_mem (Finset.mem_univ t), Function.update_eq_self]
  omega

/-- An agent that moves without the predicate noticing. -/
theorem count_update_of_eq (h : p a = p (f t)) : count p (Function.update f t a) = count p f := by
  have hupd := count_update (p := p) (f := f) (t := t) (a := a)
  rw [h] at hupd
  exact Nat.add_right_cancel hupd

end Count
