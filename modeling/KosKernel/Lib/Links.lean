import Mathlib.Data.List.Basic

/-!
# Lib/Links — a stack linked through the cells it holds

An intrusive stack is a pointer to its first cell, and each cell holds the pointer to the next one.
`link` reads a cell; it gives `none` where the cell holds no link.  `Chain link p l` says that from
`p` the links lead through the cells `l` to the null pointer.
-/

namespace Links

variable {P : Type} {link link' : P → Option (Option P)} {p q : Option P} {a : P} {l l' : List P}

def Chain (link : P → Option (Option P)) : Option P → List P → Prop
  | p, [] => p = none
  | p, a :: l => p = some a ∧ ∃ q, link a = some q ∧ Chain link q l

@[simp] theorem chain_nil : Chain link p [] ↔ p = none := Iff.rfl

/-- A null pointer is an empty stack. -/
@[simp] theorem chain_none : Chain link none l ↔ l = [] := by
  cases l with
  | nil => simp
  | cons a l => simp [Chain]

/-- **Frame**: only the cells on the stack matter. -/
theorem Chain.congr (h : Chain link p l) (hsame : ∀ a ∈ l, link' a = link a) : Chain link' p l := by
  induction l generalizing p with
  | nil => exact h
  | cons a l ih =>
    obtain ⟨rfl, q, hq, h⟩ := h
    exact ⟨rfl, q, (hsame a (by simp)).trans hq, ih h fun b hb => hsame b (by simp [hb])⟩

/-- **Pushing** a cell that is not on the stack. -/
theorem Chain.push (h : Chain link p l) (ha : link' a = some p)
    (hsame : ∀ b ∈ l, link' b = link b) : Chain link' (some a) (a :: l) :=
  ⟨rfl, p, ha, h.congr hsame⟩

end Links
