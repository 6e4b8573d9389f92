import Mathlib.Algebra.BigOperators.Group.List.Basic
import Mathlib.Algebra.Order.Group.Nat
import Mathlib.Algebra.Ring.Nat

/-!
# The pieces between separators

What `List.splitOnP` leaves of a list that is cut at every separator.

* `exists_piece` and `mem_of_mem_splitOnP`: the pieces have all elements but the
  separators.
* `sum_length_splitOnP`: with a separator each, the pieces are one element longer
  than the list.
-/

namespace Pieces

variable {α : Type*} {p : α → Bool}

/-- An element is a separator, or it belongs to the first piece. -/
theorem splitOnP_cons_cases (p : α → Bool) (x : α) (l : List α) :
    p x = true ∧ (x :: l).splitOnP p = [] :: l.splitOnP p ∨
      p x = false ∧ ∃ piece rest, l.splitOnP p = piece :: rest ∧
        (x :: l).splitOnP p = (x :: piece) :: rest := by
  rw [List.splitOnP_cons_eq_if_modifyHead]
  cases hx : p x with
  | true => exact Or.inl ⟨rfl, rfl⟩
  | false =>
    obtain ⟨piece, rest, hsplit⟩ := List.exists_cons_of_ne_nil (List.splitOnP_ne_nil p l)
    exact Or.inr ⟨rfl, piece, rest, hsplit, by simp [hsplit]⟩

theorem mem_of_mem_splitOnP {l piece : List α} (h : piece ∈ l.splitOnP p) :
    ∀ x ∈ piece, x ∈ l ∧ p x = false := by
  induction l generalizing piece with
  | nil =>
    rw [List.splitOnP_nil, List.mem_singleton] at h
    simp [h]
  | cons y l ih =>
    rcases splitOnP_cons_cases p y l with ⟨_, hsplit⟩ | ⟨hy, first, rest, hl, hsplit⟩
    · rw [hsplit, List.mem_cons] at h
      rcases h with rfl | h
      · simp
      · intro x hx
        exact ⟨List.mem_cons_of_mem _ (ih h x hx).1, (ih h x hx).2⟩
    · rw [hl] at ih
      rw [hsplit, List.mem_cons] at h
      rcases h with rfl | h
      · intro x hx
        rcases List.mem_cons.1 hx with rfl | hx
        · exact ⟨List.mem_cons_self, hy⟩
        · have := ih List.mem_cons_self x hx
          exact ⟨List.mem_cons_of_mem _ this.1, this.2⟩
      · intro x hx
        have := ih (List.mem_cons_of_mem _ h) x hx
        exact ⟨List.mem_cons_of_mem _ this.1, this.2⟩

theorem exists_piece {l : List α} {x : α} (hx : x ∈ l) (hp : p x = false) :
    ∃ piece ∈ l.splitOnP p, x ∈ piece := by
  induction l with
  | nil => cases hx
  | cons y l ih =>
    rcases splitOnP_cons_cases p y l with ⟨hy, hsplit⟩ | ⟨_, first, rest, hl, hsplit⟩
    · rcases List.mem_cons.1 hx with rfl | hx
      · rw [hp] at hy
        cases hy
      · obtain ⟨piece, hpiece, hmem⟩ := ih hx
        exact ⟨piece, hsplit ▸ List.mem_cons_of_mem _ hpiece, hmem⟩
    · rw [hsplit]
      rcases List.mem_cons.1 hx with rfl | hx
      · exact ⟨x :: first, List.mem_cons_self, List.mem_cons_self⟩
      · obtain ⟨piece, hpiece, hmem⟩ := ih hx
        rw [hl] at hpiece
        rcases List.mem_cons.1 hpiece with rfl | hpiece
        · exact ⟨y :: piece, List.mem_cons_self, List.mem_cons_of_mem _ hmem⟩
        · exact ⟨piece, List.mem_cons_of_mem _ hpiece, hmem⟩

theorem sum_length_splitOnP (p : α → Bool) (l : List α) :
    ((l.splitOnP p).map fun piece => piece.length + 1).sum = l.length + 1 := by
  induction l with
  | nil => rfl
  | cons x l ih =>
    rcases splitOnP_cons_cases p x l with ⟨_, hsplit⟩ | ⟨_, first, rest, hl, hsplit⟩
    · rw [hsplit, List.map_cons, List.sum_cons, ih]
      simp only [List.length_nil, List.length_cons]
      omega
    · rw [hl, List.map_cons, List.sum_cons] at ih
      rw [hsplit, List.map_cons, List.sum_cons]
      simp only [List.length_cons]
      omega

end Pieces
