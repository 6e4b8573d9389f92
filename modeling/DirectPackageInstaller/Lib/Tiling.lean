import DirectPackageInstaller.Lib.Table
import Mathlib.Order.CompletePartialOrder
import Mathlib.Order.Interval.Set.Disjoint
import Mathlib.Tactic.Common

/-!
# Tilings of a half-open interval

A list of half-open intervals tiles `[a, b)` when the intervals are pairwise
disjoint and their union is `[a, b)`.  Empty intervals are allowed anywhere.
The list order is irrelevant (`Tiles.perm`), so a program that appends the
second half of a split interval at the end of its table keeps the property
(`Tiles.set_append`).
-/

namespace Tiling

variable {α : Type*} [LinearOrder α]

/-- The intervals of `l` are disjoint and cover exactly `[a, b)`. -/
structure Tiles (l : List (α × α)) (a b : α) : Prop where
  le : ∀ iv ∈ l, iv.1 ≤ iv.2
  disjoint : l.Pairwise fun x y => Disjoint (Set.Ico x.1 x.2) (Set.Ico y.1 y.2)
  cover : ∀ p, (∃ iv ∈ l, p ∈ Set.Ico iv.1 iv.2) ↔ p ∈ Set.Ico a b

theorem tiles_singleton {a b : α} (h : a ≤ b) : Tiles [(a, b)] a b where
  le := by simpa using h
  disjoint := List.pairwise_singleton _ _
  cover := by simp

theorem tiles_nil (a : α) : Tiles [] a a where
  le := fun _ hiv => absurd hiv List.not_mem_nil
  disjoint := List.Pairwise.nil
  cover := by simp

/-- An interval in front of a tiling. -/
theorem Tiles.cons {l : List (α × α)} {a b c : α} (h : Tiles l b c) (hab : a ≤ b)
    (hbc : b ≤ c) : Tiles ((a, b) :: l) a c where
  le := by
    intro iv hiv
    rcases List.mem_cons.1 hiv with rfl | hiv
    · exact hab
    · exact h.le iv hiv
  disjoint := by
    refine List.pairwise_cons.2 ⟨fun iv hiv => Set.disjoint_left.2 fun p hp hq => ?_,
      h.disjoint⟩
    have hmem := (h.cover p).1 ⟨iv, hiv, hq⟩
    exact absurd hp.2 (not_lt.2 hmem.1)
  cover := by
    intro p
    have hhead : (∃ iv ∈ (a, b) :: l, p ∈ Set.Ico iv.1 iv.2) ↔
        p ∈ Set.Ico a b ∨ ∃ iv ∈ l, p ∈ Set.Ico iv.1 iv.2 := by
      simp only [List.mem_cons, exists_eq_or_imp]
    rw [hhead, h.cover p]
    constructor
    · rintro (⟨h₁, h₂⟩ | ⟨h₁, h₂⟩)
      · exact ⟨h₁, h₂.trans_le hbc⟩
      · exact ⟨hab.trans h₁, h₂⟩
    · rintro ⟨h₁, h₂⟩
      rcases lt_or_ge p b with hp | hp
      · exact Or.inl ⟨h₁, hp⟩
      · exact Or.inr ⟨hp, h₂⟩

/-- The order of the intervals does not matter. -/
theorem Tiles.perm {l l' : List (α × α)} {a b : α} (h : Tiles l a b)
    (hp : l.Perm l') : Tiles l' a b where
  le := fun iv hiv => h.le iv (hp.mem_iff.2 hiv)
  disjoint := hp.pairwise h.disjoint (fun hxy => hxy.symm)
  cover := by
    intro p
    rw [← h.cover p]
    simp only [hp.mem_iff]

/-- No position lies in two intervals: neither in interval `i` and in another
row of the table. -/
theorem Tiles.not_mem_of_eraseIdx {l : List (α × α)} {a b x z p : α} {i : ℕ}
    (h : Tiles l a b) (hi : l[i]? = some (x, z)) (hp : p ∈ Set.Ico x z)
    {iv : α × α} (hiv : iv ∈ l.eraseIdx i) : p ∉ Set.Ico iv.1 iv.2 := by
  have hdis := (h.perm (Table.perm_of_getElem? hi)).disjoint
  have hone := (List.pairwise_cons.1 hdis).1 iv hiv
  exact fun hq => Set.disjoint_left.1 hone hp hq

/-- Cutting the first interval at an inner point keeps the tiling. -/
theorem Tiles.split_head {l : List (α × α)} {a b x y z : α}
    (h : Tiles ((x, z) :: l) a b) (hxy : x ≤ y) (hyz : y ≤ z) :
    Tiles ((x, y) :: (y, z) :: l) a b := by
  have hdis := List.pairwise_cons.1 h.disjoint
  refine ⟨?_, ?_, ?_⟩
  · intro iv hiv
    rcases List.mem_cons.1 hiv with rfl | hiv
    · exact hxy
    rcases List.mem_cons.1 hiv with rfl | hiv
    · exact hyz
    · exact h.le iv (List.mem_cons_of_mem _ hiv)
  · refine List.pairwise_cons.2 ⟨?_, List.pairwise_cons.2 ⟨?_, hdis.2⟩⟩
    · intro iv hiv
      rcases List.mem_cons.1 hiv with rfl | hiv
      · exact Set.Ico_disjoint_Ico_same
      · exact (hdis.1 iv hiv).mono_left (Set.Ico_subset_Ico_right hyz)
    · intro iv hiv
      exact (hdis.1 iv hiv).mono_left (Set.Ico_subset_Ico_left hxy)
  · intro p
    rw [← h.cover p]
    simp only [List.mem_cons, exists_eq_or_imp, Set.mem_Ico]
    rw [← or_assoc]
    refine or_congr_left ⟨?_, ?_⟩
    · rintro (⟨h1, h2⟩ | ⟨h1, h2⟩)
      · exact ⟨h1, h2.trans_le hyz⟩
      · exact ⟨hxy.trans h1, h2⟩
    · rintro ⟨h1, h2⟩
      rcases lt_or_ge p y with hp | hp
      · exact Or.inl ⟨h1, hp⟩
      · exact Or.inr ⟨hp, h2⟩

/-- Cutting the interval at index `i` in place and appending the second half
at the end of the list keeps the tiling. -/
theorem Tiles.set_append {l : List (α × α)} {a b x y z : α} {i : ℕ}
    (h : Tiles l a b) (hi : l[i]? = some (x, z)) (hxy : x ≤ y) (hyz : y ≤ z) :
    Tiles (l.set i (x, y) ++ [(y, z)]) a b := by
  have hold : l.Perm ((x, z) :: l.eraseIdx i) := Table.perm_of_getElem? hi
  have hnew : ((x, y) :: (y, z) :: l.eraseIdx i).Perm
      (l.set i (x, y) ++ [(y, z)]) := by
    refine (List.Perm.swap _ _ _).trans (List.Perm.trans ?_
      (List.perm_append_singleton _ _).symm)
    exact (Table.set_perm hi (x, y)).symm.cons _
  exact ((h.perm hold).split_head hxy hyz).perm hnew

end Tiling
