import Mathlib.Data.List.Forall2
import Mathlib.Data.List.Perm.Basic
import Mathlib.Tactic.Common

/-!
# Tables updated in place

A table is a list whose rows are found by index and replaced with
`List.set` or changed with `List.modify`.  Up to the order of the rows,
replacing row `i` exchanges one element, so a property that does not depend on
the order is followed through an update by `perm_of_getElem?` and `set_perm`.
-/

namespace Table

variable {α : Type*} {l : List α} {i : ℕ} {a : α}

/-- A table is row `i` and the other rows. -/
theorem perm_of_getElem? (h : l[i]? = some a) : l.Perm (a :: l.eraseIdx i) := by
  obtain ⟨hlt, rfl⟩ := List.getElem?_eq_some_iff.1 h
  exact (List.getElem_cons_eraseIdx_perm hlt).symm

/-- An updated table is the new row and the other rows. -/
theorem set_perm (h : l[i]? = some a) (b : α) :
    (l.set i b).Perm (b :: l.eraseIdx i) :=
  List.set_perm_cons_eraseIdx (List.getElem?_eq_some_iff.1 h).1 b

theorem mem_of_getElem? (h : l[i]? = some a) : a ∈ l :=
  List.mem_of_getElem? h

/-- Some row has `Q`: row `i` or another one. -/
theorem exists_mem_iff (h : l[i]? = some a) (Q : α → Prop) :
    (∃ x ∈ l, Q x) ↔ Q a ∨ ∃ x ∈ l.eraseIdx i, Q x := by
  simp [(perm_of_getElem? h).mem_iff]

/-- Some row has `Q` after an update: the new row or another one. -/
theorem exists_mem_set_iff (h : l[i]? = some a) (b : α) (Q : α → Prop) :
    (∃ x ∈ l.set i b, Q x) ↔ Q b ∨ ∃ x ∈ l.eraseIdx i, Q x := by
  simp [(set_perm h b).mem_iff]

/-- An update that does not change `Q` at row `i` does not change whether
some row has it. -/
theorem exists_mem_set_congr (h : l[i]? = some a) {b : α} {Q : α → Prop}
    (hQ : Q b ↔ Q a) : (∃ x ∈ l.set i b, Q x) ↔ ∃ x ∈ l, Q x := by
  rw [exists_mem_set_iff h, exists_mem_iff h, hQ]

/-- All rows keep `Q` when the new row has it. -/
theorem forall_mem_set {b : α} {Q : α → Prop} (hl : ∀ x ∈ l, Q x) (hb : Q b) :
    ∀ x ∈ l.set i b, Q x := by
  intro x hx
  rcases List.mem_or_eq_of_mem_set hx with hx | rfl
  · exact hl x hx
  · exact hb

/-- The rows with `p`, counted as row `i` and the others. -/
theorem countP_of_getElem? (h : l[i]? = some a) (p : α → Bool) :
    l.countP p = (l.eraseIdx i).countP p + if p a then 1 else 0 := by
  rw [(perm_of_getElem? h).countP_eq, List.countP_cons]

/-- The rows with `p` after an update. -/
theorem countP_set_of_getElem? (h : l[i]? = some a) (b : α) (p : α → Bool) :
    (l.set i b).countP p = (l.eraseIdx i).countP p + if p b then 1 else 0 := by
  rw [(set_perm h b).countP_eq, List.countP_cons]

/-- An update changes a count by what the two rows add to it. -/
theorem countP_set_toNat (h : l[i]? = some a) (b : α) (p : α → Bool) :
    ((l.set i b).countP p : Int) = l.countP p - (p a).toNat + (p b).toNat := by
  rw [countP_set_of_getElem? h, countP_of_getElem? h]
  cases p a <;> cases p b <;> simp

/-- An update that keeps `p` at row `i` keeps the count. -/
theorem countP_set_congr (h : l[i]? = some a) {b : α} {p : α → Bool}
    (hp : p b = p a) : (l.set i b).countP p = l.countP p := by
  rw [countP_set_of_getElem? h, countP_of_getElem? h, hp]

/-- Row `i` after an update of row `j`. -/
theorem getElem?_set_of_some (h : l[i]? = some a) (j : ℕ) (b : α) :
    (l.set j b)[i]? = some (if j = i then b else a) := by
  have hlt := (List.getElem?_eq_some_iff.1 h).1
  rw [List.getElem?_set]
  split
  · simp_all
  · exact h

/-- A column that the update does not change is the old column. -/
theorem map_set_of_eq {β : Type*} {f : α → β} {b : α} (h : l[i]? = some a)
    (hf : f b = f a) : (l.set i b).map f = l.map f := by
  have hget : (l.map f)[i]? = some (f a) := by simp [h]
  obtain ⟨hlt, ha⟩ := List.getElem?_eq_some_iff.1 hget
  rw [List.map_set, hf, ← ha, List.set_getElem_self]

/-! ## Rows that are changed -/

section Modify

variable {f : α → α}

theorem getElem?_modify_some {n : ℕ} (h : l[n]? = some a) :
    (l.modify i f)[n]? = some (if i = n then f a else a) := by
  rw [List.getElem?_modify, h]
  rfl

/-- A row of a changed table is an old one, or the one that was changed. -/
theorem mem_modify {b : α} (h : b ∈ l.modify i f) :
    b ∈ l ∨ ∃ a, l[i]? = some a ∧ b = f a := by
  obtain ⟨n, hn⟩ := List.mem_iff_getElem?.1 h
  rw [List.getElem?_modify, Option.map_eq_map, Option.map_eq_some_iff] at hn
  obtain ⟨a, ha, hb⟩ := hn
  split at hb
  · rename_i hin
    exact .inr ⟨a, hin ▸ ha, hb.symm⟩
  · exact .inl (hb ▸ List.mem_of_getElem? ha)

/-- A change that keeps `Q` keeps that some row has it. -/
theorem exists_mem_modify {Q : α → Prop} (hf : ∀ a, Q a → Q (f a))
    (h : ∃ a ∈ l, Q a) : ∃ a ∈ l.modify i f, Q a := by
  obtain ⟨a, ha, hQ⟩ := h
  obtain ⟨n, hn⟩ := List.mem_iff_getElem?.1 ha
  refine ⟨_, List.mem_of_getElem? (getElem?_modify_some hn), ?_⟩
  split
  · exact hf a hQ
  · exact hQ

/-- A column that the change keeps is the old column. -/
theorem map_modify {β : Type*} {g : α → β} (hg : ∀ a, g (f a) = g a) :
    (l.modify i f).map g = l.map g := by
  apply List.ext_getElem?
  intro n
  rw [List.getElem?_map, List.getElem?_map, List.getElem?_modify]
  cases l[n]? with
  | none => rfl
  | some a =>
    by_cases hin : i = n
    · simp [hin, hg]
    · simp [hin]

end Modify

/-! ## Two tables, row by row -/

section Forall₂

variable {β : Type*} {R : α → β → Prop} {m : List β}

theorem forall₂_append_iff (h : List.Forall₂ R l m) {l' : List α} {m' : List β} :
    List.Forall₂ R (l ++ l') (m ++ m') ↔ List.Forall₂ R l' m' := by
  induction h with
  | nil => exact Iff.rfl
  | cons hab _ ih =>
    rw [List.cons_append, List.cons_append, List.forall₂_cons, ih]
    exact and_iff_right hab

/-- The second table is updated to a row that fits. -/
theorem forall₂_set (h : List.Forall₂ R l m) {b : β} (hi : l[i]? = some a)
    (hab : R a b) : List.Forall₂ R l (m.set i b) := by
  induction h generalizing i with
  | nil => cases hi
  | cons hxy hrest ih =>
    cases i with
    | zero =>
      cases hi
      exact .cons hab hrest
    | succ i => exact .cons hxy (ih hi)

end Forall₂

end Table
