import Mathlib.Data.List.Basic

/-!
# Lists without repetitions

`List.eraseDups` keeps the first of equal elements.

* `filter_eraseDups`: elements may be dropped before or after.
* `eraseDups_eq_append_iff`: when an element is kept at the end.
* `map_eraseDupsBy`: elements that are compared by a key.
-/

namespace Distinct

/-- Induction over a list whose tail loses what resembles the head. -/
theorem filter_induction {γ : Type*} (r : γ → γ → Bool) {motive : List γ → Prop}
    (nil : motive [])
    (cons : ∀ a l, motive (l.filter fun b => !r b a) → motive (a :: l)) (l : List γ) :
    motive l := by
  induction h : l.length using Nat.strongRecOn generalizing l with
  | _ n ih =>
    cases l with
    | nil => exact nil
    | cons a l =>
      refine cons a l (ih _ ?_ _ rfl)
      have := List.length_filter_le (fun b => !r b a) l
      rw [← h, List.length_cons]
      omega

/-- The keys of elements of which one is kept for each key. -/
theorem map_eraseDupsBy {α β : Type*} [BEq α] (key : β → α) (l : List β) :
    (l.eraseDupsBy fun b b' => key b == key b').map key = (l.map key).eraseDups := by
  induction l using filter_induction (fun b b' => key b == key b') with
  | nil => rfl
  | cons b l ih =>
    have hfilter : (l.filter fun b' => decide ((key b' == key b) = false)) =
        l.filter fun b' => !key b' == key b := by simp
    rw [List.eraseDupsBy_cons, List.map_cons, List.map_cons, List.eraseDups_cons,
      List.filter_map, hfilter, ih]
    rfl

/-- A list that is split at an element twice, first where the element first occurs. -/
theorem subset_of_append_cons_eq {α : Type*} {a : α} {front back front' back' : List α}
    (hfront : a ∉ front) (h : front ++ a :: back = front' ++ a :: back') :
    front ⊆ front' ∧ back' ⊆ back := by
  rcases List.append_eq_append_iff.1 h with ⟨mid, hmid, hrest⟩ | ⟨mid, hmid, hrest⟩
  · cases mid with
    | nil =>
      rw [List.nil_append, List.cons.injEq] at hrest
      rw [hmid, hrest.2, List.append_nil]
      exact ⟨List.Subset.refl _, List.Subset.refl _⟩
    | cons c mid =>
      rw [List.cons_append, List.cons.injEq] at hrest
      rw [hmid, hrest.2]
      refine ⟨List.subset_append_left _ _, fun x hx => ?_⟩
      simp [hx]
  · cases mid with
    | nil =>
      rw [List.nil_append, List.cons.injEq] at hrest
      rw [List.append_nil] at hmid
      rw [hmid, hrest.2]
      exact ⟨List.Subset.refl _, List.Subset.refl _⟩
    | cons c mid =>
      -- the other split would lie before the first `a`
      rw [List.cons_append, List.cons.injEq] at hrest
      refine absurd ?_ hfront
      rw [hmid, hrest.1]
      simp

variable {α : Type*} [BEq α]

theorem eraseDups_sublist (l : List α) : l.eraseDups.Sublist l := by
  induction l using filter_induction (fun b a : α => b == a) with
  | nil => exact List.Sublist.slnil
  | cons a l ih =>
    rw [List.eraseDups_cons]
    exact (ih.trans List.filter_sublist).cons_cons a

variable [LawfulBEq α]

theorem nodup_eraseDups (l : List α) : l.eraseDups.Nodup := by
  induction l using filter_induction (fun b a : α => b == a) with
  | nil => exact List.nodup_nil
  | cons a l ih =>
    rw [List.eraseDups_cons, List.nodup_cons]
    refine ⟨?_, ih⟩
    simp

/-- A list without repetitions stays as it is. -/
theorem eraseDups_of_nodup {l : List α} (h : l.Nodup) : l.eraseDups = l := by
  induction l with
  | nil => rfl
  | cons a l ih =>
    rw [List.nodup_cons] at h
    have hfilter : (l.filter fun b => !b == a) = l := by
      refine List.filter_eq_self.2 fun b hb => ?_
      have hne : b ≠ a := fun heq => h.1 (heq ▸ hb)
      simpa using hne
    rw [List.eraseDups_cons, hfilter, ih h.2]

theorem filter_eraseDups (p : α → Bool) (l : List α) :
    (l.filter p).eraseDups = l.eraseDups.filter p := by
  induction l using filter_induction (fun b a : α => b == a) with
  | nil => rfl
  | cons a l ih =>
    rw [List.eraseDups_cons]
    cases hp : p a with
    | true =>
      rw [List.filter_cons_of_pos hp, List.filter_cons_of_pos hp, List.eraseDups_cons,
        ← ih, List.filter_comm]
    | false =>
      rw [List.filter_cons_of_neg (by simp [hp]), List.filter_cons_of_neg (by simp [hp]),
        ← ih, List.filter_filter]
      congr 1
      refine List.filter_congr fun b _ => ?_
      -- what `p` accepts is not `a`
      cases hb : p b with
      | false => rfl
      | true =>
        have hne : b ≠ a := fun heq => by rw [heq, hp] at hb; cases hb
        simpa using hne

/-- An element is kept at the end exactly when no other one comes up for the
first time behind it. -/
theorem eraseDups_eq_append_iff {l : List α} {a : α} (ha : a ∈ l) :
    l.eraseDups = (l.filter fun b => !b == a).eraseDups ++ [a] ↔
      ∀ front back, l = front ++ a :: back → ∀ b ∈ back, b = a ∨ b ∈ front := by
  obtain ⟨front, back, rfl, hfront⟩ := List.eq_append_cons_of_mem ha
  have hfilter : (front.filter fun b => !b == a) = front := by
    refine List.filter_eq_self.2 fun b hb => ?_
    have hne : b ≠ a := fun heq => hfront (heq ▸ hb)
    simpa using hne
  -- what comes up behind the first `a`
  have hleft : (front ++ a :: back).eraseDups =
      front.eraseDups ++ a :: ((back.removeAll front).filter fun b => !b == a).eraseDups := by
    have hcons : (a :: back).removeAll front = a :: back.removeAll front := by
      simp [List.removeAll, hfront]
    rw [List.eraseDups_append, hcons, List.eraseDups_cons]
  have hright : ((front ++ a :: back).filter fun b => !b == a).eraseDups =
      front.eraseDups ++ ((back.removeAll front).filter fun b => !b == a).eraseDups := by
    rw [List.filter_append, hfilter, List.filter_cons_of_neg (by simp), List.eraseDups_append,
      List.removeAll, List.removeAll, List.filter_comm]
  rw [hleft, hright, List.append_assoc, List.append_cancel_left_eq]
  generalize hnew : (back.removeAll front).filter (fun b => !b == a) = new
  have hmem : ∀ b, b ∈ new ↔ b ∈ back ∧ b ∉ front ∧ b ≠ a := by
    intro b
    rw [← hnew]
    simp [List.removeAll, and_comm (a := ¬ b = a)]
  constructor
  · intro heq front' back' hsplit b hb
    have hnil : new = [] := by
      cases new with
      | nil => rfl
      | cons c rest =>
        rw [List.eraseDups_cons, List.cons_append, List.cons.injEq] at heq
        exact absurd heq.1.symm ((hmem c).1 List.mem_cons_self).2.2
    have hsub := subset_of_append_cons_eq hfront hsplit
    by_contra hne
    rw [not_or] at hne
    have hin := (hmem b).2 ⟨hsub.2 hb, fun h => hne.2 (hsub.1 h), hne.1⟩
    rw [hnil] at hin
    cases hin
  · intro h
    have hnil : new = [] := by
      refine List.eq_nil_iff_forall_not_mem.2 fun b hb => ?_
      obtain ⟨hback, hnot, hne⟩ := (hmem b).1 hb
      exact (h front back rfl b hback).elim hne hnot
    rw [hnil]
    rfl

end Distinct
