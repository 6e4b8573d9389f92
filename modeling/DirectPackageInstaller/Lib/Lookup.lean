import Mathlib.Data.List.Basic
import Mathlib.Tactic.Common

/-!
# Point updates of an association list

`List.lookup` finds the first pair with a key.  A pair that is put in behind
pairs with other keys only, or that replaces the first pair with its key,
changes what is found for its own key and for no other.

`assign` sets a key as a dictionary does.  `IsFirst` and `IsLast` are the first
and the last pair of a list with a key: the one that a search finds, and the one
that stays when the pairs are assigned in turn.
-/

namespace Lookup

variable {κ υ : Type*} [DecidableEq κ] [BEq κ] [LawfulBEq κ] {front back : List (κ × υ)} {k : κ}

/-- What is found when a pair is put in front. -/
theorem lookup_cons (v : υ) (k' : κ) :
    ((k, v) :: back).lookup k' = if k' = k then some v else back.lookup k' := by
  rw [List.lookup_cons]
  by_cases h : k' = k
  · rw [if_pos h, h, beq_self_eq_true]
  · rw [if_neg h, beq_false_of_ne h]

/-- What is found when a pair stands behind pairs with other keys only. -/
theorem lookup_insert (hfront : front.lookup k = none) (v : υ) (k' : κ) :
    (front ++ (k, v) :: back).lookup k' =
      if k' = k then some v else (front ++ back).lookup k' := by
  rw [List.lookup_append, List.lookup_append, lookup_cons]
  by_cases h : k' = k
  · rw [if_pos h, if_pos h, h, hfront]
    rfl
  · rw [if_neg h, if_neg h]

/-- What is found when the first pair with a key is replaced. -/
theorem lookup_replace (hfront : front.lookup k = none) (v w : υ) (k' : κ) :
    (front ++ (k, v) :: back).lookup k' =
      if k' = k then some v else (front ++ (k, w) :: back).lookup k' := by
  rw [lookup_insert hfront, lookup_insert hfront]
  by_cases h : k' = k
  · rw [if_pos h, if_pos h]
  · rw [if_neg h, if_neg h, if_neg h]

/-- A pair at the end is found if no pair in front of it has its key. -/
theorem lookup_concat (hfront : front.lookup k = none) (v : υ) (k' : κ) :
    (front ++ [(k, v)]).lookup k' = if k' = k then some v else front.lookup k' := by
  rw [lookup_insert hfront, List.append_nil]

/-- A pair is found if no other has its key. -/
theorem lookup_of_mem {l : List (κ × υ)} (hl : (l.map Prod.fst).Nodup) {v : υ}
    (h : (k, v) ∈ l) : l.lookup k = some v := by
  induction l with
  | nil => exact absurd h List.not_mem_nil
  | cons pair l ih =>
    obtain ⟨k', v'⟩ := pair
    rw [List.map_cons, List.nodup_cons] at hl
    rw [lookup_cons]
    by_cases hk : k = k'
    · obtain heq | hmem := List.mem_cons.1 h
      · rw [if_pos hk, (Prod.mk.inj heq).2]
      · have hkey : k ∈ l.map Prod.fst := List.mem_map.2 ⟨(k, v), hmem, rfl⟩
        rw [hk] at hkey
        exact absurd hkey hl.1
    · obtain heq | hmem := List.mem_cons.1 h
      · exact absurd (Prod.mk.inj heq).1 hk
      · rw [if_neg hk, ih hl.2 hmem]

/-! ## Dictionaries -/

/-- `d[k] = v`: the pair with the key is replaced, or a new one is added. -/
def assign {κ υ : Type*} [DecidableEq κ] (d : List (κ × υ)) (k : κ) (v : υ) : List (κ × υ) :=
  if k ∈ d.map Prod.fst then d.map fun e => if e.1 = k then (k, v) else e else d ++ [(k, v)]

theorem lookup_map_replace (d : List (κ × υ)) (v : υ) (k' : κ) :
    (d.map fun e => if e.1 = k then (k, v) else e).lookup k' =
      if k' = k then (d.lookup k).map fun _ => v else d.lookup k' := by
  induction d with
  | nil => simp
  | cons e d ih =>
    obtain ⟨k₁, v₁⟩ := e
    rw [List.map_cons, lookup_cons, lookup_cons]
    by_cases hk : k₁ = k
    · subst hk
      rw [if_pos rfl, if_pos rfl, lookup_cons, ih]
      by_cases hk' : k' = k₁
      · rw [if_pos hk', if_pos hk']
        rfl
      · simp only [if_neg hk']
    · rw [if_neg hk, lookup_cons, ih, if_neg (Ne.symm hk)]
      by_cases hk' : k' = k
      · rw [if_pos hk', if_pos hk', hk', if_neg (Ne.symm hk)]
      · rw [if_neg hk', if_neg hk']

/-- What is found behind an assignment. -/
theorem lookup_assign (d : List (κ × υ)) (v : υ) (k' : κ) :
    (assign d k v).lookup k' = if k' = k then some v else d.lookup k' := by
  unfold assign
  by_cases hmem : k ∈ d.map Prod.fst
  · rw [if_pos hmem, lookup_map_replace]
    have hfound : d.lookup k ≠ none := by
      rw [Ne, List.lookup_eq_none_iff]
      intro hnone
      obtain ⟨e, he, hek⟩ := List.mem_map.1 hmem
      have := hnone e he
      simp [hek] at this
    obtain ⟨w, hw⟩ := Option.ne_none_iff_exists'.1 hfound
    rw [hw]
    rfl
  · rw [if_neg hmem]
    have hnone : d.lookup k = none := by
      rw [List.lookup_eq_none_iff]
      intro e he
      rw [bne_iff_ne]
      intro heq
      exact hmem (List.mem_map.2 ⟨e, he, heq.symm⟩)
    exact lookup_concat hnone v k'

/-- A list without any key is empty. -/
theorem eq_nil_iff_lookup {l : List (κ × υ)} : l = [] ↔ ∀ k, l.lookup k = none := by
  constructor
  · rintro rfl k
    rfl
  · intro h
    cases l with
    | nil => rfl
    | cons e l =>
      have hfirst := h e.1
      rw [lookup_cons, if_pos rfl] at hfirst
      cases hfirst

/-! ## The first and the last pair with a key -/

/-- The first pair with the key. -/
def IsFirst (l : List (κ × υ)) (k : κ) (v : υ) : Prop :=
  ∃ front back, l = front ++ (k, v) :: back ∧ ∀ e ∈ front, e.1 ≠ k

/-- The last pair with the key. -/
def IsLast (l : List (κ × υ)) (k : κ) (v : υ) : Prop :=
  ∃ front back, l = front ++ (k, v) :: back ∧ ∀ e ∈ back, e.1 ≠ k

omit [DecidableEq κ] in
theorem lookup_eq_some_iff_isFirst {l : List (κ × υ)} {v : υ} :
    l.lookup k = some v ↔ IsFirst l k v := by
  rw [List.lookup_eq_some_iff, IsFirst]
  simp only [bne_iff_ne, ne_comm]

omit [DecidableEq κ] in
theorem lookup_reverse_eq_some_iff_isLast {l : List (κ × υ)} {v : υ} :
    l.reverse.lookup k = some v ↔ IsLast l k v := by
  rw [lookup_eq_some_iff_isFirst]
  constructor
  · intro ⟨front, back, hl, hfront⟩
    refine ⟨back.reverse, front.reverse, ?_, fun e he => hfront e (List.mem_reverse.1 he)⟩
    rw [← List.reverse_reverse l, hl]
    simp
  · intro ⟨front, back, hl, hback⟩
    refine ⟨back.reverse, front.reverse, ?_, fun e he => hback e (List.mem_reverse.1 he)⟩
    rw [hl]
    simp

omit [DecidableEq κ] in
/-- The last pair with a key has the value of the first. -/
theorem lookup_reverse_eq_iff {l : List (κ × υ)} :
    l.reverse.lookup k = l.lookup k ↔ ∀ v w, IsFirst l k v → IsLast l k w → v = w := by
  constructor
  · intro h v w hfirst hlast
    rw [← lookup_eq_some_iff_isFirst] at hfirst
    rw [← lookup_reverse_eq_some_iff_isLast] at hlast
    rw [hfirst, hlast] at h
    exact (Option.some.inj h).symm
  · intro h
    cases hfirst : l.lookup k with
    | none =>
      rw [List.lookup_eq_none_iff] at hfirst ⊢
      exact fun e he => hfirst e (List.mem_reverse.1 he)
    | some v =>
      cases hlast : l.reverse.lookup k with
      | none =>
        rw [List.lookup_eq_none_iff] at hlast
        have hno : l.lookup k = none :=
          List.lookup_eq_none_iff.2 fun e he => hlast e (List.mem_reverse.2 he)
        rw [hno] at hfirst
        cases hfirst
      | some w =>
        rw [h v w (lookup_eq_some_iff_isFirst.1 hfirst)
          (lookup_reverse_eq_some_iff_isLast.1 hlast)]

end Lookup
