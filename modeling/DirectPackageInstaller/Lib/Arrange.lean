import Mathlib.Data.List.Sort
import Mathlib.Data.List.InsertIdx
import Mathlib.Data.List.Perm.Basic
import Mathlib.Data.List.TakeWhile
import Mathlib.Tactic.Common

/-!
# Sorting and moving items

A sort that need not be stable: some permutation of the items whose keys do not
decrease.  Items that compare as equal come out in any order.

* `Sorts.unique`: where no two items compare as equal there is only one result,
  whatever the order of the items before.
* `Sorts.eq_of_increasing`: items that are listed in increasing order come out in
  that order.
* `moveItem` takes an item out of a list and puts it in front of another one.
-/

namespace Arrange

variable {α β : Type}

/-! ## Sorting -/

/-- `output` is a result of sorting `input`. -/
def Sorts (le : α → α → Prop) (input output : List α) : Prop :=
  output.Perm input ∧ output.Pairwise le

theorem Sorts.insertionSort (le : α → α → Prop) [DecidableRel le] (htotal : ∀ a b, le a b ∨ le b a)
    (htrans : ∀ a b c, le a b → le b c → le a c) (input : List α) :
    Sorts le input (input.insertionSort le) := by
  have : Std.Total le := ⟨htotal⟩
  have : IsTrans α le := ⟨htrans⟩
  exact ⟨List.perm_insertionSort le input, List.pairwise_insertionSort le input⟩

theorem Sorts.unique {le : α → α → Prop} {input input' output output' : List α}
    (h : Sorts le input output) (h' : Sorts le input' output') (hperm : input'.Perm input)
    (hapart : ∀ a ∈ input, ∀ b ∈ input, le a b → le b a → a = b) : output' = output := by
  have houtput : output'.Perm input := h'.1.trans hperm
  refine List.Perm.eq_of_pairwise (fun a b ha hb => ?_) h'.2 h.2 (houtput.trans h.1.symm)
  exact hapart a (houtput.mem_iff.1 ha) b (h.1.mem_iff.1 hb)

theorem Sorts.eq_of_increasing {le : α → α → Prop} {input output items : List α}
    (h : Sorts le input output) (hperm : input.Perm items)
    (hincreasing : items.Pairwise fun a b => le a b ∧ ¬le b a) : output = items := by
  refine List.Perm.eq_of_pairwise (fun a b ha hb hab hba => ?_) h.2
    (hincreasing.imp And.left) (h.1.trans hperm)
  have ha : a ∈ items := (h.1.trans hperm).mem_iff.1 ha
  by_contra hne
  -- one of the two stands in front of the other
  have hlt := List.pairwise_iff_getElem.1 hincreasing
  obtain ⟨i, hi, rfl⟩ := List.getElem_of_mem ha
  obtain ⟨j, hj, rfl⟩ := List.getElem_of_mem hb
  rcases Nat.lt_trichotomy i j with hij | rfl | hij
  · exact (hlt i j hi hj hij).2 hba
  · exact hne rfl
  · exact (hlt j i hj hi hij).2 hab

theorem Sorts.filter {le : α → α → Prop} {input output : List α} (h : Sorts le input output)
    (q : α → Bool) : Sorts le (input.filter q) (output.filter q) :=
  ⟨h.1.filter q, h.2.filter q⟩

/-- Two items of a list, in front of the others. -/
theorem exists_perm_cons_cons {a b : α} {list : List α} (ha : a ∈ list) (hb : b ∈ list)
    (hne : a ≠ b) : ∃ rest, list.Perm (a :: b :: rest) := by
  obtain ⟨front, back, rfl⟩ := List.append_of_mem ha
  have hmiddle : (front ++ a :: back).Perm (a :: (front ++ back)) := List.perm_middle
  have hb := (List.mem_cons.1 (hmiddle.mem_iff.1 hb)).resolve_left hne.symm
  obtain ⟨front', back', heq⟩ := List.append_of_mem hb
  refine ⟨front' ++ back', hmiddle.trans (List.Perm.cons a ?_)⟩
  rw [heq]
  exact List.perm_middle

/-- No two items stand in both orders. -/
theorem not_pair_sublist_swap {a b : α} {list : List α} (h : list.Nodup)
    (hab : [a, b].Sublist list) : ¬[b, a].Sublist list := by
  induction list with
  | nil => exact fun hba => nomatch hba
  | cons x rest ih =>
    intro hba
    obtain ⟨hx, hrest⟩ := List.nodup_cons.1 h
    cases hab with
    | cons _ hab =>
      cases hba with
      | cons _ hba => exact ih hrest hab hba
      | cons_cons _ _ => exact hx (hab.subset (by simp))
    | cons_cons _ hb =>
      cases hba with
      | cons _ hba => exact hx (hba.subset (by simp))
      | cons_cons _ _ => exact hx (hb.subset (by simp))

theorem pair_sublist_append {a b : α} {l l' : List α} :
    [a, b].Sublist (l ++ l') ↔ [a, b].Sublist l ∨ a ∈ l ∧ b ∈ l' ∨ [a, b].Sublist l' := by
  constructor
  · intro h
    obtain ⟨front, back, heq, hfront, hback⟩ := List.sublist_append_iff.1 h
    match front, heq with
    | [], heq => exact .inr (.inr (heq ▸ hback))
    | [x], heq =>
      obtain ⟨rfl, rfl⟩ := List.cons.inj heq
      exact .inr (.inl ⟨List.singleton_sublist.1 hfront, List.singleton_sublist.1 hback⟩)
    | x :: y :: rest, heq =>
      obtain ⟨rfl, htail⟩ := List.cons.inj heq
      obtain ⟨rfl, hrest⟩ := List.cons.inj htail
      obtain ⟨rfl, rfl⟩ := List.append_eq_nil_iff.1 hrest.symm
      exact .inl hfront
  · rintro (h | ⟨ha, hb⟩ | h)
    · exact h.trans (List.sublist_append_left l l')
    · exact (List.singleton_sublist.2 ha).append (List.singleton_sublist.2 hb)
    · exact h.trans (List.sublist_append_right l l')

theorem pair_sublist_cons {a b x : α} {l : List α} :
    [a, b].Sublist (x :: l) ↔ a = x ∧ b ∈ l ∨ [a, b].Sublist l := by
  rw [List.cons_sublist_cons', List.singleton_sublist]
  exact or_comm

theorem pair_sublist_filter {q : α → Bool} {a b : α} {l : List α} :
    [a, b].Sublist (l.filter q) ↔ [a, b].Sublist l ∧ q a = true ∧ q b = true := by
  constructor
  · intro h
    exact ⟨h.trans List.filter_sublist, (List.mem_filter.1 (h.subset (by simp))).2,
      (List.mem_filter.1 (h.subset (by simp))).2⟩
  · rintro ⟨h, ha, hb⟩
    have hfilter := h.filter q
    rwa [List.filter_cons_of_pos ha, List.filter_cons_of_pos hb, List.filter_nil] at hfilter

theorem pair_sublist_total {a b : α} {l : List α} (ha : a ∈ l) (hb : b ∈ l) (hne : a ≠ b) :
    [a, b].Sublist l ∨ [b, a].Sublist l := by
  induction l with
  | nil => exact absurd ha List.not_mem_nil
  | cons x rest ih =>
    rw [pair_sublist_cons, pair_sublist_cons]
    rcases List.mem_cons.1 ha with rfl | ha'
    · exact .inl (.inl ⟨rfl, (List.mem_cons.1 hb).resolve_left hne.symm⟩)
    rcases List.mem_cons.1 hb with rfl | hb'
    · exact .inr (.inl ⟨rfl, ha'⟩)
    · exact (ih ha' hb').imp .inr .inr

/-- Lists of the same items are equal where no two of these stand the other way round. -/
theorem eq_of_perm_of_pairs {l l' : List α} (hperm : l.Perm l') (h : l.Nodup)
    (hpairs : ∀ a b, [a, b].Sublist l → ¬[b, a].Sublist l') : l = l' := by
  have hordered : l.Pairwise fun a b => [a, b].Sublist l :=
    List.pairwise_of_forall_sublist id
  have hordered' : l'.Pairwise fun a b => [a, b].Sublist l := by
    refine List.pairwise_of_forall_sublist fun {a b} hab => ?_
    have hmem : a ∈ l ∧ b ∈ l :=
      ⟨hperm.mem_iff.2 (hab.subset (by simp)), hperm.mem_iff.2 (hab.subset (by simp))⟩
    have hne : a ≠ b := by
      rintro rfl
      exact not_pair_sublist_swap (hperm.nodup_iff.1 h) hab hab
    exact (pair_sublist_total hmem.1 hmem.2 hne).resolve_right fun hba => hpairs b a hba hab
  refine List.Perm.eq_of_pairwise (fun a b _ _ hab hba => ?_) hordered hordered' hperm
  exact absurd hba (not_pair_sublist_swap h hab)

/-- The last item is the one in front of nothing, or the last one behind it. -/
theorem append_singleton_cases {front back items : List α} {a x : α}
    (h : items ++ [x] = front ++ a :: back) :
    items = front ∧ x = a ∧ back = [] ∨
      ∃ middle, back = middle ++ [x] ∧ items = front ++ a :: middle := by
  rcases List.eq_nil_or_concat back with rfl | ⟨middle, y, rfl⟩
  · obtain ⟨hitems, hx⟩ := List.append_singleton_inj.1 h
    exact .inl ⟨hitems, hx, rfl⟩
  · rw [List.concat_eq_append, ← List.cons_append, ← List.append_assoc] at h
    obtain ⟨hitems, rfl⟩ := List.append_singleton_inj.1 h
    exact .inr ⟨middle, List.concat_eq_append, hitems⟩

/-! ## Moving -/

/-- The item at `src` goes in front of the one at `dst`; `none` for an index out of
range. -/
def moveItem (list : List α) (src dst : Nat) : Option (List α) :=
  match list[src]? with
  | none => none
  | some item =>
    let rest := list.eraseIdx src
    let dst := if dst > src then dst - 1 else dst
    if dst ≤ rest.length then some (rest.insertIdx dst item) else none

theorem moveItem_map (f : α → β) (list : List α) (src dst : Nat) :
    moveItem (list.map f) src dst = (moveItem list src dst).map (List.map f) := by
  unfold moveItem
  rw [List.getElem?_map]
  cases list[src]? with
  | none => rfl
  | some item =>
    simp only [Option.map_some, List.eraseIdx_map, List.length_map]
    generalize (if dst > src then dst - 1 else dst) = dst
    split
    · rw [Option.map_some, List.map_insertIdx]
    · rfl

theorem insertIdx_eq_append {l : List α} {i : Nat} (h : i ≤ l.length) (a : α) :
    l.insertIdx i a = l.take i ++ a :: l.drop i := by
  induction i generalizing l with
  | zero => rw [List.insertIdx_zero]; rfl
  | succ i ih =>
    cases l with
    | nil => exact absurd h (by simp)
    | cons b l =>
      rw [List.insertIdx_succ_cons, ih (by simpa using h)]
      rfl

/-- The item behind `middle` goes in front of it. -/
theorem moveItem_append (front middle back : List α) (item : α) :
    moveItem (front ++ middle ++ item :: back) (front.length + middle.length) front.length =
      some (front ++ item :: middle ++ back) := by
  have hlength : (front ++ middle).length = front.length + middle.length := List.length_append
  have hitem : (front ++ middle ++ item :: back)[front.length + middle.length]? = some item := by
    rw [← hlength, List.getElem?_append_right (Nat.le_refl _), Nat.sub_self]
    rfl
  have herase : (front ++ middle ++ item :: back).eraseIdx (front.length + middle.length) =
      front ++ (middle ++ back) := by
    rw [← hlength, List.eraseIdx_append_of_length_le (Nat.le_refl _), Nat.sub_self,
      List.eraseIdx_cons_zero, List.append_assoc]
  have hinsert : (front ++ (middle ++ back)).insertIdx front.length item =
      front ++ item :: middle ++ back := by
    rw [insertIdx_eq_append (by simp)]
    simp
  have hdst : ¬front.length > front.length + middle.length := by omega
  simp only [moveItem, hitem, herase, if_neg hdst, hinsert]
  exact if_pos (by simp)

/-! ## Choosing -/

/-- The items that a test selects; `none` where the test throws. -/
def whereM (test : α → Option Bool) : List α → Option (List α)
  | [] => some []
  | item :: rest =>
    match test item, whereM test rest with
    | some true, some selected => some (item :: selected)
    | some false, some selected => some selected
    | _, _ => none

theorem whereM_eq_filter {test : α → Option Bool} {selects : α → Bool} {list : List α}
    (h : ∀ item ∈ list, test item = some (selects item)) :
    whereM test list = some (list.filter selects) := by
  induction list with
  | nil => rfl
  | cons item rest ih =>
    have hrest := ih fun item hitem => h item (List.mem_cons_of_mem _ hitem)
    simp only [whereM, h item List.mem_cons_self, hrest]
    cases hselects : selects item with
    | false => rw [List.filter_cons_of_neg (by simp [hselects])]
    | true => rw [List.filter_cons_of_pos hselects]

theorem whereM_eq_none {test : α → Option Bool} {list : List α} {item : α} (hitem : item ∈ list)
    (h : test item = none) : whereM test list = none := by
  induction list with
  | nil => exact absurd hitem List.not_mem_nil
  | cons first rest ih =>
    rcases List.mem_cons.1 hitem with rfl | hitem
    · simp [whereM, h]
    · simp [whereM, ih hitem]

end Arrange
