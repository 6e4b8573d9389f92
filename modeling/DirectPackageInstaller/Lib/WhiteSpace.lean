import DirectPackageInstaller.Lib.Text
import Mathlib.Data.List.DropRight

/-!
# White space

The characters that `Char.IsWhiteSpace` accepts, and a text without them at its
ends.

* `trimWhite_surround`: white space around a text does not change what is left
  of it.
* `exists_trimWhite`: a text is what is left of it between white space.
-/

namespace Text

/-- `Char.IsWhiteSpace(c)`. -/
def isWhiteSpace (c : Char) : Bool :=
  let n := c.toNat
  (0x09 ≤ n && n ≤ 0x0D) || n == 0x20 || n == 0x85 || n == 0xA0 || n == 0x1680 ||
    (0x2000 ≤ n && n ≤ 0x200A) || n == 0x2028 || n == 0x2029 || n == 0x202F ||
    n == 0x205F || n == 0x3000

/-- `Trim()`. -/
def trimWhite (text : Text) : Text :=
  (text.dropWhile isWhiteSpace).rdropWhile isWhiteSpace

/-- The text is white space. -/
def White (text : Text) : Prop := ∀ c ∈ text, isWhiteSpace c = true

instance (text : Text) : Decidable (White text) := List.decidableBAll _ text

/-- The text has no white space at its ends. -/
def Trimmed (text : Text) : Prop := trimWhite text = text

instance (text : Text) : Decidable (Trimmed text) :=
  inferInstanceAs (Decidable (trimWhite text = text))

theorem white_nil : White [] := fun _ h => absurd h List.not_mem_nil

theorem White.ne {text : Text} (h : White text) {c : Char} (hc : isWhiteSpace c = false) :
    c ∉ text := by
  intro hmem
  rw [h c hmem] at hc
  cases hc

theorem trimmed_nil : Trimmed [] := rfl

theorem trimWhite_eq_nil {text : Text} : trimWhite text = [] ↔ White text := by
  rw [trimWhite, List.rdropWhile_eq_nil_iff]
  constructor
  · intro h
    -- what is left in front of the first sign that is not white is nothing
    have hnil : text.dropWhile isWhiteSpace = [] := by
      by_contra hne
      have hhead := List.head_dropWhile_not isWhiteSpace hne
      have hmem := h _ (List.head_mem hne)
      rw [hmem] at hhead
      cases hhead
    exact List.dropWhile_eq_nil_iff.1 hnil
  · intro h c hc
    exact h c (List.dropWhile_sublist _ |>.subset hc)

theorem rdropWhile_append_white {text w : Text} (hw : White w) :
    (text ++ w).rdropWhile isWhiteSpace = text.rdropWhile isWhiteSpace := by
  rw [List.rdropWhile, List.rdropWhile, List.reverse_append,
    List.dropWhile_append_of_pos fun c hc => hw c (List.mem_reverse.1 hc)]

/-- White space around a text is trimmed away. -/
theorem trimWhite_surround {w w' : Text} (hw : White w) (hw' : White w') (text : Text) :
    trimWhite (w ++ text ++ w') = trimWhite text := by
  rw [trimWhite, List.append_assoc, List.dropWhile_append_of_pos hw, List.dropWhile_append]
  split
  · rename_i hnil
    have htext : text.dropWhile isWhiteSpace = [] := List.isEmpty_iff.1 hnil
    have hrest : w'.dropWhile isWhiteSpace = [] := List.dropWhile_eq_nil_iff.2 hw'
    rw [trimWhite, htext, hrest]
  · rw [rdropWhile_append_white hw', trimWhite]

theorem trimWhite_append_white {w : Text} (hw : White w) (text : Text) :
    trimWhite (text ++ w) = trimWhite text :=
  trimWhite_surround white_nil hw text

theorem exists_trimWhite (text : Text) :
    ∃ w w', White w ∧ White w' ∧ text = w ++ trimWhite text ++ w' := by
  refine ⟨text.takeWhile isWhiteSpace,
    (text.dropWhile isWhiteSpace).rtakeWhile isWhiteSpace, ?_, ?_, ?_⟩
  · exact fun c hc => List.mem_takeWhile_imp hc
  · exact fun c hc => List.mem_rtakeWhile_imp hc
  · rw [trimWhite, List.append_assoc, List.rdropWhile_append_rtakeWhile,
      List.takeWhile_append_dropWhile]

theorem trimmed_trimWhite (text : Text) : Trimmed (trimWhite text) := by
  obtain ⟨w, w', hw, hw', htext⟩ := exists_trimWhite text
  rw [Trimmed]
  conv_rhs => rw [htext, trimWhite_surround hw hw']

/-- A text without white space is trimmed. -/
theorem trimmed_of_not_white {text : Text} (h : ∀ c ∈ text, isWhiteSpace c = false) :
    Trimmed text := by
  have hfront : text.dropWhile isWhiteSpace = text := by
    cases text with
    | nil => rfl
    | cons c rest =>
      rw [List.dropWhile_cons_of_neg (by simp [h c (List.mem_cons_self ..)])]
  rw [Trimmed, trimWhite, hfront, List.rdropWhile_eq_self_iff]
  intro hne
  rw [h _ (List.getLast_mem hne)]
  exact Bool.false_ne_true

/-- Trimming before a text is cut changes nothing that trimming after it does
not, in front of the cut and behind it. -/
theorem trimWhite_before {c : Char} (hc : isWhiteSpace c = false) (text : Text) :
    trimWhite (before c (trimWhite text)) = trimWhite (before c text) := by
  obtain ⟨w, w', hw, hw', htext⟩ := exists_trimWhite text
  have hcut : before c text = w ++ before c (trimWhite text ++ w') := by
    conv_lhs => rw [htext, List.append_assoc]
    exact before_append (hw.ne hc) _
  rw [hcut]
  by_cases hmem : c ∈ trimWhite text
  · rw [before_append_of_mem hmem]
    exact (trimWhite_surround hw white_nil _).symm.trans (by rw [List.append_nil])
  · rw [before_append hmem, before_eq_self (hw'.ne hc), before_eq_self hmem,
      ← List.append_assoc, trimWhite_surround hw hw']

theorem trimWhite_after {c : Char} (hc : isWhiteSpace c = false) (text : Text) :
    (after c (trimWhite text)).map trimWhite = (after c text).map trimWhite := by
  obtain ⟨w, w', hw, hw', htext⟩ := exists_trimWhite text
  have hcut : after c text = after c (trimWhite text ++ w') := by
    conv_lhs => rw [htext, List.append_assoc]
    exact after_append (hw.ne hc) _
  rw [hcut]
  by_cases hmem : c ∈ trimWhite text
  · rw [after_append_of_mem hmem, Option.map_map]
    congr 1
    funext rest
    exact (trimWhite_append_white hw' rest).symm
  · rw [after_append hmem, after_eq_none (hw'.ne hc), after_eq_none hmem]

/-- Between white space, a trimmed text is all that is left. -/
theorem Trimmed.surround {text w w' : Text} (h : Trimmed text) (hw : White w)
    (hw' : White w') : trimWhite (w ++ text ++ w') = text :=
  (trimWhite_surround hw hw' text).trans h

end Text
