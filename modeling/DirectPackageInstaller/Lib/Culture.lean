import DirectPackageInstaller.Lib.Search
import DirectPackageInstaller.Lib.Text

/-!
# Searching in a culture

`IndexOf` with a text compares in the current culture, other than `Contains`.  The
culture may skip characters, or take a letter together with the next one, so that a
text is not found where it stands.  `Culture` is what the programs rely on: laws that
all cultures share, about printable texts.

* `Culture.indexOf_eq`: a text that stands apart is found at its first place.
* `ordinal`: the search of a platform without culture data.
-/

namespace Text

open Search

/-- A printable ASCII character. -/
def isPrintable (c : Char) : Bool := 0x20 ≤ c.toNat && c.toNat < 0x7F

def Printable (text : Text) : Prop := text.all isPrintable = true

instance (text : Text) : Decidable (Printable text) := inferInstanceAs (Decidable (_ = true))

/-- No letter of the text stands next to a letter at the ends of the pattern. -/
def Apart (pattern text : Text) (i : Nat) : Prop :=
  (∀ c ∈ pattern.head?, c.isAlpha = true → ∀ d ∈ (text.take i).getLast?, d.isAlpha = false) ∧
    ∀ c ∈ pattern.getLast?, c.isAlpha = true →
      ∀ d ∈ (text.drop (i + pattern.length)).head?, d.isAlpha = false

/-- `IndexOf` with a text.  Behind a start index it is the search in the rest. -/
structure Culture where
  indexOf : Text → Text → Option Nat
  /-- A printable pattern has weight. -/
  lt_length : ∀ text pattern i, Printable pattern → pattern ≠ [] →
    indexOf text pattern = some i → i < text.length
  /-- In a printable text only the pattern itself matches. -/
  occurs : ∀ text pattern i, Printable text → Printable pattern → pattern ≠ [] →
    indexOf text pattern = some i → OccursAt pattern text i
  /-- A pattern that stands apart matches. -/
  finds : ∀ text pattern i, Printable text → Printable pattern → pattern ≠ [] →
    OccursAt pattern text i → Apart pattern text i → ∃ j ≤ i, indexOf text pattern = some j

/-- An index, which is -1 where there is none. -/
def position : Option Nat → Int
  | some i => i
  | none => -1

/-- `Substring(start)`.  `none` is the exception for a start outside the text. -/
def substringFrom {α : Type*} (text : List α) (start : Int) : Option (List α) :=
  if 0 ≤ start ∧ start ≤ text.length then some (text.drop start.toNat) else none

/-- `Substring(start, length)`. -/
def substringRange {α : Type*} (text : List α) (start length : Int) : Option (List α) :=
  if 0 ≤ start ∧ 0 ≤ length ∧ start + length ≤ text.length then
    some ((text.drop start.toNat).take length.toNat)
  else none

theorem printable_append {a b : Text} : Printable (a ++ b) ↔ Printable a ∧ Printable b := by
  simp [Printable, List.all_append]

theorem Printable.subset {a b : Text} (h : Printable b) (hab : a ⊆ b) : Printable a :=
  List.all_eq_true.2 fun c hc => List.all_eq_true.1 h c (hab hc)

/-- The first occurrence is found if it stands apart. -/
theorem Culture.indexOf_eq (c : Culture) {text pattern : Text} {i : Nat}
    (htext : Printable text) (hpattern : Printable pattern) (hne : pattern ≠ [])
    (hfirst : FirstAt pattern text i) (hapart : Apart pattern text i) :
    c.indexOf text pattern = some i := by
  obtain ⟨j, hj, hfound⟩ := c.finds text pattern i htext hpattern hne hfirst.occurs hapart
  have hocc := c.occurs text pattern j htext hpattern hne hfound
  by_cases hlt : j < i
  · exact absurd hocc (hfirst.first j hlt)
  · rw [hfound, show j = i by omega]

/-- No letter at the ends of a pattern. -/
def Unlettered (pattern : Text) : Prop :=
  pattern.head?.all (fun c => !c.isAlpha) = true ∧
    pattern.getLast?.all (fun c => !c.isAlpha) = true

instance (pattern : Text) : Decidable (Unlettered pattern) :=
  inferInstanceAs (Decidable (_ = true ∧ _ = true))

/-- A pattern without letters at its ends stands apart everywhere. -/
theorem Unlettered.apart {pattern : Text} (h : Unlettered pattern) (text : Text) (i : Nat) :
    Apart pattern text i := by
  constructor
  · intro c hc halpha
    have hhead := h.1
    rw [Option.mem_def.1 hc, Option.all_some, halpha] at hhead
    cases hhead
  · intro c hc halpha
    have hlast := h.2
    rw [Option.mem_def.1 hc, Option.all_some, halpha] at hlast
    cases hlast

/-- The search of a platform without culture data. -/
def Culture.ordinal : Culture where
  indexOf text pattern := findFirst pattern text
  lt_length text pattern i _ hne h := by
    have hle := (findFirst_firstAt h).occurs.le_length hne
    have := List.length_pos_iff.2 hne
    omega
  occurs text pattern i _ _ _ h := (findFirst_firstAt h).occurs
  finds text pattern i _ _ _ h _ := findFirst_isSome h

end Text
