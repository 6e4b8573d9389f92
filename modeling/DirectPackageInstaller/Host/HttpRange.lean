import DirectPackageInstaller.Lib.TryParse

/-!
# Range headers

`HttpRange` parses a `Range` header, and `GetStart` and `GetLength` apply it to
a total length.  The parser refuses what is not a range of bytes; a refused
header selects nothing.  The arithmetic is on 64-bit integers and is checked
here: `none` is a result that does not fit.

* `Shape`: what the constructor can build.
* `exists_selection`: no operation overflows, and what is selected lies in the
  content.
* `range_means`: what each form of header selects.
-/

namespace DirectPackageInstaller

open Text

/-- The fields of `HttpRange`; `stop` is `End`. -/
structure HttpRange where
  begin : Int
  stop : Option Int
  isValid : Bool
  isSuffixRange : Bool
  suffixLength : Option Int
deriving DecidableEq, Repr

namespace HttpRange

/-! ## The parser -/

/-- The fields before anything is parsed. -/
def refused : HttpRange where
  begin := 0
  stop := none
  isValid := false
  isSuffixRange := false
  suffixLength := none

/-- The last `k` positions. -/
def suffix (k : Int) : HttpRange where
  begin := 0
  stop := none
  isValid := true
  isSuffixRange := true
  suffixLength := some k

/-- The positions from `begin` to `stop`, or to the end. -/
def span (begin : Int) (stop : Option Int) : HttpRange where
  begin := begin
  stop := stop
  isValid := true
  isSuffixRange := false
  suffixLength := none

/-- The end of the constructor, with `BeginStr` and `EndStr`. -/
def ofEnds (beginStr endStr : Text) : HttpRange :=
  if White beginStr then
    match tryParse 64 endStr with
    | some parsedSuffixLength =>
      if parsedSuffixLength > 0 then suffix parsedSuffixLength else refused
    | none => refused
  else
    match tryParse 64 beginStr with
    | none => refused
    | some parsedBegin =>
      if parsedBegin < 0 then refused
      else
        if ¬ White endStr ∧ endStr ≠ ['*'] then
          match tryParse 64 endStr with
          -- `Begin` is set already, also when the end is refused
          | none => { refused with begin := parsedBegin }
          | some parsedEnd =>
            if parsedEnd < parsedBegin then { refused with begin := parsedBegin }
            else span parsedBegin (some parsedEnd)
        else span parsedBegin none

/-- The constructor from `RangeStr` on. -/
def ofRangeStr (rangeStr : Text) : HttpRange :=
  let rangeStr := if ',' ∈ rangeStr then trimWhite (before ',' rangeStr) else rangeStr
  match after '-' rangeStr with
  | none => refused
  | some endStr => ofEnds (trimWhite (before '-' rangeStr)) (trimWhite endStr)

/-- `Equals(other, StringComparison.OrdinalIgnoreCase)`, for an ASCII `other`. -/
def equalsIgnoreCase (text other : Text) : Bool :=
  text.map Char.toLower == other.map Char.toLower

/-- `new HttpRange(Header)`. -/
def ofHeader (header : Text) : HttpRange :=
  if White header then refused
  else
    match after '=' header with
    | some rangeStr =>
      if equalsIgnoreCase (trimWhite (before '=' header)) "bytes".toList then
        ofRangeStr (trimWhite rangeStr)
      else refused
    | none => ofRangeStr (trimWhite header)

/-! ## Applying a range -/

/-- A 64-bit result. -/
def checked (n : Int) : Option Int := if Fits 64 n then some n else none

/-- `GetStart(TotalLength)`. -/
def getStart (r : HttpRange) (totalLength : Int) : Option Int :=
  if r.isValid = false ∨ totalLength ≤ 0 then some 0
  else if r.isSuffixRange then
    (checked (totalLength - r.suffixLength.getD 0)).map (max 0)
  else if r.begin > totalLength then some totalLength
  else some r.begin

/-- `EndPosition`, before it is cut to the content. -/
def endPosition (r : HttpRange) (totalLength : Int) : Option Int :=
  if r.isSuffixRange then checked (totalLength - 1)
  else
    match r.stop with
    | some stop => some stop
    | none => checked (totalLength - 1)

/-- `EndPosition`, cut to the content. -/
def cutPosition (endPosition totalLength : Int) : Option Int :=
  if endPosition ≥ totalLength then checked (totalLength - 1) else some endPosition

/-- `EndPosition - Start + 1`, or 0 when the end is before the start. -/
def spanLength (start endPosition : Int) : Option Int :=
  if endPosition < start then some 0
  else (checked (endPosition - start)).bind fun length => checked (length + 1)

/-- `GetLength(TotalLength)`. -/
def getLength (r : HttpRange) (totalLength : Int) : Option Int :=
  if r.isValid = false ∨ totalLength ≤ 0 then some 0
  else do
    let start ← r.getStart totalLength
    let endPosition ← r.endPosition totalLength
    let endPosition ← cutPosition endPosition totalLength
    spanLength start endPosition

/-- `GetRangeStart(Range, TotalLength)` of the two services; `none` is a request
without the header. -/
def getRangeStart (range : Option HttpRange) (totalLength : Int) : Option Int :=
  match range with
  | none => some 0
  | some r => r.getStart totalLength

/-- `GetRangeLength(Range, TotalLength)`. -/
def getRangeLength (range : Option HttpRange) (totalLength : Int) : Option Int :=
  match range with
  | none => some totalLength
  | some r => r.getLength totalLength

/-! ## What the constructor builds -/

/-- The ranges that the constructor builds. -/
inductive Shape : HttpRange → Prop
  | invalid (r : HttpRange) (hvalid : r.isValid = false) : Shape r
  | suffix (k : Int) (hpos : 0 < k) (hfits : Fits 64 k) : Shape (suffix k)
  | span (begin : Int) (stop : Option Int) (hbegin : 0 ≤ begin)
      (hstop : ∀ e, stop = some e → begin ≤ e) : Shape (span begin stop)

theorem shape_ofEnds (beginStr endStr : Text) : Shape (ofEnds beginStr endStr) := by
  unfold ofEnds
  split
  · split
    · rename_i k hk
      split
      · rename_i hpos
        exact .suffix k hpos (tryParse_fits hk)
      · exact .invalid _ rfl
    · exact .invalid _ rfl
  · split
    · exact .invalid _ rfl
    · rename_i b hb
      split
      · exact .invalid _ rfl
      · rename_i hneg
        split
        · split
          · exact .invalid _ rfl
          · rename_i e he
            split
            · exact .invalid _ rfl
            · rename_i hle
              refine .span b (some e) (by omega) fun e' he' => ?_
              cases he'
              omega
        · exact .span b none (by omega) fun e he => by cases he

theorem shape_ofRangeStr (rangeStr : Text) : Shape (ofRangeStr rangeStr) := by
  unfold ofRangeStr
  dsimp only
  generalize (if ',' ∈ rangeStr then trimWhite (before ',' rangeStr) else rangeStr) = text
  cases after '-' text with
  | none => exact .invalid _ rfl
  | some endStr => exact shape_ofEnds _ _

theorem shape_ofHeader (header : Text) : Shape (ofHeader header) := by
  unfold ofHeader
  split
  · exact .invalid _ rfl
  · split
    · split
      · exact shape_ofRangeStr _
      · exact .invalid _ rfl
    · exact shape_ofRangeStr _

/-! ## What a range selects -/

/-- The start and the length that a range selects of a total length: no
operation has overflowed, and the part lies in the content. -/
structure Selection (r : HttpRange) (totalLength s n : Int) : Prop where
  start : r.getStart totalLength = some s
  length : r.getLength totalLength = some n
  start_nonneg : 0 ≤ s
  length_nonneg : 0 ≤ n
  le_total : s + n ≤ max totalLength 0

theorem selection_invalid {r : HttpRange} {totalLength : Int}
    (h : r.isValid = false ∨ totalLength ≤ 0) : Selection r totalLength 0 0 where
  start := if_pos h
  length := if_pos h
  start_nonneg := Int.le_refl 0
  length_nonneg := Int.le_refl 0
  le_total := by omega

theorem checked_eq_some {n : Int} (hlo : -2 ^ 63 ≤ n) (hhi : n < 2 ^ 63) :
    checked n = some n :=
  if_pos ⟨hlo, hhi⟩

theorem cutPosition_eq {endPosition totalLength : Int} (hpos : 0 < totalLength)
    (hfits : totalLength < 2 ^ 63) :
    cutPosition endPosition totalLength = some (min endPosition (totalLength - 1)) := by
  unfold cutPosition
  split
  · rw [checked_eq_some (by omega) (by omega), min_eq_right (by omega)]
  · rw [min_eq_left (by omega)]

theorem spanLength_eq {start endPosition : Int} (hstart : 0 ≤ start)
    (hfits : endPosition < 2 ^ 63 - 1) :
    spanLength start endPosition = some (max 0 (endPosition - start + 1)) := by
  unfold spanLength
  split
  · rw [max_eq_left (by omega)]
  · rw [checked_eq_some (by omega) (by omega), Option.bind_some,
      checked_eq_some (by omega) (by omega), max_eq_right (by omega)]

/-- The length is counted from the start to the end that is cut to the content. -/
theorem getLength_eq {r : HttpRange} {totalLength start last : Int} (hpos : 0 < totalLength)
    (hfits : totalLength < 2 ^ 63) (hvalid : r.isValid = true)
    (hstart : r.getStart totalLength = some start) (hnonneg : 0 ≤ start)
    (hlast : r.endPosition totalLength = some last) :
    r.getLength totalLength =
      some (max 0 (min last (totalLength - 1) - start + 1)) := by
  have hnot : ¬ (r.isValid = false ∨ totalLength ≤ 0) := by
    rw [hvalid]
    simp
    omega
  rw [getLength, if_neg hnot, hstart, hlast]
  simp only [Option.bind_eq_bind, Option.bind_some]
  rw [cutPosition_eq hpos hfits, Option.bind_some]
  exact spanLength_eq hnonneg (by omega)

/-- A suffix range selects the last positions. -/
theorem selection_suffix {k totalLength : Int} (hpos : 0 < totalLength)
    (hfits : totalLength < 2 ^ 63) (hk : 0 < k) (hkfits : Fits 64 k) :
    Selection (suffix k) totalLength (max 0 (totalLength - k)) (min k totalLength) := by
  have hk' : k < 2 ^ 63 := hkfits.2
  have hkind : (suffix k).isSuffixRange = true := rfl
  have hstart : (suffix k).getStart totalLength = some (max 0 (totalLength - k)) := by
    have hnot : ¬ ((suffix k).isValid = false ∨ totalLength ≤ 0) := by
      simp [suffix]
      omega
    rw [getStart, if_neg hnot, if_pos hkind]
    change (checked (totalLength - k)).map (max 0) = _
    rw [checked_eq_some (by omega) (by omega), Option.map_some]
  have hlast : (suffix k).endPosition totalLength = some (totalLength - 1) := by
    rw [endPosition, if_pos hkind, checked_eq_some (by omega) (by omega)]
  refine ⟨hstart, ?_, by omega, by omega, by omega⟩
  rw [getLength_eq hpos hfits rfl hstart (by omega) hlast]
  congr 1
  omega

/-- A span selects the positions between its ends. -/
theorem selection_span (begin : Int) (stop : Option Int) {totalLength : Int}
    (hpos : 0 < totalLength) (hfits : totalLength < 2 ^ 63) (hbegin : 0 ≤ begin)
    (hstop : ∀ e, stop = some e → begin ≤ e) :
    Selection (span begin stop) totalLength (min begin totalLength)
      (max 0 (min (stop.getD (totalLength - 1)) (totalLength - 1) -
        min begin totalLength + 1)) := by
  have hkind : ¬ (span begin stop).isSuffixRange = true := Bool.false_ne_true
  have hstart : (span begin stop).getStart totalLength = some (min begin totalLength) := by
    have hnot : ¬ ((span begin stop).isValid = false ∨ totalLength ≤ 0) := by
      simp [span]
      omega
    rw [getStart, if_neg hnot, if_neg hkind]
    change (if begin > totalLength then some totalLength else some begin) = _
    split
    · rw [min_eq_right (by omega)]
    · rw [min_eq_left (by omega)]
  have hlast : (span begin stop).endPosition totalLength =
      some (stop.getD (totalLength - 1)) := by
    rw [endPosition, if_neg hkind]
    cases stop with
    | none => exact checked_eq_some (by omega) (by omega)
    | some e => rfl
  have hlow : 0 ≤ stop.getD (totalLength - 1) := by
    cases stop with
    | none => exact (show 0 ≤ totalLength - 1 by omega)
    | some e => exact hbegin.trans (hstop e rfl)
  exact ⟨hstart, getLength_eq hpos hfits rfl hstart (by omega) hlast, by omega, by omega,
    by omega⟩

/-- Whatever the header is, nothing overflows and what is selected lies in the
content. -/
theorem exists_selection {r : HttpRange} (hr : Shape r) {totalLength : Int}
    (hfits : totalLength < 2 ^ 63) : ∃ s n, Selection r totalLength s n := by
  by_cases hpos : 0 < totalLength
  · cases hr with
    | invalid r hvalid => exact ⟨0, 0, selection_invalid (Or.inl hvalid)⟩
    | suffix k hk hkfits => exact ⟨_, _, selection_suffix hpos hfits hk hkfits⟩
    | span begin stop hbegin hstop =>
      exact ⟨_, _, selection_span begin stop hpos hfits hbegin hstop⟩
  · exact ⟨0, 0, selection_invalid (Or.inr (by omega))⟩

/-- The positions that a range selects are those with the property. -/
def Selects (r : HttpRange) (totalLength : Int) (P : Int → Prop) : Prop :=
  ∃ s n, r.getStart totalLength = some s ∧ r.getLength totalLength = some n ∧
    ∀ x, s ≤ x ∧ x < s + n ↔ P x

/-! ## Well-formed headers -/

/-- A header with the unit `bytes` and the range `first-last`, white space
around all parts, and perhaps more ranges behind a comma. -/
inductive RangeHeader (first last : Text) : Text → Prop
  | mk (w₁ unit w₂ w₃ w₄ w₅ w₆ rest : Text) (hw₁ : White w₁) (hw₂ : White w₂)
      (hw₃ : White w₃) (hw₄ : White w₄) (hw₅ : White w₅) (hw₆ : White w₆)
      (hunit : equalsIgnoreCase unit "bytes".toList = true)
      (hrest : rest = [] ∨ rest.head? = some ',') :
      RangeHeader first last (w₁ ++ unit ++ w₂ ++ '=' ::
        (w₃ ++ first ++ w₄ ++ '-' :: (w₅ ++ last ++ w₆) ++ rest))

theorem toLower_of_white {c : Char} (h : isWhiteSpace c = true ∨ c = '=') :
    c.toLower = c := by
  unfold Char.toLower
  rw [dif_neg]
  rintro ⟨hlo, hhi⟩
  have hrange : 65 ≤ c.toNat ∧ c.toNat ≤ 90 := ⟨hlo, hhi⟩
  rcases h with hwhite | rfl
  · simp only [isWhiteSpace] at hwhite
    grind
  · revert hrange
    decide

/-- The characters of the unit are neither white space nor an equals sign. -/
theorem not_white_of_unit {unit : Text}
    (h : equalsIgnoreCase unit "bytes".toList = true) :
    ∀ c ∈ unit, ¬ (isWhiteSpace c = true ∨ c = '=') := by
  intro c hc hbad
  have hmap : unit.map Char.toLower = "bytes".toList := (beq_iff_eq.1 h).trans (by decide)
  have hmem : c.toLower ∈ unit.map Char.toLower := List.mem_map_of_mem hc
  rw [hmap, toLower_of_white hbad] at hmem
  have hgood : (("bytes".toList).all fun c => !(isWhiteSpace c || c == '=')) = true := by
    decide
  have := List.all_eq_true.1 hgood c hmem
  grind

/-- What follows the comma does not matter, and neither does when the parts are
trimmed. -/
theorem ofRangeStr_trimWhite {rangeStr beginStr endStr : Text}
    (hbegin : before '-' (before ',' rangeStr) = beginStr)
    (hend : after '-' (before ',' rangeStr) = some endStr) :
    ofRangeStr (trimWhite rangeStr) = ofEnds (trimWhite beginStr) (trimWhite endStr) := by
  have hcut : (if ',' ∈ trimWhite rangeStr then trimWhite (before ',' (trimWhite rangeStr))
      else trimWhite rangeStr) = trimWhite (before ',' rangeStr) := by
    have hbefore := trimWhite_before (c := ',') (by decide) rangeStr
    split
    · exact hbefore
    · rename_i hmem
      rw [before_eq_self hmem, trimmed_trimWhite] at hbefore
      exact hbefore
  have hfront := trimWhite_before (c := '-') (by decide) (before ',' rangeStr)
  have hback := trimWhite_after (c := '-') (by decide) (before ',' rangeStr)
  rw [hbegin] at hfront
  rw [hend, Option.map_some] at hback
  obtain ⟨tail, htail, heq⟩ := Option.map_eq_some_iff.1 hback
  rw [ofRangeStr, hcut, htail, hfront]
  exact congrArg (ofEnds (trimWhite beginStr)) heq

/-- What the parser makes of a well-formed header. -/
theorem ofHeader_rangeHeader {first last header : Text} (h : RangeHeader first last header)
    (hfirst : Trimmed first) (hlast : Trimmed last) (hdash : '-' ∉ first)
    (hcomma : ',' ∉ first ∧ ',' ∉ last) : ofHeader header = ofEnds first last := by
  obtain ⟨w₁, unit, w₂, w₃, w₄, w₅, w₆, rest, hw₁, hw₂, hw₃, hw₄, hw₅, hw₆, hunit, hrest⟩ := h
  have hgood := not_white_of_unit hunit
  have hequals : '=' ∉ w₁ ++ unit ++ w₂ := by
    simp only [List.mem_append, not_or]
    exact ⟨⟨hw₁.ne (by decide), fun hmem => hgood _ hmem (Or.inr rfl)⟩, hw₂.ne (by decide)⟩
  have hunitTrimmed : Trimmed unit :=
    trimmed_of_not_white fun c hc => by simpa using fun hwhite => hgood c hc (Or.inl hwhite)
  -- the part before the comma
  have hbody : ',' ∉ w₃ ++ first ++ w₄ ++ '-' :: (w₅ ++ last ++ w₆) := by
    simp only [List.mem_append, List.mem_cons, not_or]
    exact ⟨⟨⟨hw₃.ne (by decide), hcomma.1⟩, hw₄.ne (by decide)⟩, by decide,
      ⟨hw₅.ne (by decide), hcomma.2⟩, hw₆.ne (by decide)⟩
  have hbefore : before ',' (w₃ ++ first ++ w₄ ++ '-' :: (w₅ ++ last ++ w₆) ++ rest) =
      w₃ ++ first ++ w₄ ++ '-' :: (w₅ ++ last ++ w₆) := by
    rcases hrest with rfl | hrest
    · rw [List.append_nil]
      exact before_eq_self hbody
    · cases rest with
      | nil => cases hrest
      | cons c more =>
        rw [List.head?_cons, Option.some.injEq] at hrest
        rw [hrest]
        exact before_append_cons hbody more
  have hnotdash : '-' ∉ w₃ ++ first ++ w₄ := by
    simp only [List.mem_append, not_or]
    exact ⟨⟨hw₃.ne (by decide), hdash⟩, hw₄.ne (by decide)⟩
  have hwhite : ¬ White (w₁ ++ unit ++ w₂ ++ '=' ::
      (w₃ ++ first ++ w₄ ++ '-' :: (w₅ ++ last ++ w₆) ++ rest)) := by
    intro hwhite
    exact absurd (List.mem_append_right _ (List.mem_cons_self ..))
      (hwhite.ne (c := '=') (by decide))
  rw [ofHeader, if_neg hwhite, after_append_cons hequals, before_append_cons hequals]
  dsimp only
  have hbegin := before_append_cons hnotdash (w₅ ++ last ++ w₆)
  have hend := after_append_cons hnotdash (w₅ ++ last ++ w₆)
  rw [← hbefore] at hbegin hend
  rw [hunitTrimmed.surround hw₁ hw₂, if_pos hunit, ofRangeStr_trimWhite hbegin hend,
    hfirst.surround hw₃ hw₄, hlast.surround hw₅ hw₆]

/-! ## What a header means -/

/-- A decimal number that fits a 64-bit integer. -/
structure Number (text : Text) (n : Nat) : Prop extends Digits text n where
  fits : (n : Int) < 2 ^ 63

theorem Number.tryParse {text : Text} {n : Nat} (h : Number text n) :
    tryParse 64 text = some (n : Int) :=
  tryParse_digits h.toDigits h.fits

theorem ofEnds_suffix {last : Text} {k : Nat} (hlast : Number last k) (hpos : 0 < k) :
    ofEnds [] last = suffix k := by
  rw [ofEnds, if_pos white_nil, hlast.tryParse]
  exact if_pos (by omega)

theorem ofEnds_zero {last : Text} (hlast : Number last 0) : ofEnds [] last = refused := by
  rw [ofEnds, if_pos white_nil, hlast.tryParse]
  exact if_neg (by decide)

theorem ofEnds_open {first last : Text} {a : Nat} (hfirst : Number first a)
    (hlast : last = [] ∨ last = ['*']) : ofEnds first last = span a none := by
  rw [ofEnds, if_neg hfirst.not_white, hfirst.tryParse]
  dsimp only
  rw [if_neg (by omega), if_neg]
  rintro ⟨hwhite, hstar⟩
  rcases hlast with rfl | rfl
  · exact hwhite white_nil
  · exact hstar rfl

/-- An inverted range is refused, with its begin set. -/
theorem ofEnds_span {first last : Text} {a b : Nat} (hfirst : Number first a)
    (hlast : Number last b) :
    ofEnds first last =
      if b < a then { refused with begin := a } else span a (some (b : Int)) := by
  have hstar : last ≠ ['*'] := by
    rintro rfl
    exact absurd (hlast.digit '*' (List.mem_singleton.2 rfl)) (by decide)
  rw [ofEnds, if_neg hfirst.not_white, hfirst.tryParse]
  dsimp only
  rw [if_neg (by omega), if_pos ⟨hlast.not_white, hstar⟩, hlast.tryParse]
  simp only [Int.ofNat_lt]

theorem Selection.selects {r : HttpRange} {totalLength s n : Int} {P : Int → Prop}
    (h : Selection r totalLength s n) (hP : ∀ x, s ≤ x ∧ x < s + n ↔ P x) :
    Selects r totalLength P :=
  ⟨s, n, h.start, h.length, hP⟩

/-- Range headers mean what HTTP says.  Headers `bytes=a-b`, `bytes=a-` and
`bytes=-k` select the positions of the content between their ends, and the last
`k` positions.  Whatever the header is, no operation overflows and what is
selected lies in the content. -/
theorem range_means :
    (∀ (totalLength : Int), 0 < totalLength → totalLength < 2 ^ 63 →
      ∀ (header first last : Text), RangeHeader first last header →
        (∀ a b, Number first a → Number last b →
          Selects (ofHeader header) totalLength
            fun x => 0 ≤ x ∧ x < totalLength ∧ (a : Int) ≤ x ∧ x ≤ b) ∧
        (∀ a, Number first a → last = [] ∨ last = ['*'] →
          Selects (ofHeader header) totalLength
            fun x => (a : Int) ≤ x ∧ x < totalLength) ∧
        (∀ k, first = [] → Number last k →
          Selects (ofHeader header) totalLength
            fun x => totalLength - min (k : Int) totalLength ≤ x ∧ x < totalLength)) ∧
    ∀ (header : Text) (totalLength : Int), Fits 64 totalLength →
      ∃ s n, (ofHeader header).getStart totalLength = some s ∧
        (ofHeader header).getLength totalLength = some n ∧
        0 ≤ s ∧ 0 ≤ n ∧ s + n ≤ max totalLength 0 := by
  refine ⟨fun totalLength hpos hfits header first last hheader => ⟨?_, ?_, ?_⟩, ?_⟩
  · intro a b hfirst hlast
    rw [ofHeader_rangeHeader hheader hfirst.trimmed hlast.trimmed (hfirst.ne (by decide))
      ⟨hfirst.ne (by decide), hlast.ne (by decide)⟩, ofEnds_span hfirst hlast]
    split
    · exact (selection_invalid (Or.inl rfl)).selects fun x => by omega
    · have hselection := selection_span (a : Int) (some (b : Int)) hpos hfits
        (by omega) (fun e he => by cases he; omega)
      refine hselection.selects fun x => ?_
      simp only [Option.getD_some]
      omega
  · intro a hfirst hlast
    have hends : Trimmed last ∧ ',' ∉ last := by
      rcases hlast with rfl | rfl <;> decide
    rw [ofHeader_rangeHeader hheader hfirst.trimmed hends.1 (hfirst.ne (by decide))
      ⟨hfirst.ne (by decide), hends.2⟩, ofEnds_open hfirst hlast]
    have hselection := selection_span (a : Int) none hpos hfits
      (by omega) (fun e he => by cases he)
    refine hselection.selects fun x => ?_
    simp only [Option.getD_none]
    omega
  · rintro k rfl hlast
    rw [ofHeader_rangeHeader hheader trimmed_nil hlast.trimmed List.not_mem_nil
      ⟨List.not_mem_nil, hlast.ne (by decide)⟩]
    by_cases hk : 0 < k
    · rw [ofEnds_suffix hlast hk]
      refine (selection_suffix hpos hfits (by omega) ⟨by omega, hlast.fits⟩).selects
        fun x => ?_
      omega
    · obtain rfl : k = 0 := by omega
      rw [ofEnds_zero hlast]
      exact (selection_invalid (Or.inl rfl)).selects fun x => by omega
  · intro header totalLength hfits
    obtain ⟨s, n, h⟩ := exists_selection (shape_ofHeader header) hfits.2
    exact ⟨s, n, h.start, h.length, h.start_nonneg, h.length_nonneg, h.le_total⟩

/-- The first of two ranges, cut to a content of eight bytes. -/
theorem range_means_twoRanges :
    Selects (ofHeader "BYTES= 5-9,20-".toList) 8
      fun x => 0 ≤ x ∧ x < 8 ∧ ((5 : Nat) : Int) ≤ x ∧ x ≤ ((9 : Nat) : Int) := by
  have hheader : RangeHeader "5".toList "9".toList "BYTES= 5-9,20-".toList :=
    RangeHeader.mk [] "BYTES".toList [] [' '] [] [] [] ",20-".toList (by decide) (by decide)
      (by decide) (by decide) (by decide) (by decide) (by decide) (Or.inr (by decide))
  exact (range_means.1 8 (by decide) (by decide) _ _ _ hheader).1 5 9
    ⟨⟨by decide, List.all_eq_true.1 (by decide), by decide⟩, by decide⟩
    ⟨⟨by decide, List.all_eq_true.1 (by decide), by decide⟩, by decide⟩

end HttpRange

end DirectPackageInstaller
