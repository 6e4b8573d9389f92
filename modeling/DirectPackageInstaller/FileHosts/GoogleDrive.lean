import DirectPackageInstaller.Lib.Culture

/-!
# Google Drive links

`GetFileID` looks for `id=` and `&export=`, for `id=` alone or for `/file/d/`, and
takes what stands behind the first of them.  The helper that cuts between two texts
throws where the second one does not follow the first.

* `isValidUrl_ne_none_iff`: for which texts `IsValidUrl` does not throw.
* `getFileID_eq_iff`: what `GetFileID` returns for a printable URL.
* `recognised_iff`: which links are recognised with their file id.
-/

namespace DirectPackageInstaller

open Text Search

namespace Extensions

variable (c : Culture)

/-- `String.Substring(Substring)`: the part behind a text, or `null`.  The outer
`none` is an exception. -/
def substring (text part : Text) : Option (Option Text) :=
  if ¬ part <:+: text then some none
  else (substringFrom text (position (c.indexOf text part) + part.length)).map some

/-- `String.Substring(SubstringA, SubstringB)`: the part between two texts. -/
def substringBetween (text a b : Text) : Option Text :=
  let bIndex := position (c.indexOf text a)
  if bIndex = -1 ∨ ¬ b <:+: text then none
  else
    let bIndex := bIndex + a.length
    -- `IndexOf` throws for a start behind the end of the text
    match substringFrom text bIndex with
    | none => none
    | some rest =>
      let eIndex := match c.indexOf rest b with
        | some e => bIndex + e
        | none => -1
      substringRange text bIndex (eIndex - bIndex)

end Extensions

namespace GoogleDrive

variable (c : Culture)

/-! The texts that a link is cut at. -/

def host : Text := "drive.google.com".toList

def idMark : Text := "id=".toList

def exportMark : Text := "&export=".toList

def pathMark : Text := "/file/d/".toList

def slash : Text := "/".toList

/-- `GetFileID`; `some none` is `null`. -/
def getFileID (url : Text) : Option (Option Text) :=
  if idMark <:+: url ∧ exportMark <:+: url then
    (Extensions.substringBetween c url idMark exportMark).map some
  else if idMark <:+: url then Extensions.substring c url idMark
  else if pathMark <:+: url then
    (Extensions.substringBetween c url pathMark slash).map some
  else some none

/-- `IsValidUrl`. -/
def isValidUrl (url : Text) : Option Bool :=
  if host <:+: url then (getFileID c url).map Option.isSome
  else some false

/-! ## What is expected -/

/-- A character of a file id. -/
def isIdChar (ch : Char) : Bool := ch.isAlphanum || ch == '-' || ch == '_'

/-- `rest` stands behind the place where `marker` is found. -/
def Behind (marker url rest : Text) : Prop :=
  ∃ i, c.indexOf url marker = some i ∧ i + marker.length ≤ url.length ∧
    rest = url.drop (i + marker.length)

/-- A URL whose query has the parameter `id=x` and no other `id`. -/
structure HasIdParameter (url x : Text) (front : Text) (before after : List Text)
    (fragment : Text) : Prop where
  url_eq : url = front ++ '?' ::
    ['&'].intercalate (before ++ (idMark ++ x) :: after) ++ fragment
  front : '?' ∉ front ∧ '#' ∉ front
  others : ∀ parameter ∈ before ++ after,
    '&' ∉ parameter ∧ '#' ∉ parameter ∧ ¬ idMark <+: parameter
  fragment : fragment = [] ∨ fragment.head? = some '#'

/-- A URL of the form `.../file/d/x`, with or without more behind a slash. -/
def HasFilePath (url x : Text) : Prop :=
  ∃ front back, url = front ++ pathMark ++ x ++ back ∧
    (back = [] ∨ back.head? = some '/')

/-- A Google Drive URL that names the file `x`, in its query or, without an `id`
parameter, in its path.  A query with two `id` parameters names no file. -/
structure Names (url x : Text) : Prop where
  printable : Printable url
  host : host <:+: url
  id : x.all isIdChar = true
  shape : (∃ front before after fragment, HasIdParameter url x front before after fragment) ∨
    HasFilePath url x ∧
      ∀ y front before after fragment, ¬ HasIdParameter url y front before after fragment

/-- Every text that is looked for is there: a text to cut at stands behind the one
to cut behind. -/
def Parses (url : Text) : Prop :=
  host <:+: url →
    (idMark <:+: url → if exportMark <:+: url then
        ∃ rest, Behind c idMark url rest ∧ c.indexOf rest exportMark ≠ none
      else ∀ i, c.indexOf url idMark = some i → i + 3 ≤ url.length) ∧
    (¬ idMark <:+: url → pathMark <:+: url →
      ∃ rest, Behind c pathMark url rest ∧ c.indexOf rest slash ≠ none)

/-- The id stands behind the first `id=` and goes up to `&export=`, or to the end of
a URL without `&export=`; or, without any `id=`, it stands behind the first `/file/d/`
and goes up to a slash. -/
def Stands (url x : Text) : Prop :=
  if idMark <:+: url then
    ∃ rest, Behind c idMark url rest ∧
      if exportMark <:+: url then x ++ exportMark <+: rest else rest = x
  else ∃ rest, Behind c pathMark url rest ∧ x ++ slash <+: rest

/-! ## Cutting between two texts -/

theorem behind_iff {marker url rest : Text} {i : Nat} (h : c.indexOf url marker = some i) :
    Behind c marker url rest ↔
      i + marker.length ≤ url.length ∧ rest = url.drop (i + marker.length) := by
  constructor
  · intro ⟨j, hj, hle, hrest⟩
    have heq : i = j := Option.some.inj (h.symm.trans hj)
    rw [heq]
    exact ⟨hle, hrest⟩
  · intro ⟨hle, hrest⟩
    exact ⟨i, h, hle, hrest⟩

theorem not_behind {marker url rest : Text} (h : c.indexOf url marker = none) :
    ¬ Behind c marker url rest := by
  intro ⟨i, hi, _⟩
  rw [h] at hi
  cases hi

/-- The part that is cut out. -/
theorem substringBetween_eq_some_iff {text a b part : Text} (hb : Printable b)
    (hne : b ≠ []) (hin : b <:+: text) :
    Extensions.substringBetween c text a b = some part ↔
      ∃ rest, Behind c a text rest ∧ ∃ e, c.indexOf rest b = some e ∧ part = rest.take e := by
  rw [Extensions.substringBetween]
  cases ha : c.indexOf text a with
  | none =>
    simp [position, not_behind c ha]
  | some i =>
    have hi : ¬ (position (some i) = -1 ∨ ¬ b <:+: text) := by
      simp only [position, hin, not_true, or_false]
      omega
    rw [if_neg hi]
    simp only [behind_iff c ha, position]
    by_cases hle : i + a.length ≤ text.length
    · have hfrom : substringFrom text ((i : Int) + a.length) =
          some (text.drop (i + a.length)) := by
        rw [substringFrom, if_pos ⟨by omega, by omega⟩]
        rfl
      rw [hfrom]
      simp only [hle, true_and, exists_eq_left]
      cases he : c.indexOf (text.drop (i + a.length)) b with
      | none =>
        have hthrows : substringRange text ((i : Int) + a.length)
            (-1 - ((i : Int) + a.length)) = none := by
          rw [substringRange, if_neg (by omega)]
        simp [hthrows]
      | some e =>
        have hlt := c.lt_length _ b e hb hne he
        rw [List.length_drop] at hlt
        have hlength : (i : Int) + a.length + e - ((i : Int) + a.length) = e := by omega
        have hrange : substringRange text ((i : Int) + a.length) e =
            some ((text.drop (i + a.length)).take e) := by
          rw [substringRange, if_pos ⟨by omega, by omega, by omega⟩]
          rfl
        dsimp only
        rw [hlength, hrange]
        simp [eq_comm]
    · have hfrom : substringFrom text ((i : Int) + a.length) = none := by
        rw [substringFrom, if_neg (by omega)]
      rw [hfrom]
      simp [hle]

theorem substringBetween_ne_none_iff {text a b : Text} (hb : Printable b)
    (hne : b ≠ []) (hin : b <:+: text) :
    Extensions.substringBetween c text a b ≠ none ↔
      ∃ rest, Behind c a text rest ∧ c.indexOf rest b ≠ none := by
  rw [Option.ne_none_iff_exists']
  simp only [substringBetween_eq_some_iff c hb hne hin, Option.ne_none_iff_exists']
  constructor
  · intro ⟨_, rest, hrest, e, he, _⟩
    exact ⟨rest, hrest, e, he⟩
  · intro ⟨rest, hrest, e, he⟩
    exact ⟨_, rest, hrest, e, he, rfl⟩

/-- The part in front of a text that starts with a sign of its own. -/
theorem exists_take_iff {rest part body : Text} {sign : Char} (hrest : Printable rest)
    (hmark : Printable (sign :: body)) (hsign : sign ∉ part)
    (hends : Unlettered (sign :: body)) :
    (∃ e, c.indexOf rest (sign :: body) = some e ∧ part = rest.take e) ↔
      part ++ sign :: body <+: rest := by
  have hne : sign :: body ≠ [] := List.cons_ne_nil _ _
  constructor
  · rintro ⟨e, he, rfl⟩
    obtain ⟨tail, htail⟩ := c.occurs _ _ _ hrest hmark hne he
    refine ⟨tail, ?_⟩
    rw [List.append_assoc, htail, List.take_append_drop]
  · rintro ⟨tail, rfl⟩
    refine ⟨part.length, ?_, by simp⟩
    refine c.indexOf_eq hrest hmark hne ⟨?_, ?_⟩ (hends.apart _ _)
    · refine ⟨tail, ?_⟩
      rw [List.append_assoc, List.drop_left]
    · -- in front of it there is no such sign
      intro j hj hocc
      have hget := occursAt_iff.1 hocc 0 (by simp)
      rw [Nat.add_zero, List.append_assoc, List.getElem?_append_left hj] at hget
      exact hsign (List.mem_of_getElem? hget)

/-! ## When a link is recognised -/

theorem slash_of_path {url : Text} (h : pathMark <:+: url) : slash <:+: url :=
  (List.prefix_append slash "file/d/".toList).isInfix.trans h

theorem length_le_of_infix {a b : Text} (h : a <:+: b) : a.length ≤ b.length :=
  h.sublist.length_le

/-- What is cut off at `id=`; where the culture does not find it, two characters are. -/
theorem substring_idMark {url : Text} (h : idMark <:+: url) :
    Extensions.substring c url idMark =
      match c.indexOf url idMark with
      | none => some (some (url.drop 2))
      | some i => if i + 3 ≤ url.length then some (some (url.drop (i + 3))) else none := by
  have hlength : 3 ≤ url.length := length_le_of_infix h
  rw [Extensions.substring, if_neg (not_not.2 h), show (idMark.length : Int) = 3 from rfl]
  cases hi : c.indexOf url idMark with
  | none =>
    rw [substringFrom, position, if_pos ⟨by decide, by omega⟩]
    rfl
  | some i =>
    rw [substringFrom, position]
    dsimp only
    split_ifs with hin hle hle
    · rfl
    · omega
    · omega
    · rfl

theorem substring_ne_none_iff {url : Text} (h : idMark <:+: url) :
    Extensions.substring c url idMark ≠ none ↔
      ∀ i, c.indexOf url idMark = some i → i + 3 ≤ url.length := by
  rw [substring_idMark c h]
  cases hi : c.indexOf url idMark with
  | none => simp
  | some i => simp

/-- `GetFileID` does not throw. -/
theorem getFileID_ne_none_iff {url : Text} (h : host <:+: url) :
    getFileID c url ≠ none ↔ Parses c url := by
  rw [Parses, forall_prop_of_true h, getFileID]
  by_cases hid : idMark <:+: url
  · by_cases hexport : exportMark <:+: url
    · rw [if_pos ⟨hid, hexport⟩, Ne, Option.map_eq_none_iff, ← Ne,
        substringBetween_ne_none_iff c (by decide) (by decide) hexport]
      simp [hid, hexport]
    · rw [if_neg fun hboth => hexport hboth.2, if_pos hid, substring_ne_none_iff c hid]
      simp [hid, hexport]
  · rw [if_neg fun hboth => hid hboth.1, if_neg hid]
    by_cases hpath : pathMark <:+: url
    · rw [if_pos hpath, Ne, Option.map_eq_none_iff, ← Ne,
        substringBetween_ne_none_iff c (by decide) (by decide) (slash_of_path hpath)]
      simp [hid, hpath]
    · simp [hid, hpath]

theorem isValidUrl_ne_none_iff (url : Text) : isValidUrl c url ≠ none ↔ Parses c url := by
  rw [isValidUrl]
  by_cases h : host <:+: url
  · rw [if_pos h, Ne, Option.map_eq_none_iff, ← Ne, getFileID_ne_none_iff c h]
  · simp [Parses, h]

theorem not_mem_of_idChars {x : Text} (h : x.all isIdChar = true) {ch : Char}
    (hch : isIdChar ch = false) : ch ∉ x := by
  intro hmem
  rw [List.all_eq_true.1 h ch hmem] at hch
  cases hch

theorem behind_printable {marker url rest : Text} (h : Printable url)
    (hrest : Behind c marker url rest) : Printable rest := by
  obtain ⟨i, _, _, rfl⟩ := hrest
  exact h.subset (List.drop_subset _ _)

/-- The host is not a part of a file id, whatever two characters are cut off. -/
theorem drop_ne_id {url x : Text} (h : host <:+: url)
    (hx : x.all isIdChar = true) : url.drop 2 ≠ x := by
  obtain ⟨front, back, rfl⟩ := h
  intro heq
  have hdot : '.' ∈ (front ++ host ++ back).drop 2 := by
    have hmem : '.' ∈ (front ++ "dr".toList).drop 2 ++ ("ive.google.com".toList ++ back) := by
      simp
    have hsplit : front ++ host ++ back =
        front ++ "dr".toList ++ ("ive.google.com".toList ++ back) := by
      rw [show host = "dr".toList ++ "ive.google.com".toList from rfl]
      simp only [List.append_assoc]
    rw [hsplit, List.drop_append_of_le_length (by simp)]
    exact hmem
  rw [heq] at hdot
  exact not_mem_of_idChars hx (by decide) hdot

/-- What stands behind `id=`. -/
theorem substring_eq_some_iff {url x : Text} (hurl : Printable url)
    (hid : idMark <:+: url) (hhost : host <:+: url)
    (hx : x.all isIdChar = true) :
    Extensions.substring c url idMark = some (some x) ↔
      ∃ rest, Behind c idMark url rest ∧ rest = x := by
  rw [substring_idMark c hid]
  cases hi : c.indexOf url idMark with
  | none => simp [not_behind c hi, drop_ne_id hhost hx]
  | some i =>
    have hocc := c.occurs url idMark i hurl (by decide) (by decide) hi
    have hle : i + 3 ≤ url.length := hocc.le_length (show idMark ≠ [] by decide)
    dsimp only
    rw [if_pos hle]
    simp only [behind_iff c hi, Option.some_inj]
    constructor
    · intro heq
      exact ⟨_, ⟨hle, rfl⟩, heq⟩
    · rintro ⟨rest, ⟨_, rfl⟩, heq⟩
      exact heq

theorem getFileID_eq_iff {url x : Text} (hurl : Printable url)
    (hhost : host <:+: url) (hx : x.all isIdChar = true) :
    getFileID c url = some (some x) ↔ Stands c url x := by
  -- between two texts the id is what stands in front of the second one
  have hbetween : ∀ (marker : Text) (sign : Char) (body : Text), Printable (sign :: body) →
      sign ∉ x → Unlettered (sign :: body) → sign :: body <:+: url →
      ((Extensions.substringBetween c url marker (sign :: body)).map some = some (some x) ↔
        ∃ rest, Behind c marker url rest ∧ x ++ sign :: body <+: rest) := by
    intro marker sign body hmark hsign hends hin
    rw [Option.map_eq_some_iff]
    simp only [Option.some_inj, exists_eq_right,
      substringBetween_eq_some_iff c hmark (List.cons_ne_nil _ _) hin]
    refine exists_congr fun rest => and_congr_right fun hrest => ?_
    exact exists_take_iff c (behind_printable c hurl hrest) hmark hsign hends
  rw [getFileID, Stands]
  by_cases hid : idMark <:+: url
  · by_cases hexport : exportMark <:+: url
    · rw [if_pos ⟨hid, hexport⟩, if_pos hid]
      simp only [if_pos hexport]
      exact hbetween _ _ _ (by decide) (not_mem_of_idChars hx (by decide)) (by decide) hexport
    · rw [if_neg fun hboth => hexport hboth.2, if_pos hid, if_pos hid]
      simp only [if_neg hexport]
      exact substring_eq_some_iff c hurl hid hhost hx
  · rw [if_neg fun hboth => hid hboth.1, if_neg hid, if_neg hid]
    by_cases hpath : pathMark <:+: url
    · rw [if_pos hpath]
      exact hbetween _ _ _ (by decide) (not_mem_of_idChars hx (by decide)) (by decide)
        (slash_of_path hpath)
    · rw [if_neg hpath]
      refine iff_of_false (by simp) fun ⟨rest, ⟨i, hi, _⟩, _⟩ => hpath ?_
      have hocc := c.occurs _ _ i hurl (by decide) (by decide) hi
      exact infix_iff_occursAt.2 ⟨i, hocc⟩

/-- `IsValidUrl` does not throw exactly when the texts that are looked for are there,
and a link to a file is recognised exactly when its id stands where `GetFileID` looks. -/
theorem recognised_iff (c : Culture) :
    (∀ url, isValidUrl c url ≠ none ↔ Parses c url) ∧
      ∀ url x, Names url x →
        (isValidUrl c url = some true ∧ getFileID c url = some (some x) ↔ Stands c url x) := by
  refine ⟨isValidUrl_ne_none_iff c, fun url x h => ?_⟩
  rw [← getFileID_eq_iff c h.printable h.host h.id]
  constructor
  · intro ⟨_, hid⟩
    exact hid
  · intro hid
    rw [isValidUrl, if_pos h.host, hid]
    exact ⟨rfl, rfl⟩

/-- A link with another parameter in front of the id. -/
theorem recognised_open :
    isValidUrl Culture.ordinal "https://drive.google.com/open?usp=x&id=A".toList =
        some true ∧
      getFileID Culture.ordinal "https://drive.google.com/open?usp=x&id=A".toList =
        some (some ['A']) := by
  have hnames : Names "https://drive.google.com/open?usp=x&id=A".toList ['A'] := by
    refine ⟨by decide, by decide, by decide, Or.inl
      ⟨"https://drive.google.com/open".toList, ["usp=x".toList], [], [], ?_⟩⟩
    exact ⟨by decide, by decide, by decide, Or.inl rfl⟩
  refine ((recognised_iff Culture.ordinal).2 _ _ hnames).2 ?_
  rw [Stands, if_pos (by decide)]
  exact ⟨['A'], ⟨36, by decide, by decide, by decide⟩, by decide⟩

/-- `&export=` in front of the id and a path without a slash behind the id make it
throw, and another parameter behind the id is taken for a part of it. -/
theorem not_recognised :
    isValidUrl Culture.ordinal
        "https://drive.google.com/uc?confirm=t&export=download&id=A".toList = none ∧
      isValidUrl Culture.ordinal "https://drive.google.com/file/d/A".toList = none ∧
      Names "https://drive.google.com/open?id=A&usp=sharing".toList ['A'] ∧
      getFileID Culture.ordinal "https://drive.google.com/open?id=A&usp=sharing".toList =
        some (some "A&usp=sharing".toList) := by
  refine ⟨by decide, by decide, ⟨by decide, by decide, by decide, Or.inl
    ⟨"https://drive.google.com/open".toList, [], ["usp=sharing".toList], [], ?_⟩⟩, by decide⟩
  exact ⟨by decide, by decide, by decide, Or.inl rfl⟩

end GoogleDrive

end DirectPackageInstaller
