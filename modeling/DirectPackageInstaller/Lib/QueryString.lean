import DirectPackageInstaller.Lib.UrlDecode

/-!
# Query strings

The collection of a query string's fields, as a web server reads them: fields are
separated by `&`, a name ends at the first `=`, names and values are decoded, and
names are compared without regard to case.

* `parseQueryString_queryOf`: the fields of a query are read back, up to the
  plus signs of the values.
-/

namespace QueryString

open Text UrlDecode

/-! ## Fields -/

/-- A field: its name, if it has one, and its value. -/
abbrev Field := Option Text × Text

/-- One part of a query between ampersands. -/
def parseField (replace : List UInt8 → Text) (text : Text) : Field :=
  match after '=' text with
  | none => (none, urlDecode replace text)
  | some value => (some (urlDecode replace (before '=' text)), urlDecode replace value)

/-- The fields of a query, in order. -/
def parseQueryString (replace : List UInt8 → Text) (query : Text) : List Field :=
  let text := if query.head? = some '?' then query.tail else query
  if text = [] then [] else (text.splitOn '&').map (parseField replace)

/-- Names are equal up to the case of their letters. -/
def sameKey (a b : Option Text) : Bool := a.map (·.map Char.toLower) = b.map (·.map Char.toLower)

/-- A field's name is added unless it is there already. -/
def addKey (keys : List (Option Text)) (field : Field) : List (Option Text) :=
  if keys.any (sameKey field.1) then keys else keys ++ [field.1]

/-- The names in a collection, each as it was written first. -/
def allKeys (query : List Field) : List (Option Text) := query.foldl addKey []

/-- The values under a name, joined by commas. -/
def get (query : List Field) (name : Text) : Option Text :=
  match (query.filter fun field => sameKey (some name) field.1).map (·.2) with
  | [] => none
  | values => some ([','].intercalate values)

theorem mem_of_mem_addKey {keys : List (Option Text)} {field : Field}
    {key : Option Text} (h : key ∈ addKey keys field) : key ∈ keys ∨ key = field.1 := by
  rw [addKey] at h
  split at h
  · exact Or.inl h
  · simpa using h

theorem mem_addKey {keys : List (Option Text)} {key : Option Text} (field : Field)
    (h : key ∈ keys) : key ∈ addKey keys field := by
  rw [addKey]
  split
  · exact h
  · exact List.mem_append_left _ h

theorem exists_of_mem_allKeys {query : List Field} {key : Option Text}
    (h : key ∈ allKeys query) : ∃ field ∈ query, field.1 = key := by
  have hfold : ∀ (query : List Field) (keys : List (Option Text)),
      key ∈ query.foldl addKey keys → key ∈ keys ∨ ∃ field ∈ query, field.1 = key := by
    intro query
    induction query with
    | nil => exact fun keys hkeys => Or.inl hkeys
    | cons field rest ih =>
      intro keys hkeys
      rcases ih _ hkeys with hmem | ⟨field', hf, rfl⟩
      · rcases mem_of_mem_addKey hmem with hmem | rfl
        · exact Or.inl hmem
        · exact Or.inr ⟨field, List.mem_cons_self, rfl⟩
      · exact Or.inr ⟨field', List.mem_cons_of_mem _ hf, rfl⟩
  exact (hfold query [] h).resolve_left List.not_mem_nil

theorem head_mem_allKeys (field : Field) (rest : List Field) :
    field.1 ∈ allKeys (field :: rest) := by
  have hfold : ∀ (query : List Field) (keys : List (Option Text)), field.1 ∈ keys →
      field.1 ∈ query.foldl addKey keys := by
    intro query
    induction query with
    | nil => exact fun keys hkeys => hkeys
    | cons field' rest ih => exact fun keys hkeys => ih _ (mem_addKey field' hkeys)
  exact hfold rest _ (by simp [addKey])

/-- The value of a field whose name occurs once. -/
theorem get_of_unique (before after : List Field) {name : Text} (value : Text)
    (hbefore : ∀ key ∈ before.map (·.1), sameKey (some name) key = false)
    (hafter : ∀ key ∈ after.map (·.1), sameKey (some name) key = false) :
    get (before ++ (some name, value) :: after) name = some value := by
  have hnil : ∀ fields : List Field, (∀ key ∈ fields.map (·.1),
      sameKey (some name) key = false) →
      (fields.filter fun field => sameKey (some name) field.1) = [] :=
    fun fields h => List.filter_eq_nil_iff.2 fun field hf => by
      simp [h field.1 (List.mem_map_of_mem hf)]
  have hself : sameKey (some name) (some name) = true := by simp [sameKey]
  simp [get, hnil before hbefore, hnil after hafter, hself]

/-- The field written as `name=value`. -/
def pair (name value : Text) : Text := name ++ '=' :: value

/-- The query with the given names and values. -/
def queryOf (fields : List (Text × Text)) : Text :=
  ['&'].intercalate (fields.map fun field => pair field.1 field.2)

/-- A text that form decoding does not change, and that has no sign with a
meaning in a query. -/
def Literal (text : Text) : Prop :=
  ∀ c ∈ text, c ≠ '%' ∧ c ≠ '+' ∧ c ≠ '&' ∧ c ≠ '=' ∧ c ≠ '?'

/-- A text that can stand behind a name: decoding only turns its plus signs to
blanks. -/
def Value (text : Text) : Prop :=
  ∀ c ∈ text, c ≠ '%' ∧ c ≠ '&' ∧ c ≠ '?'

instance (text : Text) : Decidable (Literal text) := List.decidableBAll _ text

instance (text : Text) : Decidable (Value text) := List.decidableBAll _ text

theorem Literal.value {text : Text} (h : Literal text) : Value text :=
  fun c hc => ⟨(h c hc).1, (h c hc).2.2.1, (h c hc).2.2.2.2⟩

theorem Literal.map_blank {text : Text} (h : Literal text) : text.map blank = text :=
  map_blank_eq_self fun hplus => (h _ hplus).2.1 rfl

theorem parseField_pair (replace : List UInt8 → Text) {name value : Text}
    (hname : Literal name) (hvalue : Value value) :
    parseField replace (pair name value) = (some name, value.map blank) := by
  have heq : '=' ∉ name := fun h => (hname _ h).2.2.2.1 rfl
  have hpercent : '%' ∉ name := fun h => (hname _ h).1 rfl
  have hpercent' : '%' ∉ value := fun h => (hvalue _ h).1 rfl
  rw [parseField, pair, after_append_cons heq, before_append_cons heq]
  dsimp only
  rw [urlDecode_eq_blanked replace hpercent, urlDecode_eq_blanked replace hpercent',
    hname.map_blank]

/-- No ampersand and no question mark in a pair. -/
theorem not_mem_pair {name value : Text} (hname : Literal name) (hvalue : Value value) :
    '&' ∉ pair name value ∧ '?' ∉ pair name value := by
  simp only [pair, List.mem_append, List.mem_cons, not_or]
  exact ⟨⟨fun h => (hname _ h).2.2.1 rfl, by decide, fun h => (hvalue _ h).2.1 rfl⟩,
    fun h => (hname _ h).2.2.2.2 rfl, by decide, fun h => (hvalue _ h).2.2 rfl⟩

theorem not_mem_queryOf {fields : List (Text × Text)}
    (h : ∀ field ∈ fields, Literal field.1 ∧ Value field.2) : '?' ∉ queryOf fields := by
  induction fields with
  | nil => exact List.not_mem_nil
  | cons field rest ih =>
    have hfield := h field List.mem_cons_self
    have hrest := ih fun field hf => h field (List.mem_cons_of_mem _ hf)
    have hpair := (not_mem_pair hfield.1 hfield.2).2
    cases rest with
    | nil => simpa [queryOf] using hpair
    | cons next rest =>
      simp only [queryOf, List.map_cons, List.intercalate_cons_cons, List.mem_append,
        not_or] at hrest ⊢
      exact ⟨⟨hpair, by decide⟩, hrest⟩

/-- The fields of a query are read back, up to the plus signs of the values. -/
theorem parseQueryString_queryOf (replace : List UInt8 → Text)
    {fields : List (Text × Text)} (hne : fields ≠ [])
    (h : ∀ field ∈ fields, Literal field.1 ∧ Value field.2) :
    parseQueryString replace (queryOf fields) =
      fields.map fun field => (some field.1, field.2.map blank) := by
  have hmark := not_mem_queryOf h
  have hhead : (queryOf fields).head? ≠ some '?' :=
    fun heq => hmark (List.mem_of_head? heq)
  have hsplit : (queryOf fields).splitOn '&' =
      fields.map fun field => pair field.1 field.2 := by
    apply List.splitOn_intercalate
    · intro text htext
      obtain ⟨field, hf, rfl⟩ := List.mem_map.1 htext
      exact (not_mem_pair (h field hf).1 (h field hf).2).1
    · simpa using hne
  have hnil : queryOf fields ≠ [] := by
    intro heq
    rw [heq] at hsplit
    cases fields with
    | nil => exact hne rfl
    | cons field rest =>
      have := congrArg List.head? hsplit
      simp [pair] at this
  rw [parseQueryString]
  simp only [if_neg hhead, if_neg hnil, hsplit, List.map_map]
  apply List.map_congr_left
  intro field hf
  exact parseField_pair replace (h field hf).1 (h field hf).2

end QueryString
