import DirectPackageInstaller.Others.Ini

/-!
# All values of a group

`GetValues` makes the same tests on the lines as `GetValue`.  But `GetValue`
returns at the first line with the key, and `GetValues` goes on and overwrites
the value, so it keeps the last one.

* `getValues_eq_last`: the dictionary has the last value of each key.
* `getValues_eq_none_iff`: whether there is a dictionary at all does not depend
  on that.
* `readers_agree_iff` is the result.
-/

namespace DirectPackageInstaller.Ini

open Text Lookup

variable (culture : Culture)

/-- The loop of `GetValues`, with the dictionary and the `CurrentGroup` in front
of the lines. -/
def getValuesFrom (group : Text) : List (Text × Text) → Option Text → List Text →
    List (Text × Text)
  | result, _, [] => result
  | result, currentGroup, line :: rest =>
    match readLine culture line with
    | .comment => getValuesFrom group result currentGroup rest
    | .header g => getValuesFrom group result (some g) rest
    | .plain => getValuesFrom group result currentGroup rest
    | .key currentName currentValue =>
      if currentGroup ≠ some (culture.lower (trimWhite group)) then
        getValuesFrom group result currentGroup rest
      else getValuesFrom group (assign result currentName currentValue) currentGroup rest

/-- `GetValues(Group)`. -/
def getValues (iniLines : List Text) (group : Text) : Option (List (Text × Text)) :=
  let result := getValuesFrom culture group [] none iniLines
  if result.length = 0 then none else some result

/-- What `GetValues(Group)` has for a key, if there is a dictionary. -/
def valueIn (iniLines : List Text) (group key : Text) : Option Text :=
  (getValues culture iniLines group).bind fun values => values.lookup key

/-- The two readers agree on a group. -/
structure ReadersAgree (iniLines : List Text) (group : Text) : Prop where
  contains_iff : ∀ name, '=' ∉ name →
    ((valueIn culture iniLines group (culture.lower (trimWhite name))).isSome ↔
      getValue culture iniLines name group ≠ none)
  value_eq : ∀ name, '=' ∉ name → getValue culture iniLines name group ≠ none →
    valueIn culture iniLines group (culture.lower (trimWhite name)) =
      getValue culture iniLines name group
  null_iff : getValues culture iniLines group = none ↔
    ∀ name, getValue culture iniLines name group = none

variable {culture}

/-- The dictionary behind some lines: the last value in them, or else the one in
front of them. -/
theorem lookup_getValuesFrom (culture : Culture) (group : Text) (result : List (Text × Text))
    (current : Option Text) (lines : List Text) (key : Text) :
    (getValuesFrom culture group result current lines).lookup key =
      ((entries culture current lines).reverse.lookup (culture.lower (trimWhite group), key)).or
        (result.lookup key) := by
  induction lines generalizing result current with
  | nil => rfl
  | cons line rest ih =>
    rw [getValuesFrom, entries]
    cases readLine culture line with
    | comment => exact ih result current
    | header g => exact ih result (some g)
    | plain => exact ih result current
    | key currentName currentValue =>
      dsimp only
      rw [List.reverse_append, List.lookup_append, Option.or_assoc]
      by_cases hgroup : current = some (culture.lower (trimWhite group))
      · rw [if_neg (not_not.2 hgroup), ih, lookup_assign, hgroup]
        show _ = Option.or _ (Option.or
          ([((culture.lower (trimWhite group), currentName), currentValue)].lookup _) _)
        rw [lookup_cons]
        by_cases hkey : key = currentName
        · simp [hkey]
        · simp [hkey]
      · rw [if_pos hgroup, ih]
        congr 1
        cases current with
        | none => rfl
        | some g =>
          show _ = Option.or ([((g, currentName), currentValue)].lookup _) _
          rw [lookup_cons, if_neg, List.lookup_nil, Option.none_or]
          intro heq
          exact hgroup (congrArg some (Prod.mk.inj heq).1.symm)

/-- `GetValues` has the last value of each key. -/
theorem getValues_eq_last (lines : List Text) (group key : Text) :
    valueIn culture lines group key =
      (entries culture none lines).reverse.lookup (culture.lower (trimWhite group), key) := by
  have hlookup := lookup_getValuesFrom culture group [] none lines key
  rw [List.lookup_nil, Option.or_none] at hlookup
  rw [valueIn, getValues]
  split_ifs with hlen
  · rw [List.length_eq_zero_iff] at hlen
    rw [← hlookup, hlen]
    rfl
  · exact hlookup

theorem name_of_readLine {line name value : Text} (h : readLine culture line = .key name value) :
    name = culture.lower (trimWhite (before '=' line)) := by
  unfold readLine at h
  split_ifs at h
  cases h
  rfl

/-- The name of an entry is that of a line, without an equals sign. -/
theorem exists_name_of_mem_entries {current : Option Text} {lines : List Text}
    {e : (Text × Text) × Text} (h : e ∈ entries culture current lines) :
    ∃ name, '=' ∉ name ∧ e.1.2 = culture.lower (trimWhite name) := by
  induction lines generalizing current with
  | nil => cases h
  | cons line rest ih =>
    rw [entries] at h
    cases hline : readLine culture line with
    | comment => rw [hline] at h; exact ih h
    | header g => rw [hline] at h; exact ih h
    | plain => rw [hline] at h; exact ih h
    | key currentName currentValue =>
      rw [hline] at h
      rcases List.mem_append.1 h with hnew | hrest
      · obtain ⟨g, -, rfl⟩ := List.mem_map.1 hnew
        exact ⟨before '=' line, not_mem_before '=' line, name_of_readLine hline⟩
      · exact ih hrest

/-- There is no dictionary exactly when the group has no key. -/
theorem getValues_eq_none_iff (lines : List Text) (group : Text) :
    getValues culture lines group = none ↔
      ∀ e ∈ entries culture none lines, e.1.1 ≠ culture.lower (trimWhite group) := by
  have hlookup := lookup_getValuesFrom culture group [] none lines
  simp only [List.lookup_nil, Option.or_none] at hlookup
  have hnone : getValues culture lines group = none ↔
      getValuesFrom culture group [] none lines = [] := by
    rw [getValues, ← List.length_eq_zero_iff]
    split_ifs with hlen <;> simp [hlen]
  rw [hnone, eq_nil_iff_lookup]
  constructor
  · intro h e he hgroup
    have hlast := (hlookup e.1.2).symm.trans (h e.1.2)
    rw [List.lookup_eq_none_iff] at hlast
    have hne := hlast e (List.mem_reverse.2 he)
    rw [← hgroup, bne_iff_ne] at hne
    exact hne rfl
  · intro h key
    rw [hlookup, List.lookup_eq_none_iff]
    intro e he
    rw [bne_iff_ne]
    intro heq
    exact h e (List.mem_reverse.1 he) (congrArg Prod.fst heq.symm)

/-- `GetValue` finds nothing exactly when the group has no key. -/
theorem getValue_eq_none_iff (lines : List Text) (group : Text) :
    (∀ name, getValue culture lines name group = none) ↔
      ∀ e ∈ entries culture none lines, e.1.1 ≠ culture.lower (trimWhite group) := by
  simp only [getValue_eq_lookup, List.lookup_eq_none_iff, bne_iff_ne]
  constructor
  · intro h e he hgroup
    obtain ⟨name, -, hname⟩ := exists_name_of_mem_entries he
    exact h name e he (Prod.ext hgroup.symm hname.symm)
  · intro h name e he heq
    exact h e he (congrArg Prod.fst heq.symm)

/-- The two readers agree on a group exactly when the first and the last line of
each of its keys have the same value. -/
theorem readers_agree_iff (culture : Culture) (lines : List Text) (group : Text) :
    ReadersAgree culture lines group ↔
      ∀ key value value',
        IsFirst (entries culture none lines) (culture.lower (trimWhite group), key) value →
        IsLast (entries culture none lines) (culture.lower (trimWhite group), key) value' →
        value = value' := by
  constructor
  · intro h key value value' hfirst hlast
    obtain ⟨name, hname, hkey⟩ : ∃ name, '=' ∉ name ∧ key = culture.lower (trimWhite name) := by
      obtain ⟨front, back, hentries, -⟩ := hfirst
      exact exists_name_of_mem_entries (e := ((culture.lower (trimWhite group), key), value))
        (hentries ▸ List.mem_append_right _ (List.mem_cons_self ..))
    have hvalue : getValue culture lines name group = some value := by
      rw [getValue_eq_lookup, keyOf, ← hkey, lookup_eq_some_iff_isFirst]
      exact hfirst
    have heq := h.value_eq name hname (hvalue ▸ Option.some_ne_none value)
    rw [getValues_eq_last, getValue_eq_lookup, keyOf, ← hkey] at heq
    exact lookup_reverse_eq_iff.1 heq value value' hfirst hlast
  · intro h
    have hsame : ∀ name, valueIn culture lines group (culture.lower (trimWhite name)) =
        getValue culture lines name group := by
      intro name
      rw [getValues_eq_last, getValue_eq_lookup, keyOf]
      exact lookup_reverse_eq_iff.2 (h _)
    refine ⟨fun name _ => ?_, fun name _ _ => hsame name, ?_⟩
    · rw [hsame name, Option.isSome_iff_ne_none]
    · rw [getValues_eq_none_iff, getValue_eq_none_iff]

/-- A group with the same key twice. -/
def twice : List Text :=
  ["[g]".toList, "a=1".toList, "a=2".toList]

theorem readers_disagree : ¬ ReadersAgree (.ordinal id) twice "g".toList := by
  intro h
  have heq := h.value_eq "a".toList (by decide) (by decide +kernel)
  exact absurd heq (by decide +kernel)

end DirectPackageInstaller.Ini
