import DirectPackageInstaller.Lib.Arrange
import DirectPackageInstaller.Lib.Lookup
import DirectPackageInstaller.Lib.TryParse

/-!
# INI files

`Ini` keeps the lines of a file.  `GetValue` scans them for a key in a group;
`SetValue` scans them for the same key, and on the way for the place at which
a new line of the group can be put.

A file means an association list from pairs of a group and a name to values,
in the order of the lines (`entries`).  `getValue_eq_lookup` says that
`GetValue` looks the pair up there.

* `scan_spec` is the scan of `SetValue`: where the key is, or where the last
  line of the group is.
* `setValue_cases` gives the lines after `SetValue`.
* `setValue_point_update_iff` says when `SetValue` sets its own key and no other.

`StartsWith` and `EndsWith` of a string compare in the culture of the thread,
which may pass over characters (a soft hyphen in front of `[`), and lines that
do not start with a mark by their characters may start with it there.  These
two and `ToLowerInvariant` are a parameter, `culture`.
-/

namespace DirectPackageInstaller.Ini

open Text

/-! ## The code -/

/-- The marks that lines are tested for. -/
def marks : List Text := [['/', '/'], [';'], ['!'], ['[']]

/-- The operations on strings that depend on a culture. -/
structure Culture where
  /-- `ToLowerInvariant`. -/
  lower : Text → Text
  /-- `StartsWith`. -/
  startsWith : Text → Text → Bool
  /-- `EndsWith`. -/
  endsWith : Text → Text → Bool
  /-- The empty text starts with no mark. -/
  startsWith_nil : ∀ mark ∈ marks, startsWith [] mark = false
  /-- One character is not both brackets, so `Substring(1, Length - 2)` does not throw. -/
  two_le_length : ∀ line, startsWith line ['['] = true → endsWith line [']'] = true →
    2 ≤ line.length

/-- The culture that compares character by character. -/
def Culture.ordinal (lower : Text → Text) : Culture where
  lower
  startsWith line mark := mark.isPrefixOf line
  endsWith line mark := mark.isSuffixOf line
  startsWith_nil := by decide
  two_le_length := by
    intro line hstart hend
    obtain ⟨rest, rfl⟩ := List.isPrefixOf_iff_prefix.1 hstart
    cases rest with
    | nil => exact absurd hend (by decide)
    | cons c rest => simp

/-- What the loops over the lines make of a line. -/
inductive Line where
  | comment
  /-- A group header, with the value of `CurrentGroup` behind it. -/
  | header (group : Text)
  /-- A line without `=`. -/
  | plain
  /-- A key, with its `CurrentName` and `CurrentValue`. -/
  | key (name value : Text)
deriving DecidableEq, Repr

variable (culture : Culture)

/-- The test for a comment. -/
def isComment (line : Text) : Bool :=
  culture.startsWith line ['/', '/'] || culture.startsWith line [';'] ||
    culture.startsWith line ['!']

/-- The test for the header of a group. -/
def isHeader (line : Text) : Bool :=
  culture.startsWith line ['['] && culture.endsWith line [']']

/-- The tests that every loop makes on a line, in their order. -/
def readLine (line : Text) : Line :=
  if isComment culture line then .comment
  else if isHeader culture line then
    .header (culture.lower (trimWhite line.tail.dropLast))
  else if '=' ∉ line then .plain
  else .key (culture.lower (trimWhite (before '=' line))) (trimWhite ((after '=' line).getD []))

/-- The loop of `GetValue`, with the `CurrentGroup` in front of the lines. -/
def getValueFrom (name group : Text) : Option Text → List Text → Option Text
  | _, [] => none
  | currentGroup, line :: rest =>
    match readLine culture line with
    | .comment => getValueFrom name group currentGroup rest
    | .header g => getValueFrom name group (some g) rest
    | .plain => getValueFrom name group currentGroup rest
    | .key currentName currentValue =>
      if currentGroup ≠ some (culture.lower (trimWhite group)) then
        getValueFrom name group currentGroup rest
      else if currentName ≠ culture.lower (trimWhite name) then
        getValueFrom name group currentGroup rest
      else some currentValue

/-- `GetValue(Name, Group)`. -/
def getValue (iniLines : List Text) (name group : Text) : Option Text :=
  getValueFrom culture name group none iniLines

/-- The variables of the loop of `SetValue`.  `found` is the line at which it
returns. -/
structure Scan where
  groupBegin : Option Nat
  groupEnd : Nat
  found : Option Nat
deriving DecidableEq, Repr

/-- The loop of `SetValue`, from line `i` on. -/
def scan (name group : Text) (i : Nat) (groupBegin : Option Nat) (groupEnd : Nat) :
    Option Text → List Text → Scan
  | _, [] => { groupBegin, groupEnd, found := none }
  | currentGroup, line :: rest =>
    match readLine culture line with
    | .comment => scan name group (i + 1) groupBegin groupEnd currentGroup rest
    | .header g =>
      scan name group (i + 1) (if g = culture.lower group then some i else groupBegin) groupEnd
        (some g) rest
    | .plain => scan name group (i + 1) groupBegin groupEnd currentGroup rest
    | .key currentName _ =>
      if currentGroup ≠ some (culture.lower (trimWhite group)) then
        scan name group (i + 1) groupBegin groupEnd currentGroup rest
      else if currentName ≠ culture.lower (trimWhite name) then
        scan name group (i + 1) groupBegin i currentGroup rest
      else { groupBegin, groupEnd := i, found := some i }

/-- The line of a key. -/
def keyLine (name : Text) (value : Option Text) : Text :=
  name ++ '=' :: value.getD []

/-- The line of a group. -/
def headerLine (group : Text) : Text :=
  '[' :: group ++ [']']

/-- The lines in front of a new group. -/
def spaced (iniLines : List Text) : List Text :=
  if iniLines ≠ [] ∧ trimWhite (iniLines.getLastD []) ≠ [] then iniLines ++ [[]] else iniLines

/-- `SetValue(Group, Name, Value)`: the new lines. -/
def setValue (iniLines : List Text) (group name : Text) (value : Option Text) : List Text :=
  let s := scan culture name group 0 none iniLines.length none iniLines
  match s.found with
  | some i => iniLines.set i (keyLine name value)
  | none =>
    if s.groupBegin.isSome then
      if s.groupEnd + 1 < iniLines.length then
        iniLines.insertIdx (s.groupEnd + 1) (keyLine name value)
      else iniLines ++ [keyLine name value]
    else spaced iniLines ++ [headerLine group, keyLine name value]

/-- `SetValues(Group, Entries)`: one `SetValue` after the other. -/
def setValues (iniLines : List Text) (group : Text) (values : List (Text × Option Text)) :
    List Text :=
  values.foldl (fun lines entry => setValue culture lines group entry.1 entry.2) iniLines

/-- `GetBooleanValue(Name, Group)`. -/
def getBooleanValue (iniLines : List Text) (name group : Text) : Bool :=
  let value := (getValue culture iniLines name group).map culture.lower
  decide (value = some "true".toList ∨ value = some "1".toList ∨ value = some "yes".toList)

/-- `GetIntValue(Name, Group)`. -/
def getIntValue (iniLines : List Text) (name group : Text) : Option Int :=
  ((getValue culture iniLines name group).map culture.lower).bind (tryParse 32)

/-! ## The meaning of the lines -/

/-- The group in effect behind some lines. -/
def groupAfter : Option Text → List Text → Option Text
  | current, [] => current
  | current, line :: rest =>
    match readLine culture line with
    | .header g => groupAfter (some g) rest
    | _ => groupAfter current rest

/-- The keys of some lines, with their groups and values.  A key in front of
all groups belongs to none. -/
def entries : Option Text → List Text → List ((Text × Text) × Text)
  | _, [] => []
  | current, line :: rest =>
    match readLine culture line with
    | .header g => entries (some g) rest
    | .key name value =>
      current.toList.map (fun g => ((g, name), value)) ++ entries current rest
    | _ => entries current rest

/-- The pair that a group and a name stand for. -/
def keyOf (group name : Text) : Text × Text :=
  (culture.lower (trimWhite group), culture.lower (trimWhite name))

/-- `GetValue` looks its pair up. -/
theorem getValueFrom_eq_lookup (name group : Text) (current : Option Text) (lines : List Text) :
    getValueFrom culture name group current lines =
      (entries culture current lines).lookup (keyOf culture group name) := by
  induction lines generalizing current with
  | nil => rfl
  | cons line rest ih =>
    rw [getValueFrom, entries]
    cases readLine culture line with
    | comment => exact ih current
    | header g => exact ih (some g)
    | plain => exact ih current
    | key currentName currentValue =>
      dsimp only
      rw [ih current]
      cases current with
      | none => rfl
      | some g =>
        show _ = (((g, currentName), currentValue) :: entries culture (some g) rest).lookup _
        rw [Lookup.lookup_cons, keyOf]
        by_cases hg : g = culture.lower (trimWhite group)
        · by_cases hname : currentName = culture.lower (trimWhite name)
          · simp [hg, hname]
          · simp [hg, hname, Ne.symm hname]
        · simp [hg, Ne.symm hg]

theorem getValue_eq_lookup (lines : List Text) (name group : Text) :
    getValue culture lines name group =
      (entries culture none lines).lookup (keyOf culture group name) :=
  getValueFrom_eq_lookup culture name group none lines

variable {culture}

theorem groupAfter_append (current : Option Text) (front back : List Text) :
    groupAfter culture current (front ++ back) =
      groupAfter culture (groupAfter culture current front) back := by
  induction front generalizing current with
  | nil => rfl
  | cons line rest ih =>
    rw [List.cons_append, groupAfter, groupAfter]
    cases readLine culture line <;> exact ih _

theorem entries_append (current : Option Text) (front back : List Text) :
    entries culture current (front ++ back) =
      entries culture current front ++ entries culture (groupAfter culture current front) back := by
  induction front generalizing current with
  | nil => rfl
  | cons line rest ih =>
    rw [List.cons_append, entries, groupAfter, entries]
    cases readLine culture line with
    | comment => exact ih current
    | header g => exact ih (some g)
    | plain => exact ih current
    | key name value =>
      dsimp only
      rw [ih current, List.append_assoc]

/-! ## The scan of `SetValue` -/

/-- Line `k` is a key of group `g`. -/
def KeyAt (culture : Culture) (current : Option Text) (lines : List Text) (g name value : Text)
    (k : Nat) : Prop :=
  ∃ line, lines[k]? = some line ∧ readLine culture line = .key name value ∧
    groupAfter culture current (lines.take k) = some g

/-- What the scan finds out about the lines from `i` on. -/
structure Scanned (culture : Culture) (name group : Text) (i : Nat) (groupBegin : Option Nat)
    (groupEnd : Nat) (current : Option Text) (lines : List Text) (s : Scan) : Prop where
  /-- The line that is found is the first with the key. -/
  found : ∀ j, s.found = some j → ∃ k value, j = i + k ∧
    KeyAt culture current lines (keyOf culture group name).1 (keyOf culture group name).2 value k ∧
    (entries culture current (lines.take k)).lookup (keyOf culture group name) = none
  absent : s.found = none →
    (entries culture current lines).lookup (keyOf culture group name) = none
  groupBegin_iff : s.found = none → (s.groupBegin.isSome = true ↔
    groupBegin.isSome = true ∨
      ∃ line ∈ lines, readLine culture line = .header (culture.lower group))
  /-- `GroupEnd` is set to a key of the group, if there is one. -/
  groupEnd_eq : s.found = none →
    s.groupEnd = groupEnd ∧
        (∀ e ∈ entries culture current lines, e.1.1 ≠ (keyOf culture group name).1) ∨
      ∃ k n value, s.groupEnd = i + k ∧
        KeyAt culture current lines (keyOf culture group name).1 n value k

/-- One line in front of those that are scanned. -/
theorem Scanned.cons {name group : Text} {i : Nat} {groupBegin groupBegin' : Option Nat}
    {groupEnd groupEnd' : Nat} {current current' : Option Text} {line : Text}
    {rest : List Text} {s : Scan}
    (h : Scanned culture name group (i + 1) groupBegin' groupEnd' current' rest s)
    (front : List ((Text × Text) × Text))
    (hafter : ∀ lines, groupAfter culture current (line :: lines) =
      groupAfter culture current' lines)
    (hentries : ∀ lines, entries culture current (line :: lines) =
      front ++ entries culture current' lines)
    (hfront : front.lookup (keyOf culture group name) = none)
    (hbegin : groupBegin'.isSome = true ↔
      groupBegin.isSome = true ∨ readLine culture line = .header (culture.lower group))
    (hend : groupEnd' = groupEnd ∧ (∀ e ∈ front, e.1.1 ≠ (keyOf culture group name).1) ∨
      groupEnd' = i ∧ ∃ n value,
        KeyAt culture current (line :: rest) (keyOf culture group name).1 n value 0) :
    Scanned culture name group i groupBegin groupEnd current (line :: rest) s where
  found := by
    intro j hj
    obtain ⟨k, value, hk, ⟨found, hget, hread, hgroup⟩, hfirst⟩ := h.found j hj
    refine ⟨k + 1, value, by omega, ⟨found, by simpa using hget, hread, ?_⟩, ?_⟩
    · rw [List.take_succ_cons, hafter]
      exact hgroup
    · rw [List.take_succ_cons, hentries, List.lookup_append, hfront, hfirst]
      rfl
  absent := by
    intro hnone
    rw [hentries, List.lookup_append, hfront, h.absent hnone]
    rfl
  groupBegin_iff := by
    intro hnone
    rw [h.groupBegin_iff hnone, hbegin, List.exists_mem_cons_iff, or_assoc]
  groupEnd_eq := by
    intro hnone
    obtain ⟨hsame, hno⟩ | ⟨k, n, value, hk, found, hget, hread, hgroup⟩ := h.groupEnd_eq hnone
    · obtain ⟨hold, hfrontNo⟩ | ⟨hset, n, value, hkey⟩ := hend
      · refine Or.inl ⟨hsame.trans hold, fun e he => ?_⟩
        rw [hentries, List.mem_append] at he
        exact he.elim (hfrontNo e) (hno e)
      · exact Or.inr ⟨0, n, value, hsame.trans hset, hkey⟩
    · refine Or.inr ⟨k + 1, n, value, by omega, found, by simpa using hget, hread, ?_⟩
      rw [List.take_succ_cons, hafter]
      exact hgroup

theorem scan_spec (culture : Culture) (name group : Text) (i : Nat) (groupBegin : Option Nat)
    (groupEnd : Nat) (current : Option Text) (lines : List Text) :
    Scanned culture name group i groupBegin groupEnd current lines
      (scan culture name group i groupBegin groupEnd current lines) := by
  induction lines generalizing i groupBegin groupEnd current with
  | nil =>
    refine ⟨fun j hj => ?_, fun _ => rfl, fun _ => by simp [scan], fun _ => Or.inl ⟨rfl, ?_⟩⟩
    · cases hj
    · exact fun e he => absurd he List.not_mem_nil
  | cons line rest ih =>
    rw [scan]
    cases hline : readLine culture line with
    | comment =>
      exact (ih (i + 1) groupBegin groupEnd current).cons []
        (fun lines => by rw [groupAfter, hline]) (fun lines => by rw [entries, hline]; rfl) rfl
        (by simp [hline]) (Or.inl ⟨rfl, fun e he => absurd he List.not_mem_nil⟩)
    | plain =>
      exact (ih (i + 1) groupBegin groupEnd current).cons []
        (fun lines => by rw [groupAfter, hline]) (fun lines => by rw [entries, hline]; rfl) rfl
        (by simp [hline]) (Or.inl ⟨rfl, fun e he => absurd he List.not_mem_nil⟩)
    | header g =>
      refine (ih (i + 1) _ groupEnd (some g)).cons []
        (fun lines => by rw [groupAfter, hline]) (fun lines => by rw [entries, hline]; rfl) rfl
        ?_ (Or.inl ⟨rfl, fun e he => absurd he List.not_mem_nil⟩)
      by_cases hg : g = culture.lower group
      · simp [hg, hline]
      · simp [hg, hline]
    | key currentName currentValue =>
      have hafter : ∀ lines, groupAfter culture current (line :: lines) =
          groupAfter culture current lines := fun lines => by rw [groupAfter, hline]
      have hentries : ∀ lines, entries culture current (line :: lines) =
          current.toList.map (fun g => ((g, currentName), currentValue)) ++
            entries culture current lines := fun lines => by rw [entries, hline]
      dsimp only
      by_cases hgroup : current = some (culture.lower (trimWhite group))
      · have hfront : ∀ e ∈ current.toList.map (fun g => ((g, currentName), currentValue)),
            e = ((culture.lower (trimWhite group), currentName), currentValue) := by
          rw [hgroup]
          intro e he
          exact List.mem_singleton.1 he
        have hkey : KeyAt culture current (line :: rest) (keyOf culture group name).1 currentName
            currentValue 0 := ⟨line, rfl, hline, hgroup⟩
        rw [if_neg (not_not.2 hgroup)]
        by_cases hname : currentName = culture.lower (trimWhite name)
        · -- the key is here
          rw [if_neg (not_not.2 hname)]
          refine ⟨fun j hj => ?_, fun h => ?_, fun h => ?_, fun h => ?_⟩
          · cases hj
            refine ⟨0, currentValue, rfl, ?_, rfl⟩
            rw [show (keyOf culture group name).2 = currentName from hname.symm]
            exact hkey
          · cases h
          · cases h
          · cases h
        · rw [if_pos hname]
          refine (ih (i + 1) groupBegin i current).cons _ hafter hentries ?_ (by simp [hline])
            (Or.inr ⟨rfl, currentName, currentValue, hkey⟩)
          rw [List.lookup_eq_none_iff]
          intro e he
          rw [hfront e he]
          simp [keyOf, Ne.symm hname]
      · have hfront : ∀ e ∈ current.toList.map (fun g => ((g, currentName), currentValue)),
            e.1.1 ≠ (keyOf culture group name).1 := by
          intro e he
          obtain ⟨g, hg, rfl⟩ := List.mem_map.1 he
          rintro rfl
          exact hgroup (Option.mem_toList.1 hg)
        rw [if_pos hgroup]
        refine (ih (i + 1) groupBegin groupEnd current).cons _ hafter hentries ?_ (by simp [hline])
          (Or.inl ⟨rfl, hfront⟩)
        rw [List.lookup_eq_none_iff]
        intro e he
        have hne := hfront e he
        rw [bne_iff_ne]
        intro heq
        exact hne (congrArg Prod.fst heq).symm

/-! ## The lines of `SetValue` -/

/-- The line that is written for a key is read as that key. -/
structure KeyRead (culture : Culture) (name : Text) (value : Option Text) : Prop where
  no_equals : '=' ∉ name
  not_comment : isComment culture (keyLine name value) = false
  not_header : isHeader culture (keyLine name value) = false

/-- The line that is written for a group is read as its header. -/
structure HeaderRead (culture : Culture) (group : Text) : Prop where
  not_comment : isComment culture (headerLine group) = false
  header : isHeader culture (headerLine group) = true

theorem readLine_keyLine {name : Text} {value : Option Text} (h : KeyRead culture name value) :
    readLine culture (keyLine name value) =
      .key (culture.lower (trimWhite name)) (trimWhite (value.getD [])) := by
  have hmem : '=' ∈ keyLine name value := by simp [keyLine]
  rw [readLine, h.not_comment, h.not_header]
  simp only [Bool.false_eq_true, if_false, hmem, not_true]
  rw [keyLine, before_append_cons h.no_equals, after_append_cons h.no_equals]
  rfl

theorem readLine_nil : readLine culture [] = .plain := by
  have hstart := culture.startsWith_nil
  have hcomment : isComment culture [] = false := by
    rw [isComment, hstart _ (by decide), hstart _ (by decide), hstart _ (by decide)]
    rfl
  have hheader : isHeader culture [] = false := by
    rw [isHeader, hstart _ (by decide)]
    rfl
  rw [readLine, hcomment, hheader]
  rfl

theorem readLine_headerLine {group : Text} (h : HeaderRead culture group) :
    readLine culture (headerLine group) = .header (culture.lower (trimWhite group)) := by
  rw [readLine, h.not_comment, h.header]
  simp [headerLine]

/-- The line for a group that is not read as its header is no header at all. -/
theorem readLine_headerLine_ne {group : Text} (h : ¬ HeaderRead culture group) (g : Text) :
    readLine culture (headerLine group) ≠ .header g := by
  intro hread
  unfold readLine at hread
  split_ifs at hread with hcomment hheader
  exact h ⟨Bool.eq_false_iff.2 hcomment, hheader⟩

/-- A group in effect has a header. -/
theorem header_of_groupAfter {current : Option Text} {lines : List Text} {g : Text}
    (h : groupAfter culture current lines = some g) :
    current = some g ∨ ∃ line ∈ lines, readLine culture line = .header g := by
  induction lines generalizing current with
  | nil => exact Or.inl h
  | cons line rest ih =>
    rw [groupAfter] at h
    rw [List.exists_mem_cons_iff, ← or_assoc]
    cases hline : readLine culture line with
    | header g' =>
      rw [hline] at h
      obtain heq | hrest := ih h
      · exact Or.inl (Or.inr (congrArg Line.header (Option.some.inj heq)))
      · exact Or.inr hrest
    | comment | plain | key =>
      rw [hline] at h
      exact (ih h).imp Or.inl id

theorem header_of_mem_entries {current : Option Text} {lines : List Text}
    {e : (Text × Text) × Text} (h : e ∈ entries culture current lines) :
    current = some e.1.1 ∨ ∃ line ∈ lines, readLine culture line = .header e.1.1 := by
  induction lines generalizing current with
  | nil => cases h
  | cons line rest ih =>
    rw [entries] at h
    rw [List.exists_mem_cons_iff, ← or_assoc]
    cases hline : readLine culture line with
    | header g =>
      rw [hline] at h
      obtain heq | hrest := ih h
      · exact Or.inl (Or.inr (congrArg Line.header (Option.some.inj heq)))
      · exact Or.inr hrest
    | comment | plain =>
      rw [hline] at h
      exact (ih h).imp Or.inl id
    | key name value =>
      rw [hline] at h
      obtain hnew | hrest := List.mem_append.1 h
      · obtain ⟨g, hg, rfl⟩ := List.mem_map.1 hnew
        exact Or.inl (Or.inl (Option.mem_toList.1 hg))
      · exact (ih hrest).imp Or.inl id

/-- The lines around line `k`, which is a key of group `g`. -/
theorem KeyAt.split {current : Option Text} {lines : List Text} {g name value : Text} {k : Nat}
    (h : KeyAt culture current lines g name value k) :
    ∃ line, lines = lines.take k ++ line :: lines.drop (k + 1) ∧ (lines.take k).length = k ∧
      readLine culture line = .key name value ∧
      groupAfter culture current (lines.take (k + 1)) = some g := by
  obtain ⟨line, hget, hread, hgroup⟩ := h
  obtain ⟨hlt, rfl⟩ := List.getElem?_eq_some_iff.1 hget
  refine ⟨_, ?_, by rw [List.length_take]; omega, hread, ?_⟩
  · rw [← List.drop_eq_getElem_cons hlt, List.take_append_drop]
  · rw [List.take_succ_eq_append_getElem hlt, groupAfter_append, hgroup, groupAfter, hread]
    rfl

/-- The four things that `SetValue` does to the lines. -/
inductive SetCase (culture : Culture) (lines : List Text) (group name : Text)
    (value : Option Text) : List Text → Prop
  /-- It replaces the first line with the key. -/
  | replaced (front back : List Text) (line w : Text) (hlines : lines = front ++ line :: back)
      (hline : readLine culture line = .key (keyOf culture group name).2 w)
      (hgroup : groupAfter culture none front = some (keyOf culture group name).1)
      (hfirst : (entries culture none front).lookup (keyOf culture group name) = none) :
      SetCase culture lines group name value (front ++ keyLine name value :: back)
  /-- It puts a line in where the group is in effect. -/
  | inserted (front back : List Text) (hlines : lines = front ++ back)
      (hgroup : groupAfter culture none front = some (keyOf culture group name).1)
      (habsent : (entries culture none lines).lookup (keyOf culture group name) = none)
      (hplace : (∃ e ∈ entries culture none lines, e.1.1 = (keyOf culture group name).1) ∨
        back = []) :
      SetCase culture lines group name value (front ++ keyLine name value :: back)
  /-- It puts a line at the end, where another group is in effect. -/
  | misplaced (hgroup : groupAfter culture none lines ≠ some (keyOf culture group name).1)
      (hheader : ∃ line ∈ lines, readLine culture line = .header (culture.lower group))
      (hno : ∀ e ∈ entries culture none lines, e.1.1 ≠ (keyOf culture group name).1) :
      SetCase culture lines group name value (lines ++ [keyLine name value])
  /-- It puts a new group at the end. -/
  | created (hheader : ¬ ∃ line ∈ lines, readLine culture line = .header (culture.lower group))
      (habsent : (entries culture none lines).lookup (keyOf culture group name) = none) :
      SetCase culture lines group name value
        (spaced lines ++ [headerLine group, keyLine name value])

theorem setValue_cases (culture : Culture) (lines : List Text) (group name : Text)
    (value : Option Text) :
    SetCase culture lines group name value (setValue culture lines group name value) := by
  have hscan := scan_spec culture name group 0 none lines.length none lines
  unfold setValue
  generalize scan culture name group 0 none lines.length none lines = s at hscan ⊢
  dsimp only
  cases hfound : s.found with
  | some j =>
    obtain ⟨k, w, hk, hkey, hfirst⟩ := hscan.found j hfound
    obtain ⟨line, hlines, hlen, hread, -⟩ := hkey.split
    obtain ⟨-, -, -, hgroup⟩ := hkey
    have hset : lines.set j (keyLine name value) =
        lines.take k ++ keyLine name value :: lines.drop (k + 1) := by
      conv_lhs => rw [hlines]
      rw [hk, Nat.zero_add, List.set_append_right _ _ (by omega), hlen, Nat.sub_self]
      rfl
    dsimp only
    rw [hset]
    exact .replaced _ _ line w hlines hread hgroup hfirst
  | none =>
    have habsent := hscan.absent hfound
    have hbegin := hscan.groupBegin_iff hfound
    dsimp only
    by_cases hheader : ∃ line ∈ lines, readLine culture line = .header (culture.lower group)
    · rw [if_pos (hbegin.2 (Or.inr hheader))]
      obtain ⟨hend, hno⟩ | ⟨k, n, w, hend, hkey⟩ := hscan.groupEnd_eq hfound
      · rw [if_neg (by omega)]
        by_cases hlast : groupAfter culture none lines = some (keyOf culture group name).1
        · exact .inserted lines [] (List.append_nil lines).symm hlast habsent (Or.inr rfl)
        · exact .misplaced hlast hheader hno
      · obtain ⟨line, hlines, hlen, hread, hgroup⟩ := hkey.split
        have hsome : ∃ e ∈ entries culture none lines, e.1.1 = (keyOf culture group name).1 := by
          obtain ⟨-, -, -, hfront⟩ := hkey
          refine ⟨((_, n), w), ?_, rfl⟩
          rw [hlines, entries_append, hfront, entries, hread]
          exact List.mem_append_right _ (List.mem_cons_self ..)
        have hinsert : (if s.groupEnd + 1 < lines.length then
            lines.insertIdx (s.groupEnd + 1) (keyLine name value)
            else lines ++ [keyLine name value]) =
            lines.take (k + 1) ++ keyLine name value :: lines.drop (k + 1) := by
          rw [hend, Nat.zero_add]
          split
          · exact Arrange.insertIdx_eq_append (by omega) _
          · rw [List.take_of_length_le (by omega), List.drop_of_length_le (by omega)]
        rw [hinsert]
        exact .inserted _ _ (List.take_append_drop ..).symm hgroup habsent (Or.inl hsome)
    · have hnone : ¬ s.groupBegin.isSome = true := by
        rw [hbegin]
        rintro (hbad | hbad)
        · cases hbad
        · exact hheader hbad
      rw [if_neg hnone]
      exact .created hheader habsent

/-! ## A point update -/

/-- The keys of a line that is put in. -/
theorem entries_keyLine {name : Text} {value : Option Text} (hname : KeyRead culture name value)
    (current : Option Text) (back : List Text) :
    entries culture current (keyLine name value :: back) =
      current.toList.map
          (fun g => ((g, culture.lower (trimWhite name)), trimWhite (value.getD []))) ++
        entries culture current back := by
  rw [entries, readLine_keyLine hname]

/-- An empty line in front of a new group has no keys. -/
theorem entries_spaced (current : Option Text) (lines : List Text) :
    entries culture current (spaced lines) = entries culture current lines := by
  unfold spaced
  split
  · rw [entries_append, entries, readLine_nil]
    exact List.append_nil _
  · rfl

theorem groupAfter_spaced (current : Option Text) (lines : List Text) :
    groupAfter culture current (spaced lines) = groupAfter culture current lines := by
  unfold spaced
  split
  · rw [groupAfter_append, groupAfter, readLine_nil]
    rfl
  · rfl

/-- `SetValue` has set the key and no other. -/
def PointUpdate (culture : Culture) (lines lines' : List Text) (group name : Text)
    (value : Option Text) : Prop :=
  ∀ group' name', getValue culture lines' name' group' =
    if keyOf culture group' name' = keyOf culture group name then some (trimWhite (value.getD []))
    else getValue culture lines name' group'

/-- The comment lines. -/
def comments (culture : Culture) (lines : List Text) : List Text :=
  lines.filter (isComment culture)

theorem comments_append (front back : List Text) :
    comments culture (front ++ back) = comments culture front ++ comments culture back :=
  List.filter_append ..

/-- A line that is read otherwise is no comment. -/
theorem isComment_eq_false {line : Text} (h : readLine culture line ≠ .comment) :
    isComment culture line = false := by
  rw [Bool.eq_false_iff]
  intro hcomment
  rw [readLine, if_pos hcomment] at h
  exact h rfl

theorem comments_cons {line : Text} (h : isComment culture line = false) (back : List Text) :
    comments culture (line :: back) = comments culture back :=
  List.filter_cons_of_neg (by simp [h])

theorem comments_spaced (lines : List Text) :
    comments culture (spaced lines) = comments culture lines := by
  unfold spaced
  split
  · rw [comments_append, comments_cons (isComment_eq_false (by simp [readLine_nil]))]
    exact List.append_nil _
  · rfl

/-- The files in which `SetValue` finds the right place: they do not have the
group and can get a header of it, or have a key in it, or end in it. -/
def HasPlace (culture : Culture) (lines : List Text) (group : Text) : Prop :=
  ((¬ ∃ line ∈ lines, readLine culture line = .header (culture.lower group)) ∧
      HeaderRead culture group) ∨
    (∃ e ∈ entries culture none lines, e.1.1 = culture.lower (trimWhite group)) ∨
    groupAfter culture none lines = some (culture.lower (trimWhite group))

/-- A line with a key that was not there, where its group is in effect. -/
theorem pointUpdate_inserted {lines front back : List Text} {group name : Text}
    {value : Option Text} (hname : KeyRead culture name value) (hlines : lines = front ++ back)
    (hgroup : groupAfter culture none front = some (keyOf culture group name).1)
    (habsent : (entries culture none lines).lookup (keyOf culture group name) = none) :
    PointUpdate culture lines (front ++ keyLine name value :: back) group name value := by
  intro group' name'
  rw [getValue_eq_lookup, getValue_eq_lookup, hlines, entries_append, entries_append,
    entries_keyLine hname, hgroup]
  rw [hlines, entries_append, List.lookup_append, Option.or_eq_none_iff] at habsent
  exact Lookup.lookup_insert habsent.1 _ _

theorem pointUpdate_replaced {front back : List Text} {line w group name : Text}
    {value : Option Text} (hname : KeyRead culture name value)
    (hline : readLine culture line = .key (keyOf culture group name).2 w)
    (hgroup : groupAfter culture none front = some (keyOf culture group name).1)
    (hfirst : (entries culture none front).lookup (keyOf culture group name) = none) :
    PointUpdate culture (front ++ line :: back) (front ++ keyLine name value :: back) group name
      value := by
  intro group' name'
  rw [getValue_eq_lookup, getValue_eq_lookup, entries_append, entries_append,
    entries_keyLine hname, hgroup, entries, hline]
  exact Lookup.lookup_replace hfirst _ w _

theorem pointUpdate_created {lines : List Text} {group name : Text} {value : Option Text}
    (hname : KeyRead culture name value) (hheader : HeaderRead culture group)
    (habsent : (entries culture none lines).lookup (keyOf culture group name) = none) :
    PointUpdate culture lines (spaced lines ++ [headerLine group, keyLine name value]) group name
      value := by
  intro group' name'
  rw [getValue_eq_lookup, getValue_eq_lookup, entries_append, entries_spaced, entries,
    readLine_headerLine hheader]
  dsimp only
  rw [entries_keyLine hname]
  exact Lookup.lookup_concat habsent _ _

/-- Lines without a key of the group in effect behind them set no key of another group. -/
theorem not_pointUpdate {lines lines' : List Text} {group name : Text} {value : Option Text}
    (hno : ∀ e ∈ entries culture none lines', e.1.1 ≠ (keyOf culture group name).1) :
    ¬ PointUpdate culture lines lines' group name value := by
  intro h
  have hset := h group name
  have hnone : (entries culture none lines').lookup (keyOf culture group name) = none := by
    rw [List.lookup_eq_none_iff]
    intro e he
    rw [bne_iff_ne]
    exact fun heq => hno e he (congrArg Prod.fst heq).symm
  rw [if_pos rfl, getValue_eq_lookup, hnone] at hset
  cases hset

/-- Lines that are no headers give keys of the group in effect only. -/
theorem group_of_mem_entries {current : Option Text} {lines : List Text}
    (hheader : ∀ line ∈ lines, ∀ g, readLine culture line ≠ .header g)
    {e : (Text × Text) × Text} (h : e ∈ entries culture current lines) :
    current = some e.1.1 := by
  obtain heq | ⟨line, hline, hread⟩ := header_of_mem_entries h
  · exact heq
  · exact absurd hread (hheader line hline _)

/-- At the end of another group the key is not found. -/
theorem not_pointUpdate_misplaced {lines : List Text} {group name : Text}
    {value : Option Text} (hname : KeyRead culture name value)
    (hgroup : groupAfter culture none lines ≠ some (keyOf culture group name).1)
    (hno : ∀ e ∈ entries culture none lines, e.1.1 ≠ (keyOf culture group name).1) :
    ¬ PointUpdate culture lines (lines ++ [keyLine name value]) group name value := by
  refine not_pointUpdate fun e he heq => ?_
  rw [entries_append, List.mem_append] at he
  obtain hold | hnew := he
  · exact hno e hold heq
  · refine hgroup ((group_of_mem_entries (fun line hline g => ?_) hnew).trans (congrArg some heq))
    rw [List.mem_singleton.1 hline, readLine_keyLine hname]
    simp

/-- Without a header of it, a trimmed group has no keys and is not in effect. -/
theorem no_group {lines : List Text} {group : Text} (hgroup : Trimmed group)
    (hheader : ¬ ∃ line ∈ lines, readLine culture line = .header (culture.lower group)) :
    groupAfter culture none lines ≠ some (culture.lower (trimWhite group)) ∧
      ∀ e ∈ entries culture none lines, e.1.1 ≠ culture.lower (trimWhite group) := by
  rw [show trimWhite group = group from hgroup]
  constructor
  · intro h
    obtain hbad | hsome := header_of_groupAfter h
    · cases hbad
    · exact hheader hsome
  · intro e he heq
    obtain hbad | hsome := header_of_mem_entries he
    · cases hbad
    · exact hheader (heq ▸ hsome)

/-- Behind a line for the group that is not read as its header the key is not found. -/
theorem not_pointUpdate_created {lines : List Text} {group name : Text} {value : Option Text}
    (hgroup : Trimmed group) (hname : KeyRead culture name value)
    (hread : ¬ HeaderRead culture group)
    (hheader : ¬ ∃ line ∈ lines, readLine culture line = .header (culture.lower group)) :
    ¬ PointUpdate culture lines (spaced lines ++ [headerLine group, keyLine name value]) group
      name value := by
  obtain ⟨hafter, hno⟩ := no_group hgroup hheader
  refine not_pointUpdate fun e he heq => ?_
  rw [entries_append, entries_spaced, groupAfter_spaced, List.mem_append] at he
  obtain hold | hnew := he
  · exact hno e hold heq
  · refine hafter ((group_of_mem_entries (fun line hline g => ?_) hnew).trans (congrArg some heq))
    obtain rfl | rfl : line = headerLine group ∨ line = keyLine name value := by
      simpa using hline
    · exact readLine_headerLine_ne hread g
    · rw [readLine_keyLine hname]
      simp

theorem pointUpdate_iff_hasPlace {group name : Text} {value : Option Text}
    (hgroup : Trimmed group) (hname : KeyRead culture name value) (lines : List Text) :
    PointUpdate culture lines (setValue culture lines group name value) group name value ↔
      HasPlace culture lines group := by
  have hcases := setValue_cases culture lines group name value
  generalize setValue culture lines group name value = lines' at hcases ⊢
  cases hcases with
  | replaced front back line w hlines hline hin hfirst =>
    subst hlines
    refine iff_of_true (pointUpdate_replaced hname hline hin hfirst) ?_
    refine Or.inr (Or.inl ⟨(keyOf culture group name, w), ?_, rfl⟩)
    rw [entries_append, hin, entries, hline]
    exact List.mem_append_right _ (List.mem_cons_self ..)
  | inserted front back hlines hin habsent hplace =>
    refine iff_of_true (pointUpdate_inserted hname hlines hin habsent) ?_
    cases hplace with
    | inl hsome => exact Or.inr (Or.inl hsome)
    | inr hend =>
      rw [hend, List.append_nil] at hlines
      rw [← hlines] at hin
      exact Or.inr (Or.inr hin)
  | misplaced hin hheader hno =>
    refine iff_of_false (not_pointUpdate_misplaced hname hin hno) ?_
    rintro (hnot | ⟨e, he, heq⟩ | hlast)
    · exact hnot.1 hheader
    · exact hno e he heq
    · exact hin hlast
  | created hheader habsent =>
    by_cases hread : HeaderRead culture group
    · exact iff_of_true (pointUpdate_created hname hread habsent) (Or.inl ⟨hheader, hread⟩)
    · refine iff_of_false (not_pointUpdate_created hgroup hname hread hheader) ?_
      obtain ⟨hafter, hno⟩ := no_group hgroup hheader
      rintro (hnot | ⟨e, he, heq⟩ | hlast)
      · exact hread hnot.2
      · exact hno e he heq
      · exact hafter hlast

/-- A key's line that is read as a comment is one more comment. -/
theorem comments_ne {group name : Text} {value : Option Text}
    (hcomment : isComment culture (keyLine name value) = true) (lines : List Text) :
    comments culture (setValue culture lines group name value) ≠ comments culture lines := by
  have hkey : ∀ back, comments culture (keyLine name value :: back) =
      keyLine name value :: comments culture back :=
    fun back => List.filter_cons_of_pos hcomment
  have hcases := setValue_cases culture lines group name value
  generalize setValue culture lines group name value = lines' at hcases ⊢
  intro heq
  have hlength := congrArg List.length heq
  cases hcases with
  | replaced front back line w hlines hline hin hfirst =>
    have hold : isComment culture line = false := isComment_eq_false (by simp [hline])
    rw [hlines, comments_append, comments_append, hkey, comments_cons hold] at hlength
    simp at hlength
  | inserted front back hlines hin habsent _ =>
    rw [hlines, comments_append, comments_append, hkey] at hlength
    simp at hlength
  | misplaced hin hheader hno =>
    rw [comments_append, hkey] at hlength
    simp at hlength
  | created hheader habsent =>
    rw [comments_append, comments_spaced,
      show [headerLine group, keyLine name value] = [headerLine group] ++ [keyLine name value]
        from rfl, comments_append, hkey] at hlength
    simp at hlength

/-- The comments stay, if the lines that are made are read as what they are. -/
theorem comments_setValue {group name : Text} {value : Option Text}
    (hgroup : Trimmed group) (hname : KeyRead culture name value) {lines : List Text}
    (hplace : HasPlace culture lines group) :
    comments culture (setValue culture lines group name value) = comments culture lines := by
  have hkey := comments_cons hname.not_comment
  have hcases := setValue_cases culture lines group name value
  generalize setValue culture lines group name value = lines' at hcases ⊢
  cases hcases with
  | replaced front back line w hlines hline hin hfirst =>
    have hold : isComment culture line = false := isComment_eq_false (by simp [hline])
    rw [hlines, comments_append, comments_append, hkey, comments_cons hold]
  | inserted front back hlines hin habsent _ =>
    rw [hlines, comments_append, comments_append, hkey]
  | misplaced hin hheader hno =>
    rw [comments_append, hkey]
    exact List.append_nil _
  | created hheader habsent =>
    obtain ⟨hafter, hno⟩ := no_group hgroup hheader
    have hread : HeaderRead culture group := by
      obtain hnot | ⟨e, he, heq⟩ | hlast := hplace
      · exact hnot.2
      · exact absurd heq (hno e he)
      · exact absurd hlast hafter
    rw [comments_append, comments_spaced, comments_cons hread.not_comment, hkey]
    exact List.append_nil _

/-- The files in which `SetValue` is a point update.  For every culture, every
file, every trimmed group and every name whose line is not taken for a header,
`SetValue` sets the value of that key in that group and of no other, and keeps
all comments, exactly if the new line is not taken for a comment, and the file
does not have the group and can get a header of it, or has a key in it, or ends
in it. -/
theorem setValue_point_update_iff (culture : Culture) (lines : List Text) (group name : Text)
    (value : Option Text) (hgroup : Trimmed group) (hname : '=' ∉ name)
    (hheader : isHeader culture (keyLine name value) = false) :
    PointUpdate culture lines (setValue culture lines group name value) group name value ∧
      comments culture (setValue culture lines group name value) = comments culture lines ↔
    isComment culture (keyLine name value) = false ∧ HasPlace culture lines group := by
  cases hcomment : isComment culture (keyLine name value) with
  | true => exact iff_of_false (fun h => comments_ne hcomment lines h.2) fun h => by cases h.1
  | false =>
    have hread : KeyRead culture name value := ⟨hname, hcomment, hheader⟩
    rw [pointUpdate_iff_hasPlace hgroup hread]
    exact ⟨fun h => ⟨rfl, h.1⟩, fun h => ⟨h.2, comments_setValue hgroup hread h.2⟩⟩

/-- A file with a group that has no key, in front of another one. -/
def emptyGroup : List Text :=
  ["[Empty]".toList, "; keys of another group".toList, "[Other]".toList, "a=1".toList]

theorem setValue_point_update_other :
    PointUpdate (.ordinal (List.map Char.toLower)) emptyGroup
        (setValue (.ordinal (List.map Char.toLower)) emptyGroup "Other".toList "b".toList
          (some "2".toList)) "Other".toList "b".toList (some "2".toList) ∧
      comments (.ordinal (List.map Char.toLower))
        (setValue (.ordinal (List.map Char.toLower)) emptyGroup
          "Other".toList "b".toList (some "2".toList)) =
      comments (.ordinal (List.map Char.toLower)) emptyGroup :=
  (setValue_point_update_iff (.ordinal (List.map Char.toLower)) emptyGroup "Other".toList
    "b".toList (some "2".toList) (by decide) (by decide) (by decide)).2
    ⟨by decide, Or.inr (Or.inr (by decide +kernel))⟩

/-- A key of the group without keys lands in the other group. -/
theorem setValue_wrong_group :
    setValue (.ordinal (List.map Char.toLower)) emptyGroup "Empty".toList "b".toList
        (some "2".toList) = emptyGroup ++ ["b=2".toList] ∧
      ¬ PointUpdate (.ordinal (List.map Char.toLower)) emptyGroup
        (setValue (.ordinal (List.map Char.toLower)) emptyGroup "Empty".toList "b".toList
          (some "2".toList)) "Empty".toList "b".toList (some "2".toList) := by
  refine ⟨by decide +kernel, fun h => ?_⟩
  have hset := h "Empty".toList "b".toList
  rw [if_pos rfl] at hset
  exact absurd hset (by decide +kernel)

/-! ## Several keys of one group -/

/-- The place stays. -/
theorem hasPlace_setValue {lines : List Text} {group name : Text} {value : Option Text}
    (hgroup : Trimmed group) (hname : KeyRead culture name value)
    (h : HasPlace culture lines group) :
    HasPlace culture (setValue culture lines group name value) group := by
  have hset := (pointUpdate_iff_hasPlace hgroup hname lines).2 h group name
  rw [if_pos rfl, getValue_eq_lookup, List.lookup_eq_some_iff] at hset
  obtain ⟨front, back, hentries, -⟩ := hset
  refine Or.inr (Or.inl ⟨(keyOf culture group name, trimWhite (value.getD [])), ?_, rfl⟩)
  rw [hentries]
  exact List.mem_append_right _ (List.mem_cons_self ..)

theorem hasPlace_setValues {lines : List Text} {group : Text}
    {values : List (Text × Option Text)} (hgroup : Trimmed group)
    (hnames : ∀ entry ∈ values, KeyRead culture entry.1 entry.2)
    (h : HasPlace culture lines group) :
    HasPlace culture (setValues culture lines group values) group := by
  induction values generalizing lines with
  | nil => exact h
  | cons entry values ih =>
    exact ih (fun e he => hnames e (List.mem_cons_of_mem _ he))
      (hasPlace_setValue hgroup (hnames entry (List.mem_cons_self ..)) h)

/-- The names that are set, as keys, with the values that are found for them. -/
def bindings (culture : Culture) (values : List (Text × Option Text)) : List (Text × Text) :=
  values.map fun entry => (culture.lower (trimWhite entry.1), trimWhite (entry.2.getD []))

/-- After several keys of a group have been set, they are found, and the others as
before. -/
theorem getValue_setValues {lines : List Text} {group : Text}
    {values : List (Text × Option Text)} (hgroup : Trimmed group)
    (hnames : ∀ entry ∈ values, KeyRead culture entry.1 entry.2)
    (hdistinct : ((bindings culture values).map Prod.fst).Nodup)
    (h : HasPlace culture lines group) (name : Text) :
    getValue culture (setValues culture lines group values) name group =
      ((bindings culture values).lookup (culture.lower (trimWhite name))).or
        (getValue culture lines name group) := by
  induction values generalizing lines with
  | nil => rfl
  | cons entry values ih =>
    have hname := hnames entry (List.mem_cons_self ..)
    rw [bindings, List.map_cons, List.map_cons, List.nodup_cons] at hdistinct
    have hrest :
        getValue culture (setValues culture lines group (entry :: values)) name group = _ :=
      ih (fun e he => hnames e (List.mem_cons_of_mem _ he)) hdistinct.2
        (hasPlace_setValue hgroup hname h)
    rw [hrest, (pointUpdate_iff_hasPlace hgroup hname lines).2 h group name, bindings,
      bindings, List.map_cons, Lookup.lookup_cons]
    by_cases hkey : culture.lower (trimWhite name) = culture.lower (trimWhite entry.1)
    · have hnone : (values.map fun e =>
            (culture.lower (trimWhite e.1), trimWhite (e.2.getD []))).lookup
          (culture.lower (trimWhite entry.1)) = none := by
        rw [List.lookup_eq_none_iff]
        intro e he
        rw [bne_iff_ne]
        intro heq
        exact hdistinct.1 (List.mem_map.2 ⟨e, he, heq.symm⟩)
      have hsame : keyOf culture group name = keyOf culture group entry.1 :=
        congrArg (Prod.mk (culture.lower (trimWhite group))) hkey
      rw [if_pos hsame, if_pos hkey, hkey, hnone]
      rfl
    · have hne : keyOf culture group name ≠ keyOf culture group entry.1 := fun heq =>
        hkey (congrArg Prod.snd heq)
      rw [if_neg hne, if_neg hkey]

/-- The lines of the new file: old ones, and the lines that are made. -/
theorem mem_setValue {lines : List Text} {group name : Text} {value : Option Text}
    {line : Text} (h : line ∈ setValue culture lines group name value) :
    line ∈ lines ∨ line = keyLine name value ∨ line = headerLine group ∨ line = [] := by
  have hcases := setValue_cases culture lines group name value
  generalize setValue culture lines group name value = lines' at hcases h
  cases hcases with
  | replaced front back line w hlines hline hin hfirst =>
    subst hlines
    simp only [List.mem_append, List.mem_cons] at h ⊢
    tauto
  | inserted front back hlines hin habsent hplace =>
    subst hlines
    simp only [List.mem_append, List.mem_cons] at h ⊢
    tauto
  | misplaced hin hheader hno =>
    simp only [List.mem_append, List.mem_singleton] at h
    tauto
  | created hheader habsent =>
    have hspaced : line ∈ spaced lines → line ∈ lines ∨ line = [] := by
      unfold spaced
      split
      · simp only [List.mem_append, List.mem_singleton]
        exact id
      · exact Or.inl
    simp only [List.mem_append, List.mem_cons, List.not_mem_nil, or_false] at h
    tauto

end DirectPackageInstaller.Ini
