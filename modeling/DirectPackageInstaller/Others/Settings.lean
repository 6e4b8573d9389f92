import DirectPackageInstaller.Lib.Lines
import DirectPackageInstaller.Others.Ini

/-!
# The settings file

`SaveSettings` sets twenty keys of the group `Settings` in the file that is
there, and `OnShown` reads them by their names.  `PayloadPort` is optional: it
is not written when it is null.

* `value_saveAll`: after a sequence of saves every key that the last save has
  written is read with the value of that save.
* `port_saveAll`: the port that is read is the last one that is not null.
* `settings_survive_iff`: the last settings are read exactly if their port is not
  null or no earlier save had one.
-/

namespace DirectPackageInstaller

open Text

/-- The fields of `Settings`. -/
structure Settings where
  ethernetAdapter : Option Text
  allDebridApiKey : Option Text
  realDebridApiKey : Option Text
  debridLinkApiKey : Option Text
  psip : Option Text
  pcip : Option Text
  payloadPort : Option Int
  useAllDebrid : Bool
  useRealDebrid : Bool
  useDebridLink : Bool
  searchPS4 : Bool
  proxyDownload : Bool
  segmentedDownload : Bool
  skipUpdateCheck : Bool
  enableDHCP : Bool
  enableCNL : Bool
  showError : Bool
  showTransferProgress : Bool
  autoSplitPKG : Bool
deriving DecidableEq, Repr

namespace Settings

/-- What a call of `SaveSettings` saves: `Config` and
`SegmentedStream.DefaultConcurrency`. -/
structure Saved where
  config : Settings
  concurrency : Int
deriving DecidableEq, Repr

/-! ## The code -/

/-- `ToString()` of a `bool`. -/
def boolText (b : Bool) : Text :=
  if b then "True".toList else "False".toList

/-- The calls of `SetValue` in `SaveSettings`. -/
def savedValues (s : Saved) : List (Text × Option Text) :=
  [ ("PS4IP".toList, s.config.psip),
    ("PCIP".toList, s.config.pcip),
    ("SearchPS4".toList, some (boolText s.config.searchPS4)),
    ("ProxyDownload".toList, some (boolText s.config.proxyDownload)),
    ("SegmentedDownload".toList, some (boolText s.config.segmentedDownload)),
    ("UseAllDebrid".toList, some (boolText s.config.useAllDebrid)),
    ("AllDebridApiKey".toList, s.config.allDebridApiKey),
    ("UseRealDebrid".toList, some (boolText s.config.useRealDebrid)),
    ("RealDebridApiKey".toList, s.config.realDebridApiKey),
    ("UseDebridLink".toList, some (boolText s.config.useDebridLink)),
    ("DebridLinkApiKey".toList, s.config.debridLinkApiKey),
    ("EnableCNL".toList, some (boolText s.config.enableCNL)),
    ("Concurrency".toList, some (intText s.concurrency)),
    ("ShowError".toList, some (boolText s.config.showError)),
    ("ShowTransferProgress".toList, some (boolText s.config.showTransferProgress)),
    ("SkipUpdateCheck".toList, some (boolText s.config.skipUpdateCheck)),
    ("EthernetAdapter".toList, s.config.ethernetAdapter),
    ("EnableDHCP".toList, some (boolText s.config.enableDHCP)),
    ("AutoSplitPKG".toList, some (boolText s.config.autoSplitPKG)) ] ++
  -- the port is set only if there is one
  (s.config.payloadPort.map fun port => ("PayloadPort".toList, some (intText port))).toList

/-- The group of all keys. -/
def settingsGroup : Text := "Settings".toList

variable (culture : Ini.Culture) (newLine : NewLine)

/-- The lines that `new Ini(SettingsPath, "Settings")` starts with. -/
def iniLines (file : Option Text) : List Text :=
  match file with
  | some text => readAllLines text
  | none => []

/-- `App.SaveSettings()`: the new content of the file. -/
def saveSettings (file : Option Text) (s : Saved) : Option Text :=
  some (writeAllLines newLine
    (Ini.setValues culture (iniLines file) settingsGroup (savedValues s)))

/-- What `OnShown` leaves behind. -/
structure Shown where
  config : Settings
  concurrency : Int
  allowReconnect : Bool
deriving DecidableEq, Repr

/-- The settings without a settings file. -/
def defaults (isAndroid : Bool) : Settings where
  ethernetAdapter := none
  allDebridApiKey := none
  realDebridApiKey := none
  debridLinkApiKey := none
  psip := some []
  pcip := some "0.0.0.0".toList
  payloadPort := none
  useAllDebrid := false
  useRealDebrid := false
  useDebridLink := false
  searchPS4 := true
  proxyDownload := true
  segmentedDownload := !isAndroid
  skipUpdateCheck := false
  enableDHCP := false
  enableCNL := true
  showError := false
  showTransferProgress := true
  autoSplitPKG := false

/-- `string.IsNullOrWhiteSpace(value)`. -/
def isNullOrWhiteSpace (value : Option Text) : Bool :=
  decide (White (value.getD []))

/-- `OnShown` for the lines of a settings file. -/
def readSettings (concurrency : Int) (lines : List Text) : Shown :=
  let getValue name := Ini.getValue culture lines name settingsGroup
  let getBooleanValue name := Ini.getBooleanValue culture lines name settingsGroup
  { config := {
      ethernetAdapter := getValue "EthernetAdapter".toList
      enableDHCP := getBooleanValue "EnableDHCP".toList
      psip := getValue "PS4IP".toList
      pcip := getValue "PCIP".toList
      searchPS4 := getBooleanValue "SearchPS4".toList
      proxyDownload := getBooleanValue "ProxyDownload".toList
      segmentedDownload := getBooleanValue "SegmentedDownload".toList
      useAllDebrid := getBooleanValue "UseAllDebrid".toList
      allDebridApiKey := getValue "AllDebridApiKey".toList
      useRealDebrid := getBooleanValue "UseRealDebrid".toList
      useDebridLink := getBooleanValue "UseDebridLink".toList
      realDebridApiKey := getValue "RealDebridApiKey".toList
      debridLinkApiKey := getValue "DebridLinkApiKey".toList
      enableCNL := getBooleanValue "EnableCNL".toList
      showError := getBooleanValue "ShowError".toList
      showTransferProgress := isNullOrWhiteSpace (getValue "ShowTransferProgress".toList) ||
        getBooleanValue "ShowTransferProgress".toList
      skipUpdateCheck := getBooleanValue "SkipUpdateCheck".toList
      autoSplitPKG := getBooleanValue "AutoSplitPKG".toList
      payloadPort := Ini.getIntValue culture lines "PayloadPort".toList settingsGroup }
    concurrency :=
      if isNullOrWhiteSpace (getValue "Concurrency".toList) then concurrency
      else ((getValue "Concurrency".toList).bind (tryParse 32)).getD concurrency
    allowReconnect := getBooleanValue "AllowReconnect".toList }

/-- `OnShown`, with the values of `App.IsAndroid`, `DefaultConcurrency` and
`AllowReconnect` before it. -/
def onShown (isAndroid : Bool) (concurrency : Int) (allowReconnect : Bool)
    (file : Option Text) : Shown :=
  match file with
  | some text => readSettings culture concurrency (readAllLines text)
  | none => { config := defaults isAndroid, concurrency, allowReconnect }

/-- A sequence of saves. -/
def saveAll (file : Option Text) (saves : List Saved) : Option Text :=
  saves.foldl (saveSettings culture newLine) file

/-! ## The keys -/

/-- `ToLowerInvariant` takes the capital letters of ASCII to the small ones and
keeps the rest of ASCII. -/
def LowersAscii (lower : Text → Text) : Prop :=
  ∀ text : Text, text.all (fun c => decide (c.toNat < 128)) = true →
    lower text = text.map Char.toLower

/-- What every culture does with the lines of the settings: a line that starts
with a letter of ASCII starts with no mark, and letters of ASCII in brackets are
a header. -/
structure ReadsAscii (culture : Ini.Culture) : Prop where
  lower : LowersAscii culture.lower
  letter : ∀ (letter : Char) (rest : Text), letter.isAlpha = true → ∀ mark ∈ Ini.marks,
    culture.startsWith (letter :: rest) mark = false
  header : ∀ group : Text, group.all Char.isAlpha = true → Ini.HeaderRead culture group

/-- The culture that compares character by character is one of these. -/
theorem readsAscii_ordinal {lower : Text → Text} (h : LowersAscii lower) :
    ReadsAscii (.ordinal lower) where
  lower := h
  letter := by
    intro letter rest hletter mark hmark
    have hne : ∀ c : Char, c.isAlpha = false → (c == letter) = false := by
      intro c hc
      rw [beq_eq_false_iff_ne]
      intro heq
      rw [← heq, hc] at hletter
      cases hletter
    simp only [Ini.marks, List.mem_cons, List.not_mem_nil, or_false] at hmark
    obtain rfl | rfl | rfl | rfl := hmark
    · simp only [Ini.Culture.ordinal, List.isPrefixOf, hne '/' (by decide), Bool.false_and]
    · simp only [Ini.Culture.ordinal, List.isPrefixOf, hne ';' (by decide), Bool.false_and]
    · simp only [Ini.Culture.ordinal, List.isPrefixOf, hne '!' (by decide), Bool.false_and]
    · simp only [Ini.Culture.ordinal, List.isPrefixOf, hne '[' (by decide), Bool.false_and]
  header := by
    intro group _
    refine ⟨rfl, ?_⟩
    exact List.isSuffixOf_iff_suffix.2 ⟨'[' :: group, rfl⟩

/-- The names of all keys. -/
def names : List Text :=
  [ "PS4IP".toList, "PCIP".toList, "SearchPS4".toList, "ProxyDownload".toList,
    "SegmentedDownload".toList, "UseAllDebrid".toList, "AllDebridApiKey".toList,
    "UseRealDebrid".toList, "RealDebridApiKey".toList, "UseDebridLink".toList,
    "DebridLinkApiKey".toList, "EnableCNL".toList, "Concurrency".toList, "ShowError".toList,
    "ShowTransferProgress".toList, "SkipUpdateCheck".toList, "EthernetAdapter".toList,
    "EnableDHCP".toList, "AutoSplitPKG".toList, "PayloadPort".toList ]

/-- The keys of a save are these, or these without the port. -/
theorem savedValues_names (s : Saved) : (savedValues s).map Prod.fst <+: names := by
  cases hport : s.config.payloadPort with
  | none =>
    simp only [savedValues, hport]
    exact ⟨["PayloadPort".toList], rfl⟩
  | some port =>
    simp only [savedValues, hport]
    exact ⟨[], rfl⟩

/-- The names can be written to a line and read from it. -/
theorem names_spec : ∀ name ∈ names, ('=' ∉ name ∧ ∃ letter rest, name = letter :: rest ∧
      letter.isAlpha = true) ∧ Trimmed name ∧
    name.all (fun c => decide (c.toNat < 128)) = true ∧ '\n' ∉ name ∧ '\r' ∉ name := by
  have hhead : ∀ name ∈ names, (name.head?.map Char.isAlpha) = some true := by decide +kernel
  have hrest : ∀ name ∈ names, '=' ∉ name ∧ Trimmed name ∧
      name.all (fun c => decide (c.toNat < 128)) = true ∧ '\n' ∉ name ∧ '\r' ∉ name := by
    decide +kernel
  intro name hname
  obtain ⟨letter, hletter, halpha⟩ := Option.map_eq_some_iff.1 (hhead name hname)
  obtain ⟨rest, rfl⟩ := List.head?_eq_some_iff.1 hletter
  obtain ⟨hequals, hothers⟩ := hrest _ hname
  exact ⟨⟨hequals, letter, rest, rfl, halpha⟩, hothers⟩

/-- The line of a name is read as its key. -/
theorem names_keyRead {culture : Ini.Culture} (hculture : ReadsAscii culture) (name : Text)
    (h : name ∈ names) (value : Option Text) : Ini.KeyRead culture name value := by
  obtain ⟨⟨hequals, letter, rest, rfl, halpha⟩, -⟩ := names_spec name h
  have hstart := hculture.letter letter (rest ++ '=' :: value.getD []) halpha
  refine ⟨hequals, ?_, ?_⟩
  · rw [Ini.isComment, Ini.keyLine, List.cons_append, hstart _ (by decide), hstart _ (by decide),
      hstart _ (by decide)]
    rfl
  · rw [Ini.isHeader, Ini.keyLine, List.cons_append, hstart _ (by decide)]
    rfl

theorem names_trimmed (name : Text) (h : name ∈ names) : Trimmed name :=
  (names_spec name h).2.1

theorem names_ascii (name : Text) (h : name ∈ names) :
    name.all (fun c => decide (c.toNat < 128)) = true :=
  (names_spec name h).2.2.1

theorem names_oneLine (name : Text) (h : name ∈ names) : '\n' ∉ name ∧ '\r' ∉ name :=
  (names_spec name h).2.2.2

theorem names_nodup : (names.map (List.map Char.toLower)).Nodup := by
  decide +kernel

variable {culture newLine}

/-- A key's name without its capital letters. -/
theorem lower_name (hculture : ReadsAscii culture) {name : Text} (h : name ∈ names) :
    culture.lower (trimWhite name) = name.map Char.toLower := by
  have htrim : trimWhite name = name := names_trimmed name h
  rw [htrim, hculture.lower name (names_ascii name h)]

theorem name_mem {s : Saved} {entry : Text × Option Text} (h : entry ∈ savedValues s) :
    entry.1 ∈ names :=
  (savedValues_names s).subset (List.mem_map_of_mem h)

theorem bindings_keys (hculture : ReadsAscii culture) (s : Saved) :
    (Ini.bindings culture (savedValues s)).map Prod.fst =
      ((savedValues s).map Prod.fst).map (List.map Char.toLower) := by
  rw [Ini.bindings, List.map_map, List.map_map]
  exact List.map_congr_left fun entry h => lower_name hculture (name_mem h)

/-- No two keys of a save are the same. -/
theorem bindings_nodup (hculture : ReadsAscii culture) (s : Saved) :
    ((Ini.bindings culture (savedValues s)).map Prod.fst).Nodup := by
  rw [bindings_keys hculture]
  exact names_nodup.sublist ((savedValues_names s).sublist.map _)

theorem savedValues_keyRead (hculture : ReadsAscii culture) {s : Saved} :
    ∀ entry ∈ savedValues s, Ini.KeyRead culture entry.1 entry.2 :=
  fun entry h => names_keyRead hculture entry.1 (name_mem h) entry.2

theorem settingsGroup_trimmed : Trimmed settingsGroup := by decide

/-! ## The values -/

/-- The text fields. -/
def strings (s : Settings) : List (Option Text) :=
  [s.ethernetAdapter, s.allDebridApiKey, s.realDebridApiKey, s.debridLinkApiKey, s.psip, s.pcip]

/-- The settings that are saved: their texts are trimmed and without line breaks,
and their numbers are of type `int`. -/
structure Savable (s : Saved) : Prop where
  strings : ∀ text, some text ∈ s.config.strings → Trimmed text ∧ OneLine text
  port : ∀ port, s.config.payloadPort = some port → Fits 32 port
  concurrency : Fits 32 s.concurrency

theorem mem_intText {n : Int} {c : Char} (h : c ∈ intText n) : c = '-' ∨ c.isDigit = true := by
  unfold intText at h
  split at h
  · obtain heq | hmem := List.mem_cons.1 h
    · exact Or.inl heq
    · exact Or.inr (isDigit_of_mem_decimal hmem)
  · exact Or.inr (isDigit_of_mem_decimal h)

theorem trimmed_intText (n : Int) : Trimmed (intText n) := by
  apply trimmed_of_not_white
  intro c hc
  obtain rfl | hdigit := mem_intText hc
  · decide
  · exact not_white_of_isDigit hdigit

theorem oneLine_intText (n : Int) : OneLine (intText n) where
  no_lf := by
    intro h
    exact absurd (mem_intText h) (by decide)
  no_cr := by
    intro h
    exact absurd (mem_intText h) (by decide)

theorem toLower_of_isDigit {c : Char} (h : c.isDigit = true) :
    c.toNat < 128 ∧ c.toLower = c := by
  have hrange : 48 ≤ c.toNat ∧ c.toNat ≤ 57 := by
    simp only [Char.isDigit, Bool.and_eq_true, decide_eq_true_eq] at h
    exact ⟨h.1, h.2⟩
  refine ⟨by omega, ?_⟩
  refine dif_neg ?_
  rintro ⟨hcapital, -⟩
  have : 65 ≤ c.toNat := UInt32.le_iff_toNat_le.1 hcapital
  omega

/-- The digits of a number have no letter case. -/
theorem lower_intText (hculture : ReadsAscii culture) (n : Int) :
    culture.lower (intText n) = intText n := by
  have hsmall : ∀ c ∈ intText n, c.toNat < 128 ∧ c.toLower = c := by
    intro c hc
    obtain rfl | hdigit := mem_intText hc
    · decide
    · exact toLower_of_isDigit hdigit
  rw [hculture.lower _ (List.all_eq_true.2 fun c hc => decide_eq_true (hsmall c hc).1)]
  conv_rhs => rw [← List.map_id (intText n)]
  exact List.map_congr_left fun c hc => (hsmall c hc).2

theorem trimmed_boolText (b : Bool) : Trimmed (boolText b) := by
  cases b <;> decide

theorem oneLine_boolText (b : Bool) : OneLine (boolText b) := by
  cases b <;> exact ⟨by decide, by decide⟩

/-- A value is a text field, a `bool` or an `int`. -/
theorem savedValues_cases {s : Saved} :
    ∀ entry ∈ savedValues s, entry.2 ∈ s.config.strings ∨
      (∃ b, entry.2 = some (boolText b)) ∨ ∃ n, entry.2 = some (intText n) := by
  rw [savedValues]
  simp only [List.forall_mem_append, List.forall_mem_cons, strings]
  refine ⟨by simp, fun entry h => ?_⟩
  obtain ⟨port, -, rfl⟩ := Option.map_eq_some_iff.1 (Option.mem_toList.1 h)
  exact Or.inr (Or.inr ⟨port, rfl⟩)

theorem Savable.value {s : Saved} (h : Savable s) {entry : Text × Option Text}
    (hentry : entry ∈ savedValues s) :
    Trimmed (entry.2.getD []) ∧ OneLine (entry.2.getD []) := by
  obtain hstring | ⟨b, hb⟩ | ⟨n, hn⟩ := savedValues_cases entry hentry
  · cases hvalue : entry.2 with
    | none => exact ⟨trimmed_nil, oneLine_nil⟩
    | some text =>
      rw [hvalue] at hstring
      exact h.strings text hstring
  · rw [hb]
    exact ⟨trimmed_boolText b, oneLine_boolText b⟩
  · rw [hn]
    exact ⟨trimmed_intText n, oneLine_intText n⟩

/-! ## A sequence of saves -/

/-- The lines of the file after some saves. -/
def linesAfter (culture : Ini.Culture) (saves : List Saved) : List Text :=
  saves.foldl (fun lines s => Ini.setValues culture lines settingsGroup (savedValues s)) []

@[simp] theorem linesAfter_concat (saves : List Saved) (s : Saved) :
    linesAfter culture (saves ++ [s]) =
      Ini.setValues culture (linesAfter culture saves) settingsGroup (savedValues s) := by
  simp only [linesAfter, List.foldl_append, List.foldl_cons, List.foldl_nil]

/-- Every save finds the group's place. -/
theorem hasPlace_linesAfter (hculture : ReadsAscii culture) (saves : List Saved) :
    Ini.HasPlace culture (linesAfter culture saves) settingsGroup := by
  induction saves using List.reverseRecOn with
  | nil =>
    refine Or.inl ⟨?_, hculture.header settingsGroup (by decide)⟩
    rintro ⟨line, hline, -⟩
    exact absurd hline List.not_mem_nil
  | append_singleton saves s ih =>
    rw [linesAfter_concat]
    exact Ini.hasPlace_setValues settingsGroup_trimmed (savedValues_keyRead hculture) ih

theorem oneLine_setValues {lines : List Text} {values : List (Text × Option Text)}
    (hlines : ∀ line ∈ lines, OneLine line)
    (hvalues : ∀ entry ∈ values, entry.1 ∈ names ∧ OneLine (entry.2.getD [])) :
    ∀ line ∈ Ini.setValues culture lines settingsGroup values, OneLine line := by
  induction values generalizing lines with
  | nil => exact hlines
  | cons entry values ih =>
    refine ih (fun line hline => ?_) fun e he => hvalues e (List.mem_cons_of_mem _ he)
    obtain ⟨hname, hvalue⟩ := hvalues entry (List.mem_cons_self ..)
    obtain hold | rfl | rfl | rfl := Ini.mem_setValue hline
    · exact hlines line hold
    · have hbreaks := names_oneLine entry.1 hname
      have hequals : OneLine ['='] := ⟨by decide, by decide⟩
      exact oneLine_append ⟨hbreaks.1, hbreaks.2⟩
        (oneLine_append hequals hvalue)
    · exact ⟨by decide, by decide⟩
    · exact oneLine_nil

/-- No line of the file has a line break in it. -/
theorem oneLine_linesAfter {saves : List Saved} (h : ∀ s ∈ saves, Savable s) :
    ∀ line ∈ linesAfter culture saves, OneLine line := by
  induction saves using List.reverseRecOn with
  | nil => exact fun line hline => absurd hline List.not_mem_nil
  | append_singleton saves s ih =>
    rw [linesAfter_concat]
    refine oneLine_setValues (ih fun s hs => h s (List.mem_append_left _ hs)) fun entry he => ?_
    exact ⟨name_mem he, ((h s (by simp)).value he).2⟩

/-- The file after some saves has these lines. -/
theorem saveAll_concat {saves : List Saved} (h : ∀ s ∈ saves, Savable s) (s : Saved) :
    saveAll culture newLine none (saves ++ [s]) =
      some (writeAllLines newLine (linesAfter culture (saves ++ [s]))) := by
  have hlines : iniLines (saveAll culture newLine none saves) = linesAfter culture saves := by
    induction saves using List.reverseRecOn with
    | nil => rfl
    | append_singleton saves s ih =>
      rw [saveAll, List.foldl_append]
      change readAllLines (writeAllLines newLine (Ini.setValues culture
        (iniLines (saveAll culture newLine none saves)) settingsGroup (savedValues s))) = _
      rw [ih fun s hs => h s (List.mem_append_left _ hs), ← linesAfter_concat,
        readAllLines_writeAllLines newLine (oneLine_linesAfter h)]
  rw [saveAll, List.foldl_append, linesAfter_concat, ← hlines]
  rfl

/-- The keys of the last save are read with its values. -/
theorem value_saveAll (hculture : ReadsAscii culture) (saves : List Saved) {s : Saved} {name : Text}
    {value : Option Text} (h : (name, value) ∈ savedValues s) :
    Ini.getValue culture (linesAfter culture (saves ++ [s])) name settingsGroup =
      some (trimWhite (value.getD [])) := by
  have hmem : (culture.lower (trimWhite name), trimWhite (value.getD [])) ∈
      Ini.bindings culture (savedValues s) := List.mem_map.2 ⟨(name, value), h, rfl⟩
  rw [linesAfter_concat, Ini.getValue_setValues settingsGroup_trimmed
    (savedValues_keyRead hculture) (bindings_nodup hculture s)
    (hasPlace_linesAfter hculture saves), Lookup.lookup_of_mem (bindings_nodup hculture s) hmem]
  rfl

/-! ## The port -/

/-- The last port that is not null. -/
def lastPort (saves : List Saved) : Option Int :=
  saves.foldl (fun port s => s.config.payloadPort.or port) none

@[simp] theorem lastPort_concat (saves : List Saved) (s : Saved) :
    lastPort (saves ++ [s]) = s.config.payloadPort.or (lastPort saves) := by
  rw [lastPort, List.foldl_append]
  rfl

theorem lastPort_eq_none {saves : List Saved} :
    lastPort saves = none ↔ ∀ s ∈ saves, s.config.payloadPort = none := by
  induction saves using List.reverseRecOn with
  | nil => exact iff_of_true rfl fun s hs => absurd hs List.not_mem_nil
  | append_singleton saves s ih =>
    rw [lastPort_concat, Option.or_eq_none_iff, ih, List.forall_mem_append,
      List.forall_mem_singleton, and_comm]

theorem fits_lastPort {saves : List Saved} (h : ∀ s ∈ saves, Savable s) {port : Int}
    (hport : lastPort saves = some port) : Fits 32 port := by
  induction saves using List.reverseRecOn with
  | nil => cases hport
  | append_singleton saves s ih =>
    rw [lastPort_concat] at hport
    obtain hlast | ⟨-, hbefore⟩ := Option.or_eq_some_iff.1 hport
    · exact (h s (by simp)).port port hlast
    · exact ih (fun s hs => h s (List.mem_append_left _ hs)) hbefore

/-- A save without a port does not set the key. -/
theorem lookup_payloadPort (hculture : ReadsAscii culture) {s : Saved}
    (h : s.config.payloadPort = none) :
    (Ini.bindings culture (savedValues s)).lookup (culture.lower (trimWhite "PayloadPort".toList)) =
      none := by
  have hnames : (savedValues s).map Prod.fst = names.dropLast := by
    simp only [savedValues, h]
    rfl
  rw [lower_name hculture (by decide), List.lookup_eq_none_iff]
  intro entry hentry
  have hkey : entry.1 ∈ (names.dropLast).map (List.map Char.toLower) := by
    rw [← hnames, ← bindings_keys hculture]
    exact List.mem_map_of_mem hentry
  have hother : ∀ key ∈ (names.dropLast).map (List.map Char.toLower),
      ("PayloadPort".toList.map Char.toLower != key) = true := by decide +kernel
  exact hother entry.1 hkey

/-- The port that is in the file is the last one that is not null. -/
theorem port_saveAll (hculture : ReadsAscii culture) (saves : List Saved) :
    Ini.getValue culture (linesAfter culture saves) "PayloadPort".toList settingsGroup =
      (lastPort saves).map intText := by
  induction saves using List.reverseRecOn with
  | nil => rfl
  | append_singleton saves s ih =>
    cases hport : s.config.payloadPort with
    | none =>
      rw [linesAfter_concat, Ini.getValue_setValues settingsGroup_trimmed
        (savedValues_keyRead hculture) (bindings_nodup hculture s)
        (hasPlace_linesAfter hculture saves), lookup_payloadPort hculture hport, ih,
        lastPort_concat, hport]
      rfl
    | some port =>
      have hmem : ("PayloadPort".toList, some (intText port)) ∈ savedValues s := by
        simp [savedValues, hport]
      rw [value_saveAll hculture saves hmem, lastPort_concat, hport]
      exact congrArg some (trimmed_intText port)

/-! ## Loading -/

/-- The settings as they are read back, with a given port: null texts are empty. -/
def restored (s : Settings) (port : Option Int) : Settings where
  ethernetAdapter := some (s.ethernetAdapter.getD [])
  allDebridApiKey := some (s.allDebridApiKey.getD [])
  realDebridApiKey := some (s.realDebridApiKey.getD [])
  debridLinkApiKey := some (s.debridLinkApiKey.getD [])
  psip := some (s.psip.getD [])
  pcip := some (s.pcip.getD [])
  payloadPort := port
  useAllDebrid := s.useAllDebrid
  useRealDebrid := s.useRealDebrid
  useDebridLink := s.useDebridLink
  searchPS4 := s.searchPS4
  proxyDownload := s.proxyDownload
  segmentedDownload := s.segmentedDownload
  skipUpdateCheck := s.skipUpdateCheck
  enableDHCP := s.enableDHCP
  enableCNL := s.enableCNL
  showError := s.showError
  showTransferProgress := s.showTransferProgress
  autoSplitPKG := s.autoSplitPKG

theorem getBooleanValue_boolText (hculture : ReadsAscii culture) {lines : List Text} {name : Text}
    {b : Bool} (h : Ini.getValue culture lines name settingsGroup = some (boolText b)) :
    Ini.getBooleanValue culture lines name settingsGroup = b := by
  have hascii : (boolText b).all (fun c => decide (c.toNat < 128)) = true := by
    cases b <;> decide
  rw [Ini.getBooleanValue, h, Option.map_some, hculture.lower _ hascii]
  cases b <;> decide

theorem getIntValue_intText (hculture : ReadsAscii culture) {lines : List Text} {name : Text}
    {port : Option Int} (hfits : ∀ n, port = some n → Fits 32 n)
    (h : Ini.getValue culture lines name settingsGroup = port.map intText) :
    Ini.getIntValue culture lines name settingsGroup = port := by
  rw [Ini.getIntValue, h]
  cases port with
  | none => rfl
  | some n =>
    rw [Option.map_some, Option.map_some, lower_intText hculture]
    exact tryParse_intText (hfits n rfl)

theorem not_white_boolText (b : Bool) : isNullOrWhiteSpace (some (boolText b)) = false := by
  cases b <;> decide

theorem not_white_intText (n : Int) : isNullOrWhiteSpace (some (intText n)) = false := by
  rw [isNullOrWhiteSpace, decide_eq_false_iff_not, Option.getD_some]
  intro hwhite
  have hnil : intText n = [] := (trimmed_intText n).symm.trans (trimWhite_eq_nil.2 hwhite)
  unfold intText at hnil
  split at hnil
  · cases hnil
  · exact (digits_decimal n.natAbs).ne_nil hnil

/-- Lines in which the keys of a save are found give its settings. -/
theorem readSettings_saved (hculture : ReadsAscii culture) {lines : List Text} {s : Saved}
    {port : Option Int} (hs : Savable s) (hfits : ∀ n, port = some n → Fits 32 n)
    (hvalues : ∀ name value, (name, value) ∈ savedValues s →
      Ini.getValue culture lines name settingsGroup = some (trimWhite (value.getD [])))
    (hport : Ini.getValue culture lines "PayloadPort".toList settingsGroup = port.map intText)
    (concurrency : Int) :
    (readSettings culture concurrency lines).config = s.config.restored port ∧
      (readSettings culture concurrency lines).concurrency = s.concurrency := by
  have hget : ∀ (k : Nat) name value, (savedValues s)[k]? = some (name, value) →
      Ini.getValue culture lines name settingsGroup = some (value.getD []) := by
    intro k name value hk
    have hmem := List.mem_of_getElem? hk
    rw [hvalues name value hmem]
    exact congrArg some (hs.value hmem).1
  have hbool : ∀ (k : Nat) name b, (savedValues s)[k]? = some (name, some (boolText b)) →
      Ini.getBooleanValue culture lines name settingsGroup = b :=
    fun k name b hk => getBooleanValue_boolText hculture (hget k name _ hk)
  have hshow : Ini.getValue culture lines "ShowTransferProgress".toList settingsGroup =
      some (boolText s.config.showTransferProgress) := hget 14 _ _ rfl
  have hconcurrency : Ini.getValue culture lines "Concurrency".toList settingsGroup =
      some (intText s.concurrency) := hget 12 _ _ rfl
  constructor
  · simp only [readSettings, restored]
    rw [hget 0 _ _ rfl, hget 1 _ _ rfl, hget 6 _ _ rfl, hget 8 _ _ rfl, hget 10 _ _ rfl,
      hget 16 _ _ rfl, hshow, not_white_boolText, hbool 2 _ _ rfl, hbool 3 _ _ rfl,
      hbool 4 _ _ rfl, hbool 5 _ _ rfl, hbool 7 _ _ rfl, hbool 9 _ _ rfl, hbool 11 _ _ rfl,
      hbool 13 _ _ rfl, hbool 14 _ _ rfl, hbool 15 _ _ rfl, hbool 17 _ _ rfl,
      hbool 18 _ _ rfl, getIntValue_intText hculture hfits hport]
    rfl
  · simp only [readSettings]
    rw [hconcurrency, not_white_intText, if_neg Bool.false_ne_true, Option.bind_some,
      tryParse_intText hs.concurrency]
    rfl

/-- The last settings are read back. -/
def Survives (culture : Ini.Culture) (newLine : NewLine) (saves : List Saved) (last : Saved) :
    Prop :=
  ∀ isAndroid concurrency allowReconnect,
    let shown := onShown culture isAndroid concurrency allowReconnect
      (saveAll culture newLine none (saves ++ [last]))
    shown.config = last.config.restored last.config.payloadPort ∧
      shown.concurrency = last.concurrency

/-- What is read after some saves: the last settings, with the last port that is
not null. -/
theorem onShown_saveAll (newLine : NewLine) (hculture : ReadsAscii culture)
    {saves : List Saved} {last : Saved}
    (hsaves : ∀ s ∈ saves ++ [last], Savable s) (isAndroid : Bool) (concurrency : Int)
    (allowReconnect : Bool) :
    let shown := onShown culture isAndroid concurrency allowReconnect
      (saveAll culture newLine none (saves ++ [last]))
    shown.config = last.config.restored (lastPort (saves ++ [last])) ∧
      shown.concurrency = last.concurrency := by
  rw [saveAll_concat fun s hs => hsaves s (List.mem_append_left _ hs)]
  dsimp only [onShown]
  rw [readAllLines_writeAllLines newLine (oneLine_linesAfter hsaves)]
  exact readSettings_saved hculture (hsaves last (by simp)) (fun n hn => fits_lastPort hsaves hn)
    (fun name value h => value_saveAll hculture saves h) (port_saveAll hculture _) concurrency

/-- The sequences of saves whose last settings survive.  For every sequence of
saves from an absent file, loading the file gives the last settings in every
field exactly if the last port is not null or no save before had a port. -/
theorem settings_survive_iff (culture : Ini.Culture) (hculture : ReadsAscii culture)
    (newLine : NewLine) (saves : List Saved) (last : Saved)
    (hsaves : ∀ s ∈ saves ++ [last], Savable s) :
    Survives culture newLine saves last ↔
      (last.config.payloadPort = none → ∀ s ∈ saves, s.config.payloadPort = none) := by
  have hport : Survives culture newLine saves last ↔
      lastPort (saves ++ [last]) = last.config.payloadPort := by
    constructor
    · intro h
      have hread := (onShown_saveAll newLine hculture hsaves false 0 false).1
      have hsame := (h false 0 false).1.symm.trans hread
      exact (congrArg Settings.payloadPort hsame).symm
    · intro h isAndroid concurrency allowReconnect
      have hread := onShown_saveAll newLine hculture hsaves isAndroid concurrency
        allowReconnect
      rw [h] at hread
      exact hread
  rw [hport, lastPort_concat, ← lastPort_eq_none]
  cases last.config.payloadPort with
  | none => simp
  | some port => simp

/-- Settings with a console address, and a port or none. -/
def sample (port : Option Int) : Saved where
  config := {
    ethernetAdapter := none
    allDebridApiKey := none
    realDebridApiKey := none
    debridLinkApiKey := none
    psip := some "10.0.0.2".toList
    pcip := some []
    payloadPort := port
    useAllDebrid := false
    useRealDebrid := false
    useDebridLink := false
    searchPS4 := true
    proxyDownload := true
    segmentedDownload := true
    skipUpdateCheck := false
    enableDHCP := false
    enableCNL := true
    showError := false
    showTransferProgress := false
    autoSplitPKG := true }
  concurrency := 4

theorem savable_sample {port : Option Int} (h : ∀ n, port = some n → Fits 32 n) :
    Savable (sample port) where
  strings := by
    intro text htext
    simp only [sample, strings, List.mem_cons, List.not_mem_nil, Option.some.injEq, reduceCtorEq,
      false_or, or_false] at htext
    obtain rfl | rfl := htext
    · exact ⟨by decide, by decide, by decide⟩
    · exact ⟨trimmed_nil, oneLine_nil⟩
  port := h
  concurrency := by
    show Fits 32 4
    decide

/-- The port is set by the second save. -/
theorem settings_survive_newPort :
    Survives (.ordinal (List.map Char.toLower)) .crlf [sample none] (sample (some 9020)) := by
  refine (settings_survive_iff (.ordinal (List.map Char.toLower))
    (readsAscii_ordinal fun _ _ => rfl) .crlf [sample none]
    (sample (some 9020)) ?_).2 fun h => absurd h (by decide)
  intro s hs
  obtain rfl | rfl : s = sample none ∨ s = sample (some 9020) := by simpa using hs
  · exact savable_sample fun n hn => by cases hn
  · refine savable_sample fun n hn => ?_
    cases hn
    decide

/-- The port is taken away by the second save, and read again from the file. -/
theorem settings_stalePort :
    ¬ Survives (.ordinal (List.map Char.toLower)) .crlf [sample (some 9020)] (sample none) := by
  have hsaves : ∀ s ∈ [sample (some 9020)] ++ [sample none], Savable s := by
    intro s hs
    obtain rfl | rfl : s = sample (some 9020) ∨ s = sample none := by simpa using hs
    · refine savable_sample fun n hn => ?_
      cases hn
      decide
    · exact savable_sample fun n hn => by cases hn
  intro h
  have hculture : ReadsAscii (.ordinal (List.map Char.toLower)) :=
    readsAscii_ordinal fun _ _ => rfl
  have hread := (onShown_saveAll .crlf hculture hsaves false 4 false).1
  have hport := congrArg payloadPort ((h false 4 false).1.symm.trans hread)
  exact absurd hport (by decide)

end Settings

end DirectPackageInstaller
