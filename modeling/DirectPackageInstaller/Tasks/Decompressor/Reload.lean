import DirectPackageInstaller.Tasks.Decompressor.Volumes

/-!
# Reloading an archive

`CommonDecompress` selects volumes in three places: on entry, where it looks whether
volumes are missing, and where it reloads the archive and calls itself.  The first two
select by the type of the archive; the last one always takes the RAR volumes.

* `not_carriesRar_of_carries7z`: no file is selected for both types.
* `reloadsSame_iff`: when the three selections agree.
* `reload_takesRar`: a reload of a 7z archive hands on no volume at all.
-/

namespace DirectPackageInstaller.Volumes

open Arrange Text

/-! ## The code -/

/-- The flags of the archive type. -/
structure CompType where
  rar : Bool
  sevenZip : Bool
deriving DecidableEq, Repr

section

variable {E V : Type} (p : Platform) (sort : ArraySort p.comparer E) (filename : E → Option Text)

/-- The selection by type; `none` for a type that is neither. -/
def sortFiles (compType : CompType) (urls : List E) : Option (Option (List E)) :=
  if compType.rar then some (sortRarFiles p sort filename urls)
  else if compType.sevenZip then some (sort7zFiles p sort filename urls)
  else none

/-- The volumes on entry; `none` where that throws. -/
def entryVolumes (stream : E → V) (compType : CompType) (urls : List E) (volumes : List V) :
    Option (List V) :=
  match sortFiles p sort filename compType urls with
  | none => some volumes
  | some files => files.map (List.map stream)

/-- The entries whose number is compared with the number of volumes. -/
def comparedUrls (compType : CompType) (urls : List E) : Option (List E) :=
  match sortFiles p sort filename compType urls with
  | none => none
  | some files => files

/-- The volumes of a reload. -/
def reloadVolumes (stream : E → V) (urls : List E) : Option (List V) :=
  (sortRarFiles p sort filename urls).map (List.map stream)

/-- `URLInfo`. -/
structure Info (E : Type) where
  urls : List E
  failed : Bool

/-- What a call of `CommonDecompress` finds. -/
structure Call (E V : Type) where
  volumes : List V
  password : Option Text
  /-- What `Analyze` returns for the known URL. -/
  analyzed : Option (Info E)
  archiveOpens : Bool
  /-- `Archive.Entries.Any(x => x.IsEncrypted)`; `none` where that throws. -/
  encrypted : Option Bool
  /-- Whether the first volume has the name of a part; `none` where that throws. -/
  firstIsPart : V → Option Bool
  /-- `URLInfos[FirstUrl]` behind that. -/
  known : Option (Info E)
  /-- `Passwords[FirstUrl]`, in front of `GetMissingArchiveInfo` and behind it. -/
  stored : Option Text
  storedAfter : Option (Option Text)
  /-- `GetMissingArchiveInfo`; `none` where that throws. -/
  missing : Option (Info E)

/-- How a call ends. -/
inductive Ended (V : Type) where
  | null
  | threw
  /-- It calls itself. -/
  | reload (volumes : List V) (password : Option Text)
  /-- It goes on to `UnArchive`. -/
  | extract (volumes : List V)

/-- The part behind the missing data: a reload, or the archive as it is. -/
def ending (stream : E → V) (info : Option (Info E)) (mustReload : Bool) (volumes : List V)
    (password : Option Text) : Ended V :=
  if mustReload then
    match info with
    | none => .threw
    | some info =>
      match reloadVolumes p sort filename stream info.urls with
      | none => .threw
      | some volumes => .reload volumes password
  else .extract volumes

/-- `MissingData`, and the part behind. -/
def loading (stream : E → V) (c : Call E V) (info : Option (Info E))
    (missingData mustReload : Bool) (volumes : List V) (password : Option Text) : Ended V :=
  if missingData || (c.encrypted.getD false && password.isNone) then
    match c.missing with
    | none => .threw
    | some info => ending p sort filename stream (some info) true volumes
        (c.storedAfter.getD password)
  else ending p sort filename stream info mustReload volumes password

/-- `CommonDecompress` behind the opening of the archive. -/
def decompress (stream : E → V) (compType : CompType) (c : Call E V) (volumes : List V) :
    Ended V :=
  match volumes.head?.bind c.firstIsPart with
  | none => .threw
  | some multipart =>
    if c.encrypted.isNone && multipart && decide (volumes.length > 1) then .null
    else
      -- a part alone is looked for again
      let known := c.known.filter fun info => !(multipart && info.urls.length == 1)
      let fromStore := c.password.isNone && c.stored.isSome
      let password := if fromStore then c.stored else c.password
      match known with
      | none =>
        loading p sort filename stream c c.analyzed (multipart && volumes.length == 1) fromStore
          volumes password
      | some info =>
        if info.failed then .null
        else
          match comparedUrls p sort filename compType info.urls with
          | none => .threw
          | some urls =>
            loading p sort filename stream c (some info) false
              (fromStore || volumes.length != urls.length) volumes password

/-- One call of `CommonDecompress`, up to `UnArchive` or the next call. -/
def commonDecompress (stream : E → V) (compType : CompType) (c : Call E V) : Ended V :=
  let volumes :=
    match c.analyzed with
    | none => some (some c.volumes)
    | some info =>
      if info.failed then none
      else some (entryVolumes p sort filename stream compType info.urls c.volumes)
  match volumes with
  | none => .null
  | some none => .threw
  | some (some volumes) =>
    if c.archiveOpens then decompress p sort filename stream compType c volumes else .null

end

section

variable {E V : Type} {p : Platform} {sort : ArraySort p.comparer E} {filename : E → Option Text}
  {stream : E → V} {compType : CompType} {c : Call E V}

/-! ## What a reload hands on -/

theorem ending_reload {info : Option (Info E)} {mustReload : Bool} {volumes reloaded : List V}
    {password password' : Option Text}
    (h : ending p sort filename stream info mustReload volumes password =
      .reload reloaded password') :
    ∃ i : Info E, info = some i ∧ reloadVolumes p sort filename stream i.urls = some reloaded := by
  unfold ending at h
  split at h
  · split at h
    · cases h
    · next info =>
      split at h
      · cases h
      · next volumes hvolumes =>
        cases h
        exact ⟨info, rfl, hvolumes⟩
  · cases h

theorem loading_reload {info : Option (Info E)} {missingData mustReload : Bool}
    {volumes reloaded : List V} {password password' : Option Text}
    (h : loading p sort filename stream c info missingData mustReload volumes password =
      .reload reloaded password') :
    ∃ i : Info E, (info = some i ∨ c.missing = some i) ∧
      reloadVolumes p sort filename stream i.urls = some reloaded := by
  unfold loading at h
  split at h
  · split at h
    · cases h
    · next info hmissing =>
      obtain ⟨i, heq, hreload⟩ := ending_reload h
      exact ⟨i, .inr (hmissing.trans heq), hreload⟩
  · obtain ⟨i, heq, hreload⟩ := ending_reload h
    exact ⟨i, .inl heq, hreload⟩

/-- The entries that a call knows of. -/
def Call.Knows (c : Call E V) (info : Info E) : Prop :=
  c.analyzed = some info ∨ c.known = some info ∨ c.missing = some info

/-- Whatever the type, a reload opens the RAR volumes of some list that the call knows. -/
theorem commonDecompress_reload {reloaded : List V} {password : Option Text}
    (h : commonDecompress p sort filename stream compType c = .reload reloaded password) :
    ∃ info : Info E, c.Knows info ∧
      reloadVolumes p sort filename stream info.urls = some reloaded := by
  unfold commonDecompress at h
  dsimp only at h
  split at h
  · cases h
  · cases h
  · split at h
    · unfold decompress at h
      split at h
      · cases h
      · split at h
        · cases h
        · dsimp only at h
          split at h
          · obtain ⟨i, hi, hreload⟩ := loading_reload h
            exact ⟨i, hi.imp_right .inr, hreload⟩
          · next info hknown =>
            split at h
            · cases h
            · split at h
              · cases h
              · obtain ⟨i, hi, hreload⟩ := loading_reload h
                refine ⟨i, .inr (hi.imp_left fun heq => ?_), hreload⟩
                rw [← Option.some.inj heq]
                exact (Option.filter_eq_some_iff.1 hknown).1
    · cases h

/-! ## When the selections agree -/

/-- No name is that of a RAR volume and of a 7z volume. -/
theorem not_carriesRar_of_carries7z (p : Platform) {name : Text}
    (h : carries7z p name = true) : carriesRar p name = false := by
  have hrar7z : p.comparer.equals ".7z".toList ".rar".toList = false ∧
      p.comparer.startsWith ".7z".toList ".r".toList = false := by
    refine ⟨Bool.eq_false_iff.2 fun heq => ?_, Bool.eq_false_iff.2 fun hstarts => ?_⟩
    · exact absurd ((p.comparer.equals_plain _ _ (by decide) (by decide)).1 heq) (by decide)
    · exact absurd ((p.comparer.startsWith_plain _ _ (by decide) (by decide)).1 hstarts)
        (by decide)
  simp only [carries7z, Bool.or_eq_true] at h
  simp only [carriesRar, Bool.or_eq_false_iff, Bool.and_eq_false_iff]
  rcases h with h7z | hint
  · rw [(p.comparer.equals_congr _ _ _ h7z).1, (p.comparer.equals_congr _ _ _ h7z).2]
    exact ⟨hrar7z.1, .inl hrar7z.2⟩
  · rcases getExtension_cases p.windows name with hext | ⟨d, tail, hext⟩
    · rw [hext] at hint
      cases hint
    · rw [hext, substring_dot, Option.any_some, isInt] at hint
      obtain ⟨n, hn⟩ := Option.isSome_iff_exists.1 hint
      have hfree : LettersFree ('.' :: d :: tail) :=
        lettersFree_append.2 ⟨(by decide : LettersFree ['.']), lettersFree_of_tryParse hn⟩
      rw [hext]
      exact ⟨(p.comparer.letters _ ".rar".toList hfree ⟨'r', by decide, rfl⟩).1,
        .inl (p.comparer.letters _ ".r".toList hfree ⟨'r', by decide, rfl⟩).2⟩

/-- The three selections open the same volumes; each entry stands for its stream. -/
def ReloadsSame (p : Platform) (sort : ArraySort p.comparer E) (filename : E → Option Text)
    (compType : CompType) (urls : List E) : Prop :=
  ∃ files : List E,
    (∀ volumes, entryVolumes p sort filename id compType urls volumes = some files) ∧
    comparedUrls p sort filename compType urls = some files ∧
      reloadVolumes p sort filename id urls = some files

theorem mem_of_sortRarFiles {entries files : List E}
    (h : sortRarFiles p sort filename entries = some files) (e : E) :
    e ∈ files ↔ e ∈ entries ∧ accepts (carriesRar p) (filename e) = true := by
  rw [sortRarFiles_eq] at h
  rw [← Option.some.inj h, List.mem_filter, (passed_perm _ _ _).mem_iff,
    (sortedLists_perm sort filename entries).mem_iff]

theorem mem_of_sort7zFiles {entries files : List E} (hext : HasExtensions p filename entries)
    (h : sort7zFiles p sort filename entries = some files) (e : E) :
    e ∈ files ↔ e ∈ entries ∧ accepts (carries7z p) (filename e) = true := by
  rw [sort7zFiles_eq hext] at h
  rw [← Option.some.inj h, List.mem_filter, (sortedLists_perm sort filename entries).mem_iff]

theorem reloadVolumes_id (urls : List E) :
    reloadVolumes p sort filename id urls = sortRarFiles p sort filename urls := by
  simp [reloadVolumes]

theorem sortRarFiles_isSome (p : Platform) (sort : ArraySort p.comparer E)
    (filename : E → Option Text) (entries : List E) :
    ∃ files, sortRarFiles p sort filename entries = some files :=
  ⟨_, sortRarFiles_eq sort filename entries⟩

theorem mem_of_reloadVolumes {urls : List E} {reloaded : List V}
    (h : reloadVolumes p sort filename stream urls = some reloaded) (v : V) :
    v ∈ reloaded ↔
      ∃ e ∈ urls, accepts (carriesRar p) (filename e) = true ∧ stream e = v := by
  obtain ⟨files, hfiles, rfl⟩ := Option.map_eq_some_iff.1 h
  simp only [List.mem_map, mem_of_sortRarFiles hfiles, and_assoc]

/-- A reload hands on the RAR volumes of a list that the call knows, and nothing where
the names are those of 7z volumes. -/
theorem reload_takesRar (p : Platform) (sort : ArraySort p.comparer E)
    (filename : E → Option Text) (stream : E → V) (compType : CompType) (c : Call E V)
    (reloaded : List V) (password : Option Text)
    (h : commonDecompress p sort filename stream compType c = .reload reloaded password) :
    ∃ info : Info E, c.Knows info ∧
      (∀ v, v ∈ reloaded ↔
        ∃ e ∈ info.urls, accepts (carriesRar p) (filename e) = true ∧ stream e = v) ∧
      ((∀ e ∈ info.urls, ∃ name, filename e = some name ∧ carries7z p name = true) →
        reloaded = []) := by
  obtain ⟨info, hknows, hreload⟩ := commonDecompress_reload h
  have hmem := mem_of_reloadVolumes hreload
  refine ⟨info, hknows, hmem, fun hnames => List.eq_nil_iff_forall_not_mem.2 fun v hv => ?_⟩
  obtain ⟨e, he, haccepts, -⟩ := (hmem v).1 hv
  obtain ⟨name, hname, h7z⟩ := hnames e he
  rw [hname, accepts] at haccepts
  exact absurd haccepts (by simp [not_carriesRar_of_carries7z p h7z])

/-- The first part of a 7z archive, of which the known list has both. -/
def firstPart : Call Text Text where
  volumes := ["a.7z.001".toList]
  password := none
  analyzed := some ⟨["a.7z.001".toList], false⟩
  archiveOpens := true
  encrypted := some false
  firstIsPart := fun _ => some true
  known := some ⟨["a.7z.001".toList, "a.7z.002".toList], false⟩
  stored := none
  storedAfter := none
  missing := none

/-- The call is made again without a volume. -/
example : commonDecompress ⟨false, ordinal⟩ (insertionSort ordinal Text) some id
    ⟨false, true⟩ firstPart = .reload [] none := rfl

theorem sort7zFiles_isSome (sort : ArraySort p.comparer E) {entries : List E}
    (hext : HasExtensions p filename entries) :
    ∃ files, sort7zFiles p sort filename entries = some files :=
  ⟨_, sort7zFiles_eq hext⟩

theorem reloadsSame_rar (sort : ArraySort p.comparer E) (urls : List E)
    (h : compType.rar = true) : ReloadsSame p sort filename compType urls := by
  obtain ⟨files, hfiles⟩ := sortRarFiles_isSome p sort filename urls
  have hsort : sortFiles p sort filename compType urls = some (some files) := by
    rw [sortFiles, if_pos h, hfiles]
  refine ⟨files, fun volumes => ?_, ?_, (reloadVolumes_id urls).trans hfiles⟩
  · simp [entryVolumes, hsort]
  · simp [comparedUrls, hsort]

/-- For 7z, the two filters would have to select the same files. -/
theorem reloadsSame_7z (sort : ArraySort p.comparer E) {urls : List E}
    (hrar : compType.rar = false) (h7z : compType.sevenZip = true) :
    ReloadsSame p sort filename compType urls ↔
      sort7zFiles p sort filename urls = sortRarFiles p sort filename urls := by
  obtain ⟨files, hfiles⟩ := sortRarFiles_isSome p sort filename urls
  have hsort : sortFiles p sort filename compType urls =
      some (sort7zFiles p sort filename urls) := by
    rw [sortFiles, if_neg (by simp [hrar]), if_pos h7z]
  constructor
  · rintro ⟨files', -, hcompared, hreload⟩
    rw [← reloadVolumes_id, hreload]
    simpa only [comparedUrls, hsort] using hcompared
  · intro heq
    refine ⟨files, fun volumes => ?_, ?_, (reloadVolumes_id urls).trans hfiles⟩
    · simp [entryVolumes, hsort, heq, hfiles]
    · simp [comparedUrls, hsort, heq, hfiles]

theorem not_reloadsSame_neither (sort : ArraySort p.comparer E) (urls : List E)
    (hrar : compType.rar = false) (h7z : compType.sevenZip = false) :
    ¬ReloadsSame p sort filename compType urls := by
  rintro ⟨files, -, hcompared, -⟩
  simp [comparedUrls, sortFiles, hrar, h7z] at hcompared

/-- The two filters select the same files only where they select none. -/
theorem sort7zFiles_eq_sortRarFiles_iff (sort : ArraySort p.comparer E) {urls : List E}
    (hext : HasExtensions p filename urls) (hnames : ∀ e ∈ urls, ∃ name, filename e = some name) :
    sort7zFiles p sort filename urls = sortRarFiles p sort filename urls ↔
      ∀ e ∈ urls, accepts (carriesRar p) (filename e) = false ∧
        accepts (carries7z p) (filename e) = false := by
  obtain ⟨files, hfiles⟩ := sortRarFiles_isSome p sort filename urls
  obtain ⟨files', hfiles'⟩ := sort7zFiles_isSome sort hext
  have hrarMem := mem_of_sortRarFiles hfiles
  have h7zMem := mem_of_sort7zFiles hext hfiles'
  rw [hfiles, hfiles', Option.some.injEq]
  constructor
  · rintro rfl e he
    obtain ⟨name, hname⟩ := hnames e he
    have hsame : carries7z p name = true ↔ carriesRar p name = true := by
      have := (h7zMem e).symm.trans (hrarMem e)
      simpa [he, hname, accepts] using this
    rw [hname]
    cases hcarries : carries7z p name with
    | true =>
      have hnot := not_carriesRar_of_carries7z p hcarries
      rw [hsame.1 hcarries] at hnot
      cases hnot
    | false =>
      rw [hcarries] at hsame
      exact ⟨Bool.eq_false_iff.2 fun h => absurd (hsame.2 h) Bool.false_ne_true, hcarries⟩
  · intro h
    have hnil : files = [] := List.eq_nil_iff_forall_not_mem.2 fun e he => by
      obtain ⟨hmem, haccepts⟩ := (hrarMem e).1 he
      exact absurd ((h e hmem).1.symm.trans haccepts) Bool.false_ne_true
    have hnil' : files' = [] := List.eq_nil_iff_forall_not_mem.2 fun e he => by
      obtain ⟨hmem, haccepts⟩ := (h7zMem e).1 he
      exact absurd ((h e hmem).2.symm.trans haccepts) Bool.false_ne_true
    rw [hnil, hnil']

/-- The selections agree for the RAR types, and where there is nothing to select. -/
theorem reloadsSame_iff (p : Platform) (sort : ArraySort p.comparer E)
    (filename : E → Option Text) (compType : CompType) (urls : List E)
    (hnames : ∀ e ∈ urls, ∃ name, filename e = some name ∧ getExtension p.windows name ≠ []) :
    ReloadsSame p sort filename compType urls ↔
      compType.rar = true ∨ compType.sevenZip = true ∧
        ∀ e ∈ urls, accepts (carriesRar p) (filename e) = false ∧
          accepts (carries7z p) (filename e) = false := by
  have hext : HasExtensions p filename urls := by
    intro e he name hname
    obtain ⟨name', hname', hne⟩ := hnames e he
    obtain rfl := Option.some.inj (hname.symm.trans hname')
    exact hne
  cases hrar : compType.rar with
  | true => simp [reloadsSame_rar sort urls hrar]
  | false =>
    cases h7z : compType.sevenZip with
    | false => simp [not_reloadsSame_neither sort urls hrar h7z]
    | true =>
      have hpresent : ∀ e ∈ urls, ∃ name, filename e = some name := by
        intro e he
        obtain ⟨name, hname, -⟩ := hnames e he
        exact ⟨name, hname⟩
      rw [reloadsSame_7z sort hrar h7z, sort7zFiles_eq_sortRarFiles_iff sort hext hpresent]
      simp

theorem reloadsSame_twoParts :
    ReloadsSame ⟨false, ordinal⟩ (insertionSort ordinal Text) some ⟨true, false⟩
      ["a.part1.rar".toList, "a.part2.rar".toList] ∧
    ¬ReloadsSame ⟨false, ordinal⟩ (insertionSort ordinal Text) some ⟨false, true⟩
      ["a.7z.001".toList, "a.7z.002".toList] := by
  constructor
  · refine (reloadsSame_iff ⟨false, ordinal⟩ (insertionSort ordinal Text) some ⟨true, false⟩
      ["a.part1.rar".toList, "a.part2.rar".toList] fun e he => ⟨e, rfl, ?_⟩).2 (.inl rfl)
    revert e
    decide
  · intro hsame
    rcases (reloadsSame_iff ⟨false, ordinal⟩ (insertionSort ordinal Text) some ⟨false, true⟩
      ["a.7z.001".toList, "a.7z.002".toList] fun e he => ⟨e, rfl, by revert e; decide⟩).1
        hsame with h | ⟨-, hnone⟩
    · cases h
    · exact absurd (hnone _ List.mem_cons_self).2 (by decide)

/-- A 7z archive in two parts is reloaded without any volume. -/
theorem sevenZip_reloaded_empty :
    comparedUrls ⟨false, ordinal⟩ (insertionSort ordinal Text) some ⟨false, true⟩
      ["a.7z.001".toList, "a.7z.002".toList] = some ["a.7z.001".toList, "a.7z.002".toList] ∧
      reloadVolumes ⟨false, ordinal⟩ (insertionSort ordinal Text) some id
        ["a.7z.001".toList, "a.7z.002".toList] = some [] ∧
        ¬ReloadsSame ⟨false, ordinal⟩ (insertionSort ordinal Text) some ⟨false, true⟩
          ["a.7z.001".toList, "a.7z.002".toList] := by
  have hcompared : comparedUrls ⟨false, ordinal⟩ (insertionSort ordinal Text) some ⟨false, true⟩
      ["a.7z.001".toList, "a.7z.002".toList] =
        some ["a.7z.001".toList, "a.7z.002".toList] := by decide
  have hreload : reloadVolumes ⟨false, ordinal⟩ (insertionSort ordinal Text) some id
      ["a.7z.001".toList, "a.7z.002".toList] = some [] := by decide
  refine ⟨hcompared, hreload, ?_⟩
  rintro ⟨files, -, hfiles, hfiles'⟩
  obtain rfl := Option.some.inj (hcompared.symm.trans hfiles)
  exact absurd (hreload.symm.trans hfiles') (by decide)

end

end DirectPackageInstaller.Volumes
