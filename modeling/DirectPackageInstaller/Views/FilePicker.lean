import DirectPackageInstaller.Lib.History
import DirectPackageInstaller.Lib.Transition
import DirectPackageInstaller.Tasks.Decompressor.Volumes

/-!
# The file picker

The picker of the single view shows a directory, opens others by a click or by
what is typed over the path, and goes back and forward on two stacks.  `OpenDir`
tells from the tops of the stacks whether it was called by one of the buttons.

* `History` is what the stacks are for: a visit, a step back, a step forward.
* `refines_iff`: the picker does what the history does exactly if every step back
  or forward finds its directory, while the path box shows the current one.
* `selection_shown`: what may be selected, and what the picker returns.
-/

namespace DirectPackageInstaller.FilePicker

open Text Transition Volumes

/-! ## The code -/

structure FileEntry where
  fullPath : Text
  isPhone : Bool
  isSDCard : Bool
deriving DecidableEq, Repr

/-- The two `EndsWith` tests, character by character.  The code compares by culture,
which could only also take a path whose separator is followed by ignored characters. -/
def endsInSeparator (path : Text) : Bool :=
  path.getLast? = some '\\' || path.getLast? = some '/'

def FileEntry.isDirectory (e : FileEntry) : Bool := endsInSeparator e.fullPath

/-- `Path.GetFileName`. -/
def getFileName (windows : Bool) (path : Text) : Text :=
  (path.reverse.takeWhile fun c => !isDirectorySeparator windows c).reverse

def FileEntry.name (windows : Bool) (e : FileEntry) : Text :=
  if e.isPhone then "Internal Memory".toList
  else if e.isSDCard then "SD Card".toList
  else getFileName windows (e.fullPath.reverse.dropWhile fun c => c == '/' || c == '\\').reverse

def FileEntry.isPKG (p : Platform) (e : FileEntry) : Bool :=
  !e.isDirectory && (p.comparer.endsWith (e.name p.windows) ".pkg".toList ||
    p.comparer.endsWith (e.name p.windows) ".json".toList)

/-- What a call finds at a path: nothing, a directory that cannot be listed, or the
entries that the view shows of it. -/
inductive Directory where
  | missing
  | denied
  | listed (entries : List FileEntry)
deriving DecidableEq, Repr

inductive DialogResult where
  | ok
  | cancel
deriving DecidableEq, Repr

/-- The tops of the stacks come first.  `currentDir` is bound to the text of
`tbFolder` in both directions.  `result` is there when the view has returned. -/
structure Picker where
  lastDir : Option Text
  currentDir : Text
  bckDirs : List Text
  nxtDirs : List Text
  selectedFiles : List Text
  inMultiselect : Bool
  currentDirEntries : List FileEntry
  result : Option DialogResult
deriving DecidableEq, Repr

def Picker.fresh : Picker := ⟨none, [], [], [], [], false, [], none⟩

/-- `Path += DirectorySeparatorChar` where the path has no separator at its end. -/
def withSeparator (windows : Bool) (path : Text) : Text :=
  if endsInSeparator path then path else path ++ [if windows then '\\' else '/']

/-- The stacks when another directory is opened. -/
def Picker.keepLast (s : Picker) : Picker :=
  match s.lastDir with
  | none => s
  | some last =>
    if s.nxtDirs.head? = some last ∨ s.bckDirs.head? = some last then s
    else { s with bckDirs := last :: s.bckDirs, nxtDirs := [] }

/-- `OpenDir`.  Where it changes the text of `tbFolder`, the handler of that change
calls it again with the same directory, which changes nothing more. -/
def openDir (p : Platform) (path : Text) (d : Directory) (s : Picker) : Picker :=
  let path' := withSeparator p.windows path
  let s' := if endsInSeparator path then s else { s with currentDir := path' }
  match d with
  | .missing => s
  | .denied =>
    if s.lastDir = some path' then s'
    else { s' with selectedFiles := [], inMultiselect := false, currentDirEntries := [] }
  | .listed entries =>
    if s.lastDir = some path' then s'
    else { s'.keepLast with
      lastDir := some path', currentDir := path', selectedFiles := [], inMultiselect := false,
      currentDirEntries := entries }

def btnNextOnClick (p : Platform) (d : Directory) (s : Picker) : Picker :=
  match s.nxtDirs with
  | [] => s
  | dir :: nxtDirs => openDir p dir d { s with
      lastDir := some s.currentDir, bckDirs := s.currentDir :: s.bckDirs, nxtDirs }

def btnBackOnClick (p : Platform) (d : Directory) (s : Picker) : Picker :=
  match s.bckDirs with
  | [] => s
  | dir :: bckDirs => openDir p dir d { s with
      lastDir := some s.currentDir, nxtDirs := s.currentDir :: s.nxtDirs, bckDirs }

/-- `FileEntry_OnClicked`.  While files are selected, a click toggles the button,
which is an event of its own. -/
def fileEntryOnClicked (p : Platform) (e : FileEntry) (d : Directory) (s : Picker) : Picker :=
  if s.selectedFiles ≠ [] then s
  else if e.isPKG p then { s with result := some .ok, selectedFiles := [e.fullPath] }
  else if e.isDirectory then openDir p e.fullPath d s
  else s

def fileEntryOnUnchecked (e : FileEntry) (s : Picker) : Picker :=
  let selectedFiles := s.selectedFiles.erase e.fullPath
  { s with selectedFiles, inMultiselect := decide (selectedFiles ≠ []) }

/-- `FileEntry_OnChecked`.  A button that is toggled back raises `Unchecked`. -/
def fileEntryOnChecked (p : Platform) (e : FileEntry) (s : Picker) : Picker :=
  let s := if e.isPKG p then { s with selectedFiles := s.selectedFiles ++ [e.fullPath] }
    else fileEntryOnUnchecked e s
  { s with inMultiselect := decide (s.selectedFiles ≠ []) }

/-! ## The picker in use -/

inductive Label where
  /-- `OpenDir` is called on the picker. -/
  | openDir (path : Text) (d : Directory)
  /-- The text of `tbFolder` changes. -/
  | typed (text : Text) (d : Directory)
  | back (d : Directory)
  | next (d : Directory)
  | clicked (e : FileEntry) (d : Directory)
  | checked (e : FileEntry)
  | unchecked (e : FileEntry)
  /-- `Open_OnClick`, whose button is visible while files are selected. -/
  | accept
  | cancel
deriving DecidableEq, Repr

variable (p : Platform)

def handle (s : Picker) : Label → Option Picker
  | .openDir path d => some (FilePicker.openDir p path d s)
  | .typed text d => some (FilePicker.openDir p text d { s with currentDir := text })
  | .back d => some (btnBackOnClick p d s)
  | .next d => some (btnNextOnClick p d s)
  | .clicked e d => if e ∈ s.currentDirEntries then some (fileEntryOnClicked p e d s) else none
  | .checked e => if e ∈ s.currentDirEntries then some (fileEntryOnChecked p e s) else none
  | .unchecked e => if e ∈ s.currentDirEntries then some (fileEntryOnUnchecked e s) else none
  | .accept => if s.inMultiselect then some { s with result := some .ok } else none
  | .cancel => some { s with result := some .cancel, selectedFiles := [] }

/-- Nothing happens to a view that has returned. -/
def step (s : Picker) (l : Label) : Option Picker :=
  if s.result = none then handle p s l else none

def system : System Picker Label where
  init := (· = .fresh)
  step := step p

variable {p}

/-! ## What is selected -/

/-- The selection fits what is shown, and the result. -/
structure Fits (p : Platform) (s : Picker) : Prop where
  shown : ∀ file ∈ s.selectedFiles, ∃ e ∈ s.currentDirEntries, e.isPKG p = true ∧ e.fullPath = file
  multiselect : s.result = none → (s.inMultiselect = true ↔ s.selectedFiles ≠ [])
  returned : s.result ≠ none → (s.result = some .ok ↔ s.selectedFiles ≠ [])

/-- No directory is opened with a selection of another one. -/
theorem openDir_selection (path : Text) (d : Directory) (s : Picker) :
    (openDir p path d s).result = s.result ∧
      ((openDir p path d s).selectedFiles = [] ∧ (openDir p path d s).inMultiselect = false ∨
        (openDir p path d s).selectedFiles = s.selectedFiles ∧
        (openDir p path d s).inMultiselect = s.inMultiselect ∧
        (openDir p path d s).currentDirEntries = s.currentDirEntries) := by
  have hkeep : ∀ t : Picker, t.keepLast.result = t.result := by
    intro t
    unfold Picker.keepLast
    split
    · rfl
    · split <;> rfl
  unfold openDir
  cases d with
  | missing => simp
  | denied =>
    dsimp only
    split <;> split <;> simp
  | listed entries =>
    dsimp only
    split <;> split <;> simp [hkeep]

theorem Fits.openDir {s : Picker} (h : Fits p s) (hopen : s.result = none) (path : Text)
    (d : Directory) : Fits p (openDir p path d s) := by
  obtain ⟨hresult, hselection⟩ := openDir_selection (p := p) path d s
  rcases hselection with ⟨hfiles, hmulti⟩ | ⟨hfiles, hmulti, hentries⟩
  · refine ⟨?_, ?_, ?_⟩
    · simp [hfiles]
    · simp [hfiles, hmulti]
    · simp [hresult, hopen]
  · refine ⟨?_, ?_, ?_⟩
    · rw [hfiles, hentries]
      exact h.shown
    · rw [hfiles, hmulti, hresult]
      exact h.multiselect
    · simp [hresult, hopen]

theorem fits_unchecked {e : FileEntry} {s : Picker} (h : Fits p s) (hopen : s.result = none) :
    Fits p (fileEntryOnUnchecked e s) where
  shown := fun file hfile => h.shown file (List.mem_of_mem_erase hfile)
  multiselect := fun _ => by simp [fileEntryOnUnchecked]
  returned := fun hresult => absurd hopen hresult

theorem fits_checked {e : FileEntry} {s : Picker} (h : Fits p s) (hopen : s.result = none)
    (he : e ∈ s.currentDirEntries) : Fits p (fileEntryOnChecked p e s) := by
  unfold fileEntryOnChecked
  dsimp only
  split
  · rename_i hpkg
    refine ⟨fun file hfile => ?_, fun _ => by simp, fun hresult => absurd hopen hresult⟩
    rcases List.mem_append.1 hfile with hfile | hfile
    · exact h.shown file hfile
    · rw [List.mem_singleton] at hfile
      exact ⟨e, he, hpkg, hfile.symm⟩
  · refine ⟨(fits_unchecked h hopen).shown, fun _ => by simp, fun hresult => absurd hopen hresult⟩

theorem fits_clicked {e : FileEntry} {d : Directory} {s : Picker} (h : Fits p s)
    (hopen : s.result = none) (he : e ∈ s.currentDirEntries) :
    Fits p (fileEntryOnClicked p e d s) := by
  unfold fileEntryOnClicked
  split
  · exact h
  · split
    · rename_i hpkg
      refine ⟨fun file hfile => ?_, fun hresult => by simp at hresult, fun _ => by simp⟩
      rw [List.mem_singleton] at hfile
      exact ⟨e, he, hpkg, hfile.symm⟩
    · split
      · exact h.openDir hopen _ d
      · exact h

theorem fits_typed {s : Picker} (h : Fits p s) (currentDir : Text) :
    Fits p { s with currentDir } :=
  ⟨h.shown, h.multiselect, h.returned⟩

theorem fits_button {s : Picker} (h : Fits p s) (lastDir : Option Text)
    (bckDirs nxtDirs : List Text) :
    Fits p { s with lastDir, bckDirs, nxtDirs } :=
  ⟨h.shown, h.multiselect, h.returned⟩

theorem fits_back {d : Directory} {s : Picker} (h : Fits p s) (hopen : s.result = none) :
    Fits p (btnBackOnClick p d s) := by
  unfold btnBackOnClick
  split
  · exact h
  · rename_i dir bckDirs _
    exact (fits_button h (some s.currentDir) bckDirs (s.currentDir :: s.nxtDirs)).openDir
      hopen dir d

theorem fits_next {d : Directory} {s : Picker} (h : Fits p s) (hopen : s.result = none) :
    Fits p (btnNextOnClick p d s) := by
  unfold btnNextOnClick
  split
  · exact h
  · rename_i dir nxtDirs _
    exact (fits_button h (some s.currentDir) (s.currentDir :: s.bckDirs) nxtDirs).openDir
      hopen dir d

/-- In every reachable state the selected files are packages or manifests of the
directory that is shown, `InMultiselect` tells while the view is open whether there
are any, and the view returns `OK` exactly with some and `Cancel` with none. -/
theorem selection_shown {s : Picker} (h : (system p).Reachable s) : Fits p s := by
  refine h.invariant (Fits p) ?_ ?_
  · intro s hs
    subst hs
    exact ⟨by simp [Picker.fresh], by simp [Picker.fresh], by simp [Picker.fresh]⟩
  · intro s l s' hs hstep
    change step p s l = some s' at hstep
    unfold step at hstep
    split at hstep
    · rename_i hopen
      cases l with
      | openDir path d =>
        cases hstep
        exact hs.openDir hopen path d
      | typed text d =>
        cases hstep
        exact (fits_typed hs text).openDir hopen text d
      | back d =>
        cases hstep
        exact fits_back hs hopen
      | next d =>
        cases hstep
        exact fits_next hs hopen
      | clicked e d =>
        obtain ⟨he, heq⟩ := Option.ite_none_right_eq_some.1 hstep
        cases heq
        exact fits_clicked hs hopen he
      | checked e =>
        obtain ⟨he, heq⟩ := Option.ite_none_right_eq_some.1 hstep
        cases heq
        exact fits_checked hs hopen he
      | unchecked e =>
        obtain ⟨he, heq⟩ := Option.ite_none_right_eq_some.1 hstep
        cases heq
        exact fits_unchecked hs hopen
      | accept =>
        obtain ⟨hmulti, heq⟩ := Option.ite_none_right_eq_some.1 hstep
        cases heq
        refine ⟨hs.shown, fun hresult => by simp at hresult, fun _ => ?_⟩
        simp [(hs.multiselect hopen).1 hmulti]
      | cancel =>
        cases hstep
        exact ⟨by simp, fun hresult => by simp at hresult, fun _ => by simp⟩
    · cases hstep

/-- A shown package, selected and opened. -/
def selected : Picker where
  lastDir := some ['/']
  currentDir := ['/']
  bckDirs := []
  nxtDirs := []
  selectedFiles := ["/a.pkg".toList]
  inMultiselect := true
  currentDirEntries := [⟨"/a.pkg".toList, false, false⟩]
  result := some .ok

theorem selection_shown_accepted : Fits ⟨false, ordinal⟩ selected := by
  have hrun : (system ⟨false, ordinal⟩).run .fresh
      [.openDir ['/'] (.listed [⟨"/a.pkg".toList, false, false⟩]),
        .checked ⟨"/a.pkg".toList, false, false⟩, .accept] = some selected := by
    decide +kernel
  exact selection_shown (System.reachable_of_run (.init rfl) hrun)

/-! ## The history -/

/-- Where `OpenDir` is called by something else than the buttons. -/
def opens (p : Platform) (s : Picker) : Label → Option (Text × Directory)
  | .openDir path d => some (path, d)
  | .typed text d => some (text, d)
  | .clicked e d =>
    if s.selectedFiles = [] ∧ e.isPKG p = false ∧ e.isDirectory = true then some (e.fullPath, d)
    else none
  | _ => none

/-- The visit that a call of `OpenDir` makes. -/
def visited (p : Platform) (path : Text) : Directory → Option (History Text) → Option (History Text)
  | .listed _, none => some (.start (withSeparator p.windows path))
  | .listed _, some h => some (h.visit (withSeparator p.windows path))
  | _, h => h

/-- What the user expects of the two buttons and of the directories opened. -/
def follow (p : Platform) (s : Picker) (h : Option (History Text)) (l : Label) :
    Option (History Text) :=
  match l with
  | .back _ => h.map History.goBack
  | .next _ => h.map History.goForward
  | l =>
    match opens p s l with
    | some (path, d) => visited p path d h
    | none => h

/-- The picker beside the history that its user has in mind; `none` before the first
directory. -/
abbrev Browsing := Picker × Option (History Text)

def browsing (p : Platform) : System Browsing Label where
  init := (· = (.fresh, none))
  step s l := (step p s.1 l).map fun s' => (s', follow p s.1 s.2 l)

/-- The picker stands where the history does, with its stacks. -/
def Refines (s : Browsing) : Prop :=
  match s.2 with
  | none => s.1.lastDir = none ∧ s.1.bckDirs = [] ∧ s.1.nxtDirs = []
  | some h => s.1.lastDir = some h.current ∧ s.1.bckDirs = h.back ∧ s.1.nxtDirs = h.forward

/-- A button with a directory on its stack finds it, while the path box shows the
current directory. -/
def Orderly (s : Browsing) : Label → Prop
  | .back d => s.1.bckDirs ≠ [] → s.1.lastDir = some s.1.currentDir ∧ ∃ entries, d = .listed entries
  | .next d => s.1.nxtDirs ≠ [] → s.1.lastDir = some s.1.currentDir ∧ ∃ entries, d = .listed entries
  | _ => True

/-- The directories of the history end in separators, none comes twice in a row. -/
def WellFormed (s : Browsing) : Prop :=
  ∀ h, s.2 = some h → h.Moving ∧ h.All fun dir => endsInSeparator dir = true

theorem endsInSeparator_withSeparator (windows : Bool) (path : Text) :
    endsInSeparator (withSeparator windows path) = true := by
  unfold withSeparator
  split
  · assumption
  · cases windows <;> simp [endsInSeparator]

/-- Where `OpenDir` stays: at the directory that is shown, or where it cannot list. -/
theorem openDir_stays (path : Text) {d : Directory} {s : Picker}
    (h : s.lastDir = some (withSeparator p.windows path) ∨ ∀ entries, d ≠ .listed entries) :
    (openDir p path d s).lastDir = s.lastDir ∧ (openDir p path d s).bckDirs = s.bckDirs ∧
      (openDir p path d s).nxtDirs = s.nxtDirs := by
  unfold openDir
  cases d with
  | missing => exact ⟨rfl, rfl, rfl⟩
  | denied =>
    dsimp only
    split <;> split <;> exact ⟨rfl, rfl, rfl⟩
  | listed entries =>
    dsimp only
    rw [if_pos (h.resolve_right fun hnot => hnot entries rfl)]
    split <;> exact ⟨rfl, rfl, rfl⟩

theorem openDir_moves (path : Text) {s : Picker} (entries : List FileEntry)
    (h : s.lastDir ≠ some (withSeparator p.windows path)) :
    (openDir p path (.listed entries) s).lastDir = some (withSeparator p.windows path) ∧
      (openDir p path (.listed entries) s).bckDirs = s.keepLast.bckDirs ∧
      (openDir p path (.listed entries) s).nxtDirs = s.keepLast.nxtDirs := by
  have htext : ∀ currentDir : Text,
      { s with currentDir }.keepLast.bckDirs = s.keepLast.bckDirs ∧
        { s with currentDir }.keepLast.nxtDirs = s.keepLast.nxtDirs := by
    intro currentDir
    unfold Picker.keepLast
    dsimp only
    split
    · exact ⟨rfl, rfl⟩
    · split <;> exact ⟨rfl, rfl⟩
  unfold openDir
  dsimp only
  rw [if_neg h]
  refine ⟨rfl, ?_, ?_⟩
  · dsimp only
    split
    · rfl
    · exact (htext _).1
  · dsimp only
    split
    · rfl
    · exact (htext _).2

theorem keepLast_none {s : Picker} (hlast : s.lastDir = none) : s.keepLast = s := by
  simp only [Picker.keepLast, hlast]

theorem keepLast_top {last : Text} {s : Picker} (hlast : s.lastDir = some last)
    (htop : s.nxtDirs.head? = some last ∨ s.bckDirs.head? = some last) : s.keepLast = s := by
  simp only [Picker.keepLast, hlast]
  exact if_pos htop

theorem keepLast_new {last : Text} {s : Picker} (hlast : s.lastDir = some last)
    (htop : ¬(s.nxtDirs.head? = some last ∨ s.bckDirs.head? = some last)) :
    s.keepLast.bckDirs = last :: s.bckDirs ∧ s.keepLast.nxtDirs = [] := by
  simp only [Picker.keepLast, hlast]
  rw [if_neg htop]
  exact ⟨rfl, rfl⟩

/-- What `OpenDir` does when a button has put the last directory on a stack. -/
theorem openDir_button {path last : Text} {s : Picker} (hpath : endsInSeparator path = true)
    (hlast : s.lastDir = some last)
    (htop : s.nxtDirs.head? = some last ∨ s.bckDirs.head? = some last) (d : Directory) :
    (openDir p path d s).bckDirs = s.bckDirs ∧ (openDir p path d s).nxtDirs = s.nxtDirs ∧
      ((openDir p path d s).lastDir = some path ↔
        last = path ∨ ∃ entries, d = .listed entries) := by
  have hsame : withSeparator p.windows path = path := by rw [withSeparator, if_pos hpath]
  by_cases hstays : s.lastDir = some (withSeparator p.windows path) ∨
      ∀ entries, d ≠ .listed entries
  · obtain ⟨hdir, hbck, hnxt⟩ := openDir_stays (p := p) path hstays
    refine ⟨hbck, hnxt, ?_⟩
    rw [hsame] at hstays
    rw [hdir, hlast, Option.some.injEq]
    refine ⟨Or.inl, fun h => h.elim id fun ⟨entries, hd⟩ => ?_⟩
    rw [hlast, Option.some.injEq] at hstays
    exact hstays.resolve_right fun hnot => hnot entries hd
  · simp only [not_or, not_forall, not_not] at hstays
    obtain ⟨hne, entries, rfl⟩ := hstays
    obtain ⟨hdir, hbck, hnxt⟩ := openDir_moves path entries hne
    rw [keepLast_top hlast htop] at hbck hnxt
    refine ⟨hbck, hnxt, ?_⟩
    rw [hdir, hsame]
    simp

/-- A directory that is opened otherwise is visited. -/
theorem openDir_visits {path : Text} {s : Picker} {h : Option (History Text)}
    (hs : Refines (s, h)) (hwell : WellFormed (s, h)) (d : Directory) :
    Refines (openDir p path d s, visited p path d h) := by
  by_cases hlisted : ∃ entries, d = .listed entries
  · obtain ⟨entries, rfl⟩ := hlisted
    cases h with
    | none =>
      obtain ⟨hlast, hbck, hnxt⟩ := hs
      obtain ⟨hdir, hbck', hnxt'⟩ := openDir_moves (p := p) path entries
        (by rw [hlast]; simp)
      rw [keepLast_none hlast] at hbck' hnxt'
      exact ⟨hdir, hbck'.trans hbck, hnxt'.trans hnxt⟩
    | some h =>
      obtain ⟨hlast, hbck, hnxt⟩ := hs
      have hmoving := (hwell h rfl).1
      show Refines (_, some (h.visit (withSeparator p.windows path)))
      by_cases hsame : withSeparator p.windows path = h.current
      · have hstays := openDir_stays (p := p) path (d := .listed entries)
          (Or.inl (hlast.trans (congrArg some hsame.symm)))
        rw [History.visit, if_pos hsame]
        exact ⟨hstays.1.trans hlast, hstays.2.1.trans hbck, hstays.2.2.trans hnxt⟩
      · have htop : ¬(s.nxtDirs.head? = some h.current ∨ s.bckDirs.head? = some h.current) := by
          rw [hbck, hnxt]
          intro htop
          rcases htop with htop | htop
          · exact hmoving.ne_forward htop rfl
          · exact hmoving.ne_back htop rfl
        obtain ⟨hdir, hbck', hnxt'⟩ := openDir_moves (p := p) path entries
          (by rw [hlast]; simpa using Ne.symm hsame)
        obtain ⟨hpush, hclear⟩ := keepLast_new hlast htop
        rw [History.visit, if_neg hsame]
        refine ⟨hdir, ?_, hnxt'.trans hclear⟩
        rw [hbck', hpush, hbck]
  · have hstays := openDir_stays (p := p) path (s := s)
      (Or.inr fun entries hd => hlisted ⟨entries, hd⟩)
    have hvisited : visited p path d h = h := by
      cases d with
      | missing | denied => rfl
      | listed entries => exact absurd ⟨entries, rfl⟩ hlisted
    rw [hvisited]
    unfold Refines at hs ⊢
    dsimp only at hs ⊢
    rw [hstays.1, hstays.2.1, hstays.2.2]
    exact hs

theorem back_refines {s : Picker} {h : History Text} (hs : Refines (s, some h))
    (hwell : WellFormed (s, some h)) (d : Directory) :
    Refines (btnBackOnClick p d s, some h.goBack) ↔ Orderly (s, some h) (.back d) := by
  obtain ⟨hlast, hbck, hnxt⟩ := hs
  obtain ⟨hmoving, hall⟩ := hwell h rfl
  dsimp only at hlast hbck hnxt
  unfold Refines Orderly btnBackOnClick History.goBack
  dsimp only
  rw [hbck]
  cases hback : h.back with
  | nil => simp [hlast, hbck, hnxt, hback]
  | cons dir back =>
    have hne : dir ≠ h.current := hmoving.ne_back (by simp [hback])
    have hends := hall.back (show dir ∈ h.back by simp [hback])
    obtain ⟨hbck', hnxt', hdir⟩ := openDir_button (p := p)
      (s := { s with lastDir := some s.currentDir, nxtDirs := s.currentDir :: s.nxtDirs,
                     bckDirs := back }) hends rfl (Or.inl rfl) d
    dsimp only
    rw [hdir, hbck', hnxt', hnxt, hlast]
    simp only [List.cons.injEq, Option.some.injEq, true_and, and_true, ne_eq, reduceCtorEq,
      not_false_eq_true, forall_const]
    constructor
    · intro ⟨hopened, hcurrent⟩
      refine ⟨hcurrent.symm, hopened.resolve_left fun heq => hne ?_⟩
      rw [← heq, hcurrent]
    · intro ⟨hcurrent, hlisted⟩
      exact ⟨Or.inr hlisted, hcurrent.symm⟩

theorem next_refines {s : Picker} {h : History Text} (hs : Refines (s, some h))
    (hwell : WellFormed (s, some h)) (d : Directory) :
    Refines (btnNextOnClick p d s, some h.goForward) ↔ Orderly (s, some h) (.next d) := by
  obtain ⟨hlast, hbck, hnxt⟩ := hs
  obtain ⟨hmoving, hall⟩ := hwell h rfl
  dsimp only at hlast hbck hnxt
  unfold Refines Orderly btnNextOnClick History.goForward
  dsimp only
  rw [hnxt]
  cases hforward : h.forward with
  | nil => simp [hlast, hbck, hnxt, hforward]
  | cons dir forward =>
    have hne : dir ≠ h.current := hmoving.ne_forward (by simp [hforward])
    have hends := hall.forward (show dir ∈ h.forward by simp [hforward])
    obtain ⟨hbck', hnxt', hdir⟩ := openDir_button (p := p)
      (s := { s with lastDir := some s.currentDir, bckDirs := s.currentDir :: s.bckDirs,
                     nxtDirs := forward }) hends rfl (Or.inr rfl) d
    dsimp only
    rw [hdir, hbck', hnxt', hbck, hlast]
    simp only [List.cons.injEq, Option.some.injEq, and_true, ne_eq, reduceCtorEq,
      not_false_eq_true, forall_const]
    constructor
    · intro ⟨hopened, hcurrent⟩
      refine ⟨hcurrent.symm, hopened.resolve_left fun heq => hne ?_⟩
      rw [← heq, hcurrent]
    · intro ⟨hcurrent, hlisted⟩
      exact ⟨Or.inr hlisted, hcurrent.symm⟩

theorem follow_wellFormed {s s' : Picker} {h : Option (History Text)} (hwell : WellFormed (s, h))
    (l : Label) : WellFormed (s', follow p s h l) := by
  have hvisited : ∀ path d, WellFormed (s', visited p path d h) := by
    intro path d h' hh'
    have hends := endsInSeparator_withSeparator p.windows path
    cases d with
    | missing | denied => exact hwell h' hh'
    | listed entries =>
      cases h with
      | none =>
        cases hh'
        refine ⟨History.moving_start _, fun dir hdir => ?_⟩
        simp [History.timeline, History.start] at hdir
        rw [hdir]
        exact hends
      | some h =>
        cases hh'
        exact ⟨(hwell h rfl).1.visit _, (hwell h rfl).2.visit hends⟩
  cases l with
  | back d =>
    intro h' hh'
    obtain ⟨h₀, rfl, rfl⟩ := Option.map_eq_some_iff.1 hh'
    exact ⟨(hwell h₀ rfl).1.goBack, (hwell h₀ rfl).2.goBack⟩
  | next d =>
    intro h' hh'
    obtain ⟨h₀, rfl, rfl⟩ := Option.map_eq_some_iff.1 hh'
    exact ⟨(hwell h₀ rfl).1.goForward, (hwell h₀ rfl).2.goForward⟩
  | openDir path d | typed path d => exact hvisited path d
  | clicked e d =>
    show WellFormed (s', match opens p s (.clicked e d) with
      | some (path, d) => visited p path d h
      | none => h)
    unfold opens
    dsimp only
    split
    · rename_i heq
      split at heq
      · cases heq
        exact hvisited _ _
      · cases heq
    · exact hwell
  | checked | unchecked | accept | cancel => exact hwell

/-- A label that changes neither the directories nor the history. -/
theorem refines_of_same {s s' : Picker} {h : Option (History Text)} (hs : Refines (s, h))
    (hlast : s'.lastDir = s.lastDir) (hbck : s'.bckDirs = s.bckDirs)
    (hnxt : s'.nxtDirs = s.nxtDirs) : Refines (s', h) := by
  unfold Refines at hs ⊢
  dsimp only at hs ⊢
  rw [hlast, hbck, hnxt]
  exact hs

theorem clicked_refines {e : FileEntry} {d : Directory} {s : Picker} {h : Option (History Text)}
    (hs : Refines (s, h)) (hwell : WellFormed (s, h)) :
    Refines (fileEntryOnClicked p e d s, follow p s h (.clicked e d)) := by
  have hfollow : follow p s h (.clicked e d) =
      if s.selectedFiles = [] ∧ e.isPKG p = false ∧ e.isDirectory = true then
        visited p e.fullPath d h
      else h := by
    show (match opens p s (.clicked e d) with
      | some (path, d) => visited p path d h
      | none => h) = _
    unfold opens
    dsimp only
    split
    · rename_i heq
      split at heq
      · rename_i hopens
        cases heq
        rw [if_pos hopens]
      · cases heq
    · rename_i heq
      split at heq
      · cases heq
      · rename_i hopens
        rw [if_neg hopens]
  rw [hfollow]
  unfold fileEntryOnClicked
  split
  · rename_i hselected
    rw [if_neg fun hopens => hselected hopens.1]
    exact hs
  · rename_i hselected
    split
    · rename_i hpkg
      rw [if_neg fun hopens => by simp [hpkg] at hopens]
      exact refines_of_same hs rfl rfl rfl
    · rename_i hpkg
      split
      · rename_i hdirectory
        rw [if_pos ⟨by simpa using hselected, by simpa using hpkg, hdirectory⟩]
        exact openDir_visits hs hwell d
      · rename_i hdirectory
        rw [if_neg fun hopens => hdirectory hopens.2.2]
        exact hs

/-- One step keeps the picker with the history exactly if it is orderly. -/
theorem refines_step {s s' : Browsing} {l : Label} (hwell : WellFormed s) (hs : Refines s)
    (hstep : (browsing p).step s l = some s') : Refines s' ↔ Orderly s l := by
  obtain ⟨t, h⟩ := s
  obtain ⟨t', ht', rfl⟩ := Option.map_eq_some_iff.1 hstep
  unfold step at ht'
  split at ht'
  · cases l with
    | back d =>
      cases ht'
      cases h with
      | none =>
        obtain ⟨hlast, hbck, hnxt⟩ := hs
        dsimp only at hbck
        refine iff_of_true ?_ fun hne => absurd hbck hne
        simp only [btnBackOnClick, hbck]
        exact ⟨hlast, hbck, hnxt⟩
      | some h => exact back_refines hs hwell d
    | next d =>
      cases ht'
      cases h with
      | none =>
        obtain ⟨hlast, hbck, hnxt⟩ := hs
        dsimp only at hnxt
        refine iff_of_true ?_ fun hne => absurd hnxt hne
        simp only [btnNextOnClick, hnxt]
        exact ⟨hlast, hbck, hnxt⟩
      | some h => exact next_refines hs hwell d
    | openDir path d =>
      cases ht'
      exact iff_of_true (openDir_visits hs hwell d) trivial
    | typed text d =>
      cases ht'
      have htyped : Refines ({ t with currentDir := text }, h) := refines_of_same hs rfl rfl rfl
      exact iff_of_true (openDir_visits htyped hwell d) trivial
    | clicked e d =>
      obtain ⟨-, heq⟩ := Option.ite_none_right_eq_some.1 ht'
      cases heq
      exact iff_of_true (clicked_refines hs hwell) trivial
    | checked e =>
      obtain ⟨-, heq⟩ := Option.ite_none_right_eq_some.1 ht'
      cases heq
      refine iff_of_true ?_ trivial
      show Refines (fileEntryOnChecked p e t, h)
      unfold fileEntryOnChecked
      dsimp only
      split <;> exact refines_of_same hs rfl rfl rfl
    | unchecked e =>
      obtain ⟨-, heq⟩ := Option.ite_none_right_eq_some.1 ht'
      cases heq
      exact iff_of_true (refines_of_same hs rfl rfl rfl) trivial
    | accept =>
      obtain ⟨-, heq⟩ := Option.ite_none_right_eq_some.1 ht'
      cases heq
      exact iff_of_true (refines_of_same hs rfl rfl rfl) trivial
    | cancel =>
      cases ht'
      exact iff_of_true (refines_of_same hs rfl rfl rfl) trivial
  · cases ht'

/-- In a run of the picker, it stands where the history does all the time exactly if
every step back or forward finds its directory, while the path box shows the current
one. -/
theorem refines_iff {s : Browsing} {ls : List Label}
    (hrun : (browsing p).run (.fresh, none) ls = some s) :
    (browsing p).Along Refines (.fresh, none) ls ↔
      (browsing p).StepsMeet Orderly (.fresh, none) ls := by
  apply System.along_of_step WellFormed Refines Orderly _ _ _ _ hrun
  · intro s l s' hwell hstep
    obtain ⟨t', -, rfl⟩ := Option.map_eq_some_iff.1 hstep
    exact follow_wellFormed hwell l
  · intro s l s' hwell hs hstep
    exact refines_step hwell hs hstep
  · intro h hnone
    cases hnone
  · exact ⟨rfl, rfl, rfl⟩

/-- The directory behind the current one has been deleted. -/
def deleted : List Label :=
  [.openDir ['/'] (.listed []), .typed "/a".toList (.listed []), .back .missing]

theorem refines_iff_deleted :
    (browsing ⟨false, ordinal⟩).Along Refines (.fresh, none) deleted ↔
      (browsing ⟨false, ordinal⟩).StepsMeet Orderly (.fresh, none) deleted :=
  refines_iff (s := _) rfl

end DirectPackageInstaller.FilePicker
