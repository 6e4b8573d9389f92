import DirectPackageInstaller.Compression.SharpComp
import Mathlib.Data.List.Infix

/-!
# Choosing a package of an archive

`UnArchive` opens a `.pkg` entry of an archive, to read its metadata and to
show it; later `CreateDecompressor` selects the entry that is extracted and
served, by the file name that `UnArchive` has reported.  Where an archive has
several packages, the user or the caller names one.

The comparison of `CreateDecompressor` depends on the culture and is a
parameter here, `endsWith`; all that is used of it is that a key ends with its
own file name.

* `unArchive_named` is `UnArchive` for an archive with several packages: if the
  name is that of any package, the first package is opened.
* `preview_served_iff` says for which names the package that is shown is the one
  that is named and the one that is served.
-/

namespace DirectPackageInstaller.Decompressor

open SharpComp

/-- The stream of an opened entry.  `reportLength` is that of the
`ReadSeekableStream` around it, if there is one. -/
structure EntryStream where
  entry : Entry
  reportLength : Option Nat
deriving DecidableEq, Repr

/-- `ArchiveDataInfo`. -/
structure ArchiveDataInfo (V : Type) where
  archive : Archive
  buffer : EntryStream
  volumes : List V
  filename : String
  pkgList : List String
  length : Nat
deriving DecidableEq, Repr

/-- How `UnArchive` ends. -/
inductive UnArchived (V : Type) where
  /-- It returns `null`, after a message box or without one. -/
  | nothing (message : Option String)
  | opened (info : ArchiveDataInfo V)
  | threw
deriving DecidableEq, Repr

/-- What comes of the dialog. -/
inductive Picked where
  | cancelled
  /-- The view returns without a choice. -/
  | kept
  | chose (name : String)
deriving DecidableEq, Repr

/-! ## The code -/

/-- `Path.GetExtension`. -/
def getExtension (key : String) : List Char :=
  let name := (getFileName key).toList
  let extension := (name.reverse.takeWhile (· ≠ '.')).reverse
  if extension = name ∨ extension = [] then [] else '.' :: extension

/-- The entries that count for `Compressions`. -/
def compressed (e : Entry) : Bool :=
  ".r".toList.isPrefixOf ((getExtension e.key).map Char.toLower) ||
    decide (".7z".toList <:+: e.key.toList)

/-- The text of the message box for an archive without packages. -/
def noPackageText (archive : Archive) : String :=
  if archive.entries.any compressed then
    "No PKG Found in the given file\nIt looks like this file has been redundantly compressed."
  else "No PKG Found in the given file"

variable {V : Type}

/-- `Entry.OpenEntryStream()`, behind a `ReadSeekableStream` if asked for. -/
def openEntryStream (entry : Entry) (seekable : Bool) : EntryStream where
  entry := entry
  reportLength := if seekable then some entry.size else none

/-- The name that is asked for among several packages; `none` for a return of
`null`. -/
def chosenName (silent : Bool) (entryName : Option String) (picked : Picked) :
    Option (Option String) :=
  if silent then
    if entryName = none ∨ entryName = some "" then none else some entryName
  else
    match picked with
    | .cancelled => none
    | .kept => some entryName
    | .chose name => some (some name)

/-- `SelectedEntry`; `none` where `Single` throws. -/
def selectedEntry (pkgs : List Entry) (entryName : Option String) : Option Entry :=
  let selectedEntries := pkgs.filter fun e => some (getFileName e.key) = entryName
  if selectedEntries ≠ [] then pkgs.head? else single selectedEntries

/-- `UnArchive`. -/
def unArchive (archive : Archive) (volumes : List V) (silent : Bool)
    (entryName : Option String) (seekable : Bool) (picked : Picked) : UnArchived V :=
  match archive.pkgs with
  | [] => .nothing (if silent then none else some (noPackageText archive))
  | [entry] =>
    .opened { archive, buffer := openEntryStream entry seekable, volumes,
              filename := getFileName entry.key, pkgList := [entry.key],
              length := entry.size }
  | pkgs =>
    match chosenName silent entryName picked with
    | none => .nothing none
    | some entryName =>
      match selectedEntry pkgs entryName with
      | none => .threw
      | some entry =>
        .opened { archive, buffer := openEntryStream entry seekable, volumes,
                  filename := getFileName entry.key,
                  pkgList := pkgs.map fun e => getFileName e.key, length := entry.size }

/-! ## File names -/

theorem single_eq_some {α : Type} {l : List α} {x : α} : single l = some x ↔ l = [x] := by
  unfold single
  split
  · rw [Option.some.injEq, List.cons.injEq, and_iff_left rfl]
  · rename_i hmany
    refine iff_of_false (by simp) fun h => hmany x h

theorem getFileName_toList (key : String) :
    (getFileName key).toList = (key.toList.reverse.takeWhile (· ≠ '/')).reverse := by
  rw [getFileName, String.toList_ofList]

/-- A key ends with its own file name. -/
theorem endsWithIgnoreCase_getFileName (key : String) :
    endsWithIgnoreCase key (getFileName key) = true := by
  have hsuffix : (getFileName key).toList <:+ key.toList := by
    rw [getFileName_toList]
    have := List.takeWhile_prefix (l := key.toList.reverse) (· ≠ '/')
    simpa using List.reverse_suffix.2 this
  rw [endsWithIgnoreCase, List.isSuffixOf_iff_suffix]
  exact hsuffix.map _

/-- The file name of a package is not empty. -/
theorem getFileName_ne_empty {archive : Archive} {e : Entry} (h : e ∈ archive.pkgs) :
    getFileName e.key ≠ "" := by
  have hends := (List.mem_filter.1 h).2
  rw [endsWithIgnoreCase, List.isSuffixOf_iff_suffix] at hends
  obtain ⟨front, hfront⟩ := hends
  have hreverse := congrArg List.reverse hfront
  rw [List.reverse_append, ← List.map_reverse, ← List.map_reverse] at hreverse
  -- the last character of the key is a letter, so it is no slash
  cases hkey : e.key.toList.reverse with
  | nil =>
    rw [hkey] at hreverse
    cases hreverse
  | cons c rest =>
    rw [hkey, List.map_cons] at hreverse
    have hc : 'g' = c.toLower := (List.cons.inj hreverse).1
    have hslash : c ≠ '/' := by
      intro heq
      rw [heq] at hc
      exact absurd hc (by decide)
    intro hempty
    have hname := getFileName_toList e.key
    rw [hempty, hkey, List.takeWhile_cons_of_pos (by simpa using hslash)] at hname
    simp at hname

/-- A caller may name any package. -/
theorem chosenName_silent {archive : Archive} {e : Entry} (h : e ∈ archive.pkgs)
    {name : String} (hname : getFileName e.key = name) (picked : Picked) :
    chosenName true (some name) picked = some (some name) := by
  have hne := getFileName_ne_empty h
  rw [hname] at hne
  simp [chosenName, hne]

/-! ## The preview and the extraction -/

/-- What `UnArchive` reports about a package among several. -/
def preview (archive : Archive) (volumes : List V) (seekable : Bool) (entry : Entry) :
    ArchiveDataInfo V where
  archive := archive
  buffer := openEntryStream entry seekable
  volumes := volumes
  filename := getFileName entry.key
  pkgList := archive.pkgs.map fun e => getFileName e.key
  length := entry.size

/-- Among several packages the name of any of them opens the first. -/
theorem unArchive_named {archive : Archive} {first second : Entry} {rest : List Entry}
    (hpkgs : archive.pkgs = first :: second :: rest) {name : String}
    (hname : ∃ e ∈ archive.pkgs, getFileName e.key = name) {silent : Bool}
    {entryName : Option String} {picked : Picked}
    (hchosen : chosenName silent entryName picked = some (some name)) (volumes : List V)
    (seekable : Bool) :
    unArchive archive volumes silent entryName seekable picked =
      .opened (preview archive volumes seekable first) := by
  obtain ⟨e, he, heq⟩ := hname
  have hany : (archive.pkgs.filter fun e => some (getFileName e.key) = some name) ≠ [] := by
    apply List.ne_nil_of_mem (a := e)
    exact List.mem_filter.2 ⟨he, by simpa using heq⟩
  have hselected : selectedEntry archive.pkgs (some name) = some first := by
    rw [selectedEntry, if_pos hany, hpkgs]
    rfl
  unfold unArchive preview
  rw [hpkgs] at hselected ⊢
  dsimp only
  rw [hchosen]
  dsimp only
  rw [hselected]

/-- The package of that name is the one that `UnArchive` opens and reports, when
the caller names it or the user picks it, and the one that `CreateDecompressor`
selects. -/
def PreviewServed (V : Type) (endsWith : String → String → Bool) (archive : Archive)
    (name : String) : Prop :=
  ∃ e ∈ archive.pkgs, getFileName e.key = name ∧
    (∀ (volumes : List V) seekable picked,
      unArchive archive volumes true (some name) seekable picked =
        .opened (preview archive volumes seekable e)) ∧
    (∀ (volumes : List V) seekable entryName,
      unArchive archive volumes false entryName seekable (.chose name) =
        .opened (preview archive volumes seekable e)) ∧
    selectEntry endsWith archive (some name) = some e

/-- The name is that of the first package, and no other package's key ends with
it. -/
def NamesFirst (endsWith : String → String → Bool) (archive : Archive) (name : String) : Prop :=
  ∃ e rest, archive.pkgs = e :: rest ∧ getFileName e.key = name ∧
    ∀ e' ∈ rest, endsWith e'.key name = false

/-- The names for which the package that is shown is the one that is named and the
one that is served.  Of several packages this is the first alone, and only if
its name is not the end of another one's key. -/
theorem preview_served_iff (V : Type) (endsWith : String → String → Bool)
    (hends : ∀ key, endsWith key (getFileName key) = true) (archive : Archive)
    (hmany : 2 ≤ archive.pkgs.length) (name : String) :
    PreviewServed V endsWith archive name ↔ NamesFirst endsWith archive name := by
  obtain ⟨first, tail, hpkgs⟩ :=
    List.exists_cons_of_length_pos (Nat.lt_of_lt_of_le Nat.two_pos hmany)
  rw [hpkgs, List.length_cons] at hmany
  obtain ⟨second, rest, rfl⟩ := List.exists_cons_of_length_pos (by omega : 0 < tail.length)
  have hselect : selectEntry endsWith archive (some name) =
      single (archive.pkgs.filter fun e => endsWith e.key name) :=
    if_neg (by rw [hpkgs]; simp)
  constructor
  · rintro ⟨e, he, hname, hsilent, -, hserved⟩
    have hopened := unArchive_named hpkgs ⟨e, he, hname⟩ (chosenName_silent he hname .cancelled)
      ([] : List V) false
    rw [hsilent] at hopened
    have hfirst : e = first := by
      injection hopened with hinfo
      exact congrArg (fun info => info.buffer.entry) hinfo
    subst hfirst
    refine ⟨e, second :: rest, hpkgs, hname, fun e' he' => ?_⟩
    rw [hselect, single_eq_some, hpkgs, List.filter_cons_of_pos (by rw [← hname, hends])]
      at hserved
    have hnone := (List.cons.inj hserved).2
    simpa using List.filter_eq_nil_iff.1 hnone e' he'
  · rintro ⟨e, rest', hpkgs', hname, hother⟩
    obtain ⟨rfl, rfl⟩ := List.cons.inj (hpkgs.symm.trans hpkgs')
    have hmem : first ∈ archive.pkgs := by
      rw [hpkgs]
      exact List.mem_cons_self
    refine ⟨first, hmem, hname, fun volumes seekable picked => ?_,
      fun volumes seekable entryName => ?_, ?_⟩
    · exact unArchive_named hpkgs ⟨first, hmem, hname⟩ (chosenName_silent hmem hname picked)
        volumes seekable
    · exact unArchive_named hpkgs ⟨first, hmem, hname⟩ rfl volumes seekable
    · rw [hselect, single_eq_some, hpkgs,
        List.filter_cons_of_pos (by rw [← hname, hends]), List.filter_eq_nil_iff.2]
      intro e' he'
      simpa using hother e' he'

/-- An archive with two packages. -/
def twoPackages : Archive where
  volumes := "game.rar"
  entries := [{ key := "game/base.pkg", size := 4 }, { key := "readme.txt", size := 1 },
    { key := "game/patch.pkg", size := 2 }]

theorem preview_served_firstPackage :
    PreviewServed Nat endsWithIgnoreCase twoPackages "base.pkg" :=
  (preview_served_iff Nat endsWithIgnoreCase endsWithIgnoreCase_getFileName twoPackages
    (by decide +kernel) "base.pkg").2
    ⟨{ key := "game/base.pkg", size := 4 }, [{ key := "game/patch.pkg", size := 2 }],
      by decide +kernel, by decide +kernel, by decide +kernel⟩

/-- The second package is picked, and the first is opened. -/
theorem preview_opens_another :
    unArchive twoPackages ([] : List Nat) false none true (.chose "patch.pkg") =
        .opened (preview twoPackages [] true { key := "game/base.pkg", size := 4 }) ∧
      ¬ PreviewServed Nat endsWithIgnoreCase twoPackages "patch.pkg" := by
  have hopened : unArchive twoPackages ([] : List Nat) false none true (.chose "patch.pkg") =
      .opened (preview twoPackages [] true { key := "game/base.pkg", size := 4 }) := by
    decide +kernel
  refine ⟨hopened, ?_⟩
  rintro ⟨e, -, hname, -, hpicked, -⟩
  rw [hpicked] at hopened
  injection hopened with hinfo
  have hentry : e = { key := "game/base.pkg", size := 4 } :=
    congrArg (fun info => info.buffer.entry) hinfo
  rw [hentry] at hname
  exact absurd hname (by decide +kernel)

end DirectPackageInstaller.Decompressor
