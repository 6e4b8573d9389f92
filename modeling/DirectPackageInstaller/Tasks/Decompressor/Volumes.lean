import DirectPackageInstaller.Lib.Arrange
import DirectPackageInstaller.Lib.TextCompare

/-!
# Selecting the volumes of an archive

`SortRarFiles` and `Sort7zFiles` sort the entries of a URL list by their file names
and drop those with another extension.  For RAR a loop moves a `.rar` to the place
of the `.r00` in front of it.  The names are sorted along with the entries, in a
second array.

`Array.Sort` is any function that sorts; it need not be stable.

* `fix_lists` and `sortRarLists_eq`: the loop as a walk over the items, in which every
  `.rar` goes in front of the last `.r00` before it (`Passed.add`).
* `sortRarLists_paired`: it neither loses an entry nor parts it from its name.
-/

namespace DirectPackageInstaller.Volumes

open Arrange Text

/-- What the platform says about paths and texts. -/
structure Platform where
  windows : Bool
  comparer : Comparer

/-! ## The code -/

def isDirectorySeparator (windows : Bool) (c : Char) : Bool :=
  c == '/' || windows && c == '\\'

/-- `Path.GetExtension`. -/
def getExtension (windows : Bool) (path : Text) : Text :=
  let tail := path.reverse.takeWhile fun c => c != '.' && !isDirectorySeparator windows c
  if path.reverse[tail.length]? = some '.' ∧ tail ≠ [] then '.' :: tail.reverse else []

/-- `Substring`, whose start counts code units; `none` where it throws.  The second half
of a pair shows as U+FFFD. -/
def substring : Text → Nat → Option Text
  | text, 0 => some text
  | [], _ + 1 => none
  | c :: rest, n + 1 =>
    if (codeUnits c).length ≤ n + 1 then substring rest (n + 1 - (codeUnits c).length)
    else some ('\uFFFD' :: rest)

/-- `int.TryParse`. -/
def isInt (text : Text) : Bool := (tryParse 32 text).isSome

/-- `Verify` of `SortRarFiles`. -/
def verifyRar (p : Platform) : Option Text → Option Bool
  | none => some true
  | some name =>
    let ext := getExtension p.windows name
    if p.comparer.equals ext ".rar".toList then some true
    else if p.comparer.startsWith ext ".r".toList then (substring ext 2).map isInt
    else some false

/-- `Verify` of `Sort7zFiles`. -/
def verify7z (p : Platform) : Option Text → Option Bool
  | none => some true
  | some name =>
    let ext := getExtension p.windows name
    if p.comparer.equals ext ".7z".toList then some true else (substring ext 1).map isInt

/-- The order of the names for `Array.Sort`. -/
def nameLe (c : Comparer) : Option Text → Option Text → Bool
  | none, _ => true
  | some _, none => false
  | some a, some b => c.le a b

theorem nameLe_total (c : Comparer) (a b : Option Text) :
    nameLe c a b = true ∨ nameLe c b a = true := by
  rcases a with _ | a
  · exact .inl rfl
  · rcases b with _ | b
    · exact .inr rfl
    · exact c.le_total a b

theorem nameLe_trans (c : Comparer) (a b d : Option Text) (hab : nameLe c a b = true)
    (hbd : nameLe c b d = true) : nameLe c a d = true := by
  rcases a with _ | a
  · rfl
  · rcases b with _ | b
    · cases hab
    · rcases d with _ | d
      · cases hbd
      · exact c.le_trans a b d hab hbd

/-- `Array.Sort(AllNames, AllEntries)`. -/
structure ArraySort (c : Comparer) (E : Type) where
  sort : List (Option Text × E) → List (Option Text × E)
  sorts : ∀ input, Sorts (fun a b => nameLe c a.1 b.1 = true) input (sort input)

/-- `ListEntries`, `ListNames` and `RarExtPart`. -/
structure Lists (E : Type) where
  entries : List E
  names : List (Option Text)
  rarExtPart : Option Nat
deriving DecidableEq, Repr

/-- An iteration of the loop of `SortRarFiles`; `none` where it throws. -/
def fix {E : Type} (c : Comparer) (l : Lists E) (i : Nat) : Option (Lists E) :=
  match l.names[i]? with
  | none => none
  | some none => some l
  | some (some currentName) =>
    if c.contains currentName ".part".toList then some l
    else if c.endsWith currentName ".r00".toList then some { l with rarExtPart := some i }
    else if c.endsWith currentName ".rar".toList then
      match l.rarExtPart with
      | none => some l
      | some part =>
        match moveItem l.entries i part, moveItem l.names i part with
        | some entries, some names => some ⟨entries, names, none⟩
        | _, _ => none
    else some l

section

variable {E : Type} (p : Platform) (sort : ArraySort p.comparer E) (filename : E → Option Text)

/-- The lists behind `Array.Sort`. -/
def sortedLists (entries : List E) : Lists E :=
  let sorted := sort.sort (entries.map fun e => (filename e, e))
  ⟨sorted.map Prod.snd, sorted.map Prod.fst, none⟩

/-- The lists behind the loop of `SortRarFiles`. -/
def sortRarLists (entries : List E) : Option (Lists E) :=
  (List.range entries.length).foldlM (fix p.comparer) (sortedLists p sort filename entries)

/-- `SortRarFiles`, enumerated; `none` where that throws. -/
def sortRarFiles (entries : List E) : Option (List E) :=
  match sortRarLists p sort filename entries with
  | none => none
  | some l => whereM (fun e => verifyRar p (filename e)) l.entries

/-- `Sort7zFiles`, enumerated. -/
def sort7zFiles (entries : List E) : Option (List E) :=
  whereM (fun e => verify7z p (filename e)) (sortedLists p sort filename entries).entries

end

/-! ## The loop -/

section

variable {E : Type} {p : Platform} {sort : ArraySort p.comparer E} {filename : E → Option Text}

variable (sort filename) in
theorem sortedLists_perm (entries : List E) :
    (sortedLists p sort filename entries).entries.Perm entries := by
  have hperm := (sort.sorts (entries.map fun e => (filename e, e))).1.map Prod.snd
  simpa [sortedLists, Function.comp_def] using hperm

variable (sort filename) in
theorem sortedLists_names (entries : List E) :
    (sortedLists p sort filename entries).names =
      (sortedLists p sort filename entries).entries.map filename := by
  simp only [sortedLists, List.map_map]
  refine List.map_congr_left fun pair hpair => ?_
  have hmem := (sort.sorts (entries.map fun e => (filename e, e))).1.mem_iff.1 hpair
  obtain ⟨e, -, rfl⟩ := List.mem_map.1 hmem
  rfl

/-- What the loop takes a name for. -/
inductive Mark where
  | r00
  | rar
  | other
deriving DecidableEq, Repr

def mark (c : Comparer) : Option Text → Mark
  | none => .other
  | some name =>
    if c.contains name ".part".toList then .other
    else if c.endsWith name ".r00".toList then .r00
    else if c.endsWith name ".rar".toList then .rar
    else .other

/-- The items that the loop has passed.  `pending` begins with a `.r00` that waits for
its `.rar`, and is empty where none does. -/
structure Passed (E : Type) where
  before : List E
  pending : List E

namespace Passed

def all (s : Passed E) : List E := s.before ++ s.pending

/-- The next item goes to the end, or in front of the `.r00`. -/
def add (s : Passed E) (item : E) : Mark → Passed E
  | .r00 => ⟨s.all, [item]⟩
  | .rar => ⟨s.before ++ item :: s.pending, []⟩
  | .other => if s.pending = [] then ⟨s.before ++ [item], []⟩ else ⟨s.before, s.pending ++ [item]⟩

/-- The lists of the loop. -/
def lists (filename : E → Option Text) (s : Passed E) (rest : List E) : Lists E where
  entries := s.all ++ rest
  names := (s.all ++ rest).map filename
  rarExtPart := if s.pending = [] then none else some s.before.length

theorem add_all_perm (s : Passed E) (item : E) (m : Mark) :
    (s.add item m).all.Perm (s.all ++ [item]) := by
  cases m with
  | r00 => exact .refl _
  | rar =>
    have hmove : (s.before ++ item :: s.pending).Perm (s.before ++ (s.pending ++ [item])) :=
      (List.perm_append_singleton item s.pending).symm.append_left s.before
    simpa [add, all] using hmove
  | other =>
    by_cases h : s.pending = []
    · simp [add, all, h]
    · simp [add, all, h]

/-- What the loop does with its lists is `add`. -/
theorem fix_lists (c : Comparer) (s : Passed E) (item : E) (rest : List E) :
    fix c (s.lists filename (item :: rest)) s.all.length =
      some ((s.add item (mark c (filename item))).lists filename rest) := by
  have hname : (s.lists filename (item :: rest)).names[s.all.length]? = some (filename item) := by
    simp [lists]
  have hstays : s.lists filename (item :: rest) = (s.add item .other).lists filename rest := by
    by_cases h : s.pending = []
    · simp [lists, add, all, h]
    · simp [lists, add, all, h]
  simp only [fix, hname, mark]
  cases filename item with
  | none => exact congrArg some hstays
  | some name =>
    dsimp only
    split
    · exact congrArg some hstays
    split
    · simp [lists, all, add]
    split
    · by_cases hpending : s.pending = []
      · simp [lists, all, add, hpending]
      · have hpart : (s.lists filename (item :: rest)).rarExtPart = some s.before.length := by
          simp [lists, hpending]
        have hentries : moveItem (s.lists filename (item :: rest)).entries s.all.length
            s.before.length = some (s.before ++ item :: s.pending ++ rest) := by
          rw [all, List.length_append]
          exact moveItem_append ..
        have hnames : moveItem (s.lists filename (item :: rest)).names s.all.length
            s.before.length = some ((s.before ++ item :: s.pending ++ rest).map filename) := by
          have hmap := moveItem_map filename (s.lists filename (item :: rest)).entries
            s.all.length s.before.length
          rw [hentries] at hmap
          exact hmap
        rw [hpart]
        dsimp only
        rw [hentries, hnames]
        simp [lists, all, add]
    · exact congrArg some hstays

/-- The loop goes on over the items. -/
def addAll (c : Comparer) (filename : E → Option Text) (s : Passed E) : List E → Passed E
  | [] => s
  | item :: rest => (s.add item (mark c (filename item))).addAll c filename rest

theorem addAll_append (c : Comparer) (s : Passed E) (items items' : List E) :
    s.addAll c filename (items ++ items') =
      (s.addAll c filename items).addAll c filename items' := by
  induction items generalizing s with
  | nil => rfl
  | cons item rest ih => exact ih _

theorem addAll_all_perm (c : Comparer) (s : Passed E) (items : List E) :
    (s.addAll c filename items).all.Perm (s.all ++ items) := by
  induction items generalizing s with
  | nil => simp [addAll]
  | cons item rest ih =>
    have hadd := (s.add_all_perm item (mark c (filename item))).append_right rest
    rw [List.append_assoc] at hadd
    exact (ih _).trans hadd

end Passed

/-- The items behind the whole loop. -/
def passed (c : Comparer) (filename : E → Option Text) (items : List E) : Passed E :=
  Passed.addAll c filename ⟨[], []⟩ items

theorem foldlM_fix_lists (c : Comparer) (s : Passed E) (items : List E) :
    (List.range' s.all.length items.length).foldlM (fix c) (s.lists filename items) =
      some ((s.addAll c filename items).lists filename []) := by
  induction items generalizing s with
  | nil => rfl
  | cons item rest ih =>
    have hlength := (s.add_all_perm item (mark c (filename item))).length_eq
    rw [List.length_append, List.length_singleton] at hlength
    rw [List.length_cons, List.range'_succ, List.foldlM_cons, Passed.fix_lists, ← hlength]
    exact ih _

variable (sort filename) in
/-- The loop passes the sorted entries. -/
theorem sortRarLists_eq (entries : List E) :
    sortRarLists p sort filename entries = some ((passed p.comparer filename
      (sortedLists p sort filename entries).entries).lists filename []) := by
  have hperm := sortedLists_perm sort filename entries
  have hlists : sortedLists p sort filename entries =
      Passed.lists filename ⟨[], []⟩ (sortedLists p sort filename entries).entries := by
    simp only [Passed.lists, Passed.all, List.nil_append, if_true]
    rw [← sortedLists_names]
    rfl
  unfold sortRarLists
  rw [List.range_eq_range', ← hperm.length_eq]
  conv_lhs => rw [hlists]
  exact foldlM_fix_lists p.comparer ⟨[], []⟩ _

theorem passed_perm (c : Comparer) (filename : E → Option Text) (items : List E) :
    (passed c filename items).all.Perm items :=
  Passed.addAll_all_perm c ⟨[], []⟩ items

variable (sort filename) in
/-- The whole loop gives back the entries, each at the index of its name. -/
theorem sortRarLists_paired (entries : List E) :
    ∃ l, sortRarLists p sort filename entries = some l ∧ l.names = l.entries.map filename ∧
      l.entries.Perm entries := by
  refine ⟨_, sortRarLists_eq sort filename entries, rfl, ?_⟩
  have hperm := (passed_perm p.comparer filename _).trans (sortedLists_perm sort filename entries)
  simpa [Passed.lists] using hperm

/-! ## The filters -/

theorem getExtension_cases (windows : Bool) (path : Text) :
    getExtension windows path = [] ∨
      ∃ c tail, getExtension windows path = '.' :: c :: tail := by
  unfold getExtension
  dsimp only
  split
  · next h =>
    obtain ⟨c, tail, htail⟩ := List.exists_cons_of_ne_nil (List.reverse_ne_nil_iff.2 h.2)
    exact .inr ⟨c, tail, by rw [htail]⟩
  · exact .inl rfl

theorem codeUnits_length (c : Char) : (codeUnits c).length = 1 ∨ (codeUnits c).length = 2 := by
  unfold codeUnits
  split
  · exact .inl rfl
  · exact .inr rfl

/-- Behind the dot, `Substring(1)`. -/
theorem substring_dot (tail : Text) : substring ('.' :: tail) 1 = some tail := by
  cases tail <;> rfl

theorem substring_dot_two (c : Char) (tail : Text) :
    ∃ number, substring ('.' :: c :: tail) 2 = some number := by
  have hskip : substring ('.' :: c :: tail) 2 = substring (c :: tail) 1 := rfl
  rw [hskip, substring]
  rcases codeUnits_length c with h | h
  · rw [h]
    exact ⟨tail, by cases tail <;> rfl⟩
  · rw [h]
    exact ⟨_, rfl⟩

/-- The name carries `.rar`, or `.r` and an integer. -/
def carriesRar (p : Platform) (name : Text) : Bool :=
  let ext := getExtension p.windows name
  p.comparer.equals ext ".rar".toList ||
    p.comparer.startsWith ext ".r".toList && (substring ext 2).any isInt

/-- The name carries `.7z` or an integer extension. -/
def carries7z (p : Platform) (name : Text) : Bool :=
  let ext := getExtension p.windows name
  p.comparer.equals ext ".7z".toList || (substring ext 1).any isInt

/-- Names that are missing pass. -/
def accepts (carries : Text → Bool) : Option Text → Bool
  | none => true
  | some name => carries name

theorem unlike_nil (c : Comparer) {b : Text} (h : ∃ d ∈ b, d.isAlpha = true) :
    c.equals [] b = false ∧ c.startsWith [] b = false :=
  c.letters [] b rfl h

/-- The RAR filter never throws: what starts with `.r` has two code units. -/
theorem verifyRar_eq (p : Platform) (name : Option Text) :
    verifyRar p name = some (accepts (carriesRar p) name) := by
  cases name with
  | none => rfl
  | some name =>
    simp only [verifyRar, accepts, carriesRar]
    rcases getExtension_cases p.windows name with hext | ⟨c, tail, hext⟩
    · have hrar := @unlike_nil p.comparer ".rar".toList ⟨'r', by decide, rfl⟩
      have hr := @unlike_nil p.comparer ".r".toList ⟨'r', by decide, rfl⟩
      rw [hext, hrar.1, hr.2]
      rfl
    · obtain ⟨number, hnumber⟩ := substring_dot_two c tail
      rw [hext, hnumber]
      cases p.comparer.equals ('.' :: c :: tail) ".rar".toList <;>
        cases p.comparer.startsWith ('.' :: c :: tail) ".r".toList <;> rfl

/-- The 7z filter throws at a name without an extension. -/
theorem verify7z_eq (p : Platform) {name : Option Text}
    (h : ∀ text, name = some text → getExtension p.windows text ≠ []) :
    verify7z p name = some (accepts (carries7z p) name) := by
  cases name with
  | none => rfl
  | some name =>
    simp only [verify7z, accepts, carries7z]
    rcases getExtension_cases p.windows name with hext | ⟨c, tail, hext⟩
    · exact absurd hext (h name rfl)
    · rw [hext, substring_dot]
      cases p.comparer.equals ('.' :: c :: tail) ".7z".toList <;> rfl

theorem verify7z_eq_none (p : Platform) {name : Text} (h : getExtension p.windows name = []) :
    verify7z p (some name) = none := by
  have h7z := @unlike_nil p.comparer ".7z".toList ⟨'z', by decide, rfl⟩
  simp only [verify7z, h, h7z.1]
  rfl

/-! ## The selections -/

variable (sort filename) in
/-- The loop passes the sorted entries, and the accepted ones come out. -/
theorem sortRarFiles_eq (entries : List E) :
    sortRarFiles p sort filename entries = some ((passed p.comparer filename
      (sortedLists p sort filename entries).entries).all.filter fun e =>
        accepts (carriesRar p) (filename e)) := by
  simp only [sortRarFiles, sortRarLists_eq, Passed.lists, List.append_nil]
  exact whereM_eq_filter fun e _ => verifyRar_eq p (filename e)

/-- Every name has an extension. -/
def HasExtensions (p : Platform) (filename : E → Option Text) (entries : List E) : Prop :=
  ∀ e ∈ entries, ∀ name, filename e = some name → getExtension p.windows name ≠ []

theorem sort7zFiles_eq {entries : List E} (hext : HasExtensions p filename entries) :
    sort7zFiles p sort filename entries = some
      ((sortedLists p sort filename entries).entries.filter fun e =>
        accepts (carries7z p) (filename e)) :=
  whereM_eq_filter fun e he =>
    verify7z_eq p (hext e ((sortedLists_perm sort filename entries).mem_iff.1 he))

/-- `Array.Sort` as an insertion sort. -/
def insertionSort (c : Comparer) (E : Type) : ArraySort c E where
  sort := List.insertionSort fun a b => nameLe c a.1 b.1 = true
  sorts := Sorts.insertionSort _ (fun a b => nameLe_total c a.1 b.1)
    fun a b d => nameLe_trans c a.1 b.1 d.1

end

end DirectPackageInstaller.Volumes
