import DirectPackageInstaller.Tasks.Decompressor.Volumes

/-!
# The order of RAR volumes

The volumes of an archive are numbered behind `.part`, with or without zeros in front,
or they are `.rar`, `.r00`, `.r01` and so on.  `SortRarFiles` gets them in any order.

* `sortRarFiles_parts`: names in the new style come out as the sort leaves them.
* `sortRarFiles_width`, `sortRarFiles_ten` and `sortRarFiles_old`: what comes of each
  style.
* `sortRarFiles_order_iff`: the styles, lengths and base names for which this is the
  order of the volumes.
-/

namespace DirectPackageInstaller.Volumes

open Arrange Text

/-! ## The names of volumes -/

/-- `base.partN.rar`. -/
def partName (base number : Text) : Text := base ++ ".part".toList ++ number ++ ".rar".toList

def rarName (base : Text) : Text := base ++ ".rar".toList

/-- `base.rNN`. -/
def rName (base : Text) (n : Nat) : Text := base ++ ".r".toList ++ padded 2 n

/-- How the volumes of an archive are named. -/
inductive Style where
  | unpadded
  | padded (width : Nat)
  | old
deriving DecidableEq, Repr

/-- The names of `k` volumes, in their order. -/
def Style.names (base : Text) (k : Nat) : Style → List Text
  | .unpadded => (List.range k).map fun i => partName base (decimal (i + 1))
  | .padded width => (List.range k).map fun i => partName base (Text.padded width (i + 1))
  | .old => if k = 0 then [] else rarName base :: (List.range (k - 1)).map (rName base)

/-- The style has names for `k` volumes. -/
def Style.Names (k : Nat) : Style → Prop
  | .unpadded => True
  | .padded width => (decimal k).length ≤ width
  | .old => k ≤ 101

/-- The volumes come out in order: the numbers have one width, or no name contains
`.part` that the loop has to see. -/
def Style.InOrder (c : Comparer) (base : Text) (k : Nat) : Style → Prop
  | .unpadded => k ≤ 9
  | .padded _ => True
  | .old => k ≤ 1 ∨ c.contains (rarName base) ".part".toList = false ∧
      c.contains (rName base 0) ".part".toList = false

section

variable {E : Type} {p : Platform} {sort : ArraySort p.comparer E} {filename : E → Option Text}

/-! ## Extensions -/

theorem getExtension_append (windows : Bool) (front : Text) {tail : Text} (hne : tail ≠ [])
    (h : ∀ c ∈ tail, c ≠ '.' ∧ isDirectorySeparator windows c = false) :
    getExtension windows (front ++ '.' :: tail) = '.' :: tail := by
  have hreverse : (front ++ '.' :: tail).reverse = tail.reverse ++ '.' :: front.reverse := by
    simp
  have htake : (tail.reverse ++ '.' :: front.reverse).takeWhile
      (fun c => c != '.' && !isDirectorySeparator windows c) = tail.reverse := by
    rw [List.takeWhile_append_of_pos]
    · simp
    · intro c hc
      obtain ⟨hdot, hsep⟩ := h c (List.mem_reverse.1 hc)
      simp [hdot, hsep]
  simp only [getExtension, hreverse, htake]
  rw [if_pos ⟨by simp, by simpa using hne⟩, List.reverse_reverse]

theorem not_separator_of_alphanum {windows : Bool} {c : Char} (h : c.isAlphanum = true) :
    c ≠ '.' ∧ isDirectorySeparator windows c = false := by
  have hother : ∀ d : Char, d.isAlphanum = false → c ≠ d := by
    rintro d hd rfl
    rw [h] at hd
    cases hd
  refine ⟨hother '.' rfl, ?_⟩
  simp [isDirectorySeparator, hother '/' rfl, hother '\\' rfl]

/-- A name that ends in `.rar` carries it. -/
theorem carriesRar_rar (p : Platform) (front : Text) :
    carriesRar p (front ++ ".rar".toList) = true := by
  have halphanum : "rar".toList.all Char.isAlphanum = true := by decide
  have hext : getExtension p.windows (front ++ ".rar".toList) = ".rar".toList :=
    getExtension_append p.windows front (by decide) fun c hc =>
      not_separator_of_alphanum (List.all_eq_true.1 halphanum c hc)
  have hequals : p.comparer.equals ".rar".toList ".rar".toList = true :=
    (p.comparer.equals_plain _ _ (by decide) (by decide)).2 rfl
  simp only [carriesRar, hext, hequals, Bool.true_or]

theorem alphanum_of_digit {c : Char} (h : c.isDigit = true) : c.isAlphanum = true := by
  simp [Char.isAlphanum, h]

/-- A name that ends in `.r` and digits carries them. -/
theorem carriesRar_digits (p : Platform) (front : Text) {number : Text} {n : Nat}
    (h : Digits number n) (hn : (n : Int) < 2 ^ (32 - 1)) :
    carriesRar p (front ++ ".r".toList ++ number) = true := by
  have halphanum : ∀ c ∈ 'r' :: number, c.isAlphanum = true := by
    intro c hc
    rcases List.mem_cons.1 hc with rfl | hc
    · rfl
    · exact alphanum_of_digit (h.digit c hc)
  have hext : getExtension p.windows (front ++ ".r".toList ++ number) = '.' :: 'r' :: number := by
    rw [List.append_assoc]
    exact getExtension_append p.windows front (by simp) fun c hc =>
      not_separator_of_alphanum (halphanum c hc)
  have hplain : Plain ('.' :: 'r' :: number) := by
    refine List.all_eq_true.2 fun c hc => ?_
    rcases List.mem_cons.1 hc with rfl | hc
    · rfl
    · simp [isPlain, halphanum c hc]
  have hstarts : p.comparer.startsWith ('.' :: 'r' :: number) ".r".toList = true :=
    (p.comparer.startsWith_plain _ _ hplain (by decide)).2 ⟨lower number, rfl⟩
  have hsubstring : substring ('.' :: 'r' :: number) 2 = some number := by
    cases number <;> rfl
  have hint : isInt number = true := by
    rw [isInt, tryParse_digits h hn]
    rfl
  simp only [carriesRar, hext, hstarts, hsubstring, Option.any_some, hint, Bool.and_self,
    Bool.or_true]

/-! ## The tests of the loop -/

theorem endsWith_rar (c : Comparer) (front : Text) :
    c.endsWith (front ++ ".rar".toList) ".rar".toList = true ∧
      c.endsWith (front ++ ".rar".toList) ".r00".toList = false := by
  have hrar := c.endsWith_plain front ".rar".toList ".rar".toList (by decide) (by decide) rfl rfl
  have hr00 := c.endsWith_plain front ".rar".toList ".r00".toList (by decide) (by decide) rfl rfl
  refine ⟨hrar.2 rfl, Bool.eq_false_iff.2 fun h => ?_⟩
  exact absurd (hr00.1 h) (by decide)

theorem toLower_digit {d : Char} (h : d.isDigit = true) : d.toLower = d :=
  toLower_of_not_alpha (not_alpha_of_letterFree (by simp [isLetterFree, h]))

theorem rName_eq (base : Text) {n : Nat} (h : n < 100) :
    ∃ x y : Char, padded 2 n = [x, y] ∧ x.isDigit = true ∧ y.isDigit = true ∧
      rName base n = base ++ ['.', 'r', x, y] := by
  have hlength : (padded 2 n).length = 2 :=
    padded_length ((Nat.length_toDigits_le_iff (by decide) (by decide)).2 h)
  obtain ⟨x, y, hxy⟩ := List.length_eq_two.1 hlength
  refine ⟨x, y, hxy, (digits_padded 2 n).digit x ?_, (digits_padded 2 n).digit y ?_, ?_⟩
  · simp [hxy]
  · simp [hxy]
  · simp [rName, hxy]

/-- Only `.r00` is taken for the second volume. -/
theorem endsWith_r (c : Comparer) (base : Text) {n : Nat} (h : n < 100) :
    c.endsWith (rName base n) ".rar".toList = false ∧
      (c.endsWith (rName base n) ".r00".toList = true ↔ n = 0) := by
  obtain ⟨x, y, hxy, hx, hy, hname⟩ := rName_eq base h
  have hplain : Plain ['.', 'r', x, y] := by
    have hx := alphanum_of_digit hx
    have hy := alphanum_of_digit hy
    simp only [Plain, isPlain, List.all_cons, hx, hy]
    rfl
  have hlower : lower ['.', 'r', x, y] = ['.', 'r', x, y] := by
    simp only [lower, List.map_cons, toLower_digit hx, toLower_digit hy]
    rfl
  have hrar := c.endsWith_plain base ['.', 'r', x, y] ".rar".toList hplain (by decide) rfl rfl
  have hr00 := c.endsWith_plain base ['.', 'r', x, y] ".r00".toList hplain (by decide) rfl rfl
  rw [hlower] at hrar hr00
  rw [hname, hr00]
  constructor
  · refine Bool.eq_false_iff.2 fun h => ?_
    have htail : [x, y] = ['a', 'r'] := congrArg (List.drop 2) (hrar.1 h)
    rw [(List.cons.inj htail).1] at hx
    cases hx
  · have hvalue := (digits_padded 2 n).value
    rw [hxy] at hvalue
    constructor
    · intro heq
      have htail : [x, y] = ['0', '0'] := congrArg (List.drop 2) heq
      rw [htail] at hvalue
      exact hvalue.symm
    · rintro rfl
      have htail : ['0', '0'] = [x, y] := hxy
      exact congrArg (['.', 'r'] ++ ·) htail.symm

theorem mark_rar (c : Comparer) (front : Text) :
    mark c (some (front ++ ".rar".toList)) =
      if c.contains (front ++ ".rar".toList) ".part".toList then .other else .rar := by
  obtain ⟨hrar, hr00⟩ := endsWith_rar c front
  simp only [mark, hrar, hr00, Bool.false_eq_true, if_false, if_true]

theorem mark_r (c : Comparer) (base : Text) {n : Nat} (h : n < 100) :
    mark c (some (rName base n)) =
      if n = 0 ∧ c.contains (rName base n) ".part".toList = false then .r00 else .other := by
  obtain ⟨hrar, hr00⟩ := endsWith_r c base h
  cases hpart : c.contains (rName base n) ".part".toList <;> by_cases hn : n = 0 <;>
    simp_all [mark]

/-- Without a `.r00` nothing is moved. -/
theorem addAll_of_no_r00 {c : Comparer} {front items : List E}
    (h : ∀ e ∈ items, mark c (filename e) ≠ .r00) :
    Passed.addAll c filename ⟨front, []⟩ items = ⟨front ++ items, []⟩ := by
  induction items generalizing front with
  | nil => simp [Passed.addAll]
  | cons item rest ih =>
    have hadd : Passed.add ⟨front, []⟩ item (mark c (filename item)) = ⟨front ++ [item], []⟩ := by
      cases hmark : mark c (filename item) with
      | r00 => exact absurd hmark (h item List.mem_cons_self)
      | rar | other => rfl
    rw [Passed.addAll, hadd, ih fun e he => h e (List.mem_cons_of_mem _ he)]
    simp

/-- Behind a `.r00` the other volumes wait with it. -/
theorem addAll_of_waiting {c : Comparer} {first : E} {waiting items : List E}
    (h : ∀ e ∈ items, mark c (filename e) = .other) :
    Passed.addAll c filename ⟨[], first :: waiting⟩ items = ⟨[], first :: waiting ++ items⟩ := by
  induction items generalizing waiting with
  | nil => simp [Passed.addAll]
  | cons item rest ih =>
    have hadd : Passed.add ⟨[], first :: waiting⟩ item (mark c (filename item)) =
        ⟨[], first :: (waiting ++ [item])⟩ := by
      rw [h item List.mem_cons_self]
      rfl
    rw [Passed.addAll, hadd, ih fun e he => h e (List.mem_cons_of_mem _ he)]
    simp

/-! ## The sorted names -/

/-- Each name comes before the next ones. -/
def Increasing (c : Comparer) (names : List Text) : Prop :=
  names.Pairwise fun a b => c.le b a = false

/-- Entries with increasing names have only one order. -/
theorem sortedLists_increasing {entries volumes : List E} {names : List Text}
    (hperm : entries.Perm volumes) (hnames : volumes.map filename = names.map some)
    (h : Increasing p.comparer names) :
    sortedLists p sort filename entries = ⟨volumes, names.map some, none⟩ := by
  have hpairs : (volumes.map fun e => (filename e, e)).Pairwise fun a b =>
      nameLe p.comparer a.1 b.1 = true ∧ ¬nameLe p.comparer b.1 a.1 = true := by
    have hoptions : (volumes.map filename).Pairwise fun a b =>
        nameLe p.comparer a b = true ∧ ¬nameLe p.comparer b a = true := by
      rw [hnames, List.pairwise_map]
      refine h.imp fun {a b} hba => ⟨?_, by simp [nameLe, hba]⟩
      exact (p.comparer.le_total a b).resolve_right (by simp [hba])
    rw [List.pairwise_map] at hoptions ⊢
    exact hoptions
  have hsorted := (sort.sorts (entries.map fun e => (filename e, e))).eq_of_increasing
    (hperm.map _) hpairs
  simp only [sortedLists, hsorted, ← hnames, List.map_map, Function.comp_def, List.map_id']

theorem whereM_verifyRar {entries : List E}
    (h : ∀ e ∈ entries, ∃ name, filename e = some name ∧ carriesRar p name = true) :
    whereM (fun e => verifyRar p (filename e)) entries = some entries := by
  rw [whereM_eq_filter fun e _ => verifyRar_eq p (filename e), List.filter_eq_self.2]
  intro e he
  obtain ⟨name, hname, hcarries⟩ := h e he
  rw [hname]
  exact hcarries

/-- Names that all end in `.rar` come out as the sort leaves them. -/
theorem sortRarFiles_parts {entries : List E}
    (h : ∀ e ∈ entries, ∃ front, filename e = some (front ++ ".rar".toList)) :
    sortRarFiles p sort filename entries =
      some (sortedLists p sort filename entries).entries := by
  have hperm := sortedLists_perm sort filename entries
  have hloop : passed p.comparer filename (sortedLists p sort filename entries).entries =
      ⟨(sortedLists p sort filename entries).entries, []⟩ := by
    refine addAll_of_no_r00 fun e he => ?_
    obtain ⟨front, hfront⟩ := h e (hperm.mem_iff.1 he)
    rw [hfront, mark_rar]
    split <;> rintro ⟨⟩
  simp only [sortRarFiles, sortRarLists_eq, hloop, Passed.lists, Passed.all, List.append_nil]
  refine whereM_verifyRar fun e he => ?_
  obtain ⟨front, hfront⟩ := h e (hperm.mem_iff.1 he)
  exact ⟨_, hfront, carriesRar_rar p front⟩

variable (sort filename) in
theorem sortedLists_names_pairwise (entries : List E) :
    (sortedLists p sort filename entries).names.Pairwise
      fun a b => nameLe p.comparer a b = true := by
  simp only [sortedLists, List.pairwise_map]
  exact (sort.sorts _).2

/-! ## The new style -/

theorem increasing_numbers (c : Comparer) (front tail : Text) (number : Nat → Text)
    {k first width : Nat}
    (h : ∀ i < k, Digits (number i) (first + i) ∧ (number i).length = width) :
    Increasing c ((List.range k).map fun i => front ++ number i ++ tail) := by
  refine List.pairwise_map.2 (List.pairwise_lt_range.imp_of_mem fun {i j} hi hj hij => ?_)
  obtain ⟨hdigits, hlength⟩ := h i (List.mem_range.1 hi)
  obtain ⟨hdigits', hlength'⟩ := h j (List.mem_range.1 hj)
  exact c.le_numbers hdigits hdigits' (hlength.trans hlength'.symm) (by omega) front tail tail

/-- Every entry is called as one of the volumes. -/
theorem entry_name {entries volumes : List E} {names : List Text} (hperm : entries.Perm volumes)
    (hnames : volumes.map filename = names.map some) {e : E} (he : e ∈ entries) :
    ∃ name ∈ names, filename e = some name := by
  have hmem : filename e ∈ names.map some := by
    rw [← hnames]
    exact List.mem_map_of_mem (hperm.mem_iff.1 he)
  obtain ⟨name, hname, heq⟩ := List.mem_map.1 hmem
  exact ⟨name, hname, heq.symm⟩

theorem sortRarFiles_new {entries volumes : List E} {base : Text} {number : Nat → Text} {k : Nat}
    (hperm : entries.Perm volumes)
    (hnames : volumes.map filename =
      ((List.range k).map fun i => partName base (number i)).map some) :
    sortRarFiles p sort filename entries =
      some (sortedLists p sort filename entries).entries := by
  refine sortRarFiles_parts fun e he => ?_
  obtain ⟨name, hname, heq⟩ := entry_name hperm hnames he
  obtain ⟨i, -, rfl⟩ := List.mem_map.1 hname
  exact ⟨_, heq⟩

/-- Numbers of one width come out in order. -/
theorem sortRarFiles_width {entries volumes : List E} {base : Text} (number : Nat → Text)
    {k : Nat} (width : Nat) (hperm : entries.Perm volumes)
    (hnames : volumes.map filename =
      ((List.range k).map fun i => partName base (number i)).map some)
    (h : ∀ i < k, Digits (number i) (1 + i) ∧ (number i).length = width) :
    sortRarFiles p sort filename entries = some volumes := by
  rw [sortRarFiles_new hperm hnames, sortedLists_increasing hperm hnames]
  exact increasing_numbers p.comparer (base ++ ".part".toList) ".rar".toList number h

/-- Volume 10 comes before volume 2. -/
theorem sortRarFiles_ten {entries volumes : List E} {base : Text} {k : Nat} (hk : 10 ≤ k)
    (hperm : entries.Perm volumes)
    (hnames : volumes.map filename = (Style.unpadded.names base k).map some) :
    sortRarFiles p sort filename entries ≠ some volumes := by
  rw [sortRarFiles_new hperm hnames]
  intro h
  have hsorted := sortedLists_names_pairwise sort filename entries
  rw [sortedLists_names sort filename entries, Option.some.inj h, hnames, List.pairwise_map,
    Style.names, List.pairwise_map] at hsorted
  have hle : p.comparer.le (partName base (decimal 2)) (partName base (decimal 10)) = true := by
    have := List.pairwise_iff_getElem.1 hsorted 1 9 (by simp; omega) (by simp; omega) (by decide)
    simpa [nameLe] using this
  have hlt := p.comparer.le_digits (base ++ ".part".toList) '1' '2' ".rar".toList
    "0.rar".toList rfl rfl (by decide)
  have htwo : partName base (decimal 2) = base ++ ".part".toList ++ '2' :: ".rar".toList :=
    List.append_assoc ..
  have hten : partName base (decimal 10) = base ++ ".part".toList ++ '1' :: "0.rar".toList :=
    List.append_assoc ..
  rw [htwo, hten, hlt] at hle
  cases hle

/-! ## The old style -/

theorem increasing_old (c : Comparer) (base : Text) {m : Nat} (hm : m ≤ 100) :
    Increasing c ((List.range m).map (rName base) ++ [rarName base]) := by
  refine List.pairwise_append.2 ⟨?_, List.pairwise_singleton _ _, ?_⟩
  · have hnumbers : ∀ i < m, Digits (padded 2 i) (0 + i) ∧ (padded 2 i).length = 2 := by
      intro i hi
      rw [Nat.zero_add]
      exact ⟨digits_padded 2 i, padded_length
        ((Nat.length_toDigits_le_iff (by decide) (by decide)).2 (by omega))⟩
    have h := increasing_numbers c (base ++ ".r".toList) [] (padded 2) hnumbers
    simp only [List.append_nil] at h
    exact h
  · intro name hname last hlast
    obtain ⟨i, hi, rfl⟩ := List.mem_map.1 hname
    obtain rfl := List.mem_singleton.1 hlast
    obtain ⟨x, y, -, hx, -, heq⟩ := rName_eq base (n := i) (by
      have := List.mem_range.1 hi
      omega)
    rw [heq]
    exact c.le_letters base x [y] hx

/-- A single volume is in order. -/
theorem sortRarFiles_single {entries volumes : List E} {base : Text}
    (hperm : entries.Perm volumes) (hnames : volumes.map filename = [some (rarName base)]) :
    sortRarFiles p sort filename entries = some volumes := by
  have hnames : volumes.map filename = [rarName base].map some := hnames
  rw [sortRarFiles_parts, sortedLists_increasing hperm hnames (List.pairwise_singleton _ _)]
  intro e he
  obtain ⟨name, hname, heq⟩ := entry_name hperm hnames he
  exact ⟨base, heq.trans (congrArg some (List.mem_singleton.1 hname))⟩

/-- The sort puts `.rar` behind the other volumes. -/
theorem sortedLists_old {entries rest : List E} {volume : E} {base : Text} {m : Nat}
    (hm : m + 1 ≤ 100) (hperm : entries.Perm (volume :: rest))
    (hvolume : filename volume = some (rarName base))
    (hrest : rest.map filename = ((List.range (m + 1)).map (rName base)).map some) :
    (sortedLists p sort filename entries).entries = rest ++ [volume] := by
  rw [sortedLists_increasing (hperm.trans ?_) ?_ (increasing_old p.comparer base hm)]
  · exact (List.perm_append_singleton volume rest).symm
  · rw [List.map_append, hrest, List.map_append, List.map_singleton, hvolume]
    rfl

/-- Behind the `.r00` the loop waits over the other volumes. -/
theorem mark_of_old {rest : List E} {base : Text} {m : Nat} (hm : m + 1 ≤ 100)
    (hrest : rest.map filename = ((List.range (m + 1)).map (rName base)).map some) :
    ∃ first tail, rest = first :: tail ∧ filename first = some (rName base 0) ∧
      ∀ e ∈ tail, mark p.comparer (filename e) = .other := by
  rw [List.range_succ_eq_map, List.map_cons, List.map_cons] at hrest
  obtain ⟨first, tail, rfl, hfirst, htail⟩ := List.map_eq_cons_iff.1 hrest
  refine ⟨first, tail, rfl, hfirst, fun e he => ?_⟩
  have hname := List.mem_map_of_mem (f := filename) he
  rw [htail] at hname
  obtain ⟨name, hname, heq⟩ := List.mem_map.1 hname
  obtain ⟨n, hn, rfl⟩ := List.mem_map.1 hname
  obtain ⟨i, hi, rfl⟩ := List.mem_map.1 hn
  have hi := List.mem_range.1 hi
  rw [← heq, mark_r p.comparer base (by omega), if_neg fun h => absurd h.1 (by omega)]

variable (sort) in
/-- What the loop does with two volumes and more: `.rar` is moved to the front unless
it or `.r00` is skipped. -/
theorem sortRarLists_old {entries rest : List E} {volume : E} {base : Text} {m : Nat}
    (hm : m + 1 ≤ 100) (hperm : entries.Perm (volume :: rest))
    (hvolume : filename volume = some (rarName base))
    (hrest : rest.map filename = ((List.range (m + 1)).map (rName base)).map some) :
    (sortRarLists p sort filename entries).map Lists.entries =
      some (if p.comparer.contains (rarName base) ".part".toList = false ∧
        p.comparer.contains (rName base 0) ".part".toList = false then volume :: rest
      else rest ++ [volume]) := by
  rw [sortRarLists_eq, sortedLists_old hm hperm hvolume hrest, Option.map_some]
  obtain ⟨first, tail, rfl, hfirst, htail⟩ := @mark_of_old E p filename rest base m hm hrest
  have hmark : mark p.comparer (filename volume) =
      if p.comparer.contains (rarName base) ".part".toList then .other else .rar := by
    rw [hvolume]
    exact mark_rar p.comparer base
  have hmark0 := mark_r p.comparer base (n := 0) (by decide)
  rw [← hfirst] at hmark0
  cases hr00 : p.comparer.contains (rName base 0) ".part".toList with
  | true =>
    -- the `.r00` is skipped
    rw [passed, addAll_of_no_r00]
    · simp [Passed.lists, Passed.all]
    · intro e he
      rcases List.mem_append.1 he with he | he
      · rcases List.mem_cons.1 he with rfl | he
        · rw [hmark0, hr00]
          rintro ⟨⟩
        · rw [htail e he]
          rintro ⟨⟩
      · rw [List.mem_singleton.1 he, hmark]
        split <;> rintro ⟨⟩
  | false =>
    rw [hr00] at hmark0
    have hfirst : mark p.comparer (filename first) = .r00 := hmark0.trans (if_pos ⟨rfl, rfl⟩)
    have hwaiting : Passed.addAll p.comparer filename ⟨[], []⟩ (first :: tail) =
        ⟨[], first :: tail⟩ := by
      rw [Passed.addAll, hfirst]
      exact addAll_of_waiting htail
    rw [passed, Passed.addAll_append, hwaiting, Passed.addAll, Passed.addAll, hmark]
    cases p.comparer.contains (rarName base) ".part".toList <;>
      simp [Passed.add, Passed.lists, Passed.all]

/-- In the old style the volumes are in order unless a name is skipped. -/
theorem sortRarFiles_old {entries rest : List E} {volume : E} {base : Text} {m : Nat}
    (hm : m + 1 ≤ 100) (hperm : entries.Perm (volume :: rest))
    (hvolume : filename volume = some (rarName base))
    (hrest : rest.map filename = ((List.range (m + 1)).map (rName base)).map some) :
    sortRarFiles p sort filename entries = some (volume :: rest) ↔
      p.comparer.contains (rarName base) ".part".toList = false ∧
        p.comparer.contains (rName base 0) ".part".toList = false := by
  have hlists := sortRarLists_old sort hm hperm hvolume hrest
  obtain ⟨l, hl, hentries⟩ := Option.map_eq_some_iff.1 hlists
  have hlperm : l.entries.Perm (volume :: rest) := by
    obtain ⟨l', hl', -, hperm'⟩ :=
      sortRarLists_paired sort filename entries
    obtain rfl := Option.some.inj (hl.symm.trans hl')
    exact hperm'.trans hperm
  have haccepted : ∀ e ∈ l.entries, ∃ name, filename e = some name ∧ carriesRar p name = true := by
    have hnames : (volume :: rest).map filename =
        (rarName base :: (List.range (m + 1)).map (rName base)).map some := by
      rw [List.map_cons, List.map_cons, hvolume, hrest]
    intro e he
    obtain ⟨name, hname, heq⟩ := entry_name hlperm hnames he
    refine ⟨name, heq, ?_⟩
    rcases List.mem_cons.1 hname with rfl | hname
    · exact carriesRar_rar p base
    · obtain ⟨i, hi, rfl⟩ := List.mem_map.1 hname
      have hi := List.mem_range.1 hi
      exact carriesRar_digits p base (digits_padded 2 i) (by omega)
  simp only [sortRarFiles, hl, whereM_verifyRar haccepted, Option.some.injEq]
  rw [hentries]
  split
  · next h => exact ⟨fun _ => h, fun _ => rfl⟩
  · next h =>
    refine ⟨fun heq => ?_, fun h' => absurd h' h⟩
    -- the first volume would be `.rar` and `.r00`
    cases rest with
    | nil => simp at hrest
    | cons second rest =>
      have hsecond : second = volume := (List.cons.inj heq).1
      rw [List.range_succ_eq_map, List.map_cons, List.map_cons, List.map_cons] at hrest
      have hname := (List.cons.inj hrest).1
      rw [hsecond, hvolume] at hname
      have htail := List.append_cancel_left ((Option.some.inj hname).trans (List.append_assoc ..))
      exact absurd htail (by decide)

/-- The complete volume list comes out in order exactly in these cases. -/
theorem sortRarFiles_order_iff (p : Platform) (sort : ArraySort p.comparer E)
    (filename : E → Option Text) (style : Style) (base : Text) {k : Nat} (hk : style.Names k)
    {entries volumes : List E} (hperm : entries.Perm volumes)
    (hnames : volumes.map filename = (style.names base k).map some) :
    sortRarFiles p sort filename entries = some volumes ↔ style.InOrder p.comparer base k := by
  cases style with
  | unpadded =>
    refine ⟨fun h => ?_, fun h => sortRarFiles_width _ 1 hperm hnames fun i hi => ?_⟩
    · by_contra hk
      exact sortRarFiles_ten (Nat.lt_of_not_le hk) hperm hnames h
    · have h : k ≤ 9 := h
      rw [Nat.add_comm]
      exact ⟨digits_decimal _, by rw [decimal_of_lt (by omega)]; rfl⟩
  | padded width =>
    refine ⟨fun _ => trivial, fun _ =>
      sortRarFiles_width (fun i => Text.padded width (i + 1)) width hperm hnames fun i hi => ?_⟩
    rw [Nat.add_comm 1 i]
    exact ⟨digits_padded width _, padded_length ((decimal_length_mono hi).trans hk)⟩
  | old =>
    have hk : k ≤ 101 := hk
    rcases k with _ | _ | m
    · obtain rfl := List.map_eq_nil_iff.1 hnames
      refine ⟨fun _ => .inl (Nat.zero_le _), fun _ => ?_⟩
      obtain rfl := hperm.eq_nil
      have hsorted := sortedLists_perm sort filename []
      rw [sortRarFiles_parts fun e he => absurd he List.not_mem_nil, hsorted.eq_nil]
    · exact ⟨fun _ => .inl (Nat.le_refl _), fun _ => sortRarFiles_single hperm hnames⟩
    · obtain ⟨volume, rest, rfl, hvolume, hrest⟩ := List.map_eq_cons_iff.1 hnames
      rw [sortRarFiles_old (by omega) hperm hvolume hrest]
      exact ⟨.inr, fun h => h.resolve_left (by omega)⟩

end

theorem sortRarFiles_order_twoVolumes :
    sortRarFiles ⟨false, ordinal⟩ (insertionSort ordinal Text) some
      ["a.r00".toList, "a.rar".toList] = some ["a.rar".toList, "a.r00".toList] ↔
      Style.old.InOrder ordinal "a".toList 2 :=
  sortRarFiles_order_iff ⟨false, ordinal⟩ (insertionSort ordinal Text) some .old "a".toList
    (k := 2) (by decide : 2 ≤ 101) (List.Perm.swap ..) rfl

/-- Ten volumes whose numbers have no zeros in front. -/
theorem tenVolumes_disordered :
    sortRarFiles ⟨false, ordinal⟩ (insertionSort ordinal Text) some
      (Style.unpadded.names "a".toList 10) ≠ some (Style.unpadded.names "a".toList 10) :=
  sortRarFiles_ten (Nat.le_refl _) (.refl _) rfl

end DirectPackageInstaller.Volumes
