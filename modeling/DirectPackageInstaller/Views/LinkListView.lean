import DirectPackageInstaller.Lib.Distinct
import DirectPackageInstaller.Lib.Pieces
import DirectPackageInstaller.Lib.TextCompare
import DirectPackageInstaller.Lib.WhiteSpace
import Mathlib.Algebra.Order.BigOperators.Group.List

/-!
# Normalising the link list

`TextBoxChanged` cuts the contents of the list into lines while it goes through
the list.  Behind a blank entry it removes the entry at its index, which is the
next one if the blank one was already replaced by its lines.

* `cutLoop_eq` is the induction along the list: what the loop makes of each entry
  is its `Fate`.
* `textBoxChanged_normalises_iff`: for which lists the result is the distinct lines
  and an empty entry.
-/

namespace DirectPackageInstaller.LinkListView

open Text Distinct

/-! ## The code -/

/-- A `LinkEntry`; a new one has no name. -/
structure LinkEntry where
  content : Text
  name : Option Text
deriving DecidableEq, Repr

def LinkEntry.new (content : Text) : LinkEntry := ⟨content, none⟩

/-- The list extensions of `DynamicData`: the items are added in their order. -/
structure DynamicData where
  addRange : List LinkEntry → List LinkEntry → List LinkEntry
  addOrInsertRange : List LinkEntry → List LinkEntry → Nat → List LinkEntry
  addRange_eq : ∀ links items, addRange links items = links ++ items
  addOrInsertRange_eq : ∀ front back items,
    addOrInsertRange (front ++ back) items front.length = front ++ (items ++ back)

def isBreak (c : Char) : Bool := c == '\r' || c == '\n'

/-- `Link.Contains("\n") || Link.Contains("\r")`. -/
def HasBreak (link : Text) : Prop := link.any isBreak = true

instance (link : Text) : Decidable (HasBreak link) := inferInstanceAs (Decidable (_ = true))

/-- The pieces of `Link.Split('\r', '\n')` that are not white space. -/
def lines (link : Text) : List Text :=
  (link.splitOnP isBreak).filter fun line => !decide (White line)

/-- The first loop, at the index `i`.  `none` is a loop that is not done after
`fuel` rounds. -/
def cutLoop (d : DynamicData) : Nat → List LinkEntry → Nat → Option (List LinkEntry)
  | 0, _, _ => none
  | fuel + 1, links, i =>
    match links[i]? with
    | none => some links
    | some entry =>
      let link := entry.content
      let links := if HasBreak link then
          d.addOrInsertRange (links.eraseIdx i) ((lines link).map LinkEntry.new) i
        else links
      -- the test is on the former content
      let links := if White link ∧ i + 1 < links.length then links.eraseIdx i else links
      cutLoop d fuel links (i + 1)

/-- The name of the entry at `i`. -/
def partName (count i : Nat) : Text :=
  "Part ".toList ++
    if count < 10 then decimal (i + 1)
    else if count < 100 then padded 2 (i + 1)
    else padded 3 (i + 1)

/-- The second loop. -/
def nameLoop (links : List LinkEntry) : List LinkEntry :=
  links.mapIdx fun i entry => { entry with name := some (partName links.length i) }

/-- `TextBoxChanged` behind the first loop. -/
def finish (d : DynamicData) (links : List LinkEntry) : List LinkEntry :=
  let distinctLinks := links.eraseDupsBy fun a b => a.content == b.content
  let links := if distinctLinks.length ≠ links.length then d.addRange [] distinctLinks
    else links
  let links := nameLoop links
  if links.getLast?.map LinkEntry.content = some [] then links
  else links ++ [LinkEntry.new []]

/-- `TextBoxChanged`, where the property is the text. -/
def textBoxChanged (d : DynamicData) (fuel : Nat) (links : List LinkEntry) :
    Option (List LinkEntry) :=
  (cutLoop d fuel links 0).map (finish d)

/-! ## What it is for -/

def contents (links : List LinkEntry) : List Text := links.map LinkEntry.content

/-- The lines of all entries. -/
def linesOf (links : List LinkEntry) : List Text :=
  links.flatMap fun entry => lines entry.content

/-- Rounds that the loop needs at most. -/
def size (links : List LinkEntry) : Nat :=
  (links.map fun entry => entry.content.length + 1).sum

/-- The list is the lines of the former one, each kept once, and an empty entry; no
entry has a line break, and the handler changes no content any more. -/
structure Normalised (d : DynamicData) (links result : List LinkEntry) : Prop where
  contents_eq : contents result = (linesOf links).eraseDups ++ [[]]
  noBreak : ∀ entry ∈ result, ¬ HasBreak entry.content
  stable : ∀ fuel, size result < fuel →
    (textBoxChanged d fuel result).map contents = some (contents result)

/-! ## What the loop does with each entry -/

/-- An entry is cut to its lines, skipped, or removed. -/
inductive Fate where
  | cut
  | kept
  | lost
deriving DecidableEq, Repr

/-- Behind a blank entry the loop skips one.  If the blank entry has a line break,
it is removed before the test, and the next entry with it unless that is the last
one. -/
def fates : List LinkEntry → List (LinkEntry × Fate)
  | [] => []
  | entry :: rest =>
    if White entry.content then
      if HasBreak entry.content then
        match rest with
        | [] => [(entry, .cut)]
        | [next] => [(entry, .cut), (next, .kept)]
        | next :: skipped :: rest =>
          (entry, .cut) :: (next, .lost) :: (skipped, .kept) :: fates rest
      else
        match rest with
        | [] => [(entry, .kept)]
        | skipped :: rest => (entry, .cut) :: (skipped, .kept) :: fates rest
    else (entry, .cut) :: fates rest

/-- What the loop leaves of an entry. -/
def remains : LinkEntry × Fate → List LinkEntry
  | (entry, .cut) =>
    if HasBreak entry.content then (lines entry.content).map LinkEntry.new
    else if White entry.content then [] else [entry]
  | (entry, .kept) => [entry]
  | (_, .lost) => []

/-- The lines of the entries that are not removed. -/
def linesLeft (entries : List (LinkEntry × Fate)) : List Text :=
  entries.flatMap fun entry => if entry.2 = .lost then [] else lines entry.1.content

/-- No skipped entry needs cutting. -/
def Uncut (entries : List (LinkEntry × Fate)) : Prop :=
  ∀ entry, (entry, .kept) ∈ entries →
    entry.content = [] ∨ ¬ White entry.content ∧ ¬ HasBreak entry.content

/-- When nothing goes wrong: a skipped entry needs no cutting, an entry that is
removed takes no line with it that does not come up in time elsewhere, and behind
a skipped empty entry only lines from before it come up. -/
structure Keeps (links : List LinkEntry) : Prop where
  kept : Uncut (fates links)
  lost : (linesLeft (fates links)).eraseDups = (linesOf links).eraseDups
  empty_last : ∀ front entry back, fates links = front ++ (entry, .kept) :: back →
    entry.content = [] → linesLeft back ⊆ linesLeft front

/-! ## The lines of an entry -/

theorem white_of_isBreak {c : Char} (h : isBreak c = true) : isWhiteSpace c = true := by
  rw [isBreak, Bool.or_eq_true, beq_iff_eq, beq_iff_eq] at h
  rcases h with rfl | rfl <;> rfl

theorem not_hasBreak_iff {link : Text} : ¬ HasBreak link ↔ ∀ c ∈ link, isBreak c = false := by
  rw [HasBreak, Bool.not_eq_true, List.any_eq_false]
  simp

theorem mem_lines {link line : Text} (h : line ∈ lines link) :
    ¬ White line ∧ ¬ HasBreak line := by
  rw [lines, List.mem_filter, Bool.not_eq_true', decide_eq_false_iff_not] at h
  refine ⟨h.2, not_hasBreak_iff.2 fun c hc => ?_⟩
  exact (Pieces.mem_of_mem_splitOnP h.1 c hc).2

theorem ne_nil_of_mem_lines {link line : Text} (h : line ∈ lines link) : line ≠ [] :=
  fun heq => (mem_lines h).1 (heq ▸ white_nil)

theorem lines_of_white {link : Text} (h : White link) : lines link = [] := by
  refine List.eq_nil_iff_forall_not_mem.2 fun line hline => ?_
  have hpiece := (List.mem_filter.1 hline).1
  exact (mem_lines hline).1 fun c hc => h c (Pieces.mem_of_mem_splitOnP hpiece c hc).1

theorem lines_of_not_hasBreak {link : Text} (h : ¬ HasBreak link) (hw : ¬ White link) :
    lines link = [link] := by
  rw [lines, List.splitOnP_eq_singleton (not_hasBreak_iff.1 h)]
  simp [hw]

theorem lines_ne_nil {link : Text} (h : ¬ White link) : lines link ≠ [] := by
  rw [White] at h
  push Not at h
  obtain ⟨c, hc, hblack⟩ := h
  have hbreak : isBreak c = false :=
    Bool.eq_false_iff.2 fun hbreak => hblack (white_of_isBreak hbreak)
  obtain ⟨piece, hpiece, hmem⟩ := Pieces.exists_piece hc hbreak
  have hline : piece ∈ lines link := by
    rw [lines, List.mem_filter, Bool.not_eq_true', decide_eq_false_iff_not]
    exact ⟨hpiece, fun hw => hblack (hw c hmem)⟩
  exact List.ne_nil_of_mem hline

theorem size_append (links rest : List LinkEntry) :
    size (links ++ rest) = size links + size rest := by
  simp [size]

/-- The lines of an entry have no more rounds than the entry. -/
theorem size_lines (link : Text) :
    size ((lines link).map LinkEntry.new) ≤ link.length + 1 := by
  rw [← Pieces.sum_length_splitOnP isBreak link, size, List.map_map]
  have hsub := (List.filter_sublist (p := fun line => !decide (White line))
    (l := link.splitOnP isBreak)).map fun line => line.length + 1
  exact hsub.sum_le_sum fun _ _ => Nat.zero_le _

/-! ## The loop -/

theorem fates_of_not_white {entry : LinkEntry} (h : ¬ White entry.content)
    (rest : List LinkEntry) : fates (entry :: rest) = (entry, .cut) :: fates rest := by
  rw [fates.eq_def]
  exact if_neg h

/-- Entries that are not blank are cut. -/
theorem fates_append {links : List LinkEntry} (h : ∀ entry ∈ links, ¬ White entry.content)
    (rest : List LinkEntry) :
    fates (links ++ rest) = (links.map fun entry => (entry, .cut)) ++ fates rest := by
  induction links with
  | nil => rfl
  | cons entry links ih =>
    rw [List.cons_append, fates_of_not_white (h entry List.mem_cons_self),
      ih fun e he => h e (List.mem_cons_of_mem _ he)]
    rfl

theorem not_white_of_mem_lines {link : Text} :
    ∀ entry ∈ (lines link).map LinkEntry.new, ¬ White entry.content := by
  intro entry hentry
  obtain ⟨line, hline, rfl⟩ := List.mem_map.1 hentry
  exact (mem_lines hline).1

/-- What the loop leaves of the list. -/
def cutLinks (links : List LinkEntry) : List LinkEntry := (fates links).flatMap remains

/-- The lines of an entry are left as they are. -/
theorem cutLinks_lines (link : Text) (rest : List LinkEntry) :
    cutLinks ((lines link).map LinkEntry.new ++ rest) =
      (lines link).map LinkEntry.new ++ cutLinks rest := by
  rw [cutLinks, fates_append not_white_of_mem_lines, List.flatMap_append]
  congr 1
  rw [List.flatMap_map]
  refine (List.flatMap_congr fun entry hentry => ?_).trans (List.flatMap_singleton' _)
  obtain ⟨line, hline, rfl⟩ := List.mem_map.1 hentry
  have hmem := mem_lines hline
  exact (if_neg hmem.2).trans (if_neg hmem.1)

/-- Behind the end of the list the loop is done. -/
theorem cutLoop_done (d : DynamicData) {fuel i : Nat} {links : List LinkEntry}
    (hfuel : 0 < fuel) (h : links.length ≤ i) : cutLoop d fuel links i = some links := by
  obtain ⟨fuel, rfl⟩ := Nat.exists_eq_add_one_of_ne_zero (Nat.ne_of_gt hfuel)
  rw [cutLoop, List.getElem?_eq_none h]

/-- What stands at the index and behind it after a round. -/
def nextLinks (entry : LinkEntry) (back : List LinkEntry) : List LinkEntry :=
  let here := if HasBreak entry.content then
      (lines entry.content).map LinkEntry.new ++ back else entry :: back
  if White entry.content ∧ 1 < here.length then here.tail else here

theorem cutLoop_step (d : DynamicData) (fuel : Nat) (front : List LinkEntry)
    (entry : LinkEntry) (back : List LinkEntry) :
    cutLoop d (fuel + 1) (front ++ entry :: back) front.length =
      cutLoop d fuel (front ++ nextLinks entry back) (front.length + 1) := by
  have hget : (front ++ entry :: back)[front.length]? = some entry := by simp
  have herase : (front ++ entry :: back).eraseIdx front.length = front ++ back := by
    rw [List.eraseIdx_append_of_length_le (Nat.le_refl _), Nat.sub_self]
    rfl
  -- the blank entry, or what stands in its place
  have hblank : ∀ here : List LinkEntry,
      (if White entry.content ∧ front.length + 1 < (front ++ here).length then
        (front ++ here).eraseIdx front.length else front ++ here) =
      front ++ if White entry.content ∧ 1 < here.length then here.tail else here := by
    intro here
    simp only [List.length_append, Nat.add_lt_add_iff_left]
    split_ifs
    · rw [List.eraseIdx_append_of_length_le (Nat.le_refl _), Nat.sub_self, List.eraseIdx_zero]
    · rfl
  rw [cutLoop, hget, nextLinks]
  dsimp only
  rw [herase, d.addOrInsertRange_eq, ← hblank, apply_ite (front ++ ·)]

theorem cutLinks_cons {entry : LinkEntry} (hw : ¬ White entry.content)
    (hbreak : ¬ HasBreak entry.content) (back : List LinkEntry) :
    cutLinks (entry :: back) = entry :: cutLinks back := by
  rw [cutLinks, fates_of_not_white hw, List.flatMap_cons, remains, if_neg hbreak, if_neg hw]
  rfl

theorem cutLinks_hasBreak {entry : LinkEntry} (hw : ¬ White entry.content)
    (hbreak : HasBreak entry.content) (back : List LinkEntry) :
    cutLinks (entry :: back) =
      cutLinks ((lines entry.content).map LinkEntry.new ++ back) := by
  rw [cutLinks_lines, cutLinks, fates_of_not_white hw, List.flatMap_cons, remains,
    if_pos hbreak]
  rfl

theorem remains_white {entry : LinkEntry} (hw : White entry.content) :
    remains (entry, .cut) = [] := by
  rw [remains, lines_of_white hw, if_pos hw]
  exact ite_self _

theorem size_cons (entry : LinkEntry) (links : List LinkEntry) :
    size (entry :: links) = entry.content.length + 1 + size links := rfl

/-- A round leaves nothing at the index, or an entry that stays, and behind it what
the loop still has to do. -/
def Leaves (entry : LinkEntry) (back : List LinkEntry) : List LinkEntry → Prop
  | [] => cutLinks (entry :: back) = []
  | stays :: rest => cutLinks (entry :: back) = stays :: cutLinks rest ∧
      size rest < size (entry :: back)

/-- A blank entry without a line break goes, and the next one is skipped. -/
theorem leaves_of_white {entry : LinkEntry} (hw : White entry.content)
    (hbreak : ¬ HasBreak entry.content) (back : List LinkEntry) :
    Leaves entry back (nextLinks entry back) := by
  cases back with
  | nil => simp [nextLinks, hbreak, Leaves, cutLinks, fates, hw, remains, size]
  | cons skipped rest =>
    have hnext : nextLinks entry (skipped :: rest) = skipped :: rest := by
      simp [nextLinks, hbreak, hw]
    rw [hnext, Leaves, size_cons, size_cons, cutLinks, fates.eq_def]
    dsimp only
    rw [if_pos hw, if_neg hbreak, List.flatMap_cons, List.flatMap_cons, remains_white hw]
    exact ⟨rfl, by omega⟩

/-- A blank entry with a line break goes together with the next one, and another one
is skipped. -/
theorem leaves_of_white_hasBreak {entry : LinkEntry} (hw : White entry.content)
    (hbreak : HasBreak entry.content) (back : List LinkEntry) :
    Leaves entry back (nextLinks entry back) := by
  have hnext : nextLinks entry back = if 1 < back.length then back.tail else back := by
    simp [nextLinks, hbreak, hw, lines_of_white hw]
  rw [hnext]
  match back with
  | [] => simp [Leaves, cutLinks, fates, hw, hbreak, remains_white hw]
  | [last] =>
    simp [Leaves, cutLinks, fates, hw, hbreak, remains, lines_of_white hw, size]
  | next :: skipped :: rest =>
    rw [if_pos (by simp), List.tail_cons, Leaves, size_cons, size_cons, size_cons, cutLinks,
      fates.eq_def]
    dsimp only
    rw [if_pos hw, if_pos hbreak, List.flatMap_cons, List.flatMap_cons, List.flatMap_cons,
      remains_white hw]
    exact ⟨rfl, by omega⟩

/-- Of the lines of an entry the first one is done. -/
theorem leaves_of_hasBreak {entry : LinkEntry} (hw : ¬ White entry.content)
    (hbreak : HasBreak entry.content) (back : List LinkEntry) :
    Leaves entry back (nextLinks entry back) := by
  have hnext : nextLinks entry back = (lines entry.content).map LinkEntry.new ++ back := by
    rw [nextLinks, if_pos hbreak, if_neg fun h => hw h.1]
  have hsize := size_lines entry.content
  obtain ⟨line, more, hcons⟩ := List.exists_cons_of_ne_nil (lines_ne_nil hw)
  have hline := mem_lines (hcons ▸ List.mem_cons_self : line ∈ lines entry.content)
  rw [hcons, List.map_cons, size_cons] at hsize
  rw [hnext, hcons, List.map_cons, List.cons_append, Leaves, cutLinks_hasBreak hw hbreak,
    hcons, List.map_cons, List.cons_append, cutLinks_cons hline.1 hline.2, size_append,
    size_cons]
  exact ⟨rfl, by omega⟩

theorem leaves_nextLinks (entry : LinkEntry) (back : List LinkEntry) :
    Leaves entry back (nextLinks entry back) := by
  by_cases hw : White entry.content
  · by_cases hbreak : HasBreak entry.content
    · exact leaves_of_white_hasBreak hw hbreak back
    · exact leaves_of_white hw hbreak back
  · by_cases hbreak : HasBreak entry.content
    · exact leaves_of_hasBreak hw hbreak back
    · rw [nextLinks, if_neg hbreak, if_neg fun h => hw h.1, Leaves, size_cons]
      exact ⟨cutLinks_cons hw hbreak back, by omega⟩

/-- The loop makes of every entry what its fate says, by induction on the rounds. -/
theorem cutLoop_eq (d : DynamicData) (fuel : Nat) :
    ∀ front back : List LinkEntry, size back < fuel →
      cutLoop d fuel (front ++ back) front.length = some (front ++ cutLinks back) := by
  induction fuel with
  | zero =>
    intro front back hfuel
    omega
  | succ fuel ih =>
    intro front back hfuel
    cases back with
    | nil => exact cutLoop_done d (by omega) (by simp)
    | cons entry back =>
      have hleaves := leaves_nextLinks entry back
      rw [cutLoop_step]
      generalize nextLinks entry back = next at hleaves ⊢
      cases next with
      | nil =>
        rw [size_cons] at hfuel
        rw [cutLoop_done d (by omega) (by simp), show cutLinks (entry :: back) = [] from hleaves]
      | cons stays rest =>
        have hrest := ih (front ++ [stays]) rest (by have := hleaves.2; omega)
        rw [hleaves.1]
        simpa using hrest

/-! ## The contents of the result -/

theorem contents_append (links rest : List LinkEntry) :
    contents (links ++ rest) = contents links ++ contents rest := List.map_append

theorem contents_nameLoop (links : List LinkEntry) :
    contents (nameLoop links) = contents links := by
  apply List.ext_getElem?
  intro i
  simp [contents, nameLoop, Function.comp_def]

theorem contents_distinct (links : List LinkEntry) :
    contents (links.eraseDupsBy fun a b => a.content == b.content) =
      (contents links).eraseDups :=
  map_eraseDupsBy LinkEntry.content links

/-- An empty entry at the end, if there is none. -/
def close (distinct : List Text) : List Text :=
  if distinct.getLast? = some [] then distinct else distinct ++ [[]]

theorem contents_finish (d : DynamicData) (links : List LinkEntry) :
    contents (finish d links) = close (contents links).eraseDups := by
  -- the list is replaced only where that makes a difference
  have hdistinct : contents (if (links.eraseDupsBy fun a b => a.content == b.content).length ≠
      links.length then d.addRange [] (links.eraseDupsBy fun a b => a.content == b.content)
      else links) = (contents links).eraseDups := by
    rw [d.addRange_eq, List.nil_append]
    split_ifs with hlength
    · exact contents_distinct links
    · have heq := congrArg List.length (contents_distinct links)
      simp only [contents, List.length_map] at heq
      refine ((eraseDups_sublist _).eq_of_length ?_).symm
      rw [contents, List.length_map]
      omega
  rw [finish]
  rw [← List.getLast?_map, ← contents, contents_nameLoop, hdistinct, close, apply_ite contents,
    contents_append, contents_nameLoop, hdistinct]
  rfl

theorem textBoxChanged_eq (d : DynamicData) {fuel : Nat} {links : List LinkEntry}
    (hfuel : size links < fuel) :
    textBoxChanged d fuel links = some (finish d (cutLinks links)) := by
  have hloop := cutLoop_eq d fuel [] links hfuel
  rw [List.nil_append, List.length_nil] at hloop
  rw [textBoxChanged, hloop]
  rfl

theorem close_eq_iff {distinct target : List Text} (h : [] ∉ target) :
    close distinct = target ++ [[]] ↔ distinct = target ∨ distinct = target ++ [[]] := by
  rw [close]
  constructor
  · intro heq
    split_ifs at heq
    · exact Or.inr heq
    · exact Or.inl (List.append_cancel_right heq)
  · intro heq
    rcases heq with rfl | rfl
    · rw [if_neg fun hlast => h (List.mem_of_getLast? hlast)]
    · rw [if_pos List.getLast?_concat]

/-- The contents that are left of some entries. -/
def contentsLeft (entries : List (LinkEntry × Fate)) : List Text :=
  contents (entries.flatMap remains)

theorem contentsLeft_cons (entry : LinkEntry × Fate) (entries : List (LinkEntry × Fate)) :
    contentsLeft (entry :: entries) = contents (remains entry) ++ contentsLeft entries := by
  rw [contentsLeft, List.flatMap_cons, contents_append]
  rfl

theorem contentsLeft_append (front back : List (LinkEntry × Fate)) :
    contentsLeft (front ++ back) = contentsLeft front ++ contentsLeft back := by
  rw [contentsLeft, List.flatMap_append, contents_append]
  rfl

theorem contents_new (texts : List Text) : contents (texts.map LinkEntry.new) = texts := by
  rw [contents, List.map_map]
  exact List.map_id texts

/-- An entry that is cut leaves its lines. -/
theorem contents_remains_cut (entry : LinkEntry) :
    contents (remains (entry, .cut)) = lines entry.content := by
  rw [remains]
  split_ifs with hbreak hw
  · exact contents_new _
  · rw [lines_of_white hw]
    rfl
  · rw [lines_of_not_hasBreak hbreak hw]
    rfl

/-- Only an empty entry that is skipped leaves an empty content. -/
theorem contents_remains_of_nil_mem {entry : LinkEntry × Fate}
    (h : [] ∈ contents (remains entry)) :
    contents (remains entry) = [[]] ∧ entry.2 = .kept ∧ entry.1.content = [] := by
  obtain ⟨entry, fate⟩ := entry
  cases fate with
  | cut =>
    rw [contents_remains_cut] at h
    exact absurd rfl (ne_nil_of_mem_lines h)
  | kept =>
    have hnil : [] = entry.content := List.mem_singleton.1 h
    exact ⟨congrArg (fun content => [content]) hnil.symm, rfl, hnil.symm⟩
  | lost => cases h

/-- Where an empty content is left, there is an empty entry that is skipped. -/
theorem exists_kept_of_contentsLeft {entries : List (LinkEntry × Fate)} :
    ∀ {front back : List Text}, contentsLeft entries = front ++ [] :: back →
      ∃ before entry behind, entries = before ++ (entry, .kept) :: behind ∧
        entry.content = [] ∧ front = contentsLeft before ∧ back = contentsLeft behind := by
  induction entries with
  | nil =>
    intro front back h
    have := congrArg List.length h
    simp [contentsLeft, contents] at this
  | cons first entries ih =>
    intro front back h
    rw [contentsLeft_cons] at h
    -- it stands behind what is left of the first entry
    have hbehind : ∀ front', contentsLeft entries = front' ++ [] :: back →
        front = contents (remains first) ++ front' →
        ∃ before entry behind, first :: entries = before ++ (entry, .kept) :: behind ∧
          entry.content = [] ∧ front = contentsLeft before ∧ back = contentsLeft behind := by
      intro front' hsplit hfront
      obtain ⟨before, entry, behind, hentries, hnil, hbefore, hback⟩ := ih hsplit
      refine ⟨first :: before, entry, behind, ?_, hnil, ?_, hback⟩
      · rw [hentries, List.cons_append]
      · rw [contentsLeft_cons, hfront, hbefore]
    rcases List.append_eq_append_iff.1 h with ⟨mid, hfront, hsplit⟩ | ⟨mid, hfirst, hsplit⟩
    · exact hbehind mid hsplit hfront
    · cases mid with
      | nil => exact hbehind [] hsplit.symm (by simpa using hfirst.symm)
      | cons text mid =>
        rw [List.cons_append, List.cons.injEq] at hsplit
        rw [← hsplit.1] at hfirst
        have hmem : [] ∈ contents (remains first) := by simp [hfirst]
        obtain ⟨hone, hkept, hnil⟩ := contents_remains_of_nil_mem hmem
        have hlength := congrArg List.length (hone.symm.trans hfirst)
        simp only [List.length_append, List.length_cons, List.length_nil] at hlength
        have hfront : front = [] := List.eq_nil_of_length_eq_zero (by omega)
        have hmid : mid = [] := List.eq_nil_of_length_eq_zero (by omega)
        refine ⟨[], first.1, entries, ?_, hnil, hfront, ?_⟩
        · rw [← hkept]
          rfl
        · rw [hsplit.2, hmid]
          rfl

theorem filter_ne_nil {texts : List Text} (h : [] ∉ texts) :
    texts.filter (fun line => !line == []) = texts := by
  refine List.filter_eq_self.2 fun line hline => ?_
  have hne : line ≠ [] := fun heq => h (heq ▸ hline)
  simpa using hne

theorem filter_lines (link : Text) :
    (lines link).filter (fun line => !line == []) = lines link :=
  filter_ne_nil fun h => ne_nil_of_mem_lines h rfl

theorem Uncut.subset {entries part : List (LinkEntry × Fate)} (h : Uncut entries)
    (hpart : part ⊆ entries) : Uncut part :=
  fun entry hentry => h entry (hpart hentry)

/-- If no skipped entry needs cutting, the contents that are left are the lines and
empty entries. -/
theorem filter_contentsLeft {entries : List (LinkEntry × Fate)} (h : Uncut entries) :
    (contentsLeft entries).filter (fun line => !line == []) = linesLeft entries := by
  induction entries with
  | nil => rfl
  | cons first entries ih =>
    rw [contentsLeft_cons, List.filter_append, linesLeft, List.flatMap_cons, ← linesLeft,
      ih (h.subset (List.subset_cons_self _ _))]
    congr 1
    obtain ⟨entry, fate⟩ := first
    cases fate with
    | cut =>
      rw [contents_remains_cut, filter_lines]
      rfl
    | kept =>
      change [entry.content].filter (fun line => !line == []) = lines entry.content
      rcases h entry List.mem_cons_self with hnil | ⟨hw, hbreak⟩
      · rw [hnil]
        rfl
      · rw [← lines_of_not_hasBreak hbreak hw, filter_lines]
    | lost => rfl

theorem mem_linesLeft_iff {entries : List (LinkEntry × Fate)} {line : Text}
    (h : Uncut entries) :
    line ∈ linesLeft entries ↔ line ∈ contentsLeft entries ∧ line ≠ [] := by
  rw [← filter_contentsLeft h, List.mem_filter]
  simp

/-- An empty content is kept at the end exactly when no line comes up for the first
time behind a skipped empty entry. -/
theorem eraseDups_contentsLeft_iff {entries : List (LinkEntry × Fate)} (h : Uncut entries)
    (hmem : [] ∈ contentsLeft entries) :
    (contentsLeft entries).eraseDups = (linesLeft entries).eraseDups ++ [[]] ↔
      ∀ front entry back, entries = front ++ (entry, .kept) :: back →
        entry.content = [] → linesLeft back ⊆ linesLeft front := by
  rw [← filter_contentsLeft h, eraseDups_eq_append_iff hmem]
  have hparts : ∀ {front entry back}, entries = front ++ (entry, .kept) :: back →
      Uncut front ∧ Uncut back := by
    intro front entry back hsplit
    refine ⟨h.subset (by simp [hsplit]), h.subset fun x hx => ?_⟩
    simp [hsplit, hx]
  constructor
  · intro hbehind front entry back hsplit hentry line hline
    obtain ⟨hfront, hback⟩ := hparts hsplit
    have hcontents : contentsLeft entries =
        contentsLeft front ++ [] :: contentsLeft back := by
      rw [hsplit, contentsLeft_append, contentsLeft_cons, ← hentry]
      rfl
    rw [mem_linesLeft_iff hback] at hline
    rw [mem_linesLeft_iff hfront]
    exact ⟨(hbehind _ _ hcontents line hline.1).resolve_left hline.2, hline.2⟩
  · intro hlines front back hcontents line hline
    obtain ⟨before, entry, behind, hsplit, hentry, rfl, rfl⟩ :=
      exists_kept_of_contentsLeft hcontents
    obtain ⟨hbefore, hbehind⟩ := hparts hsplit
    by_cases hne : line = []
    · exact Or.inl hne
    · have hin := hlines before entry behind hsplit hentry
        ((mem_linesLeft_iff hbehind).2 ⟨hline, hne⟩)
      exact Or.inr ((mem_linesLeft_iff hbefore).1 hin).1

/-! ## When no line is lost -/

theorem mem_linesOf {links : List LinkEntry} {line : Text}
    (h : line ∈ (linesOf links).eraseDups) : ¬ White line ∧ ¬ HasBreak line := by
  rw [List.mem_eraseDups, linesOf, List.mem_flatMap] at h
  obtain ⟨entry, _, hline⟩ := h
  exact mem_lines hline

theorem nil_not_mem_linesOf (links : List LinkEntry) : [] ∉ (linesOf links).eraseDups :=
  fun h => (mem_linesOf h).1 white_nil

/-- If the distinct contents that are left are the distinct lines, no skipped entry
needs cutting. -/
theorem uncut_of_distinct {links : List LinkEntry}
    (h : ∀ text ∈ contentsLeft (fates links),
      text ∈ (linesOf links).eraseDups ∨ text = []) : Uncut (fates links) := by
  intro entry hentry
  have hleft : entry.content ∈ contentsLeft (fates links) := by
    refine List.mem_map_of_mem (List.mem_flatMap.2 ⟨_, hentry, ?_⟩)
    exact List.mem_singleton_self entry
  exact (h _ hleft).symm.imp id mem_linesOf

/-- The distinct contents that are left are the distinct lines, with an empty one at
their end or without. -/
theorem distinct_eq_iff (links : List LinkEntry) :
    ((contentsLeft (fates links)).eraseDups = (linesOf links).eraseDups ∨
      (contentsLeft (fates links)).eraseDups = (linesOf links).eraseDups ++ [[]]) ↔
      Keeps links := by
  have hnil := nil_not_mem_linesOf links
  have hmem : ∀ text, text ∈ contentsLeft (fates links) ↔
      text ∈ (contentsLeft (fates links)).eraseDups := fun text => List.mem_eraseDups.symm
  constructor
  · intro hdistinct
    have hkept : Uncut (fates links) := by
      refine uncut_of_distinct fun text htext => ?_
      rw [hmem] at htext
      rcases hdistinct with heq | heq
      · exact Or.inl (heq ▸ htext)
      · simpa [heq] using htext
    have hlost : (linesLeft (fates links)).eraseDups = (linesOf links).eraseDups := by
      rw [← filter_contentsLeft hkept, filter_eraseDups]
      rcases hdistinct with heq | heq
      · rw [heq, filter_ne_nil hnil]
      · rw [heq, List.filter_append, filter_ne_nil hnil]
        exact List.append_nil _
    refine ⟨hkept, hlost, fun front entry back hsplit hentry => ?_⟩
    have hempty : [] ∈ contentsLeft (fates links) := by
      rw [hsplit, contentsLeft_append, contentsLeft_cons, ← hentry]
      simp [remains, contents]
    have hlast := hdistinct.resolve_left fun heq => hnil (heq ▸ (hmem []).1 hempty)
    rw [← hlost, eraseDups_contentsLeft_iff hkept hempty] at hlast
    exact hlast front entry back hsplit hentry
  · intro ⟨hkept, hlost, hlast⟩
    by_cases hempty : [] ∈ contentsLeft (fates links)
    · right
      rw [← hlost, eraseDups_contentsLeft_iff hkept hempty]
      exact hlast
    · left
      rw [← hlost, ← filter_contentsLeft hkept, filter_ne_nil hempty]

theorem contents_result (d : DynamicData) (links : List LinkEntry) :
    contents (finish d (cutLinks links)) = close (contentsLeft (fates links)).eraseDups :=
  contents_finish d (cutLinks links)

/-- Lines and an empty entry behind them are left as they are. -/
theorem contentsLeft_eq {links : List LinkEntry} {front : List Text}
    (h : contents links = front ++ [[]])
    (hfront : ∀ line ∈ front, ¬ White line ∧ ¬ HasBreak line) :
    contentsLeft (fates links) = contents links := by
  induction front generalizing links with
  | nil =>
    obtain ⟨last, rfl, hlast⟩ := List.map_eq_singleton_iff.1 h
    have hfates : fates [last] = [(last, .kept)] := by
      simp [fates, hlast, white_nil, HasBreak]
    rw [hfates]
    rfl
  | cons line front ih =>
    obtain ⟨entry, rest, rfl, hentry, hrest⟩ := List.map_eq_cons_iff.1 h
    obtain ⟨hw, hbreak⟩ := hfront line List.mem_cons_self
    rw [← hentry] at hw hbreak
    have hbehind := ih hrest fun other hother => hfront other (List.mem_cons_of_mem _ hother)
    have hcut : contentsLeft (fates (entry :: rest)) =
        entry.content :: contentsLeft (fates rest) :=
      congrArg contents (cutLinks_cons hw hbreak rest)
    rw [hcut, hbehind]
    rfl

/-- Once the list is normal, the handler changes nothing. -/
theorem contents_normal (d : DynamicData) {links result : List LinkEntry}
    (h : contents result = (linesOf links).eraseDups ++ [[]]) :
    contents (finish d (cutLinks result)) = contents result := by
  have hnodup : ((linesOf links).eraseDups ++ [[]]).Nodup := by
    rw [List.nodup_append]
    refine ⟨nodup_eraseDups _, by simp, fun line hline empty hempty heq => ?_⟩
    rw [← heq, List.mem_singleton] at hempty
    exact nil_not_mem_linesOf links (hempty ▸ hline)
  rw [contents_result, contentsLeft_eq h fun line hline => mem_linesOf hline, h,
    eraseDups_of_nodup hnodup, close_eq_iff (nil_not_mem_linesOf links)]
  exact Or.inr rfl

theorem normalised_iff (d : DynamicData) (links result : List LinkEntry) :
    Normalised d links result ↔ contents result = (linesOf links).eraseDups ++ [[]] := by
  constructor
  · intro h
    exact h.contents_eq
  · intro h
    refine ⟨h, fun entry hentry => ?_, fun fuel hfuel => ?_⟩
    · have hmem : entry.content ∈ contents result := List.mem_map_of_mem hentry
      rw [h, List.mem_append, List.mem_singleton] at hmem
      rcases hmem with hline | hempty
      · exact (mem_linesOf hline).2
      · rw [hempty]
        exact Bool.false_ne_true
    · rw [textBoxChanged_eq d hfuel, Option.map_some, contents_normal d h]

/-- The handler always ends, and it normalises the list exactly when no skipped
entry needs cutting, the lines of the entries that are left are the lines of all,
and no new line stands behind a skipped empty entry. -/
theorem textBoxChanged_normalises_iff (d : DynamicData) (links : List LinkEntry) :
    ∃ result, (∀ fuel, size links < fuel → textBoxChanged d fuel links = some result) ∧
      (Normalised d links result ↔ Keeps links) := by
  refine ⟨finish d (cutLinks links), fun fuel hfuel => textBoxChanged_eq d hfuel, ?_⟩
  rw [normalised_iff, contents_result, close_eq_iff (nil_not_mem_linesOf links)]
  exact distinct_eq_iff links

/-- The extensions of a list. -/
def lists : DynamicData where
  addRange links items := links ++ items
  addOrInsertRange links items i := links.take i ++ (items ++ links.drop i)
  addRange_eq _ _ := rfl
  addOrInsertRange_eq front back items := by simp

/-- Behind an entry that is only a line break, a link is lost. -/
theorem textBoxChanged_loses :
    ∃ result, textBoxChanged lists 6
        [LinkEntry.new ['\n'], LinkEntry.new ['a'], LinkEntry.new []] = some result ∧
      ¬ Normalised lists
        [LinkEntry.new ['\n'], LinkEntry.new ['a'], LinkEntry.new []] result := by
  refine ⟨_, rfl, fun h => ?_⟩
  exact absurd h.contents_eq (by decide)

end DirectPackageInstaller.LinkListView
