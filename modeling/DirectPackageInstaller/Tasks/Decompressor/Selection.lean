import DirectPackageInstaller.Tasks.Decompressor.Volumes

/-!
# What the selections keep

`SortRarFiles` and `Sort7zFiles` should give back the accepted entries, each once, in
an order that the URL list has no part in.  The filter of `Sort7zFiles` throws at a name
without an extension.  `Array.Sort` may give either of two names first that compare as
equal; behind the loop a `.rar` comes before the `.r00` in front of it either way.

* `precedes_iff`: which of two items comes first behind the loop.
* `inOneOrder_iff`: when `SortRarFiles` can give the accepted entries in one order only.
* `losesNothing_iff`: when the selections are what they should be.
-/

namespace DirectPackageInstaller.Volumes

open Arrange Text

section

variable {E : Type} {p : Platform} {sort : ArraySort p.comparer E} {filename : E → Option Text}

/-- No name is missing, and no two are the same. -/
def Distinct (filename : E → Option Text) (entries : List E) : Prop :=
  (entries.map filename).Nodup ∧ none ∉ entries.map filename

/-- No two different names compare as equal. -/
def ToldApart (p : Platform) (filename : E → Option Text) (entries : List E) : Prop :=
  ∀ a ∈ entries, ∀ b ∈ entries, nameLe p.comparer (filename a) (filename b) = true →
    nameLe p.comparer (filename b) (filename a) = true → filename a = filename b

/-- A selection of the entries with an accepted name. -/
structure Selects (p : Platform) (filename : E → Option Text)
    (lists : ArraySort p.comparer E → List E → Option (Lists E))
    (files : ArraySort p.comparer E → List E → Option (List E)) (carries : Text → Bool)
    (entries : List E) : Prop where
  /-- The names of the sorted lists are still those of the entries. -/
  paired : ∀ sort, ∃ l, lists sort entries = some l ∧ l.names = l.entries.map filename
  /-- Every accepted entry comes out, once. -/
  complete : ∀ sort, ∃ volumes, files sort entries = some volumes ∧
    volumes.Perm (entries.filter fun e => accepts carries (filename e))
  /-- The order of the entries before does not matter. -/
  independent : Distinct filename entries → ∀ sort entries', entries'.Perm entries →
    files sort entries' = files sort entries

/-- Both selections do what they are for. -/
structure LosesNothing (p : Platform) (filename : E → Option Text) (entries : List E) : Prop where
  rar : Selects p filename (fun sort => sortRarLists p sort filename)
    (fun sort => sortRarFiles p sort filename) (carriesRar p) entries
  sevenZip : Selects p filename (fun sort entries => some (sortedLists p sort filename entries))
    (fun sort => sort7zFiles p sort filename) (carries7z p) entries

/-- `Sort7zFiles` accepts the entry. -/
def accepts7z (p : Platform) (filename : E → Option Text) (e : E) : Bool :=
  accepts (carries7z p) (filename e)

/-- `SortRarFiles` accepts the entry. -/
def acceptsRar (p : Platform) (filename : E → Option Text) (e : E) : Bool :=
  accepts (carriesRar p) (filename e)

/-- The items end with a `.r00` and others behind it, and `b` is one of these. -/
def Waits (c : Comparer) (filename : E → Option Text) (items : List E) (b : E) : Prop :=
  ∃ front first middle, items = front ++ first :: middle ∧ mark c (filename first) = .r00 ∧
    (∀ e ∈ middle, mark c (filename e) = .other) ∧ b ∈ first :: middle

/-- `a` is the `.rar` of a `.r00`, and `b` is that one or stands between the two. -/
def Overtakes (c : Comparer) (filename : E → Option Text) (items : List E) (a b : E) : Prop :=
  ∃ front back, items = front ++ a :: back ∧ mark c (filename a) = .rar ∧
    Waits c filename front b

/-- `a` comes before `b` when every `.rar` is with its `.r00`. -/
def Precedes (c : Comparer) (filename : E → Option Text) (items : List E) (a b : E) : Prop :=
  Overtakes c filename items a b ∨
    [a, b].Sublist items ∧ ¬Overtakes c filename items b a

/-- The entries in an order that the comparison of their names allows. -/
def Ordered (p : Platform) (filename : E → Option Text) (entries items : List E) : Prop :=
  Sorts (fun a b => nameLe p.comparer (filename a) (filename b) = true) entries items

/-- Of two accepted entries the same one comes first in all these orders. -/
def InOneOrder (p : Platform) (filename : E → Option Text) (entries : List E) : Prop :=
  ∀ items items', Ordered p filename entries items → Ordered p filename entries items' →
    ∀ a b, acceptsRar p filename a = true → acceptsRar p filename b = true →
      Precedes p.comparer filename items a b → ¬Precedes p.comparer filename items' b a

/-! ## The order behind the loop -/

section

variable {c : Comparer} {items : List E} {x a b : E}

theorem Waits.mem (h : Waits c filename items b) : b ∈ items := by
  obtain ⟨front, first, middle, rfl, -, -, hb⟩ := h
  exact List.mem_append_right front hb

theorem waits_append_r00 (hx : mark c (filename x) = .r00) :
    Waits c filename (items ++ [x]) b ↔ b = x := by
  constructor
  · rintro ⟨front, first, middle, heq, -, hmiddle, hb⟩
    obtain ⟨-, rfl, rfl⟩ | ⟨middle, rfl, -⟩ := append_singleton_cases heq
    · exact List.mem_singleton.1 hb
    · rw [hmiddle x (by simp)] at hx
      cases hx
  · rintro rfl
    exact ⟨items, b, [], rfl, hx, fun _ h => absurd h List.not_mem_nil, List.mem_cons_self⟩

theorem waits_append_rar (hx : mark c (filename x) = .rar) :
    ¬Waits c filename (items ++ [x]) b := by
  rintro ⟨front, first, middle, heq, hfirst, hmiddle, -⟩
  obtain ⟨-, rfl, -⟩ | ⟨middle, rfl, -⟩ := append_singleton_cases heq
  · rw [hfirst] at hx
    cases hx
  · rw [hmiddle x (by simp)] at hx
    cases hx

theorem waits_append_other (hx : mark c (filename x) = .other) :
    Waits c filename (items ++ [x]) b ↔
      Waits c filename items b ∨ b = x ∧ ∃ e, Waits c filename items e := by
  constructor
  · rintro ⟨front, first, middle, heq, hfirst, hmiddle, hb⟩
    obtain ⟨-, rfl, -⟩ | ⟨middle, rfl, rfl⟩ := append_singleton_cases heq
    · rw [hfirst] at hx
      cases hx
    · rw [← List.cons_append] at hb
      have hwaits : ∀ e ∈ first :: middle, Waits c filename (front ++ first :: middle) e :=
        fun e he => ⟨front, first, middle, rfl, hfirst,
          fun e he => hmiddle e (List.mem_append_left _ he), he⟩
      rcases List.mem_append.1 hb with hb | hb
      · exact .inl (hwaits b hb)
      · exact .inr ⟨List.mem_singleton.1 hb, first, hwaits first List.mem_cons_self⟩
  · have happend : ∀ e, Waits c filename items e → ∀ d, d = e ∨ d = x →
        Waits c filename (items ++ [x]) d := by
      rintro e ⟨front, first, middle, rfl, hfirst, hmiddle, he⟩ d hd
      refine ⟨front, first, middle ++ [x], by simp, hfirst, fun y hy => ?_, ?_⟩
      · rcases List.mem_append.1 hy with hy | hy
        · exact hmiddle y hy
        · rw [List.mem_singleton.1 hy, hx]
      · rcases hd with rfl | rfl
        · exact List.mem_append_left [x] he
        · exact List.mem_append_right (first :: middle) List.mem_cons_self
    rintro (h | ⟨rfl, e, h⟩)
    · exact happend b h b (.inl rfl)
    · exact happend e h b (.inr rfl)

theorem passed_append (c : Comparer) (filename : E → Option Text) (items : List E) (x : E) :
    passed c filename (items ++ [x]) = (passed c filename items).add x (mark c (filename x)) :=
  Passed.addAll_append c ⟨[], []⟩ items [x]

/-- The loop holds back what waits. -/
theorem mem_pending_iff : b ∈ (passed c filename items).pending ↔ Waits c filename items b := by
  induction items using List.reverseRecOn generalizing b with
  | nil =>
    constructor
    · exact fun h => absurd h List.not_mem_nil
    · exact fun h => absurd h.mem List.not_mem_nil
  | append_singleton items x ih =>
    rw [passed_append]
    cases hx : mark c (filename x) with
    | r00 =>
      rw [waits_append_r00 hx]
      exact List.mem_singleton
    | rar =>
      constructor
      · exact fun h => absurd h List.not_mem_nil
      · exact fun h => absurd h (waits_append_rar hx)
    | other =>
      have hempty : (passed c filename items).pending = [] ↔ ¬∃ e, Waits c filename items e := by
        simp only [← ih, List.eq_nil_iff_forall_not_mem, not_exists]
      rw [waits_append_other hx, ← ih, Passed.add]
      split
      · next hpending => simp [hpending, hempty.1 hpending]
      · next hpending =>
        have hwaits := not_not.1 (mt hempty.2 hpending)
        simp [hwaits]

theorem Overtakes.mem (h : Overtakes c filename items a b) : a ∈ items ∧ b ∈ items := by
  obtain ⟨front, back, rfl, -, hb⟩ := h
  exact ⟨List.mem_append_right front List.mem_cons_self, List.mem_append_left _ hb.mem⟩

theorem overtakes_append : Overtakes c filename (items ++ [x]) a b ↔
    Overtakes c filename items a b ∨
      a = x ∧ mark c (filename x) = .rar ∧ Waits c filename items b := by
  constructor
  · rintro ⟨front, back, heq, ha, hb⟩
    obtain ⟨rfl, rfl, -⟩ | ⟨back, -, rfl⟩ := append_singleton_cases heq
    · exact .inr ⟨rfl, ha, hb⟩
    · exact .inl ⟨front, back, rfl, ha, hb⟩
  · rintro (⟨front, back, rfl, ha, hb⟩ | ⟨rfl, ha, hb⟩)
    · exact ⟨front, back ++ [x], by simp, ha, hb⟩
    · exact ⟨items, [], rfl, ha, hb⟩

/-- A step of the loop that moves nothing. -/
theorem Passed.add_all (s : Passed E) (item : E) {m : Mark} (hm : m ≠ .rar) :
    (s.add item m).all = s.all ++ [item] := by
  cases m with
  | r00 => rfl
  | rar => exact absurd rfl hm
  | other =>
    by_cases hpending : s.pending = []
    · simp [add, all, hpending]
    · simp [add, all, hpending]

/-- A step that moves its item. -/
theorem Passed.pair_sublist_add_rar (s : Passed E) (item a b : E) :
    [a, b].Sublist (s.add item .rar).all ↔ [a, b].Sublist s.all ∨
      a = item ∧ b ∈ s.pending ∨ a ∈ s.before ∧ b = item := by
  have hall : (s.add item .rar).all = s.before ++ item :: s.pending := List.append_nil _
  rw [hall, all, pair_sublist_append, pair_sublist_append, pair_sublist_cons, List.mem_cons]
  tauto

/-- Which of two items comes first behind the loop. -/
theorem precedes_iff (h : items.Nodup) :
    [a, b].Sublist (passed c filename items).all ↔ Precedes c filename items a b := by
  induction items using List.reverseRecOn generalizing a b with
  | nil =>
    constructor
    · rintro ⟨⟩
    · rintro (h | ⟨⟨⟩, -⟩)
      exact absurd h.mem.1 List.not_mem_nil
  | append_singleton items x ih =>
    obtain ⟨hitems, -, hnew⟩ := List.nodup_append.1 h
    have hx : x ∉ items := fun hmem => hnew x hmem x List.mem_cons_self rfl
    have hperm := passed_perm c filename items
    have hmem : ∀ {a b}, [a, b].Sublist items → a ∈ items ∧ b ∈ items :=
      fun h => ⟨h.subset (by simp), h.subset (by simp)⟩
    have hpair : [a, b].Sublist (items ++ [x]) ↔ [a, b].Sublist items ∨ a ∈ items ∧ b = x := by
      simp [pair_sublist_append]
    rw [passed_append, Precedes, overtakes_append, overtakes_append, hpair]
    by_cases hm : mark c (filename x) = .rar
    · -- the `.rar` overtakes what waits, and nothing else
      have hbefore : a ∈ (passed c filename items).before ↔
          a ∈ items ∧ ¬Waits c filename items a := by
        have hnodup := hperm.nodup_iff.2 hitems
        rw [← hperm.mem_iff, ← mem_pending_iff, Passed.all, List.mem_append]
        have hdisjoint := List.disjoint_of_nodup_append hnodup
        exact ⟨fun h => ⟨.inl h, hdisjoint h⟩, fun h => h.1.resolve_right h.2⟩
      rw [hm, Passed.pair_sublist_add_rar, ih hitems, mem_pending_iff, hbefore, Precedes]
      have hab := @Overtakes.mem _ filename c items a b
      have hba := @Overtakes.mem _ filename c items b a
      have hsublist := @hmem a b
      grind
    · rw [Passed.add_all _ _ hm, pair_sublist_append, ih hitems, hperm.mem_iff, Precedes]
      have hba := @Overtakes.mem _ filename c items b a
      simp only [hm, false_and, and_false, or_false]
      grind

end

/-! ## Names that are told apart -/

variable (sort) in
theorem sortedLists_ordered (entries : List E) :
    Ordered p filename entries (sortedLists p sort filename entries).entries := by
  refine ⟨sortedLists_perm sort filename entries, ?_⟩
  obtain ⟨hperm, hpairwise⟩ := sort.sorts (entries.map fun e => (filename e, e))
  refine List.pairwise_map.2 (hpairwise.imp_of_mem fun {x y} hx hy hle => ?_)
  obtain ⟨e, -, rfl⟩ := List.mem_map.1 (hperm.mem_iff.1 hx)
  obtain ⟨e', -, rfl⟩ := List.mem_map.1 (hperm.mem_iff.1 hy)
  exact hle

/-- Entries that are in order already stay as they are. -/
theorem sortedLists_insertionSort {entries items : List E}
    (h : Ordered p filename entries items) :
    (sortedLists p (insertionSort p.comparer E) filename items).entries = items := by
  have hsorted : (items.map fun e => (filename e, e)).Pairwise
      fun a b => nameLe p.comparer a.1 b.1 = true := List.pairwise_map.2 h.2
  simp only [sortedLists, insertionSort, hsorted.insertionSort_eq, List.map_map]
  exact List.map_id items

/-- Where the names of some entries are told apart, these come in one order only. -/
theorem Ordered.filter_eq {q : E → Bool} {entries items items' : List E}
    (h : Ordered p filename entries items) (h' : Ordered p filename entries items')
    (hdistinct : Distinct filename entries)
    (happart : ToldApart p filename (entries.filter q)) : items'.filter q = items.filter q := by
  refine (Sorts.filter h q).unique (Sorts.filter h' q) (.refl _) fun a ha b hb hab hba => ?_
  exact List.inj_on_of_nodup_map hdistinct.1 (List.mem_of_mem_filter ha)
    (List.mem_of_mem_filter hb) (happart a ha b hb hab hba)

theorem inOneOrder_of_toldApart {entries : List E} (hdistinct : Distinct filename entries)
    (happart : ToldApart p filename entries) : InOneOrder p filename entries := by
  intro items items' h h' a b _ _ hab hba
  have hsame : items' = items := by
    have hfilter := h.filter_eq (q := fun _ => true) h' hdistinct (by simpa using happart)
    simpa using hfilter
  have hnodup := h.1.nodup_iff.2 hdistinct.1.of_map
  rw [hsame, ← precedes_iff hnodup] at hba
  rw [← precedes_iff hnodup] at hab
  have hpassed := (passed_perm p.comparer filename items).nodup_iff.2 hnodup
  exact not_pair_sublist_swap hpassed hab hba

/-- Names that are not told apart can come out in either order. -/
theorem toldApart_of_filter_eq {q : E → Bool} {entries : List E}
    (hdistinct : Distinct filename entries)
    (h : ∀ items items', Ordered p filename entries items → Ordered p filename entries items' →
      items'.filter q = items.filter q) : ToldApart p filename (entries.filter q) := by
  intro a ha b hb hab hba
  by_contra hne
  obtain ⟨ha, hqa⟩ := List.mem_filter.1 ha
  obtain ⟨hb, hqb⟩ := List.mem_filter.1 hb
  obtain ⟨rest, hperm⟩ := exists_perm_cons_cons ha hb fun heq => hne (congrArg filename heq)
  let le : E → E → Prop := fun x y => nameLe p.comparer (filename x) (filename y) = true
  have hsorts : ∀ items : List E, items.Perm entries →
      Ordered p filename entries (items.insertionSort le) := by
    intro items hitems
    obtain ⟨hsorted, hpairwise⟩ := Sorts.insertionSort le
      (fun a b => nameLe_total p.comparer (filename a) (filename b))
      (fun a b d => nameLe_trans p.comparer (filename a) (filename b) (filename d)) items
    exact ⟨hsorted.trans hitems, hpairwise⟩
  have hswap : (b :: a :: rest).Perm entries := (List.Perm.swap a b rest).trans hperm.symm
  have hsame := h _ _ (hsorts _ hperm.symm) (hsorts _ hswap)
  have hsublist : [a, b].Sublist ((a :: b :: rest).insertionSort le) :=
    List.pair_sublist_insertionSort hab (by simp)
  have hsublist' : [b, a].Sublist ((b :: a :: rest).insertionSort le) :=
    List.pair_sublist_insertionSort hba (by simp)
  have hfilter := pair_sublist_filter.2 ⟨hsublist, hqa, hqb⟩
  have hfilter' := pair_sublist_filter.2 ⟨hsublist', hqb, hqa⟩
  rw [hsame] at hfilter'
  refine not_pair_sublist_swap ?_ hfilter hfilter'
  exact ((hsorts _ hperm.symm).1.nodup_iff.2 hdistinct.1.of_map).filter q

/-- `SortRarFiles` gives the accepted entries in one order only. -/
theorem inOneOrder_iff {entries : List E} (hdistinct : Distinct filename entries) :
    InOneOrder p filename entries ↔ ∀ items items', Ordered p filename entries items →
      Ordered p filename entries items' →
        (passed p.comparer filename items').all.filter (acceptsRar p filename) =
          (passed p.comparer filename items).all.filter (acceptsRar p filename) := by
  have hnodup : ∀ items, Ordered p filename entries items → items.Nodup :=
    fun items h => h.1.nodup_iff.2 hdistinct.1.of_map
  have hpassed := passed_perm p.comparer filename
  constructor
  · intro hone items items' h h'
    have hperm : (passed p.comparer filename items').all.Perm
        (passed p.comparer filename items).all :=
      (hpassed items').trans (h'.1.trans (h.1.symm.trans (hpassed items).symm))
    refine eq_of_perm_of_pairs (hperm.filter _)
      (((hpassed items').nodup_iff.2 (hnodup items' h')).filter _) fun a b hab hba => ?_
    obtain ⟨hab, ha, hb⟩ := pair_sublist_filter.1 hab
    obtain ⟨hba, -, -⟩ := pair_sublist_filter.1 hba
    exact hone items' items h' h a b ha hb ((precedes_iff (hnodup items' h')).1 hab)
      ((precedes_iff (hnodup items h)).1 hba)
  · intro hsame items items' h h' a b ha hb hab hba
    have hab := pair_sublist_filter.2 ⟨(precedes_iff (hnodup items h)).2 hab, ha, hb⟩
    have hba := pair_sublist_filter.2 ⟨(precedes_iff (hnodup items' h')).2 hba, hb, ha⟩
    rw [hsame items items' h h'] at hba
    exact not_pair_sublist_swap
      (((hpassed items).nodup_iff.2 (hnodup items h)).filter _) hab hba

/-- What comes out depends on the list only through an order that the names allow. -/
theorem independent_iff {files : ArraySort p.comparer E → List E → Option (List E)}
    {out : List E → List E} {entries : List E}
    (hfiles : ∀ sort entries', entries'.Perm entries →
      files sort entries' = some (out (sortedLists p sort filename entries').entries)) :
    (∀ sort entries', entries'.Perm entries → files sort entries' = files sort entries) ↔
      ∀ items items', Ordered p filename entries items → Ordered p filename entries items' →
        out items' = out items := by
  constructor
  · intro hsame items items' h h'
    have hitems : ∀ items, Ordered p filename entries items →
        files (insertionSort p.comparer E) entries = some (out items) := by
      intro items h
      rw [← hsame _ items h.1, hfiles _ items h.1, sortedLists_insertionSort h]
    exact Option.some.inj ((hitems items' h').symm.trans (hitems items h))
  · intro hout sort entries' hperm
    have hordered : Ordered p filename entries' _ := sortedLists_ordered sort entries'
    rw [hfiles sort entries' hperm, hfiles sort entries (.refl _)]
    exact congrArg some (hout _ _ (sortedLists_ordered sort entries)
      ⟨hordered.1.trans hperm, hordered.2⟩)

/-! ## The two selections -/

theorem selectsRar_iff {entries : List E} :
    Selects p filename (fun sort => sortRarLists p sort filename)
        (fun sort => sortRarFiles p sort filename) (carriesRar p) entries ↔
      (Distinct filename entries → InOneOrder p filename entries) := by
  have hindependent := @independent_iff E p filename (fun sort => sortRarFiles p sort filename)
    (fun items => (passed p.comparer filename items).all.filter (acceptsRar p filename)) entries
    fun sort entries' _ => sortRarFiles_eq sort filename entries'
  constructor
  · intro h hdistinct
    exact (inOneOrder_iff hdistinct).2 (hindependent.1 (h.independent hdistinct))
  · intro hone
    refine ⟨fun sort => ?_, fun sort => ?_, fun hdistinct => ?_⟩
    · obtain ⟨l, hl, hnames, -⟩ := sortRarLists_paired sort filename entries
      exact ⟨l, hl, hnames⟩
    · have hperm := sortedLists_perm sort filename entries
      exact ⟨_, sortRarFiles_eq sort filename entries,
        ((passed_perm p.comparer filename _).trans hperm).filter _⟩
    · exact hindependent.2 ((inOneOrder_iff hdistinct).1 (hone hdistinct))

theorem hasExtensions_of_complete {entries : List E}
    (h : ∃ volumes, sort7zFiles p sort filename entries = some volumes) :
    HasExtensions p filename entries := by
  intro e he name hname hnone
  obtain ⟨volumes, hvolumes⟩ := h
  have hmem := (sortedLists_perm sort filename entries).mem_iff.2 he
  have hthrows : sort7zFiles p sort filename entries = none :=
    whereM_eq_none hmem (by rw [hname]; exact verify7z_eq_none p hnone)
  rw [hthrows] at hvolumes
  cases hvolumes

theorem selects7z_iff {entries : List E} :
    Selects p filename (fun sort entries => some (sortedLists p sort filename entries))
        (fun sort => sort7zFiles p sort filename) (carries7z p) entries ↔
      HasExtensions p filename entries ∧ (Distinct filename entries →
        ToldApart p filename (entries.filter (accepts7z p filename))) := by
  have hindependent := fun hext : HasExtensions p filename entries =>
    @independent_iff E p filename (fun sort => sort7zFiles p sort filename)
      (List.filter (accepts7z p filename)) entries
      fun _ _ hperm => sort7zFiles_eq fun e he => hext e (hperm.mem_iff.1 he)
  constructor
  · intro h
    obtain ⟨volumes, hvolumes, -⟩ := h.complete (insertionSort p.comparer E)
    have hext := hasExtensions_of_complete ⟨volumes, hvolumes⟩
    exact ⟨hext, fun hdistinct =>
      toldApart_of_filter_eq hdistinct ((hindependent hext).1 (h.independent hdistinct))⟩
  · rintro ⟨hext, happart⟩
    refine ⟨fun sort => ⟨_, rfl, sortedLists_names sort filename entries⟩, fun sort => ?_,
      fun hdistinct => (hindependent hext).2 fun items items' hitems hitems' => ?_⟩
    · exact ⟨_, sort7zFiles_eq hext, (sortedLists_perm sort filename entries).filter _⟩
    · exact hitems.filter_eq hitems' hdistinct (happart hdistinct)

/-- Nothing is lost where every name has an extension, and of distinct names, the accepted
ones can come in one order only. -/
theorem losesNothing_iff (p : Platform) (filename : E → Option Text) (entries : List E) :
    LosesNothing p filename entries ↔
      HasExtensions p filename entries ∧ (Distinct filename entries →
        ToldApart p filename (entries.filter (accepts7z p filename)) ∧
          InOneOrder p filename entries) := by
  constructor
  · rintro ⟨hrar, hsevenZip⟩
    obtain ⟨hext, happart⟩ := selects7z_iff.1 hsevenZip
    exact ⟨hext, fun hdistinct => ⟨happart hdistinct, selectsRar_iff.1 hrar hdistinct⟩⟩
  · rintro ⟨hext, happart⟩
    exact ⟨selectsRar_iff.2 fun hdistinct => (happart hdistinct).2,
      selects7z_iff.2 ⟨hext, fun hdistinct => (happart hdistinct).1⟩⟩

theorem losesNothing_twoVolumes :
    LosesNothing ⟨false, ordinal⟩ some ["a.7z.002".toList, "a.7z.001".toList] := by
  have happart : ToldApart ⟨false, ordinal⟩ some ["a.7z.002".toList, "a.7z.001".toList] := by
    intro a ha b hb
    rcases List.mem_pair.1 ha with rfl | rfl <;> rcases List.mem_pair.1 hb with rfl | rfl <;>
      decide
  refine (losesNothing_iff ⟨false, ordinal⟩ some ["a.7z.002".toList, "a.7z.001".toList]).2
    ⟨?_, fun hdistinct => ⟨?_, inOneOrder_of_toldApart hdistinct happart⟩⟩
  · intro e he name hname
    obtain rfl := Option.some.inj hname
    rcases List.mem_pair.1 he with rfl | rfl <;> decide
  · exact fun a ha b hb => happart a (List.mem_of_mem_filter ha) b (List.mem_of_mem_filter hb)

/-- A file without an extension is enough for `Sort7zFiles` to throw. -/
theorem readme_not_kept : ¬LosesNothing ⟨false, ordinal⟩ some ["readme".toList] := by
  rintro ⟨-, hsevenZip⟩
  exact (selects7z_iff.1 hsevenZip).1 "readme".toList List.mem_cons_self _ rfl (by decide)

end

end DirectPackageInstaller.Volumes
