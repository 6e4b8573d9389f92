import DirectPackageInstaller.Lib.PercentEncoding
import DirectPackageInstaller.Lib.Pieces
import DirectPackageInstaller.Lib.Search
import DirectPackageInstaller.Lib.TextCompare
import DirectPackageInstaller.Lib.WhiteSpace

/-!
# The URL box

`UrlChanged` runs whenever the text of the URL box changes, also when it changed the
text itself.  Several lines are a list of links, of which the first one stays in the
box.  A URL that is not valid is repaired: its path is unescaped and escaped again, and
then some escapes are taken back; the query only gets a few replacements.

* `unescape_replaceAll`: the replacements only change how characters are spelled.
* `repaired_means`: a repaired URL says what the URL said, in characters that are safe.
* `urlChanged_settles`: the box comes to rest after two changes.
-/

namespace DirectPackageInstaller.UrlChanged

open Text PercentEncoding

/-! ## The code -/

/-- What the box relies on.  `isValidURL` is the parser of `System.Uri`. -/
structure Platform where
  comparer : Comparer
  isValidURL : Text → Bool
  fileExists : Text → Bool

/-- `PathReplaces`. -/
def pathReplaces : List (Text × Text) :=
  [("%2f".toList, "/".toList), ("%2F".toList, "/".toList), ("[".toList, "%5b".toList),
    ("]".toList, "%5d".toList), ("%2b".toList, "+".toList), ("%2B".toList, "+".toList),
    ("%28".toList, "(".toList), ("%29".toList, ")".toList)]

/-- `QueryReplaces`. -/
def queryReplaces : List (Text × Text) :=
  [("%2f".toList, "/".toList), ("%2F".toList, "/".toList), ("[".toList, "%5b".toList),
    ("]".toList, "%5d".toList)]

/-- The loop over the replacements. -/
def replaceAll (pairs : List (Text × Text)) (text : Text) : Text :=
  pairs.foldl (fun text pair => replace pair.1 pair.2 text) text

/-- `PathOrQueryPos`; `none` stands for -1. -/
def pathOrQueryPos (url : Text) : Option Nat :=
  let start := match Search.findFirst "://".toList url with
    | some i => i + 3
    | none => 2
  ((url.drop start).findIdx? fun c => c == '/' || c == '?').map (start + ·)

def repairPath (path : Text) : Text := replaceAll pathReplaces (escape (unescape path))

def repairQuery (query : Text) : Text := replaceAll queryReplaces query

/-- `NewUrl`; `none` where the handler returns. -/
def repair (url : Text) : Option Text :=
  (pathOrQueryPos url).map fun pos =>
    let pathAndQuery := url.drop pos
    url.take pos ++ repairPath (pathAndQuery.takeWhile (· ≠ '?')) ++
      repairQuery (pathAndQuery.dropWhile (· ≠ '?'))

inductive LoadContent where
  | open
  | load
deriving DecidableEq, Repr

/-- What the handler does: the caption of the button, the text that it puts into the
box, the links that it analyzes, and whether it closes the package stream. -/
structure Change where
  btnLoad : LoadContent
  currentURL : Option Text
  links : Option (List Text)
  closes : Bool
deriving DecidableEq, Repr

variable (p : Platform)

def startsWithHttp (url : Text) : Bool := p.comparer.startsWith url "http".toList

/-- `Links`. -/
def linksOf (url : Text) : List Text :=
  (((replace "\r\n".toList "\n".toList url).splitOnP (· == '\n')).map trimWhite).filter
    (startsWithHttp p)

def urlChanged (url : Text) : Change :=
  let btnLoad := if White url ∧ p.fileExists url = false then LoadContent.open else .load
  if '\n' ∈ url then
    match linksOf p url with
    | [] => ⟨btnLoad, some [], none, false⟩
    | link :: links => ⟨btnLoad, some link, some (link :: links), false⟩
  else if startsWithHttp p url && !p.isValidURL url then
    match repair url with
    | none => ⟨btnLoad, none, none, false⟩
    | some newUrl => ⟨btnLoad, if p.isValidURL newUrl then some newUrl else none, none, true⟩
  else ⟨btnLoad, none, none, true⟩

/-- The text of the box after the handler. -/
def boxAfter (url : Text) : Text := (urlChanged p url).currentURL.getD url

/-! ## The replacements -/

/-- A replacement as the tokens that it is about. -/
def pairText (pair : Token × Token) : Text × Text := (pair.1.text, pair.2.text)

def queryTokens : List (Token × Token) :=
  [(.escaped '2' 'f', .plain '/'), (.escaped '2' 'F', .plain '/'),
    (.plain '[', .escaped '5' 'b'), (.plain ']', .escaped '5' 'd')]

def pathTokens : List (Token × Token) :=
  queryTokens ++ [(.escaped '2' 'b', .plain '+'), (.escaped '2' 'B', .plain '+'),
    (.escaped '2' '8', .plain '('), (.escaped '2' '9', .plain ')')]

theorem queryReplaces_eq : queryReplaces = queryTokens.map pairText := by decide

theorem pathReplaces_eq : pathReplaces = pathTokens.map pairText := by decide

theorem interchangeable_pathTokens : ∀ pair ∈ pathTokens, Interchangeable pair.1 pair.2 := by
  intro pair hpair
  simp only [pathTokens, queryTokens, List.cons_append, List.nil_append, List.mem_cons,
    List.not_mem_nil, or_false] at hpair
  rcases hpair with rfl | rfl | rfl | rfl | rfl | rfl | rfl | rfl
  · exact ⟨by decide, by decide, '/', by decide⟩
  · exact ⟨by decide, by decide, '/', by decide⟩
  · exact ⟨by decide, by decide, '[', by decide⟩
  · exact ⟨by decide, by decide, ']', by decide⟩
  · exact ⟨by decide, by decide, '+', by decide⟩
  · exact ⟨by decide, by decide, '+', by decide⟩
  · exact ⟨by decide, by decide, '(', by decide⟩
  · exact ⟨by decide, by decide, ')', by decide⟩

theorem interchangeable_queryTokens : ∀ pair ∈ queryTokens, Interchangeable pair.1 pair.2 :=
  fun pair hpair => interchangeable_pathTokens pair (List.mem_append_left _ hpair)

/-- Replacements that are about tokens do not change what a text says. -/
theorem unescape_replaceAll {pairs : List (Token × Token)}
    (h : ∀ pair ∈ pairs, Interchangeable pair.1 pair.2) (text : Text) :
    unescape (replaceAll (pairs.map pairText) text) = unescape text := by
  induction pairs generalizing text with
  | nil => rfl
  | cons pair pairs ih =>
    show unescape (replaceAll (pairs.map pairText) (replace pair.1.text pair.2.text text)) = _
    rw [ih fun pair hpair => h pair (List.mem_cons_of_mem _ hpair)]
    exact unescape_replace (h pair (List.mem_cons_self ..)) text

/-- A token once the replacements are made. -/
def respell (pairs : List (Token × Token)) (t : Token) : Token :=
  pairs.foldl (fun t pair => subst pair.1 pair.2 t) t

theorem respell_cons (pair : Token × Token) (pairs : List (Token × Token)) (t : Token) :
    respell (pair :: pairs) t = respell pairs (subst pair.1 pair.2 t) := rfl

/-- The tokens after the replacements. -/
theorem tokens_replaceAll {pairs : List (Token × Token)}
    (h : ∀ pair ∈ pairs, Interchangeable pair.1 pair.2) (text : Text) :
    tokens (replaceAll (pairs.map pairText) text) =
      (tokens text).map (respell pairs) := by
  induction pairs generalizing text with
  | nil => exact (List.map_id _).symm
  | cons pair pairs ih =>
    have hpair := h pair (List.mem_cons_self ..)
    show tokens (replaceAll (pairs.map pairText) (replace pair.1.text pair.2.text text)) = _
    rw [ih fun pair hpair => h pair (List.mem_cons_of_mem _ hpair),
      tokens_replace hpair.old_sought hpair.new_sought, List.map_map]
    rfl

theorem unescape_repairPath (path : Text) : unescape (repairPath path) = unescape path := by
  rw [repairPath, pathReplaces_eq, unescape_replaceAll interchangeable_pathTokens,
    unescape_escape]

theorem unescape_repairQuery (query : Text) : unescape (repairQuery query) = unescape query := by
  rw [repairQuery, queryReplaces_eq, unescape_replaceAll interchangeable_queryTokens]

/-! ## What the repaired parts are made of -/

/-- A token that no replacement makes was there before. -/
theorem eq_of_respell {pairs : List (Token × Token)} {t t' : Token}
    (hmade : ∀ pair ∈ pairs, pair.2 ≠ t') (h : respell pairs t = t') : t = t' := by
  induction pairs generalizing t with
  | nil => exact h
  | cons pair pairs ih =>
    rw [respell_cons] at h
    have hsubst := ih (fun pair hpair => hmade pair (List.mem_cons_of_mem _ hpair)) h
    unfold subst at hsubst
    split at hsubst
    · exact absurd hsubst (hmade pair (List.mem_cons_self ..))
    · exact hsubst

/-- An escape, or a character that may stand in a path. -/
def Safe : Token → Prop
  | .plain c => isUnreserved c = true ∨ c ∈ ['/', '+', '(', ')']
  | .escaped _ _ => True

theorem safe_repairPath (path : Text) : ∀ t ∈ tokens (repairPath path), Safe t := by
  have hmade : ∀ pair ∈ pathTokens, Safe pair.2 := by
    simp [pathTokens, queryTokens, Safe]
  have hrespell : ∀ pairs : List (Token × Token), (∀ pair ∈ pairs, Safe pair.2) →
      ∀ t, Safe t → Safe (respell pairs t) := by
    intro pairs
    induction pairs with
    | nil => exact fun _ t ht => ht
    | cons pair pairs ih =>
      intro hpairs t ht
      rw [respell_cons]
      apply ih fun pair hpair => hpairs pair (List.mem_cons_of_mem _ hpair)
      unfold subst
      split
      · exact hpairs pair (List.mem_cons_self ..)
      · exact ht
  intro t ht
  rw [repairPath, pathReplaces_eq, tokens_replaceAll interchangeable_pathTokens,
    tokens_escape] at ht
  obtain ⟨t', ht', rfl⟩ := List.mem_map.1 ht
  apply hrespell _ hmade
  obtain ⟨c, -, hc⟩ := List.mem_flatMap.1 ht'
  unfold escapeTokens at hc
  split at hc
  · rename_i hunreserved
    rw [List.mem_singleton] at hc
    rw [hc]
    exact Or.inl hunreserved
  · obtain ⟨b, -, rfl⟩ := List.mem_map.1 hc
    trivial

/-- No bracket is left in a query. -/
theorem bracket_not_mem_repairQuery {c : Char} (hc : c = '[' ∨ c = ']') (query : Text) :
    c ∉ repairQuery query := by
  have hsought : Token.Sought (.plain c) := by rcases hc with rfl | rfl <;> decide
  have hmade : ∀ pair ∈ queryTokens, pair.2 ≠ .plain c := by rcases hc with rfl | rfl <;> decide
  have hgone : respell queryTokens (.plain c) ≠ .plain c := by rcases hc with rfl | rfl <;> decide
  intro hin
  have hplain := plain_mem_tokens hsought hin
  rw [repairQuery, queryReplaces_eq, tokens_replaceAll interchangeable_queryTokens] at hplain
  obtain ⟨t, -, ht⟩ := List.mem_map.1 hplain
  have hsame : t = .plain c := eq_of_respell hmade ht
  rw [hsame] at ht
  exact hgone ht

/-- No line break gets into a repaired URL. -/
theorem newline_not_mem_repair (path : Text) {query : Text} (hquery : '\n' ∉ query) :
    '\n' ∉ repairPath path ∧ '\n' ∉ repairQuery query := by
  have hsought : Token.Sought (.plain '\n') := by decide
  constructor
  · intro hin
    have hsafe := safe_repairPath path _ (plain_mem_tokens hsought hin)
    exact absurd hsafe (by simp [Safe, isUnreserved])
  · intro hin
    have hplain := plain_mem_tokens hsought hin
    rw [repairQuery, queryReplaces_eq, tokens_replaceAll interchangeable_queryTokens] at hplain
    obtain ⟨t, ht, hrespell⟩ := List.mem_map.1 hplain
    have hsame : t = .plain '\n' := eq_of_respell (by decide) hrespell
    rw [hsame] at ht
    apply hquery
    have hrender : '\n' ∈ render (tokens query) :=
      List.mem_flatMap.2 ⟨_, ht, List.mem_singleton_self _⟩
    rwa [render_tokens] at hrender

/-! ## The handler -/

variable {p}

/-- A path begins with a slash and has no question mark, with which a query begins. -/
structure Delimited (path query : Text) : Prop where
  slash : path = [] ∨ path.head? = some '/'
  path_mark : '?' ∉ path
  mark : query = [] ∨ query.head? = some '?'

/-- Where the authority of a URL begins: behind the first `://`, or behind two characters
where there is none. -/
def AuthorityAt (url : Text) (start : Nat) : Prop :=
  (∃ i, Search.FirstAt "://".toList url i ∧ start = i + 3) ∨
    (∀ i, ¬ Search.OccursAt "://".toList url i) ∧ start = 2

/-- The parts of a URL.  The host is everything up to the end of the authority. -/
structure Parts (url host path query : Text) : Prop where
  eq : url = host ++ path ++ query
  authority : ∃ start ≤ host.length, AuthorityAt url start ∧
    '/' ∉ host.drop start ∧ '?' ∉ host.drop start
  delimited : Delimited path query

theorem authorityAt_findFirst (url : Text) :
    AuthorityAt url (match Search.findFirst "://".toList url with
      | some i => i + 3
      | none => 2) := by
  cases hfind : Search.findFirst "://".toList url with
  | some i => exact Or.inl ⟨i, Search.findFirst_firstAt hfind, rfl⟩
  | none =>
    refine Or.inr ⟨fun i hi => ?_, rfl⟩
    obtain ⟨j, -, hj⟩ := Search.findFirst_isSome hi
    rw [hfind] at hj
    cases hj

/-- What is cut at the first question mark, behind a slash or at the question mark. -/
theorem delimited_cut {rest : Text} (h : rest.head? = some '/' ∨ rest.head? = some '?') :
    Delimited (rest.takeWhile (· ≠ '?')) (rest.dropWhile (· ≠ '?')) where
  slash := by
    cases rest with
    | nil => exact Or.inl rfl
    | cons c rest =>
      simp only [List.head?_cons, Option.some.injEq] at h
      rcases h with rfl | rfl
      · exact Or.inr rfl
      · exact Or.inl rfl
  path_mark := by
    intro hin
    simpa using List.mem_takeWhile_imp hin
  mark := by
    cases hquery : rest.dropWhile (· ≠ '?') with
    | nil => exact Or.inl rfl
    | cons c tail =>
      right
      have hfirst := List.head?_dropWhile_not (fun x : Char => decide (x ≠ '?')) rest
      rw [hquery] at hfirst
      simp at hfirst
      rw [hfirst]
      rfl

theorem parts_of_pos {url : Text} {pos : Nat} (h : pathOrQueryPos url = some pos) :
    Parts url (url.take pos) ((url.drop pos).takeWhile (· ≠ '?'))
      ((url.drop pos).dropWhile (· ≠ '?')) := by
  have hauthority := authorityAt_findFirst url
  unfold pathOrQueryPos at h
  dsimp only at h
  generalize (match Search.findFirst "://".toList url with
    | some i => i + 3
    | none => 2) = start at h hauthority
  obtain ⟨k, hk, rfl⟩ := Option.map_eq_some_iff.1 h
  obtain ⟨hlt, hhit, hbefore⟩ := List.findIdx?_eq_some_iff_getElem.1 hk
  have hlen := hlt
  rw [List.length_drop] at hlen
  have hclear : ∀ c ∈ (url.take (start + k)).drop start, c ≠ '/' ∧ c ≠ '?' := by
    intro c hc
    rw [List.drop_take, Nat.add_sub_cancel_left] at hc
    obtain ⟨j, hj, rfl⟩ := List.mem_take_iff_getElem.1 hc
    have hno := hbefore j (by omega)
    simpa using hno
  refine ⟨?_, ⟨start, ?_, hauthority, fun hin => (hclear _ hin).1 rfl,
    fun hin => (hclear _ hin).2 rfl⟩, delimited_cut ?_⟩
  · rw [List.append_assoc, List.takeWhile_append_dropWhile, List.take_append_drop]
  · rw [List.length_take]
    omega
  · have hhead : (url.drop (start + k)).head? = some (url.drop start)[k] := by
      rw [List.head?_drop, List.getElem_drop, List.getElem?_eq_getElem]
    rw [hhead]
    simpa using hhit

theorem head?_of_tokens {text : Text} {c : Char} {ts : List Token}
    (h : tokens text = .plain c :: ts) : text.head? = some c := by
  rw [← render_tokens text, h]
  rfl

theorem delimited_repair {path query : Text} (h : Delimited path query) :
    Delimited (repairPath path) (repairQuery query) where
  slash := by
    cases path with
    | nil => exact Or.inl (by decide)
    | cons c path =>
      obtain rfl : c = '/' := by simpa using h.slash
      right
      have hslash : Token.Sought (.plain '/') := by decide
      have hunescape : unescape ('/' :: path) = '/' :: unescape path :=
        unescape_append hslash [] path
      apply head?_of_tokens
      rw [repairPath, pathReplaces_eq, tokens_replaceAll interchangeable_pathTokens, tokens_escape,
        hunescape]
      rfl
  path_mark := by
    intro hin
    have hsafe := safe_repairPath path _ (plain_mem_tokens (by decide) hin)
    exact absurd hsafe (by simp [Safe, isUnreserved])
  mark := by
    cases query with
    | nil => exact Or.inl (by decide)
    | cons c query =>
      obtain rfl : c = '?' := by simpa using h.mark
      right
      have hmark : Token.Sought (.plain '?') := by decide
      have htokens : tokens ('?' :: query) = .plain '?' :: tokens query :=
        tokens_append hmark [] query
      apply head?_of_tokens
      rw [repairQuery, queryReplaces_eq, tokens_replaceAll interchangeable_queryTokens, htokens]
      rfl

/-- `new` has the host of `url`, and its path and its query in another spelling. -/
def Repaired (url new : Text) : Prop :=
  ∃ host path query path' query', Parts url host path query ∧
    new = host ++ path' ++ query' ∧ Delimited path' query' ∧
    unescape path' = unescape path ∧ (∀ t ∈ tokens path', Safe t) ∧
    unescape query' = unescape query ∧ '[' ∉ query' ∧ ']' ∉ query'

theorem repaired_of_repair {url new : Text} (h : repair url = some new) : Repaired url new := by
  obtain ⟨pos, hpos, rfl⟩ := Option.map_eq_some_iff.1 h
  have hparts := parts_of_pos hpos
  exact ⟨_, _, _, _, _, hparts, rfl, delimited_repair hparts.delimited, unescape_repairPath _,
    safe_repairPath _, unescape_repairQuery _, bracket_not_mem_repairQuery (Or.inl rfl) _,
    bracket_not_mem_repairQuery (Or.inr rfl) _⟩

theorem newline_not_mem_of_repair {url new : Text} (hline : '\n' ∉ url)
    (h : repair url = some new) : '\n' ∉ new := by
  obtain ⟨pos, hpos, rfl⟩ := Option.map_eq_some_iff.1 h
  rw [(parts_of_pos hpos).eq, List.mem_append, List.mem_append, not_or, not_or] at hline
  obtain ⟨hpath, hquery⟩ :=
    newline_not_mem_repair ((url.drop pos).takeWhile (· ≠ '?')) hline.2
  rw [List.mem_append, List.mem_append, not_or, not_or]
  exact ⟨⟨hline.1.1, hpath⟩, hquery⟩

theorem urlChanged_line {url : Text} (hline : '\n' ∉ url) :
    (urlChanged p url).currentURL =
      if startsWithHttp p url = true ∧ p.isValidURL url = false then
        (repair url).bind fun new => if p.isValidURL new then some new else none
      else none := by
  unfold urlChanged
  dsimp only
  rw [if_neg hline]
  by_cases hbad : startsWithHttp p url = true ∧ p.isValidURL url = false
  · rw [if_pos (by simp [hbad.1, hbad.2]), if_pos hbad]
    cases repair url <;> rfl
  · rw [if_neg (by simpa using hbad), if_neg hbad]

theorem repair_of_line {url new : Text} (hline : '\n' ∉ url)
    (h : (urlChanged p url).currentURL = some new) :
    p.isValidURL new = true ∧ repair url = some new := by
  rw [urlChanged_line hline] at h
  obtain ⟨-, hbind⟩ := Option.ite_none_right_eq_some.1 h
  obtain ⟨new', hrepair, hvalid⟩ := Option.bind_eq_some_iff.1 hbind
  obtain ⟨hvalid, heq⟩ := Option.ite_none_right_eq_some.1 hvalid
  cases heq
  exact ⟨hvalid, hrepair⟩

/-- What the handler puts into the box for a single line is valid, and is the line with
its path and its query spelled in another way: both say the same as before. -/
theorem repaired_means {url new : Text} (hline : '\n' ∉ url)
    (h : (urlChanged p url).currentURL = some new) :
    p.isValidURL new = true ∧ Repaired url new := by
  obtain ⟨hvalid, hrepair⟩ := repair_of_line hline h
  exact ⟨hvalid, repaired_of_repair hrepair⟩

/-- A blank in a path. -/
theorem repaired_means_blank :
    let p : Platform := ⟨ordinal, fun url => !url.contains ' ', fun _ => false⟩
    p.isValidURL "http://h/a%20b".toList = true ∧
      Repaired "http://h/a b".toList "http://h/a%20b".toList :=
  repaired_means (p := ⟨ordinal, fun url => !url.contains ' ', fun _ => false⟩) (by decide)
    (by decide +kernel)

/-- A single line stays, or it becomes a valid URL. -/
theorem boxAfter_line {url : Text} (hline : '\n' ∉ url) :
    boxAfter p url = url ∨ '\n' ∉ boxAfter p url ∧ p.isValidURL (boxAfter p url) = true := by
  unfold boxAfter
  cases hnew : (urlChanged p url).currentURL with
  | none => exact Or.inl rfl
  | some new =>
    right
    obtain ⟨hvalid, hrepair⟩ := repair_of_line hline hnew
    exact ⟨newline_not_mem_of_repair hline hrepair, hvalid⟩

theorem boxAfter_valid {url : Text} (hline : '\n' ∉ url) (hvalid : p.isValidURL url = true) :
    boxAfter p url = url := by
  rw [boxAfter, urlChanged_line hline, if_neg (by simp [hvalid])]
  rfl

theorem newline_not_mem_links {url link : Text} (h : link ∈ linksOf p url) : '\n' ∉ link := by
  unfold linksOf at h
  obtain ⟨piece, hpiece, rfl⟩ := List.mem_map.1 (List.mem_filter.1 h).1
  intro hin
  have htrim : '\n' ∈ piece := by
    obtain ⟨w, w', -, -, hparts⟩ := exists_trimWhite piece
    rw [hparts]
    simp [hin]
  have hnot := (Pieces.mem_of_mem_splitOnP hpiece _ htrim).2
  cases hnot

/-- After one change there is a single line in the box. -/
theorem newline_not_mem_boxAfter (url : Text) : '\n' ∉ boxAfter p url := by
  by_cases hline : '\n' ∈ url
  · unfold boxAfter urlChanged
    dsimp only
    rw [if_pos hline]
    cases hlinks : linksOf p url with
    | nil => exact List.not_mem_nil
    | cons link links =>
      apply newline_not_mem_links (p := p)
      rw [hlinks]
      exact List.mem_cons_self
  · rcases boxAfter_line (p := p) hline with hsame | hnew
    · rw [hsame]
      exact hline
    · exact hnew.1

/-- The handler changes the text of the box at most twice, whatever is typed. -/
theorem urlChanged_settles (p : Platform) (url : Text) :
    boxAfter p (boxAfter p (boxAfter p url)) = boxAfter p (boxAfter p url) := by
  have hline := newline_not_mem_boxAfter (p := p) url
  rcases boxAfter_line (p := p) hline with hsame | ⟨hnext, hvalid⟩
  · rw [hsame, hsame]
  · exact boxAfter_valid hnext hvalid

end DirectPackageInstaller.UrlChanged
