import DirectPackageInstaller.Host.Links
import DirectPackageInstaller.Tasks.Decompressor.Volumes

/-!
# Pushing packages from the command line

`Main` pushes one package, or every line of a `.txt` list.  Its loop keeps the argument
in `URL` and puts the link that it pushes in the same variable, so that an iteration
starts from the link of the one before.

The machine of the model has the files and links with their packages.  The console takes
every package that is pushed.

An entry is a file if there is a file of that path, and else a link.  The program tells
them apart by `StartsWith("http")`, too, so that it takes `http_game.pkg` for a link.

* `iteration_file` and `iteration_link`: what an iteration pushes.
* `pushed_iff`: for which arguments every entry is pushed under a link that denotes it.
-/

namespace DirectPackageInstaller.Program

open Text Links Volumes

/-! ## The code -/

/-- What the program finds around it. -/
structure Machine where
  platform : Platform
  /-- `URL.StartsWith("http")`, in the culture of the thread. -/
  startsWithHttp : Text → Bool
  startsWithHttp_link : ∀ rest, startsWithHttp ("http://".toList ++ rest) = true
  fileExists : Text → Bool
  readAllLines : Text → List Text
  /-- `Limited` of the file host for a URL, if there is one. -/
  fileHost : Text → Option Bool
  /-- `GetPKGInfo` of a file stream; `false` also where opening it throws. -/
  filePackage : Text → Bool
  /-- `GetPKGInfo` of a network stream. -/
  linkPackage : Text → Bool

/-- `!URL.StartsWith("http") && File.Exists(URL)`. -/
def Machine.isFile (m : Machine) (url : Text) : Bool :=
  !m.startsWithHttp url && m.fileExists url

/-- `Path.GetExtension(URL).Equals(".txt", …)`. -/
def Machine.isText (m : Machine) (url : Text) : Bool :=
  m.platform.comparer.equals (getExtension m.platform.windows url) ".txt".toList

/-- `ListInput`. -/
def Machine.isList (m : Machine) (url : Text) : Bool :=
  m.isFile url && m.isText url

/-- `Entries`. -/
def Machine.entries (m : Machine) (url : Text) : List Text :=
  if m.isList url then (m.readAllLines url).filter fun line => !decide (White line) else [url]

/-- A new `FileHostStream`. -/
structure FileHostStream where
  url : Option Text
  directLink : Bool
  singleConnection : Bool

/-- Where a host is responsible there is no URL yet. -/
def Machine.hostStream (m : Machine) (url : Text) : FileHostStream :=
  match m.fileHost url with
  | none => ⟨some url, true, false⟩
  | some limited => ⟨none, true, limited⟩

/-- `URL` and `Proxy`; a link may be missing. -/
structure State where
  url : Option Text
  proxy : Bool
deriving DecidableEq, Repr

/-- The link to the server itself around `URL`; it throws where that is missing. -/
def State.wrap (server : Text) (route : Route) (s : State) : Option State :=
  s.url.map fun url => ⟨some (link server route url), true⟩

/-- The branch of an iteration for links.  A link that is direct is pushed as it is. -/
def fromLink (m : Machine) (server directURL : Text) (s : State) : Option State :=
  let stream := m.hostStream directURL
  let s := if stream.directLink && !stream.singleConnection && !s.proxy then
      { s with url := stream.url } else s
  if !m.linkPackage directURL then none
  else if stream.singleConnection then s.wrap server .cache
  else if !stream.directLink || s.proxy then s.wrap server .proxy
  else some s

/-- An iteration, whose `URL` is given to `SendPKGPayload` at the end; `none` where it
throws or returns before. -/
def iteration (m : Machine) (server : Text) (s : State) (directURL : Text) : Option State :=
  match s.url with
  | none => none
  | some url =>
    if m.isFile url then
      if m.filePackage directURL then s.wrap server .file else none
    else fromLink m server directURL s

/-- The links that the loop pushes, in turn. -/
def pushes (m : Machine) (server : Text) : State → List Text → List (Option Text)
  | _, [] => []
  | s, directURL :: rest =>
    match iteration m server s directURL with
    | none => []
    | some s => s.url :: pushes m server s rest

/-! ## What is asked of the links -/

/-- An existing package file. -/
structure Machine.File (m : Machine) (entry : Text) : Prop where
  found : m.fileExists entry = true
  package : m.filePackage entry = true
  noLink : m.linkPackage entry = false

/-- A direct link that no file host is responsible for. -/
structure Machine.Direct (m : Machine) (entry : Text) : Prop where
  noHost : m.fileHost entry = none
  package : m.linkPackage entry = true
  notExists : m.fileExists entry = false
  noFile : m.filePackage entry = false

/-- An existing `.txt` file. -/
def Machine.ListFile (m : Machine) (url : Text) : Prop :=
  m.fileExists url = true ∧ m.isText url = true

instance (m : Machine) (url : Text) : Decidable (m.ListFile url) :=
  inferInstanceAs (Decidable (_ ∧ _))

/-- The lines of a list, or the argument itself. -/
def Machine.listed (m : Machine) (url : Text) : List Text :=
  if m.ListFile url then (m.readAllLines url).filter fun line => !decide (White line) else [url]

/-- The argument is a direct link, a package file or a list of such, which is no link. -/
structure Machine.Listed (m : Machine) (url : Text) : Prop where
  entries : ∀ entry ∈ m.listed url, m.File entry ∨ m.Direct entry
  noLink : m.ListFile url → m.linkPackage url = false

/-- A link for an entry: to the file, or to the link through the proxy or not. -/
def Denotes (m : Machine) (server entry url : Text) : Prop :=
  if m.fileExists entry then url = link server .file entry
  else url = entry ∨ url = link server .proxy entry

/-- Every entry is pushed under a link of its own. -/
def Pushed (m : Machine) (server url : Text) (proxy : Bool) : Prop :=
  ∀ i (hi : i < (m.listed url).length), ∃ pushed,
    (pushes m server ⟨some url, proxy⟩ (m.entries url))[i]? = some (some pushed) ∧
      Denotes m server (m.listed url)[i] pushed

/-- The file link of a list, and then proxy links around it. -/
def nested (server path : Text) : Nat → Text
  | 0 => link server .file path
  | n + 1 => link server .proxy (nested server path n)

/-- The list starts with itself and goes on with such links. -/
def OwnLinks (m : Machine) (server path : Text) (entries : List Text) : Prop :=
  ∀ i (hi : i < entries.length), i = 0 ∧ entries[i] = path ∨
    ∃ n, i = n + 1 ∧ m.fileExists entries[i] = false ∧
      (entries[i] = nested server path n ∨ entries[i] = nested server path (n + 1))

/-! ## Links -/

theorem getBytes_injective {a b : Text} (h : getBytes a = getBytes b) : a = b := by
  rw [← getString_getBytes (fun _ => []) a, h, getString_getBytes]

theorem link_injective {server : Text} {route : Route} {a b : Text}
    (h : link server route a = link server route b) : a = b := by
  have hbytes := congrArg Base64.decode (List.append_cancel_left h)
  rw [Base64.decode_encode, Base64.decode_encode] at hbytes
  exact getBytes_injective (Option.some.inj hbytes)

theorem http_prefix_link (server : Text) (route : Route) (url : Text) :
    "http://".toList <+: link server route url := by
  unfold link
  generalize decimal serverPort = port
  simp only [List.append_assoc]
  exact List.prefix_append ..

theorem isFile_of_http (m : Machine) {url : Text} (h : m.startsWithHttp url = true) :
    m.isFile url = false := by
  rw [Machine.isFile, h]
  rfl

theorem isFile_of_notExists (m : Machine) {url : Text} (h : m.fileExists url = false) :
    m.isFile url = false := by
  rw [Machine.isFile, h, Bool.and_false]

theorem isFile_link (m : Machine) (server : Text) (route : Route) (url : Text) :
    m.isFile (link server route url) = false := by
  obtain ⟨rest, hrest⟩ := http_prefix_link server route url
  exact isFile_of_http m (hrest ▸ m.startsWithHttp_link rest)

/-! ## One iteration -/

section

variable {m : Machine} {server url directURL : Text} {proxy : Bool}

/-- With a file in `URL` the link is to that file. -/
theorem iteration_file (h : m.isFile url = true) :
    iteration m server ⟨some url, proxy⟩ directURL =
      if m.filePackage directURL then some ⟨some (link server .file url), true⟩ else none := by
  simp only [iteration, h, if_true, State.wrap, Option.map_some]

/-- With a link in `URL` and the proxy on, the link is around that one. -/
theorem iteration_link (h : m.isFile url = false) (hhost : m.fileHost directURL = none) :
    iteration m server ⟨some url, true⟩ directURL =
      if m.linkPackage directURL then some ⟨some (link server .proxy url), true⟩ else none := by
  simp only [iteration, h, fromLink, Machine.hostStream, hhost, State.wrap]
  cases m.linkPackage directURL <;> rfl

/-- Without the proxy the entry itself is pushed. -/
theorem iteration_direct (h : m.isFile url = false) (hhost : m.fileHost directURL = none)
    (hpackage : m.linkPackage directURL = true) :
    iteration m server ⟨some url, false⟩ directURL = some ⟨some directURL, false⟩ := by
  simp only [iteration, h, fromLink, Machine.hostStream, hhost, hpackage]
  rfl

/-- A file is not pushed from a link. -/
theorem iteration_noLink {s : State} {url : Text} (hurl : s.url = some url)
    (h : m.isFile url = false) (hpackage : m.linkPackage directURL = false) :
    iteration m server s directURL = none := by
  simp only [iteration, hurl, h, fromLink, hpackage]
  rfl

/-! ## A single entry -/

theorem denotes_file (h : m.fileExists url = true) :
    Denotes m server url (link server .file url) := by
  rw [Denotes, if_pos h]

theorem denotes_link {entry pushed : Text} (h : m.fileExists entry = false) :
    Denotes m server entry pushed ↔ pushed = entry ∨ pushed = link server .proxy entry := by
  rw [Denotes, if_neg (by simp [h])]

/-- From a state of the loop, every entry is pushed under a link of its own. -/
def PushedFrom (m : Machine) (server : Text) (s : State) (entries : List Text) : Prop :=
  ∀ i (hi : i < entries.length), ∃ pushed,
    (pushes m server s entries)[i]? = some (some pushed) ∧ Denotes m server entries[i] pushed

theorem pushedFrom_cons {s s' : State} {entry pushed : Text} {rest : List Text}
    (h : iteration m server s entry = some s') (hurl : s'.url = some pushed) :
    PushedFrom m server s (entry :: rest) ↔
      Denotes m server entry pushed ∧ PushedFrom m server s' rest := by
  have hpushes : pushes m server s (entry :: rest) = some pushed :: pushes m server s' rest := by
    simp only [pushes, h, hurl]
  unfold PushedFrom
  rw [hpushes]
  refine Nat.forall_lt_succ_left'.trans (and_congr_left fun _ => ?_)
  constructor
  · rintro ⟨link, hlink, hdenotes⟩
    obtain rfl := Option.some.inj (Option.some.inj hlink)
    exact hdenotes
  · exact fun hdenotes => ⟨pushed, rfl, hdenotes⟩

theorem pushedFrom_nil (s : State) : PushedFrom m server s [] :=
  fun _ hi => absurd hi (Nat.not_lt_zero _)

/-- An iteration that pushes nothing ends the program. -/
theorem not_pushedFrom_cons {s : State} {entry : Text} {rest : List Text}
    (h : iteration m server s entry = none) : ¬PushedFrom m server s (entry :: rest) := by
  intro hall
  obtain ⟨pushed, hpushed, -⟩ := hall 0 (Nat.succ_pos _)
  simp [pushes, h] at hpushed

/-- An argument that is not a list is pushed under a link that denotes it, unless it is
the path of a file that starts like a link. -/
theorem pushed_single (hlist : ¬m.ListFile url) (hlisted : m.Listed url) :
    Pushed m server url proxy ↔ (m.fileExists url = true → m.startsWithHttp url = false) := by
  have hcode : m.isList url = false := by
    rw [Bool.eq_false_iff]
    intro h
    rw [Machine.isList, Machine.isFile, Bool.and_eq_true, Bool.and_eq_true] at h
    exact hlist ⟨h.1.2, h.2⟩
  have hclaimed : m.listed url = [url] := if_neg hlist
  have hentries : m.entries url = [url] := if_neg (by simp [hcode])
  have hpushed : Pushed m server url proxy ↔ PushedFrom m server ⟨some url, proxy⟩ [url] := by
    rw [Pushed, PushedFrom]
    simp only [hclaimed, hentries]
  rw [hpushed]
  rcases hlisted.entries url (by simp [hclaimed]) with hfile | hdirect
  · cases hhttp : m.startsWithHttp url with
    | true =>
      -- the path is taken for a link
      have hnone : iteration m server ⟨some url, proxy⟩ url = none :=
        iteration_noLink rfl (isFile_of_http m hhttp) hfile.noLink
      exact iff_of_false (not_pushedFrom_cons hnone) fun h => by cases h hfile.found
    | false =>
      have hisFile : m.isFile url = true := by
        rw [Machine.isFile, hhttp, hfile.found]
        rfl
      have hstep := @iteration_file m server url url proxy hisFile
      rw [hfile.package, if_pos rfl] at hstep
      refine iff_of_true ?_ fun _ => rfl
      exact (pushedFrom_cons hstep rfl).2 ⟨denotes_file hfile.found, pushedFrom_nil _⟩
  · have hnofile := isFile_of_notExists m hdirect.notExists
    refine iff_of_true ?_ fun h => ?_
    · cases proxy with
      | false =>
        refine (pushedFrom_cons (iteration_direct hnofile hdirect.noHost hdirect.package)
          rfl).2 ⟨(denotes_link hdirect.notExists).2 (.inl rfl), pushedFrom_nil _⟩
      | true =>
        have hstep := @iteration_link m server url url hnofile hdirect.noHost
        rw [hdirect.package, if_pos rfl] at hstep
        exact (pushedFrom_cons hstep rfl).2
          ⟨(denotes_link hdirect.notExists).2 (.inr rfl), pushedFrom_nil _⟩
    · rw [hdirect.notExists] at h
      cases h

/-! ## A list -/

theorem nested_isFile (m : Machine) (server url : Text) (n : Nat) :
    m.isFile (nested server url n) = false := by
  cases n with
  | zero => exact isFile_link m server .file url
  | succ n => exact isFile_link m server .proxy _

theorem denotes_nested (server url : Text) (n : Nat) {entry : Text}
    (h : m.fileExists entry = false) :
    Denotes m server entry (nested server url (n + 1)) ↔
      entry = nested server url n ∨ entry = nested server url (n + 1) := by
  rw [denotes_link h]
  constructor
  · rintro (heq | heq)
    · exact .inr heq.symm
    · exact .inl (link_injective heq).symm
  · rintro (rfl | rfl)
    · exact .inr rfl
    · exact .inl rfl

/-- The entries behind the first one are pushed if they are the links of the loop. -/
theorem pushed_rest {rest : List Text} {n : Nat}
    (hlisted : ∀ entry ∈ rest, m.File entry ∨ m.Direct entry) :
    PushedFrom m server ⟨some (nested server url n), true⟩ rest ↔
      ∀ i (hi : i < rest.length), m.fileExists rest[i] = false ∧
        (rest[i] = nested server url (n + i) ∨ rest[i] = nested server url (n + i + 1)) := by
  induction rest generalizing n with
  | nil => simp [PushedFrom]
  | cons entry rest ih =>
    have hlinks : (∀ i (hi : i < (entry :: rest).length),
        m.fileExists (entry :: rest)[i] = false ∧
          ((entry :: rest)[i] = nested server url (n + i) ∨
            (entry :: rest)[i] = nested server url (n + i + 1))) ↔
        (m.fileExists entry = false ∧
          (entry = nested server url n ∨ entry = nested server url (n + 1))) ∧
          PushedFrom m server ⟨some (nested server url (n + 1)), true⟩ rest := by
      rw [ih fun e he => hlisted e (List.mem_cons_of_mem _ he)]
      refine Nat.forall_lt_succ_left'.trans ?_
      simp [Nat.add_assoc, Nat.add_comm 1]
    rw [hlinks]
    rcases hlisted entry List.mem_cons_self with hfile | hdirect
    · -- a file is not pushed from a link
      have hnone : iteration m server ⟨some (nested server url n), true⟩ entry = none :=
        iteration_noLink rfl (nested_isFile m server url n) hfile.noLink
      refine iff_of_false (not_pushedFrom_cons hnone) ?_
      rintro ⟨⟨hnot, -⟩, -⟩
      rw [hfile.found] at hnot
      cases hnot
    · have hstep : iteration m server ⟨some (nested server url n), true⟩ entry =
          some ⟨some (nested server url (n + 1)), true⟩ := by
        rw [iteration_link (nested_isFile m server url n) hdirect.noHost, hdirect.package,
          if_pos rfl]
        rfl
      rw [pushedFrom_cons hstep rfl, denotes_nested server url n hdirect.notExists,
        and_iff_right hdirect.notExists]

theorem ownLinks_cons {entry : Text} {rest : List Text} :
    OwnLinks m server url (entry :: rest) ↔ entry = url ∧
      ∀ i (hi : i < rest.length), m.fileExists rest[i] = false ∧
        (rest[i] = nested server url (0 + i) ∨ rest[i] = nested server url (0 + i + 1)) := by
  refine Nat.forall_lt_succ_left'.trans ?_
  simp

/-- Of a list only the empty one and one of its own links are pushed, and of a list whose
path starts like a link only the empty one. -/
theorem pushed_list (hlist : m.ListFile url) (hlisted : m.Listed url) :
    Pushed m server url proxy ↔ m.listed url = [] ∨
      m.startsWithHttp url = false ∧ OwnLinks m server url (m.listed url) := by
  cases hhttp : m.startsWithHttp url with
  | true =>
    -- the path is the only entry of the loop, and taken for a link
    have hnofile := isFile_of_http m hhttp
    have hentries : m.entries url = [url] := by
      rw [Machine.entries, Machine.isList, hnofile, Bool.false_and, if_neg Bool.false_ne_true]
    have hnone : iteration m server ⟨some url, proxy⟩ url = none :=
      iteration_noLink rfl hnofile (hlisted.noLink hlist)
    have hpushes : pushes m server ⟨some url, proxy⟩ (m.entries url) = [] := by
      simp only [hentries, pushes, hnone]
    rw [Pushed, hpushes]
    constructor
    · intro h
      refine .inl (List.eq_nil_of_length_eq_zero (Nat.eq_zero_of_not_pos fun hpos => ?_))
      obtain ⟨pushed, hpushed, -⟩ := h 0 hpos
      cases hpushed
    · rintro (hnil | ⟨hfalse, -⟩)
      · rw [hnil]
        exact fun i hi => absurd hi (Nat.not_lt_zero i)
      · cases hfalse
  | false =>
    have hfile : m.isFile url = true := by
      rw [Machine.isFile, hhttp, hlist.1]
      rfl
    have hcode : m.isList url = true := by
      rw [Machine.isList, hfile, hlist.2]
      rfl
    have hentries : m.entries url = m.listed url := by
      rw [Machine.entries, if_pos hcode, Machine.listed, if_pos hlist]
    have hpushed : Pushed m server url proxy ↔
        PushedFrom m server ⟨some url, proxy⟩ (m.listed url) := by
      rw [Pushed, hentries]
      rfl
    have hentry := hlisted.entries
    rw [hpushed, and_iff_right rfl]
    generalize m.listed url = entries at hentry ⊢
    cases entries with
    | nil => exact iff_of_true (pushedFrom_nil _) (.inl rfl)
    | cons entry rest =>
      have hrest := @pushed_rest m server url rest 0 fun e he =>
        hentry e (List.mem_cons_of_mem _ he)
      rw [or_iff_right (List.cons_ne_nil entry rest), ownLinks_cons, ← hrest]
      have hstep := @iteration_file m server url entry proxy hfile
      rcases hentry entry List.mem_cons_self with hentry | hdirect
      · rw [hentry.package, if_pos rfl] at hstep
        have hdenotes : Denotes m server entry (link server .file url) ↔ entry = url := by
          rw [Denotes, if_pos hentry.found]
          exact ⟨fun hlink => (link_injective hlink).symm, fun heq => by rw [heq]⟩
        rw [pushedFrom_cons hstep rfl, hdenotes]
        rfl
      · -- the file stream throws at a link
        rw [hdirect.noFile, if_neg Bool.false_ne_true] at hstep
        refine iff_of_false (not_pushedFrom_cons hstep) ?_
        rintro ⟨rfl, -⟩
        have hexists := hlist.1
        rw [hdirect.notExists] at hexists
        cases hexists

end

/-- Every listed package is pushed exactly where the argument is a link or the path of a
package file that does not start like a link, or a list without lines, or one of the links
of the loop. -/
theorem pushed_iff (m : Machine) (server url : Text) (proxy : Bool) (hlisted : m.Listed url) :
    Pushed m server url proxy ↔
      if m.ListFile url then
        m.listed url = [] ∨ m.startsWithHttp url = false ∧ OwnLinks m server url (m.listed url)
      else m.fileExists url = true → m.startsWithHttp url = false := by
  split
  · exact pushed_list ‹_› hlisted
  · exact pushed_single ‹_› hlisted

/-- The link that the loop makes of a list. -/
def ownLink : Text := link "pc".toList .file "own.txt".toList

/-- A direct link to a package. -/
def directLink : Text := "http://h/c.pkg".toList

/-- The files of the machine. -/
def samplePaths : List Text :=
  ["a.pkg".toList, "b.pkg".toList, "list.txt".toList, "own.txt".toList]

/-- A machine with packages, a list of two of them and a list with its own link. -/
def twoPackages : Machine where
  platform := ⟨false, ordinal⟩
  startsWithHttp url := "http".toList.isPrefixOf url
  startsWithHttp_link _ := rfl
  fileExists path := path ∈ samplePaths
  readAllLines path :=
    if path = "own.txt".toList then ["own.txt".toList, ownLink]
    else ["a.pkg".toList, "b.pkg".toList]
  fileHost _ := none
  filePackage path := path ∈ samplePaths ∧ path ≠ "list.txt".toList
  linkPackage path := path = directLink ∨ path = ownLink

theorem http_ownLink : "http://".toList <+: ownLink :=
  http_prefix_link ..

/-- A link is none of the files. -/
theorem not_mem_samplePaths {path : Text} (h : "http://".toList <+: path) :
    path ∉ samplePaths := by
  intro hmem
  have hno : ∀ path ∈ samplePaths, ¬ "http://".toList <+: path := by decide
  exact hno path hmem h

theorem twoPackages_noLink {path : Text} (h : path ∈ samplePaths) :
    twoPackages.linkPackage path = false := by
  refine decide_eq_false (p := path = directLink ∨ path = ownLink) ?_
  rintro (rfl | rfl)
  · exact not_mem_samplePaths ⟨"h/c.pkg".toList, rfl⟩ h
  · exact not_mem_samplePaths http_ownLink h

theorem twoPackages_file {path : Text} (h : path ∈ samplePaths) (hlist : path ≠ "list.txt".toList) :
    twoPackages.File path :=
  ⟨decide_eq_true h, decide_eq_true ⟨h, hlist⟩, twoPackages_noLink h⟩

theorem twoPackages_direct {url : Text} (h : url = directLink ∨ url = ownLink)
    (hhttp : "http://".toList <+: url) : twoPackages.Direct url :=
  ⟨rfl, decide_eq_true h, decide_eq_false (not_mem_samplePaths hhttp),
    decide_eq_false fun hpackage => not_mem_samplePaths hhttp hpackage.1⟩

theorem twoPackages_ownList :
    twoPackages.listed "own.txt".toList = ["own.txt".toList, ownLink] := by
  have hblank : ¬ White ownLink := by
    obtain ⟨rest, hrest⟩ := http_ownLink
    rw [← hrest]
    exact fun h => absurd (h 'h' (by simp)) (by decide)
  rw [Machine.listed, if_pos (by decide)]
  show ["own.txt".toList, ownLink].filter (fun line => !decide (White line)) = _
  rw [List.filter_cons_of_pos (by decide), List.filter_cons_of_pos (by simp [hblank]),
    List.filter_nil]

/-- A package, a link through the proxy, and a list with the link that the loop makes of it. -/
theorem pushed_aPackage :
    Pushed twoPackages "pc".toList "a.pkg".toList false ∧
      Pushed twoPackages "pc".toList directLink true ∧
      Pushed twoPackages "pc".toList "own.txt".toList false := by
  have hdirect : twoPackages.Direct directLink :=
    twoPackages_direct (.inl rfl) ⟨"h/c.pkg".toList, rfl⟩
  have hown : twoPackages.Direct ownLink := twoPackages_direct (.inr rfl) http_ownLink
  refine ⟨(pushed_iff _ _ _ _ ⟨fun entry hentry => ?_, fun h => ?_⟩).2 ?_,
    (pushed_iff _ _ _ _ ⟨fun entry hentry => ?_, fun h => ?_⟩).2 ?_,
    (pushed_iff _ _ _ _ ⟨fun entry hentry => ?_, fun _ => twoPackages_noLink (by decide)⟩).2 ?_⟩
  · obtain rfl := List.mem_singleton.1 hentry
    exact .inl (twoPackages_file (by decide) (by decide))
  · exact absurd h (by decide)
  · rw [if_neg (by decide)]
    exact fun _ => by decide
  · obtain rfl := List.mem_singleton.1 hentry
    exact .inr hdirect
  · exact absurd h (by decide)
  · rw [if_neg (by decide)]
    exact fun h => absurd (hdirect.notExists.symm.trans h) Bool.false_ne_true
  · rw [twoPackages_ownList] at hentry
    rcases List.mem_pair.1 hentry with rfl | rfl
    · exact .inl (twoPackages_file (by decide) (by decide))
    · exact .inr hown
  · rw [if_pos (by decide), twoPackages_ownList]
    refine .inr ⟨by decide, ownLinks_cons.2 ⟨rfl, fun i hi => ?_⟩⟩
    obtain rfl : i = 0 := Nat.lt_one_iff.1 hi
    exact ⟨hown.notExists, .inl rfl⟩

/-- From the list, the first push is a link to the list and there is no second one. -/
theorem twoPackages_list_not_pushed :
    twoPackages.Listed "list.txt".toList ∧
      pushes twoPackages "pc".toList ⟨some "list.txt".toList, false⟩
        (twoPackages.entries "list.txt".toList) =
          [some (link "pc".toList .file "list.txt".toList)] ∧
        ¬Pushed twoPackages "pc".toList "list.txt".toList false := by
  have hlisted : twoPackages.listed "list.txt".toList = ["a.pkg".toList, "b.pkg".toList] := by
    decide
  have hentries : twoPackages.entries "list.txt".toList = ["a.pkg".toList, "b.pkg".toList] := by
    decide
  have hnone : iteration twoPackages "pc".toList
      ⟨some (link "pc".toList .file "list.txt".toList), true⟩ "b.pkg".toList = none :=
    iteration_noLink rfl (isFile_link ..) (twoPackages_noLink (by decide))
  have hpushes : pushes twoPackages "pc".toList ⟨some "list.txt".toList, false⟩
      ["a.pkg".toList, "b.pkg".toList] = [some (link "pc".toList .file "list.txt".toList)] := by
    have hfirst := @iteration_file twoPackages "pc".toList "list.txt".toList "a.pkg".toList false
      (by decide)
    rw [if_pos (by decide)] at hfirst
    simp only [pushes, hfirst, hnone]
  refine ⟨⟨fun entry hentry => .inl ?_, fun _ => twoPackages_noLink (by decide)⟩, ?_, fun h => ?_⟩
  · rw [hlisted] at hentry
    rcases List.mem_pair.1 hentry with rfl | rfl
    · exact twoPackages_file (by decide) (by decide)
    · exact twoPackages_file (by decide) (by decide)
  · rw [hentries]
    exact hpushes
  · rw [Pushed, hlisted, hentries, hpushes] at h
    obtain ⟨pushed, hpushed, -⟩ := h 1 (by decide)
    cases hpushed

end DirectPackageInstaller.Program
