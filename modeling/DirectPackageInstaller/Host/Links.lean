import DirectPackageInstaller.Lib.Base64
import DirectPackageInstaller.Lib.QueryString
import Mathlib.Data.Bool.AllAny

/-!
# Links to the server itself

`Installer.PushPackage` hands the console a link to `PS4Server` that carries
the source URL or file path in base64, and `PS4Server.RegisterJSON` wraps such
a link once more in a split link.  `PS4Server.Process` reads the link back.

The base64 text is put into the query as it is.  The server form-decodes the
query, so a `+` of the base64 text becomes a blank, and
`Convert.FromBase64String` skips blanks.

* `process_eq`: what `Process` reads from a target with a query.
* `noPlus_link`: a link itself is encoded without a `+`, so a wrapped
  link always comes out of its split link.
* `recovers_iff_noPlus`: the source comes back through every route exactly
  when its base64 form has no `+`.
* `tilde_not_recovered`: a link to a home directory that the server cannot
  read back.
-/

namespace DirectPackageInstaller.Links

open Text QueryString Base64 UrlDecode

/-! ## Building links -/

/-- `Installer.ServerPort`. -/
def serverPort : Nat := 9898

/-- The routes whose links carry their source. -/
inductive Route where
  | cache
  | proxy
  | merge
  | file
  deriving DecidableEq, Repr

/-- The route's name in the link's path. -/
def Route.name : Route → Text
  | cache => "cache".toList
  | proxy => "proxy".toList
  | merge => "merge".toList
  | file => "file".toList

/-- The link `Installer.PushPackage` builds for a source. -/
def link (host : Text) (route : Route) (url : Text) : Text :=
  "http://".toList ++ host ++ ':' :: decimal serverPort ++ '/' :: route.name ++
    "/?b64=".toList ++ encode (getBytes url)

/-- The link `PS4Server.RegisterJSON` builds for one piece of a package. -/
def splitLink (host url : Text) (offset size : Nat) : Text :=
  "http://".toList ++ host ++ ':' :: decimal serverPort ++ "/split/?b64=".toList ++
    encode (getBytes url) ++ "&offset=".toList ++ decimal offset ++
    "&size=".toList ++ decimal size

/-- The target of a request for an `http` link: what follows the authority. -/
def requestTarget (url : Text) : Text :=
  (url.drop "http://".toList.length).dropWhile (· ≠ '/')

/-! ## Reading links -/

/-- The source named in a query: `url` as it is, or else `b64` decoded.  The
outer `none` is the exception of malformed base64. -/
def sourceParam (replace : List UInt8 → Text) (query : List Field) :
    Option (Option Text) :=
  if some "url".toList ∈ allKeys query then some (get query "url".toList)
  else if some "b64".toList ∈ allKeys query then
    ((get query "b64".toList).bind decode).map fun bytes => some (getString replace bytes)
  else some none

/-- What `PS4Server.Process` reads from a request's target. -/
structure Request where
  path : Text
  query : List Field
  url : Option Text
  fromPS4 : Bool
  deriving DecidableEq, Repr

/-- `PS4Server.Process`, up to the choice of the handler.  A query ends at a
second question mark, which is how the console's own downloader is told from
the remote installer. -/
def process (replace : List UInt8 → Text) (full : Text) : Option Request :=
  let (queryStr, fromPS4) :=
    match after '?' full with
    | none => ([], false)
    | some queryStr =>
      if '?' ∈ queryStr then (before '?' queryStr, true) else (queryStr, false)
  let query := parseQueryString replace queryStr
  (sourceParam replace query).map fun url =>
    { path := trim '/' (before '?' full), query, url, fromPS4 }

/-- The methods that answer a request. -/
inductive Handler where
  | unrar
  | un7z
  | json
  | proxy
  | merge
  | split
  | file
  | cache
  deriving DecidableEq, Repr

/-- The method `PS4Server.Process` calls.  No path starts with the names of two
methods, so the two chains of tests of the source call one method at most. -/
def Request.handler (r : Request) : Option Handler :=
  if "unrar".toList.isPrefixOf r.path then some .unrar
  else if "un7z".toList.isPrefixOf r.path then some .un7z
  else if "json".toList.isPrefixOf r.path then some .json
  else if r.url = none then none
  else if "proxy".toList.isPrefixOf r.path then some .proxy
  else if "merge".toList.isPrefixOf r.path then some .merge
  else if "split".toList.isPrefixOf r.path then some .split
  else if "file".toList.isPrefixOf r.path then some .file
  else if "cache".toList.isPrefixOf r.path then some .cache
  else none

/-- The handler and the source of a request for the given link. -/
def serves (replace : List UInt8 → Text) (url : Text) : Option (Handler × Text) := do
  let r ← process replace (requestTarget url)
  let handler ← r.handler
  let source ← r.url
  some (handler, source)

/-- Where `PS4Server.Split` takes the bytes from. -/
inductive SplitSource where
  | file (path : Text)
  | host (url : Text)
  deriving DecidableEq, Repr

/-- The window that `PS4Server.Split` sends. -/
structure SplitWindow where
  source : SplitSource
  offset : Nat
  size : Nat
  deriving DecidableEq, Repr

/-- The source of a split request: the file itself, where the link is one of
the file route, and the link otherwise. -/
def splitSource (replace : List UInt8 → Text) (url : Text) : Option SplitSource :=
  match substring (':' :: decimal serverPort ++ ['/']) url with
  | none => some (.host url)
  | some uriPath =>
    if "file".toList.isPrefixOf uriPath then
      match substring ['?'] uriPath with
      | none => some (.host url)
      | some queryStr =>
        -- a query without a source opens no file and throws
        ((sourceParam replace (parseQueryString replace queryStr)).bind id).map .file
    else some (.host url)

/-- `PS4Server.Split`, up to sending the window. -/
def split (replace : List UInt8 → Text) (query : List Field) (url : Text) :
    Option SplitWindow := do
  let source ← splitSource replace url
  let offset ← (get query "offset".toList).bind parseLong
  let size ← (get query "size".toList).bind parseLong
  some { source, offset, size }

/-! ## What the server reads from a query -/

/-- A field without a `url` field beside it. -/
theorem sourceParam_b64 (replace : List UInt8 → Text) (value : Text)
    (rest : List Field) (hurl : some "url".toList ∉ rest.map (·.1))
    (hother : ∀ key ∈ rest.map (·.1), sameKey (some "b64".toList) key = false) :
    sourceParam replace ((some "b64".toList, value) :: rest) =
      (decode value).map fun bytes => some (getString replace bytes) := by
  have hkey : some "url".toList ∉ allKeys ((some "b64".toList, value) :: rest) := by
    intro h
    obtain ⟨field, hf, heq⟩ := exists_of_mem_allKeys h
    rcases List.mem_cons.1 hf with rfl | hf
    · exact absurd (Option.some.inj heq) (by decide)
    · exact hurl (heq ▸ List.mem_map_of_mem hf)
  have hb64 := head_mem_allKeys (some "b64".toList, value) rest
  have hget := get_of_unique [] rest value
    (fun _ h => absurd h List.not_mem_nil) hother
  rw [List.nil_append] at hget
  rw [sourceParam, if_neg hkey, if_pos hb64, hget]
  rfl

/-- What `Process` reads from a target with a query, with or without more text
behind a second question mark. -/
theorem process_eq (replace : List UInt8 → Text) {path : Text} (hpath : '?' ∉ path)
    {fields : List (Text × Text)} (hne : fields ≠ [])
    (h : ∀ field ∈ fields, Literal field.1 ∧ Value field.2) {suffix : Text}
    (hsuffix : suffix = [] ∨ suffix.head? = some '?') :
    process replace (path ++ '?' :: queryOf fields ++ suffix) =
      (sourceParam replace (fields.map fun field => (some field.1, field.2.map blank))).map
        fun url => {
          path := trim '/' path
          query := fields.map fun field => (some field.1, field.2.map blank)
          url
          fromPS4 := suffix ≠ [] } := by
  have hmark := not_mem_queryOf h
  have hbefore : before '?' (path ++ '?' :: queryOf fields ++ suffix) = path := by
    rw [List.append_assoc, List.cons_append]
    exact before_append_cons hpath _
  have hafter : after '?' (path ++ '?' :: queryOf fields ++ suffix) =
      some (queryOf fields ++ suffix) := by
    rw [List.append_assoc, List.cons_append]
    exact after_append_cons hpath _
  rw [process, hafter, hbefore]
  rcases hsuffix with rfl | hsuffix
  · simp only [List.append_nil, if_neg hmark, parseQueryString_queryOf replace hne h]
    simp
  · obtain ⟨rest, rfl⟩ : ∃ rest, suffix = '?' :: rest := by
      cases suffix with
      | nil => cases hsuffix
      | cons c rest =>
        cases hsuffix
        exact ⟨rest, rfl⟩
    have hmark' : '?' ∈ queryOf fields ++ '?' :: rest := by simp
    simp only [if_pos hmark', before_append_cons hmark,
      parseQueryString_queryOf replace hne h]
    simp

/-! ## The links as targets -/

/-- The characters of a host: a name, an address, or an address in brackets. -/
def hostAlphabet : Text :=
  "ABCDEFGHIJKLMNOPQRSTUVWXYZabcdefghijklmnopqrstuvwxyz0123456789.-_:[]".toList

/-- A host, as it stands in a URL. -/
def Host (host : Text) : Prop := ∀ c ∈ host, c ∈ hostAlphabet

instance (host : Text) : Decidable (Host host) :=
  List.decidableBAll _ host

/-- The path of a route's links. -/
def Route.path (route : Route) : Text := '/' :: route.name ++ ['/']

theorem requestTarget_eq {host : Text} (hhost : Host host) (target : Text) :
    requestTarget ("http://".toList ++ host ++ ':' :: decimal serverPort ++
      '/' :: target) = '/' :: target := by
  have hne : ∀ c ∈ host ++ ':' :: decimal serverPort, c ≠ '/' := by
    intro c hc heq
    subst heq
    rcases List.mem_append.1 hc with hc | hc
    · exact absurd (hhost _ hc) (by decide)
    · exact absurd hc (by decide)
  have hdrop : ∀ text : Text, (∀ c ∈ text, c ≠ '/') →
      (text ++ '/' :: target).dropWhile (· ≠ '/') = '/' :: target := by
    intro text
    induction text with
    | nil => exact fun _ => rfl
    | cons c text ih =>
      intro htext
      have hc := htext c List.mem_cons_self
      have hrest := ih fun d hd => htext d (List.mem_cons_of_mem _ hd)
      simpa [hc] using hrest
  have hcut : ("http://".toList ++ host ++ ':' :: decimal serverPort ++
      '/' :: target).drop "http://".toList.length =
      (host ++ ':' :: decimal serverPort) ++ '/' :: target := by
    simp
  rw [requestTarget, hcut]
  exact hdrop _ hne

theorem linkMark_eq : "/?b64=".toList = ['/', '?'] ++ "b64".toList ++ ['='] := by
  decide

/-- The query of a route's links. -/
theorem link_eq (host : Text) (route : Route) (url suffix : Text) :
    link host route url ++ suffix =
      "http://".toList ++ host ++ ':' :: decimal serverPort ++
        (route.path ++ '?' :: queryOf [("b64".toList, encode (getBytes url))] ++
          suffix) := by
  unfold link
  rw [linkMark_eq]
  generalize decimal serverPort = port
  simp only [Route.path, queryOf, pair, List.map_cons, List.map_nil,
    List.intercalate_singleton, List.append_assoc, List.cons_append, List.nil_append]

/-- The query of a split link. -/
theorem splitLink_eq (host url : Text) (offset size : Nat) (suffix : Text) :
    splitLink host url offset size ++ suffix =
      "http://".toList ++ host ++ ':' :: decimal serverPort ++
        ("/split/".toList ++ '?' :: queryOf [("b64".toList, encode (getBytes url)),
          ("offset".toList, decimal offset), ("size".toList, decimal size)] ++
          suffix) := by
  have hb64 : "/split/?b64=".toList = "/split/".toList ++ ['?'] ++ "b64".toList ++ ['='] :=
    by decide
  have hoffset : "&offset=".toList = ['&'] ++ "offset".toList ++ ['='] := by decide
  have hsize : "&size=".toList = ['&'] ++ "size".toList ++ ['='] := by decide
  unfold splitLink
  rw [hb64, hoffset, hsize]
  generalize decimal serverPort = port
  simp only [queryOf, pair, List.map_cons, List.map_nil, List.intercalate_cons_cons,
    List.intercalate_singleton, List.append_assoc, List.cons_append, List.nil_append]

/-- The base64 form of the UTF-8 form of `text` has no plus sign. -/
def NoPlus (text : Text) : Prop := '+' ∉ encode (getBytes text)

instance (text : Text) : Decidable (NoPlus text) :=
  inferInstanceAs (Decidable ('+' ∉ encode (getBytes text)))

theorem mem_alphabet_of_mem_encode {bytes : List UInt8} {c : Char}
    (h : c ∈ encode bytes) : c = '=' ∨ c ∈ alphabet := by
  rcases mem_encode h with hc | ⟨n, hn, rfl⟩
  · exact Or.inl hc
  · exact Or.inr (digit_mem_alphabet n hn)

theorem value_encode (bytes : List UInt8) : Value (encode bytes) := by
  intro c hc
  rcases mem_alphabet_of_mem_encode hc with rfl | hc
  · decide
  · exact (show Value alphabet by decide +kernel) c hc

theorem literal_decimal (n : Nat) : Literal (decimal n) := by
  intro c hc
  have hdigit := isDigit_of_mem_decimal hc
  refine ⟨?_, ?_, ?_, ?_, ?_⟩ <;>
  · rintro rfl
    exact absurd hdigit (by decide)

theorem literal_b64 : Literal "b64".toList := by decide

theorem literal_offset : Literal "offset".toList := by decide

theorem literal_size : Literal "size".toList := by decide

/-! ## A link is encoded without a plus -/

/-- An ASCII character other than `>` and `~`. -/
def PlainChar (c : Char) : Prop := c.toNat < 128 ∧ c.toNat % 64 ≠ 62

instance (c : Char) : Decidable (PlainChar c) :=
  inferInstanceAs (Decidable (c.toNat < 128 ∧ c.toNat % 64 ≠ 62))

theorem plain_of_all {text : Text} (h : (text.all fun c => PlainChar c) = true) :
    ∀ c ∈ text, PlainChar c :=
  List.all_iff_forall_prop.1 h

theorem utf8EncodeChar_plain {c : Char} (h : PlainChar c) :
    String.utf8EncodeChar c = [UInt8.ofNat c.toNat] := by
  have hlt : ¬ 127 < c.toNat := Nat.not_lt.2 (Nat.le_of_lt_succ h.1)
  simp [String.utf8EncodeChar, hlt]

theorem noPlus_of_plain {text : Text} (h : ∀ c ∈ text, PlainChar c) : NoPlus text := by
  apply plus_not_mem_encode
  intro b hb
  obtain ⟨c, hc, hb⟩ := List.mem_flatMap.1 hb
  rw [utf8EncodeChar_plain (h c hc), List.mem_singleton] at hb
  subst hb
  have hlt : c.toNat < 128 := (h c hc).1
  have hval : (UInt8.ofNat c.toNat).toNat = c.toNat :=
    UInt8.toNat_ofNat_of_lt' (show c.toNat < 256 by omega)
  rw [Base64.Plain, hval]
  exact h c hc

theorem plain_of_mem_encode {bytes : List UInt8} {c : Char} (h : c ∈ encode bytes) :
    PlainChar c := by
  rcases mem_alphabet_of_mem_encode h with rfl | hc
  · decide
  · exact plain_of_all (by decide +kernel) c hc

/-- Whatever the source is, the link to it has plain characters only. -/
theorem noPlus_link {host : Text} (hhost : Host host) (route : Route) (url : Text) :
    NoPlus (link host route url) := by
  apply noPlus_of_plain
  intro c hc
  unfold link at hc
  simp only [List.mem_append] at hc
  rcases hc with ((((hc | hc) | hc) | hc) | hc) | hc
  · exact plain_of_all (by decide) c hc
  · exact plain_of_all (by decide +kernel) c (hhost c hc)
  · exact plain_of_all (by decide) c hc
  · have hname : ∀ route : Route, ∀ c ∈ '/' :: route.name, PlainChar c := by
      intro route
      cases route <;> exact plain_of_all (by decide)
    exact hname route c hc
  · exact plain_of_all (by decide) c hc
  · exact plain_of_mem_encode hc

/-! ## Reading links back -/

/-- The method that answers a route's links. -/
def Route.handler : Route → Handler
  | cache => .cache
  | proxy => .proxy
  | merge => .merge
  | file => .file

/-- What the console may append to a link. -/
def Suffix (suffix : Text) : Prop := suffix = [] ∨ suffix.head? = some '?'

theorem suffix_nil : Suffix [] := Or.inl rfl

/-- The base64 text of a source as the server sees it. -/
def received (url : Text) : Text := (encode (getBytes url)).map blank

theorem received_eq {url : Text} (h : NoPlus url) :
    received url = encode (getBytes url) :=
  map_blank_eq_self h

theorem decode_received {url : Text} (h : NoPlus url) :
    decode (received url) = some (getBytes url) := by
  rw [received_eq h, decode_encode]

/-- A base64 text with a plus sign does not decode to what was encoded. -/
theorem decode_received_ne {url : Text} (h : ¬ NoPlus url) :
    decode (received url) ≠ some (getBytes url) :=
  decode_blanked_ne (not_not.1 h)

/-- What `Process` reads from a route's link. -/
theorem process_link (replace : List UInt8 → Text) {host : Text} (hhost : Host host)
    (route : Route) (url : Text) {suffix : Text} (hsuffix : Suffix suffix) :
    process replace (requestTarget (link host route url ++ suffix)) =
      (decode (received url)).map fun bytes => {
        path := route.name
        query := [(some "b64".toList, received url)]
        url := some (getString replace bytes)
        fromPS4 := suffix ≠ [] } := by
  have htarget : requestTarget (link host route url ++ suffix) =
      route.path ++ '?' :: queryOf [("b64".toList, encode (getBytes url))] ++ suffix := by
    rw [link_eq]
    exact requestTarget_eq hhost _
  have hpath : '?' ∉ route.path := by cases route <;> decide
  have htrim : trim '/' route.path = route.name := by cases route <;> decide
  have hfields : ∀ field ∈ [("b64".toList, encode (getBytes url))],
      Literal field.1 ∧ Value field.2 := by
    intro field hf
    rw [List.mem_singleton.1 hf]
    exact ⟨literal_b64, value_encode _⟩
  have hsource := sourceParam_b64 replace (received url) []
    List.not_mem_nil (fun _ h => absurd h List.not_mem_nil)
  rw [htarget, process_eq replace hpath (by simp) hfields hsuffix, htrim]
  simp only [List.map_cons, List.map_nil]
  change (sourceParam replace [(some "b64".toList, received url)]).map _ = _
  rw [hsource, Option.map_map]
  rfl

/-- The fields of a split link as the server reads them. -/
def splitQuery (url : Text) (offset size : Nat) : List Field :=
  [(some "b64".toList, received url), (some "offset".toList, decimal offset),
    (some "size".toList, decimal size)]

/-- What `Process` reads from a split link. -/
theorem process_splitLink (replace : List UInt8 → Text) {host : Text}
    (hhost : Host host) (url : Text) (offset size : Nat) {suffix : Text}
    (hsuffix : Suffix suffix) :
    process replace (requestTarget (splitLink host url offset size ++ suffix)) =
      (decode (received url)).map fun bytes => {
        path := "split".toList
        query := splitQuery url offset size
        url := some (getString replace bytes)
        fromPS4 := suffix ≠ [] } := by
  have htarget : requestTarget (splitLink host url offset size ++ suffix) =
      "/split/".toList ++ '?' :: queryOf [("b64".toList, encode (getBytes url)),
        ("offset".toList, decimal offset), ("size".toList, decimal size)] ++ suffix := by
    rw [splitLink_eq]
    exact requestTarget_eq hhost _
  have hpath : '?' ∉ "/split/".toList := by decide
  have htrim : trim '/' "/split/".toList = "split".toList := by decide
  have hfields : ∀ field ∈ [("b64".toList, encode (getBytes url)),
      ("offset".toList, decimal offset), ("size".toList, decimal size)],
      Literal field.1 ∧ Value field.2 := by
    intro field hf
    simp only [List.mem_cons, List.not_mem_nil, or_false] at hf
    rcases hf with rfl | rfl | rfl
    · exact ⟨literal_b64, value_encode _⟩
    · exact ⟨literal_offset, (literal_decimal _).value⟩
    · exact ⟨literal_size, (literal_decimal _).value⟩
  have hsource := sourceParam_b64 replace (received url)
    [(some "offset".toList, decimal offset), (some "size".toList, decimal size)]
    (show some "url".toList ∉ [some "offset".toList, some "size".toList] by decide)
    (show ∀ key ∈ [some "offset".toList, some "size".toList],
      sameKey (some "b64".toList) key = false by decide)
  rw [htarget, process_eq replace hpath (by simp) hfields hsuffix, htrim]
  simp only [List.map_cons, List.map_nil, (literal_decimal offset).map_blank,
    (literal_decimal size).map_blank]
  change (sourceParam replace (splitQuery url offset size)).map _ = _
  rw [splitQuery, hsource, Option.map_map]
  rfl

/-- What `Split` finds behind the port of a route's link. -/
theorem substring_link {host : Text} (hhost : Host host) (route : Route) (url : Text) :
    substring (':' :: decimal serverPort ++ ['/']) (link host route url) =
      some (route.name ++ "/?b64=".toList ++ encode (getBytes url)) := by
  have hslash : '/' ∉ host := fun h => absurd (hhost _ h) (by decide)
  have hport : '/' ∉ ':' :: decimal serverPort := by decide
  -- the two slashes of the scheme do not follow the port
  have hscheme : ∀ rest : Text,
      substring (':' :: decimal serverPort ++ ['/']) ("http://".toList ++ rest) =
        substring (':' :: decimal serverPort ++ ['/']) rest := by
    intro rest
    have hmark : ':' :: decimal serverPort ++ ['/'] = ":9898/".toList := by decide
    rw [hmark]
    simp [substring]
  have hfind := substring_append hslash hport
    (route.name ++ "/?b64=".toList ++ encode (getBytes url))
  unfold link
  generalize decimal serverPort = port at hscheme hfind ⊢
  simp only [List.append_assoc, List.cons_append, List.nil_append] at hscheme hfind ⊢
  rw [hscheme, hfind]

/-- `Split` opens the file of a file link, and otherwise the link. -/
theorem splitSource_link (replace : List UInt8 → Text) {host : Text}
    (hhost : Host host) (route : Route) (url : Text) :
    splitSource replace (link host route url) =
      if route = .file then
        (decode (received url)).map fun bytes => .file (getString replace bytes)
      else some (.host (link host route url)) := by
  have hcut : substring ['?'] (Route.file.name ++ "/?b64=".toList ++
      encode (getBytes url)) =
      some (queryOf [("b64".toList, encode (getBytes url))]) := by
    have hname : "file/".toList = Route.file.name ++ ['/'] := by decide
    have hfind := substring_append
      (show '?' ∉ "file/".toList by decide) List.not_mem_nil
      (pair "b64".toList (encode (getBytes url)))
    rw [hname] at hfind
    rw [linkMark_eq]
    simpa only [queryOf, pair, List.map_cons, List.map_nil, List.intercalate_singleton,
      List.append_assoc, List.cons_append, List.nil_append] using hfind
  have hfields : ∀ field ∈ [("b64".toList, encode (getBytes url))],
      Literal field.1 ∧ Value field.2 := by
    intro field hf
    rw [List.mem_singleton.1 hf]
    exact ⟨literal_b64, value_encode _⟩
  have hsource := sourceParam_b64 replace (received url) []
    List.not_mem_nil (fun _ h => absurd h List.not_mem_nil)
  rw [splitSource, substring_link hhost]
  cases route with
  | file =>
    have hstarts : "file".toList.isPrefixOf (Route.file.name ++ "/?b64=".toList ++
        encode (getBytes url)) = true := by
      rw [List.append_assoc]
      exact List.isPrefixOf_iff_prefix.2 (List.prefix_append _ _)
    simp only [hstarts, if_true, hcut,
      parseQueryString_queryOf replace (List.cons_ne_nil _ _) hfields,
      List.map_cons, List.map_nil]
    change ((sourceParam replace [(some "b64".toList, received url)]).bind id).map _ = _
    rw [hsource]
    cases decode (received url) <;> rfl
  | cache =>
    unfold Route.name
    simp
  | proxy =>
    unfold Route.name
    simp
  | merge =>
    unfold Route.name
    simp

/-- The numbers of a split link are read back. -/
theorem split_splitQuery (replace : List UInt8 → Text) (url source : Text)
    {offset size : Nat} (hoffset : offset < 2 ^ 63) (hsize : size < 2 ^ 63) :
    split replace (splitQuery url offset size) source =
      (splitSource replace source).map fun source => { source, offset, size } := by
  have hgetOffset : get (splitQuery url offset size) "offset".toList =
      some (decimal offset) :=
    get_of_unique [(some "b64".toList, received url)]
      [(some "size".toList, decimal size)] (decimal offset)
      (show ∀ key ∈ [some "b64".toList],
        sameKey (some "offset".toList) key = false by decide)
      (show ∀ key ∈ [some "size".toList],
        sameKey (some "offset".toList) key = false by decide)
  have hgetSize : get (splitQuery url offset size) "size".toList = some (decimal size) :=
    get_of_unique [(some "b64".toList, received url),
        (some "offset".toList, decimal offset)] [] (decimal size)
      (show ∀ key ∈ [some "b64".toList, some "offset".toList],
        sameKey (some "size".toList) key = false by decide)
      (fun _ h => absurd h List.not_mem_nil)
  rw [split, hgetOffset, hgetSize]
  cases splitSource replace source with
  | none => rfl
  | some source => simp [parseLong_decimal hoffset, parseLong_decimal hsize]

/-! ## The round trip -/

/-- A split link for a link comes back as that link with its window: the file
itself behind a file link, and the link for the server's own request behind
the others. -/
def SplitRecovers (replace : List UInt8 → Text) (host : Text) (route : Route)
    (url : Text) (offset size : Nat) (suffix : Text) : Prop :=
  ∃ r, process replace (requestTarget
      (splitLink host (link host route url) offset size ++ suffix)) = some r ∧
    r.handler = some .split ∧ r.url = some (link host route url) ∧
    split replace r.query (link host route url) = some {
      source := if route = .file then .file url else .host (link host route url)
      offset
      size }

/-- The links to a source lead to it: through every route, behind whatever the
console appends, as they are or wrapped in a split link. -/
def Recovers (replace : List UInt8 → Text) (host url : Text) : Prop :=
  ∀ route suffix, Suffix suffix →
    serves replace (link host route url ++ suffix) = some (route.handler, url) ∧
    ∀ offset < 2 ^ 63, ∀ size < 2 ^ 63,
      SplitRecovers replace host route url offset size suffix

theorem handler_link (route : Route) (query : List Field) (url : Text)
    (fromPS4 : Bool) :
    Request.handler { path := route.name, query, url := some url, fromPS4 } =
      some route.handler := by
  cases route <;> rfl

/-- The direct links, for any source. -/
theorem serves_link (replace : List UInt8 → Text) {host : Text} (hhost : Host host)
    (route : Route) (url : Text) {suffix : Text} (hsuffix : Suffix suffix) :
    serves replace (link host route url ++ suffix) =
      (decode (received url)).map fun bytes => (route.handler, getString replace bytes) := by
  rw [serves, process_link replace hhost route url hsuffix]
  cases decode (received url) with
  | none => rfl
  | some bytes => simp [handler_link]

/-- The split links, for a source whose own links come back. -/
theorem splitRecovers (replace : List UInt8 → Text) {host : Text} (hhost : Host host)
    (route : Route) {url : Text} (hplus : NoPlus url) {offset size : Nat}
    (hoffset : offset < 2 ^ 63) (hsize : size < 2 ^ 63) {suffix : Text}
    (hsuffix : Suffix suffix) :
    SplitRecovers replace host route url offset size suffix := by
  have hprocess := process_splitLink replace hhost (link host route url) offset size hsuffix
  rw [decode_received (noPlus_link hhost route url)] at hprocess
  have hsplit := split_splitQuery replace (link host route url) (link host route url)
    hoffset hsize
  rw [splitSource_link replace hhost, decode_received hplus] at hsplit
  refine ⟨_, hprocess, rfl, ?_, ?_⟩
  · exact congrArg some (getString_getBytes replace _)
  · dsimp only
    rw [hsplit]
    by_cases hfile : route = .file
    · simp [hfile, getString_getBytes]
    · simp [hfile]

/-- A source comes back through its links when its base64 form has no plus
sign.  A source without replacement characters comes back only then: behind a
lost plus sign the bytes are others, and if they are not well formed the text
shows a replacement character. -/
theorem recovers_iff_noPlus (replace : List UInt8 → Text) (host url : Text)
    (hhost : Host host)
    (hreplace : ∀ bytes : List UInt8, bytes.toByteArray.utf8Decode? = none →
      '\uFFFD' ∈ replace bytes) :
    (NoPlus url → Recovers replace host url) ∧
      ('\uFFFD' ∉ url → Recovers replace host url → NoPlus url) := by
  constructor
  · intro hplus route suffix hsuffix
    constructor
    · rw [serves_link replace hhost route url hsuffix, decode_received hplus,
        Option.map_some, getString_getBytes]
    · intro offset hoffset size hsize
      exact splitRecovers replace hhost route hplus hoffset hsize hsuffix
  · intro hchar hrecovers
    by_contra hplus
    have hserves := (hrecovers .cache [] suffix_nil).1
    rw [serves_link replace hhost .cache url suffix_nil] at hserves
    obtain ⟨bytes, hdecode, heq⟩ := Option.map_eq_some_iff.1 hserves
    have hstring : getString replace bytes = url := (Prod.mk.inj heq).2
    rcases getBytes_getString_or replace bytes with hbytes | ⟨hnone, hbytes⟩
    · rw [hstring] at hbytes
      exact decode_received_ne hplus (hbytes ▸ hdecode)
    · apply hchar
      rw [← hstring, hbytes]
      exact hreplace bytes hnone

/-- An ordinary link comes back through every route. -/
theorem recovers_plainUrl :
    Recovers (fun _ => ['\uFFFD']) "192.168.0.2".toList
      "http://example.org/game.pkg".toList :=
  (recovers_iff_noPlus (fun _ => ['\uFFFD']) "192.168.0.2".toList
    "http://example.org/game.pkg".toList (by decide +kernel)
    fun _ _ => List.mem_singleton.2 rfl).1 (by decide +kernel)

/-- The tilde of a home directory can fall on the end of three bytes.  Its plus
sign is lost in the query, and what is left is not base64. -/
theorem tilde_not_recovered :
    encode (getBytes "http://abc.de/~me/a.pkg".toList) =
        "aHR0cDovL2FiYy5kZS9+bWUvYS5wa2c=".toList ∧
      process (fun _ => ['\uFFFD']) (requestTarget (link "192.168.0.2".toList .proxy
        "http://abc.de/~me/a.pkg".toList)) = none ∧
      ¬ Recovers (fun _ => ['\uFFFD']) "192.168.0.2".toList
        "http://abc.de/~me/a.pkg".toList := by
  have hhost : Host "192.168.0.2".toList := by decide +kernel
  have hdecode : decode (received "http://abc.de/~me/a.pkg".toList) = none := by
    decide +kernel
  refine ⟨by decide +kernel, ?_, ?_⟩
  · have := process_link (fun _ => ['\uFFFD']) hhost .proxy
      "http://abc.de/~me/a.pkg".toList suffix_nil
    rw [hdecode, List.append_nil] at this
    exact this
  · intro h
    have hserves := (h .proxy [] suffix_nil).1
    rw [serves_link _ hhost _ _ suffix_nil, hdecode] at hserves
    cases hserves

end DirectPackageInstaller.Links
