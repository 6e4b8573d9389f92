import DirectPackageInstaller.Lib.Base64
import DirectPackageInstaller.Lib.Culture
import DirectPackageInstaller.Lib.Lookup
import DirectPackageInstaller.Lib.UrlDecode
import DirectPackageInstaller.Lib.WhiteSpace

/-!
# Click'n'Load

A form posted to `/addcrypted2` has encrypted links and a script that returns their
key in hexadecimal digits.  `Process` keeps the characters of the script between `0`
and `F`: capital digits and seven signs, and no small digit.  Only the decryption is
in a `try` block.

* `keyData_eq_iff`: pairs of digits are the key, with no small digit among them.
* `addCrypted2_ne_none_iff`: for which bodies no exception escapes.
* `keys_decoded_iff`: both for the server.
-/

namespace DirectPackageInstaller.CNLServer

open Text Search UrlDecode

/-! ## The code -/

/-- What the server finds around it.  Decrypting throws where it gives `none`. -/
structure Platform where
  culture : Culture
  toLowerInvariant : Text → Text
  replace : List UInt8 → Text
  isValidURL : Text → Bool
  decrypt : List UInt8 → List UInt8 → Option (List UInt8)
  lower_ascii : ∀ text : Text, text.all (fun c => decide (c.toNat < 128)) = true →
    toLowerInvariant text = text.map Char.toLower

variable (p : Platform)

/-- A field of the form. -/
def arg (x : Text) : Option (Text × Text) :=
  (substringFrom x (position (p.culture.indexOf x ['=']) + 1)).map fun value =>
    (p.toLowerInvariant (before '=' x), urlDecode p.replace value)

/-- `Args`. -/
def args (post : Text) : Option (List (Text × Text)) :=
  (post.splitOn '&').mapM (arg p)

def isLineBreak (c : Char) : Bool := c == '\r' || c == '\n'

/-- `Password`. -/
def password (args : List (Text × Text)) : Option Text :=
  (args.lookup "passwords".toList).map fun value => value.takeWhile fun c => !isLineBreak c

def returnMark : Text := "return".toList

/-- `x is >= '0' and <= 'F'`. -/
def isKeyUnit (u : Nat) : Bool := 0x30 ≤ u && u ≤ 0x46

/-- `KEY` from the code units of the script that are left. -/
def keyOf (units : List Nat) : Text := (units.filter isKeyUnit).map Char.ofNat

/-- `KEY` from the script.  A `char` is a code unit. -/
def scriptKey (script : Text) : Option Text :=
  if returnMark <:+: script then
    (substringFrom script (position (p.culture.indexOf script returnMark))).bind fun script =>
      (substringFrom script (position (script.idxOf? ' '))).bind fun script =>
        match (trimWhite script).flatMap codeUnits with
        | [] => none
        | quote :: rest => some (keyOf (rest.takeWhile (· ≠ quote)))
  else some (keyOf (script.flatMap codeUnits))

/-- `Convert.ToByte` with two characters of `KEY`. -/
def toByte (a b : Char) : Option UInt8 :=
  match hexDigit a, hexDigit b with
  | some high, some low => some (UInt8.ofNat (high * 16 + low))
  | _, _ => none

/-- The loop over `KEY`.  A single character at its end is no part of two. -/
def keyData : Text → Option (List UInt8)
  | [] => some []
  | [_] => none
  | a :: b :: rest => (toByte a b).bind fun byte => (keyData rest).map (byte :: ·)

/-- `KEY` without a script. -/
def defaultKey : Text := "31323334353637383930393837363534".toList

/-- What the extraction of the key leads to. -/
inductive Extraction where
  /-- The answer 400. -/
  | badRequest
  | key (crypteUrls keyData : List UInt8)
deriving DecidableEq, Repr

/-- The part of `Process` in front of the `try` block. -/
def extraction (args : List (Text × Text)) : Option Extraction :=
  match args.lookup "crypted".toList with
  | none => some .badRequest
  | some crypted =>
    (Base64.decode crypted).bind fun crypteUrls =>
      let key := match args.lookup "jk".toList with
        | some script => scriptKey p script
        | none => some defaultKey
      key.bind fun key => (keyData key).map (.key crypteUrls)

/-- The status of an answer, and the links and the password that were received. -/
structure Answer where
  status : Nat
  received : Option (List Text × Option Text)
deriving DecidableEq, Repr

def isLinkBreak (c : Char) : Bool := isLineBreak c || c == Char.ofNat 0

/-- The `try` block and the answer. -/
def answer (password : Option Text) : Extraction → Answer
  | .badRequest => ⟨400, none⟩
  | .key crypteUrls keyData =>
    match p.decrypt keyData crypteUrls with
    | none => ⟨400, none⟩
    | some data =>
      let links := ((getString p.replace data).splitOnP isLinkBreak).filter p.isValidURL
      ⟨204, some (links, password)⟩

/-- `Args` of a request.  A body may be missing; then `GetString` throws. -/
def requestArgs (postData : Option (List UInt8)) : Option (List (Text × Text)) :=
  postData.bind fun bytes => args p (getString p.replace bytes)

/-- `Process` of a form for `/addcrypted2`; `none` is an exception. -/
def addCrypted2 (postData : Option (List UInt8)) : Option Answer :=
  (requestArgs p postData).bind fun args =>
    (extraction p args).map (answer p (password args))

/-! ## What is expected -/

/-- The hexadecimal digits of some bytes, each in either case. -/
inductive HexOf : Text → List UInt8 → Prop where
  | nil : HexOf [] []
  | cons {a b : Char} {byte : UInt8} {hex : Text} {key : List UInt8} :
    hexDigit a = some (byte.toNat / 16) →
    hexDigit b = some (byte.toNat % 16) → HexOf hex key →
    HexOf (a :: b :: hex) (byte :: key)

/-- `function f(){ return '...';}`. -/
def script (quote : Char) (hex : Text) : Text :=
  "function f()\x7b return ".toList ++ quote :: (hex ++ quote :: ";\x7d".toList)

/-- A digit that is a small letter. -/
def Small (c : Char) : Prop := 'a' ≤ c ∧ c ≤ 'f'

instance (c : Char) : Decidable (Small c) := inferInstanceAs (Decidable (_ ∧ _))

/-- The name and the value of a field. -/
def argOf (x : Text) : Text × Text :=
  (p.toLowerInvariant (before '=' x),
    urlDecode p.replace (x.drop (position (p.culture.indexOf x ['=']) + 1).toNat))

/-- The fields of a body. -/
def fieldsOf (body : List UInt8) : List (Text × Text) :=
  ((getString p.replace body).splitOn '&').map (argOf p)

/-- A form with the script in its first field `jk`, and something encrypted. -/
structure Form (form encoded : Text) (crypteUrls : List UInt8) : Prop where
  fields : ∃ front back, form = ['&'].intercalate (front ++ ("jk=".toList ++ encoded) :: back) ∧
    (∀ field ∈ front ++ back, '&' ∉ field) ∧
    ∀ field ∈ front, p.toLowerInvariant (before '=' field) ≠ "jk".toList
  crypted : ((fieldsOf p (getBytes form)).lookup "crypted".toList).bind Base64.decode =
    some crypteUrls

/-- The code units between the quotes: behind `return`, a blank and white space
there is something to be the quote. -/
def KeyPart (script : Text) (part : List Nat) : Prop :=
  if returnMark <:+: script then
    ∃ i rest quote tail, p.culture.indexOf script returnMark = some i ∧
      after ' ' (script.drop i) = some rest ∧
      (trimWhite rest).flatMap codeUnits = quote :: tail ∧ part = tail.takeWhile (· ≠ quote)
  else part = script.flatMap codeUnits

/-- Pairs of digits and capital letters up to `F`, and none of the signs between the
digits and the letters. -/
def Pairs (part : List Nat) : Prop :=
  (∀ u ∈ part, u < 0x3A ∨ 0x40 < u) ∧ (part.filter isKeyUnit).length % 2 = 0

/-- There is a body; if it has something encrypted, that is in base 64, and a script
has a key of pairs. -/
def Extracts (postData : Option (List UInt8)) : Prop :=
  ∃ body, postData = some body ∧
    ∀ crypted, (fieldsOf p body).lookup "crypted".toList = some crypted →
      Base64.decode crypted ≠ none ∧
        ∀ script, (fieldsOf p body).lookup "jk".toList = some script →
          ∃ part, KeyPart p script part ∧ Pairs part

/-! ## The digits of the key -/

theorem toByte_eq {a b : Char} {byte : UInt8}
    (ha : hexDigit a = some (byte.toNat / 16))
    (hb : hexDigit b = some (byte.toNat % 16)) : toByte a b = some byte := by
  rw [toByte, ha, hb]
  dsimp only
  rw [show byte.toNat / 16 * 16 + byte.toNat % 16 = byte.toNat by omega, UInt8.ofNat_toNat]

theorem keyData_of_hexOf {hex : Text} {key : List UInt8} (h : HexOf hex key) :
    keyData hex = some key := by
  induction h with
  | nil => rfl
  | cons ha hb _ ih =>
    rw [keyData, toByte_eq ha hb, Option.bind_some, ih]
    rfl

theorem length_of_keyData {text : Text} {key : List UInt8} (h : keyData text = some key) :
    text.length = 2 * key.length := by
  induction text using keyData.induct generalizing key with
  | case1 =>
    cases h
    rfl
  | case2 c => cases h
  | case3 a b rest ih =>
    rw [keyData] at h
    obtain ⟨byte, _, h⟩ := Option.bind_eq_some_iff.1 h
    obtain ⟨bytes, hrest, rfl⟩ := Option.map_eq_some_iff.1 h
    have := ih hrest
    simp only [List.length_cons]
    omega

theorem isSome_of_hexOf {hex : Text} {key : List UInt8} (h : HexOf hex key) :
    ∀ c ∈ hex, (hexDigit c).isSome := by
  induction h with
  | nil => simp
  | cons ha hb _ ih =>
    simp only [List.forall_mem_cons]
    exact ⟨by simp [ha], by simp [hb], ih⟩

theorem hexDigit_isSome_iff {c : Char} : (hexDigit c).isSome ↔
    (48 ≤ c.toNat ∧ c.toNat ≤ 57) ∨ (97 ≤ c.toNat ∧ c.toNat ≤ 102) ∨
      (65 ≤ c.toNat ∧ c.toNat ≤ 70) := by
  have hle : ∀ a b : Char, a ≤ b ↔ a.toNat ≤ b.toNat := fun a b => Iff.rfl
  rw [hexDigit]
  simp only [hle, Char.reduceToNat]
  split_ifs <;> simp <;> omega

/-- Of the digits only the small letters are not kept. -/
theorem isKeyUnit_iff {c : Char} (h : (hexDigit c).isSome) :
    isKeyUnit c.toNat = true ↔ ¬ Small c := by
  have hsmall : Small c ↔ 97 ≤ c.toNat ∧ c.toNat ≤ 102 := Iff.rfl
  rw [hexDigit_isSome_iff] at h
  rw [hsmall, isKeyUnit, Bool.and_eq_true, decide_eq_true_eq, decide_eq_true_eq]
  omega

theorem keyOf_map (text : Text) :
    keyOf (text.map Char.toNat) = text.filter fun c => isKeyUnit c.toNat := by
  rw [keyOf, List.filter_map, List.map_map]
  refine (List.map_congr_left fun c _ => ?_).trans (List.map_id _)
  exact Char.ofNat_toNat c

/-- Pairs of digits are the key exactly when none of them is a small letter. -/
theorem keyData_eq_iff {hex : Text} {key : List UInt8} (h : HexOf hex key) :
    keyData (keyOf (hex.map Char.toNat)) = some key ↔ ∀ c ∈ hex, ¬ Small c := by
  have hkeep : ∀ c ∈ hex, (isKeyUnit c.toNat = true ↔ ¬ Small c) :=
    fun c hc => isKeyUnit_iff (isSome_of_hexOf h c hc)
  rw [keyOf_map]
  constructor
  · intro hkey c hc
    -- a digit that is dropped makes the key shorter
    have hlength := (length_of_keyData hkey).trans
      (length_of_keyData (keyData_of_hexOf h)).symm
    exact (hkeep c hc).1 (List.length_filter_eq_length_iff.1 hlength c hc)
  · intro hcapital
    rw [List.filter_eq_self.2 fun c hc => (hkeep c hc).2 (hcapital c hc)]
    exact keyData_of_hexOf h

theorem keyData_ne_none_iff (text : Text) : keyData text ≠ none ↔
    text.length % 2 = 0 ∧ ∀ c ∈ text, (hexDigit c).isSome := by
  induction text using keyData.induct with
  | case1 => simp [keyData]
  | case2 c => simp [keyData]
  | case3 a b rest ih =>
    have hlength : (a :: b :: rest).length % 2 = rest.length % 2 := by
      simp only [List.length_cons]
      omega
    rw [hlength, keyData, List.forall_mem_cons, List.forall_mem_cons]
    cases ha : hexDigit a with
    | none => simp [toByte, ha]
    | some high =>
      cases hb : hexDigit b with
      | none => simp [toByte, ha, hb]
      | some low => simp [toByte, ha, hb, ← ih]

theorem hexDigit_ofNat : ∀ u < 0x47, isKeyUnit u = true →
    ((hexDigit (Char.ofNat u)).isSome ↔ u < 0x3A ∨ 0x40 < u) := by
  decide

theorem keyData_keyOf_ne_none_iff (part : List Nat) :
    keyData (keyOf part) ≠ none ↔ Pairs part := by
  have hdigits : (∀ c ∈ keyOf part, (hexDigit c).isSome) ↔
      ∀ u ∈ part, u < 0x3A ∨ 0x40 < u := by
    rw [keyOf, List.forall_mem_map]
    refine forall_congr' fun u => ?_
    rw [List.mem_filter]
    cases hu : isKeyUnit u with
    | false =>
      have hout : u < 0x3A ∨ 0x40 < u := by
        rw [isKeyUnit, Bool.and_eq_false_iff, decide_eq_false_iff_not,
          decide_eq_false_iff_not] at hu
        omega
      simp [hout]
    | true =>
      have hlt : u < 0x47 := by
        rw [isKeyUnit, Bool.and_eq_true, decide_eq_true_eq, decide_eq_true_eq] at hu
        omega
      simp [hexDigit_ofNat u hlt hu]
  rw [keyData_ne_none_iff, hdigits, keyOf, List.length_map, Pairs, and_comm]

/-! ## The form -/

theorem arg_eq (x : Text) : arg p x = some (argOf p x) := by
  have hin : 0 ≤ position (p.culture.indexOf x ['=']) + 1 ∧
      position (p.culture.indexOf x ['=']) + 1 ≤ x.length := by
    cases hi : p.culture.indexOf x ['='] with
    | none => simp [position]
    | some i =>
      have := p.culture.lt_length x ['='] i (by decide) (by decide) hi
      simp only [position]
      omega
  rw [arg, substringFrom, if_pos hin]
  rfl

/-- The fields of a body are always read. -/
theorem requestArgs_eq (body : List UInt8) :
    requestArgs p (some body) = some (fieldsOf p body) := by
  have hpure : arg p = fun x => pure (argOf p x) := funext (arg_eq p)
  rw [requestArgs, Option.bind_some, args, hpure, List.mapM_pure]
  rfl

/-! ## The script -/

/-- The text from the first blank on. -/
theorem substringFrom_idxOf (text : Text) :
    substringFrom text (position (text.idxOf? ' ')) = (after ' ' text).map (' ' :: ·) := by
  by_cases hmem : ' ' ∈ text
  · obtain ⟨front, rest, rfl, hfront⟩ := List.eq_append_cons_of_mem hmem
    have hindex : (front ++ ' ' :: rest).idxOf? ' ' = some front.length := by
      rw [List.idxOf?_eq_some_iff]
      refine ⟨by simp, by simp, fun j hj heq => hfront ?_⟩
      rw [List.getElem_append_left hj] at heq
      exact heq ▸ List.getElem_mem hj
    rw [hindex, after_append_cons hfront, substringFrom, position, if_pos (by simp; omega)]
    simp
  · rw [after_eq_none hmem, List.idxOf?_eq_none_iff.2 hmem]
    rfl

theorem trimWhite_blank (rest : Text) : trimWhite (' ' :: rest) = trimWhite rest := by
  have hblank : White [' '] := by decide
  have := trimWhite_surround hblank white_nil rest
  simpa using this

theorem scriptKey_eq_some_iff (script key : Text) :
    scriptKey p script = some key ↔ ∃ part, KeyPart p script part ∧ key = keyOf part := by
  rw [scriptKey]
  by_cases hreturn : returnMark <:+: script
  · simp only [KeyPart, if_pos hreturn]
    cases hi : p.culture.indexOf script returnMark with
    | none => simp [position, substringFrom]
    | some i =>
      have hlt := p.culture.lt_length script returnMark i (by decide) (by decide) hi
      have hfrom : substringFrom script (position (some i)) = some (script.drop i) := by
        rw [substringFrom, position, if_pos (by omega)]
        rfl
      rw [hfrom, Option.bind_some, substringFrom_idxOf]
      cases hafter : after ' ' (script.drop i) with
      | none => simp [hafter]
      | some rest =>
        simp only [Option.map_some, Option.bind_some, trimWhite_blank]
        cases hunits : (trimWhite rest).flatMap codeUnits with
        | nil => simp [hafter, hunits]
        | cons quote tail => simp [hafter, hunits, eq_comm]
  · simp [KeyPart, hreturn, eq_comm]

theorem scriptKey_pairs_iff (script : Text) :
    (scriptKey p script).bind keyData ≠ none ↔ ∃ part, KeyPart p script part ∧ Pairs part := by
  rw [Option.ne_none_iff_exists']
  constructor
  · intro ⟨bytes, h⟩
    obtain ⟨key, hkey, hbytes⟩ := Option.bind_eq_some_iff.1 h
    obtain ⟨part, hpart, rfl⟩ := (scriptKey_eq_some_iff p script key).1 hkey
    refine ⟨part, hpart, (keyData_keyOf_ne_none_iff part).1 ?_⟩
    rw [hbytes]
    exact Option.some_ne_none bytes
  · intro ⟨part, hpart, hpairs⟩
    have hkey := (scriptKey_eq_some_iff p script _).2 ⟨part, hpart, rfl⟩
    obtain ⟨bytes, hbytes⟩ := Option.ne_none_iff_exists'.1
      ((keyData_keyOf_ne_none_iff part).2 hpairs)
    exact ⟨bytes, Option.bind_eq_some_iff.2 ⟨_, hkey, hbytes⟩⟩

/-! ## No exception escapes -/

theorem keyData_defaultKey : keyData defaultKey ≠ none := by decide

theorem extraction_ne_none_iff (fields : List (Text × Text)) :
    extraction p fields ≠ none ↔
      ∀ crypted, fields.lookup "crypted".toList = some crypted →
        Base64.decode crypted ≠ none ∧
          ∀ script, fields.lookup "jk".toList = some script →
            ∃ part, KeyPart p script part ∧ Pairs part := by
  rw [extraction]
  cases hcrypted : fields.lookup "crypted".toList with
  | none => simp
  | some crypted =>
    simp only [Option.some_inj, forall_eq']
    cases hdecode : Base64.decode crypted with
    | none => simp
    | some crypteUrls =>
      cases hjk : fields.lookup "jk".toList with
      | none =>
        have := keyData_defaultKey
        simpa using this
      | some script =>
        simp only [Option.some_inj, forall_eq', ← scriptKey_pairs_iff]
        cases hkey : scriptKey p script with
        | none => simp
        | some key => simp

theorem addCrypted2_ne_none_iff (postData : Option (List UInt8)) :
    addCrypted2 p postData ≠ none ↔ Extracts p postData := by
  rw [addCrypted2, Extracts]
  cases postData with
  | none => simp [requestArgs]
  | some body =>
    rw [requestArgs_eq, Option.bind_some, Ne, Option.map_eq_none_iff, ← Ne,
      extraction_ne_none_iff]
    simp

/-! ## A key in a script -/

/-- A character that is seen. -/
def Visible (c : Char) : Prop := 0x21 ≤ c.toNat ∧ c.toNat < 0x7F

theorem Visible.printable {c : Char} (h : Visible c) : isPrintable c = true := by
  rw [isPrintable, Bool.and_eq_true, decide_eq_true_eq, decide_eq_true_eq]
  exact ⟨Nat.le_of_succ_le h.1, h.2⟩

theorem Visible.not_white {c : Char} (h : Visible c) : isWhiteSpace c = false := by
  have hlo := h.1
  have hhi := h.2
  simp only [isWhiteSpace, Bool.or_eq_false_iff, Bool.and_eq_false_iff, decide_eq_false_iff_not,
    beq_eq_false_iff_ne]
  omega

theorem visible_of_isSome {c : Char} (h : (hexDigit c).isSome) : Visible c := by
  rw [hexDigit_isSome_iff] at h
  rw [Visible]
  omega

theorem codeUnits_visible {text : Text} (h : ∀ c ∈ text, Visible c) :
    text.flatMap codeUnits = text.map Char.toNat := by
  rw [List.map_eq_flatMap]
  refine List.flatMap_congr fun c hc => codeUnits_of_lt ?_
  have := (h c hc).2
  omega

/-- The front of the script. -/
def scriptFront : Text := "function f()\x7b ".toList

/-- A quote and digits in it. -/
structure Quoted (quote : Char) (hex : Text) : Prop where
  quote : quote = '\'' ∨ quote = '"'
  hex : ∀ c ∈ hex, (hexDigit c).isSome

section Script

variable {quote : Char} {hex : Text} (h : Quoted quote hex)
include h

theorem Quoted.not_mem : quote ∉ hex := by
  intro hmem
  have hdigit := h.hex quote hmem
  rcases h.quote with heq | heq
  · rw [heq] at hdigit
    cases hdigit
  · rw [heq] at hdigit
    cases hdigit

theorem Quoted.visible : ∀ c ∈ quote :: (hex ++ quote :: ";\x7d".toList), Visible c := by
  have hquote : Visible quote := by
    rcases h.quote with rfl | rfl
    · exact ⟨by decide, by decide⟩
    · exact ⟨by decide, by decide⟩
  intro c hc
  rw [List.mem_cons, List.mem_append, List.mem_cons] at hc
  rcases hc with rfl | hc | rfl | hc
  · exact hquote
  · exact visible_of_isSome (h.hex c hc)
  · exact hquote
  · have hend : ";\x7d".toList = [Char.ofNat 0x3B, Char.ofNat 0x7D] := rfl
    rw [hend, List.mem_cons, List.mem_singleton] at hc
    rcases hc with rfl | rfl
    · exact ⟨by decide, by decide⟩
    · exact ⟨by decide, by decide⟩

theorem Quoted.printable : Printable (script quote hex) := by
  refine printable_append.2 ⟨by decide, List.all_eq_true.2 fun c hc => ?_⟩
  exact (h.visible c hc).printable

theorem Quoted.indexOf (culture : Culture) :
    culture.indexOf (script quote hex) returnMark = some 14 := by
  have hsplit : script quote hex =
      scriptFront ++ (returnMark ++ ' ' :: quote :: (hex ++ quote :: ";\x7d".toList)) := rfl
  refine culture.indexOf_eq h.printable (by decide) (by decide) ⟨⟨_, rfl⟩, ?_⟩ ?_
  · -- there is no `r` in front of it
    intro j hj hocc
    have hget := occursAt_iff.1 hocc 0 (by decide)
    rw [Nat.add_zero, hsplit, List.getElem?_append_left (show j < scriptFront.length from hj)]
      at hget
    exact absurd (List.mem_of_getElem? hget) (by decide)
  · constructor
    · intro c _ _ d hd
      obtain rfl : ' ' = d := Option.mem_some_iff.1 hd
      decide
    · intro c _ _ d hd
      obtain rfl : ' ' = d := Option.mem_some_iff.1 hd
      decide

theorem Quoted.keyPart : KeyPart p (script quote hex) (hex.map Char.toNat) := by
  have hvisible := h.visible
  have hreturn : returnMark <:+: script quote hex :=
    ⟨scriptFront, ' ' :: quote :: (hex ++ quote :: ";\x7d".toList), rfl⟩
  rw [KeyPart, if_pos hreturn]
  refine ⟨14, quote :: (hex ++ quote :: ";\x7d".toList), quote.toNat,
    hex.map Char.toNat ++ (quote :: ";\x7d".toList).map Char.toNat, h.indexOf p.culture, rfl,
    ?_, ?_⟩
  · have htrimmed := trimmed_of_not_white fun c hc => (hvisible c hc).not_white
    rw [htrimmed, codeUnits_visible hvisible]
    simp
  · have hne : ∀ u ∈ hex.map Char.toNat, (decide (u ≠ quote.toNat)) = true := by
      intro u hu
      obtain ⟨c, hc, rfl⟩ := List.mem_map.1 hu
      rw [decide_eq_true_eq]
      exact fun heq => h.not_mem (Char.toNat_inj.1 heq ▸ hc)
    rw [List.takeWhile_append_of_pos hne]
    simp

theorem Quoted.scriptKey_eq :
    scriptKey p (script quote hex) = some (keyOf (hex.map Char.toNat)) :=
  (scriptKey_eq_some_iff p _ _).2 ⟨_, h.keyPart p, rfl⟩

end Script

/-! ## A key in a form -/

theorem Quoted.of_hexOf {quote : Char} {hex : Text} {key : List UInt8}
    (hquote : quote = '\'' ∨ quote = '"') (h : HexOf hex key) : Quoted quote hex :=
  ⟨hquote, isSome_of_hexOf h⟩

theorem ampersand_not_mem_script {quote : Char} {hex : Text} (h : Quoted quote hex) :
    '&' ∉ script quote hex := by
  have hquote : '&' ≠ quote := by
    rcases h.quote with heq | heq
    · rw [heq]
      decide
    · rw [heq]
      decide
  have hhex : '&' ∉ hex := fun hmem => absurd (h.hex _ hmem) (by decide)
  have hparts : ∀ front back : Text, '&' ∉ front → '&' ∉ back →
      '&' ∉ front ++ quote :: (hex ++ quote :: back) := by
    intro front back hfront hback
    simp [hquote, hhex, hfront, hback]
  exact hparts _ _ (by decide) (by decide)

section Form

variable {quote : Char} {hex encoded : Text} (h : Quoted quote hex)
  (hencodes : Encodes encoded (script quote hex))
include h hencodes

theorem ampersand_not_mem_encoded : '&' ∉ encoded := by
  intro hmem
  rcases mem_of_encodes hencodes _ hmem with hscript | heq | heq | hdigit
  · exact ampersand_not_mem_script h hscript
  · cases heq
  · cases heq
  · cases hdigit

theorem printable_encoded : Printable encoded := by
  refine List.all_eq_true.2 fun c hc => ?_
  rcases mem_of_encodes hencodes c hc with hscript | rfl | rfl | hdigit
  · exact List.all_eq_true.1 h.printable c hscript
  · rfl
  · rfl
  · exact (visible_of_isSome hdigit).printable

/-- The field is read as its name and the script. -/
theorem argOf_jk : argOf p ("jk=".toList ++ encoded) = ("jk".toList, script quote hex) := by
  have hindex : p.culture.indexOf ("jk=".toList ++ encoded) ['='] = some 2 := by
    have hprintable : Printable ("jk=".toList ++ encoded) :=
      printable_append.2 ⟨by decide, printable_encoded h hencodes⟩
    refine p.culture.indexOf_eq hprintable (by decide) (by decide) ⟨⟨encoded, rfl⟩, ?_⟩ ?_
    · intro j hj hocc
      have hget := occursAt_iff.1 hocc 0 (by decide)
      rw [Nat.add_zero, show "jk=".toList ++ encoded = "jk".toList ++ '=' :: encoded from rfl,
        List.getElem?_append_left (show j < "jk".toList.length from hj)] at hget
      exact absurd (List.mem_of_getElem? hget) (by decide)
    · exact Unlettered.apart (by decide) _ _
  have hname : p.toLowerInvariant (before '=' ("jk=".toList ++ encoded)) = "jk".toList := by
    have hbefore : before '=' ("jk=".toList ++ encoded) = "jk".toList :=
      before_append_cons (show '=' ∉ "jk".toList by decide) encoded
    rw [hbefore, p.lower_ascii _ (by decide)]
    rfl
  have hdrop : ("jk=".toList ++ encoded).drop (position (some 2) + 1).toNat = encoded := rfl
  rw [argOf, hindex, hname, hdrop, urlDecode_of_encodes p.replace hencodes]

theorem lookup_jk {form : Text} {crypteUrls : List UInt8}
    (hform : Form p form encoded crypteUrls) :
    (fieldsOf p (getBytes form)).lookup "jk".toList = some (script quote hex) := by
  obtain ⟨front, back, hsplit, hampersand, hfirst⟩ := hform.fields
  have hfields : form.splitOn '&' = front ++ ("jk=".toList ++ encoded) :: back := by
    rw [hsplit]
    refine List.splitOn_intercalate '&' (fun field hfield => ?_) (by simp)
    rw [List.mem_append, List.mem_cons] at hfield
    rcases hfield with hin | rfl | hin
    · exact hampersand field (List.mem_append_left _ hin)
    · rw [List.mem_append, not_or]
      exact ⟨by decide, ampersand_not_mem_encoded h hencodes⟩
    · exact hampersand field (List.mem_append_right _ hin)
  have hfront : (front.map (argOf p)).lookup "jk".toList = none := by
    rw [List.lookup_eq_none_iff]
    intro pair hpair
    obtain ⟨field, hfield, rfl⟩ := List.mem_map.1 hpair
    have hne := hfirst field hfield
    exact bne_iff_ne.2 (Ne.symm hne)
  rw [fieldsOf, getString_getBytes, hfields, List.map_append, List.map_cons,
    argOf_jk p h hencodes, Lookup.lookup_insert hfront, if_pos rfl]

theorem extraction_of_form {form : Text} {crypteUrls : List UInt8}
    (hform : Form p form encoded crypteUrls) :
    (requestArgs p (some (getBytes form))).bind (extraction p) =
      (keyData (keyOf (hex.map Char.toNat))).map (.key crypteUrls) := by
  obtain ⟨crypted, hcrypted, hdecode⟩ := Option.bind_eq_some_iff.1 hform.crypted
  rw [requestArgs_eq, Option.bind_some, extraction, hcrypted]
  dsimp only
  rw [hdecode, lookup_jk p h hencodes hform]
  dsimp only
  rw [h.scriptKey_eq p]
  rfl

end Form

/-- The key of a form is extracted exactly when none of its digits is a small letter,
and no exception escapes exactly when there is a body and, if it has something
encrypted, that is in base 64 and a script has a key of pairs of digits. -/
theorem keys_decoded_iff (p : Platform) :
    (∀ key hex quote encoded form crypteUrls, key.length = 16 → HexOf hex key →
      (quote = '\'' ∨ quote = '"') → Encodes encoded (script quote hex) →
        Form p form encoded crypteUrls →
          ((requestArgs p (some (getBytes form))).bind (extraction p) =
            some (.key crypteUrls key) ↔ ∀ c ∈ hex, ¬ Small c)) ∧
      ∀ postData, addCrypted2 p postData ≠ none ↔ Extracts p postData := by
  refine ⟨?_, addCrypted2_ne_none_iff p⟩
  intro key hex quote encoded form crypteUrls _ hhex hquote hencodes hform
  have hkeep := keyData_eq_iff hhex
  rw [extraction_of_form p (.of_hexOf hquote hhex) hencodes hform, ← hkeep,
    Option.map_eq_some_iff]
  simp

/-! ## Without culture data -/

/-- A platform without culture data, where nothing is decrypted. -/
def plain : Platform where
  culture := Culture.ordinal
  toLowerInvariant text := text.map Char.toLower
  replace _ := []
  isValidURL _ := true
  decrypt _ _ := none
  lower_ascii _ _ := rfl

theorem argOf_crypted (value : Text) (h : Unescaped value) :
    argOf plain ("crypted=".toList ++ value) = ("crypted".toList, value) :=
  congrArg (Prod.mk "crypted".toList) (urlDecode_of_encodes _ h.encodes)

/-- A form with a script and nothing to decrypt. -/
theorem form_script {quote : Char} {hex : Text} (h : Quoted quote hex)
    (hencodes : Encodes (script quote hex) (script quote hex)) :
    Form plain ("jk=".toList ++ script quote hex ++ '&' :: "crypted=".toList)
      (script quote hex) [] where
  fields := ⟨[], ["crypted=".toList], by simp [List.intercalate], by decide, by simp⟩
  crypted := by
    have hampersand : '&' ∉ "jk=".toList ++ script quote hex := by
      rw [List.mem_append, not_or]
      exact ⟨by decide, ampersand_not_mem_script h⟩
    have hcrypted : argOf plain "crypted=".toList = ("crypted".toList, []) :=
      argOf_crypted [] (by decide)
    have hjk := argOf_jk plain h hencodes
    rw [fieldsOf, getString_getBytes, List.splitOn_append_cons_self_of_not_mem hampersand,
      List.splitOn_eq_singleton (by decide), List.map_cons, List.map_singleton, hjk, hcrypted]
    rfl

theorem hexOf_replicate (c : Char) (byte : UInt8)
    (hhigh : hexDigit c = some (byte.toNat / 16))
    (hlow : hexDigit c = some (byte.toNat % 16)) (n : Nat) :
    HexOf (List.replicate (2 * n) c) (List.replicate n byte) := by
  induction n with
  | zero => exact HexOf.nil
  | succ n ih => exact HexOf.cons hhigh hlow ih

/-- A key of capital digits. -/
theorem keys_decoded_capital :
    (requestArgs plain (some (getBytes ("jk=".toList ++
        script '"' (List.replicate 32 'A') ++ '&' :: "crypted=".toList)))).bind
      (extraction plain) = some (.key [] (List.replicate 16 0xAA)) := by
  have hhex := hexOf_replicate 'A' 0xAA rfl rfl 16
  have hencodes : Encodes (script '"' (List.replicate 32 'A'))
      (script '"' (List.replicate 32 'A')) := Unescaped.encodes (by decide)
  have hcapital : ∀ c ∈ List.replicate 32 'A', ¬ Small c := by
    intro c hc
    rw [List.eq_of_mem_replicate hc]
    decide
  exact ((keys_decoded_iff plain).1 _ _ '"' _ _ [] rfl hhex (Or.inr rfl) hencodes
    (form_script (.of_hexOf (Or.inr rfl) hhex) hencodes)).2 hcapital

/-- Small digits are lost, and what is no base 64 makes an exception escape. -/
theorem keys_lost :
    (requestArgs plain (some (getBytes ("jk=".toList ++
        script '"' (List.replicate 32 'a') ++ '&' :: "crypted=".toList)))).bind
      (extraction plain) = some (.key [] []) ∧
      addCrypted2 plain (some (getBytes "crypted=A".toList)) = none := by
  have hhex := hexOf_replicate 'a' 0xAA rfl rfl 16
  have hencodes : Encodes (script '"' (List.replicate 32 'a'))
      (script '"' (List.replicate 32 'a')) := Unescaped.encodes (by decide)
  constructor
  · rw [extraction_of_form plain (.of_hexOf (Or.inr rfl) hhex) hencodes
      (form_script (.of_hexOf (Or.inr rfl) hhex) hencodes)]
    decide
  · have hfields : fieldsOf plain (getBytes "crypted=A".toList) =
        [("crypted".toList, "A".toList)] := by
      have hcrypted := argOf_crypted "A".toList (by decide)
      rw [fieldsOf, getString_getBytes, List.splitOn_eq_singleton (by decide),
        List.map_singleton]
      exact congrArg (fun field => [field]) hcrypted
    rw [addCrypted2, requestArgs_eq, hfields]
    decide

end DirectPackageInstaller.CNLServer
