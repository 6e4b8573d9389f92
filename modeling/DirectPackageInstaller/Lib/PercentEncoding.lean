import DirectPackageInstaller.Lib.QueryString

/-!
# Percent-encoding

A text is a row of tokens: characters that stand for themselves and escapes `%XX`.
`unescape` reads the escapes as UTF-8 and leaves those that are none; `escape`
spells all but the unreserved characters as escapes.

* `unescape_escape`: a text is read back.
* `tokens_replace`: replacing one token's text by another one's, in any text, is
  replacing the token.  Neither may begin with a hexadecimal digit.
* `unescape_replace`: when both spell the same ASCII character, the text still says
  the same.
-/

namespace PercentEncoding

open Text QueryString UrlDecode

/-! ## Tokens -/

inductive Token where
  | plain (c : Char)
  | escaped (a b : Char)
deriving DecidableEq, Repr

def isHex (c : Char) : Bool := (hexDigit c).isSome

/-- Whether a text begins with two hexadecimal digits. -/
def hexAhead : Text → Bool
  | a :: b :: _ => isHex a && isHex b
  | _ => false

/-- The tokens of a text, from left to right. -/
def tokens : Text → List Token
  | [] => []
  | [c] => [.plain c]
  | [c, d] => [.plain c, .plain d]
  | c :: a :: b :: rest =>
    if c = '%' ∧ (isHex a && isHex b) = true then .escaped a b :: tokens rest
    else .plain c :: tokens (a :: b :: rest)

def Token.text : Token → Text
  | .plain c => [c]
  | .escaped a b => ['%', a, b]

/-- The text of some tokens. -/
def render (ts : List Token) : Text := ts.flatMap Token.text

/-- The tokens are those of their text: escapes have hexadecimal digits, and a percent
sign of its own does not stand before two of them. -/
def Canonical : List Token → Prop
  | [] => True
  | .plain c :: ts => (c = '%' → hexAhead (render ts) = false) ∧ Canonical ts
  | .escaped a b :: ts => (isHex a && isHex b) = true ∧ Canonical ts

theorem render_cons (t : Token) (ts : List Token) : render (t :: ts) = t.text ++ render ts := rfl

theorem tokens_plain {c : Char} {text : Text} (h : c = '%' → hexAhead text = false) :
    tokens (c :: text) = .plain c :: tokens text := by
  match text with
  | [] => rfl
  | [d] => rfl
  | a :: b :: rest =>
    rw [tokens, if_neg]
    intro ⟨hc, hhex⟩
    have hnot : (isHex a && isHex b) = false := h hc
    rw [hnot] at hhex
    cases hhex

theorem tokens_escaped {a b : Char} (h : (isHex a && isHex b) = true) (text : Text) :
    tokens ('%' :: a :: b :: text) = .escaped a b :: tokens text := by
  rw [tokens, if_pos ⟨rfl, h⟩]

/-- The tokens are read back from their text. -/
theorem tokens_render {ts : List Token} (h : Canonical ts) : tokens (render ts) = ts := by
  induction ts with
  | nil => rfl
  | cons t ts ih =>
    cases t with
    | plain c =>
      show tokens (c :: render ts) = _
      rw [tokens_plain h.1, ih h.2]
    | escaped a b =>
      show tokens ('%' :: a :: b :: render ts) = _
      rw [tokens_escaped h.1, ih h.2]

theorem render_tokens (text : Text) : render (tokens text) = text := by
  induction text using tokens.induct with
  | case1 | case2 | case3 => rfl
  | case4 c a b rest h ih =>
    rw [tokens, if_pos h, render_cons, ih, h.1]
    rfl
  | case5 c a b rest h ih =>
    rw [tokens, if_neg h, render_cons, ih]
    rfl

theorem canonical_tokens (text : Text) : Canonical (tokens text) := by
  induction text using tokens.induct with
  | case1 => trivial
  | case2 c => exact ⟨fun _ => rfl, trivial⟩
  | case3 c d => exact ⟨fun _ => rfl, fun _ => rfl, trivial⟩
  | case4 c a b rest h ih =>
    rw [tokens, if_pos h]
    exact ⟨h.2, ih⟩
  | case5 c a b rest h ih =>
    rw [tokens, if_neg h]
    refine ⟨fun hc => ?_, ih⟩
    rw [render_tokens]
    exact Bool.eq_false_iff.2 fun hhex => h ⟨hc, hhex⟩

/-! ## What tokens say -/

/-- The character with which some bytes begin. -/
def firstChar (bytes : List UInt8) : Option Char := bytes.toByteArray.utf8DecodeChar? 0

/-- The byte of an escape. -/
def byte (a b : Char) : UInt8 := UInt8.ofNat ((hexDigit a).getD 0 * 16 + (hexDigit b).getD 0)

/-- The bytes of the escapes at the front. -/
def run : List Token → List UInt8
  | .escaped a b :: ts => byte a b :: run ts
  | _ => []

/-- What tokens say.  `skip` counts the escapes that belong to the last character. -/
def meaning : Nat → List Token → Text
  | _, [] => []
  | skip + 1, _ :: ts => meaning skip ts
  | 0, .plain c :: ts => c :: meaning 0 ts
  | 0, .escaped a b :: ts =>
    match firstChar (run (.escaped a b :: ts)) with
    | some c => c :: meaning (c.utf8Size - 1) ts
    | none => '%' :: a :: b :: meaning 0 ts

/-- `Uri.UnescapeDataString`. -/
def unescape (text : Text) : Text := meaning 0 (tokens text)

theorem meaning_skip (k : Nat) (ts : List Token) : meaning k ts = meaning 0 (ts.drop k) := by
  induction k generalizing ts with
  | zero => rfl
  | succ k ih =>
    cases ts with
    | nil => rfl
    | cons t ts => exact ih ts

theorem length_meaning_le (k : Nat) (ts : List Token) :
    (meaning k ts).length ≤ (render ts).length := by
  induction ts generalizing k with
  | nil => cases k <;> exact Nat.zero_le _
  | cons t ts ih =>
    rw [render_cons, List.length_append]
    cases k with
    | succ k => exact Nat.le_trans (ih k) (Nat.le_add_left ..)
    | zero =>
      cases t with
      | plain c =>
        have hrest := ih 0
        simp only [meaning, Token.text, List.length_cons, List.length_nil]
        omega
      | escaped a b =>
        unfold meaning
        split
        · rename_i c hc
          have hrest := ih (c.utf8Size - 1)
          simp only [Token.text, List.length_cons, List.length_nil]
          omega
        · have hrest := ih 0
          simp only [Token.text, List.length_cons, List.length_nil]
          omega

theorem length_unescape_le (text : Text) : (unescape text).length ≤ text.length := by
  have h := length_meaning_le 0 (tokens text)
  rwa [render_tokens] at h

theorem firstChar_eq_some {bytes : List UInt8} {c : Char} :
    firstChar bytes = some c ↔ String.utf8EncodeChar c <+: bytes := by
  constructor
  · intro h
    obtain ⟨rest, hrest⟩ := ByteArray.exists_of_utf8DecodeChar?_eq_some h
    have hlist := congrArg (fun b : ByteArray => b.data.toList) hrest
    simp only [List.data_toByteArray, ByteArray.data_append, Array.toList_append] at hlist
    exact ⟨rest.data.toList, hlist.symm⟩
  · intro ⟨rest, hrest⟩
    rw [firstChar, ← hrest, List.toByteArray_append]
    exact ByteArray.utf8DecodeChar?_utf8EncodeChar_append

theorem firstChar_encode (c : Char) (bytes : List UInt8) :
    firstChar (String.utf8EncodeChar c ++ bytes) = some c :=
  firstChar_eq_some.2 ⟨bytes, rfl⟩

/-! ## ASCII and other bytes -/

theorem utf8EncodeChar_ascii {c : Char} (h : c.toNat < 128) :
    String.utf8EncodeChar c = [UInt8.ofNat c.toNat] := by
  simp [String.utf8EncodeChar]
  omega

/-- A character beyond ASCII has no ASCII byte. -/
theorem utf8EncodeChar_high {c : Char} (h : 128 ≤ c.toNat) {b : UInt8}
    (hb : b ∈ String.utf8EncodeChar c) : 128 ≤ b.toNat := by
  have hlarge : ¬c.val.toNat ≤ 127 := by
    change 128 ≤ c.val.toNat at h
    omega
  unfold String.utf8EncodeChar at hb
  simp only [hlarge, if_false] at hb
  split at hb
  · simp at hb
    rcases hb with rfl | rfl <;> simp <;> omega
  · split at hb
    · simp at hb
      rcases hb with rfl | rfl | rfl <;> simp <;> omega
    · simp at hb
      rcases hb with rfl | rfl | rfl | rfl <;> simp <;> omega

/-- Which character some bytes begin with does not depend on what comes behind an
ASCII byte. -/
theorem firstChar_eq_takeWhile {b : UInt8} (hb : 128 ≤ b.toNat) (bytes : List UInt8) :
    firstChar (b :: bytes) = firstChar (b :: bytes.takeWhile fun x => 128 ≤ x.toNat) := by
  have hwhole : b :: bytes.takeWhile (fun x => decide (128 ≤ x.toNat)) =
      (b :: bytes).takeWhile fun x => decide (128 ≤ x.toNat) := by
    rw [List.takeWhile_cons_of_pos (by simpa using hb)]
  apply Option.ext
  intro c
  rw [firstChar_eq_some, firstChar_eq_some, hwhole]
  constructor
  · intro hprefix
    have hhigh : ∀ x ∈ String.utf8EncodeChar c, (fun x : UInt8 => decide (128 ≤ x.toNat)) x := by
      intro x hx
      by_cases hc : c.toNat < 128
      · rw [utf8EncodeChar_ascii hc] at hx hprefix
        obtain ⟨hhead, -⟩ := List.cons_prefix_cons.1 hprefix
        rw [List.mem_singleton] at hx
        rw [hx, hhead]
        simpa using hb
      · simpa using utf8EncodeChar_high (by omega) hx
    obtain ⟨rest, hrest⟩ := hprefix
    rw [← hrest, List.takeWhile_append_of_pos hhigh]
    exact List.prefix_append ..
  · intro hprefix
    exact hprefix.trans (List.takeWhile_prefix _)

theorem firstChar_ascii {b : UInt8} (hb : b.toNat < 128) (bytes : List UInt8) :
    firstChar (b :: bytes) = some (Char.ofNat b.toNat) := by
  have hchar : (Char.ofNat b.toNat).toNat = b.toNat := by
    rw [Char.ofNat, dif_pos (Or.inl (by omega))]
    rfl
  have hencode : String.utf8EncodeChar (Char.ofNat b.toNat) = [b] := by
    rw [utf8EncodeChar_ascii (by omega), hchar, UInt8.ofNat_toNat]
  have := firstChar_encode (Char.ofNat b.toNat) bytes
  rwa [hencode] at this

/-! ## Replacing a token -/

/-- `String.Replace`, from left to right.  `skip` counts the characters of the last
occurrence that are still to come. -/
def replaceFrom (old new : Text) : Nat → Text → Text
  | _, [] => []
  | skip + 1, _ :: rest => replaceFrom old new skip rest
  | 0, c :: rest =>
    if old.isPrefixOf (c :: rest) then new ++ replaceFrom old new (old.length - 1) rest
    else c :: replaceFrom old new 0 rest

def replace (old new text : Text) : Text := replaceFrom old new 0 text

theorem replaceFrom_skip (old new : Text) (k : Nat) (text : Text) :
    replaceFrom old new k text = replace old new (text.drop k) := by
  induction k generalizing text with
  | zero => rfl
  | succ k ih =>
    cases text with
    | nil => rfl
    | cons c text => exact ih text

theorem replace_occurrence {old : Text} (h : old ≠ []) (new rest : Text) :
    replace old new (old ++ rest) = new ++ replace old new rest := by
  cases old with
  | nil => exact absurd rfl h
  | cons c old =>
    show replaceFrom (c :: old) new 0 (c :: (old ++ rest)) = _
    have hprefix : (c :: old).isPrefixOf (c :: (old ++ rest)) = true :=
      List.isPrefixOf_iff_prefix.2 ⟨rest, rfl⟩
    rw [replaceFrom, if_pos hprefix, replaceFrom_skip]
    simp

theorem replace_other {old : Text} {c : Char} {rest : Text} (h : ¬old <+: c :: rest) (new : Text) :
    replace old new (c :: rest) = c :: replace old new rest := by
  show replaceFrom old new 0 (c :: rest) = _
  rw [replaceFrom, if_neg fun hprefix => h (List.isPrefixOf_iff_prefix.1 hprefix)]
  rfl

/-- A token whose text can be searched for: an escape, or a character that is no part
of one. -/
def Token.Sought : Token → Prop
  | .plain c => c ≠ '%' ∧ isHex c = false
  | .escaped a b => (isHex a && isHex b) = true

instance (t : Token) : Decidable t.Sought := by
  cases t <;> unfold Token.Sought <;> infer_instance

/-- One token in the place of another one. -/
def subst (old new t : Token) : Token := if t = old then new else t

theorem Token.text_ne_nil (t : Token) : t.text ≠ [] := by
  cases t <;> simp [Token.text]

/-- Where a token's text begins, the token stands. -/
theorem eq_of_front {old t : Token} {ts : List Token} (hold : old.Sought)
    (hts : Canonical (t :: ts)) (h : old.text <+: render (t :: ts)) : t = old := by
  cases old with
  | plain c =>
    cases t with
    | plain d =>
      obtain ⟨hhead, -⟩ := List.cons_prefix_cons.1 h
      rw [hhead]
    | escaped a b =>
      obtain ⟨hhead, -⟩ := List.cons_prefix_cons.1 h
      exact absurd hhead hold.1
  | escaped a b =>
    cases t with
    | plain d =>
      obtain ⟨hhead, rest, hrest⟩ := List.cons_prefix_cons.1 h
      have hahead := hts.1 hhead.symm
      change [a, b] ++ rest = render ts at hrest
      rw [← hrest] at hahead
      change (isHex a && isHex b) = false at hahead
      rw [show (isHex a && isHex b) = true from hold] at hahead
      cases hahead
    | escaped a' b' =>
      obtain ⟨-, hrest⟩ := List.cons_prefix_cons.1 h
      obtain ⟨ha, hrest⟩ := List.cons_prefix_cons.1 hrest
      obtain ⟨hb, -⟩ := List.cons_prefix_cons.1 hrest
      rw [ha, hb]

/-- No token's text begins with a hexadecimal digit. -/
theorem not_prefix_of_isHex {old : Token} (hold : old.Sought) {c : Char} (hc : isHex c = true)
    (rest : Text) : ¬old.text <+: c :: rest := by
  intro h
  cases old with
  | plain d =>
    obtain ⟨hhead, -⟩ := List.cons_prefix_cons.1 h
    have hnot := hold.2
    rw [hhead, hc] at hnot
    cases hnot
  | escaped a b =>
    obtain ⟨hhead, -⟩ := List.cons_prefix_cons.1 h
    rw [← hhead] at hc
    cases hc

theorem replace_render {old : Token} (new : Token) (hold : old.Sought) {ts : List Token}
    (h : Canonical ts) :
    replace old.text new.text (render ts) = render (ts.map (subst old new)) := by
  induction ts with
  | nil => rfl
  | cons t ts ih =>
    rw [List.map_cons, render_cons, render_cons]
    by_cases ht : t = old
    · subst ht
      rw [replace_occurrence t.text_ne_nil, subst, if_pos rfl, ih]
      cases t with
      | plain c => exact h.2
      | escaped a b => exact h.2
    · have hprefix : ¬old.text <+: render (t :: ts) := fun hp => ht (eq_of_front hold h hp)
      rw [subst, if_neg ht]
      cases t with
      | plain c =>
        have hhead : ¬old.text <+: c :: render ts := hprefix
        show replace _ _ (c :: render ts) = c :: render (ts.map (subst old new))
        rw [replace_other hhead, ih h.2]
      | escaped a b =>
        obtain ⟨ha, hb⟩ := Bool.and_eq_true_iff.1 h.1
        have hhead : ¬old.text <+: '%' :: a :: b :: render ts := hprefix
        show replace _ _ ('%' :: a :: b :: render ts) =
          '%' :: a :: b :: render (ts.map (subst old new))
        rw [replace_other hhead, replace_other (not_prefix_of_isHex hold ha _),
          replace_other (not_prefix_of_isHex hold hb _), ih h.2]

/-- Whether a text begins with a hexadecimal digit. -/
def hexFirst : Text → Bool
  | a :: _ => isHex a
  | [] => false

theorem hexAhead_cons (c : Char) (text : Text) :
    hexAhead (c :: text) = (isHex c && hexFirst text) := by
  cases text with
  | nil => simp [hexAhead, hexFirst]
  | cons d text => rfl

theorem Token.Sought.hexFirst {t : Token} (h : t.Sought) (text : Text) :
    hexFirst (t.text ++ text) = false := by
  cases t with
  | plain c => exact h.2
  | escaped a b => rfl

theorem hexFirst_subst {old new : Token} (hold : old.Sought) (hnew : new.Sought) (ts : List Token) :
    hexFirst (render (ts.map (subst old new))) = hexFirst (render ts) := by
  cases ts with
  | nil => rfl
  | cons t ts =>
    rw [List.map_cons, render_cons, render_cons, subst]
    split
    · rename_i ht
      rw [hnew.hexFirst, ht, hold.hexFirst]
    · cases t <;> rfl

theorem hexAhead_subst {old new : Token} (hold : old.Sought) (hnew : new.Sought) (ts : List Token) :
    hexAhead (render (ts.map (subst old new))) = hexAhead (render ts) := by
  have hfirst : ∀ {t : Token} (_ : t.Sought) (text : Text), hexAhead (t.text ++ text) = false := by
    intro t ht text
    cases t with
    | plain c =>
      show hexAhead (c :: text) = false
      rw [hexAhead_cons, ht.2, Bool.false_and]
    | escaped a b => rfl
  cases ts with
  | nil => rfl
  | cons t ts =>
    rw [List.map_cons, render_cons, render_cons, subst]
    split
    · rename_i ht
      rw [hfirst hnew, ht, hfirst hold]
    · cases t with
      | plain c =>
        show hexAhead (c :: render (ts.map (subst old new))) = hexAhead (c :: render ts)
        rw [hexAhead_cons, hexAhead_cons, hexFirst_subst hold hnew]
      | escaped a b => rfl

theorem Canonical.subst {old new : Token} (hold : old.Sought) (hnew : new.Sought)
    {ts : List Token} (h : Canonical ts) : Canonical (ts.map (subst old new)) := by
  induction ts with
  | nil => trivial
  | cons t ts ih =>
    have hts : Canonical ts := by
      cases t with
      | plain c => exact h.2
      | escaped a b => exact h.2
    rw [List.map_cons, PercentEncoding.subst]
    split
    · cases new with
      | plain c => exact ⟨fun hc => absurd hc hnew.1, ih hts⟩
      | escaped a b => exact ⟨hnew, ih hts⟩
    · cases t with
      | plain c =>
        refine ⟨fun hc => ?_, ih hts⟩
        rw [hexAhead_subst hold hnew]
        exact h.1 hc
      | escaped a b => exact ⟨h.1, ih hts⟩

/-- Replacing a token's text in any text replaces the token. -/
theorem tokens_replace {old new : Token} (hold : old.Sought) (hnew : new.Sought) (text : Text) :
    tokens (replace old.text new.text text) = (tokens text).map (subst old new) := by
  have hcanonical := canonical_tokens text
  have hreplace := replace_render new hold hcanonical
  rw [render_tokens] at hreplace
  rw [hreplace]
  exact tokens_render (hcanonical.subst hold hnew)

/-- Where a text has a character that is no part of an escape. -/
theorem plain_mem_tokens {c : Char} (hc : Token.Sought (.plain c)) {text : Text} (h : c ∈ text) :
    .plain c ∈ tokens text := by
  have hcanonical := canonical_tokens text
  have hmem : ∀ ts : List Token, Canonical ts → c ∈ render ts → .plain c ∈ ts := by
    intro ts
    induction ts with
    | nil => simp [render]
    | cons t ts ih =>
      intro hts hin
      rw [render_cons, List.mem_append] at hin
      cases t with
      | plain d =>
        rcases hin with hin | hin
        · rw [Token.text, List.mem_singleton] at hin
          rw [hin]
          exact List.mem_cons_self
        · exact List.mem_cons_of_mem _ (ih hts.2 hin)
      | escaped a b =>
        obtain ⟨ha, hb⟩ := Bool.and_eq_true_iff.1 hts.1
        rcases hin with hin | hin
        · simp only [Token.text, List.mem_cons, List.not_mem_nil, or_false] at hin
          rcases hin with rfl | rfl | rfl
          · exact absurd rfl hc.1
          · rw [hc.2] at ha
            cases ha
          · rw [hc.2] at hb
            cases hb
        · exact List.mem_cons_of_mem _ (ih hts.2 hin)
  apply hmem _ hcanonical
  rw [render_tokens]
  exact h

/-! ## Two spellings of a character -/

/-- A token that says the ASCII character `c`. -/
def Token.Spells (c : Char) : Token → Prop
  | .plain d => d = c
  | .escaped a b => (byte a b).toNat = c.toNat

instance (c : Char) (t : Token) : Decidable (t.Spells c) := by
  cases t <;> unfold Token.Spells <;> infer_instance

theorem meaning_spells {c : Char} (hc : c.toNat < 128) {t : Token} (h : t.Spells c)
    (ts : List Token) : meaning 0 (t :: ts) = c :: meaning 0 ts := by
  cases t with
  | plain d =>
    rw [meaning, show d = c from h]
  | escaped a b =>
    have hbyte : (byte a b).toNat = c.toNat := h
    have hfirst : firstChar (run (.escaped a b :: ts)) = some c := by
      rw [run, firstChar_ascii (by omega), hbyte, Char.ofNat_toNat]
    have hsize : c.utf8Size = 1 := by
      rw [← String.length_utf8EncodeChar, utf8EncodeChar_ascii hc]
      rfl
    rw [meaning, hfirst]
    dsimp only
    rw [hsize]

theorem takeWhile_run_spells {c : Char} (hc : c.toNat < 128) {t : Token} (h : t.Spells c)
    (ts : List Token) : (run (t :: ts)).takeWhile (fun x => 128 ≤ x.toNat) = [] := by
  cases t with
  | plain d => rfl
  | escaped a b =>
    have hbyte : (byte a b).toNat = c.toNat := h
    rw [run, List.takeWhile_cons_of_neg]
    simp
    omega

/-- A map of tokens that changes at most how ASCII characters are spelled. -/
def Respells (m : Token → Token) : Prop :=
  ∀ t, m t = t ∨ ∃ c : Char, c.toNat < 128 ∧ t.Spells c ∧ (m t).Spells c

theorem takeWhile_run_map {m : Token → Token} (hm : Respells m) (ts : List Token) :
    (run (ts.map m)).takeWhile (fun x => 128 ≤ x.toNat) =
      (run ts).takeWhile fun x => 128 ≤ x.toNat := by
  induction ts with
  | nil => rfl
  | cons t ts ih =>
    rw [List.map_cons]
    rcases hm t with hsame | ⟨c, hc, hold, hnew⟩
    · rw [hsame]
      cases t with
      | plain d => rfl
      | escaped a b =>
        rw [run, run, List.takeWhile_cons, List.takeWhile_cons, ih]
    · rw [takeWhile_run_spells hc hnew, takeWhile_run_spells hc hold]

theorem meaning_map {m : Token → Token} (hm : Respells m) (ts : List Token) :
    meaning 0 (ts.map m) = meaning 0 ts := by
  induction hn : ts.length using Nat.strongRecOn generalizing ts with
  | _ n ih =>
    subst hn
    cases ts with
    | nil => rfl
    | cons t ts =>
      have hrest := ih ts.length (by simp) ts rfl
      rw [List.map_cons]
      rcases hm t with hsame | ⟨c, hc, hold, hnew⟩
      · rw [hsame]
        cases t with
        | plain d => rw [meaning, meaning, hrest]
        | escaped a b =>
          have hfirst : firstChar (run (.escaped a b :: ts.map m)) =
              firstChar (run (.escaped a b :: ts)) := by
            rw [run, run]
            by_cases hb : (byte a b).toNat < 128
            · rw [firstChar_ascii hb, firstChar_ascii hb]
            · rw [firstChar_eq_takeWhile (by omega), takeWhile_run_map hm,
                ← firstChar_eq_takeWhile (by omega)]
          rw [meaning, meaning, hfirst]
          split
          · rw [meaning_skip, meaning_skip _ ts, ← List.map_drop]
            rw [ih (ts.drop _).length (by rw [List.length_drop, List.length_cons]; omega) _ rfl]
          · rw [hrest]
      · rw [meaning_spells hc hnew, meaning_spells hc hold, hrest]

/-- Two spellings of an ASCII character that may be put for each other. -/
structure Interchangeable (old new : Token) : Prop where
  old_sought : old.Sought
  new_sought : new.Sought
  same : ∃ c : Char, c.toNat < 128 ∧ old.Spells c ∧ new.Spells c

theorem Interchangeable.respells {old new : Token} (h : Interchangeable old new) :
    Respells (subst old new) := by
  intro t
  unfold subst
  split
  · rename_i ht
    subst ht
    exact Or.inr h.same
  · exact Or.inl rfl

/-- Replacing one spelling of a character by another one does not change what a text
says. -/
theorem unescape_replace {old new : Token} (h : Interchangeable old new) (text : Text) :
    unescape (replace old.text new.text text) = unescape text := by
  rw [unescape, tokens_replace h.old_sought h.new_sought, meaning_map h.respells]
  rfl

/-! ## Escaping -/

def isUnreserved (c : Char) : Bool :=
  c.isAlphanum || c == '-' || c == '.' || c == '_' || c == '~'

/-- The digit that `escape` writes. -/
def hexChar (n : Nat) : Char := Char.ofNat (if n < 10 then 0x30 + n else 0x37 + n)

def escapeByte (b : UInt8) : Token :=
  .escaped (hexChar (b.toNat / 16)) (hexChar (b.toNat % 16))

def escapeTokens (c : Char) : List Token :=
  if isUnreserved c then [.plain c] else (String.utf8EncodeChar c).map escapeByte

/-- `Uri.EscapeDataString`. -/
def escape (text : Text) : Text := render (text.flatMap escapeTokens)

theorem hexDigit_hexChar : ∀ n < 16, hexDigit (hexChar n) = some n := by
  decide

theorem byte_hexChar (b : UInt8) :
    byte (hexChar (b.toNat / 16)) (hexChar (b.toNat % 16)) = b := by
  have hlt := b.toNat_lt
  rw [byte, hexDigit_hexChar _ (by omega), hexDigit_hexChar _ (by omega), Option.getD_some,
    Option.getD_some, Nat.div_add_mod', UInt8.ofNat_toNat]

/-- An escape, or a character other than the percent sign. -/
def Token.Proper : Token → Prop
  | .plain c => c ≠ '%'
  | .escaped a b => (isHex a && isHex b) = true

theorem canonical_of_proper {ts : List Token} (h : ∀ t ∈ ts, t.Proper) : Canonical ts := by
  induction ts with
  | nil => trivial
  | cons t ts ih =>
    have hts := ih fun t ht => h t (List.mem_cons_of_mem _ ht)
    have ht := h t (List.mem_cons_self ..)
    cases t with
    | plain c => exact ⟨fun hc => absurd hc ht, hts⟩
    | escaped a b => exact ⟨ht, hts⟩

theorem proper_escapeTokens (c : Char) : ∀ t ∈ escapeTokens c, t.Proper := by
  intro t ht
  unfold escapeTokens at ht
  split at ht
  · rename_i hunreserved
    rw [List.mem_singleton] at ht
    subst ht
    intro hpercent
    subst hpercent
    cases hunreserved
  · obtain ⟨b, -, rfl⟩ := List.mem_map.1 ht
    have hlt := b.toNat_lt
    show (isHex _ && isHex _) = true
    rw [isHex, isHex, hexDigit_hexChar _ (by omega), hexDigit_hexChar _ (by omega)]
    rfl

theorem tokens_escape (text : Text) : tokens (escape text) = text.flatMap escapeTokens := by
  apply tokens_render
  apply canonical_of_proper
  intro t ht
  obtain ⟨c, -, hc⟩ := List.mem_flatMap.1 ht
  exact proper_escapeTokens c t hc

theorem run_escapeByte (bytes : List UInt8) (ts : List Token) :
    run (bytes.map escapeByte ++ ts) = bytes ++ run ts := by
  induction bytes with
  | nil => rfl
  | cons b bytes ih =>
    show byte _ _ :: run (bytes.map escapeByte ++ ts) = _
    rw [byte_hexChar, ih]
    rfl

theorem meaning_escapeTokens (c : Char) (ts : List Token) :
    meaning 0 (escapeTokens c ++ ts) = c :: meaning 0 ts := by
  unfold escapeTokens
  split
  · rfl
  · have hrun := run_escapeByte (String.utf8EncodeChar c) ts
    have hlength := String.length_utf8EncodeChar c
    cases hbytes : String.utf8EncodeChar c with
    | nil =>
      have hpos := c.utf8Size_pos
      rw [hbytes, List.length_nil] at hlength
      omega
    | cons b bytes =>
      have hfirst := firstChar_encode c (run ts)
      rw [hbytes] at hrun hlength hfirst
      rw [← hrun] at hfirst
      show (match firstChar (run ((b :: bytes).map escapeByte ++ ts)) with
        | some c => c :: meaning (c.utf8Size - 1) (bytes.map escapeByte ++ ts)
        | none => _) = _
      rw [hfirst]
      dsimp only
      rw [meaning_skip, ← hlength, List.length_cons, Nat.add_sub_cancel]
      congr 2
      rw [List.drop_append, List.drop_of_length_le (by simp)]
      simp

/-- What is escaped is read back. -/
theorem unescape_escape (text : Text) : unescape (escape text) = text := by
  rw [unescape, tokens_escape]
  induction text with
  | nil => rfl
  | cons c text ih => rw [List.flatMap_cons, meaning_escapeTokens, ih]

/-! ## Separators -/

theorem hexAhead_append {c : Char} (hc : isHex c = false) (text rest : Text) :
    hexAhead (text ++ c :: rest) = hexAhead text := by
  match text with
  | [] =>
    show hexAhead (c :: rest) = false
    rw [hexAhead_cons, hc, Bool.false_and]
  | [d] => simp [hexAhead, hc]
  | d :: e :: text => rfl

theorem tokens_append {c : Char} (hc : Token.Sought (.plain c)) (text rest : Text) :
    tokens (text ++ c :: rest) = tokens text ++ .plain c :: tokens rest := by
  have hcanonical : ∀ ts : List Token, Canonical ts →
      Canonical (ts ++ .plain c :: tokens rest) := by
    intro ts
    induction ts with
    | nil => exact fun _ => ⟨fun hpercent => absurd hpercent hc.1, canonical_tokens rest⟩
    | cons t ts ih =>
      intro hts
      cases t with
      | plain d =>
        refine ⟨fun hd => ?_, ih hts.2⟩
        show hexAhead (render (ts ++ .plain c :: tokens rest)) = false
        rw [render, List.flatMap_append]
        show hexAhead (render ts ++ c :: render (tokens rest)) = false
        rw [hexAhead_append hc.2]
        exact hts.1 hd
      | escaped a b => exact ⟨hts.1, ih hts.2⟩
  have hrender : render (tokens text ++ .plain c :: tokens rest) = text ++ c :: rest := by
    rw [render, List.flatMap_append]
    show render (tokens text) ++ c :: render (tokens rest) = _
    rw [render_tokens, render_tokens]
  rw [← hrender, tokens_render (hcanonical _ (canonical_tokens text))]

theorem length_run_le (ts : List Token) : (run ts).length ≤ ts.length := by
  induction ts with
  | nil => exact Nat.le_refl 0
  | cons t ts ih =>
    cases t with
    | plain c => exact Nat.zero_le _
    | escaped a b => exact Nat.succ_le_succ ih

theorem run_append (c : Char) (ts ts' : List Token) : run (ts ++ .plain c :: ts') = run ts := by
  induction ts with
  | nil => rfl
  | cons t ts ih =>
    cases t with
    | plain d => rfl
    | escaped a b =>
      show byte a b :: run (ts ++ .plain c :: ts') = _
      rw [ih]
      rfl

theorem meaning_append (c : Char) (ts ts' : List Token) :
    meaning 0 (ts ++ .plain c :: ts') = meaning 0 ts ++ c :: meaning 0 ts' := by
  induction hn : ts.length using Nat.strongRecOn generalizing ts with
  | _ n ih =>
    subst hn
    cases ts with
    | nil => rfl
    | cons t ts =>
      have hrest := ih ts.length (by simp) ts rfl
      rw [List.cons_append]
      cases t with
      | plain d =>
        rw [meaning, meaning, hrest]
        rfl
      | escaped a b =>
        have hrun := run_append c (.escaped a b :: ts) ts'
        rw [List.cons_append] at hrun
        rw [meaning, meaning, hrun]
        split
        · rename_i d hfirst
          have hlength := (firstChar_eq_some.1 hfirst).length_le
          have hle := length_run_le (.escaped a b :: ts)
          rw [String.length_utf8EncodeChar] at hlength
          rw [List.length_cons] at hle
          rw [meaning_skip, meaning_skip _ ts, List.drop_append_of_le_length (by omega)]
          rw [ih (ts.drop _).length (by rw [List.length_drop, List.length_cons]; omega) _ rfl]
          rfl
        · rw [hrest]
          rfl

/-- A character that is no part of an escape separates what is on its sides. -/
theorem unescape_append {c : Char} (hc : Token.Sought (.plain c)) (text rest : Text) :
    unescape (text ++ c :: rest) = unescape text ++ c :: unescape rest := by
  rw [unescape, tokens_append hc, meaning_append]
  rfl

/-- What `escape` writes has no character but the unreserved ones and those of
escapes. -/
theorem not_mem_escape {c : Char} (hc : Token.Sought (.plain c))
    (hreserved : isUnreserved c = false) (text : Text) : c ∉ escape text := by
  intro hin
  have hplain := plain_mem_tokens hc hin
  rw [tokens_escape] at hplain
  obtain ⟨d, -, hd⟩ := List.mem_flatMap.1 hplain
  unfold escapeTokens at hd
  split at hd
  · rename_i hunreserved
    rw [List.mem_singleton] at hd
    cases hd
    rw [hunreserved] at hreserved
    cases hreserved
  · obtain ⟨b, -, hb⟩ := List.mem_map.1 hd
    cases hb

end PercentEncoding
