import Mathlib.Algebra.Ring.Nat
import Mathlib.Data.List.Basic
import Mathlib.Tactic.Common

/-!
# Texts

A text is a list of characters.  The module has its UTF-8 form, the part of a
text before and after a character or a pattern, and decimal numbers.

* `getString_getBytes` and `getBytes_getString_or`: the bytes of a text decode
  to the text, and only malformed bytes are replaced.
* `before_append_cons`, `after_append_cons`, `substring_append`: where a text
  is cut.
* `parseLong_decimal`: a number below 2^63 is read back from its digits.
-/

/-- A text, character by character. -/
abbrev Text := List Char

namespace Text

/-! ## UTF-8 -/

/-- The bytes of a text. -/
def getBytes (text : Text) : List UInt8 := text.flatMap String.utf8EncodeChar

/-- The text of some bytes.  `replace` decodes bytes that are not well formed. -/
def getString (replace : List UInt8 → Text) (bytes : List UInt8) : Text :=
  match bytes.toByteArray.utf8Decode? with
  | some text => text.toList
  | none => replace bytes

theorem toByteArray_getBytes (text : Text) :
    (getBytes text).toByteArray = text.utf8Encode := rfl

theorem getString_getBytes (replace : List UInt8 → Text) (text : Text) :
    getString replace (getBytes text) = text := by
  rw [getString, toByteArray_getBytes, List.utf8Decode?_utf8Encode]

/-- Bytes are decoded to a text that has them as its bytes, or replaced. -/
theorem getBytes_getString_or (replace : List UInt8 → Text) (bytes : List UInt8) :
    getBytes (getString replace bytes) = bytes ∨
      bytes.toByteArray.utf8Decode? = none ∧
        getString replace bytes = replace bytes := by
  cases h : bytes.toByteArray.utf8Decode? with
  | none =>
    right
    simp [getString, h]
  | some text =>
    left
    have hencode : text.toList.utf8Encode = bytes.toByteArray := by
      have := ByteArray.utf8Encode_get_utf8Decode? (b := bytes.toByteArray)
        (h := by simp [h])
      simpa [h] using this
    have hstring : getString replace bytes = text.toList := by simp [getString, h]
    rw [hstring]
    exact List.toByteArray_inj.1 hencode

/-! ## Cutting a text -/

/-- The part before the first `c`, or the whole text. -/
def before (c : Char) : Text → Text
  | [] => []
  | d :: rest => if d = c then [] else d :: before c rest

/-- The part after the first `c`, if there is one. -/
def after (c : Char) : Text → Option Text
  | [] => none
  | d :: rest => if d = c then some rest else after c rest

/-- The part after the first occurrence of a pattern, if there is one. -/
def substring (pattern : Text) : Text → Option Text
  | [] => if pattern = [] then some [] else none
  | c :: rest =>
    if pattern.isPrefixOf (c :: rest) then some ((c :: rest).drop pattern.length)
    else substring pattern rest

/-- The text without the `c` at both of its ends. -/
def trim (c : Char) (text : Text) : Text :=
  ((text.dropWhile (· = c)).reverse.dropWhile (· = c)).reverse

theorem before_append_cons {c : Char} {text : Text} (h : c ∉ text) (rest : Text) :
    before c (text ++ c :: rest) = text := by
  induction text with
  | nil => simp [before]
  | cons d text ih =>
    rw [List.mem_cons, not_or] at h
    simp [before, Ne.symm h.1, ih h.2]

theorem not_mem_before (c : Char) (text : Text) : c ∉ before c text := by
  induction text with
  | nil => exact List.not_mem_nil
  | cons d rest ih =>
    rw [before]
    split
    · exact List.not_mem_nil
    · rename_i hne
      rw [List.mem_cons, not_or]
      exact ⟨Ne.symm hne, ih⟩

theorem before_eq_self {c : Char} {text : Text} (h : c ∉ text) :
    before c text = text := by
  induction text with
  | nil => rfl
  | cons d text ih =>
    rw [List.mem_cons, not_or] at h
    simp [before, Ne.symm h.1, ih h.2]

theorem after_append_cons {c : Char} {text : Text} (h : c ∉ text) (rest : Text) :
    after c (text ++ c :: rest) = some rest := by
  induction text with
  | nil => simp [after]
  | cons d text ih =>
    rw [List.mem_cons, not_or] at h
    simp [after, Ne.symm h.1, ih h.2]

theorem after_eq_none {c : Char} {text : Text} (h : c ∉ text) : after c text = none := by
  induction text with
  | nil => rfl
  | cons d text ih =>
    rw [List.mem_cons, not_or] at h
    simp [after, Ne.symm h.1, ih h.2]

theorem before_append {c : Char} {text : Text} (h : c ∉ text) (rest : Text) :
    before c (text ++ rest) = text ++ before c rest := by
  induction text with
  | nil => rfl
  | cons d text ih =>
    rw [List.mem_cons, not_or] at h
    simp [before, Ne.symm h.1, ih h.2]

theorem before_append_of_mem {c : Char} {text : Text} (h : c ∈ text) (rest : Text) :
    before c (text ++ rest) = before c text := by
  induction text with
  | nil => exact absurd h List.not_mem_nil
  | cons d text ih =>
    by_cases hd : d = c
    · simp [before, hd]
    · have hmem : c ∈ text := (List.mem_cons.1 h).resolve_left (Ne.symm hd)
      simp [before, hd, ih hmem]

theorem after_append {c : Char} {text : Text} (h : c ∉ text) (rest : Text) :
    after c (text ++ rest) = after c rest := by
  induction text with
  | nil => rfl
  | cons d text ih =>
    rw [List.mem_cons, not_or] at h
    simp [after, Ne.symm h.1, ih h.2]

theorem after_append_of_mem {c : Char} {text : Text} (h : c ∈ text) (rest : Text) :
    after c (text ++ rest) = (after c text).map (· ++ rest) := by
  induction text with
  | nil => exact absurd h List.not_mem_nil
  | cons d text ih =>
    by_cases hd : d = c
    · simp [after, hd]
    · have hmem : c ∈ text := (List.mem_cons.1 h).resolve_left (Ne.symm hd)
      simp [after, hd, ih hmem]

/-- A text that starts with the pattern is cut behind it. -/
theorem substring_of_prefix {pattern : Text} (hne : pattern ≠ []) (rest : Text) :
    substring pattern (pattern ++ rest) = some rest := by
  obtain ⟨c, body, rfl⟩ := List.exists_cons_of_ne_nil hne
  have hstarts : (c :: body).isPrefixOf (c :: (body ++ rest)) = true :=
    List.isPrefixOf_iff_prefix.2 ⟨rest, rfl⟩
  rw [List.cons_append, substring, if_pos hstarts]
  simp

/-- A pattern whose last character is found nowhere else is found where that
character is. -/
theorem substring_append {c : Char} {body text : Text} (htext : c ∉ text)
    (hbody : c ∉ body) (rest : Text) :
    substring (body ++ [c]) (text ++ (body ++ [c] ++ rest)) = some rest := by
  induction text with
  | nil => exact substring_of_prefix (by simp) rest
  | cons d text ih =>
    rw [List.mem_cons, not_or] at htext
    have hstarts : ¬ (body ++ [c]).isPrefixOf
        (d :: (text ++ (body ++ [c] ++ rest))) = true := by
      intro h
      obtain ⟨tail, htail⟩ := List.isPrefixOf_iff_prefix.1 h
      have hmem : c ∉ d :: (text ++ body) := by
        simp [htext.1, htext.2, hbody]
      -- both sides have their first `c` behind the same part
      have hleft : before c (body ++ [c] ++ tail) = body := by
        rw [List.append_assoc]
        exact before_append_cons hbody tail
      have hright : before c (d :: (text ++ (body ++ [c] ++ rest))) =
          d :: (text ++ body) := by
        have := before_append_cons hmem rest
        simpa using this
      have hlength := congrArg List.length (hleft.symm.trans (htail ▸ hright))
      simp at hlength
      omega
    rw [List.cons_append, substring, if_neg hstarts]
    exact ih htext.2

/-! ## Decimal numbers -/

/-- The digits of a number. -/
def decimal (n : Nat) : Text := Nat.toDigits 10 n

/-- The number below 2^63 with the given digits. -/
def parseLong (text : Text) : Option Nat :=
  if text ≠ [] ∧ text.all Char.isDigit then
    let n := Nat.ofDigitChars 10 text 0
    if n < 2 ^ 63 then some n else none
  else none

theorem isDigit_of_mem_decimal {n : Nat} {c : Char} (h : c ∈ decimal n) :
    c.isDigit = true :=
  Nat.isDigit_of_mem_toDigits (by decide) (by decide) h

theorem decimal_injective {m n : Nat} (h : decimal m = decimal n) : m = n := by
  have hvalue : ∀ n, Nat.ofDigitChars 10 (decimal n) 0 = n :=
    fun n => Nat.ofDigitChars_toDigits (by decide) (by decide)
  rw [← hvalue m, h, hvalue n]

theorem not_mem_decimal {c : Char} (hc : c.isDigit = false) (n : Nat) :
    c ∉ decimal n := by
  intro h
  rw [isDigit_of_mem_decimal h] at hc
  cases hc

theorem parseLong_decimal {n : Nat} (h : n < 2 ^ 63) : parseLong (decimal n) = some n := by
  have hdigits : decimal n ≠ [] ∧ (decimal n).all Char.isDigit = true :=
    ⟨Nat.toDigits_ne_nil, List.all_eq_true.2 fun c hc => isDigit_of_mem_decimal hc⟩
  have hvalue : Nat.ofDigitChars 10 (decimal n) 0 = n :=
    Nat.ofDigitChars_toDigits (by decide) (by decide)
  rw [parseLong, if_pos hdigits]
  simp only [hvalue, if_pos h]

end Text
