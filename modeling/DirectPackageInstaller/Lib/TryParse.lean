import DirectPackageInstaller.Lib.WhiteSpace
import Mathlib.Algebra.Order.Ring.Int

/-!
# Integers in texts

`long.TryParse` and `int.TryParse` with their default style: white space, a
sign, digits, and white space again.  The result is a `w`-bit integer, so a
number that does not fit is refused.

* `tryParse_digits`: digits are read as their value, with leading zeros or not.
* `tryParse_intText`: a printed integer is read back.
* `tryParse_fits`: what is read fits.
-/

namespace Text

/-- `n` is a `w`-bit integer. -/
def Fits (w : Nat) (n : Int) : Prop := -2 ^ (w - 1) ≤ n ∧ n < 2 ^ (w - 1)

instance (w : Nat) (n : Int) : Decidable (Fits w n) := inferInstanceAs (Decidable (_ ∧ _))

/-- The white space that the parser skips, which is ASCII only. -/
def isNumberWhite (c : Char) : Bool :=
  (0x09 ≤ c.toNat && c.toNat ≤ 0x0D) || c.toNat == 0x20

/-- A leading sign: whether it is a minus, and the rest. -/
def sign : Text → Bool × Text
  | '-' :: rest => (true, rest)
  | '+' :: rest => (false, rest)
  | rest => (false, rest)

/-- `TryParse(text, out n)` for a `w`-bit integer. -/
def tryParse (w : Nat) (text : Text) : Option Int :=
  let (negative, rest) := sign (text.dropWhile isNumberWhite)
  let digits := rest.takeWhile Char.isDigit
  let tail := (rest.dropWhile Char.isDigit).dropWhile isNumberWhite
  -- only NUL characters may follow
  if digits = [] ∨ tail.any (· != Char.ofNat 0) then none
  else
    let magnitude : Int := Nat.ofDigitChars 10 digits 0
    let n := if negative then -magnitude else magnitude
    if Fits w n then some n else none

/-- The decimal number with the given digits. -/
structure Digits (text : Text) (n : Nat) : Prop where
  ne_nil : text ≠ []
  digit : ∀ c ∈ text, c.isDigit = true
  value : Nat.ofDigitChars 10 text 0 = n

theorem digits_decimal (n : Nat) : Digits (decimal n) n where
  ne_nil := Nat.toDigits_ne_nil
  digit := fun _ hc => isDigit_of_mem_decimal hc
  value := Nat.ofDigitChars_toDigits (by decide) (by decide)

theorem not_white_of_isDigit {c : Char} (h : c.isDigit = true) : isWhiteSpace c = false := by
  have hrange : 48 ≤ c.toNat ∧ c.toNat ≤ 57 := by
    simp only [Char.isDigit, Bool.and_eq_true, decide_eq_true_eq] at h
    exact ⟨h.1, h.2⟩
  simp only [isWhiteSpace]
  grind

theorem Digits.trimmed {text : Text} {n : Nat} (h : Digits text n) : Trimmed text :=
  trimmed_of_not_white fun c hc => not_white_of_isDigit (h.digit c hc)

theorem Digits.not_white {text : Text} {n : Nat} (h : Digits text n) : ¬ White text := by
  intro hwhite
  obtain ⟨c, hc⟩ := List.exists_mem_of_ne_nil _ h.ne_nil
  exact hwhite.ne (not_white_of_isDigit (h.digit c hc)) hc

theorem Digits.ne {text : Text} {n : Nat} (h : Digits text n) {c : Char}
    (hc : c.isDigit = false) : c ∉ text := by
  intro hmem
  rw [h.digit c hmem] at hc
  cases hc

theorem tryParse_fits {w : Nat} {text : Text} {n : Int} (h : tryParse w text = some n) :
    Fits w n := by
  unfold tryParse at h
  dsimp only at h
  split at h
  · cases h
  · obtain ⟨hfits, hn⟩ := Option.ite_none_right_eq_some.1 h
    cases hn
    exact hfits

/-- What is left behind an optional minus sign is read as its digits. -/
theorem tryParse_of_sign {w : Nat} {text digits : Text} {negative : Bool} {n : Nat}
    (hwhite : text.dropWhile isNumberWhite = text)
    (hsign : sign text = (negative, digits)) (h : Digits digits n)
    (hfits : Fits w (if negative then -(n : Int) else n)) :
    tryParse w text = some (if negative then -(n : Int) else n) := by
  have htake : digits.takeWhile Char.isDigit = digits := List.takeWhile_eq_self_iff.2 h.digit
  have hdrop : digits.dropWhile Char.isDigit = [] := List.dropWhile_eq_nil_iff.2 h.digit
  unfold tryParse
  rw [hwhite, hsign]
  simp only [htake, hdrop, h.value, h.ne_nil, List.dropWhile_nil, List.any_nil,
    Bool.false_eq_true, or_self, if_false]
  rw [if_pos hfits]

theorem dropWhile_numberWhite {c : Char} {text : Text} (h : isNumberWhite c = false) :
    (c :: text).dropWhile isNumberWhite = c :: text := by
  rw [List.dropWhile_cons_of_neg (by simp [h])]

theorem sign_of_isDigit {c : Char} {text : Text} (h : c.isDigit = true) :
    sign (c :: text) = (false, c :: text) := by
  unfold sign
  split
  · rename_i heq
    cases heq
    cases h
  · rename_i heq
    cases heq
    cases h
  · rfl

theorem numberWhite_of_isDigit {c : Char} (h : c.isDigit = true) :
    isNumberWhite c = false := by
  have hrange : 48 ≤ c.toNat ∧ c.toNat ≤ 57 := by
    simp only [Char.isDigit, Bool.and_eq_true, decide_eq_true_eq] at h
    exact ⟨h.1, h.2⟩
  simp only [isNumberWhite]
  grind

theorem tryParse_digits {w : Nat} {text : Text} {n : Nat} (h : Digits text n)
    (hfits : (n : Int) < 2 ^ (w - 1)) : tryParse w text = some (n : Int) := by
  obtain ⟨c, rest, rfl⟩ := List.exists_cons_of_ne_nil h.ne_nil
  have hdigit := h.digit c (List.mem_cons_self ..)
  have hnonneg : -2 ^ (w - 1) ≤ (n : Int) := by
    have hpos : (0 : Int) < 2 ^ (w - 1) := pow_pos (by decide) _
    exact (neg_nonpos_of_nonneg hpos.le).trans (Int.natCast_nonneg n)
  exact tryParse_of_sign (dropWhile_numberWhite (numberWhite_of_isDigit hdigit))
    (sign_of_isDigit hdigit) h ⟨hnonneg, hfits⟩

/-- `ToString()` of an integer. -/
def intText (n : Int) : Text :=
  if n < 0 then '-' :: decimal n.natAbs else decimal n.natAbs

theorem tryParse_intText {w : Nat} {n : Int} (h : Fits w n) :
    tryParse w (intText n) = some n := by
  unfold intText
  split
  · have hn : -((n.natAbs : Nat) : Int) = n := by omega
    have hvalue : (if true then -((n.natAbs : Nat) : Int) else n.natAbs) = n := hn
    have hparse : tryParse w ('-' :: decimal n.natAbs) = _ := tryParse_of_sign
      (dropWhile_numberWhite (by decide)) rfl (digits_decimal n.natAbs) (hvalue.symm ▸ h)
    exact hparse.trans (congrArg some hvalue)
  · have hn : ((n.natAbs : Nat) : Int) = n := by omega
    have hparse := tryParse_digits (w := w) (digits_decimal n.natAbs) (hn.symm ▸ h.2)
    exact hparse.trans (congrArg some hn)

end Text
