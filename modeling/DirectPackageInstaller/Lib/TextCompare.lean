import DirectPackageInstaller.Lib.TryParse
import Mathlib.Data.List.Infix
import Mathlib.Data.List.Lex

/-!
# Comparing texts in a culture

The order of a sort by text and the tests that ignore the case depend on the
culture and on the tables of the platform.  `Comparer` is what the programs rely on:
laws that an ordinal comparison and the cultures share.  The tests skip characters
without weight, such as a soft hyphen, so their laws are about plain texts only.

* `ordinal`: the comparer of a platform without culture data, on which texts are
  compared by their UTF-16 code units.
* `lettersFree_of_tryParse`: what is read as an integer has no letters.
-/

namespace Text

/-- A letter, a digit or a dot. -/
def isPlain (c : Char) : Bool := c.isAlphanum || c == '.'

/-- Only letters, digits and dots. -/
def Plain (text : Text) : Prop := text.all isPlain = true

instance (text : Text) : Decidable (Plain text) := inferInstanceAs (Decidable (_ = true))

/-- A dot, or a character that may stand in an integer. -/
def isLetterFree (c : Char) : Bool :=
  c.isDigit || isNumberWhite c || c == '+' || c == '-' || c == '.' || c == Char.ofNat 0

/-- Only dots and characters of integers. -/
def LettersFree (text : Text) : Prop := text.all isLetterFree = true

instance (text : Text) : Decidable (LettersFree text) := inferInstanceAs (Decidable (_ = true))

/-- The ASCII letters in lower case. -/
def lower (text : Text) : Text := text.map Char.toLower

/-- The comparisons of texts.  All but `le` ignore the case. -/
structure Comparer where
  /-- `CompareTo` is not positive. -/
  le : Text → Text → Bool
  equals : Text → Text → Bool
  startsWith : Text → Text → Bool
  endsWith : Text → Text → Bool
  contains : Text → Text → Bool
  le_total : ∀ a b, le a b = true ∨ le b a = true
  le_trans : ∀ a b c, le a b = true → le b c = true → le a c = true
  /-- Two texts that first differ in a digit are ordered as these digits are. -/
  le_digits : ∀ (front : Text) (c d : Char) (rest rest' : Text), c.isDigit = true →
    d.isDigit = true → c < d → le (front ++ d :: rest) (front ++ c :: rest') = false
  /-- Behind `.r`, a digit comes before the letters `ar`. -/
  le_letters : ∀ (front : Text) (c : Char) (rest : Text), c.isDigit = true →
    le (front ++ ['.', 'r', 'a', 'r']) (front ++ '.' :: 'r' :: c :: rest) = false
  equals_plain : ∀ a b, Plain a → Plain b → (equals a b = true ↔ lower a = lower b)
  startsWith_plain : ∀ a b, Plain a → Plain b →
    (startsWith a b = true ↔ lower b <+: lower a)
  /-- Whether a text with a plain extension ends with another one as long. -/
  endsWith_plain : ∀ front a b, Plain a → Plain b → a.head? = some '.' →
    a.length = b.length → (endsWith (front ++ a) b = true ↔ lower a = lower b)
  /-- Texts that are equal are equal to the same texts and start with the same texts. -/
  equals_congr : ∀ a b c, equals a b = true →
    equals a c = equals b c ∧ startsWith a c = startsWith b c
  /-- A text without letters does not match one that has a letter. -/
  letters : ∀ a b, LettersFree a → (∃ c ∈ b, c.isAlpha = true) →
    equals a b = false ∧ startsWith a b = false

/-! ## Integers have no letters -/

theorem takeWhile_all {p : Char → Bool} (text : Text) : (text.takeWhile p).all p = true :=
  List.all_eq_true.2 fun _ hc => List.mem_takeWhile_imp hc

theorem lettersFree_append {a b : Text} :
    LettersFree (a ++ b) ↔ LettersFree a ∧ LettersFree b := by
  simp [LettersFree, List.all_append]

theorem lettersFree_of_all {p : Char → Bool} {text : Text} (h : text.all p = true)
    (hp : ∀ c, p c = true → isLetterFree c = true) : LettersFree text :=
  List.all_eq_true.2 fun c hc => hp c (List.all_eq_true.1 h c hc)

/-- A text is letters free if it is behind the characters that are skipped. -/
theorem lettersFree_of_dropWhile {p : Char → Bool} {text : Text}
    (hp : ∀ c, p c = true → isLetterFree c = true) (h : LettersFree (text.dropWhile p)) :
    LettersFree text := by
  rw [← List.takeWhile_append_dropWhile (p := p) (l := text)]
  exact lettersFree_append.2 ⟨lettersFree_of_all (takeWhile_all text) hp, h⟩

theorem lettersFree_of_sign {text : Text} (h : LettersFree (sign text).2) : LettersFree text := by
  unfold sign at h
  split at h
  · exact lettersFree_append.2 ⟨(by decide : LettersFree ['-']), h⟩
  · exact lettersFree_append.2 ⟨(by decide : LettersFree ['+']), h⟩
  · exact h

theorem lettersFree_of_tryParse {w : Nat} {text : Text} {n : Int} (h : tryParse w text = some n) :
    LettersFree text := by
  have hwhite : ∀ c, isNumberWhite c = true → isLetterFree c = true := by
    intro c hc
    simp [isLetterFree, hc]
  have hdigit : ∀ c, Char.isDigit c = true → isLetterFree c = true := by
    intro c hc
    simp [isLetterFree, hc]
  unfold tryParse at h
  dsimp only at h
  split at h
  · cases h
  · next htail =>
    rw [not_or, Bool.not_eq_true, List.any_eq_false] at htail
    refine lettersFree_of_dropWhile hwhite (lettersFree_of_sign ?_)
    refine lettersFree_of_dropWhile hdigit (lettersFree_of_dropWhile hwhite ?_)
    refine List.all_eq_true.2 fun c hc => ?_
    have hnul : c = Char.ofNat 0 := by
      have := htail.2 c hc
      simpa using this
    rw [hnul]
    decide

/-! ## Numbers of one width -/

theorem isDigit_iff {c : Char} : c.isDigit = true ↔ 48 ≤ c.toNat ∧ c.toNat ≤ 57 := by
  simp only [Char.isDigit, Bool.and_eq_true, decide_eq_true_eq]
  exact Iff.rfl

/-- The number behind zeros up to a width. -/
def padded (width n : Nat) : Text :=
  List.replicate (width - (decimal n).length) '0' ++ decimal n

theorem digits_padded (width n : Nat) : Digits (padded width n) n where
  ne_nil := by simp [padded, (digits_decimal n).ne_nil]
  digit := by
    intro c hc
    rcases List.mem_append.1 hc with hc | hc
    · rw [(List.mem_replicate.1 hc).2]
      rfl
    · exact isDigit_of_mem_decimal hc
  value := by
    rw [padded, Nat.ofDigitChars_append, Nat.ofDigitChars_replicate_zero]
    exact (digits_decimal n).value

theorem padded_length {width n : Nat} (h : (decimal n).length ≤ width) :
    (padded width n).length = width := by
  simp [padded, h]

theorem decimal_length_mono {m n : Nat} (h : m ≤ n) :
    (decimal m).length ≤ (decimal n).length := by
  have hn := (Nat.length_toDigits_le_iff (b := 10) (by decide)
    (Nat.length_toDigits_pos (b := 10) (n := n))).1 (Nat.le_refl _)
  exact (Nat.length_toDigits_le_iff (by decide) Nat.length_toDigits_pos).2 (h.trans_lt hn)

theorem decimal_of_lt {n : Nat} (h : n < 10) : decimal n = [n.digitChar] :=
  Nat.toDigits_of_lt_base h

/-- The value of digits, by the first one. -/
theorem value_cons (c : Char) (rest : Text) : Nat.ofDigitChars 10 (c :: rest) 0 =
    10 ^ rest.length * (c.toNat - 48) + Nat.ofDigitChars 10 rest 0 := by
  rw [Nat.ofDigitChars_cons, Nat.ofDigitChars_eq_ofDigitChars_zero, Nat.mul_zero, Nat.zero_add]
  rfl

theorem value_lt {text : Text} (h : ∀ c ∈ text, c.isDigit = true) :
    Nat.ofDigitChars 10 text 0 < 10 ^ text.length := by
  induction text with
  | nil => decide
  | cons c rest ih =>
    have hrest := ih fun d hd => h d (List.mem_cons_of_mem _ hd)
    have hc := isDigit_iff.1 (h c List.mem_cons_self)
    have hle : 10 ^ rest.length * (c.toNat - 48) ≤ 10 ^ rest.length * 9 :=
      Nat.mul_le_mul_left _ (by omega)
    rw [value_cons, List.length_cons, Nat.pow_succ]
    omega

/-- Of two numbers with as many digits, the smaller one has the smaller digit where they
first differ. -/
theorem exists_first_difference {a b : Text} (ha : ∀ c ∈ a, c.isDigit = true)
    (hb : ∀ c ∈ b, c.isDigit = true) (hlength : a.length = b.length)
    (hlt : Nat.ofDigitChars 10 a 0 < Nat.ofDigitChars 10 b 0) :
    ∃ front c d rest rest', a = front ++ c :: rest ∧ b = front ++ d :: rest' ∧ c < d := by
  induction a generalizing b with
  | nil =>
    obtain rfl := List.eq_nil_of_length_eq_zero hlength.symm
    exact absurd hlt (Nat.lt_irrefl _)
  | cons c rest ih =>
    obtain ⟨d, rest', rfl⟩ := List.exists_cons_of_length_eq_add_one hlength.symm
    have hrest : rest.length = rest'.length := Nat.succ.inj hlength
    have hdigits : ∀ e ∈ rest', e.isDigit = true := fun e he => hb e (List.mem_cons_of_mem _ he)
    rw [value_cons, value_cons, hrest] at hlt
    rcases Nat.lt_trichotomy c.toNat d.toNat with hcd | hcd | hcd
    · exact ⟨[], c, d, rest, rest', rfl, rfl, hcd⟩
    · obtain rfl := Char.toNat_inj.1 hcd
      obtain ⟨front, e, f, tail, tail', hfront, hfront', hef⟩ :=
        ih (fun e he => ha e (List.mem_cons_of_mem _ he)) hdigits hrest (by omega)
      exact ⟨c :: front, e, f, tail, tail', by rw [hfront]; rfl, by rw [hfront']; rfl, hef⟩
    · -- a greater first digit is worth more than all that follows
      have hd := isDigit_iff.1 (hb d List.mem_cons_self)
      have hmul : 10 ^ rest'.length * (d.toNat - 48 + 1) ≤ 10 ^ rest'.length * (c.toNat - 48) :=
        Nat.mul_le_mul_left _ (by omega)
      have hvalue := value_lt hdigits
      rw [Nat.mul_add_one] at hmul
      omega

/-- Numbers of one width are sorted by their values. -/
theorem Comparer.le_numbers (c : Comparer) {a b : Text} {m n : Nat} (ha : Digits a m)
    (hb : Digits b n) (hlength : a.length = b.length) (hlt : m < n) (front tail tail' : Text) :
    c.le (front ++ b ++ tail) (front ++ a ++ tail') = false := by
  rw [← ha.value, ← hb.value] at hlt
  obtain ⟨same, x, y, rest, rest', rfl, rfl, hxy⟩ :=
    exists_first_difference ha.digit hb.digit hlength hlt
  have := c.le_digits (front ++ same) x y (rest' ++ tail) (rest ++ tail')
    (ha.digit x (by simp)) (hb.digit y (by simp)) hxy
  simpa using this

/-! ## The ordinal comparison -/

/-- The UTF-16 code units of a character. -/
def codeUnits (c : Char) : List Nat :=
  if c.toNat < 0x10000 then [c.toNat]
  else [0xD800 + (c.toNat - 0x10000) / 0x400, 0xDC00 + (c.toNat - 0x10000) % 0x400]

def ordinalLe (a b : Text) : Bool := decide (a.flatMap codeUnits ≤ b.flatMap codeUnits)

theorem codeUnits_of_lt {c : Char} (h : c.toNat < 0x10000) : codeUnits c = [c.toNat] :=
  if_pos h

theorem not_ordinalLe_of_lt (front : Text) {c d : Char} (rest rest' : Text)
    (hd : d.toNat < 0x10000) (h : c < d) :
    ordinalLe (front ++ d :: rest) (front ++ c :: rest') = false := by
  have hc : c.toNat < d.toNat := h
  refine decide_eq_false fun hle => ?_
  simp only [List.flatMap_append, List.flatMap_cons, codeUnits_of_lt hd,
    codeUnits_of_lt (hc.trans hd)] at hle
  exact not_lt_of_ge hle (List.append_left_lt (List.cons_lt_cons_iff.2 (.inl hc)))

theorem isAlpha_iff {c : Char} : c.isAlpha = true ↔
    (65 ≤ c.toNat ∧ c.toNat ≤ 90) ∨ (97 ≤ c.toNat ∧ c.toNat ≤ 122) := by
  have hupper : c.isUpper = true ↔ 65 ≤ c.toNat ∧ c.toNat ≤ 90 := decide_eq_true_iff
  have hlower : c.isLower = true ↔ 97 ≤ c.toNat ∧ c.toNat ≤ 122 := by
    refine Bool.and_eq_true_iff.trans (and_congr ?_ ?_) <;> exact decide_eq_true_iff
  change (c.isUpper || c.isLower) = true ↔ _
  rw [Bool.or_eq_true, hupper, hlower]

theorem isAlpha_toLower {c : Char} (h : c.isAlpha = true) : c.toLower.isAlpha = true := by
  unfold Char.toLower
  split
  · next hupper =>
    have hlo : 65 ≤ c.val.toNat := hupper.1
    have hhi : c.val.toNat ≤ 90 := hupper.2
    have hvalue : (c.val + ('a'.val - 'A'.val)).toNat = c.val.toNat + 32 := by
      rw [UInt32.toNat_add, show ('a'.val - 'A'.val).toNat = 32 from rfl]
      exact Nat.mod_eq_of_lt (by omega)
    refine isAlpha_iff.2 (.inr ?_)
    change 97 ≤ (c.val + ('a'.val - 'A'.val)).toNat ∧ (c.val + ('a'.val - 'A'.val)).toNat ≤ 122
    omega
  · exact h

theorem not_alpha_of_letterFree {c : Char} (h : isLetterFree c = true) : c.isAlpha = false := by
  refine Bool.eq_false_iff.2 fun halpha => ?_
  have hrange := isAlpha_iff.1 halpha
  simp only [isLetterFree, isNumberWhite, Bool.or_eq_true, Bool.and_eq_true, decide_eq_true_eq,
    beq_iff_eq, isDigit_iff] at h
  rcases h with ((((hdigit | hwhite) | rfl) | rfl) | rfl) | rfl
  · omega
  · omega
  all_goals exact absurd hrange (by decide)

theorem toLower_of_not_alpha {c : Char} (h : c.isAlpha = false) : c.toLower = c := by
  unfold Char.toLower
  rw [dif_neg]
  rintro ⟨hlo, hhi⟩
  rw [isAlpha_iff.2 (.inl ⟨hlo, hhi⟩)] at h
  cases h

/-- In lower case, too, a text without letters has none. -/
theorem lower_of_lettersFree {text : Text} (h : LettersFree text) :
    ∀ c ∈ lower text, c.isAlpha = false := by
  intro c hc
  obtain ⟨d, hd, rfl⟩ := List.mem_map.1 hc
  have halpha := not_alpha_of_letterFree (List.all_eq_true.1 h d hd)
  rw [toLower_of_not_alpha halpha]
  exact halpha

/-- On a platform without culture data, texts are compared by their code units, and
ASCII letters in either case are the same. -/
def ordinal : Comparer where
  le := ordinalLe
  equals a b := lower a == lower b
  startsWith text start := (lower start).isPrefixOf (lower text)
  endsWith text tail := (lower tail).isSuffixOf (lower text)
  contains text part := decide (lower part <:+: lower text)
  le_total a b := by
    simp only [ordinalLe, decide_eq_true_eq]
    exact le_total _ _
  le_trans a b c hab hbc := by
    simp only [ordinalLe, decide_eq_true_eq] at hab hbc ⊢
    exact hab.trans hbc
  le_digits front c d rest rest' hc hd hcd := by
    have hrange := isDigit_iff.1 hd
    exact not_ordinalLe_of_lt front rest rest' (by omega) hcd
  le_letters front c rest hc := by
    have hlt : c < 'a' := Nat.lt_of_le_of_lt (isDigit_iff.1 hc).2 (by decide)
    have := not_ordinalLe_of_lt (front ++ ['.', 'r']) ['r'] rest (by decide) hlt
    simpa using this
  equals_plain a b ha hb := by simp
  startsWith_plain a b ha hb := List.isPrefixOf_iff_prefix
  endsWith_plain front a b ha hb hdot hlength := by
    have happend : lower (front ++ a) = lower front ++ lower a := List.map_append
    rw [List.isSuffixOf_iff_suffix, happend]
    have hlengths : (lower b).length = (lower a).length := by simp [lower, hlength]
    refine ⟨fun hsuffix => ?_, fun heq => heq ▸ List.suffix_append _ _⟩
    exact ((List.suffix_of_suffix_length_le hsuffix (List.suffix_append _ _)
      hlengths.le).eq_of_length hlengths).symm
  equals_congr a b c h := by
    rw [beq_iff_eq] at h
    rw [h]
    exact ⟨rfl, rfl⟩
  letters a b ha hb := by
    obtain ⟨c, hc, halpha⟩ := hb
    have hmem : c.toLower ∈ lower b := List.mem_map_of_mem hc
    have hnot : c.toLower ∉ lower a := fun h => by
      have := lower_of_lettersFree ha _ h
      rw [isAlpha_toLower halpha] at this
      cases this
    constructor
    · refine beq_eq_false_iff_ne.2 fun heq => hnot (heq ▸ hmem)
    · refine Bool.eq_false_iff.2 fun hprefix => ?_
      exact hnot ((List.isPrefixOf_iff_prefix.1 hprefix).subset hmem)

end Text
