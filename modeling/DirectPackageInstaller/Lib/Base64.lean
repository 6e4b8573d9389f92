import Mathlib.Data.List.Basic
import Mathlib.Tactic.Common

/-!
# Base64

Encoding and decoding in the standard alphabet with padding.  The decoder
skips white space and rejects everything else that is malformed.

* `decode_encode`: the round trip.
* `plus_not_mem_encode`: the digit `+` does not occur in the encoding of ASCII
  bytes other than `>` and `~`.
* `decode_blanked_ne`: an encoding in which a digit has been turned to blanks
  does not decode to what was encoded.
-/

namespace Base64

/-- The digits, by their value. -/
def alphabet : List Char :=
  "ABCDEFGHIJKLMNOPQRSTUVWXYZabcdefghijklmnopqrstuvwxyz0123456789+/".toList

/-- The digit with value `n`. -/
def digit (n : Nat) : Char := alphabet.getD n '='

/-- The value of a digit. -/
def value (c : Char) : Option Nat := alphabet.findIdx? (· = c)

/-- Three bytes give four digits; a rest of one or two bytes is padded. -/
def encode : List UInt8 → List Char
  | [] => []
  | [a] => [digit (a.toNat / 4), digit (a.toNat % 4 * 16), '=', '=']
  | [a, b] => [digit (a.toNat / 4), digit (a.toNat % 4 * 16 + b.toNat / 16),
      digit (b.toNat % 16 * 4), '=']
  | a :: b :: c :: rest =>
    digit (a.toNat / 4) :: digit (a.toNat % 4 * 16 + b.toNat / 16) ::
      digit (b.toNat % 16 * 4 + c.toNat / 64) :: digit (c.toNat % 64) ::
        encode rest

/-- The first byte of two digits. -/
def byte₁ (a b : Nat) : UInt8 := UInt8.ofNat (a * 4 + b / 16)

/-- The second byte of three digits, from the last two. -/
def byte₂ (b c : Nat) : UInt8 := UInt8.ofNat (b % 16 * 16 + c / 4)

/-- The third byte of four digits, from the last two. -/
def byte₃ (c d : Nat) : UInt8 := UInt8.ofNat (c % 4 * 64 + d)

/-- The bytes of groups of four digits, with padding in the last group only. -/
def decodeQuads : List Char → Option (List UInt8)
  | [] => some []
  | a :: b :: c :: d :: rest =>
    match value a, value b with
    | some a, some b =>
      if d = '=' then
        if rest ≠ [] then none
        else if c = '=' then some [byte₁ a b]
        else (value c).map fun c => [byte₁ a b, byte₂ b c]
      else
        match value c, value d with
        | some c, some d => (decodeQuads rest).map fun bytes =>
            byte₁ a b :: byte₂ b c :: byte₃ c d :: bytes
        | _, _ => none
    | _, _ => none
  | _ => none

/-- The characters that the decoder skips. -/
def isWhiteSpace (c : Char) : Bool :=
  c = ' ' || c = '\t' || c = '\n' || c = '\r'

def decode (text : List Char) : Option (List UInt8) :=
  decodeQuads (text.filter fun c => !isWhiteSpace c)

/-! ## Digits -/

/-- A digit has its value, and is no sign but `+` and `/`. -/
theorem digit_spec : ∀ n < 64, value (digit n) = some n ∧ digit n ≠ '=' ∧
    isWhiteSpace (digit n) = false ∧ (digit n = '+' ↔ n = 62) ∧ digit n ∈ alphabet := by
  decide +kernel

theorem value_digit (n : Nat) (hn : n < 64) : value (digit n) = some n := (digit_spec n hn).1

theorem digit_ne_pad (n : Nat) (hn : n < 64) : digit n ≠ '=' := (digit_spec n hn).2.1

theorem digit_not_white (n : Nat) (hn : n < 64) : isWhiteSpace (digit n) = false :=
  (digit_spec n hn).2.2.1

theorem digit_eq_plus (n : Nat) (hn : n < 64) : digit n = '+' ↔ n = 62 :=
  (digit_spec n hn).2.2.2.1

/-- The digits and the padding are letters, numbers and three signs. -/
theorem digit_mem_alphabet (n : Nat) (hn : n < 64) : digit n ∈ alphabet :=
  (digit_spec n hn).2.2.2.2

theorem toNat_lt (b : UInt8) : b.toNat < 256 := UInt8.toNat_lt b

theorem byte₁_eq {a : UInt8} {b : Nat} (hb : b < 16) :
    byte₁ (a.toNat / 4) (a.toNat % 4 * 16 + b) = a := by
  have ha := toNat_lt a
  rw [byte₁, show a.toNat / 4 * 4 + (a.toNat % 4 * 16 + b) / 16 = a.toNat by omega]
  exact UInt8.ofNat_toNat

theorem byte₂_eq {a b : UInt8} {c : Nat} (hc : c < 4) :
    byte₂ (a.toNat % 4 * 16 + b.toNat / 16) (b.toNat % 16 * 4 + c) = b := by
  have hb := toNat_lt b
  rw [byte₂, show (a.toNat % 4 * 16 + b.toNat / 16) % 16 * 16 +
    (b.toNat % 16 * 4 + c) / 4 = b.toNat by omega]
  exact UInt8.ofNat_toNat

theorem byte₃_eq {b c : UInt8} :
    byte₃ (b.toNat % 16 * 4 + c.toNat / 64) (c.toNat % 64) = c := by
  have hc := toNat_lt c
  rw [byte₃, show (b.toNat % 16 * 4 + c.toNat / 64) % 4 * 64 + c.toNat % 64 =
    c.toNat by omega]
  exact UInt8.ofNat_toNat

/-! ## The round trip -/

theorem decodeQuads_encode (bytes : List UInt8) :
    decodeQuads (encode bytes) = some bytes := by
  induction bytes using encode.induct with
  | case1 => rfl
  | case2 a =>
    have ha := toNat_lt a
    have h₁ := byte₁_eq (a := a) (b := 0) (by decide)
    simp only [Nat.add_zero] at h₁
    simp [encode, decodeQuads, value_digit _ (show a.toNat / 4 < 64 by omega),
      value_digit _ (show a.toNat % 4 * 16 < 64 by omega), h₁]
  | case3 a b =>
    have ha := toNat_lt a
    have hb := toNat_lt b
    have h₁ := byte₁_eq (a := a) (show b.toNat / 16 < 16 by omega)
    have h₂ := byte₂_eq (a := a) (b := b) (c := 0) (by decide)
    simp only [Nat.add_zero] at h₂
    simp [encode, decodeQuads, value_digit _ (show a.toNat / 4 < 64 by omega),
      value_digit _ (show a.toNat % 4 * 16 + b.toNat / 16 < 64 by omega),
      value_digit _ (show b.toNat % 16 * 4 < 64 by omega),
      digit_ne_pad _ (show b.toNat % 16 * 4 < 64 by omega), h₁, h₂]
  | case4 a b c rest ih =>
    have ha := toNat_lt a
    have hb := toNat_lt b
    have hc := toNat_lt c
    have h₁ := byte₁_eq (a := a) (show b.toNat / 16 < 16 by omega)
    have h₂ := byte₂_eq (a := a) (b := b) (show c.toNat / 64 < 4 by omega)
    have h₃ := byte₃_eq (b := b) (c := c)
    simp [encode, decodeQuads, value_digit _ (show a.toNat / 4 < 64 by omega),
      value_digit _ (show a.toNat % 4 * 16 + b.toNat / 16 < 64 by omega),
      value_digit _ (show b.toNat % 16 * 4 + c.toNat / 64 < 64 by omega),
      value_digit _ (show c.toNat % 64 < 64 by omega),
      digit_ne_pad _ (show c.toNat % 64 < 64 by omega), h₁, h₂, h₃, ih]

/-- What a character of an encoding can be. -/
theorem mem_encode {bytes : List UInt8} {c : Char} (h : c ∈ encode bytes) :
    c = '=' ∨ ∃ n < 64, c = digit n := by
  induction bytes using encode.induct with
  | case1 => cases h
  | case2 a =>
    have ha := toNat_lt a
    simp only [encode, List.mem_cons, List.not_mem_nil, or_false] at h
    rcases h with h | h | h | h
    · exact Or.inr ⟨_, by omega, h⟩
    · exact Or.inr ⟨_, by omega, h⟩
    · exact Or.inl h
    · exact Or.inl h
  | case3 a b =>
    have ha := toNat_lt a
    have hb := toNat_lt b
    simp only [encode, List.mem_cons, List.not_mem_nil, or_false] at h
    rcases h with h | h | h | h
    · exact Or.inr ⟨_, by omega, h⟩
    · exact Or.inr ⟨_, by omega, h⟩
    · exact Or.inr ⟨_, by omega, h⟩
    · exact Or.inl h
  | case4 a b c' rest ih =>
    have ha := toNat_lt a
    have hb := toNat_lt b
    have hc := toNat_lt c'
    simp only [encode, List.mem_cons] at h
    rcases h with h | h | h | h | h
    · exact Or.inr ⟨_, by omega, h⟩
    · exact Or.inr ⟨_, by omega, h⟩
    · exact Or.inr ⟨_, by omega, h⟩
    · exact Or.inr ⟨_, by omega, h⟩
    · exact ih h

theorem not_white_of_mem_encode {bytes : List UInt8} {c : Char}
    (h : c ∈ encode bytes) : isWhiteSpace c = false := by
  rcases mem_encode h with rfl | ⟨n, hn, rfl⟩
  · rfl
  · exact digit_not_white n hn

theorem decode_encode (bytes : List UInt8) : decode (encode bytes) = some bytes := by
  have hfilter : (encode bytes).filter (fun c => !isWhiteSpace c) = encode bytes :=
    List.filter_eq_self.2 fun c hc => by simp [not_white_of_mem_encode hc]
  rw [decode, hfilter, decodeQuads_encode]

/-! ## Where a plus can occur -/

/-- An ASCII byte other than `>` and `~`. -/
def Plain (b : UInt8) : Prop := b.toNat < 128 ∧ b.toNat % 64 ≠ 62

/-- Plain bytes are encoded without a plus: six bits of them in a row are
`111110` only at the end of a third byte. -/
theorem plus_not_mem_encode {bytes : List UInt8} (h : ∀ b ∈ bytes, Plain b) :
    '+' ∉ encode bytes := by
  have hne : ∀ n < 64, n ≠ 62 → '+' ≠ digit n :=
    fun n hn hv heq => hv ((digit_eq_plus n hn).1 heq.symm)
  induction bytes using encode.induct with
  | case1 => exact List.not_mem_nil
  | case2 a =>
    have ha := (h a (by simp)).1
    simp only [encode, List.mem_cons, List.not_mem_nil, or_false, not_or]
    exact ⟨hne _ (by omega) (by omega), hne _ (by omega) (by omega), by decide,
      by decide⟩
  | case3 a b =>
    have ha := (h a (by simp)).1
    have hb := (h b (by simp)).1
    simp only [encode, List.mem_cons, List.not_mem_nil, or_false, not_or]
    exact ⟨hne _ (by omega) (by omega), hne _ (by omega) (by omega),
      hne _ (by omega) (by omega), by decide⟩
  | case4 a b c rest ih =>
    have ha := (h a (by simp)).1
    have hb := (h b (by simp)).1
    obtain ⟨hc, hc62⟩ := h c (by simp)
    simp only [encode, List.mem_cons, not_or]
    exact ⟨hne _ (by omega) (by omega), hne _ (by omega) (by omega),
      hne _ (by omega) (by omega), hne _ (by omega) hc62,
      ih fun b hb => h b (by simp [hb])⟩

/-! ## Lengths -/

theorem length_encode (bytes : List UInt8) :
    (encode bytes).length = (bytes.length + 2) / 3 * 4 := by
  induction bytes using encode.induct with
  | case1 => rfl
  | case2 a => simp [encode]
  | case3 a b => simp [encode]
  | case4 a b c rest ih =>
    simp only [encode, List.length_cons, ih]
    omega

/-- Four digits give at most three bytes. -/
theorem length_decodeQuads :
    ∀ {text : List Char} {bytes : List UInt8}, decodeQuads text = some bytes →
      text.length % 4 = 0 ∧ bytes.length * 4 ≤ text.length * 3
  | [], _, h => by
    cases h
    exact ⟨rfl, Nat.le_refl 0⟩
  | a :: b :: c :: d :: rest, bytes, h => by
    rw [decodeQuads] at h
    simp only [List.length_cons]
    split at h
    · split at h
      · split at h
        · cases h
        · rename_i hrest
          have hnil : rest = [] := not_not.1 hrest
          subst hnil
          split at h
          · cases h
            simp
          · obtain ⟨v, -, rfl⟩ := Option.map_eq_some_iff.1 h
            simp
      · split at h
        · obtain ⟨bytes', h', rfl⟩ := Option.map_eq_some_iff.1 h
          have ih := length_decodeQuads h'
          simp only [List.length_cons]
          omega
        · cases h
    · cases h
  | [_], _, h => by cases h
  | [_, _], _, h => by cases h
  | [_, _, _], _, h => by cases h

/-- A text with fewer digits than the encoding of `bytes` does not decode to
`bytes`. -/
theorem decode_ne_of_length_lt {text : List Char} {bytes : List UInt8}
    (h : (text.filter fun c => !isWhiteSpace c).length < (encode bytes).length) :
    decode text ≠ some bytes := by
  intro hdecode
  have hlen := length_decodeQuads hdecode
  rw [length_encode] at h
  omega

/-- Blanks in the place of digits are digits taken out. -/
theorem decode_blanked_ne {bytes : List UInt8} {d : Char} (hd : d ∈ encode bytes) :
    decode ((encode bytes).map fun c => if c = d then ' ' else c) ≠ some bytes := by
  apply decode_ne_of_length_lt
  have hmap : ∀ text : List Char, (∀ c ∈ text, isWhiteSpace c = false) →
      ((text.map fun c => if c = d then ' ' else c).filter
        fun c => !isWhiteSpace c) = text.filter (· ≠ d) := by
    intro text htext
    induction text with
    | nil => rfl
    | cons c rest ih =>
      have hrest := ih fun c hc => htext c (List.mem_cons_of_mem _ hc)
      have hc := htext c List.mem_cons_self
      by_cases h : c = d
      · simpa [h, isWhiteSpace] using hrest
      · simpa [h, hc] using hrest
  rw [hmap _ fun c hc => not_white_of_mem_encode hc]
  exact List.length_filter_lt_length_iff_exists.2 ⟨d, hd, by simp⟩

end Base64
