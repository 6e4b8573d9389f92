import DirectPackageInstaller.Lib.TextCompare

/-!
# URL decoding

`HttpUtility.UrlDecode` turns `+` to a blank, `%XX` to a byte and `%uXXXX` to a
UTF-16 code unit.  Bytes in a row are UTF-8, and surrogates without their partner are
replaced at the end.

* `fromUnits_codeUnits`: a text is read back from its code units.
* `urlDecode_eq_blanked`: a text without percent signs only has its plus signs
  turned to blanks.
* `urlDecode_of_encodes`: an ASCII text is read back from each of its encodings.
* `mem_of_encodes`: what an encoding is made of.
-/

namespace UrlDecode

open Text

/-! ## Code units -/

def isHigh (u : Nat) : Bool := 0xD800 ≤ u && u < 0xDC00

def isLow (u : Nat) : Bool := 0xDC00 ≤ u && u < 0xE000

/-- A code unit by itself. -/
def single (u : Nat) : Char :=
  if isHigh u || isLow u then Char.ofNat 0xFFFD else Char.ofNat u

/-- The text of some code units. -/
def fromUnits : List Nat → Text
  | [] => []
  | [u] => [single u]
  | u :: v :: rest =>
    if isHigh u && isLow v then
      Char.ofNat (0x10000 + (u - 0xD800) * 0x400 + (v - 0xDC00)) :: fromUnits rest
    else single u :: fromUnits (v :: rest)

/-! ## The code -/

/-- The value of a hexadecimal digit. -/
def hexDigit (c : Char) : Option Nat :=
  if '0' ≤ c ∧ c ≤ '9' then some (c.toNat - '0'.toNat)
  else if 'a' ≤ c ∧ c ≤ 'f' then some (c.toNat - 'a'.toNat + 10)
  else if 'A' ≤ c ∧ c ≤ 'F' then some (c.toNat - 'A'.toNat + 10)
  else none

/-- A plus sign stands for a blank. -/
def blank (c : Char) : Char := if c = '+' then ' ' else c

/-- The value of four hexadecimal digits. -/
def hexUnit (a b c d : Char) : Option Nat :=
  match hexDigit a, hexDigit b, hexDigit c, hexDigit d with
  | some a, some b, some c, some d => some (((a * 16 + b) * 16 + c) * 16 + d)
  | _, _, _, _ => none

/-- The byte or the code unit behind a percent sign, with the number of characters
that it takes. -/
def escape : Text → Option ((UInt8 ⊕ Nat) × Nat)
  | a :: b :: rest =>
    if a = 'u' then
      match rest with
      | c :: d :: e :: _ => (hexUnit b c d e).map fun u => (.inr u, 5)
      | _ => none
    else
      match hexDigit a, hexDigit b with
      | some high, some low => some (.inl (UInt8.ofNat (high * 16 + low)), 2)
      | _, _ => none
  | _ => none

/-- A character by itself: ASCII is added as a byte. -/
def plainItems (c : Char) : List (UInt8 ⊕ Nat) :=
  if c.toNat < 128 then [.inl (UInt8.ofNat c.toNat)] else (codeUnits c).map .inr

/-- The bytes and code units of an encoded text.  The first `skip` characters belong
to what is in front of them. -/
def items : Nat → Text → List (UInt8 ⊕ Nat)
  | _, [] => []
  | skip + 1, _ :: rest => items skip rest
  | 0, c :: rest =>
    match if c = '%' then escape rest else none with
    | some (item, length) => item :: items length rest
    | none => plainItems (blank c) ++ items 0 rest

/-- The code units; `pending` are the bytes since the last one. -/
def units (replace : List UInt8 → Text) (pending : List UInt8) : List (UInt8 ⊕ Nat) → List Nat
  | [] => (getString replace pending).flatMap codeUnits
  | .inl byte :: rest => units replace (pending ++ [byte]) rest
  | .inr u :: rest => (getString replace pending).flatMap codeUnits ++ u :: units replace [] rest

/-- `HttpUtility.UrlDecode(text)`. -/
def urlDecode (replace : List UInt8 → Text) (text : Text) : Text :=
  fromUnits (units replace [] (items 0 text))

/-! ## Encodings -/

/-- A text and one of its URL encodings.  A character may stand for itself, a blank
may be a plus sign, and the digits of an escape may have either case. -/
inductive Encodes : Text → Text → Prop where
  | nil : Encodes [] []
  | literal {c : Char} {encoded text : Text} : c ≠ '%' → c ≠ '+' → c.toNat < 128 →
    Encodes encoded text → Encodes (c :: encoded) (c :: text)
  | plus {encoded text : Text} : Encodes encoded text → Encodes ('+' :: encoded) (' ' :: text)
  | percent {c a b : Char} {encoded text : Text} : c.toNat < 128 →
    hexDigit a = some (c.toNat / 16) → hexDigit b = some (c.toNat % 16) →
    Encodes encoded text → Encodes ('%' :: a :: b :: encoded) (c :: text)

/-! ## Decoding -/

/-- A character below the surrogates is its code unit. -/
theorem codeUnits_cases (c : Char) :
    (codeUnits c = [c.toNat] ∧ isHigh c.toNat = false ∧ isLow c.toNat = false) ∨
      ∃ u v, codeUnits c = [u, v] ∧ isHigh u = true ∧ isLow v = true ∧
        0x10000 + (u - 0xD800) * 0x400 + (v - 0xDC00) = c.toNat := by
  have hvalid : c.toNat < 0xD800 ∨ 0xDFFF < c.toNat ∧ c.toNat < 0x110000 := c.valid
  rw [codeUnits]
  split_ifs with hlt
  · left
    refine ⟨rfl, ?_, ?_⟩ <;> simp only [isHigh, isLow, Bool.and_eq_false_iff,
      decide_eq_false_iff_not] <;> omega
  · right
    refine ⟨_, _, rfl, ?_, ?_, ?_⟩
    · simp only [isHigh, Bool.and_eq_true, decide_eq_true_eq]
      omega
    · simp only [isLow, Bool.and_eq_true, decide_eq_true_eq]
      omega
    · omega

theorem fromUnits_cons {u : Nat} (h : isHigh u = false) (rest : List Nat) :
    fromUnits (u :: rest) = single u :: fromUnits rest := by
  cases rest with
  | nil => rfl
  | cons v rest => rw [fromUnits, h, Bool.false_and, if_neg Bool.false_ne_true]

/-- A text is read back from its code units. -/
theorem fromUnits_codeUnits (text : Text) : fromUnits (text.flatMap codeUnits) = text := by
  induction text with
  | nil => rfl
  | cons c text ih =>
    rw [List.flatMap_cons]
    rcases codeUnits_cases c with ⟨hunits, hhigh, hlow⟩ | ⟨u, v, hunits, hhigh, hlow, hvalue⟩
    · have hsingle : single c.toNat = c := by
        rw [single, hhigh, hlow]
        exact Char.ofNat_toNat c
      rw [hunits, List.singleton_append, fromUnits_cons hhigh, hsingle, ih]
    · rw [hunits]
      change fromUnits (u :: v :: text.flatMap codeUnits) = c :: text
      rw [fromUnits, hhigh, hlow, Bool.and_self, if_pos rfl, hvalue, ih, Char.ofNat_toNat]

/-- Bytes alone are decoded together. -/
theorem units_bytes (replace : List UInt8 → Text) (bytes : List UInt8) :
    ∀ pending, units replace pending (bytes.map .inl) =
      (getString replace (pending ++ bytes)).flatMap codeUnits := by
  induction bytes with
  | nil =>
    intro pending
    rw [List.map_nil, units, List.append_nil]
  | cons byte bytes ih =>
    intro pending
    rw [List.map_cons, units, ih, List.append_assoc]
    rfl

/-- Characters that stand for themselves are read back behind the bytes of others. -/
theorem units_plainItems (replace : List UInt8 → Text) (text : Text) :
    ∀ front : Text, units replace (getBytes front) (text.flatMap plainItems) =
      (front ++ text).flatMap codeUnits := by
  have hnil : getString replace [] = [] := getString_getBytes replace []
  induction text with
  | nil =>
    intro front
    rw [List.flatMap_nil, units, getString_getBytes, List.append_nil]
  | cons c text ih =>
    intro front
    have hrest := ih []
    rw [List.nil_append] at hrest
    change units replace [] _ = _ at hrest
    rw [List.flatMap_cons, plainItems]
    split_ifs with hascii
    · have hbyte : getBytes front ++ [UInt8.ofNat c.toNat] = getBytes (front ++ [c]) := by
        have hle : c.toNat ≤ 127 := Nat.le_of_lt_succ hascii
        simp [getBytes, String.utf8EncodeChar, hle]
      rw [List.singleton_append, units, hbyte, ih]
      simp
    · rcases codeUnits_cases c with ⟨hunits, -⟩ | ⟨u, v, hunits, -⟩
      · rw [hunits]
        simp [units, getString_getBytes, hrest, hunits]
      · rw [hunits]
        simp [units, getString_getBytes, hnil, hrest, hunits]

theorem items_of_not_mem {text : Text} (h : '%' ∉ text) :
    items 0 text = (text.map blank).flatMap plainItems := by
  induction text with
  | nil => rfl
  | cons c text ih =>
    rw [List.mem_cons, not_or] at h
    rw [items, if_neg (Ne.symm h.1)]
    dsimp only
    rw [ih h.2, List.map_cons, List.flatMap_cons]

/-- Without percent signs only the plus signs change. -/
theorem urlDecode_eq_blanked (replace : List UInt8 → Text) {text : Text}
    (h : '%' ∉ text) : urlDecode replace text = text.map blank := by
  have hunits := units_plainItems replace (text.map blank) []
  rw [List.nil_append] at hunits
  change units replace [] _ = _ at hunits
  rw [urlDecode, items_of_not_mem h, hunits, fromUnits_codeUnits]

theorem map_blank_eq_self {text : Text} (h : '+' ∉ text) : text.map blank = text := by
  have hid : ∀ c ∈ text, blank c = id c := fun c hc => by
    have hplus : c ≠ '+' := fun heq => h (heq ▸ hc)
    rw [blank, if_neg hplus, id]
  rw [List.map_congr_left hid, List.map_id]

theorem plainItems_ascii {c : Char} (h : c.toNat < 128) :
    plainItems c = [.inl (UInt8.ofNat c.toNat)] := if_pos h

theorem items_of_encodes {encoded text : Text} (h : Encodes encoded text) :
    items 0 encoded = (text.map fun c => UInt8.ofNat c.toNat).map .inl := by
  induction h with
  | nil => rfl
  | @literal c encoded text hpercent hplus hascii _ ih =>
    rw [items, if_neg hpercent]
    dsimp only
    rw [blank, if_neg hplus, plainItems_ascii hascii, ih]
    rfl
  | plus _ ih =>
    rw [items, if_neg (by decide)]
    dsimp only
    rw [ih]
    rfl
  | @percent c a b encoded text hascii ha hb _ ih =>
    have hnot : a ≠ 'u' := by
      intro heq
      rw [heq] at ha
      cases ha
    have hescape : escape (a :: b :: encoded) = some (.inl (UInt8.ofNat c.toNat), 2) := by
      rw [escape.eq_def]
      dsimp only
      rw [if_neg hnot, ha, hb]
      dsimp only
      rw [show c.toNat / 16 * 16 + c.toNat % 16 = c.toNat by omega]
    rw [items, if_pos rfl, hescape]
    dsimp only
    rw [items, items, ih]
    rfl

/-- ASCII without percent and plus signs. -/
def Unescaped (text : Text) : Prop := ∀ c ∈ text, c ≠ '%' ∧ c ≠ '+' ∧ c.toNat < 128

instance (text : Text) : Decidable (Unescaped text) := List.decidableBAll _ text

theorem Unescaped.encodes {text : Text} (h : Unescaped text) : Encodes text text := by
  induction text with
  | nil => exact Encodes.nil
  | cons c text ih =>
    rw [Unescaped, List.forall_mem_cons] at h
    exact Encodes.literal h.1.1 h.1.2.1 h.1.2.2 (ih h.2)

theorem ascii_of_encodes {encoded text : Text} (h : Encodes encoded text) :
    ∀ c ∈ text, c.toNat < 128 := by
  induction h with
  | nil => simp
  | literal _ _ hascii _ ih => exact List.forall_mem_cons.2 ⟨hascii, ih⟩
  | plus _ ih => exact List.forall_mem_cons.2 ⟨by decide, ih⟩
  | percent hascii _ _ _ ih => exact List.forall_mem_cons.2 ⟨hascii, ih⟩

/-- What an encoding is made of. -/
theorem mem_of_encodes {encoded text : Text} (h : Encodes encoded text) :
    ∀ c ∈ encoded, c ∈ text ∨ c = '+' ∨ c = '%' ∨ (hexDigit c).isSome := by
  induction h with
  | nil => simp
  | literal _ _ _ _ ih =>
    refine List.forall_mem_cons.2 ⟨Or.inl List.mem_cons_self, fun c hc => ?_⟩
    exact (ih c hc).imp_left (List.mem_cons_of_mem _)
  | plus _ ih =>
    refine List.forall_mem_cons.2 ⟨Or.inr (Or.inl rfl), fun c hc => ?_⟩
    exact (ih c hc).imp_left (List.mem_cons_of_mem _)
  | percent _ ha hb _ ih =>
    simp only [List.forall_mem_cons]
    refine ⟨by simp, by simp [ha], by simp [hb], fun c hc => ?_⟩
    exact (ih c hc).imp_left (List.mem_cons_of_mem _)

theorem getBytes_ascii {text : Text} (h : ∀ c ∈ text, c.toNat < 128) :
    getBytes text = text.map fun c => UInt8.ofNat c.toNat := by
  rw [getBytes, List.map_eq_flatMap]
  refine List.flatMap_congr fun c hc => ?_
  have hle : c.toNat ≤ 127 := Nat.le_of_lt_succ (h c hc)
  simp [String.utf8EncodeChar, hle]

/-- An ASCII text is read back from each of its encodings. -/
theorem urlDecode_of_encodes (replace : List UInt8 → Text) {encoded text : Text}
    (h : Encodes encoded text) : urlDecode replace encoded = text := by
  rw [urlDecode, items_of_encodes h, units_bytes, List.nil_append,
    ← getBytes_ascii (ascii_of_encodes h), getString_getBytes, fromUnits_codeUnits]

end UrlDecode
