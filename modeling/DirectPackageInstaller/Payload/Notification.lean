import DirectPackageInstaller.Host.PkgInfo.Bounds
import Mathlib.Data.Nat.Digits.Lemmas

/-!
# The texts of the payload's notifications

`main.c` has no `sprintf`.  It writes an error code with `int32ToHex` into one
array of the stack and joins it to a literal with `concat` in another.  The
arrays are lists of their size and every index is checked.

* `int32ToHex_eq`: the eleven bytes that `int32ToHex` writes.
* `concat_eq`, `concat_error`: what `concat` writes, and that it leaves its
  output exactly if the two texts do not fit.
* `errorText_reads_back`: the notification ends with the code in eight digits,
  which read back as the code.
-/

namespace DirectPackageInstaller.Payload

open CArray PkgInfo PkgInfo.Arrays

/-! ## The code -/

/-- The character of one digit: `'0' + BytePart` or `'A' + (BytePart - 10)`. -/
def hexChar (bytePart : Nat) : UInt8 :=
  if bytePart < 10 then UInt8.ofNat (48 + bytePart)
  else UInt8.ofNat (65 + (bytePart - 10))

/-- `(Value >> (4 * i)) & 0x0F`.  The shift of a negative value copies its
sign. -/
def bytePart (value : BitVec 32) (i : Nat) : Nat :=
  (value.sshiftRight (4 * i) &&& 0x0F#32).toNat

/-- The loop of `int32ToHex`, with `n` digits left to write. -/
def hexLoop (value : BitVec 32) (hex : List UInt8) (x : Nat) :
    Nat → Except Fault (List UInt8)
  | 0 => .ok hex
  | i + 1 => do
    let hex ← put hex x (hexChar (bytePart value i))
    hexLoop value hex (x + 1) i

/-- `int32ToHex(Value, Hex)`. -/
def int32ToHex (value : BitVec 32) (hex : List UInt8) : Except Fault (List UInt8) := do
  let hex ← put hex 0 48
  let hex ← put hex 1 120
  let hex ← hexLoop value hex 2 8
  put hex 10 0

/-- One loop of `concat`, over what is left of the string.  The result has the
offset as well. -/
def concatLoop (output : List UInt8) (offset : Nat) :
    List UInt8 → Except Fault (List UInt8 × Nat)
  | [] => .error .index
  | c :: string =>
    if c ≠ 0 then do
      let output ← put output offset c
      concatLoop output (offset + 1) string
    else .ok (output, offset)

/-- `concat(StringA, StringB, Output)`. -/
def concat (stringA stringB output : List UInt8) : Except Fault (List UInt8) := do
  let (output, offset) ← concatLoop output 0 stringA
  let (output, offset) ← concatLoop output offset stringB
  put output offset 0

/-- The array that `main` shows for an error code behind a literal. -/
def errorText (literal : List UInt8) (rv : BitVec 32) : Except Fault (List UInt8) := do
  let errCode ← int32ToHex rv (zeroed 0x20)
  concat (literal ++ [0]) errCode (zeroed 0x200)

/-! ## Digits -/

/-- The digits of a value, the highest first. -/
def hexDigits (value : BitVec 32) : List UInt8 :=
  (List.range 8).reverse.map fun i => hexChar (value.toNat / 16 ^ i % 16)

/-- The text of a code. -/
def hexText (value : BitVec 32) : List UInt8 :=
  48 :: 120 :: hexDigits value

/-- The value of a digit. -/
def hexValue (c : UInt8) : Nat :=
  if c.toNat < 65 then c.toNat - 48 else c.toNat - 55

/-- The value of a text of digits, the highest first. -/
def readHex (digits : List UInt8) : Nat :=
  Nat.ofDigits 16 (digits.reverse.map hexValue)

theorem hexChar_ne_zero {n : Nat} (h : n < 16) : hexChar n ≠ 0 := by
  revert n
  decide

theorem hexValue_hexChar {n : Nat} (h : n < 16) : hexValue (hexChar n) = n := by
  revert n
  decide

/-- The sign never shows in a digit. -/
theorem bytePart_eq (value : BitVec 32) {i : Nat} (h : i < 8) :
    bytePart value i = value.toNat / 16 ^ i % 16 := by
  have hpow : 16 ^ i = 2 ^ (4 * i) := by
    rw [Nat.pow_mul]
  rw [bytePart, hpow, ← Nat.shiftRight_eq_div_pow, show (16 : Nat) = 2 ^ 4 from rfl]
  apply Nat.eq_of_testBit_eq
  intro j
  rw [Nat.testBit_mod_two_pow, Nat.testBit_shiftRight, BitVec.testBit_toNat,
    BitVec.testBit_toNat, BitVec.getLsbD_and, BitVec.getLsbD_sshiftRight]
  by_cases hj : j < 4
  · have hmask : (15#32).getLsbD j = true := by
      revert j
      decide
    have hin : 4 * i + j < 32 := by omega
    simp [hmask, hj, hin]
    omega
  · have hmask : (15#32).getLsbD j = false := by
      rw [BitVec.getLsbD, BitVec.toNat_ofNat]
      show Nat.testBit 15 j = false
      rw [show 15 = 2 ^ 4 - 1 from rfl, Nat.testBit_two_pow_sub_one]
      simpa using hj
    simp [hmask, hj]

/-- The digits of a number below `b ^ n`, the lowest first. -/
theorem ofDigits_range {b : Nat} (n v : Nat) :
    Nat.ofDigits b ((List.range n).map fun i => v / b ^ i % b) = v % b ^ n := by
  induction n generalizing v with
  | zero => simp [Nat.mod_one]
  | succ n ih =>
    have hshift : (List.range n).map ((fun i => v / b ^ i % b) ∘ Nat.succ) =
        (List.range n).map fun i => v / b / b ^ i % b := by
      apply List.map_congr_left
      intro i _
      show v / b ^ (i + 1) % b = _
      rw [Nat.pow_succ', Nat.div_div_eq_div_mul]
    rw [List.range_succ_eq_map, List.map_cons, List.map_map, hshift, Nat.ofDigits_cons, ih]
    simp only [Nat.pow_zero, Nat.div_one]
    rw [Nat.pow_succ', Nat.mod_mul]

theorem readHex_hexDigits (value : BitVec 32) : readHex (hexDigits value) = value.toNat := by
  have hvalues : ((List.range 8).map fun i => hexChar (value.toNat / 16 ^ i % 16)).map hexValue =
      (List.range 8).map fun i => value.toNat / 16 ^ i % 16 := by
    rw [List.map_map]
    apply List.map_congr_left
    intro i _
    exact hexValue_hexChar (Nat.mod_lt _ (by omega))
  simp only [readHex, hexDigits, List.map_reverse, List.reverse_reverse]
  rw [hvalues, ofDigits_range]
  exact Nat.mod_eq_of_lt value.isLt

theorem hexText_ne_zero (value : BitVec 32) : (0 : UInt8) ∉ hexText value := by
  simp only [hexText, hexDigits, List.mem_cons, List.mem_map]
  rintro (h | h | ⟨i, -, h⟩)
  · cases h
  · cases h
  · exact hexChar_ne_zero (Nat.mod_lt _ (by omega)) h

/-! ## The arrays -/

/-- The loop writes its digits behind what is there, by induction on the number
of digits left. -/
theorem hexLoop_eq (value : BitVec 32) {n : Nat} (hn : n ≤ 8) (front back : List UInt8)
    (hroom : n ≤ back.length) :
    hexLoop value (front ++ back) front.length n =
      .ok (front ++ ((List.range n).reverse.map fun i => hexChar (value.toNat / 16 ^ i % 16)) ++
        back.drop n) := by
  induction n generalizing front back with
  | zero => simp [hexLoop]
  | succ i ih =>
    cases back with
    | nil => simp at hroom
    | cons c back =>
      rw [hexLoop, put_at]
      show hexLoop value _ (front.length + 1) i = _
      have hfront := ih (by omega) (front ++ [hexChar (bytePart value i)]) back
        (by simp at hroom; omega)
      rw [List.length_append, List.length_singleton, List.append_assoc,
        List.singleton_append] at hfront
      rw [hfront, bytePart_eq value (by omega), List.range_succ, List.reverse_append]
      simp

/-- `int32ToHex` writes eleven bytes: the text and its terminator. -/
theorem int32ToHex_eq (value : BitVec 32) (hex : List UInt8) (hroom : 11 ≤ hex.length) :
    int32ToHex value hex = .ok (hexText value ++ 0 :: hex.drop 11) := by
  obtain ⟨a, b, rest, rfl⟩ : ∃ a b rest, hex = a :: b :: rest := by
    rcases hex with _ | ⟨a, _ | ⟨b, rest⟩⟩
    · simp at hroom
    · simp at hroom
    · exact ⟨a, b, rest, rfl⟩
  simp only [List.length_cons] at hroom
  have hdigits := hexLoop_eq value (Nat.le_refl 8) [48, 120] rest (by omega)
  obtain ⟨c, back, hback⟩ : ∃ c back, rest.drop 8 = c :: back := by
    apply List.exists_cons_of_length_pos
    rw [List.length_drop]
    omega
  have hlen : ([48, 120] ++ hexDigits value).length = 10 := by
    simp [hexDigits]
  have hlast := put_at ([48, 120] ++ hexDigits value) c 0 back
  rw [hlen] at hlast
  have htail : back = (a :: b :: rest).drop 11 := by
    have hdrop := congrArg (List.drop 1) hback
    rw [List.drop_drop] at hdrop
    simpa using hdrop.symm
  show (hexLoop value ([48, 120] ++ rest) 2 8 >>= fun hex => put hex 10 0) = _
  rw [show 2 = ([48, 120] : List UInt8).length from rfl, hdigits, hback]
  show put (([48, 120] ++ hexDigits value) ++ c :: back) 10 0 = _
  rw [hlast, htail]
  rfl

/-- A loop of `concat` over a terminated text copies the text behind what is
there, or leaves the output when it does not fit. -/
theorem concatLoop_eq (text rest front back : List UInt8) (h : 0 ∉ text) :
    concatLoop (front ++ back) front.length (text ++ 0 :: rest) =
      if text.length ≤ back.length then
        .ok (front ++ text ++ back.drop text.length, front.length + text.length)
      else .error .index := by
  induction text generalizing front back with
  | nil => simp [concatLoop]
  | cons c text ih =>
    rw [List.mem_cons, not_or] at h
    rw [List.cons_append, concatLoop, if_pos (Ne.symm h.1)]
    cases back with
    | nil =>
      rw [put, if_neg (by simp), if_neg (by simp)]
      rfl
    | cons d back =>
      rw [put_at]
      show concatLoop _ (front.length + 1) _ = _
      have hnext := ih (front ++ [c]) back h.2
      rw [List.length_append, List.length_singleton, List.append_assoc,
        List.singleton_append] at hnext
      rw [hnext, List.length_cons, List.length_cons]
      by_cases hfit : text.length ≤ back.length
      · rw [if_pos hfit, if_pos (by omega)]
        simp
        omega
      · rw [if_neg hfit, if_neg (by omega)]

/-- What `concat` writes when there is room for both texts and a terminator. -/
theorem concat_eq (a b restA restB output : List UInt8) (ha : 0 ∉ a) (hb : 0 ∉ b)
    (hroom : a.length + b.length < output.length) :
    concat (a ++ 0 :: restA) (b ++ 0 :: restB) output =
      .ok (a ++ b ++ 0 :: output.drop (a.length + b.length + 1)) := by
  have hfirst := concatLoop_eq a restA [] output ha
  rw [if_pos (by omega), List.nil_append, List.nil_append, List.length_nil,
    Nat.zero_add] at hfirst
  have hsecond := concatLoop_eq b restB a (output.drop a.length) hb
  rw [if_pos (by rw [List.length_drop]; omega), List.drop_drop] at hsecond
  obtain ⟨c, back, hback⟩ : ∃ c back, output.drop (a.length + b.length) = c :: back := by
    apply List.exists_cons_of_length_pos
    rw [List.length_drop]
    omega
  have hlast := put_at (a ++ b) c 0 back
  rw [List.length_append] at hlast
  have htail : back = output.drop (a.length + b.length + 1) := by
    have hdrop := congrArg (List.drop 1) hback
    rw [List.drop_drop] at hdrop
    exact hdrop.symm
  unfold concat
  rw [hfirst]
  show (concatLoop _ a.length _ >>= _) = _
  rw [hsecond, hback]
  show put _ _ 0 = _
  rw [hlast, htail]

/-- `concat` leaves its output when the texts and a terminator do not fit. -/
theorem concat_error (a b restA restB output : List UInt8) (ha : 0 ∉ a) (hb : 0 ∉ b)
    (hroom : output.length ≤ a.length + b.length) :
    concat (a ++ 0 :: restA) (b ++ 0 :: restB) output = .error .index := by
  have hfirst := concatLoop_eq a restA [] output ha
  rw [List.nil_append, List.nil_append, List.length_nil, Nat.zero_add] at hfirst
  unfold concat
  rw [hfirst]
  by_cases hfit : a.length ≤ output.length
  · rw [if_pos hfit]
    show (concatLoop _ a.length _ >>= _) = _
    rw [concatLoop_eq b restB a (output.drop a.length) hb]
    by_cases hfit' : b.length ≤ (output.drop a.length).length
    · rw [if_pos hfit']
      rw [List.length_drop] at hfit'
      show put _ _ 0 = _
      rw [put, if_neg]
      simp
      omega
    · rw [if_neg hfit']
      rfl
  · rw [if_neg hfit]
    rfl

/-! ## The notification -/

/-- For every code, the notification stays in its arrays exactly if the literal
leaves eleven bytes, and then it is the literal and a text that reads back as
the code. -/
theorem errorText_reads_back (literal : List UInt8) (hnul : 0 ∉ literal) (rv : BitVec 32) :
    (∀ err, errorText literal rv = .ok err →
      cString err = literal ++ hexText rv ∧ readHex ((hexText rv).drop 2) = rv.toNat) ∧
      ((∃ err, errorText literal rv = .ok err) ↔ literal.length + 10 < 0x200) := by
  have hcode := int32ToHex_eq rv (zeroed 0x20) (by decide)
  have hlen : (hexText rv).length = 10 := by
    simp [hexText, hexDigits]
  have houtput : (zeroed 0x200).length = 0x200 := List.length_replicate ..
  have herr : errorText literal rv =
      concat (literal ++ 0 :: []) (hexText rv ++ 0 :: (zeroed 0x20).drop 11) (zeroed 0x200) := by
    rw [errorText, hcode]
    rfl
  rw [herr]
  by_cases hroom : literal.length + 10 < 0x200
  · rw [concat_eq _ _ _ _ _ hnul (hexText_ne_zero rv) (by omega)]
    refine ⟨fun err h => ?_, fun _ => hroom, fun _ => ⟨_, rfl⟩⟩
    cases h
    constructor
    · rw [cString, List.takeWhile_append_of_pos, List.takeWhile_cons_of_neg (by simp),
        List.append_nil]
      intro c hc
      rcases List.mem_append.1 hc with hc | hc
      · exact decide_eq_true fun hzero => hnul (hzero ▸ hc)
      · exact decide_eq_true fun hzero => hexText_ne_zero rv (hzero ▸ hc)
    · exact readHex_hexDigits rv
  · rw [concat_error _ _ _ _ _ hnul (hexText_ne_zero rv) (by omega)]
    refine ⟨fun err h => (nomatch h), fun ⟨err, h⟩ => (nomatch h), fun h => absurd h hroom⟩

/-- The code of a full download list. -/
theorem errorText_reads_back_listFull :
    ∃ err, errorText (chars "DPI: BGFT Error ") 0x80990086#32 = .ok err ∧
      cString err = chars "DPI: BGFT Error " ++ hexText 0x80990086#32 ∧
      readHex ((hexText 0x80990086#32).drop 2) = 0x80990086 := by
  obtain ⟨hreads, hfits⟩ :=
    errorText_reads_back (chars "DPI: BGFT Error ") (by decide) 0x80990086#32
  obtain ⟨err, herr⟩ := hfits.2 (by decide)
  exact ⟨err, herr, hreads err herr⟩

end DirectPackageInstaller.Payload
