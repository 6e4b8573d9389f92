import Mathlib.Data.Nat.Digits.Lemmas

/-!
# Little-endian integers

An integer of `w` bytes, least significant byte first.  `value` is
`Nat.ofDigits` at base 256, so its arithmetic comes from there.
-/

namespace LittleEndian

/-- The `w` low bytes of `n`. -/
def bytes : (w n : ℕ) → List UInt8
  | 0, _ => []
  | w + 1, n => UInt8.ofNat n :: bytes w (n / 256)

/-- The integer that the bytes stand for. -/
def value (bs : List UInt8) : ℕ :=
  Nat.ofDigits 256 (bs.map UInt8.toNat)

@[simp] theorem length_bytes (w n : ℕ) : (bytes w n).length = w := by
  induction w generalizing n with
  | zero => rfl
  | succ w ih => rw [bytes, List.length_cons, ih]

@[simp] theorem value_nil : value [] = 0 := rfl

theorem value_cons (b : UInt8) (bs : List UInt8) :
    value (b :: bs) = b.toNat + 256 * value bs := by
  rw [value, List.map_cons, Nat.ofDigits_cons, value]

theorem value_append (bs cs : List UInt8) :
    value (bs ++ cs) = value bs + 256 ^ bs.length * value cs := by
  simp only [value, List.map_append, Nat.ofDigits_append, List.length_map]

/-- Bytes that are too many are cut off. -/
theorem value_bytes (w n : ℕ) : value (bytes w n) = n % 256 ^ w := by
  induction w generalizing n with
  | zero => rw [bytes, value_nil, pow_zero, Nat.mod_one]
  | succ w ih =>
    rw [bytes, value_cons, ih, pow_succ', Nat.mod_mul, UInt8.toNat_ofNat']

/-- The round trip of an integer that fits. -/
theorem value_bytes_of_lt {w n : ℕ} (h : n < 256 ^ w) :
    value (bytes w n) = n := by
  rw [value_bytes, Nat.mod_eq_of_lt h]

/-- The round trip of bytes. -/
theorem bytes_value (bs : List UInt8) : bytes bs.length (value bs) = bs := by
  induction bs with
  | nil => rfl
  | cons b bs ih =>
    have hb : b.toNat < 256 := b.toNat_lt
    have hrest : (b.toNat + 256 * value bs) / 256 = value bs := by omega
    have hlow : UInt8.ofNat (b.toNat + 256 * value bs) = b := by
      apply UInt8.toNat_inj.1
      rw [UInt8.toNat_ofNat']
      omega
    rw [List.length_cons, value_cons, bytes, hrest, hlow, ih]

theorem value_lt (bs : List UInt8) : value bs < 256 ^ bs.length := by
  have hdigits : ∀ d ∈ bs.map UInt8.toNat, d < 256 := by
    intro d hd
    obtain ⟨b, -, rfl⟩ := List.mem_map.1 hd
    exact b.toNat_lt
  have hlt := Nat.ofDigits_lt_base_pow_length (by omega) hdigits
  rwa [List.length_map] at hlt

/-- The most significant byte bounds the integer from below. -/
theorem le_value_concat (bs : List UInt8) (b : UInt8) :
    256 ^ bs.length * b.toNat ≤ value (bs ++ [b]) := by
  rw [value_append, value_cons, value_nil, Nat.mul_zero, Nat.add_zero]
  exact Nat.le_add_left _ _

/-- Zeros in front shift the integer. -/
theorem value_replicate_zero_append (k : ℕ) (bs : List UInt8) :
    value (List.replicate k 0 ++ bs) = 256 ^ k * value bs := by
  induction k with
  | zero => rw [List.replicate_zero, List.nil_append, pow_zero, Nat.one_mul]
  | succ k ih =>
    rw [List.replicate_succ, List.cons_append, value_cons, ih, pow_succ']
    simp only [UInt8.toNat_zero, Nat.zero_add, Nat.mul_assoc]

/-- The bytes above an integer that is small are zero. -/
theorem bytes_of_lt_pow {k n : ℕ} (w : ℕ) (h : n < 256 ^ k) :
    bytes (k + w) n = bytes k n ++ List.replicate w 0 := by
  induction k generalizing n with
  | zero =>
    have hn : n = 0 := by simpa using h
    subst hn
    rw [Nat.zero_add, bytes, List.nil_append]
    induction w with
    | zero => rfl
    | succ w ih => rw [bytes, Nat.zero_div, ih, List.replicate_succ]; rfl
  | succ k ih =>
    rw [Nat.succ_add, bytes, bytes, List.cons_append, ih]
    rw [pow_succ] at h
    omega

end LittleEndian
