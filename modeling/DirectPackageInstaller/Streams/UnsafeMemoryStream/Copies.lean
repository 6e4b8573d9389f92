import DirectPackageInstaller.Lib.ByteCopy
import DirectPackageInstaller.Lib.Unchecked
import DirectPackageInstaller.Streams.UnsafeMemoryStream

/-!
# Reading and writing a block of memory

`Read` and `Write` clamp the count twice and copy the bytes through two
pointers: up to three of them one by one, the others four at a time.  The first
clamp is computed in `long`, the second one in `int`, where `count + offset` can
overflow.  Then the count is not cut to the buffer, and the pointers leave it.  For a
block of almost 2^63 bytes the first one would overflow too.

* `copyRange_eq`: the two loops are a plain copy.
* `copiesPlainly_iff`: the calls that behave like one.
-/

namespace DirectPackageInstaller.UnsafeMemoryStream

open ByteCopy Seeking Unchecked

/-! ## The code -/

/-- `count` after the three tests. -/
def clamp (u : UnsafeMemoryStream) (bufferLength offset count : Int) : Int :=
  let count := if toLong (u.position + count) > u.length then
      toInt (toLong (u.length - u.position)) else count
  let count := if toInt (count + offset) > bufferLength then
      toInt (bufferLength - offset) else count
  if count < 0 then 0 else count

/-- How a call ends. -/
inductive Outcome (α : Type) where
  | returned (value : α)
  /-- `&buffer[offset]` throws. -/
  | indexOutOfRange
  /-- A pointer has left the buffer or the block; anything may happen. -/
  | outside
deriving DecidableEq, Repr

/-- The two loops of a copy. -/
def copyRange (count : Nat) (c : Pointers) : Option Pointers :=
  let assert := count % 4
  (moves 1 assert c).bind (moves 4 ((count - assert) / 4))

/-- What `Read` leaves. -/
structure ReadResult where
  readed : Nat
  stream : UnsafeMemoryStream
  buffer : List UInt8
deriving DecidableEq, Repr

/-- `Read(buffer, offset, count)`, not disposed. -/
def read (u : UnsafeMemoryStream) (buffer : List UInt8) (offset count : Nat) :
    Outcome ReadResult :=
  let count := (u.clamp buffer.length offset count).toNat
  if count = 0 then .returned { readed := 0, stream := u, buffer }
  else if offset ≥ buffer.length then .indexOutOfRange
  else if u.position < 0 then .outside
  else
    match copyRange count { source := u.memory, target := buffer,
                            sourceAt := u.position.toNat, targetAt := offset } with
    | none => .outside
    | some c =>
      .returned { readed := count % 4 + 4 * ((count - count % 4) / 4)
                  stream := u.setPosition c.sourceAt, buffer := c.target }

/-- `Write(buffer, offset, count)`, not disposed. -/
def write (u : UnsafeMemoryStream) (buffer : List UInt8) (offset count : Nat) :
    Outcome UnsafeMemoryStream :=
  let count := (u.clamp buffer.length offset count).toNat
  if count = 0 then .returned u
  else if offset ≥ buffer.length then .indexOutOfRange
  else if u.position < 0 then .outside
  else
    match copyRange count { source := buffer, target := u.memory,
                            sourceAt := offset, targetAt := u.position.toNat } with
    | none => .outside
    | some c => .returned { memory := c.target, position := c.targetAt }

/-! ## The copy -/

theorem copyRange_eq {count : Nat} {c : Pointers} (h : Fits count c) :
    copyRange count c = some (copied count c) := by
  have hcount : count % 4 + 4 * ((count - count % 4) / 4) = count := by omega
  have hcopy := moves_bytes_words (k := count % 4) (w := 4)
    (m := (count - count % 4) / 4) (c := c) (by rwa [hcount])
  rwa [hcount] at hcopy

theorem copyRange_eq_none {count : Nat} {c : Pointers} (h : ¬ Fits count c) (hc : Fits 0 c) :
    copyRange count c = none := by
  have hcount : count % 4 + 4 * ((count - count % 4) / 4) = count := by omega
  exact moves_bytes_words_eq_none (by rwa [hcount]) hc

/-! ## The clamps -/

/-- The arguments of a call.  A block has a `long` size, a buffer an `int` length. -/
structure Arguments (u : UnsafeMemoryStream) (buffer : List UInt8) (offset count : Nat) :
    Prop where
  position_nonneg : 0 ≤ u.position
  position_le : u.position ≤ u.length
  size_lt : u.length < 2 ^ 63
  buffer_lt : buffer.length < 2 ^ 31
  offset_le : offset ≤ buffer.length
  count_lt : count < 2 ^ 31

/-- The count that the block has bytes for. -/
def available (u : UnsafeMemoryStream) (count : Nat) : Nat :=
  min count (u.memory.length - u.position.toNat)

/-- `min(count, Size - Position, buffer.Length - offset)`. -/
def plainCount (u : UnsafeMemoryStream) (buffer : List UInt8) (offset count : Nat) : Nat :=
  min (u.available count) (buffer.length - offset)

/-- The count behind the first test, which does not cut it where it overflows. -/
def firstCount (u : UnsafeMemoryStream) (count : Nat) : Nat :=
  if u.position + count < 2 ^ 63 then u.available count else count

/-- The second test does not overflow, and cuts the count to the buffer; what is left is
no more than the block has. -/
def NoOverflow (u : UnsafeMemoryStream) (buffer : List UInt8) (offset count : Nat) : Prop :=
  u.firstCount count + offset < 2 ^ 31 ∧
    min (u.firstCount count) (buffer.length - offset) ≤ u.available count

instance (u : UnsafeMemoryStream) (buffer : List UInt8) (offset count : Nat) :
    Decidable (u.NoOverflow buffer offset count) :=
  inferInstanceAs (Decidable (_ ∧ _))

section Clamp

variable {u : UnsafeMemoryStream} {buffer : List UInt8} {offset count : Nat}

theorem firstCount_bounds (u : UnsafeMemoryStream) (count : Nat) :
    u.available count ≤ u.firstCount count ∧ u.firstCount count ≤ count := by
  have havailable : u.available count ≤ count := Nat.min_le_left _ _
  unfold firstCount
  split
  · exact ⟨le_rfl, havailable⟩
  · exact ⟨havailable, le_rfl⟩

/-- The first test cuts the count to the block, unless it overflows. -/
theorem clamp_first (h : Arguments u buffer offset count) :
    (if toLong (u.position + count) > u.length then toInt (toLong (u.length - u.position))
      else (count : Int)) = u.firstCount count := by
  obtain ⟨hnonneg, hle, hsize, -, -, hcount⟩ := h
  have hlength : u.length = u.memory.length := rfl
  unfold firstCount available
  by_cases hroom : u.position + count < 2 ^ 63
  · rw [if_pos hroom, toLong_eq (by omega) hroom, toLong_eq (by omega) (by omega)]
    split
    · rw [toInt_eq (by omega) (by omega)]
      omega
    · omega
  · rw [if_neg hroom, toLong_overflow (by omega) (by omega), if_neg (by omega)]

/-- The second test cuts it to the buffer, unless it overflows. -/
theorem clamp_eq (h : Arguments u buffer offset count) :
    (u.clamp buffer.length offset count).toNat =
      if u.firstCount count + offset < 2 ^ 31 then
        min (u.firstCount count) (buffer.length - offset)
      else u.firstCount count := by
  have hbuffer := h.buffer_lt
  have hoffset := h.offset_le
  have hcount := h.count_lt
  have hfirst := (firstCount_bounds u count).2
  unfold clamp
  rw [clamp_first h]
  dsimp only
  by_cases hroom : u.firstCount count + offset < 2 ^ 31
  · rw [if_pos hroom, toInt_eq (by omega) (by omega), toInt_eq (by omega) (by omega)]
    split <;> split <;> omega
  · rw [if_neg hroom, toInt_overflow (by omega) (by omega), if_neg (by omega),
      if_neg (by omega)]
    omega

theorem clamp_of_noOverflow (h : Arguments u buffer offset count)
    (hroom : u.NoOverflow buffer offset count) :
    (u.clamp buffer.length offset count).toNat = u.plainCount buffer offset count := by
  obtain ⟨hsum, hcut⟩ := hroom
  have hfirst := (firstCount_bounds u count).1
  rw [clamp_eq h, if_pos hsum]
  unfold plainCount
  omega

/-- Otherwise the count that is left is too large for the buffer, or for the block. -/
theorem clamp_of_overflow (h : Arguments u buffer offset count)
    (hover : ¬u.NoOverflow buffer offset count) :
    0 < (u.clamp buffer.length offset count).toNat ∧
      ¬((u.clamp buffer.length offset count).toNat ≤ u.available count ∧
        (u.clamp buffer.length offset count).toNat ≤ buffer.length - offset) := by
  have hbuffer := h.buffer_lt
  have hoffset := h.offset_le
  rw [NoOverflow, not_and, not_le] at hover
  rw [clamp_eq h]
  by_cases hsum : u.firstCount count + offset < 2 ^ 31
  · have hcut := hover hsum
    rw [if_pos hsum]
    omega
  · rw [if_neg hsum]
    omega

end Clamp

/-! ## What the calls do -/

section Calls

variable {u : UnsafeMemoryStream} {buffer : List UInt8} {offset count : Nat}

theorem position_toNat (h : Arguments u buffer offset count) :
    ((u.position.toNat : Nat) : Int) = u.position ∧ u.position.toNat ≤ u.memory.length := by
  have hnonneg := h.position_nonneg
  have hle := h.position_le
  unfold length at hle
  omega

/-- The pointers of `Read` and of `Write` have room for this many bytes. -/
theorem fits_read_iff (h : Arguments u buffer offset count) {n : Nat} (hn : n ≤ count) :
    Fits n ⟨u.memory, buffer, u.position.toNat, offset⟩ ↔
      n ≤ u.available count ∧ n ≤ buffer.length - offset := by
  have hoffset := h.offset_le
  have hposition := (position_toNat h).2
  unfold Fits available
  dsimp only
  omega

theorem fits_write_iff (h : Arguments u buffer offset count) {n : Nat} (hn : n ≤ count) :
    Fits n ⟨buffer, u.memory, offset, u.position.toNat⟩ ↔
      n ≤ u.available count ∧ n ≤ buffer.length - offset := by
  have hoffset := h.offset_le
  have hposition := (position_toNat h).2
  unfold Fits available
  dsimp only
  omega

theorem plainCount_le : u.plainCount buffer offset count ≤ u.available count ∧
    u.plainCount buffer offset count ≤ buffer.length - offset :=
  ⟨Nat.min_le_left _ _, Nat.min_le_right _ _⟩

theorem plainCount_le_count : u.plainCount buffer offset count ≤ count :=
  plainCount_le.1.trans (Nat.min_le_left _ _)

/-- `Read` as a plain copy. -/
def plainRead (u : UnsafeMemoryStream) (buffer : List UInt8) (offset n : Nat) : ReadResult where
  readed := n
  stream := u.setPosition (u.position + n)
  buffer := splice buffer offset ((u.memory.drop u.position.toNat).take n)

/-- `Write` as a plain copy. -/
def plainWrite (u : UnsafeMemoryStream) (buffer : List UInt8) (offset n : Nat) :
    UnsafeMemoryStream where
  memory := splice u.memory u.position.toNat ((buffer.drop offset).take n)
  position := u.position + n

theorem plainRead_zero (u : UnsafeMemoryStream) (buffer : List UInt8) (offset : Nat) :
    plainRead u buffer offset 0 = { readed := 0, stream := u, buffer } := by
  simp [plainRead, setPosition]

theorem plainWrite_zero (u : UnsafeMemoryStream) (buffer : List UInt8) (offset : Nat) :
    plainWrite u buffer offset 0 = u := by
  simp [plainWrite]

theorem read_eq (h : Arguments u buffer offset count)
    (hroom : u.NoOverflow buffer offset count) :
    u.read buffer offset count =
      .returned (plainRead u buffer offset (u.plainCount buffer offset count)) := by
  have hclamp := clamp_of_noOverflow h hroom
  unfold read
  rw [hclamp]
  dsimp only
  have hbuffer := (@plainCount_le u buffer offset count).2
  split
  · rename_i hzero
    rw [hzero, plainRead_zero]
  · have hfits := (fits_read_iff h plainCount_le_count).2 plainCount_le
    have hposition := (position_toNat h).1
    have hnonneg := h.position_nonneg
    rw [if_neg (by omega), if_neg (by omega), copyRange_eq hfits]
    have hcount : u.plainCount buffer offset count % 4 +
        4 * ((u.plainCount buffer offset count - u.plainCount buffer offset count % 4) / 4) =
          u.plainCount buffer offset count := by omega
    have hmoved : ((u.position.toNat + u.plainCount buffer offset count : Nat) : Int) =
        u.position + u.plainCount buffer offset count := by omega
    simp only [copied, hcount, hmoved, plainRead]

theorem write_eq (h : Arguments u buffer offset count)
    (hroom : u.NoOverflow buffer offset count) :
    u.write buffer offset count =
      .returned (plainWrite u buffer offset (u.plainCount buffer offset count)) := by
  have hclamp := clamp_of_noOverflow h hroom
  unfold write
  rw [hclamp]
  dsimp only
  have hbuffer := (@plainCount_le u buffer offset count).2
  split
  · rename_i hzero
    rw [hzero, plainWrite_zero]
  · have hfits := (fits_write_iff h plainCount_le_count).2 plainCount_le
    have hposition := (position_toNat h).1
    have hnonneg := h.position_nonneg
    rw [if_neg (by omega), if_neg (by omega), copyRange_eq hfits]
    have hmoved : ((u.position.toNat + u.plainCount buffer offset count : Nat) : Int) =
        u.position + u.plainCount buffer offset count := by omega
    simp only [copied, hmoved, plainWrite]

/-- After an overflow the call does not return. -/
theorem read_ne_of_overflow (h : Arguments u buffer offset count)
    (hover : ¬u.NoOverflow buffer offset count) (result : ReadResult) :
    u.read buffer offset count ≠ .returned result := by
  obtain ⟨hpos, hlarge⟩ := clamp_of_overflow h hover
  have hnonneg := h.position_nonneg
  have hle : (u.clamp buffer.length offset count).toNat ≤ count := by
    have hfirst := (firstCount_bounds u count).2
    rw [clamp_eq h]
    split <;> omega
  unfold read
  dsimp only
  rw [if_neg (by omega)]
  split
  · exact fun heq => nomatch heq
  · have hempty : Fits 0 ⟨u.memory, buffer, u.position.toNat, offset⟩ :=
      (fits_read_iff h (Nat.zero_le _)).2 ⟨Nat.zero_le _, Nat.zero_le _⟩
    have hfits := mt (fits_read_iff h hle).1 hlarge
    rw [if_neg (by omega), copyRange_eq_none hfits hempty]
    exact fun heq => nomatch heq

/-- The range that `Write` stores fits. -/
theorem length_written (h : Arguments u buffer offset count) :
    ((buffer.drop offset).take (u.plainCount buffer offset count)).length =
        u.plainCount buffer offset count ∧
      u.position.toNat + u.plainCount buffer offset count ≤ u.memory.length := by
  have hposition := (position_toNat h).2
  rw [List.length_take, List.length_drop]
  unfold plainCount available
  omega

/-- The stream after `Write` and a `Seek` back. -/
theorem arguments_back (h : Arguments u buffer offset count) {buffer' : List UInt8}
    {offset' : Nat} (hbuffer : buffer'.length < 2 ^ 31) (hoffset : offset' ≤ buffer'.length) :
    ((u.plainWrite buffer offset (u.plainCount buffer offset count)).setPosition
        u.position).Arguments buffer' offset' count ∧
      ((u.plainWrite buffer offset (u.plainCount buffer offset count)).setPosition
        u.position).available count = u.available count := by
  obtain ⟨hwritten, hfits⟩ := length_written h
  have hlength : (u.plainWrite buffer offset (u.plainCount buffer offset count)).memory.length =
      u.memory.length := length_splice (by rw [hwritten]; exact hfits)
  refine ⟨⟨h.position_nonneg, ?_, ?_, hbuffer, hoffset, h.count_lt⟩, ?_⟩
  · have hle := h.position_le
    unfold length at hle ⊢
    show u.position ≤ _
    rw [setPosition, hlength]
    exact hle
  · have hsize := h.size_lt
    unfold length at hsize ⊢
    rw [setPosition, hlength]
    exact hsize
  · unfold available
    rw [setPosition, hlength]

end Calls

/-- `Read` and `Write` are plain copies of `plainCount` bytes, and what was written
is read back. -/
structure CopiesPlainly (u : UnsafeMemoryStream) (buffer : List UInt8) (offset count : Nat) :
    Prop where
  read : u.read buffer offset count =
    .returned (plainRead u buffer offset (u.plainCount buffer offset count))
  write : u.write buffer offset count =
    .returned (plainWrite u buffer offset (u.plainCount buffer offset count))
  readBack : ∀ written, u.write buffer offset count = .returned written →
    written.seek u.position .begin = .returned u.position (written.setPosition u.position) ∧
      ∀ (buffer' : List UInt8) (offset' : Nat), buffer'.length < 2 ^ 31 →
        offset' ≤ buffer'.length → u.NoOverflow buffer' offset' count →
        ∃ result, (written.setPosition u.position).read buffer' offset' count =
            .returned result ∧
          (result.buffer.drop offset').take
              (min result.readed (u.plainCount buffer offset count)) =
            (buffer.drop offset).take
              (min result.readed (u.plainCount buffer offset count))

theorem readBack_of_noOverflow {u : UnsafeMemoryStream} {buffer : List UInt8}
    {offset count : Nat} (h : Arguments u buffer offset count) {buffer' : List UInt8}
    {offset' : Nat} (hbuffer : buffer'.length < 2 ^ 31) (hoffset : offset' ≤ buffer'.length)
    (hroom : u.NoOverflow buffer' offset' count) :
    ∃ result, ((u.plainWrite buffer offset (u.plainCount buffer offset count)).setPosition
        u.position).read buffer' offset' count = .returned result ∧
      (result.buffer.drop offset').take
          (min result.readed (u.plainCount buffer offset count)) =
        (buffer.drop offset).take
          (min result.readed (u.plainCount buffer offset count)) := by
  obtain ⟨hback, havailable⟩ := arguments_back h hbuffer hoffset
  obtain ⟨hwritten, hfits⟩ := length_written h
  generalize hn : u.plainCount buffer offset count = n at *
  generalize hv : (u.plainWrite buffer offset n).setPosition u.position = v at *
  have hposition : v.position = u.position := by
    rw [← hv]
    rfl
  have hread := read_eq hback (by
    unfold NoOverflow firstCount at hroom ⊢
    rw [havailable, hposition]
    exact hroom)
  refine ⟨_, hread, ?_⟩
  -- the bytes that come back are bytes of the block
  have hout : ((splice buffer' offset' ((v.memory.drop v.position.toNat).take
      (v.plainCount buffer' offset' count))).drop offset').take
        (v.plainCount buffer' offset' count) =
      (v.memory.drop v.position.toNat).take (v.plainCount buffer' offset' count) := by
    have hrange : ((v.memory.drop v.position.toNat).take
        (v.plainCount buffer' offset' count)).length = v.plainCount buffer' offset' count := by
      have hle := (position_toNat hback).2
      rw [List.length_take, List.length_drop]
      unfold plainCount available
      omega
    have hroom : offset' + v.plainCount buffer' offset' count ≤ buffer'.length := by
      unfold plainCount
      omega
    have hfound := @take_drop_splice UInt8 buffer' ((v.memory.drop v.position.toNat).take
      (v.plainCount buffer' offset' count)) offset' (by rw [hrange]; exact hroom)
    rwa [hrange] at hfound
  -- and the block holds the bytes that were stored
  have hin : (v.memory.drop v.position.toNat).take n = (buffer.drop offset).take n := by
    have hfound := @take_drop_splice UInt8 u.memory ((buffer.drop offset).take n)
      u.position.toNat (by rw [hwritten]; exact hfits)
    rw [hwritten] at hfound
    rw [← hv]
    exact hfound
  have hleft := congrArg (List.take (min (v.plainCount buffer' offset' count) n)) hout
  have hright := congrArg (List.take (min (v.plainCount buffer' offset' count) n)) hin
  rw [List.take_take, List.take_take, Nat.min_eq_left (Nat.min_le_left _ _)] at hleft
  rw [List.take_take, List.take_take, Nat.min_eq_left (Nat.min_le_right _ _)] at hright
  exact hleft.trans hright

/-- The calls that behave like a plain copy are those of which the tests do not overflow,
but for a buffer that is shorter than what is left of the block. -/
theorem copiesPlainly_iff (u : UnsafeMemoryStream) (buffer : List UInt8)
    (offset count : Nat) (h : Arguments u buffer offset count) :
    CopiesPlainly u buffer offset count ↔ u.NoOverflow buffer offset count := by
  constructor
  · intro hplain
    by_contra hover
    exact read_ne_of_overflow h hover _ hplain.read
  · intro hroom
    refine ⟨read_eq h hroom, write_eq h hroom, fun written hwritten => ?_⟩
    rw [write_eq h hroom, Outcome.returned.injEq] at hwritten
    subst hwritten
    refine ⟨?_, fun buffer' offset' hbuffer hoffset hback =>
      readBack_of_noOverflow h hbuffer hoffset hback⟩
    have hle := (arguments_back h h.buffer_lt h.offset_le).1.position_le
    have hnonneg := h.position_nonneg
    have hinside : u.position ≤
        (u.plainWrite buffer offset (u.plainCount buffer offset count)).length := hle
    unfold seek
    rw [if_neg (by omega)]

/-- Five bytes are copied, one alone and four together. -/
theorem copiesPlainly_fiveBytes :
    CopiesPlainly ⟨[1, 2, 3, 4, 5, 6, 7], 1⟩ [0, 0, 0, 0, 0, 0] 1 9 :=
  (copiesPlainly_iff ⟨[1, 2, 3, 4, 5, 6, 7], 1⟩ [0, 0, 0, 0, 0, 0] 1 9
    ⟨by decide, by decide, by decide, by decide, by decide, by decide⟩).2 (by decide)

example : (⟨[1, 2, 3, 4, 5, 6, 7], 1⟩ : UnsafeMemoryStream).read [0, 0, 0, 0, 0, 0] 1 9 =
    .returned ⟨5, ⟨[1, 2, 3, 4, 5, 6, 7], 6⟩, [0, 2, 3, 4, 5, 6]⟩ := by decide +kernel

/-- `count + offset` overflows for a block of 2^31 - 1 bytes. -/
theorem not_copied_of_length {block : List UInt8} (h : block.length = 2 ^ 31 - 1) :
    Arguments ⟨block, 0⟩ [0] 1 (2 ^ 31 - 1) ∧
      ¬ CopiesPlainly ⟨block, 0⟩ [0] 1 (2 ^ 31 - 1) := by
  have hlength : length ⟨block, 0⟩ = 2 ^ 31 - 1 := by
    show (block.length : Int) = _
    rw [h]
    decide
  have harguments : Arguments ⟨block, 0⟩ [0] 1 (2 ^ 31 - 1) := by
    refine ⟨Int.le_refl 0, ?_, ?_, by decide, by decide, by decide⟩
    · rw [hlength]
      show (0 : Int) ≤ 2 ^ 31 - 1
      decide
    · rw [hlength]
      decide
  have hover : ¬NoOverflow ⟨block, 0⟩ [0] 1 (2 ^ 31 - 1) := by
    rintro ⟨hsum, -⟩
    have hsum : min (2 ^ 31 - 1) (block.length - 0) + 1 < 2 ^ 31 := hsum
    rw [h] at hsum
    exact absurd hsum (by decide)
  exact ⟨harguments, fun hplain => read_ne_of_overflow harguments hover _ hplain.read⟩

/-- A `Read` of 2^31 - 1 bytes at the end of a buffer of one byte. -/
theorem largeBlock_not_copied :
    Arguments ⟨List.replicate (2 ^ 31 - 1) 0, 0⟩ [0] 1 (2 ^ 31 - 1) ∧
      ¬ CopiesPlainly ⟨List.replicate (2 ^ 31 - 1) 0, 0⟩ [0] 1 (2 ^ 31 - 1) :=
  not_copied_of_length List.length_replicate

end DirectPackageInstaller.UnsafeMemoryStream
