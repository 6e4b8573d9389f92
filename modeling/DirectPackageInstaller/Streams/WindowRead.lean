import DirectPackageInstaller.Lib.ByteCopy
import DirectPackageInstaller.Lib.Cursor
import DirectPackageInstaller.Lib.Unchecked
import DirectPackageInstaller.Streams.VirtualStream

/-!
# Reading a window

`VirtualStream.Read` waits for its base to grow, moves the base to the window's
position, cuts the count to the window and to the buffer, and then reads once,
or, with `ForceAmount`, until the count is used up.  The base is a stream of
fixed content, so a wait for growth is a wait for ever.

* `readLoop_spec` is the loop: it fills the asked range of the buffer with the
  bytes at the base's position.
* `readCount_eq` is the three cuts of the count, as long as no sum leaves the
  32 bits of an `int`.
* `read_window_iff` says which reads deliver bytes of the window as they
  should.  `ForceAmount` at the end of the base never returns, and a sum of
  count and offset that overflows is not cut to the buffer.
-/

namespace DirectPackageInstaller

namespace VirtualStream

open ByteCopy (splice length_splice splice_splice)
open Unchecked

/-! ## The code -/

/-- `Base.Read(buffer, offset, count)`: the number of bytes, the buffer and the
base after it.  `none` is the exception for a range that is not in the
buffer. -/
def baseRead (base : Cursor UInt8) (buffer : List UInt8) (offset count : Int) (wish : Nat) :
    Option (Nat × List UInt8 × Cursor UInt8) :=
  if offset < 0 ∨ count < 0 ∨ (buffer.length : Int) < offset + count then none
  else
    let chunk := base.read count.toNat wish
    some (chunk.1.length, splice buffer offset.toNat chunk.1, chunk.2)

/-- How a read ends. -/
inductive Transfer where
  /-- It waits for bytes that do not come. -/
  | blocked
  | threw
  | delivered (readed : Int) (buffer : List UInt8) (base : Cursor UInt8)
  deriving DecidableEq, Repr

/-- The loop of `Read`, after `calls` reads of the base, which delivered
`readed` bytes. -/
def readLoop (wish : Nat → Nat) (forceAmount : Bool) (calls : Nat) (base : Cursor UInt8)
    (buffer : List UInt8) (offset readed count : Int) : Transfer :=
  match baseRead base buffer (offset + readed) count (wish calls) with
  | none => .threw
  | some (lReaded, buffer, base) =>
    if count - lReaded > 0 ∧ forceAmount = true then
      -- a base that is at its end delivers nothing in the next round either
      if lReaded = 0 then .blocked
      else
        readLoop wish forceAmount (calls + 1) base buffer offset (readed + lReaded)
          (count - lReaded)
    else .delivered (readed + lReaded) buffer base
termination_by count.toNat
decreasing_by omega

/-- The count that is left of `count`.  `Pos + count` is a sum of 64 bits, the
others are of 32.  It is taken as exact, which it is for every window that ends
below `2 ^ 63 - 2 ^ 31`. -/
def readCount (v : VirtualStream) (bufferLength offset count : Int) : Int :=
  let count := if v.pos + count > v.len then toInt (v.len - v.pos) else count
  let count :=
    if toInt (count + offset) ≥ bufferLength then toInt (bufferLength - offset) else count
  if count < 0 then 0 else count

/-- `Read(buffer, offset, count)`, over a base of fixed content. -/
def read (v : VirtualStream) (forceAmount : Bool) (base : Cursor UInt8) (wish : Nat → Nat)
    (buffer : List UInt8) (offset count : Int) : Transfer × VirtualStream :=
  let readPos := v.filePos + v.pos
  if forceAmount = true ∧ readPos ≥ base.content.length then (.blocked, v)
  else
    let base := { base with position := readPos.toNat }
    let count := v.readCount buffer.length offset count
    match readLoop wish forceAmount 0 base buffer offset 0 count with
    | .delivered readed buffer base => (.delivered readed buffer base, v.advance readed)
    | failed => (failed, v)

/-! ## The loop -/

/-- The loop fills the range that it is asked to fill, the whole of it with
`ForceAmount` and some of it without. -/
theorem readLoop_spec (wish : Nat → Nat) (forceAmount : Bool) (calls : Nat)
    (base : Cursor UInt8) (buffer : List UInt8) (offset readed : Int) (start count : Nat)
    (hstart : offset + readed = start) (hroom : start + count ≤ buffer.length)
    (hend : base.position + count ≤ base.content.length) :
    ∃ n : Nat, readLoop wish forceAmount calls base buffer offset readed count =
        .delivered (readed + n) (splice buffer start (window base.content base.position n))
          (base.advance n) ∧
      n ≤ count ∧ (forceAmount = true → n = count) ∧ (1 ≤ count → 1 ≤ n) := by
  have hreads := base.reads_read count (wish calls)
  have hbase : baseRead base buffer (offset + readed) count (wish calls) =
      some ((base.read count (wish calls)).1.length,
        splice buffer start (base.read count (wish calls)).1,
        (base.read count (wish calls)).2) := by
    have hvalid : ¬ ((start : Int) < 0 ∨ (count : Int) < 0 ∨
        (buffer.length : Int) < start + count) := by omega
    rw [baseRead, hstart, if_neg hvalid]
    rfl
  rw [readLoop, hbase]
  dsimp only
  generalize base.read count (wish calls) = chunk at hreads ⊢
  have hlen := hreads.length_le
  have hnext := hreads.next
  have hprogress : 1 ≤ count → 1 ≤ chunk.1.length := by
    intro hcount
    by_contra hnone
    have hnil : chunk.1 = [] := List.length_eq_zero_iff.1 (by omega)
    have := hreads.progress hnil
    omega
  by_cases hmore : (count : Int) - chunk.1.length > 0 ∧ forceAmount = true
  · have hsome : chunk.1.length ≠ 0 := by
      have := hprogress (by omega)
      omega
    have hcontent : chunk.2.content = base.content := by rw [hnext]; rfl
    have hposition : chunk.2.position = base.position + chunk.1.length := by
      rw [hnext]
      rfl
    rw [if_pos hmore, if_neg hsome, ← Nat.cast_sub hlen]
    obtain ⟨n, hloop, hn, hall, -⟩ := readLoop_spec wish forceAmount (calls + 1) chunk.2
      (splice buffer start chunk.1) offset (readed + chunk.1.length)
      (start + chunk.1.length) (count - chunk.1.length) (by omega)
      (by rw [length_splice (by omega)]; omega) (by rw [hcontent, hposition]; omega)
    have hjoin : chunk.1 ++ window base.content (base.position + chunk.1.length) n =
        window base.content base.position (chunk.1.length + n) := by
      rw [← window_append, ← hreads.elems_eq]
    refine ⟨chunk.1.length + n, ?_, by omega, fun hforce => ?_, fun _ => by omega⟩
    · rw [hloop, hcontent, hposition, splice_splice (by omega), hjoin, hnext,
        Cursor.advance_advance, Nat.cast_add, Int.add_assoc]
    · have := hall hforce
      omega
  · rw [if_neg hmore, hnext]
    refine ⟨chunk.1.length, by rw [← hreads.elems_eq], hlen, fun hforce => ?_, hprogress⟩
    by_contra hless
    exact hmore ⟨by omega, hforce⟩
termination_by count
decreasing_by omega

/-! ## The count -/

/-- The bytes that a read may deliver. -/
def wanted (v : VirtualStream) (bufferLength offset count : Int) : Int :=
  min count (min (v.len - v.pos) (bufferLength - offset))

/-- The cut to the window never overflows. -/
theorem windowCut {v : VirtualStream} {count : Int} (hlen : v.pos ≤ v.len)
    (hint : count < 2 ^ 31) :
    (if v.pos + count > v.len then toInt (v.len - v.pos) else count) =
      min count (v.len - v.pos) := by
  split
  · rw [toInt_eq (by omega) (by omega)]
    omega
  · omega

/-- The cuts leave the room in the window and in the buffer, if no sum
overflows. -/
theorem readCount_eq {v : VirtualStream} {bufferLength offset count : Int}
    (hlen : v.pos ≤ v.len) (hoffset : 0 ≤ offset)
    (hroom : offset ≤ bufferLength) (hbuffer : bufferLength < 2 ^ 31) (hcount : 0 ≤ count)
    (hint : count < 2 ^ 31) (hfits : min count (v.len - v.pos) + offset < 2 ^ 31) :
    v.readCount bufferLength offset count = v.wanted bufferLength offset count := by
  unfold readCount wanted
  rw [windowCut hlen hint]
  dsimp only
  rw [toInt_eq (by omega) hfits, toInt_eq (by omega) (by omega)]
  split_ifs <;> omega

/-- A sum that overflows is negative, and then the count is not cut to the
buffer. -/
theorem readCount_of_overflow {v : VirtualStream} {bufferLength offset count : Int}
    (hlen : v.pos ≤ v.len) (hroom : offset ≤ bufferLength)
    (hbuffer : bufferLength < 2 ^ 31) (hcount : 0 ≤ count) (hint : count < 2 ^ 31)
    (hlong : 0 ≤ bufferLength) (hover : 2 ^ 31 ≤ min count (v.len - v.pos) + offset) :
    v.readCount bufferLength offset count = min count (v.len - v.pos) := by
  have hsum := toInt_overflow hover (by omega)
  unfold readCount
  rw [windowCut hlen hint]
  dsimp only
  rw [if_neg (by omega), if_neg (by omega)]

/-! ## Reads of the window -/

/-- The window lies in a base with the content `b`, and the position in the
window. -/
structure InBase (v : VirtualStream) (b : List UInt8) : Prop where
  filePos_nonneg : 0 ≤ v.filePos
  pos_nonneg : 0 ≤ v.pos
  pos_le : v.pos ≤ v.len
  end_le : v.filePos + v.len ≤ b.length

/-- A read that ends, with `n` bytes of the window in the buffer: no more than
are wanted, all of them with `ForceAmount`, and some if any are wanted. -/
def ReadsWindow (b : List UInt8) (v : VirtualStream) (forceAmount : Bool)
    (buffer : List UInt8) (offset count : Int) (result : Transfer × VirtualStream) : Prop :=
  ∃ n : Nat,
    result = (.delivered n
      (splice buffer offset.toNat (window b (v.filePos + v.pos).toNat n))
      ⟨b, (v.filePos + v.pos).toNat + n⟩, v.advance n) ∧
    n ≤ v.wanted buffer.length offset count ∧
    (forceAmount = true → n = v.wanted buffer.length offset count) ∧
    (1 ≤ v.wanted buffer.length offset count → 1 ≤ n)

/-- The inputs on which a read is right: the offset is an index, no `int` sum
overflows, and `ForceAmount` is not used at the end of the base. -/
def Readable (b : List UInt8) (v : VirtualStream) (forceAmount : Bool)
    (offset count : Int) : Prop :=
  0 ≤ offset ∧ min count (v.len - v.pos) + offset < 2 ^ 31 ∧
    ¬ (forceAmount = true ∧ v.filePos + v.pos = b.length)

instance (b : List UInt8) (v : VirtualStream) (forceAmount : Bool) (offset count : Int) :
    Decidable (Readable b v forceAmount offset count) :=
  inferInstanceAs (Decidable (_ ∧ _ ∧ ¬ _))

theorem not_readsWindow_blocked (b : List UInt8) (v w : VirtualStream) (forceAmount : Bool)
    (buffer : List UInt8) (offset count : Int) :
    ¬ ReadsWindow b v forceAmount buffer offset count (.blocked, w) := by
  rintro ⟨n, h, -⟩
  cases h

theorem not_readsWindow_threw (b : List UInt8) (v w : VirtualStream) (forceAmount : Bool)
    (buffer : List UInt8) (offset count : Int) :
    ¬ ReadsWindow b v forceAmount buffer offset count (.threw, w) := by
  rintro ⟨n, h, -⟩
  cases h

/-- The base refuses a range outside the buffer. -/
theorem readLoop_threw {wish : Nat → Nat} {forceAmount : Bool} {calls : Nat}
    {base : Cursor UInt8} {buffer : List UInt8} {offset readed count : Int}
    (h : offset + readed < 0 ∨ count < 0 ∨ (buffer.length : Int) < offset + readed + count) :
    readLoop wish forceAmount calls base buffer offset readed count = .threw := by
  rw [readLoop, baseRead, if_pos h]

/-- `ForceAmount` at the end of the base waits for ever. -/
theorem read_blocked {b : List UInt8} {v : VirtualStream} {forceAmount : Bool}
    {position : Nat} {wish : Nat → Nat} {buffer : List UInt8} {offset count : Int}
    (hforce : forceAmount = true) (hend : v.filePos + v.pos = b.length) :
    v.read forceAmount ⟨b, position⟩ wish buffer offset count = (.blocked, v) := by
  unfold read
  dsimp only
  rw [if_pos ⟨hforce, by omega⟩]

/-- Elsewhere the loop runs, from the window's position on. -/
theorem read_eq {b : List UInt8} {v : VirtualStream} {forceAmount : Bool} {position : Nat}
    {wish : Nat → Nat} {buffer : List UInt8} {offset count : Int} (h : v.InBase b)
    (hwait : ¬ (forceAmount = true ∧ v.filePos + v.pos = b.length)) :
    v.read forceAmount ⟨b, position⟩ wish buffer offset count =
      match readLoop wish forceAmount 0 ⟨b, (v.filePos + v.pos).toNat⟩ buffer offset 0
        (v.readCount buffer.length offset count) with
      | .delivered readed buffer base => (.delivered readed buffer base, v.advance readed)
      | failed => (failed, v) := by
  have hgo : ¬ (forceAmount = true ∧ v.filePos + v.pos ≥ b.length) := by
    intro hback
    have := h.pos_le
    have := h.end_le
    exact hwait ⟨hback.1, by omega⟩
  unfold read
  dsimp only
  rw [if_neg hgo]

/-- A read with inputs that it can handle. -/
theorem readsWindow_of_readable {b : List UInt8} {v : VirtualStream} {forceAmount : Bool}
    {position : Nat} {wish : Nat → Nat} {buffer : List UInt8} {offset count : Int}
    (h : v.InBase b) (hbuffer : (buffer.length : Int) < 2 ^ 31)
    (hroom : offset ≤ buffer.length) (hcount : 0 ≤ count) (hint : count < 2 ^ 31)
    (hread : Readable b v forceAmount offset count) :
    ReadsWindow b v forceAmount buffer offset count
      (v.read forceAmount ⟨b, position⟩ wish buffer offset count) := by
  obtain ⟨hoffset, hfits, hwait⟩ := hread
  have hpos := h.pos_nonneg
  have hfile := h.filePos_nonneg
  have hlen := h.pos_le
  have hend := h.end_le
  obtain ⟨m, hm⟩ : ∃ m : Nat, v.wanted buffer.length offset count = m := by
    apply Int.eq_ofNat_of_zero_le
    unfold wanted
    omega
  have hleft : (m : Int) = min count (min (v.len - v.pos) (buffer.length - offset)) := by
    rw [← hm, wanted]
  obtain ⟨n, hloop, hn, hall, hsome⟩ := readLoop_spec wish forceAmount 0
    ⟨b, (v.filePos + v.pos).toNat⟩ buffer offset 0 offset.toNat m (by omega) (by omega)
    (by dsimp only; omega)
  rw [ReadsWindow, read_eq h hwait,
    readCount_eq hlen hoffset hroom hbuffer hcount hint hfits, hm, hloop, Int.zero_add]
  refine ⟨n, rfl, Int.ofNat_le.2 hn, fun hforce => ?_, fun hany => ?_⟩
  · rw [hall hforce]
  · exact hsome (by omega)

/-- The reads that deliver the window.  For every window in a base of fixed
content that reads at least a byte where it can, and every buffer, offset and
count, a read ends with the bytes of the window, as many as it should, exactly
if the offset is an index, count and offset do not overflow, and it is no
`ForceAmount` read at the end of the base. -/
theorem read_window_iff (b : List UInt8) (v : VirtualStream) (forceAmount : Bool)
    (position : Nat) (wish : Nat → Nat) (buffer : List UInt8) (offset count : Int)
    (h : v.InBase b) (hbuffer : (buffer.length : Int) < 2 ^ 31)
    (hroom : offset ≤ buffer.length) (hcount : 0 ≤ count) (hint : count < 2 ^ 31) :
    ReadsWindow b v forceAmount buffer offset count
      (v.read forceAmount ⟨b, position⟩ wish buffer offset count) ↔
    Readable b v forceAmount offset count := by
  refine ⟨fun hreads => ?_, readsWindow_of_readable h hbuffer hroom hcount hint⟩
  by_cases hwait : forceAmount = true ∧ v.filePos + v.pos = b.length
  · rw [read_blocked hwait.1 hwait.2] at hreads
    exact (not_readsWindow_blocked b v v forceAmount buffer offset count hreads).elim
  refine ⟨?_, ?_, hwait⟩
  · by_contra hoffset
    rw [read_eq h hwait, readLoop_threw (Or.inl (by omega))] at hreads
    exact not_readsWindow_threw b v v forceAmount buffer offset count hreads
  · by_contra hover
    have hcut := readCount_of_overflow h.pos_le hroom hbuffer hcount hint
      (Int.natCast_nonneg _) (by omega)
    rw [read_eq h hwait, readLoop_threw (Or.inr (Or.inr (by omega)))] at hreads
    exact not_readsWindow_threw b v v forceAmount buffer offset count hreads

/-- The last two bytes of a base of three. -/
def lastTwo : VirtualStream :=
  { filePos := 1, len := 2, pos := 0 }

theorem read_window_lastTwo :
    ReadsWindow [7, 8, 9] lastTwo true [0, 0, 0, 0] 1 5
      (lastTwo.read true ⟨[7, 8, 9], 0⟩ (fun _ => 1) [0, 0, 0, 0] 1 5) :=
  (read_window_iff [7, 8, 9] lastTwo true 0 (fun _ => 1) [0, 0, 0, 0] 1 5
    ⟨by decide, by decide, by decide, by decide⟩ (by decide) (by decide) (by decide)
    (by decide)).2 (by decide)

/-- Behind those bytes a forced read does not return, although nothing is
left to deliver. -/
theorem read_window_fails_at_end :
    (lastTwo.advance 2).InBase [7, 8, 9] ∧
    ¬ ReadsWindow [7, 8, 9] (lastTwo.advance 2) true [0] 0 1
      ((lastTwo.advance 2).read true ⟨[7, 8, 9], 0⟩ (fun _ => 1) [0] 0 1) := by
  refine ⟨⟨by decide, by decide, by decide, by decide⟩, ?_⟩
  rw [read_blocked rfl rfl]
  exact fun h => not_readsWindow_blocked _ _ _ _ _ _ _ h

end VirtualStream

end DirectPackageInstaller
