import DirectPackageInstaller.Lib.Cursor
import DirectPackageInstaller.Lib.Seeking
import DirectPackageInstaller.Lib.Transition

/-!
# Seeking in a forward-only stream

`ReadSeekableStream` keeps all bytes that it has read from its input in a
buffer file.  A read behind the buffered bytes is served from the file; a read
beyond them first copies the input up to the position into the file, and then
reads the input itself.  A seek only sets the position.

Three positions have to stay in step: that of the reader, that of the input
and the length of the file.  `Inv` says how.

* `copy_spec`: the copy loop appends the bytes up to the position, however
  short the input reads.
* `read_spec`: one read, in the buffered bytes or beyond them.
* `random_access`: after any seeks and reads, a read delivers what a read of
  the input's content delivers at the same position.
-/

namespace DirectPackageInstaller

open Transition Seeking

/-- `TransferTuning.NetworkBufferSize`. -/
def networkBufferSize : Nat := 1024 * 1024

/-- The fields of `ReadSeekableStream`.  The position of the buffer file is not
kept: every use sets it first. -/
structure ReadSeekableStream where
  /-- The content of the buffer file. -/
  buffer : List UInt8
  input : Cursor UInt8
  /-- `InputStream.CanSeek`. -/
  canSeek : Bool
  reportLength : Option Nat
  readPosition : Int
  inputPosition : Nat
  deriving DecidableEq, Repr

namespace ReadSeekableStream

/-- How a read ends. -/
inductive Outcome where
  | returned (bytes : List UInt8)
  | threw
  deriving DecidableEq, Repr

/-- The answers of `InputStream.Read` during one read, by the number of the
call: how short it is, or `none` for an exception. -/
abbrev Supply := Nat → Option Nat

/-- What the copy loop leaves behind. -/
structure Copied where
  input : Cursor UInt8
  target : List UInt8
  /-- The result, or `none` when the input has thrown. -/
  total : Option Nat
  /-- The number of calls of `InputStream.Read`. -/
  calls : Nat
  deriving DecidableEq, Repr

/-- The bytes that one round of the loop asks for. -/
def chunkSize (remaining : Nat) : Nat :=
  if remaining > networkBufferSize then networkBufferSize else remaining

theorem chunkSize_le (remaining : Nat) : chunkSize remaining ≤ remaining := by
  unfold chunkSize
  split <;> omega

theorem chunkSize_eq_zero {remaining : Nat} : chunkSize remaining = 0 ↔ remaining = 0 := by
  unfold chunkSize
  split
  · have : 0 < networkBufferSize := by decide
    omega
  · exact Iff.rfl

/-- The loop of `Copy(From, To, Length)`, with `total` bytes copied so far. -/
def copy (supply : Supply) (calls : Nat) (source : Cursor UInt8) (target : List UInt8)
    (total length : Nat) : Copied :=
  match supply calls with
  | none => { input := source, target, total := none, calls := calls + 1 }
  | some wish =>
    let chunk := source.read (chunkSize (length - total)) wish
    if chunk.1 = [] then
      { input := chunk.2, target, total := some total, calls := calls + 1 }
    else
      copy supply (calls + 1) chunk.2 (target ++ chunk.1) (total + chunk.1.length) length
termination_by length - total
decreasing_by
  have hle : chunk.1.length ≤ chunkSize (length - total) :=
    (source.reads_read _ wish).length_le
  have hchunk := chunkSize_le (length - total)
  have hpos := List.length_pos_iff.2 ‹_›
  change length - (total + chunk.1.length) < length - total
  omega

/-- `Read` behind the buffered bytes, which are copied to the position first. -/
def readInput (s : ReadSeekableStream) (count : Nat) (supply : Supply) :
    Outcome × ReadSeekableStream :=
  let copied :=
    if s.readPosition > s.inputPosition then
      copy supply 0 s.input s.buffer 0 (s.readPosition - s.inputPosition).toNat
    else { input := s.input, target := s.buffer, total := some 0, calls := 0 }
  let s := { s with input := copied.input, buffer := copied.target }
  match copied.total with
  | none => (.threw, s)
  | some total =>
    let s := { s with inputPosition := s.inputPosition + total }
    -- "Bad Buffer Offset"
    if s.readPosition ≠ (s.inputPosition : Int) then (.threw, s)
    else
      match supply copied.calls with
      | none => (.threw, s)
      | some wish =>
        let (readed, input) := s.input.read count wish
        (.returned readed, { s with
          input
          buffer := s.buffer ++ readed
          readPosition := s.readPosition + readed.length
          inputPosition := s.inputPosition + readed.length })

/-- `Read` from the buffered bytes.  An input that is behind them is moved. -/
def readBuffer (s : ReadSeekableStream) (count fileWish : Nat) (supply : Supply) :
    Outcome × ReadSeekableStream :=
  let (readed, _) := Cursor.read ⟨s.buffer, s.readPosition.toNat⟩ count fileWish
  let s := { s with readPosition := s.readPosition + readed.length }
  if (s.inputPosition : Int) < s.readPosition then
    let mustSkip := (s.readPosition - s.inputPosition).toNat
    if s.canSeek then (.returned readed, { s with input := s.input.advance mustSkip })
    else
      -- the bytes that are skipped go nowhere
      let skipped := copy supply 0 s.input [] 0 mustSkip
      match skipped.total with
      | none => (.threw, { s with input := skipped.input })
      | some _ => (.returned readed, { s with input := skipped.input })
  else (.returned readed, s)

/-- `Read(buffer, offset, count)`.  `fileWish` says how short the buffer file
reads, `supply` how the input reads.  A negative position is refused by the
file. -/
def read (s : ReadSeekableStream) (count fileWish : Nat) (supply : Supply) :
    Outcome × ReadSeekableStream :=
  if s.readPosition < s.buffer.length then
    if s.readPosition < 0 then (.threw, s) else s.readBuffer count fileWish supply
  else s.readInput count supply

/-- `Length`. -/
def length (s : ReadSeekableStream) : Nat :=
  s.reportLength.getD s.input.content.length

/-- The target of `Seek(offset, origin)`. -/
def seekTarget (s : ReadSeekableStream) (offset : Int) : SeekOrigin → Int
  | .begin => offset
  | .current => s.readPosition + offset
  | .fromEnd => s.input.content.length + offset

/-- `Position = value`. -/
def setPosition (s : ReadSeekableStream) (value : Int) : ReadSeekableStream :=
  { s with readPosition := value }

/-- `Seek(offset, origin)`, which returns the new position. -/
def seek (s : ReadSeekableStream) (offset : Int) (origin : SeekOrigin) :
    ReadSeekableStream :=
  s.setPosition (s.seekTarget offset origin)

/-! ## The invariant -/

/-- The buffer file holds what has been read of the content `b`, and the input
stands behind it. -/
structure Inv (b : List UInt8) (s : ReadSeekableStream) : Prop where
  content : s.input.content = b
  stands : s.input.position = s.inputPosition
  le : s.inputPosition ≤ b.length
  buffer : s.buffer = b.take s.inputPosition

theorem Inv.buffer_length {b : List UInt8} {s : ReadSeekableStream} (h : Inv b s) :
    s.buffer.length = s.inputPosition := by
  have := h.le
  rw [h.buffer, List.length_take]
  omega

/-- The copy loop appends the bytes that are missing, however short the input
reads. -/
theorem copy_spec (wish : Nat → Nat) (source : Cursor UInt8) (target : List UInt8)
    (calls total length : Nat) (hle : total ≤ length)
    (hend : source.position + (length - total) ≤ source.content.length) :
    ∃ calls', copy (fun n => some (wish n)) calls source target total length = {
      input := source.advance (length - total)
      target := target ++ window source.content source.position (length - total)
      total := some length
      calls := calls' } := by
  have hreads := source.reads_read (chunkSize (length - total)) (wish calls)
  have hchunk := chunkSize_le (length - total)
  rw [copy]
  dsimp only
  generalize source.read (chunkSize (length - total)) (wish calls) = chunk at hreads ⊢
  have hnext := hreads.next
  by_cases hnil : chunk.1 = []
  · -- the end of the input is behind the target, so all is copied
    have hdone : length - total = 0 := by
      rcases hreads.progress hnil with hzero | hover
      · exact chunkSize_eq_zero.1 hzero
      · omega
    rw [if_pos hnil, hnext, hnil, hdone, window_zero, List.append_nil]
    exact ⟨calls + 1, by rw [show total = length by omega]; rfl⟩
  · rw [if_neg hnil]
    have hpos := List.length_pos_iff.2 hnil
    have hlen := hreads.length_le
    have hrest : length - (total + chunk.1.length) = length - total - chunk.1.length := by
      omega
    have hcontent : chunk.2.content = source.content := by rw [hnext]; rfl
    have hposition : chunk.2.position = source.position + chunk.1.length := by
      rw [hnext]
      rfl
    obtain ⟨calls', hcopy⟩ := copy_spec wish chunk.2 (target ++ chunk.1) (calls + 1)
      (total + chunk.1.length) length (by omega) (by rw [hcontent, hposition]; omega)
    have hjoin : chunk.1 ++ window source.content (source.position + chunk.1.length)
        (length - total - chunk.1.length) =
        window source.content source.position (length - total) := by
      have := window_append source.content source.position chunk.1.length
        (length - total - chunk.1.length)
      rw [← hreads.elems_eq] at this
      rw [this]
      congr 1
      omega
    refine ⟨calls', ?_⟩
    rw [hcopy, hrest, hcontent, hposition, List.append_assoc, hjoin, hnext,
      Cursor.advance_advance]
    congr 2
    omega
termination_by length - total
decreasing_by omega

/-! ## One read -/

/-- `bytes` is what a read of the content delivers at `p`, and `s'` stands
behind it. -/
structure ReadAt (b : List UInt8) (p count : Nat) (bytes : List UInt8)
    (s' : ReadSeekableStream) : Prop where
  reads : Cursor.Reads ⟨b, p⟩ count bytes ⟨b, p + bytes.length⟩
  inv : Inv b s'
  position : s'.readPosition = p + bytes.length

/-- A read inside the buffered bytes does not touch the input. -/
theorem readBuffer_spec {b : List UInt8} {s : ReadSeekableStream} (h : Inv b s) {p : Nat}
    (hp : s.readPosition = p) (hlt : p < s.inputPosition) (count fileWish : Nat)
    (supply : Supply) :
    ∃ bytes s', s.readBuffer count fileWish supply = (.returned bytes, s') ∧
      ReadAt b p count bytes s' := by
  have hreads := Cursor.reads_read ⟨s.buffer, p⟩ count fileWish
  have hlen := h.buffer_length
  have hle := h.le
  rw [readBuffer, hp, Int.toNat_natCast]
  dsimp only
  generalize Cursor.read ⟨s.buffer, p⟩ count fileWish = chunk at hreads ⊢
  have hshort := congrArg List.length hreads.elems_eq
  rw [window_length] at hshort
  dsimp only at hshort
  have hin : p + chunk.1.length ≤ s.inputPosition := by omega
  have hbehind : ¬ (s.inputPosition : Int) < p + chunk.1.length := by omega
  rw [if_neg hbehind]
  refine ⟨chunk.1, _, rfl, ⟨⟨?_, hreads.length_le, rfl⟩, ?_⟩,
    ⟨h.content, h.stands, h.le, h.buffer⟩, rfl⟩
  · have hwindow := hreads.elems_eq
    dsimp only at hwindow ⊢
    rwa [h.buffer, window_take hin] at hwindow
  · intro hnil
    rcases hreads.progress hnil with hzero | hover
    · exact Or.inl hzero
    · dsimp only at hover
      omega

/-- A read beyond the buffered bytes moves the input to the position first. -/
theorem readInput_spec {b : List UInt8} {s : ReadSeekableStream} (h : Inv b s) {p : Nat}
    (hp : s.readPosition = p) (hge : s.inputPosition ≤ p) (hle : p ≤ b.length)
    (count : Nat) (wish : Nat → Nat) :
    ∃ bytes s', s.readInput count (fun n => some (wish n)) = (.returned bytes, s') ∧
      ReadAt b p count bytes s' := by
  -- behind the copy loop all positions are `p`
  have hcopied : ∃ calls, (if s.readPosition > s.inputPosition then
      copy (fun n => some (wish n)) 0 s.input s.buffer 0
        (s.readPosition - s.inputPosition).toNat
      else { input := s.input, target := s.buffer, total := some 0, calls := 0 }) =
      { input := ⟨b, p⟩, target := b.take p, total := some (p - s.inputPosition),
        calls } := by
    have hinput : s.input = ⟨b, s.inputPosition⟩ := by
      rw [← h.content, ← h.stands]
    rw [hp, hinput, h.buffer]
    by_cases hbeyond : s.inputPosition < p
    · have hskip : ((p : Int) - s.inputPosition).toNat = p - s.inputPosition := by omega
      obtain ⟨calls, hcopy⟩ := copy_spec wish ⟨b, s.inputPosition⟩
        (b.take s.inputPosition) 0 0 (p - s.inputPosition) (Nat.zero_le _)
        (by dsimp only; omega)
      have hsum : s.inputPosition + (p - s.inputPosition) = p := by omega
      refine ⟨calls, ?_⟩
      rw [if_pos (by omega), hskip, hcopy, Nat.sub_zero, take_append_window,
        Cursor.advance, hsum]
    · have heq : s.inputPosition = p := by omega
      refine ⟨0, ?_⟩
      rw [heq, if_neg (by omega), Nat.sub_self]
  obtain ⟨calls, hcopied⟩ := hcopied
  have hsum : s.inputPosition + (p - s.inputPosition) = p := by omega
  have hreads := Cursor.reads_read ⟨b, p⟩ count (wish calls)
  rw [readInput, hcopied]
  dsimp only
  rw [hsum, hp, if_neg (not_not.2 rfl)]
  generalize Cursor.read ⟨b, p⟩ count (wish calls) = chunk at hreads ⊢
  have hnext := hreads.next
  have hshort := congrArg List.length hreads.elems_eq
  rw [window_length] at hshort
  dsimp only at hshort
  refine ⟨chunk.1, _, rfl, ⟨⟨hreads.elems_eq, hreads.length_le, rfl⟩, hreads.progress⟩,
    ⟨?_, ?_, ?_, ?_⟩, rfl⟩
  · dsimp only
    rw [hnext]
    rfl
  · dsimp only
    rw [hnext]
    rfl
  · dsimp only
    omega
  · dsimp only
    have := take_append_window b p chunk.1.length
    rw [← hreads.elems_eq] at this
    exact this

/-- A read delivers what the content has at the position. -/
theorem read_spec {b : List UInt8} {s : ReadSeekableStream} (h : Inv b s) {p : Nat}
    (hp : s.readPosition = p) (hle : p ≤ b.length) (count fileWish : Nat)
    (wish : Nat → Nat) :
    ∃ bytes s', s.read count fileWish (fun n => some (wish n)) = (.returned bytes, s') ∧
      ReadAt b p count bytes s' := by
  have hlen := h.buffer_length
  rw [read, hp, hlen]
  by_cases hlt : p < s.inputPosition
  · rw [if_pos (by omega), if_neg (by omega)]
    exact readBuffer_spec h hp hlt count fileWish _
  · rw [if_neg (by omega)]
    exact readInput_spec h hp (by omega) hle count wish

/-! ## Any sequence of seeks and reads -/

/-- The operations of a caller. -/
inductive Op where
  | setPosition (value : Int)
  | seek (offset : Int) (origin : SeekOrigin)
  /-- `wish` says how short the input reads. -/
  | read (count fileWish : Nat) (wish : Nat → Nat)

/-- The targets that a caller may seek to. -/
def InContent (s : ReadSeekableStream) (target : Int) : Prop :=
  0 ≤ target ∧ target ≤ s.input.content.length

instance (s : ReadSeekableStream) (target : Int) : Decidable (s.InContent target) :=
  inferInstanceAs (Decidable (_ ∧ _))

def step (s : ReadSeekableStream) : Op → Option ReadSeekableStream
  | .setPosition value => if s.InContent value then some (s.setPosition value) else none
  | .seek offset origin =>
    if origin ≠ .fromEnd ∧ s.InContent (s.seekTarget offset origin) then
      some (s.seek offset origin)
    else none
  | .read count fileWish wish => some (s.read count fileWish fun n => some (wish n)).2

/-- A `ReadSeekableStream` in use, over an input with the content `b`. -/
def system (b : List UInt8) : System ReadSeekableStream Op where
  init := fun s => s.buffer = [] ∧ s.input = ⟨b, 0⟩ ∧ s.readPosition = 0 ∧
    s.inputPosition = 0
  step := step

/-- What every operation keeps. -/
structure Stands (b : List UInt8) (s : ReadSeekableStream) : Prop where
  inv : Inv b s
  position : ∃ p : Nat, s.readPosition = p ∧ p ≤ b.length

theorem Inv.setPosition {b : List UInt8} {s : ReadSeekableStream} (h : Inv b s)
    {value : Int} (hvalue : s.InContent value) : Stands b (s.setPosition value) where
  inv := ⟨h.content, h.stands, h.le, h.buffer⟩
  position := by
    obtain ⟨hlo, hhi⟩ := hvalue
    rw [h.content] at hhi
    exact ⟨value.toNat, (Int.toNat_of_nonneg hlo).symm, by omega⟩

/-- Every operation keeps the positions in step. -/
theorem Stands.step {b : List UInt8} {s s' : ReadSeekableStream} {op : Op}
    (h : Stands b s) (hs : step s op = some s') : Stands b s' := by
  cases op with
  | setPosition value =>
    rw [ReadSeekableStream.step] at hs
    split at hs
    · rename_i hvalue
      cases hs
      exact h.inv.setPosition hvalue
    · cases hs
  | seek offset origin =>
    rw [ReadSeekableStream.step] at hs
    split at hs
    · rename_i htarget
      cases hs
      exact h.inv.setPosition htarget.2
    · cases hs
  | read count fileWish wish =>
    obtain ⟨p, hp, hle⟩ := h.position
    obtain ⟨bytes, s'', hread, hreads, hinv, hposition⟩ :=
      read_spec h.inv hp hle count fileWish wish
    rw [ReadSeekableStream.step, hread] at hs
    cases hs
    have hshort := congrArg List.length hreads.elems_eq
    rw [window_length] at hshort
    dsimp only at hshort
    exact ⟨hinv, p + bytes.length, by rw [hposition]; rfl, by omega⟩

theorem stands_of_reachable {b : List UInt8} {s : ReadSeekableStream}
    (hs : (system b).Reachable s) : Stands b s := by
  refine System.Reachable.invariant (Stands b) ?_ (fun s op s' h hstep => h.step hstep) hs
  rintro s ⟨hbuffer, hinput, hread, hposition⟩
  refine ⟨⟨?_, ?_, ?_, ?_⟩, 0, hread, Nat.zero_le _⟩
  · rw [hinput]
  · rw [hinput, hposition]
  · rw [hposition]
    exact Nat.zero_le _
  · rw [hbuffer, hposition]
    rfl

/-- Where a caller who stands at `position` wants to be. -/
def Op.wanted (position : Int) : Op → Option Int
  | .setPosition value => some value
  | .seek offset .begin => some offset
  | .seek offset .current => some (position + offset)
  | .seek _ .fromEnd | .read .. => none

theorem step_wanted {s s' : ReadSeekableStream} {op : Op} {p : Int} (h : step s op = some s')
    (hp : op.wanted s.readPosition = some p) : s'.readPosition = p := by
  cases op with
  | setPosition value =>
    simp only [step, Option.ite_none_right_eq_some, Option.some.injEq] at h
    obtain ⟨-, rfl⟩ := h
    exact Option.some.inj hp
  | seek offset origin =>
    simp only [step, Option.ite_none_right_eq_some, Option.some.injEq] at h
    obtain ⟨⟨hend, -⟩, rfl⟩ := h
    cases origin with
    | begin => exact Option.some.inj hp
    | current => exact Option.some.inj hp
    | fromEnd => exact absurd rfl hend
  | read count fileWish wish => cases hp

/-- A `ReadSeekableStream` is random access over its input, however short the
input reads.  After any seeks into the content and any reads, the buffer file
holds the first `InputPosition` bytes of the content, and a read at `p`
delivers the content's bytes from `p` on, none only when none is asked for or
left, and moves behind them.  A seek goes where it is meant to go. -/
theorem random_access (b : List UInt8) (s : ReadSeekableStream)
    (hs : (system b).Reachable s) :
    s.inputPosition ≤ b.length ∧ s.buffer = b.take s.inputPosition ∧
    (∀ op s' target, step s op = some s' → op.wanted s.readPosition = some target →
      s'.readPosition = target) ∧
    ∃ p : Nat, s.readPosition = p ∧ p ≤ b.length ∧
      ∀ (count fileWish : Nat) (wish : Nat → Nat), ∃ bytes s',
        s.read count fileWish (fun n => some (wish n)) = (.returned bytes, s') ∧
        bytes.length ≤ count ∧ bytes = window b p bytes.length ∧
        (bytes = [] → count = 0 ∨ p = b.length) ∧
        s'.readPosition = p + bytes.length := by
  obtain ⟨hinv, p, hp, hle⟩ := stands_of_reachable hs
  refine ⟨hinv.le, hinv.buffer, fun op s' target => step_wanted, p, hp, hle,
    fun count fileWish wish => ?_⟩
  obtain ⟨bytes, s', hread, hreads, -, hposition⟩ :=
    read_spec hinv hp hle count fileWish wish
  refine ⟨bytes, s', hread, hreads.length_le, hreads.elems_eq, fun hnil => ?_, hposition⟩
  rcases hreads.progress hnil with hzero | hover
  · exact Or.inl hzero
  · exact Or.inr (Nat.le_antisymm hle hover)

/-- A stream that stands behind what it has read: nothing is buffered yet. -/
def aheadStream : ReadSeekableStream where
  buffer := []
  input := ⟨[1, 2, 3, 4, 5, 6, 7], 0⟩
  canSeek := false
  reportLength := none
  readPosition := 5
  inputPosition := 0

theorem reachable_aheadStream : (system [1, 2, 3, 4, 5, 6, 7]).Reachable aheadStream :=
  System.Reachable.step (s := { aheadStream with readPosition := 0 }) (l := .setPosition 5)
    (.init ⟨rfl, rfl, rfl, rfl⟩) (by decide)

theorem random_access_aheadStream :
    ∃ bytes s', aheadStream.read 4 0 (fun _ => some 1) = (.returned bytes, s') ∧
      bytes.length ≤ 4 ∧ bytes = window [1, 2, 3, 4, 5, 6, 7] 5 bytes.length ∧
      s'.readPosition = 5 + (bytes.length : Int) := by
  obtain ⟨-, -, -, p, hp, -, hread⟩ := random_access _ aheadStream reachable_aheadStream
  have hp5 : p = 5 := by
    have : (5 : Int) = p := hp
    omega
  subst hp5
  obtain ⟨bytes, s', hread, hlen, hbytes, -, hposition⟩ := hread 4 0 fun _ => 1
  exact ⟨bytes, s', hread, hlen, hbytes, hposition⟩

end ReadSeekableStream

end DirectPackageInstaller
