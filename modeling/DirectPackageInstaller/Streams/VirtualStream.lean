import DirectPackageInstaller.Lib.Seeking

/-!
# The window stream

`VirtualStream` shows the window `[FilePos, FilePos + Len)` of a base stream
as a stream of its own.  The base stream is not part of the value: an
operation that looks at it takes the length of the base as an argument.
`Opened` adds what a seek needs of the base.
-/

namespace DirectPackageInstaller

open Seeking

/-- The fields of `VirtualStream`. -/
structure VirtualStream where
  filePos : Int
  len : Int
  pos : Int
deriving DecidableEq, Repr

namespace VirtualStream

/-- The constructor; a new window stands at its start. -/
def create (filePos len : Int) : VirtualStream :=
  { filePos, len, pos := 0 }

/-- `Position = value`, that is `Seek(value, SeekOrigin.Begin)`.  `none` is
the exception "Invalid Position". -/
def setPosition (v : VirtualStream) (value : Int) : Option VirtualStream :=
  if value < 0 ∨ value > v.len then none else some { v with pos := value }

/-- A base stream of fixed length.  `accepts` tells the positions that it can be
set to; an assignment of another one throws and changes nothing. -/
structure Base where
  length : Int
  accepts : Int → Bool

/-- A window over a base, with the position of the base. -/
structure Opened where
  window : VirtualStream
  forceAmount : Bool
  basePosition : Int
deriving DecidableEq, Repr

/-- The wait at the end of `Seek`, for a base that does not grow. -/
def await (base : Base) (s : Opened) : SeekOutcome Opened :=
  if s.forceAmount = true ∧ s.basePosition > base.length then .blocked s
  else .returned s.window.pos s

/-- `Base.Position = basePosition`, and then `Pos = pos`. -/
def moveBase (base : Base) (s : Opened) (basePosition pos : Int) : SeekOutcome Opened :=
  if base.accepts basePosition then
    await base { s with basePosition, window := { s.window with pos } }
  else .threw s

/-- `Seek(offset, origin)`. -/
def seek (base : Base) (s : Opened) (offset : Int) (origin : SeekOrigin) :
    SeekOutcome Opened :=
  if offset < 0 ∨ offset > s.window.len then .threw s
  else
    match origin with
    | .begin => moveBase base s (s.window.filePos + offset) offset
    | .current =>
      if s.window.pos + offset > s.window.len then .threw s
      else moveBase base s (s.basePosition + offset) (s.window.pos + offset)
    | .fromEnd =>
      let pos := s.window.len - offset
      -- here `Pos` is assigned before the base is moved
      let s := { s with window := { s.window with pos } }
      if pos < 0 then .threw s
      else moveBase base s (s.window.filePos + pos) pos

/-- `SetLength(value)`.  `none` is the exception "Invalid Length". -/
def setLength (v : VirtualStream) (baseLength value : Int) :
    Option VirtualStream :=
  if v.filePos + value > baseLength then none else some { v with len := value }

/-- The count that `Read(buffer, offset, count)` asks the base for, after it
has been cut to the window and to the room in the buffer. -/
def clampCount (v : VirtualStream) (bufferLength offset count : Int) : Int :=
  let count := if v.pos + count > v.len then v.len - v.pos else count
  let count := if count + offset ≥ bufferLength then bufferLength - offset
    else count
  if count < 0 then 0 else count

/-- `Pos += Readed`. -/
def advance (v : VirtualStream) (readed : Int) : VirtualStream :=
  { v with pos := v.pos + readed }

@[simp] theorem advance_pos (v : VirtualStream) (n : Int) :
    (v.advance n).pos = v.pos + n := rfl

@[simp] theorem advance_zero (v : VirtualStream) : v.advance 0 = v := by
  simp [advance]

theorem setPosition_eq_some {v w : VirtualStream} {value : Int}
    (h : v.setPosition value = some w) :
    0 ≤ value ∧ value ≤ v.len ∧ w = { v with pos := value } := by
  unfold setPosition at h
  split at h
  · cases h
  · rename_i hin
    cases h
    exact ⟨by omega, by omega, rfl⟩

theorem setLength_eq_some {v w : VirtualStream} {baseLength value : Int}
    (h : v.setLength baseLength value = some w) :
    v.filePos + value ≤ baseLength ∧ w = { v with len := value } := by
  unfold setLength at h
  split at h
  · cases h
  · rename_i hin
    cases h
    exact ⟨by omega, rfl⟩

/-- A read never asks for more than the caller did. -/
theorem clampCount_le {v : VirtualStream} {bufferLength offset count : Int}
    (h : 0 ≤ count) : v.clampCount bufferLength offset count ≤ count := by
  unfold clampCount
  dsimp only
  split_ifs <;> omega

end VirtualStream

end DirectPackageInstaller
