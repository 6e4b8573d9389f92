import DirectPackageInstaller.Lib.Seeking

/-!
# A block of memory as a stream

`UnsafeMemoryStream` keeps a pointer into a block of memory.  Its position is
the distance of the pointer from the start of the block, and nothing checks
what is assigned to it.
-/

namespace DirectPackageInstaller

open Seeking

/-- The block of `UnsafeMemoryStream` and `CurrentPointer - BasePointer`. -/
structure UnsafeMemoryStream where
  memory : List UInt8
  position : Int
  deriving DecidableEq, Repr

namespace UnsafeMemoryStream

/-- `Length`, which is `Size`. -/
def length (u : UnsafeMemoryStream) : Int := u.memory.length

/-- `Position = value`. -/
def setPosition (u : UnsafeMemoryStream) (value : Int) : UnsafeMemoryStream :=
  { u with position := value }

/-- `Seek(offset, origin)`. -/
def seek (u : UnsafeMemoryStream) (offset : Int) (origin : SeekOrigin) :
    SeekOutcome UnsafeMemoryStream :=
  if offset < 0 ∨ offset > u.length then .threw u
  else
    match origin with
    | .begin => .returned offset (u.setPosition offset)
    | .current =>
      if u.position + offset > u.length then .threw u
      else .returned (u.position + offset) (u.setPosition (u.position + offset))
    | .fromEnd =>
      if u.length - offset < 0 then .threw u
      else .returned (u.length - offset) (u.setPosition (u.length - offset))

end UnsafeMemoryStream

end DirectPackageInstaller
