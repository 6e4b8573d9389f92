import DirectPackageInstaller.Lib.LittleEndian

/-!
# The record of a package on the wire

`SendPKGPayload` writes one record for a package and `get_pkg_info` reads it:
a flag, four strings with their lengths in front, the package size, and the
icon with its length in front.  All integers are little-endian.

The receiver calls `read`, which returns at least one byte and at most what
is asked for.  `get_uint32`, `get_uint64` and `get_string` call it once;
`get_file` repeats it.  What a short read leaves of an integer is whatever the
stack held, so the model takes these bytes from outside.  The connection stays
open, so a read blocks when the record is used up.
-/

namespace DirectPackageInstaller.PkgInfo

open LittleEndian

/-! ## The sender -/

/-- Text that a `char` array of `capacity` bytes holds with a terminator. -/
structure Text (capacity : Nat) where
  data : List UInt8
  length_lt : data.length < capacity
  no_nul : 0 ∉ data

/-- What `SendPKGPayload` sends of `Installer.CurrentPKG`: the UTF-8 texts
within the array sizes of the receiver, and an icon as long as an array may
be. -/
structure Package where
  url : Text 0x800
  friendlyName : Text 0x259
  contentID : Text 0x30
  bgftContentType : Text 0x10
  packageSize : UInt64
  iconData : List UInt8
  icon_length_lt : iconData.length < 2 ^ 31

/-- A length prefix and the bytes it counts. -/
def prefixed (data : List UInt8) : List UInt8 :=
  bytes 4 data.length ++ data

/-- The icon part of the record. -/
def iconPart (iconData : List UInt8) : List UInt8 :=
  if iconData.length = 0 then List.replicate 4 0
  else bytes 4 iconData.length ++ iconData

/-- `PKGInfoBuffer`; the flag 1 announces a package. -/
def Package.buffer (p : Package) : List UInt8 :=
  bytes 4 1 ++ prefixed p.url.data ++ prefixed p.friendlyName.data ++
    prefixed p.contentID.data ++ prefixed p.bgftContentType.data ++
    bytes 8 p.packageSize.toNat ++ iconPart p.iconData

/-! ## The receiver -/

/-- What the receiver does not control. -/
structure Network where
  /-- How many bytes are at hand at each call of `read`. -/
  chunk : Nat → Nat
  /-- The bytes on the stack under the array of each call of `read`. -/
  garbage : Nat → Nat → UInt8

/-- The bytes that are not read yet, and the number of calls of `read`. -/
structure Wire where
  stream : List UInt8
  calls : Nat

/-- Why `get_pkg_info` does not come to its end. -/
inductive Stop
  /-- A `read` waits for bytes that are never sent. -/
  | blocked
  /-- `get_string` returned -1, so `get_pkg_info` does. -/
  | badLength
  /-- `get_file` has overrun its buffer. -/
  | overflow
deriving DecidableEq, Repr

/-- How many bytes a `read` of `size` bytes returns at most at this call. -/
def Network.share (net : Network) (size call : Nat) : Nat :=
  min size (max 1 (net.chunk call))

/-- `read(sock, buffer, size)`. -/
def read (net : Network) (size : Nat) (w : Wire) :
    Except Stop (List UInt8 × Wire) :=
  if size = 0 then .ok ([], { w with calls := w.calls + 1 })
  else if w.stream.isEmpty then .error .blocked
  else
    .ok (w.stream.take (net.share size w.calls),
      { stream := w.stream.drop (net.share size w.calls), calls := w.calls + 1 })

/-- `get_uint32` and `get_uint64`: one `read` into an array that is not
initialised. -/
def getUint (net : Network) (width : Nat) (w : Wire) :
    Except Stop (Nat × Wire) := do
  let (got, w') ← read net width w
  let rest := (List.range width).drop got.length
  return (value (got ++ rest.map (net.garbage w.calls)), w')

def getUint32 (net : Network) (w : Wire) : Except Stop (Nat × Wire) :=
  getUint net 4 w

def getUint64 (net : Network) (w : Wire) : Except Stop (Nat × Wire) :=
  getUint net 8 w

/-- The text of a zeroed array whose first bytes are `buffer`. -/
def cString (buffer : List UInt8) : List UInt8 :=
  buffer.takeWhile (· ≠ 0)

/-- `get_string(sock, Buffer, MAX_SIZE)`. -/
def getString (net : Network) (maxSize : Nat) (w : Wire) :
    Except Stop (List UInt8 × Wire) := do
  let (strLen, w) ← getUint32 net w
  if strLen > maxSize then .error .badLength
  else
    let (buffer, w) ← read net strLen w
    return (cString buffer, w)

/-- The length of the local buffer of `get_file`. -/
def bufferSize : Nat := 4096

/-- A `uint32_t` as an `int`. -/
def toInt32 (n : Nat) : Int :=
  if n < 2 ^ 31 then n else (n : Int) - 2 ^ 32

/-- The size that `get_file` asks for, as a `size_t`. -/
def requestSize (len : Int) : Nat :=
  ((if len < bufferSize then len else bufferSize) % 2 ^ 64).toNat

theorem requestSize_pos {len : Int} (h : 0 < len) : 0 < requestSize len := by
  unfold requestSize bufferSize
  split <;> omega

/-- What a `read` that returns does. -/
theorem read_ok {net : Network} {size : Nat} {w w' : Wire} {got : List UInt8}
    (h : read net size w = .ok (got, w')) :
    w.stream = got ++ w'.stream ∧ w'.calls = w.calls + 1 ∧
      got.length = min (net.share size w.calls) w.stream.length := by
  unfold read at h
  split at h
  · rename_i hsize
    cases h
    simp [Network.share, hsize]
  · split at h
    · cases h
    · cases h
      simp

theorem read_pos {net : Network} {size : Nat} {w w' : Wire} {got : List UInt8}
    (hsize : 0 < size) (h : read net size w = .ok (got, w')) :
    0 < got.length := by
  obtain ⟨-, -, hlen⟩ := read_ok h
  unfold read at h
  rw [if_neg (by omega)] at h
  split at h
  · cases h
  · rename_i hstream
    have hpos : 0 < w.stream.length := by
      rw [List.length_pos_iff]
      simpa using hstream
    unfold Network.share at hlen
    omega

/-- The loop of `get_file`, for a file that can be written. -/
def fileLoop (net : Network) (len : Int) (file : List UInt8) (w : Wire) :
    Except Stop (List UInt8 × Wire) :=
  match _hread : read net (requestSize len) w with
  | .error stop => .error stop
  | .ok (got, w') =>
    if got.length > bufferSize then .error .overflow
    else if len - got.length ≤ 0 then .ok (file ++ got, w')
    else fileLoop net (len - got.length) (file ++ got) w'
termination_by w.stream.length
decreasing_by
  have hstream := congrArg List.length (read_ok _hread).1
  have hpos := read_pos (requestSize_pos (by omega)) _hread
  rw [List.length_append] at hstream
  omega

/-- `get_file`: the icon file, if there is one. -/
def getFile (net : Network) (w : Wire) :
    Except Stop (Option (List UInt8) × Wire) := do
  let (n, w) ← getUint32 net w
  if toInt32 n = 0 then return (none, w)
  else
    let (file, w) ← fileLoop net (toInt32 n) [] w
    return (some file, w)

/-- What `get_pkg_info` hands to the installer, and the file it writes. -/
structure Params where
  contentUrl : List UInt8
  contentName : List UInt8
  id : List UInt8
  packageType : List UInt8
  packageSize : Nat
  iconPath : List UInt8
  iconFile : Option (List UInt8)
deriving DecidableEq, Repr

/-- The bytes of a string literal in the source. -/
def chars (text : String) : List UInt8 :=
  text.toList.map fun c => UInt8.ofNat c.toNat

/-- `get_file_path` of `icon_name`. -/
def iconPath (id : List UInt8) : List UInt8 :=
  chars "/user/data/tmp_" ++ id ++ chars ".png"

/-- `get_pkg_info`; `none` when the sender asks the service to exit. -/
def getPkgInfo (net : Network) (w : Wire) :
    Except Stop (Option Params × Wire) := do
  let (flag, w) ← getUint32 net w
  if flag = 0 then return (none, w)
  else
    let (url, w) ← getString net 0x800 w
    let (name, w) ← getString net 0x259 w
    let (id, w) ← getString net 0x30 w
    let (pkgType, w) ← getString net 0x10 w
    let (size, w) ← getUint64 net w
    let (iconFile, w) ← getFile net w
    return (some {
      contentUrl := url, contentName := name, id, packageType := pkgType,
      packageSize := size
      iconPath := if iconFile.isSome then iconPath id else []
      iconFile }, w)

end DirectPackageInstaller.PkgInfo
