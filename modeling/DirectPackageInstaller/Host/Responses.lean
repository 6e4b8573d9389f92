import DirectPackageInstaller.Host.HttpRange
import DirectPackageInstaller.Streams.VirtualStream

/-!
# The two response paths

`PS4Server.SendStream` answers for `File` and `Cache`, and
`DecompressService.Decompress` answers by itself.  An answer is the head that
stands in the response object when it is sent, and the window of the content
that is sent as the body.  Every stream in between is a window of the content.

* `Proper`: the answer that a request should get.
* `proper_file`: `SendStream` gives it.
* `responses_agree_iff`: `Decompress` agrees with it exactly when the request
  has no `Range` header.
-/

namespace DirectPackageInstaller.Responses

open Text HttpRange

/-- The head of a response, as far as it depends on the range. -/
structure Response where
  statusCode : Nat
  contentLength : Option Int
  contentRange : Option Text
deriving DecidableEq, Repr

/-- The response object before anything is set. -/
def Response.fresh : Response where
  statusCode := 200
  contentLength := none
  contentRange := none

/-- What is sent: the head, and the start and length of the body's window in
the content. -/
structure Answer where
  head : Response
  body : Option (Int × Int)
deriving DecidableEq, Repr

/-- `new VirtualStream(Origin, pos, len)`, as a window of the content. -/
def within (origin : VirtualStream) (pos len : Int) : VirtualStream :=
  VirtualStream.create (origin.filePos + pos) len

/-- The body that is sent from a stream. -/
def window (stream : VirtualStream) (length : Int) : Int × Int := (stream.filePos, length)

/-- `bytes */{totalLength}`. -/
def unsatisfied (totalLength : Int) : Text := "bytes */".toList ++ intText totalLength

/-- `bytes {rangeStart}-{rangeEnd}/{totalLength}`. -/
def partText (rangeStart rangeEnd totalLength : Int) : Text :=
  "bytes ".toList ++ intText rangeStart ++ '-' :: intText rangeEnd ++
    '/' :: intText totalLength

/-- `SendStream(Context, Origin, Range)`; `none` is an overflow. -/
def sendStream (head : Response) (origin : VirtualStream) (range : Option HttpRange) :
    Option Answer :=
  let totalLength := origin.len
  let head := { head with contentLength := some totalLength }
  match range with
  | none => some { head, body := some (window origin totalLength) }
  | some r => do
    let rangeStart ← getRangeStart (some r) totalLength
    let rangeLength ← getRangeLength (some r) totalLength
    let rangeEnd ← checked (rangeStart + rangeLength - 1)
    if rangeLength = 0 then
      return {
        head := { head with
          statusCode := 416, contentRange := some (unsatisfied totalLength) }
        body := none }
    else
      return {
        head := { head with
          contentLength := some rangeLength
          contentRange := some (partText rangeStart rangeEnd totalLength) }
        body := some (window (within origin rangeStart rangeLength) rangeLength) }

/-- The status that `File` and `Cache` start with. -/
def started (range : Option HttpRange) : Response :=
  { Response.fresh with statusCode := if range.isSome then 206 else 200 }

/-- The content itself. -/
def whole (totalSize : Int) : VirtualStream := VirtualStream.create 0 totalSize

/-- `File`, for a file of `totalSize` bytes. -/
def file (header : Option Text) (totalSize : Int) : Option Answer :=
  let range := header.map ofHeader
  sendStream (started range) (whole totalSize) range

/-- `Cache`, for a request that is admitted. -/
def cache (header : Option Text) (totalSize : Int) : Option Answer :=
  let range := header.map ofHeader
  sendStream (started range) (within (whole totalSize) 0 totalSize) range

/-- `Decompress`, for a request that is admitted.  The status is only set where
nothing is selected. -/
def decompress (header : Option Text) (totalSize : Int) : Option Answer :=
  let head := Response.fresh
  match header.map ofHeader with
  | none =>
    some {
      head := { head with contentLength := some totalSize }
      body := some (window (within (whole totalSize) 0 totalSize) totalSize) }
  | some r => do
    let rangeStart ← getRangeStart (some r) totalSize
    let rangeLength ← getRangeLength (some r) totalSize
    let rangeEnd ← checked (rangeStart + rangeLength - 1)
    if rangeLength = 0 then
      return {
        head := { head with
          statusCode := 416, contentRange := some (unsatisfied totalSize) }
        body := none }
    else
      return {
        head := { head with
          contentLength := some rangeLength
          contentRange := some (partText rangeStart rangeEnd totalSize) }
        body := some (window (within (whole totalSize) rangeStart rangeLength) rangeLength) }

/-! ## What a request should get -/

/-- The answer to a request without a `Range` header is the whole content.  With
one it is what the range selects, or the refusal when that is nothing. -/
structure Proper (header : Option Text) (totalSize : Int) (a : Answer) : Prop where
  full : header = none →
    a = { head := ⟨200, some totalSize, none⟩, body := some (0, totalSize) }
  part : ∀ h s n, header = some h → Selection (ofHeader h) totalSize s n → 0 < n →
    a = { head := ⟨206, some n, some (partText s (s + n - 1) totalSize)⟩, body := some (s, n) }
  nothing : ∀ h s, header = some h → Selection (ofHeader h) totalSize s 0 →
    a.head.statusCode = 416 ∧ a.head.contentRange = some (unsatisfied totalSize) ∧
      a.body = none

theorem Selection.unique {r : HttpRange} {totalLength s n s' n' : Int}
    (h : Selection r totalLength s n) (h' : Selection r totalLength s' n') :
    s = s' ∧ n = n' :=
  ⟨Option.some.inj (h.start.symm.trans h'.start),
    Option.some.inj (h.length.symm.trans h'.length)⟩

/-- What `SendStream` answers to a range of the content. -/
theorem sendStream_selection {header : Text} {totalSize s n : Int}
    (hpos : 0 < totalSize) (hfits : totalSize < 2 ^ 63)
    (h : Selection (ofHeader header) totalSize s n) :
    sendStream (started (some (ofHeader header))) (whole totalSize) (some (ofHeader header)) =
      some (if n = 0 then {
          head := ⟨416, some totalSize, some (unsatisfied totalSize)⟩, body := none }
        else {
          head := ⟨206, some n, some (partText s (s + n - 1) totalSize)⟩
          body := some (s, n) }) := by
  have hs := h.start_nonneg
  have hn := h.length_nonneg
  have hle := h.le_total
  unfold sendStream
  simp only [getRangeStart, getRangeLength, whole, VirtualStream.create, h.start, h.length,
    Option.bind_eq_bind, Option.bind_some]
  rw [checked_eq_some (by omega) (by omega), Option.bind_some]
  split
  · rfl
  · simp [started, Response.fresh, window, within, VirtualStream.create]

theorem decompress_selection {header : Text} {totalSize s n : Int}
    (hpos : 0 < totalSize) (hfits : totalSize < 2 ^ 63)
    (h : Selection (ofHeader header) totalSize s n) :
    decompress (some header) totalSize =
      some (if n = 0 then {
          head := ⟨416, none, some (unsatisfied totalSize)⟩, body := none }
        else {
          head := ⟨200, some n, some (partText s (s + n - 1) totalSize)⟩
          body := some (s, n) }) := by
  have hs := h.start_nonneg
  have hn := h.length_nonneg
  have hle := h.le_total
  unfold decompress
  simp only [Option.map_some, getRangeStart, getRangeLength, h.start, h.length,
    Option.bind_eq_bind, Option.bind_some]
  rw [checked_eq_some (by omega) (by omega), Option.bind_some]
  split
  · rfl
  · simp [Response.fresh, window, within, whole, VirtualStream.create]

/-- `Cache` answers as `File` does. -/
theorem cache_eq_file (header : Option Text) (totalSize : Int) :
    cache header totalSize = file header totalSize := by
  have hwhole : within (whole totalSize) 0 totalSize = whole totalSize := by
    simp [within, whole, VirtualStream.create]
  rw [cache, file, hwhole]

/-- `File` gives every request the answer that it should get. -/
theorem proper_file (header : Option Text) {totalSize : Int} (hpos : 0 < totalSize)
    (hfits : totalSize < 2 ^ 63) :
    ∃ a, file header totalSize = some a ∧ Proper header totalSize a := by
  cases header with
  | none =>
    refine ⟨_, rfl, fun _ => rfl, ?_, ?_⟩
    · intro h s n heq
      cases heq
    · intro h s heq
      cases heq
  | some header =>
    obtain ⟨s, n, hselection⟩ := exists_selection (shape_ofHeader header) hfits
    refine ⟨_, sendStream_selection hpos hfits hselection, ?_, ?_, ?_⟩
    · intro heq
      cases heq
    · intro h s' n' heq hselection' hn
      cases heq
      obtain ⟨rfl, rfl⟩ := Selection.unique hselection hselection'
      exact if_neg (by omega)
    · intro h s' heq hselection'
      cases heq
      obtain ⟨rfl, rfl⟩ := Selection.unique hselection hselection'
      exact ⟨rfl, rfl, rfl⟩

/-! ## Where the paths agree -/

/-- The three services give a request the same answer, and it is the one that it
should get. -/
def Agree (header : Option Text) (totalSize : Int) : Prop :=
  ∃ a, decompress header totalSize = some a ∧ file header totalSize = some a ∧
    cache header totalSize = some a ∧ Proper header totalSize a

/-- The two response paths agree exactly on the requests without a `Range`
header.  `Decompress` leaves the status at 200 where a part is sent, and does not
set the length where nothing is selected. -/
theorem responses_agree_iff (header : Option Text) (totalSize : Int)
    (hpos : 0 < totalSize) (hfits : totalSize < 2 ^ 63) :
    Agree header totalSize ↔ header = none := by
  obtain ⟨a, hfile, hproper⟩ := proper_file header hpos hfits
  have hcache : cache header totalSize = some a := (cache_eq_file header totalSize).trans hfile
  cases header with
  | none =>
    refine iff_of_true ⟨a, ?_, hfile, hcache, hproper⟩ rfl
    rw [hproper.full rfl]
    rfl
  | some header =>
    refine iff_of_false ?_ (by simp)
    rintro ⟨a', hdecompress, hfile', -⟩
    obtain ⟨s, n, hselection⟩ := exists_selection (shape_ofHeader header) hfits
    have hsend : file (some header) totalSize = _ := sendStream_selection hpos hfits hselection
    rw [decompress_selection hpos hfits hselection] at hdecompress
    have heq := hdecompress.trans (hfile'.symm.trans hsend)
    by_cases hn : n = 0
    · simp [hn] at heq
    · simp [hn] at heq

theorem responses_agree_noHeader : Agree none 5 :=
  (responses_agree_iff none 5 (by decide) (by decide)).2 rfl

/-- The first byte of two. -/
theorem responses_differ_firstByte :
    decompress (some "bytes=0-0".toList) 2 =
        some ⟨⟨200, some 1, some "bytes 0-0/2".toList⟩, some (0, 1)⟩ ∧
      file (some "bytes=0-0".toList) 2 =
        some ⟨⟨206, some 1, some "bytes 0-0/2".toList⟩, some (0, 1)⟩ ∧
      ¬ Agree (some "bytes=0-0".toList) 2 := by
  have hdecompress : decompress (some "bytes=0-0".toList) 2 =
      some ⟨⟨200, some 1, some "bytes 0-0/2".toList⟩, some (0, 1)⟩ := by decide +kernel
  have hfile : file (some "bytes=0-0".toList) 2 =
      some ⟨⟨206, some 1, some "bytes 0-0/2".toList⟩, some (0, 1)⟩ := by decide +kernel
  refine ⟨hdecompress, hfile, ?_⟩
  rintro ⟨a, ha, ha', -⟩
  rw [hdecompress] at ha
  rw [hfile, ← ha] at ha'
  exact absurd ha' (by decide)

end DirectPackageInstaller.Responses
