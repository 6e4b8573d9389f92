import DirectPackageInstaller.Lib.Memory
import DirectPackageInstaller.Lib.Transition
import DirectPackageInstaller.Streams.VirtualStream
import Mathlib.Data.Int.ConditionallyCompleteOrder

/-!
# The segmented download stream as a transition system

`SegmentedStream` downloads one resource over several connections into a
backing buffer.  Four kinds of threads work on it: one download task for each
segment (`DownloadSegmentAsync`), the monitor that splits segments
(`MonitorTasksAsync`), the readers (`ReadAt`) and whoever calls `Cancel`.

The atomic steps of the system are the lock sections of the source and its
unlocked reads of shared fields.  The local variables of a thread live in its
program counter, so a value that was read outside the lock can be stale when
the lock section that uses it runs.  Every choice that the environment makes
(the size of a chunk, an exception, how long a reader has waited, the number
of bytes that a read of the backing file returns) is part of the label.

Two fields of the state are ghosts that no step reads: `written` marks the
bytes of the backing buffer that some task has written, and `returned` logs
what each `ReadAt` call delivered.
-/

namespace DirectPackageInstaller.SegmentedStream

open Memory

/-- What the constructor of a `SegmentedStream` fixes. -/
structure Config where
  /-- `TotalSize`, the length of the first connection.  The constructor
  throws on a negative length, in `SetLength`. -/
  totalSize : Int
  bufferSize : Int := 1024 * 1024
  concurrency : Int := 4
  /-- The bytes that every stream returned by `openSegment` serves. -/
  origin : Int → UInt8
  /-- What the backing buffer holds before anything is written. -/
  initialBuffer : Int → UInt8
  totalSize_nonneg : 0 ≤ totalSize
  bufferSize_pos : 0 < bufferSize

/-! ## Segments and their download tasks -/

/-- The program counter of `DownloadSegmentAsync`. -/
inductive DownloadTask
  /-- The segment is in the table, `Task.Run` has not been called. -/
  | created
  /-- At the cancellation test of the outer loop. -/
  | outerLoop
  /-- At the lock section that reads `currentLength` in the outer loop. -/
  | outerTest
  /-- Opens the connection and builds the `VirtualStream`. -/
  | connecting
  /-- At the cancellation test of the inner loop. -/
  | innerLoop (vStream : VirtualStream)
  /-- At the lock section that reads `currentLength` in the inner loop. -/
  | innerTest (vStream : VirtualStream)
  /-- `ReadAsync(buffer, 0, toRead)` is in flight. -/
  | reading (vStream : VirtualStream) (toRead : Int)
  | completed
deriving DecidableEq, Repr

/-- A `Segment` with the state of the one task that downloads it.
`registered` says that `StartDownloadTask` has added the task to `_tasks`. -/
structure Segment where
  offset : Int
  length : Int
  downloaded : Int
  task : DownloadTask
  registered : Bool
deriving DecidableEq, Repr

/-- `IsCompleted => Downloaded >= Length`. -/
def Segment.isCompleted (s : Segment) : Bool :=
  decide (s.downloaded ≥ s.length)

/-- A segment as the split code creates it. -/
def Segment.fresh (offset length : Int) : Segment :=
  { offset, length, downloaded := 0, task := .created, registered := false }

/-- The next program counter of a task, where no chunk and no exception is
involved.  `seg` is the segment as the step finds it. -/
def DownloadTask.next (cfg : Config) (cancelled : Bool) (seg : Segment) :
    DownloadTask → Option DownloadTask
  | .created => none
  | .outerLoop => some (if cancelled then .completed else .outerTest)
  | .outerTest =>
    some (if seg.downloaded ≥ seg.length then .completed else .connecting)
  | .connecting =>
    -- a length that was cut below `Downloaded` makes the `Position` setter
    -- throw; the exception is caught and the outer loop goes on
    match (VirtualStream.create seg.offset seg.length).setPosition
        seg.downloaded with
    | none => some .outerLoop
    | some vStream => some (.innerLoop vStream)
  | .innerLoop vStream =>
    some (if cancelled then .outerLoop else .innerTest vStream)
  | .innerTest vStream =>
    match vStream.setLength cfg.totalSize seg.length with
    | none => some .outerLoop
    | some vStream =>
      if seg.downloaded ≥ seg.length then some .outerLoop
      else some (.reading vStream
        (min cfg.bufferSize (seg.length - seg.downloaded)))
  | .reading _ _ => none
  | .completed => none

/-- The largest chunk that `ReadAsync` can return: `Read` cuts the count to
the window, and the connection ends with the resource. -/
def maxChunk (cfg : Config) (vStream : VirtualStream) (toRead : Int) : Int :=
  min (vStream.clampCount cfg.bufferSize 0 toRead)
    (cfg.totalSize - (vStream.filePos + vStream.pos))

/-! ## Progress -/

/-- `TotalProgress`. -/
def totalProgress (segments : List Segment) : Int :=
  (segments.map Segment.downloaded).sum

/-- `InProgress`: some task of `_tasks` has not completed. -/
def inProgress (segments : List Segment) : Bool :=
  segments.any fun s => s.registered && decide (s.task ≠ .completed)

/-- The segment of `GetContiguousAvailableBytesUnsafe` that contains
`availableEnd`. -/
def segmentAt (segments : List Segment) (availableEnd : Int) :
    Option Segment :=
  segments.find? fun s =>
    decide (s.offset ≤ availableEnd) &&
      decide (s.offset + s.length > availableEnd)

/-- The loop of `GetContiguousAvailableBytesUnsafe`.  `availableEnd` grows in
each turn, so `targetEnd - position` turns are enough. -/
def availableLoop (segments : List Segment) (targetEnd : Int) :
    Nat → Int → Int
  | 0, availableEnd => availableEnd
  | fuel + 1, availableEnd =>
    if availableEnd < targetEnd then
      match segmentAt segments availableEnd with
      | none => availableEnd
      | some segment =>
        let segmentAvailableEnd := min (segment.offset + segment.downloaded)
          (segment.offset + segment.length)
        if segmentAvailableEnd ≤ availableEnd then availableEnd
        else availableLoop segments targetEnd fuel
          (min segmentAvailableEnd targetEnd)
    else availableEnd

/-- `GetContiguousAvailableBytesUnsafe(position, requestedBytes)`. -/
def getContiguousAvailableBytesUnsafe (cfg : Config)
    (segments : List Segment) (position requestedBytes : Int) : Int :=
  if requestedBytes ≤ 0 ∨ position ≥ cfg.totalSize then 0
  else
    let targetEnd := min cfg.totalSize (position + requestedBytes)
    availableLoop segments targetEnd (targetEnd - position).toNat position -
      position

/-! ## Splitting -/

/-- The order by which `argmin` and `argmax` compare offsets and lengths. -/
local instance intOrder : Preorder Int := Int.instLinearOrder.toPreorder

/-- The indices of the segments that are not completed. -/
def incomplete (segments : List Segment) : List Nat :=
  (List.range segments.length).filter fun i =>
    segments[i]?.any fun s => !s.isCompleted

/-- `CreateSegmentAtOffsetUnsafe(offset)`: the new table and the index of the
new segment, or `none` for `null`. -/
def createSegmentAtOffsetUnsafe (cfg : Config) (segments : List Segment)
    (offset : Int) : Option (List Segment × Nat) :=
  if offset ≤ 0 ∨ offset ≥ cfg.totalSize then none
  else if segments.any fun s => !s.isCompleted && decide (s.offset = offset)
    then none
  else
    let candidates := (incomplete segments).filter fun i =>
      segments[i]?.any fun s =>
        decide (s.offset < offset) && decide (offset < s.offset + s.length)
    match candidates.argmin fun i => (segments[i]?.map Segment.offset).getD 0 with
    | none => none
    | some i =>
      match segments[i]? with
      | none => none
      | some sourceSegment =>
        let availableEnd := sourceSegment.offset + sourceSegment.downloaded
        if offset ≤ availableEnd then none
        else
          let segmentEnd := sourceSegment.offset + sourceSegment.length
          let newSegmentLength := segmentEnd - offset
          if newSegmentLength ≤ 0 then none
          else
            let cut := { sourceSegment with
              length := offset - sourceSegment.offset }
            some (segments.set i cut ++ [.fresh offset newSegmentLength],
              segments.length)

/-- The segment with the largest remaining byte count, if it has at least
2 MiB left. -/
def bestSegmentToSplit (segments : List Segment) : Option Nat :=
  match (incomplete segments).argmax fun i =>
      (segments[i]?.map fun s => s.length - s.downloaded).getD 0 with
  | none => none
  | some i =>
    match segments[i]? with
    | none => none
    | some s => if s.length - s.downloaded < 2 * 1024 * 1024 then none else some i

/-! ## States -/

/-- The program counter of `MonitorTasksAsync`. -/
inductive MonitorPc
  /-- At the cancellation test of the loop. -/
  | loopTest
  /-- At the test `TotalProgress < TotalSize`. -/
  | progressTest
  /-- At the lock section that picks a segment to start or to split. -/
  | decide
  /-- At the unlocked read of `remaining` for segment `i`. -/
  | readRemaining (i : Nat)
  /-- At the lock section of the split of segment `i`. -/
  | splitLock (i : Nat) (splitSize : Int)
  /-- At `Task.Run` for segment `i`. -/
  | start (i : Nat)
  /-- At the lock section of `StartDownloadTask` for segment `i`. -/
  | register (i : Nat)
  | delay
  | stopped
deriving DecidableEq, Repr

/-- The program counter of `ReadAt`, inside its loop or at the final lock
section. -/
inductive ReaderPc
  | availability
  /-- `Finished`, first read: `TotalProgress >= TotalSize`. -/
  | progressTest (availableBytes : Int)
  /-- `Finished`, second read: `!InProgress`. -/
  | inProgressTest (availableBytes : Int)
  | priority (availableBytes : Int)
  | final
deriving DecidableEq, Repr

/-- A `ReadAt` call that is past its early exits.  `requested` is the count
of the caller and `count` the one that the code cut to `remaining`. -/
structure ReadCall where
  position : Int
  requested : Int
  count : Int
  pc : ReaderPc
  priorityRequested : Bool
deriving DecidableEq, Repr

/-- A completed `ReadAt` call.  `allWritten` tells whether every byte that it
took from the backing buffer had been written by then. -/
structure ReadResult where
  position : Int
  requested : Int
  bytes : List UInt8
  allWritten : Bool
deriving DecidableEq, Repr

/-- The result of an early exit of `ReadAt`. -/
def ReadResult.empty (position requested : Int) : ReadResult :=
  { position, requested, bytes := [], allWritten := true }

structure State where
  segments : List Segment
  prioritySegmentOffset : Option Int
  cancelled : Bool
  monitor : MonitorPc
  readers : Nat → Option ReadCall
  buffer : Int → UInt8
  written : Int → Bool
  returned : List ReadResult

/-- The state that the constructor leaves: one segment for the whole
resource, with its task running. -/
def init (cfg : Config) : State where
  segments := [{ offset := 0, length := cfg.totalSize, downloaded := 0,
                 task := .outerLoop, registered := true }]
  prioritySegmentOffset := none
  cancelled := false
  monitor := .loopTest
  readers := fun _ => none
  buffer := cfg.initialBuffer
  written := fun _ => false
  returned := []

/-! ## The steps of the download tasks -/

def State.setSegment (s : State) (i : Nat) (seg : Segment) : State :=
  { s with segments := s.segments.set i seg }

/-- A step of the task of segment `i` without a chunk and without an
exception. -/
def taskStep (cfg : Config) (s : State) (i : Nat) : Option State :=
  match s.segments[i]? with
  | none => none
  | some seg =>
    (seg.task.next cfg s.cancelled seg).map fun task =>
      s.setSegment i { seg with task }

/-- An exception in the `try` block of the task: a failed connection, a
failed read, a cancelled read.  The handler disposes the connection and the
outer loop goes on. -/
def failStep (s : State) (i : Nat) : Option State :=
  match s.segments[i]? with
  | none => none
  | some seg =>
    match seg.task with
    | .connecting | .innerLoop _ | .innerTest _ | .reading _ _ =>
      some (s.setSegment i { seg with task := .outerLoop })
    | _ => none

/-- `ReadAsync` returns `read` bytes, and the lock section writes them to the
backing buffer at `Offset + Downloaded`. -/
def chunkStep (cfg : Config) (s : State) (i : Nat) (read : Int) :
    Option State :=
  match s.segments[i]? with
  | none => none
  | some seg =>
    match seg.task with
    | .reading vStream toRead =>
      if read < 0 ∨ read > maxChunk cfg vStream toRead then none
      else if read = 0 then
        some (s.setSegment i { seg with task := .innerLoop vStream })
      else
        let position := seg.offset + seg.downloaded
        let chunk := fun p =>
          cfg.origin (vStream.filePos + vStream.pos + (p - position))
        some { s with
          segments := s.segments.set i { seg with
            downloaded := seg.downloaded + read
            task := .innerLoop (vStream.advance read) }
          buffer := overlay s.buffer chunk position (position + read)
          written := overlay s.written (fun _ => true) position
            (position + read) }
    | _ => none

/-! ## The steps of the monitor -/

/-- The first half of the first lock section of `MonitorTasksAsync`: start a
segment at the requested offset, when the connection limit has room for it. -/
def createPriority (cfg : Config) (s : State) : State × Option Nat :=
  let active : Int := (incomplete s.segments).length
  match s.prioritySegmentOffset with
  | none => (s, none)
  | some offset =>
    if active < cfg.concurrency + 1 then
      match createSegmentAtOffsetUnsafe cfg s.segments offset with
      | none => ({ s with prioritySegmentOffset := none }, none)
      | some (segments, k) =>
        ({ s with segments, prioritySegmentOffset := none }, some k)
    else (s, none)

/-- The first lock section of `MonitorTasksAsync`. -/
def decideStep (cfg : Config) (s : State) : State :=
  let active : Int := (incomplete s.segments).length
  let (s, created) := createPriority cfg s
  let active := if created.isSome then active + 1 else active
  let best := if active < cfg.concurrency
    then bestSegmentToSplit s.segments else none
  { s with
    monitor := match created, best with
      | some k, _ => .start k
      | none, some i => .readRemaining i
      | none, none => .delay }

/-- The second lock section of `MonitorTasksAsync`: cut `splitSize` bytes off
segment `i`. -/
def splitStep (s : State) (i : Nat) (splitSize : Int) : Option State :=
  match s.segments[i]? with
  | none => none
  | some seg =>
    let newSegmentOffset := seg.offset + seg.length - splitSize
    let cut := { seg with length := seg.length - splitSize }
    some { s with
      segments := s.segments.set i cut ++ [.fresh newSegmentOffset splitSize]
      monitor := .start s.segments.length }

/-- A step of `MonitorTasksAsync` without an exception. -/
def monitorStep (cfg : Config) (s : State) : Option State :=
  match s.monitor with
  | .loopTest =>
    some { s with monitor := if s.cancelled then .stopped else .progressTest }
  | .progressTest =>
    some { s with monitor :=
      if totalProgress s.segments < cfg.totalSize then .decide else .stopped }
  | .decide => some (decideStep cfg s)
  | .readRemaining i =>
    s.segments[i]?.map fun seg =>
      { s with monitor := .splitLock i ((seg.length - seg.downloaded).tdiv 2) }
  | .splitLock i splitSize => splitStep s i splitSize
  | .start i =>
    s.segments[i]?.map fun seg =>
      { s.setSegment i { seg with task := .outerLoop } with
        monitor := .register i }
  | .register i =>
    s.segments[i]?.map fun seg =>
      { s.setSegment i { seg with registered := true } with monitor := .delay }
  | .delay =>
    some { s with monitor := if s.cancelled then .stopped else .loopTest }
  | .stopped => none

/-- An exception in the monitor, which cancels the download. -/
def monitorFailStep (s : State) : Option State :=
  if s.monitor = .stopped then none
  else some { s with monitor := .stopped, cancelled := true }

/-! ## The steps of the readers -/

/-- `RequestPrioritySegment(offset)`. -/
def requestPrioritySegment (cfg : Config) (s : State) (offset : Int) : State :=
  if offset ≤ 0 ∨ offset ≥ cfg.totalSize then s
  else if s.prioritySegmentOffset.all fun old => decide (offset < old) then
    { s with prioritySegmentOffset := some offset }
  else s

def State.setReader (s : State) (r : Nat) (c : Option ReadCall) : State :=
  { s with readers := fun q => if q = r then c else s.readers q }

/-- The entry of `ReadAt(position, buffer, offset, count)` on thread `r`. -/
def readAtStep (cfg : Config) (s : State) (r : Nat) (position count : Int) :
    Option State :=
  if position < 0 ∨ (s.readers r).isSome then none
  else if count ≤ 0 ∨ cfg.totalSize - position ≤ 0 then
    some { s with returned := s.returned ++ [.empty position count] }
  else
    let remaining := cfg.totalSize - position
    some (s.setReader r (some
      { position, requested := count
        count := if count > remaining then remaining else count
        pc := .availability, priorityRequested := false }))

/-- A step of the wait loop of `ReadAt`.  `slow` says whether the reader has
waited for `SlowReadPriorityDelay`. -/
def waitStep (cfg : Config) (s : State) (r : Nat) (slow : Bool) :
    Option State :=
  match s.readers r with
  | none => none
  | some c =>
    match c.pc with
    | .availability =>
      let availableBytes := getContiguousAvailableBytesUnsafe cfg s.segments
        c.position c.count
      some (s.setReader r (some { c with
        pc := if availableBytes ≥ c.count then .final
          else .progressTest availableBytes }))
    | .progressTest availableBytes =>
      some (s.setReader r (some { c with
        pc := if totalProgress s.segments ≥ cfg.totalSize
          then .inProgressTest availableBytes else .priority availableBytes }))
    | .inProgressTest availableBytes =>
      some (s.setReader r (some { c with
        pc := if inProgress s.segments then .priority availableBytes
          else .final }))
    | .priority availableBytes =>
      if !c.priorityRequested && slow then
        some ((requestPrioritySegment cfg s (c.position + availableBytes)).setReader
          r (some { c with pc := .availability, priorityRequested := true }))
      else some (s.setReader r (some { c with pc := .availability }))
    | .final => none

/-- The count of the final lock section of `ReadAt`. -/
def finalCount (cfg : Config) (s : State) (c : ReadCall) : Int :=
  let maxAvailable := getContiguousAvailableBytesUnsafe cfg s.segments
    c.position c.count
  if c.count > maxAvailable ∧ maxAvailable > 0 then maxAvailable else c.count

/-- What a call takes when `_writerStream.Read` returns `read` bytes. -/
def ReadResult.taken (s : State) (c : ReadCall) (read : Int) : ReadResult where
  position := c.position
  requested := c.requested
  bytes := slice s.buffer c.position read.toNat
  allWritten := (slice s.written c.position read.toNat).all id

/-- The final lock section of `ReadAt`.  `_writerStream.Read` returns between
one and `count` bytes, as any stream may before its end. -/
def deliverStep (cfg : Config) (s : State) (r : Nat) (read : Int) :
    Option State :=
  match s.readers r with
  | none => none
  | some c =>
    if c.pc ≠ .final ∨ read < 1 ∨ read > finalCount cfg s c then none
    else
      some { s.setReader r none with
        returned := s.returned ++ [.taken s c read] }

/-! ## The system -/

inductive Label
  /-- A step of the download task of segment `i`. -/
  | task (i : Nat)
  /-- A chunk of `read` bytes arrives for segment `i` and is committed. -/
  | chunk (i : Nat) (read : Int)
  /-- An exception in the download task of segment `i`. -/
  | fail (i : Nat)
  /-- A step of the monitor. -/
  | monitor
  /-- An exception in the monitor. -/
  | monitorFail
  /-- `Cancel()`, also through `Dispose`. -/
  | cancel
  /-- Thread `r` calls `ReadAt(position, buffer, offset, count)`. -/
  | readAt (r : Nat) (position count : Int)
  /-- Thread `r` takes a step of the wait loop of `ReadAt`. -/
  | wait (r : Nat) (slow : Bool)
  /-- Thread `r` runs the final lock section of `ReadAt`. -/
  | deliver (r : Nat) (read : Int)
deriving DecidableEq, Repr

def step (cfg : Config) (s : State) : Label → Option State
  | .task i => taskStep cfg s i
  | .chunk i read => chunkStep cfg s i read
  | .fail i => failStep s i
  | .monitor => monitorStep cfg s
  | .monitorFail => monitorFailStep s
  | .cancel => some { s with cancelled := true }
  | .readAt r position count => readAtStep cfg s r position count
  | .wait r slow => waitStep cfg s r slow
  | .deliver r read => deliverStep cfg s r read

/-- All interleavings of the threads of one `SegmentedStream`. -/
def system (cfg : Config) : Transition.System State Label where
  init := fun s => s = init cfg
  step := step cfg

/-! ## Concrete runs -/

/-- A resource of `size` bytes with value 7, over a buffer of zeros. -/
def sevens (size : Nat) : Config where
  totalSize := size
  origin := fun _ => 7
  initialBuffer := fun _ => 0
  totalSize_nonneg := Int.natCast_nonneg size
  bufferSize_pos := by decide

/-- The steps that take a task from its start to a read in flight. -/
def startReading (i : Nat) : List Label := List.replicate 5 (.task i)

end DirectPackageInstaller.SegmentedStream
