import DirectPackageInstaller.Lib.Memory
import DirectPackageInstaller.Lib.Transition
import Mathlib.Data.Nat.Basic

/-!
# The HTTP stream with a read cache

`NetworkStream` reads a remote resource.  A request of more than `cacheLen`
bytes goes straight to the network, a smaller one fills the cache first.  Both
use `HttpReader`, which keeps the response of the last request open and
reuses it while the reader stays at its position, and which retries a failed
attempt `NetworkRetryCount` times.

The server honours `Range`, the length is known, and all URLs of the resource
serve the same content.  What the network does in a call of `Read` is a script
with one `Attempt` for each attempt that the call makes: `read` returns `none`
when the script is too short, and a step of the system takes a script that is
used up.  The NFS reader is not part of the model.
-/

namespace DirectPackageInstaller.NetworkStream

open Memory

/-- What does not change over the life of a stream. -/
structure Config where
  content : Nat → UInt8
  length : Nat
  cacheLen : Nat
  /-- `App.IsUnix`. -/
  isUnix : Bool
  length_pos : 0 < length
  cacheLen_pos : 0 < cacheLen

/-- `TransferTuning.NetworkRetryCount`. -/
def networkRetryCount : Nat := 5

/-- What the network does in one attempt of `HttpReader`. -/
structure Attempt where
  /-- `GetResponse` returns.  When it does not, or when a reused response
  fails at once, the attempt throws before any byte. -/
  opens : Bool
  /-- The sizes that the successive calls of `ResponseStream.Read` offer;
  zero is the end of the response. -/
  chunks : List Nat
  /-- After the chunks the response ends (`none`), or the next `Read` throws
  when it has copied `some extra` more bytes. -/
  failure : Option Nat
  /-- An exception of this attempt is a `WebException` with the status
  `RequestedRangeNotSatisfiable`. -/
  rangeError : Bool
deriving DecidableEq, Repr

/-- The fields of `NetworkStream`.  `responseStream` is the position in the
resource where the open response stands. -/
structure Stream where
  position : Nat
  cache : Nat → UInt8
  cachePosition : Nat
  cacheCount : Nat
  responseStream : Option Nat
  respPos : Nat

/-! ## One attempt -/

/-- The end of the `do … while` loop of `HttpReader`: the bytes that it
counts, the bytes that it has copied to the buffer, and whether a `Read`
threw. -/
structure LoopEnd where
  nread : Nat
  received : Nat
  threw : Bool
deriving DecidableEq, Repr

/-- The `do … while` loop of `HttpReader`.  `available` is what the response
has after its position.  Each `Read` copies behind the one before. -/
def readLoop (count available : Nat) (failure : Option Nat) :
    List Nat → Nat → LoopEnd
  | [], nread =>
    if nread = count then { nread, received := nread, threw := false }
    else
      match failure with
      | none => { nread, received := nread, threw := false }
      | some extra =>
        { nread
          received := nread + min extra (min (count - nread) (available - nread))
          threw := true }
  | chunk :: chunks, nread =>
    if nread = count then { nread, received := nread, threw := false }
    else
      let readed := min chunk (min (count - nread) (available - nread))
      if readed = 0 then { nread, received := nread, threw := false }
      else readLoop count available failure chunks (nread + readed)

/-- What an attempt to read `count` bytes delivers. -/
def Attempt.run (a : Attempt) (count available : Nat) : LoopEnd :=
  if a.opens then readLoop count available a.failure a.chunks 0
  else { nread := 0, received := 0, threw := true }

/-- The attempt ends without an exception.  On Unix an attempt without any
byte throws, since the position of a network stream cannot be read. -/
def Attempt.completes (cfg : Config) (a : Attempt) (count available : Nat) :
    Bool :=
  !(a.run count available).threw &&
    !(cfg.isUnix && decide ((a.run count available).nread = 0))

/-- `n` bytes of the resource from position `start` on, in `buffer` from
`offset` on. -/
def receive (cfg : Config) (buffer : Nat → UInt8) (offset start n : Nat) :
    Nat → UInt8 :=
  overlay buffer (fun i => cfg.content (start + (i - offset))) offset
    (offset + n)

/-- Where the response stands that an attempt reads from: a reused one where
it is, a new one at `Position`. -/
def Stream.responseStart (s : Stream) : Nat :=
  match s.responseStream with
  | none => s.position
  | some at_ => if s.respPos = s.position then at_ else s.position

/-- One pass through the `try` block of `HttpReader`, below the test
`Position == Length`.  `none` is an exception; its handlers drop the
response. -/
def httpAttempt (cfg : Config) (s : Stream) (buffer : Nat → UInt8)
    (offset count : Nat) (a : Attempt) :
    Stream × (Nat → UInt8) × Option Nat :=
  let start := s.responseStart
  let result := a.run count (cfg.length - start)
  let buffer := receive cfg buffer offset start result.received
  if a.completes cfg count (cfg.length - start) then
    ({ s with responseStream := some (start + result.nread)
              respPos := s.position + result.nread },
      buffer, some result.nread)
  else ({ s with responseStream := none }, buffer, none)

/-- `HttpReader(buffer, ref offset, ref count, Tries)` with `triesLeft`
retries left.  The result holds the stream, the buffer, the returned count
(`none` for an exception) and the rest of the script. -/
def httpReader (cfg : Config) (offset count : Nat) :
    Nat → Stream → (Nat → UInt8) → List Attempt →
      Option (Stream × (Nat → UInt8) × Option Nat × List Attempt)
  | triesLeft, s, buffer, script =>
    if s.position = cfg.length then some (s, buffer, some 0, script)
    else
      match script with
      | [] => none
      | a :: rest =>
        match httpAttempt cfg s buffer offset count a with
        | (s, buffer, some nread) => some (s, buffer, some nread, rest)
        | (s, buffer, none) =>
          match triesLeft with
          | triesLeft + 1 => httpReader cfg offset count triesLeft s buffer rest
          | 0 => some (s, buffer, if a.rangeError then some 0 else none, rest)

/-! ## `Read` -/

/-- The byte count that `ReadFromCache` copies. -/
def Stream.cacheHit (s : Stream) (count : Nat) : Nat :=
  if s.cachePosition > s.position ∨
      s.cachePosition + s.cacheCount ≤ s.position then 0
  else min (s.cacheCount - (s.position - s.cachePosition)) count

/-- What `ReadFromCache` leaves in the buffer of the caller. -/
def Stream.fromCache (s : Stream) (buffer : Nat → UInt8)
    (offset count : Nat) : Nat → UInt8 :=
  overlay buffer
    (fun i => s.cache (s.position - s.cachePosition + (i - offset))) offset
    (offset + s.cacheHit count)

/-- `Position += n`. -/
def Stream.advance (s : Stream) (n : Nat) : Stream :=
  { s with position := s.position + n }

/-- The loop of `Read` for a large request.  The result tells whether an
exception ended it. -/
def largeLoop (cfg : Config) (s : Stream) (buffer : Nat → UInt8)
    (offset count : Nat) (emptyTries : Int) (script : List Attempt) :
    Option (Stream × (Nat → UInt8) × Bool × List Attempt) :=
  if count = 0 then some (s, buffer, false, script)
  else
    match httpReader cfg offset count networkRetryCount s buffer script with
    | none => none
    | some (s, buffer, none, rest) => some (s, buffer, true, rest)
    | some (s, buffer, some readed, rest) =>
      if readed = 0 then
        if emptyTries < 0 then some (s, buffer, false, rest)
        else largeLoop cfg s buffer offset count (emptyTries - 1) rest
      else largeLoop cfg (s.advance readed) buffer (offset + readed)
        (count - readed) 3 rest
termination_by (count, (emptyTries + 2).toNat)

/-- `Read(buffer, offset, count)` for a range inside the buffer.  The result
tells whether an exception ended it. -/
def read (cfg : Config) (s : Stream) (buffer : Nat → UInt8)
    (offset count : Nat) (script : List Attempt) :
    Option (Stream × (Nat → UInt8) × Bool × List Attempt) :=
  if count = 0 then some (s, buffer, false, script)
  else
    let hit := s.cacheHit count
    let buffer := s.fromCache buffer offset count
    let s := s.advance hit
    let offset := offset + hit
    let count := count - hit
    if count > cfg.cacheLen then
      largeLoop cfg s buffer offset count 3 script
    else if count > 0 then
      let s := { s with cachePosition := s.position }
      match httpReader cfg 0 cfg.cacheLen networkRetryCount s s.cache script with
      | none => none
      | some (s, cache, none, rest) => some ({ s with cache }, buffer, true, rest)
      | some (s, cache, some nread, rest) =>
        let s := { s with cache, cacheCount := nread }
        some (s.advance (s.cacheHit count), s.fromCache buffer offset count,
          false, rest)
    else some (s, buffer, false, script)

/-! ## The system -/

/-- The cache agrees with the resource: `cache[i]` is the byte at
`cachePosition + i`, for every `i < cacheCount`. -/
def Stream.CacheValid (cfg : Config) (s : Stream) : Prop :=
  ∀ i < s.cacheCount, s.cachePosition + i < cfg.length ∧
    s.cache i = cfg.content (s.cachePosition + i)

instance (cfg : Config) (s : Stream) : Decidable (s.CacheValid cfg) :=
  inferInstanceAs (Decidable (∀ i < s.cacheCount, _))

/-- What a call of `Read` did.  `returned` is `TotalReaded`, and `bytes` is
what the caller finds in that part of the buffer.  `cacheValid` tells whether
the cache agrees with the resource when the call is over. -/
structure ReadLog where
  start : Nat
  count : Nat
  threw : Bool
  returned : Nat
  position : Nat
  bytes : List UInt8
  cacheValid : Bool
deriving DecidableEq, Repr

def ReadLog.of (cfg : Config) (s s' : Stream) (buffer : Nat → UInt8)
    (offset count : Nat) (threw : Bool) : ReadLog where
  start := s.position
  count := count
  threw := threw
  returned := s'.position - s.position
  position := s'.position
  bytes := slice buffer offset (s'.position - s.position)
  cacheValid := decide (s'.CacheValid cfg)

structure State where
  stream : Stream
  log : List ReadLog

/-- The stream that the constructor makes. -/
def init : State where
  stream := { position := 0, cache := fun _ => 0, cachePosition := 0,
              cacheCount := 0, responseStream := none, respPos := 0 }
  log := []

inductive SeekOrigin
  | begin
  | current
  | end_
deriving DecidableEq, Repr

/-- The position that `Seek(pos, origin)` assigns. -/
def seekTarget (cfg : Config) (s : Stream) (pos : Int) : SeekOrigin → Int
  | .begin => pos
  | .current => s.position + pos
  | .end_ => cfg.length + pos

inductive Label
  /-- `Position = value`. -/
  | setPosition (value : Nat)
  /-- `Seek(pos, origin)`. -/
  | seek (pos : Int) (origin : SeekOrigin)
  /-- `Read(buffer, offset, count)` over a network that follows the script.
  The call ends with an exception or without one, as `threw` says. -/
  | read (threw : Bool) (buffer : Nat → UInt8) (offset count : Nat)
    (script : List Attempt)

/-- `Read` as a step: it uses up the script and ends as `threw` says. -/
def readStep (cfg : Config) (s : State) (threw : Bool) (buffer : Nat → UInt8)
    (offset count : Nat) (script : List Attempt) : Option State :=
  match read cfg s.stream buffer offset count script with
  | some (stream, buffer, ended, []) =>
    if ended = threw then
      some { stream, log := s.log ++
        [.of cfg s.stream stream buffer offset count threw] }
    else none
  | _ => none

/-- Positions are set inside `[0, Length]` only. -/
def step (cfg : Config) (s : State) : Label → Option State
  | .setPosition value =>
    if value ≤ cfg.length then
      some { s with stream := { s.stream with position := value } }
    else none
  | .seek pos origin =>
    let target := seekTarget cfg s.stream pos origin
    if 0 ≤ target ∧ target ≤ cfg.length then
      some { s with stream := { s.stream with position := target.toNat } }
    else none
  | .read threw buffer offset count script =>
    readStep cfg s threw buffer offset count script

/-- One reader on one `NetworkStream`. -/
def system (cfg : Config) : Transition.System State Label where
  init := fun s => s = init
  step := step cfg

end DirectPackageInstaller.NetworkStream
