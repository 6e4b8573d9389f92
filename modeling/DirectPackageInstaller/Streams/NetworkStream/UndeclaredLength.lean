import DirectPackageInstaller.Streams.NetworkStream.Reads

/-!
# Bodies without a declared length

When the server sends no `Content-Length`, `HttpGetLength` stores -1 and
`HttpReader` finds the length out itself: the loop that fills the buffer stores
its byte count as the length when a `Read` has returned no byte.  A `Read`
returns none at the end of the body, and also when the buffer is full.

The connection does not fail here.  A response delivers the body in chunks of any
size, and it honours a range.

* `httpReader_first`: the first call takes its buffer's worth for the length.
* `delivered_iff`: the bodies that are delivered completely.
-/

namespace DirectPackageInstaller.NetworkStream.Undeclared

open Memory

/-- A resource whose server declares no length.  At a position of the body the
response of the given number offers so many bytes at once. -/
structure Resource where
  body : List UInt8
  chunk : Nat → Nat → Nat
  /-- `App.IsUnix`. -/
  isUnix : Bool
  chunk_pos : ∀ response position, 0 < chunk response position

/-- The byte at a position. -/
def Resource.content (r : Resource) (position : Nat) : UInt8 :=
  r.body.getD position 0

/-- The fields of `NetworkStream`.  The open response has the number `responses`
and ends at `responseEnd`. -/
structure State extends Stream where
  length : Option Int
  responses : Nat
  responseEnd : Nat

/-- The stream that the constructor makes. -/
def init : State where
  toStream := NetworkStream.init.stream
  length := none
  responses := 0
  responseEnd := 0

/-- `Length`.  The first use stores what `HttpGetLength` returns, the -1 of the
response or of `HeadCache`. -/
def State.getLength (s : State) : State :=
  { s with length := some (s.length.getD (-1)) }

/-! ## One call of the reader -/

/-- Why `GetResponse` is not reached or throws. -/
inductive RequestError
  /-- `AddRange` refuses its arguments. -/
  | argument
  /-- The status is `RequestedRangeNotSatisfiable`. -/
  | rangeNotSatisfiable
deriving DecidableEq, Repr

/-- A new response. -/
def State.respond (s : State) (start stop : Nat) : State :=
  { s with
    responseStream := some start
    responseEnd := stop
    responses := s.responses + 1 }

/-- The request of `HttpReader` for a known `Length`. -/
def State.request (r : Resource) (s : State) (length : Int) :
    Except RequestError State :=
  if length > 0 ∨ s.position > 0 then
    -- `AddRange(Position, Length - 1)`
    if (s.position : Int) > length - 1 then .error .argument
    else if s.position ≥ r.body.length then .error .rangeNotSatisfiable
    else .ok (s.respond s.position (min length.toNat r.body.length))
  else .ok (s.respond 0 r.body.length)

/-- The response that `HttpReader` reads from: a new one, or the open one where it
stands at `Position`. -/
def State.response (r : Resource) (s : State) (length : Int) :
    Except RequestError State :=
  if s.respPos ≠ s.position ∨ s.responseStream = none then s.request r length
  else .ok s

/-- The `do … while` loop of `HttpReader`.  A `Read` returns zero where the
response ends and where the buffer is full. -/
def readLoop (chunk : Nat → Nat) (start count available nread : Nat) : Nat :=
  let readed := min (chunk (start + nread)) (min (count - nread) (available - nread))
  if readed = 0 then nread
  else readLoop chunk start count available (nread + readed)
termination_by count - nread

/-- What the loop leaves: the response behind the bytes, and `length` when it was
unknown. -/
def State.received (s : State) (start nread : Nat) : State :=
  { s with
    responseStream := some (start + nread)
    length := if s.length = none ∨ s.length = some (-1) then some nread else s.length }

/-- `RespPos = Position + nread`. -/
def State.returning (s : State) (nread : Nat) : State :=
  { s with respPos := s.position + nread }

/-- The exception handlers close the response. -/
def State.closed (s : State) : State := { s with responseStream := none }

/-- `n` bytes of the body from `start` on, in `buffer` from `offset` on. -/
def copy (r : Resource) (buffer : Nat → UInt8) (offset start n : Nat) : Nat → UInt8 :=
  overlay buffer (fun i => r.content (start + (i - offset))) offset (offset + n)

/-- `HttpReader(buffer, ref offset, ref count, Tries)` with so many tries left.
The returned count is `none` for an exception. -/
def httpReader (r : Resource) (offset count : Nat) :
    Nat → State → (Nat → UInt8) → State × (Nat → UInt8) × Option Nat
  | triesLeft, s, buffer =>
    let s := s.getLength
    let length := s.length.getD (-1)
    if (s.position : Int) = length then (s, buffer, some 0)
    else
      match s.response r length with
      | .error e =>
        match triesLeft with
        | triesLeft + 1 => httpReader r offset count triesLeft s.closed buffer
        | 0 => (s.closed, buffer, if e = .rangeNotSatisfiable then some 0 else none)
      | .ok s =>
        let start := s.responseStream.getD 0
        let nread := readLoop (r.chunk s.responses) start count (s.responseEnd - start) 0
        let s := s.received start nread
        let buffer := copy r buffer offset start nread
        -- on Unix the position of a network stream cannot be read
        if r.isUnix ∧ nread = 0 ∧ count > nread then
          match triesLeft with
          | triesLeft + 1 => httpReader r offset count triesLeft s.closed buffer
          | 0 => (s.closed, buffer, none)
        else (s.returning nread, buffer, some nread)

/-! ## `Read` -/

/-- `Position += n`. -/
def State.advance (s : State) (n : Nat) : State :=
  { s with position := s.position + n }

/-- The loop of `Read` for a large request. -/
def largeLoop (r : Resource) (s : State) (buffer : Nat → UInt8) (offset count : Nat)
    (emptyTries : Int) : State × (Nat → UInt8) × Bool :=
  if count = 0 then (s, buffer, false)
  else
    match httpReader r offset count networkRetryCount s buffer with
    | (s, buffer, none) => (s, buffer, true)
    | (s, buffer, some readed) =>
      if readed = 0 then
        if emptyTries < 0 then (s, buffer, false)
        else largeLoop r s buffer offset count (emptyTries - 1)
      else largeLoop r (s.advance readed) buffer (offset + readed) (count - readed) 3
termination_by (count, (emptyTries + 2).toNat)

/-- `cachePosition = Position`. -/
def State.cacheHere (s : State) : State := { s with cachePosition := s.position }

/-- The cache holds `count` bytes. -/
def State.filled (s : State) (cache : Nat → UInt8) (count : Nat) : State :=
  { s with cache := cache, cacheCount := count }

/-- `Read(buffer, offset, count)` for a range inside the buffer.  The result tells
whether an exception ended it. -/
def read (r : Resource) (cacheLen : Nat) (s : State) (buffer : Nat → UInt8)
    (offset count : Nat) : State × (Nat → UInt8) × Bool :=
  if count = 0 then (s, buffer, false)
  else
    let hit := s.cacheHit count
    let buffer := s.fromCache buffer offset count
    let s := s.advance hit
    let offset := offset + hit
    let count := count - hit
    if count > cacheLen then largeLoop r s buffer offset count 3
    else if count > 0 then
      let s := s.cacheHere
      match httpReader r 0 cacheLen networkRetryCount s s.cache with
      | (s, cache, none) => ({ s with cache := cache }, buffer, true)
      | (s, cache, some nread) =>
        let s := s.filled cache nread
        (s.advance (s.cacheHit count), s.fromCache buffer offset count, false)
    else (s, buffer, false)

/-! ## The first call of the reader -/

variable {r : Resource}

theorem readLoop_eq {chunk : Nat → Nat} (hchunk : ∀ position, 0 < chunk position)
    (start count available nread : Nat) (hcount : nread ≤ count)
    (havailable : nread ≤ available) :
    readLoop chunk start count available nread = min count available := by
  induction nread using readLoop.induct chunk start count available with
  | case1 nread readed hzero =>
    have hpos := hchunk (start + nread)
    rw [readLoop, if_pos hzero]
    omega
  | case2 nread readed hne ih =>
    rw [readLoop, if_neg hne]
    exact ih (by omega) (by omega)

/-- The length is known, and the position is there. -/
theorem httpReader_end {s : State} {offset count triesLeft : Nat} {buffer : Nat → UInt8}
    (h : s.length = some (s.position : Int)) :
    httpReader r offset count triesLeft s buffer = (s, buffer, some 0) := by
  have hsame : s.getLength = s := by
    unfold State.getLength
    rw [h]
    cases s
    simp_all
  unfold httpReader
  simp only [hsame, h, Option.getD_some, if_true]

/-- The state after the first response has filled a buffer with `n` bytes. -/
structure Filled (s s' : State) (n : Nat) : Prop where
  length : s'.length = some (n : Int)
  position : s'.position = s.position
  cache : s'.cache = s.cache
  cachePosition : s'.cachePosition = s.cachePosition
  cacheCount : s'.cacheCount = s.cacheCount

theorem filled_received {s : State} (hlength : s.length = none) (stop n : Nat) :
    Filled s ((s.getLength.respond 0 stop).received 0 n) n where
  length := by simp [State.received, State.respond, State.getLength, hlength]
  position := rfl
  cache := rfl
  cachePosition := rfl
  cacheCount := rfl

/-- The first call takes its buffer's worth of the body for the length. -/
theorem httpReader_first {s : State} {offset count triesLeft : Nat} {buffer : Nat → UInt8}
    (hlength : s.length = none) (hposition : s.position = 0)
    (hclosed : s.responseStream = none) :
    ∃ s', httpReader r offset count (triesLeft + 1) s buffer =
        (s', copy r buffer offset 0 (min count r.body.length),
          some (min count r.body.length)) ∧
      Filled s s' (min count r.body.length) := by
  have hvalue : s.getLength.length.getD (-1) = -1 := by
    simp [State.getLength, hlength]
  have hstart : s.getLength.position = 0 := hposition
  have hresponse : s.getLength.response r (-1) =
      .ok (s.getLength.respond 0 r.body.length) := by
    have hclosed' : s.getLength.responseStream = none := hclosed
    unfold State.response
    rw [if_pos (Or.inr hclosed'), State.request, if_neg]
    omega
  have hloop : readLoop (r.chunk (s.getLength.respond 0 r.body.length).responses)
      ((s.getLength.respond 0 r.body.length).responseStream.getD 0) count
      ((s.getLength.respond 0 r.body.length).responseEnd -
        (s.getLength.respond 0 r.body.length).responseStream.getD 0) 0 =
        min count r.body.length :=
    readLoop_eq (r.chunk_pos _) 0 count _ 0 (Nat.zero_le _) (Nat.zero_le _)
  have hopen : (s.getLength.respond 0 r.body.length).responseStream.getD 0 = 0 := rfl
  have hfilled := filled_received hlength r.body.length (min count r.body.length)
  rw [httpReader]
  simp only [hvalue, hresponse, hloop]
  rw [if_neg (by omega), hopen]
  split
  · rename_i hempty
    -- the attempt throws, and the next one finds the end
    rw [hempty.2.1] at hfilled ⊢
    have hend : ((s.getLength.respond 0 r.body.length).received 0 0).closed.length =
        some ((s.getLength.respond 0 r.body.length).position : Int) := by
      rw [show (s.getLength.respond 0 r.body.length).position = 0 from hposition]
      exact hfilled.length
    exact ⟨_, httpReader_end hend, ⟨hfilled.length, hfilled.position, hfilled.cache,
      hfilled.cachePosition, hfilled.cacheCount⟩⟩
  · exact ⟨_, rfl, ⟨hfilled.length, hfilled.position, hfilled.cache, hfilled.cachePosition,
      hfilled.cacheCount⟩⟩

/-! ## Calls of `Read` -/

/-- The arguments of a call of `Read`. -/
structure Request where
  buffer : Nat → UInt8
  offset : Nat
  count : Nat

/-- A call of `Read`: the stream behind it, and the bytes that it returns, or
`none` for an exception. -/
def call (r : Resource) (cacheLen : Nat) (s : State) (q : Request) :
    State × Option (List UInt8) :=
  match read r cacheLen s q.buffer q.offset q.count with
  | (s', _, true) => (s', none)
  | (s', buffer, false) =>
    (s', some (slice buffer q.offset (s'.position - s.position)))

/-- The stream before each call of a sequence. -/
def stream (r : Resource) (cacheLen : Nat) (requests : Nat → Request) : Nat → State
  | 0 => init
  | n + 1 => (call r cacheLen (stream r cacheLen requests n) (requests n)).1

/-- What each call returns. -/
def returned (r : Resource) (cacheLen : Nat) (requests : Nat → Request) (n : Nat) :
    Option (List UInt8) :=
  (call r cacheLen (stream r cacheLen requests n) (requests n)).2

/-- The calls go on until one returns no byte, and what they return is the body. -/
def Delivered (r : Resource) (cacheLen : Nat) (requests : Nat → Request) : Prop :=
  ∃ n, returned r cacheLen requests n = some [] ∧
    (∀ i < n, ∃ bytes ≠ [], returned r cacheLen requests i = some bytes) ∧
    ((List.range n).flatMap fun i => (returned r cacheLen requests i).getD []) = r.body

/-- The byte count that the first call asks of the network. -/
def firstRequest (cacheLen count : Nat) : Nat :=
  if count > cacheLen then count else cacheLen

/-! ## After the first call -/

/-- The stream takes the first `n` bytes for the body.  Below them it reads from
the cache. -/
structure Settled (r : Resource) (n : Nat) (s : State) : Prop where
  length : s.length = some (n : Int)
  position_le : s.position ≤ n
  cache_le : s.cachePosition + s.cacheCount ≤ n
  cached : s.position < n → s.cachePosition = 0 ∧ s.cacheCount = n ∧
    ∀ i < n, s.cache i = r.content i

/-- At the end nothing comes from the network. -/
theorem largeLoop_end {s : State} (h : s.length = some (s.position : Int))
    (buffer : Nat → UInt8) (offset count : Nat) (emptyTries : Int) :
    largeLoop r s buffer offset count emptyTries = (s, buffer, false) := by
  unfold largeLoop
  split
  · rfl
  · simp only [httpReader_end h, if_true]
    split
    · rfl
    · exact largeLoop_end h buffer offset count (emptyTries - 1)
termination_by (emptyTries + 2).toNat

/-- What the cache gives to a call. -/
theorem Settled.cacheHit {n : Nat} {s : State} (h : Settled r n s) (count : Nat) :
    s.cacheHit count = min count (n - s.position) := by
  have hle := h.cache_le
  have hpos := h.position_le
  unfold Stream.cacheHit
  by_cases hin : s.position < n
  · obtain ⟨hstart, hcount, -⟩ := h.cached hin
    rw [if_neg (by omega), hstart, hcount]
    omega
  · rw [if_pos (by omega)]
    omega

theorem Settled.slice_fromCache {n : Nat} {s : State} (h : Settled r n s)
    (buffer : Nat → UInt8) (offset count : Nat) :
    slice (s.fromCache buffer offset count) offset (min count (n - s.position)) =
      slice r.content s.position (min count (n - s.position)) := by
  unfold Stream.fromCache
  rw [h.cacheHit, slice_copied le_rfl]
  by_cases hin : s.position < n
  · obtain ⟨hstart, -, hcontent⟩ := h.cached hin
    rw [hstart, Nat.sub_zero, slice_eq_slice_iff]
    intro i hi
    exact hcontent _ (by simp only [Nat.cast_id]; omega)
  · have hnone : n - s.position = 0 := by omega
    rw [hnone, Nat.min_zero]
    rfl

theorem Settled.advance {n : Nat} {s : State} (h : Settled r n s) {k : Nat}
    (hk : s.position + k ≤ n) : Settled r n (s.advance k) where
  length := h.length
  position_le := hk
  cache_le := h.cache_le
  cached := fun hlt => h.cached (Nat.lt_of_le_of_lt (Nat.le_add_right _ _) hlt)

/-- What a call reads from a settled stream, or from a new one that this call
settles. -/
structure Reads (r : Resource) (cacheLen n : Nat) (s : State) (q : Request) (s' : State) :
    Prop where
  settled : Settled r n s'
  position : s'.position = s.position + min q.count (n - s.position)
  call : call r cacheLen s q =
    (s', some (slice r.content s.position (min q.count (n - s.position))))

theorem call_of_read {cacheLen : Nat} {s s' : State} {q : Request} {buffer : Nat → UInt8}
    (h : read r cacheLen s q.buffer q.offset q.count = (s', buffer, false)) :
    call r cacheLen s q =
      (s', some (slice buffer q.offset (s'.position - s.position))) := by
  unfold call
  rw [h]

/-- What `Read` does after the cache has given what it has. -/
theorem Settled.rest {cacheLen n : Nat} {s : State} (h : Settled r n s)
    (hend : s.position = n) (buffer : Nat → UInt8) (offset count : Nat) :
    ∃ s', Settled r n s' ∧ s'.position = n ∧
      (if count > cacheLen then largeLoop r s buffer offset count 3
        else if count > 0 then
          match httpReader r 0 cacheLen networkRetryCount s.cacheHere s.cacheHere.cache with
          | (s, cache, none) => ({ s with cache := cache }, buffer, true)
          | (s, cache, some nread) =>
            ((s.filled cache nread).advance ((s.filled cache nread).cacheHit count),
              (s.filled cache nread).fromCache buffer offset count, false)
        else (s, buffer, false)) = (s', buffer, false) := by
  have hlength : s.length = some (s.position : Int) := hend ▸ h.length
  by_cases hlarge : count > cacheLen
  · refine ⟨s, h, hend, ?_⟩
    rw [if_pos hlarge, largeLoop_end hlength]
  · by_cases hsmall : count > 0
    · have hlength' : s.cacheHere.length = some (s.cacheHere.position : Int) := hlength
      have hsettled : Settled r n (s.cacheHere.filled s.cacheHere.cache 0) := by
        refine ⟨h.length, h.position_le, h.position_le, fun hlt => ?_⟩
        exact absurd hend (Nat.ne_of_lt hlt)
      have hhit : (s.cacheHere.filled s.cacheHere.cache 0).cacheHit count = 0 := by
        rw [hsettled.cacheHit]
        exact (congrArg (min count) (by rw [← hend]; exact Nat.sub_self _)).trans
          (Nat.min_zero count)
      refine ⟨_, hsettled, hend, ?_⟩
      rw [if_neg hlarge, if_pos hsmall, httpReader_end hlength']
      dsimp only
      rw [hhit, Stream.fromCache, hhit, Nat.add_zero, overlay_self]
      rfl
    · exact ⟨s, h, hend, by rw [if_neg hlarge, if_neg hsmall]⟩

theorem Settled.read {cacheLen n : Nat} {s : State} (h : Settled r n s) (q : Request)
    (hcount : 0 < q.count) : ∃ s', Reads r cacheLen n s q s' := by
  have hpos := h.position_le
  have hbytes := h.slice_fromCache q.buffer q.offset q.count
  have hafter : Settled r n (s.advance (min q.count (n - s.position))) :=
    h.advance (by omega)
  by_cases hall : q.count ≤ n - s.position
  · rw [Nat.min_eq_left hall] at hbytes hafter
    have hread : Undeclared.read r cacheLen s q.buffer q.offset q.count =
        (s.advance q.count, s.fromCache q.buffer q.offset q.count, false) := by
      unfold Undeclared.read
      simp only [h.cacheHit, Nat.min_eq_left hall, Nat.sub_self]
      rw [if_neg (by omega), if_neg (by omega), if_neg (by omega)]
    refine ⟨_, hafter, by rw [Nat.min_eq_left hall]; rfl, ?_⟩
    have hmoved : (s.advance q.count).position - s.position = q.count :=
      Nat.add_sub_cancel_left _ _
    rw [call_of_read hread, hmoved, hbytes, Nat.min_eq_left hall]
  · have hhit : min q.count (n - s.position) = n - s.position := by omega
    rw [hhit] at hbytes hafter
    have hend : (s.advance (n - s.position)).position = n := by
      show s.position + (n - s.position) = n
      omega
    obtain ⟨s', hsettled, hmoved, hrest⟩ := hafter.rest hend
      (s.fromCache q.buffer q.offset q.count) (q.offset + (n - s.position))
      (q.count - (n - s.position))
    have hread : Undeclared.read r cacheLen s q.buffer q.offset q.count =
        (s', s.fromCache q.buffer q.offset q.count, false) := by
      unfold Undeclared.read
      simp only [h.cacheHit, hhit]
      rw [if_neg (by omega)]
      exact hrest
    refine ⟨s', hsettled, by rw [hhit]; omega, ?_⟩
    rw [call_of_read hread, hmoved, hbytes, hhit]

/-! ## The first call of `Read` -/

/-- What the stream takes for the length of the body. -/
def seenLength (r : Resource) (cacheLen count : Nat) : Nat :=
  min (firstRequest cacheLen count) r.body.length

theorem slice_copy (buffer : Nat → UInt8) (offset start n : Nat) :
    slice (copy r buffer offset start n) offset n = slice r.content start n :=
  slice_copied le_rfl

theorem init_cacheHit (count : Nat) : init.cacheHit count = 0 :=
  if_pos (Or.inr (Nat.zero_le 0))

/-- The first loop of a large request goes on until it has seen the end. -/
theorem largeLoop_first {count start : Nat} (buffer : Nat → UInt8) (hcount : 0 < count) :
    ∃ s', largeLoop r (init.advance 0) buffer start count 3 =
        (s', copy r buffer start 0 (min count r.body.length), false) ∧
      s'.length = some (s'.position : Int) ∧ s'.position = min count r.body.length ∧
      s'.cachePosition + s'.cacheCount = 0 := by
  obtain ⟨s, hfirst, hfilled⟩ := @httpReader_first r (init.advance 0) start count 4 buffer
    rfl rfl rfl
  have hposition : s.position = 0 := hfilled.position
  have hcache : s.cachePosition + s.cacheCount = 0 := by
    rw [hfilled.cachePosition, hfilled.cacheCount]
    rfl
  rw [largeLoop, if_neg (Nat.ne_of_gt hcount)]
  simp only [show networkRetryCount = 4 + 1 from rfl, hfirst]
  by_cases hempty : min count r.body.length = 0
  · have hend : s.length = some (s.position : Int) := by
      rw [hfilled.length, hempty, hposition]
    rw [if_pos hempty, if_neg (by decide), largeLoop_end hend]
    exact ⟨s, rfl, hend, by rw [hposition, hempty], hcache⟩
  · have hmoved : (s.advance (min count r.body.length)).position =
        min count r.body.length := by
      show s.position + _ = _
      omega
    have hend : (s.advance (min count r.body.length)).length =
        some ((s.advance (min count r.body.length)).position : Int) := by
      rw [hmoved]
      exact hfilled.length
    rw [if_neg hempty, largeLoop_end hend]
    exact ⟨_, rfl, hend, hmoved, hcache⟩

/-- The first call for a large request. -/
theorem init_read_large {cacheLen : Nat} (q : Request) (hlarge : cacheLen < q.count) :
    ∃ s', Reads r cacheLen (min q.count r.body.length) init q s' := by
  obtain ⟨s', hloop, hend, hmoved, hcache⟩ := @largeLoop_first r q.count (q.offset + 0)
    (init.fromCache q.buffer q.offset q.count) (by omega)
  have hread : read r cacheLen init q.buffer q.offset q.count =
      (s', copy r (init.fromCache q.buffer q.offset q.count) (q.offset + 0) 0
        (min q.count r.body.length), false) := by
    unfold read
    simp only [init_cacheHit, Nat.sub_zero]
    rw [if_neg (by omega), if_pos hlarge]
    exact hloop
  have hmin : min q.count (min q.count r.body.length - init.position) =
      min q.count r.body.length := by
    show min q.count (min q.count r.body.length - 0) = _
    omega
  refine ⟨s', ⟨hmoved ▸ hend, hmoved.le, hcache.le.trans (Nat.zero_le _), fun hlt => ?_⟩, ?_, ?_⟩
  · exact absurd hmoved (Nat.ne_of_lt hlt)
  · rw [hmin, hmoved]
    exact (Nat.zero_add _).symm
  · have hbytes : s'.position - init.position = min q.count r.body.length := by
      rw [hmoved]
      rfl
    rw [call_of_read hread, hbytes, hmin]
    exact congrArg (fun bytes => (s', some bytes)) (slice_copy _ q.offset 0 _)

/-- The first call for a small request fills the cache. -/
theorem init_read_small {cacheLen : Nat} (q : Request) (hcount : 0 < q.count)
    (hsmall : q.count ≤ cacheLen) :
    ∃ s', Reads r cacheLen (min cacheLen r.body.length) init q s' := by
  obtain ⟨s, hfirst, hfilled⟩ := @httpReader_first r (init.advance 0).cacheHere 0
    cacheLen 4 (init.advance 0).cacheHere.cache rfl rfl rfl
  generalize hn : min cacheLen r.body.length = n at hfirst hfilled ⊢
  -- the cache stands at the start of the body
  obtain ⟨f, hf⟩ : ∃ f, f = s.filled (copy r (init.advance 0).cacheHere.cache 0 0 n) n :=
    ⟨_, rfl⟩
  have hposition : f.position = 0 := hf ▸ hfilled.position
  have hsettled : Settled r n f := by
    refine ⟨hf ▸ hfilled.length, hposition.le.trans (Nat.zero_le n), ?_,
      fun _ => ⟨hf ▸ hfilled.cachePosition, hf ▸ rfl, fun i hi => ?_⟩⟩
    · rw [hf]
      show s.cachePosition + n ≤ n
      rw [hfilled.cachePosition]
      exact (Nat.zero_add n).le
    · rw [hf]
      show copy r _ 0 0 n i = _
      unfold copy
      rw [overlay_inside (Nat.zero_le i) (by omega), Nat.sub_zero, Nat.zero_add]
  have hhit := hsettled.cacheHit q.count
  have hbytes := hsettled.slice_fromCache (init.fromCache q.buffer q.offset q.count)
    (q.offset + 0) q.count
  rw [hposition, Nat.sub_zero] at hhit hbytes
  have hread : read r cacheLen init q.buffer q.offset q.count =
      (f.advance (min q.count n),
        f.fromCache (init.fromCache q.buffer q.offset q.count) (q.offset + 0) q.count,
        false) := by
    unfold read
    simp only [init_cacheHit, Nat.sub_zero, show networkRetryCount = 4 + 1 from rfl, hfirst,
      ← hf, hhit]
    rw [if_neg (by omega), if_neg (by omega), if_pos hcount]
  have hmoved : (f.advance (min q.count n)).position = min q.count n := by
    show f.position + _ = _
    omega
  have hmin : min q.count (n - init.position) = min q.count n := rfl
  refine ⟨f.advance (min q.count n), hsettled.advance (by omega), ?_, ?_⟩
  · rw [hmin, hmoved]
    exact (Nat.zero_add _).symm
  · rw [call_of_read hread, hmoved, hmin]
    exact congrArg (fun bytes => (f.advance (min q.count n), some bytes)) hbytes

/-- The first call settles the stream. -/
theorem init_read {cacheLen : Nat} (q : Request) (hcount : 0 < q.count) :
    ∃ s', Reads r cacheLen (seenLength r cacheLen q.count) init q s' := by
  unfold seenLength firstRequest
  split
  · rename_i hlarge
    exact init_read_large q hlarge
  · rename_i hsmall
    exact init_read_small q hcount (Nat.le_of_not_lt hsmall)

/-! ## All calls -/

section Calls

variable {cacheLen : Nat} {requests : Nat → Request}

/-- Every call reads on in what the stream takes for the body. -/
theorem stream_reads (hcounts : ∀ i, 0 < (requests i).count) (i : Nat) :
    Reads r cacheLen (seenLength r cacheLen (requests 0).count)
      (stream r cacheLen requests i) (requests i) (stream r cacheLen requests (i + 1)) := by
  induction i with
  | zero =>
    obtain ⟨s', hreads⟩ : ∃ s', Reads r cacheLen _ init (requests 0) s' :=
      init_read (requests 0) (hcounts 0)
    have hs' : stream r cacheLen requests 1 = s' := congrArg Prod.fst hreads.call
    exact hs' ▸ hreads
  | succ i ih =>
    obtain ⟨s', hreads⟩ : ∃ s', Reads r cacheLen _ _ (requests (i + 1)) s' :=
      ih.settled.read (requests (i + 1)) (hcounts (i + 1))
    have hs' : stream r cacheLen requests (i + 2) = s' := congrArg Prod.fst hreads.call
    exact hs' ▸ hreads

theorem returned_eq (hcounts : ∀ i, 0 < (requests i).count) (i : Nat) :
    returned r cacheLen requests i =
      some (slice r.content (stream r cacheLen requests i).position
        (min (requests i).count (seenLength r cacheLen (requests 0).count -
          (stream r cacheLen requests i).position))) :=
  congrArg Prod.snd (stream_reads hcounts i).call

theorem position_le (hcounts : ∀ i, 0 < (requests i).count) (k : Nat) :
    (stream r cacheLen requests k).position ≤
      seenLength r cacheLen (requests 0).count := by
  cases k with
  | zero => exact Nat.zero_le _
  | succ k => exact (stream_reads hcounts k).settled.position_le

/-- Every call before the end reads a byte. -/
theorem le_position (hcounts : ∀ i, 0 < (requests i).count) (k : Nat) :
    min (seenLength r cacheLen (requests 0).count) k ≤
      (stream r cacheLen requests k).position := by
  induction k with
  | zero => exact (Nat.min_zero _).le
  | succ k ih =>
    have hpos := hcounts k
    rw [(stream_reads hcounts k).position]
    omega

theorem slice_content {position n : Nat} (h : position + n ≤ r.body.length) :
    slice r.content position n = (r.body.drop position).take n := by
  apply List.ext_getElem
  · simp only [slice_length, List.length_take, List.length_drop]
    omega
  · intro i hi hi'
    rw [slice_length] at hi
    have hlt : position + i < r.body.length := by omega
    simp only [slice, List.getElem_map, List.getElem_range, List.getElem_take,
      List.getElem_drop, Nat.cast_id, Resource.content, List.getD_eq_getElem?_getD,
      List.getElem?_eq_getElem hlt, Option.getD_some]

/-- What the calls have returned so far. -/
theorem returned_flatten (hcounts : ∀ i, 0 < (requests i).count) (k : Nat) :
    ((List.range k).flatMap fun i => (returned r cacheLen requests i).getD []) =
      r.body.take (stream r cacheLen requests k).position := by
  induction k with
  | zero => rfl
  | succ k ih =>
    have hle : (stream r cacheLen requests k).position ≤ _ := position_le hcounts k
    have hseen : seenLength r cacheLen (requests 0).count ≤ r.body.length :=
      Nat.min_le_right _ _
    rw [List.range_succ, List.flatMap_append, ih, List.flatMap_singleton,
      returned_eq hcounts, Option.getD_some, slice_content (by omega),
      (stream_reads hcounts k).position, List.take_add]

/-- The calls end where the stream takes the body to end. -/
theorem returned_nil_iff (hcounts : ∀ i, 0 < (requests i).count) (k : Nat) :
    returned r cacheLen requests k = some [] ↔
      (stream r cacheLen requests k).position =
        seenLength r cacheLen (requests 0).count := by
  have hpos := hcounts k
  have hle : (stream r cacheLen requests k).position ≤ _ := position_le hcounts k
  rw [returned_eq hcounts, Option.some.injEq, ← List.length_eq_zero_iff, slice_length]
  omega

theorem length_le_of_delivered (hcounts : ∀ i, 0 < (requests i).count)
    (h : Delivered r cacheLen requests) :
    r.body.length ≤ firstRequest cacheLen (requests 0).count := by
  obtain ⟨n, hend, -, hbody⟩ := h
  rw [returned_flatten hcounts, (returned_nil_iff hcounts n).1 hend] at hbody
  have hlength := congrArg List.length hbody
  rw [List.length_take] at hlength
  unfold seenLength at hlength
  omega

end Calls

/-- For every chunking, every size of the cache and every sequence of counts, the
body is delivered completely exactly when the first request to the network, which is
for the first count or for a whole cache, covers it. -/
theorem delivered_iff (r : Resource) (cacheLen : Nat) (requests : Nat → Request)
    (hcounts : ∀ i, 0 < (requests i).count) :
    Delivered r cacheLen requests ↔
      r.body.length ≤ firstRequest cacheLen (requests 0).count := by
  constructor
  · exact length_le_of_delivered hcounts
  · intro hcovers
    have hseen : seenLength r cacheLen (requests 0).count = r.body.length :=
      Nat.min_eq_right hcovers
    have hends : ∃ n, returned r cacheLen requests n = some [] := by
      refine ⟨r.body.length, (returned_nil_iff hcounts _).2 ?_⟩
      have hlow : _ ≤ (stream r cacheLen requests r.body.length).position :=
        le_position hcounts r.body.length
      have hhigh : (stream r cacheLen requests r.body.length).position ≤ _ :=
        position_le hcounts r.body.length
      omega
    classical
    refine ⟨Nat.find hends, Nat.find_spec hends, fun i hi => ?_, ?_⟩
    · refine ⟨_, fun hnil => Nat.find_min hends hi ?_, returned_eq hcounts i⟩
      rw [returned_eq hcounts, hnil]
    · rw [returned_flatten hcounts, (returned_nil_iff hcounts _).1 (Nat.find_spec hends),
        hseen, List.take_length]

/-- A body of two bytes that arrives byte by byte. -/
def twoBytes : Resource where
  body := [1, 2]
  chunk := fun _ _ => 1
  isUnix := false
  chunk_pos := fun _ _ => Nat.one_pos

/-- A call for so many bytes. -/
def Request.of (count : Nat) : Request where
  buffer := fun _ => 0
  offset := 0
  count := count

theorem delivered_twoBytes : Delivered twoBytes 4 fun _ => Request.of 1 :=
  (delivered_iff twoBytes 4 (fun _ => Request.of 1) (fun _ => Nat.one_pos)).2 (by decide)

/-- A body that is longer than the cache is cut off there. -/
theorem twoBytes_not_delivered : ¬ Delivered twoBytes 1 fun _ => Request.of 1 := by
  intro h
  have hlength := length_le_of_delivered (fun _ => Nat.one_pos) h
  exact absurd hlength (by decide)

end DirectPackageInstaller.NetworkStream.Undeclared
