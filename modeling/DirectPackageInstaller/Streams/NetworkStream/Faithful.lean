import DirectPackageInstaller.Streams.NetworkStream.Reads

/-!
# Reads agree with the resource

As long as no read throws, `Read` cannot be told from a direct read of the
resource.  The invariant is `Good`: the position lies in the resource, an open
response stands where `RespPos` says, and the cache holds bytes of the
resource.

* `read_cases`: the four ways through `Read`.
* `read_returns`: a read that returns keeps the invariant and delivers what a
  direct read delivers.
* `reads_faithful`: every read of every run without an exception does.
-/

namespace DirectPackageInstaller.NetworkStream

open Memory Transition

variable {cfg : Config}

/-! ## The ways through `Read` -/

/-- The stream that `Read` gives to `HttpReader` to fill the cache. -/
def Stream.beforeFill (s : Stream) (count : Nat) : Stream :=
  { s.advance (s.cacheHit count) with
    cachePosition := s.position + s.cacheHit count }

/-- The stream with the cache that `HttpReader` has filled. -/
def Stream.filled (m : Stream) (cache : Nat → UInt8) (nread : Nat) : Stream :=
  { m with cache, cacheCount := nread }

inductive ReadCase (cfg : Config) (s : Stream) (buffer : Nat → UInt8)
    (offset count : Nat) (script : List Attempt) :
    Stream → (Nat → UInt8) → Bool → List Attempt → Prop
  /-- The cache holds all that is asked for. -/
  | cached (hcount : count = s.cacheHit count) :
    ReadCase cfg s buffer offset count script (s.advance (s.cacheHit count))
      (s.fromCache buffer offset count) false script
  /-- A large request bypasses the cache. -/
  | large {s' : Stream} {buffer' : Nat → UInt8} {threw : Bool}
      {rest : List Attempt}
      (hcount : cfg.cacheLen < count - s.cacheHit count)
      (hloop : largeLoop cfg (s.advance (s.cacheHit count))
        (s.fromCache buffer offset count) (offset + s.cacheHit count)
        (count - s.cacheHit count) 3 script = some (s', buffer', threw, rest)) :
    ReadCase cfg s buffer offset count script s' buffer' threw rest
  /-- A small request fills the cache and takes the rest from it. -/
  | small {m : Stream} {cache : Nat → UInt8} {nread : Nat}
      {rest : List Attempt}
      (hpos : 0 < count - s.cacheHit count)
      (hcount : count - s.cacheHit count ≤ cfg.cacheLen)
      (hreader : httpReader cfg 0 cfg.cacheLen networkRetryCount
        (s.beforeFill count) s.cache script = some (m, cache, some nread, rest)) :
    ReadCase cfg s buffer offset count script
      ((m.filled cache nread).advance
        ((m.filled cache nread).cacheHit (count - s.cacheHit count)))
      ((m.filled cache nread).fromCache (s.fromCache buffer offset count)
        (offset + s.cacheHit count) (count - s.cacheHit count)) false rest
  /-- The cache could not be filled. -/
  | notFilled {m : Stream} {cache : Nat → UInt8} {rest : List Attempt}
      (hpos : 0 < count - s.cacheHit count)
      (hcount : count - s.cacheHit count ≤ cfg.cacheLen)
      (hreader : httpReader cfg 0 cfg.cacheLen networkRetryCount
        (s.beforeFill count) s.cache script = some (m, cache, none, rest)) :
    ReadCase cfg s buffer offset count script { m with cache }
      (s.fromCache buffer offset count) true rest

theorem read_cases {s s' : Stream} {buffer buffer' : Nat → UInt8}
    {offset count : Nat} {script rest : List Attempt} {threw : Bool}
    (h : read cfg s buffer offset count script =
      some (s', buffer', threw, rest)) :
    ReadCase cfg s buffer offset count script s' buffer' threw rest := by
  have hhit := cacheHit_le_count s count
  unfold read at h
  split at h
  · rename_i hcount
    cases h
    have hzero : s.cacheHit count = 0 := by omega
    have hbuffer : s.fromCache buffer offset count = buffer := by
      unfold Stream.fromCache
      rw [hzero]
      exact overlay_self _ _ _
    have hcase : ReadCase cfg s buffer offset count script _ _ _ _ :=
      .cached (hcount.trans hzero.symm)
    rw [hbuffer, hzero] at hcase
    exact hcase
  · dsimp only at h
    split at h
    · rename_i hlarge
      exact .large hlarge h
    · rename_i hlarge
      split at h
      · rename_i hpos
        split at h
        · cases h
        · rename_i m cache rest hreader
          cases h
          exact .notFilled hpos (by omega) hreader
        · rename_i m cache nread rest hreader
          cases h
          exact .small hpos (by omega) hreader
      · cases h
        exact .cached (by omega)

/-! ## Reads that return -/

/-- What a direct read of the resource returns: at most `count` bytes of the
resource from `start` on, and the position behind them. -/
structure ReadLog.Direct (cfg : Config) (e : ReadLog) : Prop where
  returned_le : e.returned ≤ e.count
  inside : e.start + e.returned ≤ cfg.length
  position_eq : e.position = e.start + e.returned
  bytes_eq : e.bytes = slice cfg.content e.start e.returned

/-- A buffer with enough bytes of the resource makes a direct read. -/
theorem direct_of_receive {s s' : Stream} {buffer buffer' : Nat → UInt8}
    {offset count copied : Nat} {threw : Bool} (hok : StreamOk cfg s')
    (hbuffer : buffer' = receive cfg buffer offset s.position copied)
    (hge : s.position ≤ s'.position) (hle : s'.position ≤ s.position + copied)
    (hcount : s'.position ≤ s.position + count) :
    (ReadLog.of cfg s s' buffer' offset count threw).Direct cfg := by
  have hposition := hok.position_le
  refine ⟨?_, ?_, ?_, ?_⟩ <;> simp only [ReadLog.of]
  · omega
  · omega
  · omega
  · rw [hbuffer]
    exact slice_receive (by omega)

theorem Good.beforeFill {s : Stream} (count : Nat) (hs : Good cfg s) :
    StreamOk cfg (s.beforeFill count) :=
  ⟨(hs.advance_hit count).position_le, hs.ok.response⟩

/-- A filled cache is valid, whatever it held before. -/
theorem HttpResult.filled {s m : Stream} {cache : Nat → UInt8}
    {used : List Attempt} {count nread copied : Nat}
    (h : HttpResult cfg (s.beforeFill count) s.cache 0 cfg.cacheLen used copied
      m cache (some nread)) :
    Good cfg (m.filled cache nread) := by
  refine ⟨⟨h.ok.position_le, h.ok.response⟩, ?_⟩
  intro i hi
  have hle := h.out_le nread rfl
  have hinside := h.fetched.inside
  simp only [Stream.filled] at hi ⊢
  have hpos : m.cachePosition = (s.beforeFill count).position :=
    h.same.cachePosition
  rw [hpos, h.buffer_eq]
  refine ⟨by omega, ?_⟩
  unfold receive
  rw [overlay_inside (Nat.zero_le _) (by omega), Nat.sub_zero]

theorem read_returns {s s' : Stream} {buffer buffer' : Nat → UInt8}
    {offset count : Nat} {script rest : List Attempt} (hs : Good cfg s)
    (h : read cfg s buffer offset count script =
      some (s', buffer', false, rest)) :
    Good cfg s' ∧
      (ReadLog.of cfg s s' buffer' offset count false).Direct cfg := by
  have hhit := cacheHit_le_count s count
  have hbuffer := hs.fromCache_eq buffer offset count
  cases read_cases h with
  | cached hcount =>
    have hok := hs.advance_hit count
    refine ⟨⟨hok, hs.cache⟩, direct_of_receive hok hbuffer ?_ le_rfl ?_⟩
    · exact Nat.le_add_right _ _
    · exact Nat.add_le_add_left hhit _
  | large hcount hloop =>
    obtain ⟨used, copied, -, hresult⟩ := largeLoop_spec (hs.advance_hit count) hloop
    have hge := hresult.position_ge
    have hle := hresult.position_le
    have hmore := hresult.copied_le
    have hbuffer' := hresult.buffer_eq
    simp only [Stream.advance] at hge hle hbuffer'
    rw [hbuffer, receive_receive le_rfl] at hbuffer'
    refine ⟨⟨hresult.ok, ?_⟩, direct_of_receive hresult.ok hbuffer' ?_ ?_ ?_⟩
    · intro i hi
      rw [hresult.cacheCount] at hi
      rw [hresult.cachePosition, hresult.cache]
      exact hs.cache i hi
    all_goals omega
  | @small m cache nread _ hpos hcount hreader =>
    obtain ⟨used, copied, -, hresult⟩ :=
      httpReader_spec _ (hs.beforeFill count) hreader
    have hgood := hresult.filled
    have hok := hgood.advance_hit (count - s.cacheHit count)
    have hsecond := cacheHit_le_count (m.filled cache nread)
      (count - s.cacheHit count)
    have hposition : (m.filled cache nread).position =
        s.position + s.cacheHit count := hresult.same.position
    have hbuffer' := hgood.fromCache_eq (s.fromCache buffer offset count)
      (offset + s.cacheHit count) (count - s.cacheHit count)
    rw [hbuffer, hposition, receive_receive le_rfl] at hbuffer'
    refine ⟨⟨hok, hgood.cache⟩, direct_of_receive hok (hbuffer ▸ hbuffer') ?_ ?_ ?_⟩
    all_goals
      simp only [Stream.advance, hposition]
      omega

/-! ## Runs -/

/-- The label is no read that throws. -/
def Label.Returns : Label → Prop
  | .read threw _ _ _ _ => threw = false
  | _ => True

theorem init_good (cfg : Config) : Good cfg init.stream := by
  refine ⟨⟨Nat.zero_le _, ?_⟩, ?_⟩
  · intro at_ hopen
    cases hopen
  · intro i hi
    cases hi

theorem Good.setPosition {s : Stream} {value : Nat} (hs : Good cfg s)
    (h : value ≤ cfg.length) : Good cfg { s with position := value } :=
  ⟨⟨h, hs.ok.response⟩, hs.cache⟩

/-- What a step does to the stream and the log. -/
inductive StepCase (cfg : Config) (s s' : State) : Label → Prop
  /-- The position is set. -/
  | moved {l : Label} (hl : l.Returns) (value : Nat) (hvalue : value ≤ cfg.length)
      (hstream : s'.stream = { s.stream with position := value })
      (hlog : s'.log = s.log) : StepCase cfg s s' l
  /-- `Read` runs to its end. -/
  | read (threw : Bool) (buffer buffer' : Nat → UInt8) (offset count : Nat)
      (script : List Attempt)
      (hread : read cfg s.stream buffer offset count script =
        some (s'.stream, buffer', threw, []))
      (hlog : s'.log = s.log ++
        [.of cfg s.stream s'.stream buffer' offset count threw]) :
      StepCase cfg s s' (.read threw buffer offset count script)

theorem step_cases {s s' : State} {l : Label} (h : step cfg s l = some s') :
    StepCase cfg s s' l := by
  cases l with
  | setPosition value =>
    simp only [step, Option.ite_none_right_eq_some, Option.some.injEq] at h
    obtain ⟨hvalue, rfl⟩ := h
    exact .moved trivial value hvalue rfl rfl
  | seek pos origin =>
    simp only [step, Option.ite_none_right_eq_some, Option.some.injEq] at h
    obtain ⟨htarget, rfl⟩ := h
    exact .moved trivial (seekTarget cfg s.stream pos origin).toNat (by omega)
      rfl rfl
  | read threw buffer offset count script =>
    simp only [step, readStep] at h
    split at h
    · rename_i stream buffer' ended hread
      split at h
      · rename_i hended
        subst hended
        cases h
        exact .read ended buffer buffer' offset count script hread rfl
      · cases h
    · cases h

/-- Without a read that throws, the cache stays valid and every read in the
log is a direct one. -/
theorem returns_keep {s s' : State} {l : Label}
    (h : Good cfg s.stream ∧ ∀ e ∈ s.log, e.Direct cfg) (hl : l.Returns)
    (hstep : step cfg s l = some s') :
    Good cfg s'.stream ∧ ∀ e ∈ s'.log, e.Direct cfg := by
  cases step_cases hstep with
  | moved _ value hvalue hstream hlog =>
    rw [hstream, hlog]
    exact ⟨h.1.setPosition hvalue, h.2⟩
  | read threw buffer buffer' offset count script hread hlog =>
    cases (show threw = false from hl)
    obtain ⟨hgood, hdirect⟩ := read_returns h.1 hread
    refine ⟨hgood, ?_⟩
    intro e he
    rw [hlog, List.mem_append, List.mem_singleton] at he
    rcases he with he | rfl
    · exact h.2 e he
    · exact hdirect

/-- Where a caller who stands at `position` wants to be. -/
def Label.wanted (cfg : Config) (position : Nat) : Label → Option Int
  | .setPosition value => some value
  | .seek pos .begin => some pos
  | .seek pos .current => some (position + pos)
  | .seek pos .end_ => some (cfg.length + pos)
  | .read .. => none

theorem step_wanted {s s' : State} {l : Label} {p : Int} (h : step cfg s l = some s')
    (hp : l.wanted cfg s.stream.position = some p) : s'.stream.position = p := by
  cases l with
  | setPosition value =>
    simp only [step, Option.ite_none_right_eq_some, Option.some.injEq] at h
    obtain ⟨-, rfl⟩ := h
    exact Option.some.inj hp
  | seek pos origin =>
    simp only [step, Option.ite_none_right_eq_some, Option.some.injEq] at h
    obtain ⟨⟨hlo, -⟩, rfl⟩ := h
    refine (Int.toNat_of_nonneg hlo).trans ?_
    cases origin <;> exact Option.some.inj hp
  | read threw buffer offset count script => cases hp

/-- In every run in which no read throws, each read that starts at position
`p` and returns `n` leaves exactly the bytes `[p, p + n)` of the resource in
the caller's buffer, with `n` at most the requested count, and ends at
position `p + n`: cached, uncached and reconnecting reads are direct reads.
A seek goes where it is meant to go. -/
theorem reads_faithful {s : State}
    (hs : (system cfg).ReachableWhere (fun _ l => l.Returns) s) :
    (∀ e ∈ s.log, e.Direct cfg) ∧
      ∀ l s' p, step cfg s l = some s' → l.wanted cfg s.stream.position = some p →
        s'.stream.position = p := by
  refine ⟨?_, fun l s' p => step_wanted⟩
  have h := hs.invariant (fun s => Good cfg s.stream ∧ ∀ e ∈ s.log, e.Direct cfg)
    ?_ fun s l s' h hl hstep => returns_keep h hl hstep
  · exact h.2
  · intro s hinit
    rw [show s = init from hinit]
    refine ⟨init_good cfg, ?_⟩
    intro e he
    cases he

/-- Ten bytes, each with its position as its value, behind a cache of four. -/
def countingBytes : Config where
  content i := UInt8.ofNat i
  length := 10
  cacheLen := 4
  isUnix := false
  length_pos := by decide
  cacheLen_pos := by decide

/-- A connection that is refused. -/
def refused : Attempt where
  opens := false
  chunks := []
  failure := none
  rangeError := false

/-- A connection that serves all that is asked for. -/
def served : Attempt where
  opens := true
  chunks := [10]
  failure := none
  rangeError := false

/-- A connection that breaks after three bytes and is opened again, and a
read that takes two bytes from the cache and four from the network. -/
def retryRun : List Label :=
  [.read false (fun _ => 0) 0 2
      [{ opens := true, chunks := [1], failure := some 2, rangeError := false },
        refused, served],
    .seek 0 .current,
    .read false (fun _ => 0) 3 6 [served]]

/-- The state that `retryRun` ends in. -/
def retryEnd : State :=
  ((system countingBytes).run init retryRun).get (by decide +kernel)

theorem reads_faithful_retryEnd :
    retryEnd.log.map ReadLog.bytes = [[0, 1], [2, 3, 4, 5, 6, 7]] ∧
      ∀ e ∈ retryEnd.log, e.Direct countingBytes := by
  refine ⟨by decide +kernel, (reads_faithful ?_).1⟩
  refine System.reachableWhere_of_run (.init rfl) (Option.some_get _).symm ?_
  exact System.stepsMeet_of_forall (by simp [retryRun, Label.Returns]) init

end DirectPackageInstaller.NetworkStream
