import DirectPackageInstaller.Streams.NetworkStream.Faithful

/-!
# Reads that throw

A read that throws should leave the stream as it was.  `Read` does not see to
that.  It advances `Position` over what the cache holds before it asks the
network for the rest, and a small request assigns `cachePosition` and lets
`HttpReader` write into the cache while `cacheCount` still counts the old
bytes.  When the network then fails, the position has moved, or the cache
claims old bytes for a new position.

* `read_throws`: a read that throws leaves the position and a valid cache
  exactly when `FailureHarmless` holds before it.
* `reads_atomic_iff`: the same for runs, including all later reads.
* `staleCache_served`: a later read that delivers bytes of another position.
-/

namespace DirectPackageInstaller.NetworkStream

open Memory Transition

variable {cfg : Config}

/-- The cache miss test of `ReadFromCache`. -/
def Stream.CacheMiss (s : Stream) : Prop :=
  s.cachePosition > s.position ∨ s.cachePosition + s.cacheCount ≤ s.position

instance (s : Stream) : Decidable s.CacheMiss :=
  inferInstanceAs (Decidable (_ ∨ _))

/-- The condition under which a read of `count` bytes that throws does no
harm.  The cache has nothing to offer for it.  If the request is large, none
of its attempts returns a byte.  If it is small, each byte that the cache
counts is either overwritten by an attempt, or by chance equal to the byte at
the new position. -/
def FailureHarmless (cfg : Config) (s : Stream) (count : Nat)
    (script : List Attempt) : Prop :=
  s.CacheMiss ∧
    if cfg.cacheLen < count then
      ∀ a ∈ script, ∀ n, a.outcome cfg s.position count = some n → n = 0
    else
      ∀ i < s.cacheCount, s.position + i < cfg.length ∧
        ((∀ a ∈ script, a.received cfg s.position cfg.cacheLen ≤ i) →
          cfg.content (s.cachePosition + i) = cfg.content (s.position + i))

theorem cacheHit_eq_zero_iff {s : Stream} {count : Nat} (h : 0 < count) :
    s.cacheHit count = 0 ↔ s.CacheMiss := by
  unfold Stream.cacheHit Stream.CacheMiss
  split
  · rename_i hmiss
    exact ⟨fun _ => hmiss, fun _ => rfl⟩
  · rename_i hmiss
    exact ⟨fun hzero => by omega, fun hmiss' => absurd hmiss' hmiss⟩

/-! ## One read that throws -/

/-- A failed large request: the cache is untouched, so only the position
matters. -/
theorem LargeResult.atomic_iff {s s' : Stream} {buffer middle : Nat → UInt8}
    {offset count copied : Nat} {script : List Attempt} (hs : Good cfg s)
    (hcount : cfg.cacheLen < count - s.cacheHit count)
    (h : LargeResult cfg (s.advance (s.cacheHit count)) middle offset
      (count - s.cacheHit count) script copied s' buffer) :
    s'.position = s.position ∧ s'.CacheValid cfg ↔
      FailureHarmless cfg s count script := by
  have hvalid : s'.CacheValid cfg := by
    intro i hi
    rw [h.cacheCount] at hi
    rw [h.cachePosition, h.cache]
    exact hs.cache i hi
  have hge : s.position + s.cacheHit count ≤ s'.position := h.position_ge
  have hlarge : cfg.cacheLen < count := by omega
  unfold FailureHarmless
  rw [← cacheHit_eq_zero_iff (by omega : 0 < count), if_pos hlarge]
  constructor
  · rintro ⟨hstay, -⟩
    have hzero : s.cacheHit count = 0 := by omega
    refine ⟨hzero, ?_⟩
    have hstays := h.stays
    simp only [Stream.advance, hzero, Nat.add_zero, Nat.sub_zero] at hstays
    exact hstays.1 hstay
  · rintro ⟨hzero, hall⟩
    have hstays := h.stays
    simp only [Stream.advance, hzero, Nat.add_zero, Nat.sub_zero] at hstays
    exact ⟨hstays.2 hall, hvalid⟩

/-- The cache that a failed small request leaves. -/
theorem HttpResult.cacheValid_iff {s m : Stream} {cache : Nat → UInt8}
    {count copied : Nat} {script : List Attempt} {out : Option Nat}
    (hs : Good cfg s) (hzero : s.cacheHit count = 0)
    (h : HttpResult cfg (s.beforeFill count) s.cache 0 cfg.cacheLen script copied
      m cache out) :
    ({ m with cache } : Stream).CacheValid cfg ↔
      ∀ i < s.cacheCount, s.position + i < cfg.length ∧
        ((∀ a ∈ script, a.received cfg s.position cfg.cacheLen ≤ i) →
          cfg.content (s.cachePosition + i) = cfg.content (s.position + i)) := by
  have hposition : (s.beforeFill count).position = s.position := by
    simp only [Stream.beforeFill, Stream.advance, hzero, Nat.add_zero]
  have hcachePosition : m.cachePosition = s.position :=
    h.same.cachePosition.trans hposition
  have hcacheCount : m.cacheCount = s.cacheCount := h.same.cacheCount
  have hreached := h.fetched.reached
  have hcache := h.buffer_eq
  rw [hposition] at hreached hcache
  unfold Stream.CacheValid
  simp only [hcachePosition, hcacheCount]
  refine forall₂_congr fun i hi => and_congr_right fun _ => ?_
  rw [hcache]
  unfold receive
  by_cases hin : i < copied
  · -- an attempt has copied this byte
    rw [overlay_inside (Nat.zero_le _) (by omega), Nat.sub_zero]
    obtain ⟨a, ha, hia⟩ := (hreached i).1 hin
    refine iff_of_true rfl fun hall => ?_
    have hle := hall a ha
    omega
  · -- the byte of the old position is still there
    rw [overlay_outside (by omega), (hs.cache i hi).2]
    have hall : ∀ a ∈ script, a.received cfg s.position cfg.cacheLen ≤ i := by
      intro a ha
      by_contra hlt
      exact hin ((hreached i).2 ⟨a, ha, by omega⟩)
    exact ⟨fun heq _ => heq, fun himp => himp hall⟩

theorem read_throws {s s' : Stream} {buffer buffer' : Nat → UInt8}
    {offset count : Nat} {script : List Attempt} (hs : Good cfg s)
    (h : read cfg s buffer offset count script =
      some (s', buffer', true, [])) :
    StreamOk cfg s' ∧ (s'.position = s.position ∧ s'.CacheValid cfg ↔
      FailureHarmless cfg s count script) := by
  have hhit := cacheHit_le_count s count
  cases read_cases h with
  | large hcount hloop =>
    obtain ⟨used, copied, hused, hresult⟩ :=
      largeLoop_spec (hs.advance_hit count) hloop
    rw [List.append_nil] at hused
    subst hused
    exact ⟨hresult.ok, hresult.atomic_iff hs hcount⟩
  | @notFilled m cache _ hpos hcount hreader =>
    obtain ⟨used, copied, hused, hresult⟩ :=
      httpReader_spec _ (hs.beforeFill count) hreader
    rw [List.append_nil] at hused
    subst hused
    refine ⟨⟨hresult.ok.position_le, hresult.ok.response⟩, ?_⟩
    have hposition : m.position = s.position + s.cacheHit count :=
      hresult.same.position
    unfold FailureHarmless
    rw [← cacheHit_eq_zero_iff (by omega : 0 < count)]
    constructor
    · rintro ⟨hstay, hvalid⟩
      have hzero : s.cacheHit count = 0 := by
        dsimp only at hstay
        omega
      rw [if_neg (by omega)]
      exact ⟨hzero, (hresult.cacheValid_iff hs hzero).1 hvalid⟩
    · rintro ⟨hzero, hall⟩
      rw [if_neg (by omega)] at hall
      refine ⟨?_, (hresult.cacheValid_iff hs hzero).2 hall⟩
      dsimp only
      omega

/-! ## Runs -/

/-- A read that throws leaves the position and a valid cache, and a read that
returns is a direct one. -/
structure ReadLog.Atomic (cfg : Config) (e : ReadLog) : Prop where
  failed : e.threw = true → e.position = e.start ∧ e.cacheValid = true
  succeeded : e.threw = false → e.Direct cfg

/-- The condition on a step: if it is a read that throws, it does no harm. -/
def HarmlessStep (cfg : Config) (s : State) : Label → Prop
  | .read true _ _ count script => FailureHarmless cfg s.stream count script
  | _ => True

/-- The entry that a read from a good stream leaves is as it should be exactly
when the condition holds. -/
theorem entry_atomic_iff {s : State} {s' : Stream}
    {buffer buffer' : Nat → UInt8} {offset count : Nat}
    {script : List Attempt} {threw : Bool} (hs : Good cfg s.stream)
    (h : read cfg s.stream buffer offset count script =
      some (s', buffer', threw, [])) :
    (ReadLog.of cfg s.stream s' buffer' offset count threw).Atomic cfg ↔
      HarmlessStep cfg s (.read threw buffer offset count script) := by
  cases threw with
  | false =>
    refine iff_of_true ⟨?_, fun _ => (read_returns hs h).2⟩ trivial
    intro hthrew
    cases hthrew
  | true =>
    have hiff := (read_throws hs h).2
    constructor
    · intro hatomic
      obtain ⟨hpos, hvalid⟩ := hatomic.failed rfl
      exact hiff.1 ⟨hpos, of_decide_eq_true hvalid⟩
    · intro hharmless
      obtain ⟨hpos, hvalid⟩ := hiff.2 hharmless
      refine ⟨fun _ => ⟨hpos, decide_eq_true hvalid⟩, ?_⟩
      intro hthrew
      cases hthrew

/-- While all reads were as they should be, the stream is good. -/
theorem atomic_keeps_good {s s' : State} {l : Label}
    (hI : (∀ e ∈ s.log, e.Atomic cfg) → Good cfg s.stream)
    (hstep : step cfg s l = some s') (h : ∀ e ∈ s'.log, e.Atomic cfg) :
    Good cfg s'.stream := by
  cases step_cases hstep with
  | moved _ value hvalue hstream hlog =>
    rw [hlog] at h
    rw [hstream]
    exact (hI h).setPosition hvalue
  | read threw buffer buffer' offset count script hread hlog =>
    simp only [hlog, List.mem_append, List.mem_singleton, or_imp, forall_and,
      forall_eq] at h
    have hs := hI h.1
    cases threw with
    | false => exact (read_returns hs hread).1
    | true =>
      exact ⟨(read_throws hs hread).1,
        of_decide_eq_true (h.2.failed rfl).2⟩

theorem step_atomic_iff {s s' : State} {l : Label}
    (hI : (∀ e ∈ s.log, e.Atomic cfg) → Good cfg s.stream)
    (hstep : step cfg s l = some s') :
    (∀ e ∈ s'.log, e.Atomic cfg) ↔
      (∀ e ∈ s.log, e.Atomic cfg) ∧ HarmlessStep cfg s l := by
  cases step_cases hstep with
  | moved hl value _ _ hlog =>
    have hharmless : HarmlessStep cfg s l := by
      unfold HarmlessStep
      split
      · cases hl
      · trivial
    rw [hlog]
    exact (and_iff_left hharmless).symm
  | read threw buffer buffer' offset count script hread hlog =>
    simp only [hlog, List.mem_append, List.mem_singleton, or_imp, forall_and,
      forall_eq]
    exact and_congr_right fun h => entry_atomic_iff (hI h) hread

/-- In a run of reads and seeks, every read that throws leaves the position
and a valid cache and every read that returns delivers the bytes of the
resource, exactly when every read that throws meets `FailureHarmless`. -/
theorem reads_atomic_iff (cfg : Config) (ls : List Label) (s : State)
    (hrun : (system cfg).run init ls = some s) :
    (∀ e ∈ s.log, e.Atomic cfg) ↔
      (system cfg).StepsMeet (HarmlessStep cfg) init ls := by
  have hexact := System.exact_of_step
    (fun s => (∀ e ∈ s.log, e.Atomic cfg) → Good cfg s.stream)
    (fun s => ∀ e ∈ s.log, e.Atomic cfg) (HarmlessStep cfg)
    (fun s l s' hI hstep => atomic_keeps_good hI hstep)
    (fun s l s' hI hstep => step_atomic_iff hI hstep)
    (fun _ => init_good cfg) hrun
  refine hexact.trans (and_iff_right ?_)
  intro e he
  cases he

/-- A read that throws before anything is cached. -/
def harmlessRun : List Label :=
  [.read true (fun _ => 0) 0 2 (List.replicate 6 refused),
    .read false (fun _ => 0) 0 2 [served]]

/-- The state that `harmlessRun` ends in. -/
def harmlessEnd : State :=
  ((system countingBytes).run init harmlessRun).get (by decide +kernel)

theorem reads_atomic_harmlessEnd :
    harmlessEnd.log.map ReadLog.threw = [true, false] ∧
      ((∀ e ∈ harmlessEnd.log, e.Atomic countingBytes) ↔
        (system countingBytes).StepsMeet (HarmlessStep countingBytes) init
          harmlessRun) :=
  ⟨by decide +kernel, reads_atomic_iff countingBytes harmlessRun harmlessEnd
    (Option.some_get _).symm⟩

/-- A read of the first bytes fills the cache, a read further on finds the
network down, and its repetition takes the first bytes from the cache. -/
def staleRun : List Label :=
  [.read false (fun _ => 0) 0 2 [served],
    .setPosition 6,
    .read true (fun _ => 0) 0 2 (List.replicate 6 refused),
    .read false (fun _ => 0) 0 2 []]

/-- A read that throws can leave stale bytes in the cache: at position 6 the
next read delivers the bytes of positions 0 and 1. -/
theorem staleCache_served :
    ¬∀ (cfg : Config) (s : State), (system cfg).Reachable s →
      ∀ e ∈ s.log, e.Atomic cfg := by
  intro h
  have hrun : ((system countingBytes).run init staleRun).map State.log =
      some [⟨0, 2, false, 2, 2, [0, 1], true⟩, ⟨6, 2, true, 0, 6, [], false⟩,
        ⟨6, 2, false, 2, 8, [0, 1], false⟩] := by
    decide +kernel
  obtain ⟨s, hs, hlog⟩ := Option.map_eq_some_iff.1 hrun
  have hreach := System.reachable_of_run (.init rfl) hs
  have hatomic := h _ s hreach ⟨6, 2, true, 0, 6, [], false⟩ (by simp [hlog])
  have hvalid := (hatomic.failed rfl).2
  cases hvalid

end DirectPackageInstaller.NetworkStream
