import DirectPackageInstaller.Streams.NetworkStream.Model
import Mathlib.Data.Nat.Cast.Basic
import Mathlib.Order.MinMax

/-!
# What the network readers do

Every byte that `HttpReader` puts into a buffer comes from the resource and
lands where the position says, also when the attempt that copied it fails
later.  So the buffer after any number of attempts is the old buffer with one
copied range, as long as the longest attempt.

* `httpReader_spec`: the stream and the buffer after `HttpReader`.
* `largeLoop_spec`: the same for the loop that `Read` runs without the cache.
-/

namespace DirectPackageInstaller.NetworkStream

open Memory

variable {cfg : Config}

/-! ## Copied ranges -/

theorem receive_zero (buffer : Nat → UInt8) (offset start : Nat) :
    receive cfg buffer offset start 0 = buffer := by
  unfold receive
  exact overlay_self _ _ _

/-- A copy that starts inside or at the end of an earlier one extends it. -/
theorem receive_receive {buffer : Nat → UInt8} {offset start n m k : Nat}
    (h : n ≤ m) :
    receive cfg (receive cfg buffer offset start m) (offset + n) (start + n) k =
      receive cfg buffer offset start (max m (n + k)) := by
  funext p
  unfold receive
  by_cases hnew : offset + n ≤ p ∧ p < offset + n + k
  · have haddr : start + n + (p - (offset + n)) = start + (p - offset) := by
      omega
    rw [overlay_inside hnew.1 hnew.2, overlay_inside (by omega) (by omega),
      haddr]
  · rw [overlay_outside hnew]
    by_cases hold : offset ≤ p ∧ p < offset + m
    · rw [overlay_inside hold.1 hold.2, overlay_inside hold.1 (by omega)]
    · rw [overlay_outside hold, overlay_outside (by omega)]

/-- A second copy to the same place. -/
theorem receive_again (buffer : Nat → UInt8) (offset start m k : Nat) :
    receive cfg (receive cfg buffer offset start m) offset start k =
      receive cfg buffer offset start (max m k) := by
  have h : receive cfg (receive cfg buffer offset start m) (offset + 0) (start + 0) k =
      receive cfg buffer offset start (max m (0 + k)) :=
    receive_receive (Nat.zero_le m)
  simpa only [Nat.add_zero, Nat.zero_add] using h

theorem slice_receive {buffer : Nat → UInt8} {offset start n m : Nat}
    (h : n ≤ m) :
    slice (receive cfg buffer offset start m) offset n =
      slice cfg.content start n :=
  slice_copied h

/-! ## The stream between two attempts -/

/-- The position lies in the resource, and an open response stands at
`RespPos`. -/
structure StreamOk (cfg : Config) (s : Stream) : Prop where
  position_le : s.position ≤ cfg.length
  response : ∀ at_, s.responseStream = some at_ → at_ = s.respPos

/-- The two streams differ at most in their response. -/
structure SameButResponse (s s' : Stream) : Prop where
  position : s'.position = s.position
  cache : s'.cache = s.cache
  cachePosition : s'.cachePosition = s.cachePosition
  cacheCount : s'.cacheCount = s.cacheCount

theorem SameButResponse.refl (s : Stream) : SameButResponse s s :=
  ⟨rfl, rfl, rfl, rfl⟩

theorem SameButResponse.trans {s t u : Stream} (h1 : SameButResponse s t)
    (h2 : SameButResponse t u) : SameButResponse s u where
  position := h2.position.trans h1.position
  cache := h2.cache.trans h1.cache
  cachePosition := h2.cachePosition.trans h1.cachePosition
  cacheCount := h2.cacheCount.trans h1.cacheCount

/-- An attempt reads from `Position`, with a reused response as well. -/
theorem StreamOk.responseStart_eq {s : Stream} (hs : StreamOk cfg s) :
    s.responseStart = s.position := by
  unfold Stream.responseStart
  split
  · rfl
  · rename_i at_ hopen
    split
    · have hat := hs.response at_ hopen
      omega
    · rfl

/-! ## One attempt -/

/-- The bytes that an attempt at `position` copies. -/
def Attempt.received (cfg : Config) (a : Attempt) (position count : Nat) : Nat :=
  (a.run count (cfg.length - position)).received

/-- What an attempt at `position` returns; `none` is an exception. -/
def Attempt.outcome (cfg : Config) (a : Attempt) (position count : Nat) :
    Option Nat :=
  if a.completes cfg count (cfg.length - position) then
    some (a.run count (cfg.length - position)).nread
  else none

theorem readLoop_bounds {count available nread : Nat} {failure : Option Nat}
    (chunks : List Nat) (hcount : nread ≤ count)
    (havailable : nread ≤ available) :
    (readLoop count available failure chunks nread).nread ≤
        (readLoop count available failure chunks nread).received ∧
      (readLoop count available failure chunks nread).received ≤ count ∧
      (readLoop count available failure chunks nread).received ≤ available := by
  induction chunks generalizing nread with
  | nil =>
    unfold readLoop
    split
    · exact ⟨le_rfl, hcount, havailable⟩
    · split
      · exact ⟨le_rfl, hcount, havailable⟩
      · dsimp only
        omega
  | cons chunk chunks ih =>
    unfold readLoop
    split
    · exact ⟨le_rfl, hcount, havailable⟩
    · dsimp only
      split
      · exact ⟨le_rfl, hcount, havailable⟩
      · exact ih (by omega) (by omega)

theorem Attempt.run_bounds (a : Attempt) (count available : Nat) :
    (a.run count available).nread ≤ (a.run count available).received ∧
      (a.run count available).received ≤ count ∧
      (a.run count available).received ≤ available := by
  unfold Attempt.run
  split
  · exact readLoop_bounds _ (Nat.zero_le _) (Nat.zero_le _)
  · simp

theorem Attempt.received_le_count (a : Attempt) (position count : Nat) :
    a.received cfg position count ≤ count :=
  (a.run_bounds _ _).2.1

theorem Attempt.received_inside (a : Attempt) {position : Nat} (count : Nat)
    (h : position ≤ cfg.length) :
    position + a.received cfg position count ≤ cfg.length := by
  have hle := (a.run_bounds count (cfg.length - position)).2.2
  unfold Attempt.received
  omega

/-- An attempt has copied what it returns. -/
theorem Attempt.outcome_le {a : Attempt} {position count n : Nat}
    (h : a.outcome cfg position count = some n) :
    n ≤ a.received cfg position count := by
  unfold Attempt.outcome at h
  split at h
  · cases h
    exact (a.run_bounds _ _).1
  · cases h

theorem httpAttempt_spec {s s' : Stream} {buffer buffer' : Nat → UInt8}
    {offset count : Nat} {a : Attempt} {out : Option Nat}
    (hs : StreamOk cfg s)
    (h : httpAttempt cfg s buffer offset count a = (s', buffer', out)) :
    StreamOk cfg s' ∧ SameButResponse s s' ∧
      buffer' = receive cfg buffer offset s.position
        (a.received cfg s.position count) ∧
      out = a.outcome cfg s.position count := by
  unfold httpAttempt at h
  dsimp only at h
  rw [hs.responseStart_eq] at h
  unfold Attempt.received Attempt.outcome
  split at h
  · rename_i hdone
    simp only [Prod.mk.injEq] at h
    obtain ⟨rfl, rfl, rfl⟩ := h
    rw [if_pos hdone]
    refine ⟨⟨hs.position_le, ?_⟩, ⟨rfl, rfl, rfl, rfl⟩, rfl, rfl⟩
    intro at_ hopen
    exact (Option.some.inj hopen).symm
  · rename_i hfailed
    simp only [Prod.mk.injEq] at h
    obtain ⟨rfl, rfl, rfl⟩ := h
    rw [if_neg hfailed]
    refine ⟨⟨hs.position_le, ?_⟩, ⟨rfl, rfl, rfl, rfl⟩, rfl, rfl⟩
    intro at_ hopen
    cases hopen

/-! ## `HttpReader` -/

/-- What a sequence of attempts at `position` leaves: `copied` bytes are
there, as many as the longest attempt copied. -/
structure Fetched (cfg : Config) (position count : Nat) (used : List Attempt)
    (copied : Nat) : Prop where
  le_count : copied ≤ count
  inside : position + copied ≤ cfg.length
  reached : ∀ i, i < copied ↔ ∃ a ∈ used, i < a.received cfg position count

theorem Fetched.nil {position : Nat} (count : Nat)
    (h : position ≤ cfg.length) : Fetched cfg position count [] 0 :=
  ⟨Nat.zero_le _, h, by simp⟩

theorem Fetched.single (a : Attempt) {position : Nat} (count : Nat)
    (h : position ≤ cfg.length) :
    Fetched cfg position count [a] (a.received cfg position count) :=
  ⟨a.received_le_count _ _, a.received_inside _ h, by simp⟩

theorem Fetched.append {position count m k : Nat} {used more : List Attempt}
    (h1 : Fetched cfg position count used m)
    (h2 : Fetched cfg position count more k) :
    Fetched cfg position count (used ++ more) (max m k) where
  le_count := by
    have hm := h1.le_count
    have hk := h2.le_count
    omega
  inside := by
    have hm := h1.inside
    have hk := h2.inside
    omega
  reached i := by
    rw [lt_max_iff, h1.reached, h2.reached]
    simp only [List.mem_append, or_and_right, exists_or]

/-- The result of `HttpReader`: the attempts `used` have copied `copied`
bytes, and only the last of them may have returned. -/
structure HttpResult (cfg : Config) (s : Stream) (buffer : Nat → UInt8)
    (offset count : Nat) (used : List Attempt) (copied : Nat) (s' : Stream)
    (buffer' : Nat → UInt8) (out : Option Nat) : Prop where
  ok : StreamOk cfg s'
  same : SameButResponse s s'
  buffer_eq : buffer' = receive cfg buffer offset s.position copied
  fetched : Fetched cfg s.position count used copied
  /-- What is returned has been copied. -/
  out_le : ∀ n, out = some n → n ≤ copied
  /-- Bytes are returned by an attempt that returned them. -/
  returned : ∀ n, 0 < n → out = some n →
    ∃ a ∈ used, a.outcome cfg s.position count = some n
  /-- What an attempt returned is returned. -/
  only : ∀ a ∈ used, ∀ n, a.outcome cfg s.position count = some n → out = some n

/-- A failed attempt in front of a call of `HttpReader`. -/
theorem HttpResult.cons_failed {s m s' : Stream}
    {buffer middle buffer' : Nat → UInt8} {offset count copied : Nat}
    {a : Attempt} {used : List Attempt} {out : Option Nat}
    (hs : StreamOk cfg s)
    (h : httpAttempt cfg s buffer offset count a = (m, middle, none))
    (hrest : HttpResult cfg m middle offset count used copied s' buffer' out) :
    HttpResult cfg s buffer offset count (a :: used)
      (max (a.received cfg s.position count) copied) s' buffer' out := by
  obtain ⟨-, hsame, hmiddle, hout⟩ := httpAttempt_spec hs h
  obtain ⟨hok, hsame', hbuffer, hfetched, hle, hreturned, honly⟩ := hrest
  rw [hsame.position] at hbuffer hfetched hreturned honly
  refine ⟨hok, hsame.trans hsame', ?_, ?_, ?_, ?_, ?_⟩
  · rw [hbuffer, hmiddle, receive_again]
  · exact (Fetched.single a count hs.position_le).append hfetched
  · intro n hn
    exact (hle n hn).trans (le_max_right _ _)
  · intro n hpos hn
    obtain ⟨b, hb, hbn⟩ := hreturned n hpos hn
    exact ⟨b, List.mem_cons_of_mem _ hb, hbn⟩
  · intro b hb n hbn
    rcases List.mem_cons.1 hb with rfl | hb
    · rw [← hout] at hbn
      cases hbn
    · exact honly b hb n hbn

/-- A call of `HttpReader` that ends with its first attempt. -/
theorem HttpResult.single {s s' : Stream} {buffer buffer' : Nat → UInt8}
    {offset count : Nat} {a : Attempt} {returned out : Option Nat}
    (hs : StreamOk cfg s)
    (h : httpAttempt cfg s buffer offset count a = (s', buffer', returned))
    (hout : returned = out ∨ returned = none ∧ out = some 0) :
    HttpResult cfg s buffer offset count [a] (a.received cfg s.position count)
      s' buffer' out := by
  obtain ⟨hok, hsame, hbuffer, hreturned⟩ := httpAttempt_spec hs h
  refine ⟨hok, hsame, hbuffer, Fetched.single a count hs.position_le, ?_, ?_, ?_⟩
  · intro n hn
    rcases hout with rfl | ⟨-, rfl⟩
    · exact Attempt.outcome_le (hreturned.symm.trans hn)
    · cases hn
      exact Nat.zero_le _
  · intro n hpos hn
    rcases hout with rfl | ⟨-, rfl⟩
    · exact ⟨a, List.mem_singleton.2 rfl, hreturned.symm.trans hn⟩
    · cases hn
      omega
  · intro b hb n hbn
    rw [List.mem_singleton.1 hb, ← hreturned] at hbn
    rcases hout with rfl | ⟨rfl, -⟩
    · exact hbn
    · cases hbn

/-- At the end of the resource nothing is tried. -/
theorem HttpResult.atEnd {s : Stream} (buffer : Nat → UInt8)
    (offset count : Nat) (hs : StreamOk cfg s) :
    HttpResult cfg s buffer offset count [] 0 s buffer (some 0) := by
  refine ⟨hs, .refl s, (receive_zero _ _ _).symm, .nil count hs.position_le,
    ?_, ?_, ?_⟩
  · intro n hn
    exact (Option.some.inj hn).ge
  · intro n hpos hn
    cases hn
    omega
  · intro a ha
    cases ha

theorem httpReader_spec {offset count : Nat} {out : Option Nat}
    {s' : Stream} {buffer' : Nat → UInt8} {rest : List Attempt} :
    ∀ (triesLeft : Nat) {s : Stream} {buffer : Nat → UInt8}
      {script : List Attempt}, StreamOk cfg s →
      httpReader cfg offset count triesLeft s buffer script =
        some (s', buffer', out, rest) →
      ∃ used copied, script = used ++ rest ∧
        HttpResult cfg s buffer offset count used copied s' buffer' out := by
  intro triesLeft
  induction triesLeft with
  | zero =>
    intro s buffer script hs h
    unfold httpReader at h
    split at h
    · cases h
      exact ⟨[], 0, rfl, .atEnd _ _ _ hs⟩
    · split at h
      · cases h
      · rename_i a rest'
        split at h
        · rename_i m middle nread hattempt
          cases h
          exact ⟨[a], _, rfl, .single hs hattempt (.inl rfl)⟩
        · rename_i m middle hattempt
          cases h
          refine ⟨[a], _, rfl, .single hs hattempt ?_⟩
          by_cases hrange : a.rangeError = true
          · exact .inr ⟨rfl, if_pos hrange⟩
          · exact .inl (if_neg hrange).symm
  | succ triesLeft ih =>
    intro s buffer script hs h
    unfold httpReader at h
    split at h
    · cases h
      exact ⟨[], 0, rfl, .atEnd _ _ _ hs⟩
    · split at h
      · cases h
      · rename_i a rest'
        split at h
        · rename_i m middle nread hattempt
          cases h
          exact ⟨[a], _, rfl, .single hs hattempt (.inl rfl)⟩
        · rename_i m middle hattempt
          obtain ⟨used, copied, hused, hresult⟩ :=
            ih (httpAttempt_spec hs hattempt).1 h
          exact ⟨a :: used, _, by rw [hused, List.cons_append],
            .cons_failed hs hattempt hresult⟩

/-! ## The loop for large requests -/

/-- The result of the loop for large requests, when it has used up the
attempts `used`. -/
structure LargeResult (cfg : Config) (s : Stream) (buffer : Nat → UInt8)
    (offset count : Nat) (used : List Attempt) (copied : Nat) (s' : Stream)
    (buffer' : Nat → UInt8) : Prop where
  ok : StreamOk cfg s'
  cache : s'.cache = s.cache
  cachePosition : s'.cachePosition = s.cachePosition
  cacheCount : s'.cacheCount = s.cacheCount
  buffer_eq : buffer' = receive cfg buffer offset s.position copied
  position_ge : s.position ≤ s'.position
  position_le : s'.position ≤ s.position + copied
  copied_le : copied ≤ count
  /-- The position stays exactly when no attempt returns any byte. -/
  stays : s'.position = s.position ↔
    ∀ a ∈ used, ∀ n, a.outcome cfg s.position count = some n → n = 0

theorem LargeResult.refl {s : Stream} (buffer : Nat → UInt8)
    (offset count : Nat) (hs : StreamOk cfg s) :
    LargeResult cfg s buffer offset count [] 0 s buffer := by
  refine ⟨hs, rfl, rfl, rfl, (receive_zero _ _ _).symm, le_rfl, le_rfl,
    Nat.zero_le _, ?_⟩
  simp

/-- A call of `HttpReader` that returns nothing or throws leaves the
position. -/
theorem LargeResult.of_empty {s s' : Stream} {buffer buffer' : Nat → UInt8}
    {offset count copied : Nat} {used : List Attempt} {out : Option Nat}
    (h : HttpResult cfg s buffer offset count used copied s' buffer' out)
    (hout : ∀ n, out = some n → n = 0) :
    LargeResult cfg s buffer offset count used copied s' buffer' where
  ok := h.ok
  cache := h.same.cache
  cachePosition := h.same.cachePosition
  cacheCount := h.same.cacheCount
  buffer_eq := h.buffer_eq
  position_ge := h.same.position.ge
  position_le := by
    rw [h.same.position]
    exact Nat.le_add_right _ _
  copied_le := h.fetched.le_count
  stays := ⟨fun _ a ha n hn => hout n (h.only a ha n hn),
    fun _ => h.same.position⟩

/-- The loop goes on after a call that returned nothing. -/
theorem LargeResult.after_empty {s m s' : Stream}
    {buffer middle buffer' : Nat → UInt8} {offset count copied more : Nat}
    {used next : List Attempt} {out : Option Nat}
    (h : HttpResult cfg s buffer offset count used copied m middle out)
    (hout : ∀ n, out = some n → n = 0)
    (hrest : LargeResult cfg m middle offset count next more s' buffer') :
    LargeResult cfg s buffer offset count (used ++ next) (max copied more) s'
      buffer' := by
  have hpos := h.same.position
  have hcount := h.fetched.le_count
  obtain ⟨hok, hcache, hcachePos, hcacheCount, hbuffer, hge, hle, hmore, hstays⟩ :=
    hrest
  rw [hpos] at hbuffer hge hle hstays
  refine ⟨hok, hcache.trans h.same.cache, hcachePos.trans h.same.cachePosition,
    hcacheCount.trans h.same.cacheCount, ?_, hge, by omega, by omega, ?_⟩
  · rw [hbuffer, h.buffer_eq, receive_again]
  · rw [hstays]
    constructor
    · intro hnext a ha n hn
      rcases List.mem_append.1 ha with ha | ha
      · exact hout n (h.only a ha n hn)
      · exact hnext a ha n hn
    · intro hall a ha
      exact hall a (List.mem_append_right _ ha)

/-- The loop goes on behind the bytes that a call returned. -/
theorem LargeResult.after_bytes {s m s' : Stream}
    {buffer middle buffer' : Nat → UInt8}
    {offset count copied readed more : Nat} {used next : List Attempt}
    (h : HttpResult cfg s buffer offset count used copied m middle (some readed))
    (hreaded : 0 < readed)
    (hrest : LargeResult cfg (m.advance readed) middle (offset + readed)
      (count - readed) next more s' buffer') :
    LargeResult cfg s buffer offset count (used ++ next)
      (max copied (readed + more)) s' buffer' := by
  have hpos := h.same.position
  have hcount := h.fetched.le_count
  have hcopied := h.out_le readed rfl
  obtain ⟨hok, hcache, hcachePos, hcacheCount, hbuffer, hge, hle, hmore, hstays⟩ :=
    hrest
  simp only [Stream.advance, hpos] at hcache hcachePos hcacheCount hbuffer hge hle
  refine ⟨hok, hcache.trans h.same.cache, hcachePos.trans h.same.cachePosition,
    hcacheCount.trans h.same.cacheCount, ?_, by omega, by omega, by omega, ?_⟩
  · rw [hbuffer, h.buffer_eq, receive_receive hcopied]
  · constructor
    · intro hstay
      omega
    · -- the attempt that returned the bytes contradicts the right side
      intro hall
      obtain ⟨a, ha, hn⟩ := h.returned readed hreaded rfl
      have hzero := hall a (List.mem_append_left _ ha) readed hn
      omega

theorem StreamOk.advance {s : Stream} {n : Nat} (hs : StreamOk cfg s)
    (h : s.position + n ≤ cfg.length) : StreamOk cfg (s.advance n) :=
  ⟨h, hs.response⟩

/-- What a call returned ends inside the resource. -/
theorem HttpResult.advance_ok {s s' : Stream} {buffer buffer' : Nat → UInt8}
    {offset count copied readed : Nat} {used : List Attempt}
    (h : HttpResult cfg s buffer offset count used copied s' buffer'
      (some readed)) : StreamOk cfg (s'.advance readed) := by
  apply h.ok.advance
  have hinside := h.fetched.inside
  have hle := h.out_le readed rfl
  rw [h.same.position]
  omega

theorem largeLoop_spec {s s' : Stream} {buffer buffer' : Nat → UInt8}
    {offset count : Nat} {emptyTries : Int} {script rest : List Attempt}
    {threw : Bool} (hs : StreamOk cfg s)
    (h : largeLoop cfg s buffer offset count emptyTries script =
      some (s', buffer', threw, rest)) :
    ∃ used copied, script = used ++ rest ∧
      LargeResult cfg s buffer offset count used copied s' buffer' := by
  fun_induction largeLoop cfg s buffer offset count emptyTries script with
  | case1 s buffer offset emptyTries script =>
    cases h
    exact ⟨[], 0, rfl, .refl _ _ _ hs⟩
  | case2 => cases h
  | case3 s buffer offset count emptyTries script hcount m middle next hreader =>
    cases h
    obtain ⟨used, copied, hused, hresult⟩ := httpReader_spec _ hs hreader
    refine ⟨used, copied, hused, .of_empty hresult ?_⟩
    intro n hn
    cases hn
  | case4 s buffer offset count emptyTries script hcount m middle next hreader =>
    -- `EmptyTries` is used up
    cases h
    obtain ⟨used, copied, hused, hresult⟩ := httpReader_spec _ hs (by assumption)
    refine ⟨used, copied, hused, .of_empty hresult ?_⟩
    intro n hn
    exact (Option.some.inj hn).symm
  | case5 s buffer offset count emptyTries script hcount m middle next htries
      hreader ih =>
    obtain ⟨used, copied, rfl, hresult⟩ := httpReader_spec _ hs hreader
    obtain ⟨used', copied', rfl, hrest⟩ := ih hresult.ok h
    refine ⟨used ++ used', _, (List.append_assoc ..).symm,
      .after_empty hresult ?_ hrest⟩
    intro n hn
    exact (Option.some.inj hn).symm
  | case6 s buffer offset count emptyTries script hcount m middle readed next
      hreader hreaded ih =>
    obtain ⟨used, copied, rfl, hresult⟩ := httpReader_spec _ hs hreader
    obtain ⟨used', copied', rfl, hrest⟩ := ih hresult.advance_ok h
    exact ⟨used ++ used', _, (List.append_assoc ..).symm,
      .after_bytes hresult (by omega) hrest⟩

/-! ## The cache -/

/-- The stream is in order and its cache agrees with the resource. -/
structure Good (cfg : Config) (s : Stream) : Prop where
  ok : StreamOk cfg s
  cache : s.CacheValid cfg

theorem cacheHit_le_count (s : Stream) (count : Nat) :
    s.cacheHit count ≤ count := by
  unfold Stream.cacheHit
  split <;> omega

/-- A hit takes bytes that the cache holds. -/
theorem cacheHit_inside {s : Stream} {count : Nat} (h : 0 < s.cacheHit count) :
    s.cachePosition ≤ s.position ∧
      s.position + s.cacheHit count ≤ s.cachePosition + s.cacheCount := by
  unfold Stream.cacheHit at h ⊢
  split at h <;> rename_i hmiss
  · omega
  · rw [if_neg hmiss]
    omega

theorem Good.advance_hit {s : Stream} (count : Nat) (hs : Good cfg s) :
    StreamOk cfg (s.advance (s.cacheHit count)) := by
  apply hs.ok.advance
  by_cases hhit : s.cacheHit count = 0
  · rw [hhit]
    exact hs.ok.position_le
  · obtain ⟨hle, hend⟩ := cacheHit_inside (Nat.pos_of_ne_zero hhit)
    have hlast := (hs.cache (s.cacheCount - 1) (by omega)).1
    omega

/-- Bytes from a valid cache are bytes of the resource. -/
theorem Good.fromCache_eq {s : Stream} (buffer : Nat → UInt8)
    (offset count : Nat) (hs : Good cfg s) :
    s.fromCache buffer offset count =
      receive cfg buffer offset s.position (s.cacheHit count) := by
  funext p
  unfold Stream.fromCache receive
  by_cases hin : offset ≤ p ∧ p < offset + s.cacheHit count
  · have hhit : 0 < s.cacheHit count := by omega
    obtain ⟨hle, hend⟩ := cacheHit_inside hhit
    have hbyte := (hs.cache (s.position - s.cachePosition + (p - offset))
      (by omega)).2
    rw [overlay_inside hin.1 hin.2, overlay_inside hin.1 hin.2, hbyte]
    congr 1
    omega
  · rw [overlay_outside hin, overlay_outside hin]

end DirectPackageInstaller.NetworkStream
