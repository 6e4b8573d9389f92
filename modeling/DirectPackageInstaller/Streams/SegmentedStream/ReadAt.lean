import DirectPackageInstaller.Streams.SegmentedStream.Content

/-!
# What `ReadAt` delivers

`ReadAt` waits until the requested range is available or the download is
`Finished`, and then takes bytes from the backing buffer in its final lock
section.  That section cuts the count to what is available, but only when
something is available: with nothing available it takes the whole count from
the buffer, whatever the buffer holds.

`Finished` compares a sum of counters with the total size.  A chunk that
overshoots a segment which was split meanwhile is counted, and the segment
that was cut off counts the same bytes again, so the sum can reach the total
size while a segment is still missing bytes.

* `available_sound`: what `GetContiguousAvailableBytesUnsafe` reports has
  been downloaded.
* `step_readers`: what a step does to the calls, and what a call has found
  when it gets to its final lock section.
* `taken_faithful`: bytes that have been downloaded are the origin's.
* `readAt_unwritten_byte`: a run without any failure and without `Cancel`
  that delivers a byte nobody wrote.
-/

namespace DirectPackageInstaller.SegmentedStream

open Memory Transition

/-! ## Available bytes are downloaded bytes -/

theorem availableLoop_sound {segments : List Segment} {targetEnd : Int} :
    ∀ (fuel : Nat) (a p : Int), a ≤ p →
      p < availableLoop segments targetEnd fuel a →
      DownloadedAt segments p := by
  intro fuel
  induction fuel with
  | zero =>
    intro a p hap hp
    rw [availableLoop] at hp
    omega
  | succ fuel ih =>
    intro a p hap hp
    rw [availableLoop] at hp
    split at hp
    · split at hp
      · omega
      · rename_i seg hseg
        obtain ⟨hin, hmem⟩ := And.intro (List.find?_some hseg)
          (List.mem_of_find?_eq_some hseg)
        simp only [Bool.and_eq_true, decide_eq_true_eq] at hin
        dsimp only at hp
        split at hp
        · omega
        · -- the position is in this segment or past the end of it
          by_cases hbelow : p < min (min (seg.offset + seg.downloaded)
              (seg.offset + seg.length)) targetEnd
          · exact ⟨seg, hmem, by omega, by omega⟩
          · exact ih _ p (by omega) hp
    · omega

/-- Every byte that `GetContiguousAvailableBytesUnsafe` reports has been
downloaded. -/
theorem available_sound {cfg : Config} {segments : List Segment}
    {position requestedBytes p : Int} (hlo : position ≤ p)
    (hhi : p < position +
      getContiguousAvailableBytesUnsafe cfg segments position requestedBytes) :
    DownloadedAt segments p := by
  unfold getContiguousAvailableBytesUnsafe at hhi
  split at hhi
  · omega
  · dsimp only at hhi
    have hp : p < availableLoop segments
        (min cfg.totalSize (position + requestedBytes))
        (min cfg.totalSize (position + requestedBytes) - position).toNat
        position := by omega
    exact availableLoop_sound _ position p hlo hp

/-! ## The calls in progress -/

/-- The range that a call in progress asks for lies inside the resource. -/
structure CallOk (cfg : Config) (c : ReadCall) : Prop where
  position_nonneg : 0 ≤ c.position
  count_pos : 0 < c.count
  inside : c.position + c.count ≤ cfg.totalSize

def ReadersOk (cfg : Config) (s : State) : Prop :=
  ∀ r c, s.readers r = some c → CallOk cfg c

/-- The call is behind the test of `TotalProgress`, or behind its loop. -/
def ReaderPc.exits : ReaderPc → Bool
  | .inProgressTest _ | .final => true
  | _ => false

/-- What a call has found in its turn if it is on its way out then: its range is
available, or the counters have reached the total size, or it was on its way. -/
def LeavesFor (cfg : Config) (s : State) (l : Label) (r : Nat) (old c : ReadCall) : Prop :=
  c.pc.exits = true →
    old.count ≤ getContiguousAvailableBytesUnsafe cfg s.segments old.position old.count ∨
      (∃ a slow, l = .wait r slow ∧ old.pc = .progressTest a ∧
        cfg.totalSize ≤ totalProgress s.segments) ∨
      old.pc.exits = true

/-- What a step can do to the calls in progress and to the log. -/
inductive ReaderChange (cfg : Config) (s s' : State) (l : Label) : Prop
  /-- Not a step of a reader. -/
  | idle (hl : ∀ r read, l ≠ .deliver r read)
      (hreaders : s'.readers = s.readers) (hret : s'.returned = s.returned)
  /-- An early exit of `ReadAt`, with no bytes. -/
  | early (hl : ∀ r read, l ≠ .deliver r read) (position count : Int)
      (hreaders : s'.readers = s.readers)
      (hret : s'.returned = s.returned ++ [.empty position count])
  /-- A call enters or takes a turn of the wait loop. -/
  | move (hl : ∀ r read, l ≠ .deliver r read) (r : Nat) (c : ReadCall)
      (hc : CallOk cfg c ∧ c.pc = .availability ∨ ∃ old, s.readers r = some old ∧
        c.position = old.position ∧ c.count = old.count ∧ LeavesFor cfg s l r old c)
      (hreaders : s'.readers = fun q => if q = r then some c else s.readers q)
      (hret : s'.returned = s.returned)
  /-- The final lock section of a call. -/
  | deliver (r : Nat) (c : ReadCall) (read : Int) (hl : l = .deliver r read)
      (hr : s.readers r = some c) (hpc : c.pc = .final) (hread : 1 ≤ read)
      (hmax : read ≤ finalCount cfg s c)
      (hreaders : s'.readers = fun q => if q = r then none else s.readers q)
      (hret : s'.returned = s.returned ++ [.taken s c read])

theorem readAtStep_readers {cfg : Config} {s s' : State} {r : Nat}
    {position count : Int} (h : readAtStep cfg s r position count = some s') :
    ReaderChange cfg s s' (.readAt r position count) := by
  have hl : ∀ q n, Label.readAt r position count ≠ .deliver q n :=
    fun q n he => by cases he
  unfold readAtStep at h
  split at h
  · cases h
  rename_i hguard
  split at h
  · cases h
    exact .early hl position count rfl rfl
  · cases h
    refine .move hl r _ (.inl ⟨⟨by dsimp only; omega, ?_, ?_⟩, rfl⟩) rfl rfl
    · dsimp only
      split_ifs <;> omega
    · dsimp only
      split_ifs <;> omega

theorem waitStep_readers {cfg : Config} {s s' : State} {r : Nat} {slow : Bool}
    (h : waitStep cfg s r slow = some s') :
    ReaderChange cfg s s' (.wait r slow) := by
  have hl : ∀ q n, Label.wait r slow ≠ .deliver q n :=
    fun q n he => by cases he
  have hret := (waitStep_data h).2.2.2.2
  unfold waitStep at h
  split at h
  · cases h
  rename_i c hr
  split at h
  case h_1 hpc =>
    cases h
    refine .move hl r _ (.inr ⟨c, hr, ?_, ?_, fun hexits => .inl ?_⟩) rfl hret
    · rfl
    · rfl
    · by_contra hlt
      simp only [ge_iff_le, if_neg hlt] at hexits
      cases hexits
  case h_2 a hpc =>
    cases h
    refine .move hl r _ (.inr ⟨c, hr, ?_, ?_, fun hexits => .inr (.inl ?_)⟩) rfl hret
    · rfl
    · rfl
    · refine ⟨a, slow, rfl, hpc, ?_⟩
      by_contra hlt
      simp only [ge_iff_le, if_neg hlt] at hexits
      cases hexits
  case h_3 a hpc =>
    cases h
    refine .move hl r _ (.inr ⟨c, hr, ?_, ?_, fun _ => .inr (.inr ?_)⟩) rfl hret
    · rfl
    · rfl
    · rw [hpc]
      rfl
  case h_4 =>
    split at h
    · cases h
      refine .move hl r
        { c with pc := .availability, priorityRequested := true }
        (.inr ⟨c, hr, rfl, rfl, fun hexits => by cases hexits⟩) ?_ hret
      unfold requestPrioritySegment
      split_ifs <;> rfl
    · cases h
      exact .move hl r { c with pc := .availability }
        (.inr ⟨c, hr, rfl, rfl, fun hexits => by cases hexits⟩) rfl hret
  case h_5 => cases h

theorem deliverStep_readers {cfg : Config} {s s' : State} {r : Nat}
    {read : Int} (h : deliverStep cfg s r read = some s') :
    ReaderChange cfg s s' (.deliver r read) := by
  unfold deliverStep at h
  split at h
  · cases h
  rename_i c hr
  split at h
  · cases h
  · rename_i hguard
    cases h
    rw [not_or, not_or, not_not] at hguard
    exact .deliver r c read rfl hr hguard.1 (by omega) (by omega) rfl rfl

/-- The monitor leaves the readers and the log alone. -/
theorem monitorStep_readers {cfg : Config} {s s' : State}
    (h : monitorStep cfg s = some s') :
    s'.readers = s.readers ∧ s'.returned = s.returned := by
  unfold monitorStep at h
  split at h
  case h_3 =>
    cases h
    unfold decideStep createPriority
    dsimp only
    split
    · exact ⟨rfl, rfl⟩
    · split
      · split <;> exact ⟨rfl, rfl⟩
      · exact ⟨rfl, rfl⟩
  case h_5 =>
    unfold splitStep at h
    split at h <;> cases h
    exact ⟨rfl, rfl⟩
  case h_9 => cases h
  case h_4 | h_6 | h_7 =>
    obtain ⟨seg, -, rfl⟩ := Option.map_eq_some_iff.1 h
    exact ⟨rfl, rfl⟩
  all_goals
    cases h
    exact ⟨rfl, rfl⟩

/-- The list of changes to the readers is complete. -/
theorem step_readers {cfg : Config} {s s' : State} {l : Label}
    (h : step cfg s l = some s') : ReaderChange cfg s s' l := by
  cases l with
  | task i =>
    change taskStep cfg s i = some s' at h
    unfold taskStep at h
    split at h
    · cases h
    · obtain ⟨task, -, rfl⟩ := Option.map_eq_some_iff.1 h
      exact .idle (fun q n he => by cases he) rfl rfl
  | chunk i read =>
    change chunkStep cfg s i read = some s' at h
    unfold chunkStep at h
    split at h
    · cases h
    split at h
    · split_ifs at h <;> cases h <;>
        exact .idle (fun q n he => by cases he) rfl rfl
    · cases h
  | fail i =>
    change failStep s i = some s' at h
    unfold failStep at h
    split at h
    · cases h
    split at h <;> cases h <;>
      exact .idle (fun q n he => by cases he) rfl rfl
  | monitor =>
    obtain ⟨hreaders, hret⟩ := monitorStep_readers h
    exact .idle (fun q n he => by cases he) hreaders hret
  | monitorFail =>
    change monitorFailStep s = some s' at h
    unfold monitorFailStep at h
    split at h <;> cases h
    exact .idle (fun q n he => by cases he) rfl rfl
  | cancel =>
    cases h
    exact .idle (fun q n he => by cases he) rfl rfl
  | readAt r position count => exact readAtStep_readers h
  | wait r slow => exact waitStep_readers h
  | deliver r read => exact deliverStep_readers h

theorem ReadersOk.step {cfg : Config} {s s' : State} {l : Label}
    (h : ReadersOk cfg s) (hc : ReaderChange cfg s s' l) :
    ReadersOk cfg s' := by
  intro q d hd
  cases hc with
  | idle hl hreaders hret => exact h q d (hreaders ▸ hd)
  | early hl position count hreaders hret => exact h q d (hreaders ▸ hd)
  | move hl r c hc hreaders hret =>
    rw [hreaders] at hd
    dsimp only at hd
    split at hd
    · cases hd
      rcases hc with hc | ⟨old, hold, hpos, hcount, -⟩
      · exact hc.1
      · have hok := h r old hold
        exact ⟨hpos ▸ hok.position_nonneg, hcount ▸ hok.count_pos,
          by rw [hpos, hcount]; exact hok.inside⟩
    · exact h q d hd
  | deliver r c read hl hr hpc hread hmax hreaders hret =>
    rw [hreaders] at hd
    dsimp only at hd
    split at hd
    · cases hd
    · exact h q d hd

/-! ## Faithful results -/

/-- What a caller of `ReadAt` expects: no more bytes than the resource has
after the position, all of them the origin's, and all of them written by a
download task before. -/
structure ReadResult.Faithful (cfg : Config) (r : ReadResult) : Prop where
  length_le : r.bytes = [] ∨
    (r.bytes.length : Int) ≤ cfg.totalSize - r.position
  bytes_eq : r.bytes = slice cfg.origin r.position r.bytes.length
  written : r.allWritten = true

theorem finalCount_le (cfg : Config) (s : State) (c : ReadCall) :
    finalCount cfg s c ≤ c.count := by
  unfold finalCount
  dsimp only
  split_ifs <;> omega

theorem slice_all_written_iff {cfg : Config} {s : State} (h : DataInv cfg s)
    {position read : Int} :
    (slice s.written position read.toNat).all id = true ↔
      ∀ p, position ≤ p → p < position + read → DownloadedAt s.segments p := by
  rw [List.all_eq_true]
  simp only [slice, List.mem_map, List.mem_range, id_eq, forall_exists_index,
    and_imp, forall_apply_eq_imp_iff₂, h.written_iff]
  constructor
  · intro hall p hlo hhi
    have := hall (p - position).toNat (by omega)
    rwa [show position + ((p - position).toNat : Int) = p by omega] at this
  · intro hall i hi
    exact hall _ (by omega) (by omega)

/-- Bytes that have been downloaded are a faithful result. -/
theorem taken_faithful {cfg : Config} {s : State} {c : ReadCall} {read : Int}
    (hdata : DataInv cfg s) (hok : CallOk cfg c) (hread : 1 ≤ read)
    (hmax : read ≤ finalCount cfg s c)
    (hall : ∀ p, c.position ≤ p → p < c.position + read → DownloadedAt s.segments p) :
    (ReadResult.taken s c read).Faithful cfg := by
  have hcount := Int.le_trans hmax (finalCount_le cfg s c)
  refine ⟨Or.inr ?_, ?_, (slice_all_written_iff hdata).2 hall⟩
  · have := hok.inside
    simp only [ReadResult.taken, slice_length]
    omega
  · simp only [ReadResult.taken, slice_length]
    rw [slice_eq_slice_iff]
    intro i hi
    exact hdata.content _ ((hdata.written_iff _).2
      (hall _ (by omega) (by omega)))

/-- The empty result of an early exit is faithful. -/
theorem early_faithful (cfg : Config) (position count : Int) :
    (ReadResult.empty position count).Faithful cfg :=
  ⟨Or.inl rfl, rfl, rfl⟩

/-- The steps that take a task from a committed last chunk to its end. -/
def finishTask (i : Nat) : List Label := List.replicate 4 (.task i)

/-- A download of three bytes and a read of two of them, in the middle of a
run that meets the condition. -/
def plainRun : List Label :=
  List.flatten [startReading 0,
    [.readAt 0 1 2, .wait 0 false, .chunk 0 3, .wait 0 false, .wait 0 false,
      .wait 0 false, .wait 0 false, .deliver 0 2]]

/-- The state that `plainRun` ends in. -/
def plainEnd : State :=
  ((system (sevens 3)).run (init (sevens 3)) plainRun).get (by decide +kernel)

/-- A run without a failure and without `Cancel`, over a resource of
4 MiB - 2 bytes with the default buffer and connection limit.

Two readers wait for positions 1 and 2 while the first chunk of 1 MiB is
slow.  The monitor splits at both positions, and each time the chunk in
flight overshoots the segment that was cut: 2 MiB - 3 bytes are counted
twice.  The monitor then cuts the last segment in half.  Before it has
started the new half, the task of the other half completes: every
registered task is done and the counters add up to the total size.  A read
in the new half finds the download `Finished` and nothing available. -/
def overshootRun : List Label :=
  List.flatten [startReading 0,
    [.readAt 0 1 1, .wait 0 false, .wait 0 false, .wait 0 true],
    List.replicate 5 .monitor, [.chunk 0 (1024 * 1024)], finishTask 0,
    startReading 1,
    [.readAt 1 2 1, .wait 1 false, .wait 1 false, .wait 1 true],
    List.replicate 6 .monitor, [.chunk 1 (1024 * 1024)], finishTask 1,
    List.replicate 6 .monitor,
    startReading 2,
    [.chunk 2 (1024 * 1024), .task 2, .task 2, .chunk 2 (1024 * 1024 - 2)],
    finishTask 2,
    [.readAt 2 (2 * 1024 * 1024) 1, .wait 2 false, .wait 2 false, .wait 2 false,
      .deliver 2 1]]

/-- `ReadAt` can deliver a byte that no task has written: here a zero of the
backing buffer, where the resource has a seven. -/
theorem readAt_unwritten_byte :
    ¬∀ (cfg : Config) (s : State), (system cfg).Reachable s →
      ∀ r ∈ s.returned, r.Faithful cfg := by
  intro h
  have hrun : ((system (sevens (4 * 1024 * 1024 - 2))).run
      (init (sevens (4 * 1024 * 1024 - 2))) overshootRun).map
        (fun s => s.returned.map ReadResult.bytes) = some [[0]] := by
    decide +kernel
  obtain ⟨s, hs, hbytes⟩ := Option.map_eq_some_iff.1 hrun
  have hreach := System.reachable_of_run (.init rfl) hs
  have hlen : s.returned.length = 1 := by
    simpa using congrArg List.length hbytes
  obtain ⟨r, hr⟩ := List.length_eq_one_iff.1 hlen
  have hmem : r ∈ s.returned := by simp [hr]
  have hzero : r.bytes = [0] := by simpa [hr] using hbytes
  have heq := (h _ s hreach r hmem).bytes_eq
  rw [hzero] at heq
  simp [slice, sevens] at heq

end DirectPackageInstaller.SegmentedStream
