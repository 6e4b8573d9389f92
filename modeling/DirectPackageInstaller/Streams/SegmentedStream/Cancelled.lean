import DirectPackageInstaller.Streams.SegmentedStream.Available

/-!
# Readers of a cancelled download

`Cancel` ends the monitor and the download tasks.  After that the segment
table never changes again (`Settled.run`), so a reader in the wait loop of
`ReadAt` sees the same two exit conditions in every turn.

The loop does not look at the cancellation.  It exits when the requested range
is available or when `Finished` is true, and `Finished` asks for the whole
progress.

* `settled_exits_iff`: what the exit conditions mean in such a state.
* `settled_reader_leaves_iff`: a reader leaves its loop exactly when one of them
  is true, and otherwise waits forever.
* `cancelled_reader_stuck`: a reader that does.
-/

namespace DirectPackageInstaller.SegmentedStream

open Transition

/-- Cancellation was requested, the monitor has ended, and every download task
that was ever started has completed. -/
structure Settled (s : State) : Prop where
  cancelled : s.cancelled = true
  monitor : s.monitor = .stopped
  tasks : ∀ seg ∈ s.segments,
    seg.task = .completed ∨ seg.task = .created ∧ seg.registered = false

/-- One of the exit conditions of the wait loop of `ReadAt` is true for the
range of `count` bytes at `position`. -/
def ReaderExits (cfg : Config) (s : State) (position count : Int) : Prop :=
  getContiguousAvailableBytesUnsafe cfg s.segments position count ≥ count ∨
    finished cfg s.segments = true

/-- Every reader is released: an exit condition is true for every position and
count, and a reader at the head of its loop can leave it. -/
structure ReadersReleased (cfg : Config) (s : State) : Prop where
  exits : ∀ position count, 0 ≤ position → position < cfg.totalSize → 0 < count →
    ReaderExits cfg s position (min count (cfg.totalSize - position))
  leaves : ∀ r c, s.readers r = some c → c.pc = .availability →
    ∃ ls s' now, (system cfg).run s ls = some s' ∧ s'.readers r = some now ∧ now.pc = .final

/-! ## The table does not change any more -/

/-- No task is left that has not completed. -/
theorem inProgress_eq_false {segments : List Segment}
    (h : ∀ seg ∈ segments,
      seg.task = .completed ∨ seg.task = .created ∧ seg.registered = false) :
    inProgress segments = false := by
  unfold inProgress
  rw [List.any_eq_false]
  intro seg hmem
  rcases h seg hmem with htask | ⟨-, hreg⟩
  · simp [htask]
  · simp [hreg]

theorem Settled.inProgress {s : State} (h : Settled s) :
    inProgress s.segments = false :=
  inProgress_eq_false h.tasks

theorem Settled.finished_iff {cfg : Config} {s : State} (h : Settled s) :
    finished cfg s.segments = true ↔ cfg.totalSize ≤ totalProgress s.segments := by
  unfold SegmentedStream.finished
  rw [h.inProgress]
  simp

/-- Only readers and further calls of `Cancel` can take a step. -/
theorem Settled.label {cfg : Config} {s s' : State} {l : Label} (h : Settled s)
    (hs : step cfg s l = some s') :
    l = .cancel ∨ (∃ r p n, l = .readAt r p n) ∨ (∃ r slow, l = .wait r slow) ∨
      ∃ r n, l = .deliver r n := by
  have hrow : ∀ (i : Nat) (seg : Segment), s.segments[i]? = some seg →
      seg.task = .completed ∨ seg.task = .created :=
    fun i seg hi => (h.tasks seg (Table.mem_of_getElem? hi)).imp_right And.left
  cases l with
  | task i =>
    change taskStep cfg s i = some s' at hs
    unfold taskStep at hs
    split at hs
    · cases hs
    · rename_i seg hi
      rcases hrow i seg hi with htask | htask <;>
        simp [htask, DownloadTask.next] at hs
  | chunk i read =>
    obtain ⟨seg, v, toRead, hi, htask, -⟩ := chunkStep_eq_some hs
    rcases hrow i seg hi with hdone | hdone <;> simp [hdone] at htask
  | fail i =>
    change failStep s i = some s' at hs
    unfold failStep at hs
    split at hs
    · cases hs
    · rename_i seg hi
      rcases hrow i seg hi with htask | htask <;> simp [htask] at hs
  | monitor =>
    change monitorStep cfg s = some s' at hs
    unfold monitorStep at hs
    rw [h.monitor] at hs
    cases hs
  | monitorFail =>
    change monitorFailStep s = some s' at hs
    unfold monitorFailStep at hs
    rw [if_pos h.monitor] at hs
    cases hs
  | cancel => exact Or.inl rfl
  | readAt r p n => exact Or.inr (Or.inl ⟨r, p, n, rfl⟩)
  | wait r slow => exact Or.inr (Or.inr (Or.inl ⟨r, slow, rfl⟩))
  | deliver r n => exact Or.inr (Or.inr (Or.inr ⟨r, n, rfl⟩))

/-- What a step leaves of a settled state: all but the readers. -/
theorem Settled.step {cfg : Config} {s s' : State} {l : Label} (h : Settled s)
    (hs : step cfg s l = some s') : Settled s' ∧ s'.segments = s.segments := by
  have hsame : s'.segments = s.segments ∧ s'.monitor = s.monitor := by
    rcases h.label hs with rfl | ⟨r, p, n, rfl⟩ | ⟨r, slow, rfl⟩ | ⟨r, n, rfl⟩
    · cases hs
      exact ⟨rfl, rfl⟩
    · change readAtStep cfg s r p n = some s' at hs
      unfold readAtStep at hs
      split_ifs at hs <;> cases hs <;> exact ⟨rfl, rfl⟩
    · obtain ⟨hseg, -, -, hmon, -⟩ := waitStep_data hs
      exact ⟨hseg, hmon⟩
    · change deliverStep cfg s r n = some s' at hs
      unfold deliverStep at hs
      split at hs
      · cases hs
      · split_ifs at hs
        cases hs
        exact ⟨rfl, rfl⟩
  refine ⟨⟨(step_frame hs).cancelled h.cancelled, hsame.2.trans h.monitor, ?_⟩,
    hsame.1⟩
  rw [hsame.1]
  exact h.tasks

/-- No step can change a segment any more. -/
theorem Settled.run {cfg : Config} {s s' : State} {ls : List Label}
    (h : Settled s) (hrun : (system cfg).run s ls = some s') :
    Settled s' ∧ s'.segments = s.segments := by
  refine System.invariant_of_run
    (fun t => Settled t ∧ t.segments = s.segments) ?_ ⟨h, rfl⟩ hrun
  rintro t l t' ⟨hset, hseg⟩ hs
  have hstep := hset.step hs
  exact ⟨hstep.1, hstep.2.trans hseg⟩

/-! ## A reader that cannot leave -/

/-- Reader `r` is inside the wait loop with the call `c`, and it has not seen
the whole progress. -/
def Waiting (c : ReadCall) (r : Nat) (s : State) : Prop :=
  ∃ now, s.readers r = some now ∧ now.position = c.position ∧
    now.count = c.count ∧
    (now.pc = .availability ∨ (∃ a, now.pc = .progressTest a) ∨
      ∃ a, now.pc = .priority a)

theorem Waiting.not_final {c : ReadCall} {r : Nat} {s : State}
    (h : Waiting c r s) {now : ReadCall} (hr : s.readers r = some now) :
    now.pc ≠ .final := by
  obtain ⟨old, hold, -, -, hpc⟩ := h
  rw [hr, Option.some.injEq] at hold
  subst hold
  intro hfinal
  rw [hfinal] at hpc
  rcases hpc with hpc | ⟨a, hpc⟩ | ⟨a, hpc⟩ <;> cases hpc

/-- A turn of the wait loop, with both exit conditions false. -/
theorem Waiting.wait {cfg : Config} {c : ReadCall} {r : Nat} {s s' : State}
    {slow : Bool} (h : Waiting c r s) (hset : Settled s)
    (hexit : ¬ReaderExits cfg s c.position c.count)
    (hs : waitStep cfg s r slow = some s') : Waiting c r s' := by
  obtain ⟨now, hr, hpos, hcount, hpc⟩ := h
  unfold ReaderExits at hexit
  rw [hset.finished_iff, not_or] at hexit
  unfold waitStep at hs
  rw [hr] at hs
  rcases hpc with hpc | ⟨a, hpc⟩ | ⟨a, hpc⟩
  · simp only [hpc, hpos, hcount, if_neg hexit.1, Option.some.injEq] at hs
    subst hs
    exact ⟨_, if_pos rfl, rfl, rfl, Or.inr (Or.inl ⟨_, rfl⟩)⟩
  · simp only [hpc, if_neg hexit.2, ge_iff_le, Option.some.injEq] at hs
    subst hs
    exact ⟨_, if_pos rfl, hpos, hcount, Or.inr (Or.inr ⟨a, rfl⟩)⟩
  · simp only [hpc] at hs
    split at hs <;>
    · cases hs
      exact ⟨_, if_pos rfl, hpos, hcount, Or.inl rfl⟩

/-- A thread moves no reader but its own. -/
theorem readAtStep_other {cfg : Config} {s s' : State} {q r : Nat} {p n : Int}
    (hs : readAtStep cfg s q p n = some s') (hq : r ≠ q) : s'.readers r = s.readers r := by
  unfold readAtStep at hs
  split_ifs at hs <;> cases hs
  · rfl
  · exact if_neg hq

theorem waitStep_other {cfg : Config} {s s' : State} {q r : Nat} {slow : Bool}
    (hs : waitStep cfg s q slow = some s') (hq : r ≠ q) : s'.readers r = s.readers r := by
  unfold waitStep at hs
  split at hs
  · cases hs
  split at hs
  case h_4 =>
    split at hs <;> cases hs
    · unfold requestPrioritySegment
      split_ifs <;> exact if_neg hq
    · exact if_neg hq
  case h_5 => cases hs
  all_goals
    cases hs
    exact if_neg hq

theorem deliverStep_other {cfg : Config} {s s' : State} {q r : Nat} {n : Int}
    (hs : deliverStep cfg s q n = some s') (hq : r ≠ q) : s'.readers r = s.readers r := by
  unfold deliverStep at hs
  split at hs
  · cases hs
  · split_ifs at hs
    cases hs
    exact if_neg hq

/-- The other labels do not touch a reader in its loop. -/
theorem Waiting.step {cfg : Config} {c : ReadCall} {r : Nat} {s s' : State}
    {l : Label} (h : Waiting c r s) (hset : Settled s)
    (hexit : ¬ReaderExits cfg s c.position c.count)
    (hs : step cfg s l = some s') : Waiting c r s' := by
  have hcall := h
  obtain ⟨now, hr, hpos, hcount, hpc⟩ := hcall
  have hframe : s'.readers r = s.readers r → Waiting c r s' :=
    fun hsame => ⟨now, hsame.trans hr, hpos, hcount, hpc⟩
  rcases hset.label hs with rfl | ⟨q, p, n, rfl⟩ | ⟨q, slow, rfl⟩ | ⟨q, n, rfl⟩
  · cases hs
    exact hframe rfl
  · by_cases hq : r = q
    · -- the thread is busy with the call
      subst hq
      change readAtStep cfg s r p n = some s' at hs
      unfold readAtStep at hs
      rw [if_pos (Or.inr (by rw [hr]; rfl))] at hs
      cases hs
    · exact hframe (readAtStep_other hs hq)
  · by_cases hq : r = q
    · subst hq
      exact h.wait hset hexit hs
    · exact hframe (waitStep_other hs hq)
  · by_cases hq : r = q
    · subst hq
      change deliverStep cfg s r n = some s' at hs
      unfold deliverStep at hs
      rw [hr] at hs
      dsimp only at hs
      rw [if_pos (Or.inl (h.not_final hr))] at hs
      cases hs
    · exact hframe (deliverStep_other hs hq)

/-- While both exit conditions are false the reader stays in its loop,
whatever happens. -/
theorem Waiting.run {cfg : Config} {c : ReadCall} {r : Nat} {s s' : State}
    {ls : List Label} (h : Waiting c r s) (hset : Settled s)
    (hexit : ¬ReaderExits cfg s c.position c.count)
    (hrun : (system cfg).run s ls = some s') : Waiting c r s' := by
  have hinv := System.invariant_of_run
    (fun t => Waiting c r t ∧ Settled t ∧ t.segments = s.segments) ?_
    ⟨h, hset, rfl⟩ hrun
  · exact hinv.1
  · rintro t l t' ⟨hwait, hst, hseg⟩ hs
    have hstep := hst.step hs
    refine ⟨hwait.step hst ?_ hs, hstep.1, hstep.2.trans hseg⟩
    unfold ReaderExits at hexit ⊢
    rwa [hseg]

@[simp] theorem setReader_readers (s : State) (r : Nat) (c : Option ReadCall) :
    (s.setReader r c).readers r = c :=
  if_pos rfl

@[simp] theorem setReader_segments (s : State) (r : Nat) (c : Option ReadCall) :
    (s.setReader r c).segments = s.segments := rfl

/-- At the head of the loop, with an exit condition true, the reader needs at
most three turns. -/
theorem reader_leaves {cfg : Config} {s : State} {r : Nat} {c : ReadCall}
    (hset : Settled s) (hr : s.readers r = some c) (hpc : c.pc = .availability)
    (hexit : ReaderExits cfg s c.position c.count) :
    ∃ ls s' now, (system cfg).run s ls = some s' ∧
      s'.readers r = some now ∧ now.pc = .final := by
  unfold ReaderExits at hexit
  rw [hset.finished_iff] at hexit
  by_cases havail : getContiguousAvailableBytesUnsafe cfg s.segments c.position
      c.count ≥ c.count
  · have hstep : waitStep cfg s r false =
        some (s.setReader r (some { c with pc := .final })) := by
      simp only [waitStep, hr, hpc, if_pos havail]
    exact ⟨[.wait r false], _, _, System.run_singleton_eq_some.2 hstep,
      setReader_readers _ _ _, rfl⟩
  · have hsum := hexit.resolve_left havail
    -- the call after each of the three turns
    let a := getContiguousAvailableBytesUnsafe cfg s.segments c.position c.count
    let s₁ := s.setReader r (some { c with pc := .progressTest a })
    let s₂ := s₁.setReader r (some { c with pc := .inProgressTest a })
    let s₃ := s₂.setReader r (some { c with pc := .final })
    have h₁ : waitStep cfg s r false = some s₁ := by
      simp only [waitStep, hr, hpc, if_neg havail]
      rfl
    have h₂ : waitStep cfg s₁ r false = some s₂ := by
      simp only [waitStep, s₁, setReader_readers, setReader_segments, ge_iff_le,
        if_pos hsum]
      rfl
    have h₃ : waitStep cfg s₂ r false = some s₃ := by
      simp only [waitStep, s₂, s₁, setReader_readers, setReader_segments,
        hset.inProgress, Bool.false_eq_true, if_false]
      rfl
    refine ⟨[.wait r false, .wait r false, .wait r false], s₃, _, ?_,
      setReader_readers _ _ _, rfl⟩
    exact System.run_cons_eq_some.2 ⟨s₁, h₁, System.run_cons_eq_some.2
      ⟨s₂, h₂, System.run_singleton_eq_some.2 h₃⟩⟩

/-- A reader at the head of the loop gets out of it exactly when one of the
exit conditions is true now. -/
theorem settled_reader_leaves_iff {cfg : Config} {s : State} {r : Nat}
    {c : ReadCall} (hset : Settled s) (hr : s.readers r = some c)
    (hpc : c.pc = .availability) :
    (∃ ls s' now, (system cfg).run s ls = some s' ∧
        s'.readers r = some now ∧ now.pc = .final) ↔
      ReaderExits cfg s c.position c.count := by
  constructor
  · rintro ⟨ls, s', now, hrun, hnow, hfinal⟩
    by_contra hexit
    have hwait : Waiting c r s := ⟨c, hr, rfl, rfl, Or.inl hpc⟩
    exact (hwait.run hset hexit hrun).not_final hnow hfinal
  · exact reader_leaves hset hr hpc

/-! ## When the exit conditions are true -/

/-- What the counters must say: the whole range is available, or they add up
to the total size. -/
def RangeSettled (cfg : Config) (s : State) (position count : Int) : Prop :=
  cfg.totalSize ≤ totalProgress s.segments ∨
    ∀ p, position ≤ p → p < position + count → AvailableAt s.segments p

theorem settled_exits_iff {cfg : Config} {s : State} (hcover : CoverInv cfg s)
    (hset : Settled s) (position count : Int) (hcount : 0 < count)
    (hend : position + count ≤ cfg.totalSize) :
    ReaderExits cfg s position count ↔ RangeSettled cfg s position count := by
  have havail := le_available_iff hcover.tiles position count
    hcount (by omega) (by omega)
  unfold ReaderExits RangeSettled
  rw [hset.finished_iff, ge_iff_le, havail, or_comm]
  simp [hend]

/-- In a settled state the readers are released if the counters have reached the
total size. -/
theorem readersReleased_of_le {cfg : Config} {s : State} (hset : Settled s)
    (hsum : cfg.totalSize ≤ totalProgress s.segments) : ReadersReleased cfg s where
  exits _ _ _ _ _ := Or.inr (hset.finished_iff.2 hsum)
  leaves _ _ hr hpc := reader_leaves hset hr hpc (Or.inr (hset.finished_iff.2 hsum))

/-- A reader enters its loop, and the download is cancelled before the first
chunk arrives. -/
def cancelledRun : List Label :=
  [.readAt 0 0 1, .cancel, .task 0, .monitor]

/-- The state that `cancelledRun` ends in. -/
def cancelledEnd : State :=
  ((system (sevens 3)).run (init (sevens 3)) cancelledRun).get
    (by decide +kernel)

theorem cancelledEnd_settled : Settled cancelledEnd where
  cancelled := by decide +kernel
  monitor := by decide +kernel
  tasks := by decide +kernel

theorem cancelledEnd_reachable : (system (sevens 3)).Reachable cancelledEnd :=
  System.reachable_of_run (.init rfl) (Option.some_get _).symm

theorem cancelledEnd_not_exits : ¬ReaderExits (sevens 3) cancelledEnd 0 1 := by
  have hnot : ¬(getContiguousAvailableBytesUnsafe (sevens 3) cancelledEnd.segments 0 1 ≥ 1 ∨
      finished (sevens 3) cancelledEnd.segments = true) := by
    decide +kernel
  exact hnot

/-- The reader of `cancelledRun` waits forever. -/
theorem cancelled_reader_stuck :
    (¬∃ ls s' now, (system (sevens 3)).run cancelledEnd ls = some s' ∧
        s'.readers 0 = some now ∧ now.pc = .final) ∧
      ¬∀ (cfg : Config) (s : State), (system cfg).Reachable s → Settled s →
        ReadersReleased cfg s := by
  constructor
  · have hcall : (cancelledEnd.readers 0).map (fun c => (c.pc, c.position, c.count)) =
        some (.availability, 0, 1) := by
      decide +kernel
    obtain ⟨c, hr, hc⟩ := Option.map_eq_some_iff.1 hcall
    rw [Prod.mk.injEq, Prod.mk.injEq] at hc
    obtain ⟨hpc, hposition, hcount⟩ := hc
    rw [settled_reader_leaves_iff cancelledEnd_settled hr hpc, hposition, hcount]
    exact cancelledEnd_not_exits
  · intro h
    have hexit := (h (sevens 3) cancelledEnd cancelledEnd_reachable
      cancelledEnd_settled).exits 0 1 (by decide) (by decide) (by decide)
    exact cancelledEnd_not_exits hexit

end DirectPackageInstaller.SegmentedStream
