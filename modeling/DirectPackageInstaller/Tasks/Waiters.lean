import DirectPackageInstaller.Compression.SharpComp
import DirectPackageInstaller.Lib.Polling
import DirectPackageInstaller.Tasks.Downloader.Recovery

/-!
# The loops that wait for downloads and extractions

Four loops poll the state of a background worker: the wait loop of
`Downloader.CreateTask`, the two preload loops of `Installer.PushPackage` and
the wait for a length in `PS4Server.Cache`.  None of them gives up by itself;
each relies on the worker to make its guard false, also when the worker fails.

The loops see the task in different ways.  `CreateTask` reads `Tasks[URL]`
anew in each turn.  The preload loops hold a copy of the struct, whose
pointers they follow.  `Cache` reads the length once, into a local variable.

* `download_released_iff`: what each loop over a download needs.
A preload loop over an extraction reads the counter in the frame of its worker,
which holds something else when the worker has ended.

* `loops_released_iff`: when the worker has ended, all loops that still poll are
  released exactly when each has got what it waits for by the outcome of the work.
* `createTask_spins`: the constructor of a `SegmentedStream` throws.
-/

namespace DirectPackageInstaller.Waiters

open Transition Downloader SharpComp

/-! ## Downloads -/

/-- The loops over a download task. -/
inductive Loop
  /-- The wait loop of `CreateTask`. -/
  | createTask
  /-- The preload loop of `PushPackage`, up to `LastResource`. -/
  | preload (lastResource : Nat)
  /-- `while (Length == 0)` in `Cache`. -/
  | cache
deriving DecidableEq, Repr

/-- The local variables of a loop. -/
inductive LoopVars
  | createTask (segmented : Bool)
  | preload (cacheTask : DownloaderTask) (lastResource : Nat)
  | cache (length : Nat)
deriving DecidableEq, Repr

/-- What a loop takes from `Tasks[URL]` when it is entered. -/
def enterLoop (d : Download) : Loop → LoopVars
  | .createTask => .createTask d.segmented
  | .preload lastResource => .preload d.task lastResource
  | .cache =>
    -- the stream of `OpenRead` is a `FileStream` or a `SegmentedStreamReader`,
    -- so its cast to `SegmentedStream` gives `null`
    .cache (d.task.safeLength d.shared)

/-- The loop goes on. -/
def loopGuard (d : Download) : LoopVars → Bool
  | .createTask segmented => waits segmented d
  | .preload cacheTask lastResource =>
    decide (cacheTask.safeReadyLength d.shared < lastResource)
  | .cache length => decide (length = 0)

/-- The loops that poll the task of a download. -/
def downloadLoops (segmented : Bool) (inputLength : Nat) :
    Polling Download Downloader.WorkerEvent Loop LoopVars where
  work := Downloader.worker segmented inputLength
  enter := enterLoop
  guard := loopGuard

/-- What a loop over a download needs from the outcome of the work: the wait
loop a stream with a length, when it waits for one; a preload loop its bytes,
and a task that has its `SegmentedStream` already; `Cache` a length that is
known already. -/
def LoopFits (segmented : Bool) (inputLength : Nat)
    (past rest : List Downloader.WorkerEvent) : Loop → Prop
  | .createTask => segmented = true → inputLength ≠ 0 ∧ .throw ∉ past ++ rest
  | .preload lastResource =>
    lastResource ≤ if segmented = true ∧ past = [] then 0 else delivered (past ++ rest)
  | .cache => inputLength ≠ 0 ∧ past.any Downloader.WorkerEvent.progresses = true

/-- `DoDownload` clears `Running`, so only the amounts count. -/
theorem direct_released_iff {inputLength : Nat}
    {past rest : List Downloader.WorkerEvent} (hend : goesOn (past ++ rest) = false)
    (k : Loop) :
    loopGuard (directAfter inputLength (past ++ rest))
        (enterLoop (directAfter inputLength past) k) = false ↔
      LoopFits false inputLength past rest k := by
  cases k with
  | createTask =>
    simp [loopGuard, enterLoop, LoopFits, waits, directAfter, hend]
  | preload lastResource =>
    simp [loopGuard, enterLoop, LoopFits, directAfter, DownloaderTask.safeReadyLength]
  | cache =>
    simp only [loopGuard, enterLoop, LoopFits, directAfter, DownloaderTask.safeLength]
    cases past.any Downloader.WorkerEvent.progresses <;> simp

/-- `DoSegmentedDownload` leaves `Running` set, and a copy of the task from
before its end has no `SegmentedStream`. -/
theorem segmented_released_iff {inputLength : Nat}
    {past rest : List Downloader.WorkerEvent} {now final : Download}
    (hnow : (Downloader.worker true inputLength).run (fresh true inputLength) past =
      some now)
    (hfinal : (Downloader.worker true inputLength).run (fresh true inputLength)
      (past ++ rest) = some final)
    (hend : goesOn (past ++ rest) = false) (k : Loop) :
    loopGuard (segmentedAfter inputLength (past ++ rest))
        (enterLoop (segmentedAfter inputLength past) k) = false ↔
      LoopFits true inputLength past rest k := by
  cases k with
  | createTask =>
    rcases segmented_history hfinal with hnil | hthrow | ⟨hopened, hnothrow⟩
    · rw [hnil] at hend
      cases hend
    · simp [loopGuard, enterLoop, LoopFits, waits, hthrow, segmentedAfter]
    · simp only [LoopFits, hnothrow, not_false_eq_true, and_true]
      simp [loopGuard, enterLoop, waits, segmentedAfter, hopened]
  | preload lastResource =>
    rcases segmented_history hnow with rfl | rfl | ⟨hopened, -⟩
    · simp [loopGuard, enterLoop, LoopFits, segmentedAfter,
        DownloaderTask.safeReadyLength]
    · have hrest : rest = [] := by
        rcases segmented_history hfinal with hnil | hthrow | ⟨-, hnothrow⟩
        · cases hnil
        · simpa using hthrow
        · simp at hnothrow
      simp [loopGuard, enterLoop, LoopFits, segmentedAfter, hrest, delivered,
        Downloader.WorkerEvent.bytes, DownloaderTask.safeReadyLength]
    · have hne : past ≠ [] := List.ne_nil_of_mem hopened
      simp [loopGuard, enterLoop, LoopFits, segmentedAfter, hopened, hne,
        DownloaderTask.safeReadyLength]
  | cache =>
    rcases segmented_history hnow with rfl | rfl | ⟨hopened, -⟩
    · simp [loopGuard, enterLoop, LoopFits, segmentedAfter, DownloaderTask.safeLength]
    · simp [loopGuard, enterLoop, LoopFits, segmentedAfter, DownloaderTask.safeLength,
        Downloader.WorkerEvent.progresses]
    · have hany : past.any Downloader.WorkerEvent.progresses = true :=
        List.any_eq_true.2 ⟨.opened, hopened, rfl⟩
      simp [loopGuard, enterLoop, LoopFits, segmentedAfter, DownloaderTask.safeLength,
        hopened, hany]

/-- A worker that could not create its temp file has ended at once. -/
theorem tempFile_released_iff {inputLength : Nat}
    {past rest : List Downloader.WorkerEvent} {now final : Download}
    (hnow : (Downloader.worker false inputLength).run
      (Downloader.start true false inputLength) past = some now)
    (hfinal : (Downloader.worker false inputLength).run
      (Downloader.start true false inputLength) (past ++ rest) = some final)
    (k : Loop) :
    loopGuard final (enterLoop now k) = false ↔
      LoopFits false inputLength past rest k := by
  have hnil : past ++ rest = [] := by
    cases hes : past ++ rest with
    | nil => rfl
    | cons e es =>
      rw [hes] at hfinal
      obtain ⟨m, hm, -⟩ := System.run_cons_eq_some.1 hfinal
      cases hm
  obtain ⟨rfl, rfl⟩ := List.append_eq_nil_iff.1 hnil
  rw [start_tempFile hnow, start_tempFile hfinal]
  cases k with
  | createTask => simp [loopGuard, enterLoop, LoopFits, waits, Download.fail]
  | preload lastResource =>
    simp [loopGuard, enterLoop, LoopFits, Download.fail, fresh, delivered,
      DownloaderTask.safeReadyLength]
  | cache =>
    simp [loopGuard, enterLoop, LoopFits, Download.fail, fresh,
      DownloaderTask.safeLength]

/-- A loop over a download whose worker has ended is released exactly when it
has got what it needs. -/
theorem download_released_iff {tempFile segmented : Bool} {inputLength : Nat}
    {past rest : List Downloader.WorkerEvent} {now final : Download}
    (hnow : (Downloader.worker segmented inputLength).run
      (Downloader.start tempFile segmented inputLength) past = some now)
    (hfinal : (Downloader.worker segmented inputLength).run
      (Downloader.start tempFile segmented inputLength) (past ++ rest) = some final)
    (hend : final.alive = false) (k : Loop) :
    loopGuard final (enterLoop now k) = false ↔
      LoopFits segmented inputLength past rest k := by
  cases segmented with
  | true =>
    have hafter : final = segmentedAfter inputLength (past ++ rest) :=
      eq_after_of_run hfinal
    have hbefore : now = segmentedAfter inputLength past := eq_after_of_run hnow
    subst hafter hbefore
    exact segmented_released_iff hnow hfinal hend k
  | false =>
    cases tempFile with
    | true => exact tempFile_released_iff hnow hfinal k
    | false =>
      have hafter : final = directAfter inputLength (past ++ rest) :=
        eq_after_of_run hfinal
      have hbefore : now = directAfter inputLength past := eq_after_of_run hnow
      subst hafter hbefore
      exact direct_released_iff hend k

/-! ## Extractions -/

/-- The worker of one extraction. -/
def extractor (archive : Archive) (entry : Entry) :
    System DecompressTaskInfo SharpComp.WorkerEvent where
  init := fun t => t = .start archive entry
  step := DecompressTaskInfo.worker

/-- The preload loop of `PushPackage` over the counter of an extraction, up to
`LastResource`.  The copy of the task points to the counter of its worker. -/
def extractionLoops (archive : Archive) (entry : Entry) :
    Polling DecompressTaskInfo SharpComp.WorkerEvent Nat Nat where
  work := extractor archive entry
  enter := fun _ lastResource => lastResource
  guard := fun t lastResource => decide (t.totalDecompressed < lastResource)

/-- What an event of an extraction makes of the word of the counter. -/
def counted (word : Int) : SharpComp.WorkerEvent → Int
  | .read n => word + n
  | .fail => word
  | .overwrite value => value.toInt

/-- What stands in the word of the counter: the bytes that came, or what the
frame was used for behind the end of the worker. -/
def counter (es : List SharpComp.WorkerEvent) : Int :=
  es.foldl counted 0

/-- A preload loop over an extraction needs its amount in the word. -/
def PreloadFits (past rest : List SharpComp.WorkerEvent) (lastResource : Nat) :
    Prop :=
  lastResource ≤ counter (past ++ rest)

/-- While the worker runs, the counter counts what is written. -/
def Counts (t : DecompressTaskInfo) : Prop :=
  t.running = true → t.totalDecompressed = t.written

theorem worker_counted {t t' : DecompressTaskInfo} {e : SharpComp.WorkerEvent}
    (hcounts : Counts t) (h : t.worker e = some t') :
    Counts t' ∧ t'.totalDecompressed = counted t.totalDecompressed e := by
  cases e with
  | read n =>
    simp only [DecompressTaskInfo.worker] at h
    split_ifs at h with hstop hpos htries
    all_goals
      rw [not_or, Bool.not_eq_false] at hstop
      have hword := hcounts hstop.1
      cases h
    · refine ⟨fun _ => ?_, rfl⟩
      show t.totalDecompressed + (n : Int) = ((t.written + n : Nat) : Int)
      rw [hword]
      rfl
    · have hzero : n = 0 := Nat.eq_zero_of_not_pos hpos
      exact ⟨fun _ => hword, by simp [counted, hzero]⟩
    · have hzero : n = 0 := Nat.eq_zero_of_not_pos hpos
      refine ⟨(fun hrunning => by cases hrunning), ?_⟩
      simp [counted, hzero, hword]
  | fail =>
    simp only [DecompressTaskInfo.worker] at h
    split_ifs at h
    cases h
    exact ⟨(fun hrunning => by cases hrunning), rfl⟩
  | overwrite value =>
    simp only [DecompressTaskInfo.worker] at h
    split_ifs at h with hrunning
    cases h
    exact ⟨fun hruns => absurd hruns hrunning, rfl⟩

/-- The word that the loops over an extraction read. -/
theorem extractor_counter {archive : Archive} {entry : Entry}
    {es : List SharpComp.WorkerEvent} {t : DecompressTaskInfo}
    (h : (extractor archive entry).run (.start archive entry) es = some t) :
    Counts t ∧ t.totalDecompressed = counter es := by
  induction es using List.reverseRecOn generalizing t with
  | nil =>
    rw [System.run_nil, Option.some.injEq] at h
    subst h
    exact ⟨fun _ => rfl, rfl⟩
  | append_singleton es e ih =>
    obtain ⟨m, hm, hlast⟩ := System.run_append_eq_some.1 h
    have hstep : m.worker e = some t := System.run_singleton_eq_some.1 hlast
    obtain ⟨hcounts, hword⟩ := ih hm
    obtain ⟨hcounts', hword'⟩ := worker_counted hcounts hstep
    refine ⟨hcounts', ?_⟩
    rw [hword', hword, counter, counter, List.foldl_append]
    rfl

/-- A preload loop over an extraction is released exactly when its amount stands
in the word. -/
theorem extraction_released_iff {archive : Archive} {entry : Entry}
    {past rest : List SharpComp.WorkerEvent} {final : DecompressTaskInfo}
    (hfinal : (extractor archive entry).run (.start archive entry) (past ++ rest) =
      some final) (lastResource : Nat) :
    decide (final.totalDecompressed < lastResource) = false ↔
      PreloadFits past rest lastResource := by
  rw [decide_eq_false_iff_not, Int.not_lt, (extractor_counter hfinal).2]
  rfl

/-! ## Both kinds of work -/

/-- The background work for a URL or an archive entry. -/
inductive Work
  | download (tempFile segmented : Bool) (inputLength : Nat)
  | extraction (archive : Archive) (entry : Entry)
deriving DecidableEq, Repr

namespace Work

/-- What the worker changes. -/
abbrev Task : Work → Type
  | .download .. => Download
  | .extraction .. => DecompressTaskInfo

abbrev Event : Work → Type
  | .download .. => Downloader.WorkerEvent
  | .extraction .. => SharpComp.WorkerEvent

/-- The loops that poll the work; an extraction has preload loops only. -/
abbrev Poll : Work → Type
  | .download .. => Loop
  | .extraction .. => Nat

abbrev PollVars : Work → Type
  | .download .. => LoopVars
  | .extraction .. => Nat

def loops : (w : Work) → Polling w.Task w.Event w.Poll w.PollVars
  | .download _ segmented inputLength => downloadLoops segmented inputLength
  | .extraction archive entry => extractionLoops archive entry

def start : (w : Work) → w.Task
  | .download tempFile segmented inputLength =>
    Downloader.start tempFile segmented inputLength
  | .extraction archive entry => .start archive entry

/-- The worker has ended, and no `SegmentedStream` of it goes on. -/
def Ended : (w : Work) → w.Task → Prop
  | .download .., d => d.alive = false
  | .extraction .., t => t.running = false

/-- What a loop needs from the events before and after its entry. -/
def Fits : (w : Work) → List w.Event → List w.Event → w.Poll → Prop
  | .download _ segmented inputLength => LoopFits segmented inputLength
  | .extraction .. => PreloadFits

abbrev State (w : Work) : Type := Polling.State w.Task w.Event w.Poll w.PollVars

/-- The work, and the loops that poll it. -/
def system (w : Work) : System w.State (Polling.Label w.Event w.Poll) :=
  w.loops.system w.start

/-- The state in which the worker starts. -/
def init (w : Work) : w.State := Polling.start w.start

end Work

/-- In every run in which the worker of a download or an extraction has ended,
all loops that have not left are released exactly when each was entered at a
point where the events of the work give it what it needs. -/
theorem loops_released_iff (w : Work) (ls : List (Polling.Label w.Event w.Poll)) (s : w.State)
    (hrun : w.system.run w.init ls = some s) (hended : w.Ended s.work) :
    (∀ l ∈ s.loops, l.left = false → w.loops.guard s.work l.vars = false) ↔
      ∀ l ∈ s.loops, l.left = false →
        w.Fits l.past (s.past.drop l.past.length) l.loop := by
  refine Polling.released_iff hrun ?_
  intro past since now k hpast hnow
  have hwork := (Polling.history_of_run hrun).work
  rw [hpast] at hwork
  cases w with
  | download tempFile segmented inputLength =>
    exact download_released_iff hnow hwork hended k
  | extraction archive entry => exact extraction_released_iff hwork k

/-- A download of ten bytes from an open stream, with a free temp file. -/
def pushWork : Work := .download false false 10

/-- The call that starts it waits, and a package is pushed and served once the
first bytes are there. -/
def pushRun : List (Polling.Label Downloader.WorkerEvent Loop) :=
  [.enter .createTask, .work (.read 6), .enter (.preload 8), .enter .cache, .leave 0,
    .work (.read 4), .work .eof]

/-- The state that `pushRun` ends in. -/
def pushEnd : pushWork.State :=
  (pushWork.system.run pushWork.init pushRun).get (by decide +kernel)

theorem loops_released_pushEnd :
    (pushEnd.loops.map fun l => l.left) = [true, false, false] ∧
      ((∀ l ∈ pushEnd.loops, l.left = false → pushWork.loops.guard pushEnd.work l.vars = false) ↔
        ∀ l ∈ pushEnd.loops, l.left = false →
          pushWork.Fits l.past (pushEnd.past.drop l.past.length) l.loop) :=
  ⟨by decide +kernel,
    loops_released_iff pushWork pushRun pushEnd (Option.some_get _).symm
      (show pushEnd.work.alive = false by decide +kernel)⟩

/-- A download by a `SegmentedStream`. -/
def spinWork : Work := .download false true 10

/-- The state in which the constructor of the `SegmentedStream` has thrown
while a call waits for its length. -/
def spinEnd : spinWork.State :=
  (spinWork.system.run spinWork.init [.enter Loop.createTask, .work .throw]).get
    (by decide +kernel)

/-- The wait loop of the call outlives its worker. -/
theorem createTask_spins :
    ¬∀ (w : Work) (s : w.State), w.system.Reachable s → w.Ended s.work →
        ∀ l ∈ s.loops, l.left = false → w.loops.guard s.work l.vars = false := by
  intro h
  have hreach : spinWork.system.Reachable spinEnd :=
    System.reachable_of_run (.init rfl) (Option.some_get _).symm
  have hended : spinEnd.work.alive = false := by decide +kernel
  have hreleased : ∀ l ∈ spinEnd.loops, l.left = false →
      loopGuard spinEnd.work l.vars = false :=
    h spinWork spinEnd hreach hended
  exact absurd hreleased (by decide +kernel)

end DirectPackageInstaller.Waiters
