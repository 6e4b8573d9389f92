import DirectPackageInstaller.Lib.Transition
import Mathlib.Data.Int.Interval
import Mathlib.Tactic.Common

/-!
# A download task and its worker

`Downloader.CreateTask` starts a background worker for a URL.  `DoDownload`
copies an open stream into a temp file that it must create; it signals its end
with `Running = false`.  `DoSegmentedDownload` only builds a
`SegmentedStream`, whose own threads do the work, and never clears `Running`.

`DownloaderTask` is a struct.  Its copies have their own `SegmentedRead`,
`Running` and `Error`, but they point to the same two cells and to the same
`SegmentedStream`.  The cells are kept apart here, in `Shared`.

* `after`: the task that a history of a worker leaves, in closed form.
* `eq_after_of_run`: it is the one that the worker leaves step by step.
* `segmented_history`: the constructor of the `SegmentedStream` returns first
  or is the only event.
-/

namespace DirectPackageInstaller.Downloader

open Transition

/-! ## Tasks -/

/-- What all copies of a task share: the cells behind its pointers, and its
`SegmentedStream` as far as a task reads it. -/
structure Shared where
  /-- `*Length`. -/
  length : Nat
  /-- `*ReadyLength`. -/
  readyLength : Nat
  /-- `SegmentedRead.Length`. -/
  streamLength : Nat
  /-- `SegmentedRead.ScanProgress`. -/
  scanProgress : Nat
deriving DecidableEq, Repr

/-- The fields that each copy of a `DownloaderTask` has for itself. -/
structure DownloaderTask where
  /-- `SegmentedRead != null`. -/
  segmentedRead : Bool
  running : Bool
  /-- `Error != null`. -/
  error : Bool
deriving DecidableEq, Repr

/-- `SafeLength`. -/
def DownloaderTask.safeLength (t : DownloaderTask) (m : Shared) : Nat :=
  if t.segmentedRead then m.streamLength else m.length

/-- `SafeReadyLength`. -/
def DownloaderTask.safeReadyLength (t : DownloaderTask) (m : Shared) : Nat :=
  if t.segmentedRead then m.scanProgress else m.readyLength

/-- `Failed`. -/
def DownloaderTask.failed (t : DownloaderTask) (m : Shared) : Bool :=
  !t.running && decide (0 < t.safeReadyLength m) &&
    decide (t.safeReadyLength m < t.safeLength m)

/-- A task with its worker.  `task` is the copy in `Tasks[URL]`. -/
structure Download where
  shared : Shared
  task : DownloaderTask
  /-- The worker is `DoSegmentedDownload`. -/
  segmented : Bool
  /-- `Length` of the stream that the worker reads. -/
  inputLength : Nat
  /-- `Output.Length`, the bytes in the temp file. -/
  written : Nat
  /-- The worker, or the `SegmentedStream` that it has created, can still
  change the task. -/
  alive : Bool
deriving DecidableEq, Repr

/-- A task whose worker has just been started. -/
def fresh (segmented : Bool) (inputLength : Nat) : Download where
  shared := { length := 0, readyLength := 0, streamLength := 0, scanProgress := 0 }
  task := { segmentedRead := false, running := true, error := false }
  segmented := segmented
  inputLength := inputLength
  written := 0
  alive := true

/-- The `catch` and `finally` blocks of `DoDownload` after an exception. -/
def Download.fail (d : Download) : Download :=
  { d with
    task := { d.task with running := false, error := true }
    alive := false }

/-- The start of a worker.  `DoDownload` opens the temp file with
`FileMode.CreateNew`, which throws when it exists; `DoSegmentedDownload` has
no use for that file. -/
def start (tempFile segmented : Bool) (inputLength : Nat) : Download :=
  if !segmented && tempFile then (fresh segmented inputLength).fail
  else fresh segmented inputLength

/-! ## Workers -/

inductive WorkerEvent
  /-- The constructor of the `SegmentedStream` has returned. -/
  | opened
  /-- `n` bytes have arrived, and `ReadyLength` or `ScanProgress` grows. -/
  | read (n : Nat)
  /-- `Input.Read` returns 0, or the threads of the `SegmentedStream` end:
  everything is there, or it has been cancelled. -/
  | eof
  /-- An exception in the `try` block of the worker. -/
  | throw
deriving DecidableEq, Repr

/-- The assignment to `*Length` in the loop of `DoDownload`. -/
def Download.knownLength (d : Download) : Nat :=
  if d.shared.length = 0 then d.inputLength else d.shared.length

/-- An event of `DoDownload`. -/
def Download.directStep (d : Download) : WorkerEvent → Option Download
  | .opened => none
  | .read n =>
    if n = 0 then none
    else some { d with
      written := d.written + n
      shared := { d.shared with
        length := d.knownLength
        readyLength := d.shared.readyLength + n } }
  | .eof =>
    some { d with
      shared := { d.shared with length := d.knownLength, readyLength := d.written }
      task := { d.task with running := false }
      alive := false }
  | .throw => some d.fail

/-- An event of `DoSegmentedDownload` or of its `SegmentedStream`, whose
threads catch their exceptions and try again. -/
def Download.segmentedStep (d : Download) : WorkerEvent → Option Download
  | .opened =>
    if d.task.segmentedRead then none
    else some { d with
      shared := { d.shared with streamLength := d.inputLength }
      task := { d.task with segmentedRead := true } }
  | .read n =>
    if d.task.segmentedRead = false ∨ n = 0 ∨
        d.inputLength < d.shared.scanProgress + n then none
    else some { d with
      shared := { d.shared with scanProgress := d.shared.scanProgress + n } }
  | .eof => if d.task.segmentedRead then some { d with alive := false } else none
  | .throw =>
    if d.task.segmentedRead then none
    else some { d with task := { d.task with error := true }, alive := false }

def Download.step (d : Download) (e : WorkerEvent) : Option Download :=
  if d.alive = false then none
  else if d.segmented then d.segmentedStep e
  else d.directStep e

/-- The worker of one task. -/
def worker (segmented : Bool) (inputLength : Nat) :
    System Download WorkerEvent where
  init := fun d => d = fresh segmented inputLength
  step := Download.step

/-! ## The task that a history leaves -/

def WorkerEvent.bytes : WorkerEvent → Nat
  | .read n => n
  | _ => 0

/-- The bytes that arrive in a history. -/
def delivered (es : List WorkerEvent) : Nat :=
  (es.map WorkerEvent.bytes).sum

/-- An event other than an exception. -/
def WorkerEvent.progresses (e : WorkerEvent) : Bool :=
  decide (e ≠ .throw)

/-- Nothing in the history ends the worker. -/
def goesOn (es : List WorkerEvent) : Bool :=
  !es.contains .throw && !es.contains .eof

/-- The task that `DoDownload` leaves. -/
def directAfter (inputLength : Nat) (es : List WorkerEvent) : Download where
  shared :=
    { length := if es.any WorkerEvent.progresses then inputLength else 0
      readyLength := delivered es
      streamLength := 0
      scanProgress := 0 }
  task := { segmentedRead := false, running := goesOn es, error := es.contains .throw }
  segmented := false
  inputLength := inputLength
  written := delivered es
  alive := goesOn es

/-- The task that `DoSegmentedDownload` leaves; `running` stays true. -/
def segmentedAfter (inputLength : Nat) (es : List WorkerEvent) : Download where
  shared :=
    { length := 0
      readyLength := 0
      streamLength := if es.contains .opened then inputLength else 0
      scanProgress := delivered es }
  task :=
    { segmentedRead := es.contains .opened
      running := true
      error := es.contains .throw }
  segmented := true
  inputLength := inputLength
  written := 0
  alive := goesOn es

/-- The task that a worker leaves after a history. -/
def after (segmented : Bool) (inputLength : Nat) (es : List WorkerEvent) :
    Download :=
  if segmented then segmentedAfter inputLength es else directAfter inputLength es

@[simp] theorem delivered_snoc (es : List WorkerEvent) (e : WorkerEvent) :
    delivered (es ++ [e]) = delivered es + e.bytes := by
  simp [delivered]

theorem goesOn_snoc (es : List WorkerEvent) (e : WorkerEvent) :
    goesOn (es ++ [e]) = (goesOn es && decide (e ≠ .throw) && decide (e ≠ .eof)) := by
  cases e <;> simp [goesOn]

/-- Bytes do not arrive by exceptions alone. -/
theorem any_progresses_of_delivered {es : List WorkerEvent}
    (h : 0 < delivered es) : es.any WorkerEvent.progresses = true := by
  induction es with
  | nil => cases h
  | cons e es ih =>
    cases e with
    | throw =>
      have hes : 0 < delivered es := by simpa [delivered, WorkerEvent.bytes] using h
      simp [ih hes]
    | opened => rfl
    | read n => rfl
    | eof => rfl

theorem after_nil (segmented : Bool) (inputLength : Nat) :
    after segmented inputLength [] = fresh segmented inputLength := by
  cases segmented <;> rfl

/-- One event of `DoDownload`. -/
theorem directAfter_snoc {inputLength : Nat} {es : List WorkerEvent}
    {e : WorkerEvent} {d : Download}
    (h : (directAfter inputLength es).step e = some d) :
    d = directAfter inputLength (es ++ [e]) := by
  have halive : goesOn es = true := by
    by_contra hdead
    rw [Bool.not_eq_true] at hdead
    simp [Download.step, directAfter, hdead] at h
  have hnothrow : es.contains .throw = false := by
    simp only [goesOn, Bool.and_eq_true, Bool.not_eq_true'] at halive
    exact halive.1
  have hknown : (directAfter inputLength es).knownLength = inputLength := by
    simp only [Download.knownLength, directAfter]
    split_ifs <;> simp_all
  have hstep : (directAfter inputLength es).directStep e = some d := by
    simpa [Download.step, directAfter, halive] using h
  cases e with
  | opened => cases hstep
  | read n =>
    simp only [Download.directStep] at hstep
    split_ifs at hstep
    rw [Option.some.injEq] at hstep
    rw [← hstep, hknown]
    simp [directAfter, goesOn_snoc, WorkerEvent.progresses, WorkerEvent.bytes]
  | eof =>
    simp only [Download.directStep, Option.some.injEq] at hstep
    rw [← hstep, hknown]
    simp [directAfter, goesOn_snoc, WorkerEvent.progresses, WorkerEvent.bytes]
  | throw =>
    simp only [Download.directStep, Option.some.injEq] at hstep
    rw [← hstep]
    simp [Download.fail, directAfter, goesOn_snoc, WorkerEvent.progresses,
      WorkerEvent.bytes]

/-- One event of `DoSegmentedDownload` or of its stream. -/
theorem segmentedAfter_snoc {inputLength : Nat} {es : List WorkerEvent}
    {e : WorkerEvent} {d : Download}
    (h : (segmentedAfter inputLength es).step e = some d) :
    d = segmentedAfter inputLength (es ++ [e]) := by
  have halive : goesOn es = true := by
    by_contra hdead
    rw [Bool.not_eq_true] at hdead
    simp [Download.step, segmentedAfter, hdead] at h
  have hstep : (segmentedAfter inputLength es).segmentedStep e = some d := by
    simpa [Download.step, segmentedAfter, halive] using h
  cases e
  all_goals
    simp only [Download.segmentedStep] at hstep
    split_ifs at hstep
    rw [Option.some.injEq] at hstep
    rw [← hstep]
    simp [segmentedAfter, goesOn_snoc, WorkerEvent.bytes]

/-- What a worker has done to its task follows from its history. -/
theorem eq_after_of_run {segmented : Bool} {inputLength : Nat}
    {es : List WorkerEvent} {d : Download}
    (h : (worker segmented inputLength).run (fresh segmented inputLength) es = some d) :
    d = after segmented inputLength es := by
  induction es using List.reverseRecOn generalizing d with
  | nil =>
    rw [System.run_nil, Option.some.injEq] at h
    rw [after_nil, h]
  | append_singleton es e ih =>
    obtain ⟨m, hm, hlast⟩ := System.run_append_eq_some.1 h
    rw [System.run_singleton_eq_some] at hlast
    have hd : (after segmented inputLength es).step e = some d := ih hm ▸ hlast
    cases segmented with
    | false => exact directAfter_snoc hd
    | true => exact segmentedAfter_snoc hd

/-- The constructor of the `SegmentedStream` returns before anything else
happens, or it throws and nothing else happens. -/
theorem segmented_history {inputLength : Nat} {es : List WorkerEvent} {d : Download}
    (h : (worker true inputLength).run (fresh true inputLength) es = some d) :
    es = [] ∨ es = [.throw] ∨ (.opened ∈ es ∧ .throw ∉ es) := by
  induction es using List.reverseRecOn generalizing d with
  | nil => exact .inl rfl
  | append_singleton es e ih =>
    obtain ⟨m, hm, hlast⟩ := System.run_append_eq_some.1 h
    rw [System.run_singleton_eq_some, eq_after_of_run hm] at hlast
    replace hlast : (segmentedAfter inputLength es).step e = some d := hlast
    rcases ih hm with rfl | rfl | ⟨hopened, hnothrow⟩
    · cases e with
      | opened => exact .inr (.inr (by simp))
      | throw => exact .inr (.inl rfl)
      | read n => cases hlast
      | eof => cases hlast
    · cases hlast
    · refine .inr (.inr ⟨List.mem_append_left _ hopened, ?_⟩)
      intro hthrow
      rcases List.mem_append.1 hthrow with hthrow | hthrow
      · exact hnothrow hthrow
      · rw [List.mem_singleton] at hthrow
        subst hthrow
        simp [Download.step, Download.segmentedStep, segmentedAfter, hopened] at hlast

end DirectPackageInstaller.Downloader
