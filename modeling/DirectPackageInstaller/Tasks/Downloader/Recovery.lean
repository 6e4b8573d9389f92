import DirectPackageInstaller.Tasks.Downloader.Worker

/-!
# `Downloader.CreateTask` over the life of a URL

`CreateTask` hands out the registered task of a URL unless it has `Failed`.
A failed task is logged, removed and replaced; the log line dereferences
`Error`.  The temp file of a URL has a fixed name, stays when its worker ends,
and goes only with `TempHelper.Clear`.

A call is one step here.  What the new worker does until the call returns is
part of the label; a call that is still waiting has not made its step.

* `createTask_recovers_iff`: the calls of a run all hand out a complete or a
  running task exactly when each finds such a task, or starts a worker that
  can do its work.
* `Stuck.createTask`, `Stuck.run`: a task that a call neither replaces nor can
  use stays for good.
* `ended_blocks_iff`: the ends of `DoDownload` that leave such a task.
* `leftover_tempFile`: a second download meets the temp file of the first.
-/

namespace DirectPackageInstaller.Downloader

open Transition

/-! ## Calls -/

/-- A call of `CreateTask` with the stream that its worker would read, and
what that worker does until the call returns. -/
structure Call where
  /-- `Input == null`. -/
  segmented : Bool
  inputLength : Nat
  events : List WorkerEvent
deriving DecidableEq, Repr

/-- The end of a call. -/
inductive Result
  | returned (d : Download)
  /-- `OldTask.Error.ToString()` throws a `NullReferenceException`. -/
  | threw
  /-- The wait loop goes on, and its worker has ended. -/
  | spins
deriving DecidableEq, Repr

structure State where
  /-- `Tasks[URL]`. -/
  current : Option Download
  /-- `GetTempFile(URL + "DownTask")` exists. -/
  tempFile : Bool
  results : List Result
deriving DecidableEq, Repr

def init : State where
  current := none
  tempFile := false
  results := []

def State.log (s : State) (r : Result) : State :=
  { s with results := s.results ++ [r] }

/-- The wait loop of `CreateTask` goes on: its guard holds, and `Running` does
not break it. -/
def waits (segmented : Bool) (d : Download) : Bool :=
  let guard : Bool :=
    if segmented then
      decide ((if d.task.segmentedRead then d.shared.streamLength else 0) = 0)
    else decide (d.task.safeLength d.shared = 0)
  guard && d.task.running

/-- `CreateTask` from the temp file's name on. -/
def newTask (s : State) (call : Call) : Option State :=
  match (worker call.segmented call.inputLength).run
      (start s.tempFile call.segmented call.inputLength) call.events with
  | none => none
  | some d =>
    let s := { s with current := some d, tempFile := s.tempFile || !call.segmented }
    if waits call.segmented d then
      if d.alive then none else some (s.log .spins)
    else some (s.log (.returned d))

def createTask (s : State) (call : Call) : Option State :=
  match s.current with
  | none => newTask s call
  | some old =>
    if old.task.failed old.shared = false then some (s.log (.returned old))
    else if old.task.error then newTask { s with current := none } call
    else some (s.log .threw)

inductive Label
  | createTask (call : Call)
  | worker (e : WorkerEvent)
  /-- `TempHelper.Clear` deletes the temp file. -/
  | clearTemp
deriving DecidableEq, Repr

def step (s : State) : Label → Option State
  | .createTask call => createTask s call
  | .worker e =>
    match s.current with
    | none => none
    | some d => (d.step e).map fun d => { s with current := some d }
  | .clearTemp => some { s with tempFile := false }

/-- Calls of `CreateTask` for one URL, and the workers they start. -/
def system : System State Label where
  init := fun s => s = init
  step := step

/-! ## The tasks that are handed out -/

/-- `ReadyLength = Length` and no `Error`. -/
def Download.Complete (d : Download) : Prop :=
  d.task.error = false ∧ d.task.safeReadyLength d.shared = d.task.safeLength d.shared

/-- A task that may be handed out.  The worker of a running task writes into a
file that it has created. -/
def Download.Current (d : Download) : Prop :=
  d.Complete ∨ d.alive = true

def Result.Good : Result → Prop
  | .returned d => d.Current
  | .threw => False
  | .spins => False

instance (d : Download) : Decidable d.Complete :=
  inferInstanceAs (Decidable (_ ∧ _))

instance (d : Download) : Decidable d.Current :=
  inferInstanceAs (Decidable (_ ∨ _))

instance (r : Result) : Decidable r.Good :=
  match r with
  | .returned d => inferInstanceAs (Decidable d.Current)
  | .threw => inferInstanceAs (Decidable False)
  | .spins => inferInstanceAs (Decidable False)

/-- The condition on a call that starts a worker: a stream with a length, or
a free temp file; no exception before the call returns; and an end by then
only if the input has its full length. -/
def NewFits (tempFile : Bool) (call : Call) : Prop :=
  (call.segmented = true → call.inputLength ≠ 0) ∧
    (call.segmented = false → tempFile = false) ∧
    .throw ∉ call.events ∧
    (.eof ∈ call.events → delivered call.events = call.inputLength)

/-- The condition on a call: a task that stands there and has not failed is
complete or running, and a failed one has an error and a call can replace it. -/
def CreateFits (s : State) : Label → Prop
  | .createTask call =>
    match s.current with
    | none => NewFits s.tempFile call
    | some old =>
      if old.task.failed old.shared then
        old.task.error = true ∧ NewFits s.tempFile call
      else old.Current
  | .worker _ => True
  | .clearTemp => True

/-! ## One call -/

theorem directAfter_current_iff (inputLength : Nat) (es : List WorkerEvent) :
    (directAfter inputLength es).Current ↔
      .throw ∉ es ∧ (.eof ∈ es → delivered es = inputLength) := by
  by_cases hthrow : .throw ∈ es
  · simp [Download.Current, Download.Complete, directAfter, goesOn, hthrow]
  · by_cases heof : .eof ∈ es
    · have hany : es.any WorkerEvent.progresses = true :=
        List.any_eq_true.2 ⟨.eof, heof, rfl⟩
      simp [Download.Current, Download.Complete, directAfter, goesOn, hthrow, heof,
        hany, DownloaderTask.safeReadyLength, DownloaderTask.safeLength]
    · simp [Download.Current, directAfter, goesOn, hthrow, heof]

theorem segmentedAfter_current_iff (inputLength : Nat) {es : List WorkerEvent}
    (hopened : .opened ∈ es) (hthrow : .throw ∉ es) :
    (segmentedAfter inputLength es).Current ↔
      (.eof ∈ es → delivered es = inputLength) := by
  by_cases heof : .eof ∈ es
  · simp [Download.Current, Download.Complete, segmentedAfter, goesOn, hthrow, heof,
      hopened, DownloaderTask.safeReadyLength, DownloaderTask.safeLength]
  · simp [Download.Current, segmentedAfter, goesOn, hthrow, heof]

/-- `DoDownload` cannot create a temp file that exists. -/
theorem start_tempFile {inputLength : Nat} {es : List WorkerEvent} {d : Download}
    (h : (worker false inputLength).run (start true false inputLength) es = some d) :
    d = (fresh false inputLength).fail := by
  cases es with
  | nil => exact (Option.some.inj h).symm
  | cons e es =>
    obtain ⟨m, hm, -⟩ := System.run_cons_eq_some.1 h
    cases hm

/-- What a call that starts a worker leaves. -/
theorem newTask_cases {s s' : State} {call : Call} (h : newTask s call = some s') :
    ∃ d r,
      (worker call.segmented call.inputLength).run
        (start s.tempFile call.segmented call.inputLength) call.events = some d ∧
      s' = { current := some d, tempFile := s.tempFile || !call.segmented,
             results := s.results ++ [r] } ∧
      (waits call.segmented d = true ∧ d.alive = false ∧ r = .spins ∨
        waits call.segmented d = false ∧ r = .returned d) := by
  unfold newTask at h
  split at h
  · cases h
  · rename_i d hd
    dsimp only at h
    split_ifs at h with hwaits halive
    · cases h
      exact ⟨d, .spins, hd, rfl, .inl ⟨hwaits, by simpa using halive, rfl⟩⟩
    · cases h
      exact ⟨d, .returned d, hd, rfl, .inr ⟨by simpa using hwaits, rfl⟩⟩

/-- A call with an open stream ends well exactly when its condition holds. -/
theorem direct_good_iff {tempFile : Bool} {call : Call} {d : Download} {r : Result}
    (hdirect : call.segmented = false)
    (hd : (worker call.segmented call.inputLength).run
      (start tempFile call.segmented call.inputLength) call.events = some d)
    (hr : waits call.segmented d = true ∧ d.alive = false ∧ r = .spins ∨
      waits call.segmented d = false ∧ r = .returned d) :
    r.Good ↔ NewFits tempFile call := by
  rw [hdirect] at hd hr
  cases tempFile with
  | true =>
    have hfail := start_tempFile hd
    subst hfail
    rcases hr with ⟨hwaits, -, -⟩ | ⟨-, rfl⟩
    · cases hwaits
    · simp [Result.Good, Download.Current, Download.Complete, Download.fail, NewFits,
        hdirect]
  | false =>
    have hafter : d = directAfter call.inputLength call.events := eq_after_of_run hd
    subst hafter
    rcases hr with ⟨hwaits, halive, -⟩ | ⟨-, rfl⟩
    · -- `Running` ends the loop together with the worker
      rw [waits, Bool.and_eq_true] at hwaits
      exact absurd (hwaits.2.symm.trans halive) (by decide)
    · refine (directAfter_current_iff ..).trans ?_
      simp [NewFits, hdirect]

/-- A call without a stream ends well exactly when its condition holds. -/
theorem segmented_good_iff {tempFile : Bool} {call : Call} {d : Download} {r : Result}
    (hsegmented : call.segmented = true)
    (hd : (worker call.segmented call.inputLength).run
      (start tempFile call.segmented call.inputLength) call.events = some d)
    (hr : waits call.segmented d = true ∧ d.alive = false ∧ r = .spins ∨
      waits call.segmented d = false ∧ r = .returned d) :
    r.Good ↔ NewFits tempFile call := by
  rw [hsegmented] at hd hr
  have hafter : d = segmentedAfter call.inputLength call.events := eq_after_of_run hd
  have hhistory := segmented_history hd
  subst hafter
  rcases hhistory with hnil | hthrow | ⟨hopened, hnothrow⟩
  · -- the worker has not begun, and the call waits for it
    rw [hnil] at hr
    rcases hr with ⟨-, halive, -⟩ | ⟨hwaits, -⟩
    · cases halive
    · cases hwaits
  · rw [hthrow] at hr
    rcases hr with ⟨-, -, rfl⟩ | ⟨hwaits, -⟩
    · simp [Result.Good, NewFits, hthrow]
    · cases hwaits
  · have hwaits : waits true (segmentedAfter call.inputLength call.events) =
        decide (call.inputLength = 0) := by
      simp [waits, segmentedAfter, hopened]
    rw [hwaits] at hr
    rcases hr with ⟨hzero, -, rfl⟩ | ⟨hlength, rfl⟩
    · simp [Result.Good, NewFits, hsegmented, of_decide_eq_true hzero]
    · refine (segmentedAfter_current_iff _ hopened hnothrow).trans ?_
      simp [NewFits, hsegmented, hnothrow, of_decide_eq_false hlength]

theorem newTask_good_iff {s s' : State} {call : Call} (h : newTask s call = some s') :
    (∀ r ∈ s'.results, r.Good) ↔
      (∀ r ∈ s.results, r.Good) ∧ NewFits s.tempFile call := by
  obtain ⟨d, r, hd, rfl, hr⟩ := newTask_cases h
  simp only [List.mem_append, List.mem_singleton, or_imp, forall_and, forall_eq]
  refine and_congr_right fun _ => ?_
  cases hkind : call.segmented with
  | false => exact direct_good_iff hkind hd hr
  | true => exact segmented_good_iff hkind hd hr

theorem log_good_iff (s : State) (r : Result) :
    (∀ r' ∈ (s.log r).results, r'.Good) ↔ (∀ r' ∈ s.results, r'.Good) ∧ r.Good := by
  simp [State.log, or_imp, forall_and]

/-- A step keeps the results good exactly when its condition holds. -/
theorem step_good_iff {s s' : State} {l : Label} (h : step s l = some s') :
    (∀ r ∈ s'.results, r.Good) ↔ (∀ r ∈ s.results, r.Good) ∧ CreateFits s l := by
  cases l with
  | createTask call =>
    simp only [step, createTask] at h
    simp only [CreateFits]
    split at h
    · exact newTask_good_iff h
    · rename_i old hold
      split_ifs at h with hfailed herror
      · cases h
        rw [log_good_iff, hfailed]
        rfl
      · rw [newTask_good_iff h]
        rw [Bool.not_eq_false] at hfailed
        simp [hfailed, herror]
      · cases h
        rw [log_good_iff]
        rw [Bool.not_eq_false] at hfailed
        simp [Result.Good, hfailed, herror]
  | worker e =>
    simp only [step] at h
    split at h
    · cases h
    · obtain ⟨d, -, rfl⟩ := Option.map_eq_some_iff.1 h
      exact (and_iff_left trivial).symm
  | clearTemp =>
    cases h
    exact (and_iff_left trivial).symm

/-! ## Tasks that block their URL -/

/-- The worker has ended without the whole content, and `CreateTask` hands the
task out or throws before it removes it. -/
def Download.Blocks (d : Download) : Prop :=
  d.alive = false ∧
    if d.task.failed d.shared then d.task.error = false else ¬d.Complete

def Stuck (s : State) : Prop :=
  ∃ d, s.current = some d ∧ d.Blocks

/-- A call on a stuck URL ends badly and changes nothing. -/
theorem Stuck.createTask {s : State} (hs : Stuck s) (call : Call) :
    ∃ r, Downloader.createTask s call = some (s.log r) ∧ ¬r.Good := by
  obtain ⟨d, hd, halive, hblocks⟩ := hs
  by_cases hfailed : d.task.failed d.shared = true
  · rw [if_pos hfailed] at hblocks
    refine ⟨.threw, ?_, fun hgood => hgood⟩
    simp [Downloader.createTask, hd, hfailed, hblocks]
  · rw [if_neg hfailed] at hblocks
    refine ⟨.returned d, ?_, ?_⟩
    · simp [Downloader.createTask, hd, hfailed]
    · rintro (hcomplete | hrunning)
      · exact hblocks hcomplete
      · rw [halive] at hrunning
        cases hrunning

theorem Stuck.step {s s' : State} {l : Label} (hs : Stuck s)
    (h : Downloader.step s l = some s') : Stuck s' := by
  cases l with
  | createTask call =>
    obtain ⟨r, hr, -⟩ := hs.createTask call
    have heq : s.log r = s' := Option.some.inj (hr.symm.trans h)
    exact heq ▸ hs
  | worker e =>
    obtain ⟨d, hd, halive, -⟩ := hs
    simp [Downloader.step, hd, Download.step, halive] at h
  | clearTemp =>
    cases h
    exact hs

/-- A stuck URL stays stuck, whatever happens. -/
theorem Stuck.run {s s' : State} {ls : List Label} (hs : Stuck s)
    (hrun : system.run s ls = some s') : Stuck s' := by
  induction ls generalizing s with
  | nil => exact Option.some.inj hrun ▸ hs
  | cons l ls ih =>
    obtain ⟨m, hm, hrest⟩ := System.run_cons_eq_some.1 hrun
    exact ih (hs.step hm) hrest

/-- The ends of `DoDownload` that block the URL: all but the whole content
and an exception between the first and the last byte. -/
theorem directAfter_blocks_iff {inputLength : Nat} {es : List WorkerEvent}
    (hend : goesOn es = false) :
    (directAfter inputLength es).Blocks ↔
      if .throw ∈ es then ¬(0 < delivered es ∧ delivered es < inputLength)
      else delivered es ≠ inputLength := by
  have halive : (directAfter inputLength es).alive = false := hend
  by_cases hthrow : .throw ∈ es
  · have hfailed : (directAfter inputLength es).task.failed
        (directAfter inputLength es).shared = true ↔
        0 < delivered es ∧ delivered es < inputLength := by
      by_cases hpos : 0 < delivered es
      · simp [directAfter, DownloaderTask.failed, DownloaderTask.safeReadyLength,
          DownloaderTask.safeLength, hend, hpos, any_progresses_of_delivered hpos]
      · simp [directAfter, DownloaderTask.failed, DownloaderTask.safeReadyLength, hpos]
    have herror : (directAfter inputLength es).task.error = true := by
      simpa [directAfter] using hthrow
    have hcomplete : ¬(directAfter inputLength es).Complete := by
      intro hcomplete
      rw [hcomplete.1] at herror
      cases herror
    rw [Download.Blocks, if_pos hthrow, ← hfailed, herror]
    simp [halive, hcomplete]
  · have heof : .eof ∈ es := by simpa [goesOn, hthrow] using hend
    have hany : es.any WorkerEvent.progresses = true :=
      List.any_eq_true.2 ⟨.eof, heof, rfl⟩
    have hfailed : (directAfter inputLength es).task.failed
        (directAfter inputLength es).shared = true ↔
        0 < delivered es ∧ delivered es < inputLength := by
      simp [directAfter, DownloaderTask.failed, DownloaderTask.safeReadyLength,
        DownloaderTask.safeLength, hend, hany]
    have hcomplete : (directAfter inputLength es).Complete ↔
        delivered es = inputLength := by
      simp [Download.Complete, directAfter, hthrow, hany,
        DownloaderTask.safeReadyLength, DownloaderTask.safeLength]
    have herror : (directAfter inputLength es).task.error = false := by
      simpa [directAfter] using hthrow
    rw [Download.Blocks, if_neg hthrow, herror, hcomplete]
    simp only [hfailed]
    split_ifs with hmid
    · simp only [halive, true_and, true_iff]
      omega
    · simp only [halive, true_and, ne_eq]

/-- No call from the state on hands out a task that it may. -/
def NeverServed (s : State) : Prop :=
  ∀ ls s', system.run s ls = some s' →
    ∀ r ∈ s'.results.drop s.results.length, ¬r.Good

theorem Stuck.neverServed {s : State} (hs : Stuck s) : NeverServed s := by
  intro ls s' hrun
  have hinv := System.invariant_of_run
    (fun m => Stuck m ∧ s.results.length ≤ m.results.length ∧
      ∀ r ∈ m.results.drop s.results.length, ¬r.Good) ?_
    ⟨hs, Nat.le_refl _, by simp⟩ hrun
  · exact hinv.2.2
  · rintro m l m' ⟨hm, hle, hbad⟩ hstep
    replace hstep : Downloader.step m l = some m' := hstep
    refine ⟨hm.step hstep, ?_⟩
    cases l with
    | createTask call =>
      obtain ⟨r, hr, hnot⟩ := hm.createTask call
      obtain rfl : m.log r = m' := Option.some.inj (hr.symm.trans hstep)
      refine ⟨by simp [State.log]; omega, fun r' hr' => ?_⟩
      rw [State.log, List.drop_append_of_le_length hle, List.mem_append,
        List.mem_singleton] at hr'
      rcases hr' with hr' | rfl
      · exact hbad r' hr'
      · exact hnot
    | worker e =>
      obtain ⟨d, hd, halive, -⟩ := hm
      simp [Downloader.step, hd, Download.step, halive] at hstep
    | clearTemp =>
      cases hstep
      exact ⟨hle, hbad⟩

/-- A failed task with an error is replaced once the temp file is gone. -/
theorem createTask_retry {s : State} {old : Download} (hcur : s.current = some old)
    (hfailed : old.task.failed old.shared = true) (herror : old.task.error = true) :
    createTask { s with tempFile := false } ⟨false, 1, [.read 1]⟩ =
      some { current := some (directAfter 1 [.read 1]), tempFile := true,
             results := s.results ++ [.returned (directAfter 1 [.read 1])] } := by
  simp only [createTask, hcur, hfailed, herror, Bool.true_eq_false, if_false, if_true]
  rfl

/-- A task that does not block its URL is complete, or the next call may replace it. -/
theorem exists_good_of_not_blocks {s : State} {d : Download} (hcur : s.current = some d)
    (hend : d.alive = false) (h : ¬d.Blocks) :
    ∃ ls s', system.run s ls = some s' ∧
      ∃ r ∈ s'.results.drop s.results.length, r.Good := by
  rw [Download.Blocks] at h
  by_cases hfailed : d.task.failed d.shared = true
  · have herror : d.task.error = true := by simpa [hend, hfailed] using h
    refine ⟨[.clearTemp, .createTask ⟨false, 1, [.read 1]⟩], _,
      System.run_cons_eq_some.2 ⟨_, rfl, System.run_singleton_eq_some.2
        (createTask_retry hcur hfailed herror)⟩,
      .returned (directAfter 1 [.read 1]), ?_, .inr rfl⟩
    simp
  · have hcomplete : d.Complete := by simpa [hend, hfailed] using h
    refine ⟨[.createTask ⟨false, 1, []⟩], s.log (.returned d),
      System.run_singleton_eq_some.2 ?_, .returned d, ?_, .inl hcomplete⟩
    · simp [system, step, createTask, hcur, hfailed]
    · simp [State.log]

/-- Once `DoDownload` has ended, no call is ever served again exactly after these ends:
all but the whole content and an exception between the first and the last byte. -/
theorem ended_blocks_iff {s : State} {d : Download} {inputLength : Nat}
    {es : List WorkerEvent}
    (hrun : (worker false inputLength).run (fresh false inputLength) es = some d)
    (hend : d.alive = false) (hcur : s.current = some d) :
    NeverServed s ↔
      if .throw ∈ es then ¬(0 < delivered es ∧ delivered es < inputLength)
      else delivered es ≠ inputLength := by
  have hafter : d = directAfter inputLength es := eq_after_of_run hrun
  rw [← directAfter_blocks_iff (by rw [hafter] at hend; exact hend), ← hafter]
  constructor
  · intro hnever
    by_contra hblocks
    obtain ⟨ls, s', hls, r, hr, hgood⟩ := exists_good_of_not_blocks hcur hend hblocks
    exact hnever ls s' hls r hr hgood
  · exact fun hblocks => Stuck.neverServed ⟨d, hcur, hblocks⟩

/-- A task of ten bytes whose worker has seen the events, as the first of its URL. -/
def endedWith (es : List WorkerEvent) : State where
  current := some (directAfter 10 es)
  tempFile := true
  results := []

/-- An input that ends early blocks the URL for good, an exception at the same place
does not. -/
theorem ended_blocks_fourBytes :
    NeverServed (endedWith [.read 4, .eof]) ∧ ¬NeverServed (endedWith [.read 4, .throw]) :=
  ⟨(@ended_blocks_iff _ _ 10 [.read 4, .eof] rfl rfl rfl).2 (by decide),
    fun h => absurd ((@ended_blocks_iff _ _ 10 [.read 4, .throw] rfl rfl rfl).1 h) (by decide)⟩

/-- The temp file that a failed download leaves makes the next one a task
that blocks the URL. -/
theorem leftover_tempFile {s s' : State} {old : Download} {call : Call}
    (hold : s.current = some old) (hfailed : old.task.failed old.shared = true)
    (herror : old.task.error = true) (htemp : s.tempFile = true)
    (hdirect : call.segmented = false) (h : createTask s call = some s') :
    Stuck s' := by
  simp only [Downloader.createTask, hold, hfailed, herror, Bool.true_eq_false,
    if_false, if_true] at h
  obtain ⟨d, r, hd, rfl, -⟩ := newTask_cases h
  rw [hdirect, htemp] at hd
  refine ⟨d, rfl, ?_⟩
  rw [start_tempFile hd]
  refine ⟨rfl, ?_⟩
  simp [fresh, Download.fail, Download.Complete, DownloaderTask.failed,
    DownloaderTask.safeReadyLength]

/-! ## Whole runs -/

/-- In every run of calls and workers for a URL, each call hands out a
complete or a running task exactly when each call meets its condition. -/
theorem createTask_recovers_iff (ls : List Label) (s : State)
    (hrun : system.run init ls = some s) :
    (∀ r ∈ s.results, r.Good) ↔ system.StepsMeet CreateFits init ls := by
  have hexact := System.exact_of_step (fun _ => True)
    (fun s => ∀ r ∈ s.results, r.Good) CreateFits (fun _ _ _ _ _ => trivial)
    (fun s l s' _ hstep => step_good_iff hstep) trivial hrun
  refine hexact.trans (and_iff_right ?_)
  intro r hr
  cases hr

/-- A download of ten bytes from an open stream. -/
def directCall (events : List WorkerEvent) : Call where
  segmented := false
  inputLength := 10
  events := events

/-- A download fails after four bytes, the cache is cleared, and a second
download of the URL brings all ten. -/
def retryRun : List Label :=
  [.createTask (directCall [.read 4]), .worker .throw, .clearTemp,
    .createTask (directCall [.read 6]), .worker (.read 4), .worker .eof,
    .createTask (directCall [])]

/-- The state that `retryRun` ends in. -/
def retryEnd : State :=
  (system.run init retryRun).get (by decide +kernel)

theorem createTask_recovers_retryEnd :
    retryEnd.results.length = 3 ∧
      ((∀ r ∈ retryEnd.results, r.Good) ↔
        system.StepsMeet CreateFits init retryRun) :=
  ⟨by decide +kernel, createTask_recovers_iff retryRun retryEnd
    (Option.some_get _).symm⟩

/-- A download fails after four bytes and is started again, with its temp file
still there. -/
def leftoverRun : List Label :=
  [.createTask (directCall [.read 4]), .worker .throw, .createTask (directCall [])]

/-- The state that `leftoverRun` ends in. -/
def leftoverEnd : State :=
  (system.run init leftoverRun).get (by decide +kernel)

/-- The second call gets a task that has ended without a byte. -/
theorem retry_returns_dead :
    ¬∀ s, system.Reachable s → ∀ r ∈ s.results, r.Good := by
  intro h
  have hreach : system.Reachable leftoverEnd :=
    System.reachable_of_run (.init rfl) (Option.some_get _).symm
  exact absurd (h leftoverEnd hreach) (by decide +kernel)

end DirectPackageInstaller.Downloader
