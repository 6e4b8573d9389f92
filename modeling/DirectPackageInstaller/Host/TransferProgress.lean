import DirectPackageInstaller.Host.HttpRange
import DirectPackageInstaller.Lib.Throttle

/-!
# What is reported of a transfer

`SendStream` and `Decompress` report how far a response is: once before its
body, after every read of the body, and once after it.  `TransferProgressInfo`
cuts what it is given to the totals.  The main view shows the reports of all
transfers in one line, and skips those that come within half a second.

* `reports_exact`: nothing is ever cut, the counts never fall, and the last
  report is the completed one exactly if the body has been sent.
* `updates_eq`: the view is a throttle in which completed reports are urgent.
* `updates_spaced`: what the view shows and what it leaves out.
-/

namespace DirectPackageInstaller.TransferProgress

open Throttle

/-- `TransferProgressInfo`.  A time is in whole milliseconds since
`DateTime.MinValue`; `DateTime` itself counts ticks of 100 ns. -/
structure Info where
  requestPath : List Char
  bytesSent : Int
  totalBytes : Int
  responseBytesSent : Int
  responseBytesTotal : Int
  startedAt : Int
  updatedAt : Int
  completed : Bool
deriving DecidableEq, Repr

/-- The constructor. -/
def Info.create (requestPath : List Char)
    (bytesSent totalBytes responseBytesSent responseBytesTotal startedAt updatedAt : Int)
    (completed : Bool) : Info where
  requestPath
  bytesSent := max 0 (min bytesSent totalBytes)
  totalBytes := max 0 totalBytes
  responseBytesSent := max 0 (min responseBytesSent responseBytesTotal)
  responseBytesTotal := max 0 responseBytesTotal
  startedAt
  updatedAt
  completed

/-! ## The reports of one transfer -/

/-- A response with a body: where it starts in the content, and its length. -/
structure Transfer where
  requestPath : List Char
  transferStart : Int
  totalLength : Int
  responseLength : Int
  transferStarted : Int
  start_nonneg : 0 ≤ transferStart
  length_pos : 0 < responseLength
  end_le : transferStart + responseLength ≤ totalLength

/-- A report with `responseSent` bytes of the body sent. -/
def Transfer.report (t : Transfer) (responseSent now : Int) (completed : Bool) : Info :=
  .create t.requestPath (t.transferStart + responseSent) t.totalLength responseSent
    t.responseLength t.transferStarted now completed

/-- A read of the body: how many bytes it returned, and when. -/
structure BodyRead where
  read : Nat
  now : Int
deriving DecidableEq, Repr

/-- The reports that the reads of `TransferProgressStream` make, behind
`responseSent` bytes. -/
def Transfer.reads (t : Transfer) : Int → List BodyRead → List Info
  | _, [] => []
  | responseSent, r :: reads =>
    if r.read > 0 then
      t.report (responseSent + r.read) r.now false :: t.reads (responseSent + r.read) reads
    else t.reads responseSent reads

/-- All reports of a transfer.  `finished` is the time at which `SendAsync`
returned; it is missing when `SendAsync` threw.  The first report reads the
clock again, just behind `transferStarted`; it has that time here. -/
def Transfer.reports (t : Transfer) (reads : List BodyRead) (finished : Option Int) : List Info :=
  t.report 0 t.transferStarted false :: t.reads 0 reads ++
    (finished.map fun now => t.report t.responseLength now true).toList

/-- How many bytes the reads returned.  The body is a window of
`responseLength` bytes, so they cannot be more. -/
def total (reads : List BodyRead) : Nat :=
  (reads.map BodyRead.read).sum

/-- A report that is not cut. -/
structure Exact (t : Transfer) (i : Info) : Prop where
  bytes : i.bytesSent = t.transferStart + i.responseBytesSent
  totalBytes : i.totalBytes = t.totalLength
  total : i.responseBytesTotal = t.responseLength
  nonneg : 0 ≤ i.responseBytesSent
  le : i.responseBytesSent ≤ t.responseLength

theorem exact_report (t : Transfer) {sent : Int} (hlo : 0 ≤ sent) (hhi : sent ≤ t.responseLength)
    (now : Int) (completed : Bool) :
    Exact t (t.report sent now completed) ∧
      (t.report sent now completed).responseBytesSent = sent := by
  have hstart := t.start_nonneg
  have hend := t.end_le
  have hsent : (t.report sent now completed).responseBytesSent = sent := by
    show max 0 (min sent t.responseLength) = sent
    omega
  refine ⟨⟨?_, ?_, ?_, ?_, ?_⟩, hsent⟩
  · rw [hsent]
    show max 0 (min (t.transferStart + sent) t.totalLength) = _
    omega
  · show max 0 t.totalLength = _
    omega
  · show max 0 t.responseLength = _
    omega
  · omega
  · omega

/-- The reports of the reads, by induction on them: the bytes sent so far only
grow. -/
theorem reads_exact (t : Transfer) (reads : List BodyRead) :
    ∀ sent : Int, 0 ≤ sent → sent + total reads ≤ t.responseLength →
      (∀ i ∈ t.reads sent reads, Exact t i ∧ i.completed = false ∧ sent < i.responseBytesSent) ∧
      (t.reads sent reads).Pairwise fun i j => i.responseBytesSent < j.responseBytesSent := by
  induction reads with
  | nil =>
    intro sent _ _
    exact ⟨fun i hi => absurd hi List.not_mem_nil, List.Pairwise.nil⟩
  | cons r reads ih =>
    intro sent hlo hhi
    have hsum : total (r :: reads) = r.read + total reads := by simp [total]
    rw [Transfer.reads]
    split
    · rename_i hread
      obtain ⟨hrest, hpairs⟩ := ih (sent + r.read) (by omega) (by omega)
      obtain ⟨hexact, hsent⟩ := exact_report t (show 0 ≤ sent + r.read by omega) (by omega)
        r.now false
      refine ⟨fun i hi => ?_, List.pairwise_cons.2 ⟨fun i hi => ?_, hpairs⟩⟩
      · rcases List.mem_cons.1 hi with rfl | hi
        · exact ⟨hexact, rfl, by omega⟩
        · obtain ⟨hi, hcompleted, hlt⟩ := hrest i hi
          exact ⟨hi, hcompleted, by omega⟩
      · rw [hsent]
        exact (hrest i hi).2.2
    · exact ih sent hlo (by omega)

/-- The reports before the end: the one before the body, and those of the
reads. -/
theorem open_reports (t : Transfer) (reads : List BodyRead) (h : total reads ≤ t.responseLength) :
    (∀ i ∈ t.report 0 t.transferStarted false :: t.reads 0 reads,
      Exact t i ∧ i.completed = false) ∧
      (t.report 0 t.transferStarted false :: t.reads 0 reads).Pairwise
        fun i j => i.responseBytesSent < j.responseBytesSent := by
  have hpos := t.length_pos
  obtain ⟨hreads, hpairs⟩ := reads_exact t reads 0 (Int.le_refl 0) (by omega)
  obtain ⟨hfirst, hsent⟩ := exact_report t (Int.le_refl 0) (by omega) t.transferStarted false
  refine ⟨fun i hi => ?_, List.pairwise_cons.2 ⟨fun i hi => ?_, hpairs⟩⟩
  · rcases List.mem_cons.1 hi with rfl | hi
    · exact ⟨hfirst, rfl⟩
    · exact ⟨(hreads i hi).1, (hreads i hi).2.1⟩
  · rw [hsent]
    exact (hreads i hi).2.2

/-- No report of a transfer is cut, the bytes sent never fall, and there is a
completed report exactly if `SendAsync` returned: it is the last one, and it has
the whole body. -/
theorem reports_exact (t : Transfer) (reads : List BodyRead) (finished : Option Int)
    (h : total reads ≤ t.responseLength) :
    (∀ i ∈ t.reports reads finished, Exact t i) ∧
      ((t.reports reads finished).Pairwise fun i j => i.bytesSent ≤ j.bytesSent) ∧
      (∀ i ∈ t.reports reads finished, i.completed = true ↔
        finished.isSome = true ∧ (t.reports reads finished).getLast? = some i) ∧
      ∀ i ∈ t.reports reads finished, i.completed = true →
        i.bytesSent = t.transferStart + t.responseLength := by
  have hpos := t.length_pos
  obtain ⟨hopen, hpairs⟩ := open_reports t reads h
  have hle : (t.report 0 t.transferStarted false :: t.reads 0 reads).Pairwise
      fun i j => i.bytesSent ≤ j.bytesSent := by
    apply hpairs.imp_of_mem
    intro i j hi hj hlt
    rw [(hopen i hi).1.bytes, (hopen j hj).1.bytes]
    omega
  unfold Transfer.reports
  cases finished with
  | none =>
    rw [Option.map_none, Option.toList_none, List.append_nil]
    refine ⟨fun i hi => (hopen i hi).1, hle, fun i hi => ?_, fun i hi hcompleted => ?_⟩
    · simp [(hopen i hi).2]
    · rw [(hopen i hi).2] at hcompleted
      cases hcompleted
  | some now =>
    obtain ⟨hlast, hsent⟩ := exact_report t (Int.le_of_lt hpos) (Int.le_refl _) now true
    rw [Option.map_some, Option.toList_some]
    refine ⟨fun i hi => ?_, List.pairwise_append.2 ⟨hle, List.pairwise_singleton .., ?_⟩,
      fun i hi => ?_, fun i hi hcompleted => ?_⟩
    · rcases List.mem_append.1 hi with hi | hi
      · exact (hopen i hi).1
      · rw [List.mem_singleton] at hi
        exact hi ▸ hlast
    · intro i hi j hj
      rw [List.mem_singleton] at hj
      rw [hj, (hopen i hi).1.bytes, hlast.bytes, hsent]
      have := (hopen i hi).1.le
      omega
    · rw [List.getLast?_append, List.getLast?_singleton, Option.some_or]
      simp only [Option.isSome_some, true_and, Option.some.injEq]
      rcases List.mem_append.1 hi with hi | hi
      · refine ⟨fun hcompleted => ?_, fun heq => heq ▸ rfl⟩
        rw [(hopen i hi).2] at hcompleted
        cases hcompleted
      · rw [List.mem_singleton] at hi
        subst hi
        exact ⟨fun _ => rfl, fun _ => rfl⟩
    · rcases List.mem_append.1 hi with hi | hi
      · rw [(hopen i hi).2] at hcompleted
        cases hcompleted
      · rw [List.mem_singleton] at hi
        rw [hi, hlast.bytes, hsent]

/-- The last three of five bytes. -/
def lastThree : Transfer := ⟨[], 2, 5, 3, 0, by decide, by decide, by decide⟩

/-- They are sent in two reads. -/
theorem reports_exact_lastThree :
    (∀ i ∈ lastThree.reports [⟨1, 10⟩, ⟨2, 20⟩] (some 30), i.totalBytes = 5) ∧
      ((lastThree.reports [⟨1, 10⟩, ⟨2, 20⟩] (some 30)).Pairwise
        fun i j => i.bytesSent ≤ j.bytesSent) ∧
      ∀ i ∈ lastThree.reports [⟨1, 10⟩, ⟨2, 20⟩] (some 30), i.completed = true →
        i.bytesSent = 5 := by
  obtain ⟨hexact, hpairs, -, hcompleted⟩ :=
    reports_exact lastThree [⟨1, 10⟩, ⟨2, 20⟩] (some 30) (by decide)
  exact ⟨fun i hi => (hexact i hi).totalBytes, hpairs, hcompleted⟩

/-! ## What the view shows -/

/-- A report that reaches the view, at its local time, with
`ShowTransferProgress` as the handler finds it. -/
structure Report where
  info : Info
  now : Int
  showTransferProgress : Bool
deriving DecidableEq, Repr

/-- The view: when it last took a report, and the reports it took. -/
structure View where
  lastTransferProgressUpdate : Int
  taken : List Report
deriving DecidableEq, Repr

/-- `ServerOnTransferProgressChanged(Info)`, up to the callback that sets
`Status.Text`. -/
def serverOnTransferProgressChanged (v : View) (r : Report) : View :=
  if r.showTransferProgress = false then v
  else if r.info.completed = false ∧ r.now - v.lastTransferProgressUpdate < 500 then v
  else { lastTransferProgressUpdate := r.now, taken := v.taken ++ [r] }

/-- The reports that the view takes of those that reach it. -/
def updates (last : Int) (reports : List Report) : List Report :=
  (reports.foldl serverOnTransferProgressChanged ⟨last, []⟩).taken

/-- The handler is a throttle of what reaches it while the progress is shown. -/
theorem updates_eq (reports : List Report) (last : Int) :
    updates last reports =
      throttle (fun r => r.info.completed) Report.now 500 last
        (reports.filter Report.showTransferProgress) := by
  have hfold : ∀ v : View, (reports.foldl serverOnTransferProgressChanged v).taken =
      v.taken ++ throttle (fun r => r.info.completed) Report.now 500 v.lastTransferProgressUpdate
        (reports.filter Report.showTransferProgress) := by
    induction reports with
    | nil => simp [throttle]
    | cons r reports ih =>
      intro v
      rw [List.foldl_cons, ih, serverOnTransferProgressChanged]
      by_cases hshows : r.showTransferProgress = false
      · rw [if_pos hshows, List.filter_cons_of_neg (by simp [hshows])]
      · rw [if_neg hshows, List.filter_cons_of_pos (by simpa using hshows), throttle]
        split
        · rfl
        · simp
  exact hfold ⟨last, []⟩

/-- The view takes every completed report while the progress is shown.  Of two
reports that it takes, the later one is completed or comes half a second behind
the other, and what it skips comes less than half a second behind the last one
that it took. -/
theorem updates_spaced (last : Int) (reports : List Report)
    (h : Ordered Report.now last reports) :
    (∀ r ∈ reports, r.showTransferProgress = true → r.info.completed = true →
      r ∈ updates last reports) ∧
      ((updates last reports).Pairwise fun b r =>
        r.info.completed = false → b.now + 500 ≤ r.now) ∧
      ∀ r ∈ reports, r.showTransferProgress = true → r ∈ updates last reports ∨
        ∃ t, (t = last ∨ ∃ b ∈ updates last reports, b.now = t) ∧
          t ≤ r.now ∧ r.now < t + 500 := by
  have hordered : Ordered Report.now last (reports.filter Report.showTransferProgress) := by
    apply List.Pairwise.sublist _ h
    exact (List.filter_sublist.map Report.now).cons_cons last
  rw [updates_eq]
  refine ⟨fun r hr hshows hcompleted => ?_, throttle_spaced hordered, fun r hr hshows => ?_⟩
  · exact urgent_mem (List.mem_filter.2 ⟨hr, hshows⟩) hcompleted
  · exact throttle_covers hordered (List.mem_filter.2 ⟨hr, hshows⟩)

/-- The last report of a body. -/
def lastReport : Report := ⟨.create [] 2 2 2 2 0 700 true, 700, true⟩

/-- Two reports in a row, of which the second is completed. -/
def twoReports : List Report :=
  [⟨.create [] 1 2 1 2 0 600 false, 600, true⟩, lastReport]

theorem updates_spaced_twoReports :
    lastReport ∈ updates 0 twoReports ∧
      (updates 0 twoReports).Pairwise fun b r =>
        r.info.completed = false → b.now + 500 ≤ r.now := by
  obtain ⟨hcompleted, hspaced, -⟩ :=
    updates_spaced 0 twoReports (by simp [Ordered, twoReports, lastReport])
  exact ⟨hcompleted lastReport (by simp [twoReports]) rfl rfl, hspaced⟩

end DirectPackageInstaller.TransferProgress
