import DirectPackageInstaller.Lib.Transition
import Mathlib.Logic.Function.Basic

/-!
# The registry of extraction tasks

`SharpComp.CreateDecompressor` selects a `.pkg` entry of an archive and starts
a worker that extracts it.  The running and ended extractions stand in
`Tasks`, under the bare file name of their entry.  When the name is there
already, no worker is started and the registered task serves for the call,
whichever archive it belongs to and however it ended.

A call blocks until its worker has registered the task or has failed before
that, so a call is one step here.  `TotalDecompressed` points into the stack
frame of the worker.  When the worker has ended, the word is used for other
things, and `Failed` reads what they leave there.

* `createDecompressor_sound_iff`: the calls of a run hand out the right tasks
  exactly when no two of them take one file name for different entries, and
  none comes after an extraction of the name that has ended too early.
* `sameName_handedOut`: two archives with a file name in common.
-/

namespace DirectPackageInstaller.SharpComp

open Transition

/-! ## Archives -/

/-- `IArchiveEntry`; the key is its path in the archive. -/
structure Entry where
  key : String
  size : Nat
deriving DecidableEq, Repr

/-- An archive, named by the volumes it is read from. -/
structure Archive where
  volumes : String
  entries : List Entry
deriving DecidableEq, Repr

/-- `key.EndsWith(suffix, OrdinalIgnoreCase)` for a suffix of ASCII characters. -/
def endsWithIgnoreCase (key suffix : String) : Bool :=
  (suffix.toList.map Char.toLower).isSuffixOf (key.toList.map Char.toLower)

/-- `Path.GetFileName` of an entry's key, whose separator is a slash. -/
def getFileName (key : String) : String :=
  String.ofList (key.toList.reverse.takeWhile (· ≠ '/')).reverse

/-- `Enumerable.Single`; `none` where it throws. -/
def single {α : Type} : List α → Option α
  | [x] => some x
  | _ => none

/-- The `.pkg` entries of an archive. -/
def Archive.pkgs (a : Archive) : List Entry :=
  a.entries.filter fun e => endsWithIgnoreCase e.key ".pkg"

/-- The entry that `CreateDecompressor` selects; `none` where it throws.
`endsWith` is `EndsWith` with `InvariantCultureIgnoreCase`. -/
def selectEntry (endsWith : String → String → Bool) (a : Archive) (entryName : Option String) :
    Option Entry :=
  if a.pkgs.length = 1 then single a.pkgs
  else
    match entryName with
    | none => none
    | some name => single (a.pkgs.filter fun e => endsWith e.key name)

/-! ## Tasks -/

/-- `DecompressTaskInfo`.  `archive` stands for `PartsStream`, and `entry` is
the entry whose bytes the worker writes. -/
structure DecompressTaskInfo where
  archive : Archive
  entry : Entry
  running : Bool
  /-- `Output.Length`. -/
  written : Nat
  /-- The word that `TotalDecompressed` points to. -/
  totalDecompressed : Int
  /-- `ReadTries` of the worker. -/
  readTries : Nat
  /-- `Error` is set. -/
  error : Bool
deriving DecidableEq, Repr

/-- `Entry.Size`. -/
def DecompressTaskInfo.totalSize (t : DecompressTaskInfo) : Nat := t.entry.size

/-- `Failed`. -/
def DecompressTaskInfo.failed (t : DecompressTaskInfo) : Bool :=
  !t.running && decide (0 < t.totalDecompressed) &&
    decide (t.totalDecompressed < t.totalSize)

/-- The worker has written the whole entry. -/
def DecompressTaskInfo.complete (t : DecompressTaskInfo) : Bool :=
  !t.running && !t.error && decide (t.written = t.totalSize)

/-- The worker has ended with an exception or before the last byte. -/
def DecompressTaskInfo.endedEarly (t : DecompressTaskInfo) : Bool :=
  !t.running && (t.error || decide (t.written ≠ t.totalSize))

theorem DecompressTaskInfo.endedEarly_eq_false {t : DecompressTaskInfo} :
    t.endedEarly = false ↔ t.running = true ∨ t.complete = true := by
  unfold endedEarly complete
  cases t.running <;> cases t.error <;> simp

/-- `Tasks`. -/
abbrev Tasks := String → Option DecompressTaskInfo

/-- The task that a worker registers. -/
def DecompressTaskInfo.start (archive : Archive) (entry : Entry) :
    DecompressTaskInfo where
  archive := archive
  entry := entry
  running := true
  written := 0
  totalDecompressed := 0
  readTries := 0
  error := false

/-- `StartDecompressor` up to the point where it returns.  `opens` tells
whether the worker gets as far as registering its task. -/
def startDecompressor (tasks : Tasks) (archive : Archive) (entry : Entry)
    (opens : Bool) : Tasks × Bool :=
  if (tasks (getFileName entry.key)).isSome then (tasks, true)
  else if opens then
    (Function.update tasks (getFileName entry.key) (some (.start archive entry)),
      true)
  else (tasks, false)

/-- `CreateDecompressor`: the selected entry and the returned key.  The
selection throws where it is `none`; the key is `none` for `null`. -/
def createDecompressor (endsWith : String → String → Bool) (tasks : Tasks)
    (archive : Archive) (entryName : Option String) (opens : Bool) :
    Tasks × Option (Entry × Option String) :=
  match selectEntry endsWith archive entryName with
  | none => (tasks, none)
  | some entry =>
    match startDecompressor tasks archive entry opens with
    | (tasks, true) => (tasks, some (entry, some (getFileName entry.key)))
    | (tasks, false) => (tasks, some (entry, none))

/-- The three ends of a call. -/
inductive CreateCase (endsWith : String → String → Bool) (tasks : Tasks) (archive : Archive)
    (entryName : Option String) (opens : Bool) :
    Tasks × Option (Entry × Option String) → Prop
  /-- It throws or returns `null`. -/
  | nothing (selected : Option Entry)
      (hfree : ∀ entry, selectEntry endsWith archive entryName = some entry →
        tasks (getFileName entry.key) = none ∧ opens = false) :
      CreateCase endsWith tasks archive entryName opens
        (tasks, selected.map fun entry => (entry, none))
  /-- A task is there already. -/
  | existing (entry : Entry) (t : DecompressTaskInfo)
      (hselect : selectEntry endsWith archive entryName = some entry)
      (ht : tasks (getFileName entry.key) = some t) :
      CreateCase endsWith tasks archive entryName opens
        (tasks, some (entry, some (getFileName entry.key)))
  /-- A worker has registered a new task. -/
  | started (entry : Entry) (hselect : selectEntry endsWith archive entryName = some entry)
      (hfree : tasks (getFileName entry.key) = none) (hopens : opens = true) :
      CreateCase endsWith tasks archive entryName opens
        (Function.update tasks (getFileName entry.key)
          (some (.start archive entry)),
          some (entry, some (getFileName entry.key)))

theorem createDecompressor_cases (endsWith : String → String → Bool) (tasks : Tasks)
    (archive : Archive) (entryName : Option String) (opens : Bool) :
    CreateCase endsWith tasks archive entryName opens
      (createDecompressor endsWith tasks archive entryName opens) := by
  unfold createDecompressor startDecompressor
  cases hselect : selectEntry endsWith archive entryName with
  | none =>
    refine .nothing none fun entry h => ?_
    rw [hselect] at h
    cases h
  | some entry =>
    dsimp only
    cases ht : tasks (getFileName entry.key) with
    | some t => exact .existing entry t hselect ht
    | none =>
      cases opens with
      | true => exact .started entry hselect ht rfl
      | false =>
        refine .nothing (some entry) fun entry' h => ?_
        rw [hselect] at h
        cases h
        exact ⟨ht, rfl⟩

/-! ## Workers -/

inductive WorkerEvent
  /-- `Input.Read` returns `n` bytes. -/
  | read (n : Nat)
  /-- An exception. -/
  | fail
  /-- Something else uses the frame of the ended worker. -/
  | overwrite (value : Int64)
deriving DecidableEq, Repr

/-- What an event does to the task of a worker.  The entry's stream has as
many bytes as the entry; three empty reads before its end are ignored. -/
def DecompressTaskInfo.worker (t : DecompressTaskInfo) :
    WorkerEvent → Option DecompressTaskInfo
  | .read n =>
    if t.running = false ∨ t.totalSize < t.written + n then none
    else if 0 < n then
      some { t with written := t.written + n, totalDecompressed := t.totalDecompressed + n }
    else if t.written < t.totalSize ∧ t.readTries < 3 then
      some { t with readTries := t.readTries + 1 }
    else some { t with running := false, totalDecompressed := t.written }
  | .fail =>
    if t.running = false then none
    else some { t with running := false, error := true }
  | .overwrite value =>
    if t.running = true then none
    else some { t with totalDecompressed := value.toInt }

/-- An event of the worker whose task has the given key. -/
def workerStep (tasks : Tasks) (key : String) (event : WorkerEvent) :
    Option Tasks :=
  match tasks key with
  | none => none
  | some t =>
    (t.worker event).map fun t' => Function.update tasks key (some t')

/-- A worker extracts the same entry all the time. -/
theorem DecompressTaskInfo.worker_same {t t' : DecompressTaskInfo}
    {event : WorkerEvent} (h : t.worker event = some t') :
    t'.archive = t.archive ∧ t'.entry = t.entry := by
  unfold DecompressTaskInfo.worker at h
  split at h
  · split_ifs at h <;> cases h <;> exact ⟨rfl, rfl⟩
  · split_ifs at h
    cases h
    exact ⟨rfl, rfl⟩
  · split_ifs at h
    cases h
    exact ⟨rfl, rfl⟩

/-! ## The system -/

/-- A call that returned a key, with the task that it leaves there. -/
structure Returned where
  archive : Archive
  entry : Entry
  task : Option DecompressTaskInfo
deriving DecidableEq, Repr

structure State where
  tasks : Tasks
  returned : List Returned

def init : State where
  tasks := fun _ => none
  returned := []

inductive Label
  | create (archive : Archive) (entryName : Option String) (opens : Bool)
  | worker (key : String) (event : WorkerEvent)
deriving DecidableEq, Repr

def createStep (endsWith : String → String → Bool) (s : State) (archive : Archive)
    (entryName : Option String) (opens : Bool) : State :=
  match createDecompressor endsWith s.tasks archive entryName opens with
  | (tasks, some (entry, some key)) =>
    { tasks, returned := s.returned ++ [{ archive, entry, task := tasks key }] }
  | (tasks, _) => { s with tasks }

def step (endsWith : String → String → Bool) (s : State) : Label → Option State
  | .create archive entryName opens =>
    some (createStep endsWith s archive entryName opens)
  | .worker key event =>
    (workerStep s.tasks key event).map fun tasks => { s with tasks }

/-- Calls of `CreateDecompressor` and the workers they start. -/
def system (endsWith : String → String → Bool) : System State Label where
  init := fun s => s = init
  step := step endsWith

/-! ## The tasks that are handed out -/

/-- The task extracts the entry from the archive, and it runs or is
complete. -/
def DecompressTaskInfo.Serves (t : DecompressTaskInfo) (archive : Archive)
    (entry : Entry) : Prop :=
  t.archive = archive ∧ t.entry = entry ∧
    (t.running = true ∨ t.complete = true)

instance (t : DecompressTaskInfo) (archive : Archive) (entry : Entry) :
    Decidable (t.Serves archive entry) :=
  inferInstanceAs (Decidable (_ ∧ _ ∧ _))

/-- The returned key names an extraction of the selected entry. -/
def Returned.Sound (r : Returned) : Prop :=
  ∃ t, r.task = some t ∧ t.Serves r.archive r.entry

theorem serves_start (archive : Archive) (entry : Entry) :
    (DecompressTaskInfo.start archive entry).Serves archive entry :=
  ⟨rfl, rfl, .inl rfl⟩

/-- The condition on a call: the calls before it that got the file name of the
selected entry were for the same entry, and no extraction of that name has
ended too early. -/
def KeyFree (endsWith : String → String → Bool) (s : State) : Label → Prop
  | .create archive entryName _ =>
    ∀ entry, selectEntry endsWith archive entryName = some entry →
      (∀ r ∈ s.returned, getFileName r.entry.key = getFileName entry.key →
        r.archive = archive ∧ r.entry = entry) ∧
      ∀ t, s.tasks (getFileName entry.key) = some t → t.endedEarly = false
  | .worker _ _ => True

/-- Every task was started for a call, and every call that returned a key got
the task that is registered there. -/
structure Registered (s : State) : Prop where
  started : ∀ key t, s.tasks key = some t →
    ∃ r ∈ s.returned, getFileName r.entry.key = key ∧ r.archive = t.archive ∧ r.entry = t.entry
  kept : ∀ r ∈ s.returned, ∃ t t', r.task = some t ∧
    s.tasks (getFileName r.entry.key) = some t' ∧ t.archive = t'.archive ∧ t.entry = t'.entry

variable {endsWith : String → String → Bool}

theorem registered_init : Registered init where
  started := by
    intro key t ht
    cases ht
  kept := fun _ hr => absurd hr List.not_mem_nil

theorem registered_create {s : State} (h : Registered s) (archive : Archive)
    (entryName : Option String) (opens : Bool) :
    Registered (createStep endsWith s archive entryName opens) := by
  have hcase := createDecompressor_cases endsWith s.tasks archive entryName opens
  unfold createStep
  generalize createDecompressor endsWith s.tasks archive entryName opens = result at hcase ⊢
  cases hcase with
  | nothing selected _ => cases selected <;> exact h
  | existing entry t hselect ht =>
    constructor
    · intro key t' ht'
      obtain ⟨r, hr, hsame⟩ := h.started key t' ht'
      exact ⟨r, List.mem_append_left _ hr, hsame⟩
    · intro r hr
      rcases List.mem_append.1 hr with hr | hr
      · exact h.kept r hr
      · rw [List.mem_singleton.1 hr]
        exact ⟨t, t, ht, ht, rfl, rfl⟩
  | started entry hselect hfree _ =>
    constructor
    · intro key t' ht'
      change Function.update s.tasks _ _ key = some t' at ht'
      by_cases hkey : key = getFileName entry.key
      · subst hkey
        rw [Function.update_self, Option.some.injEq] at ht'
        subst ht'
        exact ⟨_, List.mem_append_right _ (List.mem_singleton.2 rfl), rfl, rfl, rfl⟩
      · rw [Function.update_of_ne hkey] at ht'
        obtain ⟨r, hr, hsame⟩ := h.started key t' ht'
        exact ⟨r, List.mem_append_left _ hr, hsame⟩
    · intro r hr
      rcases List.mem_append.1 hr with hr | hr
      · obtain ⟨t, t', ht, ht', hsame⟩ := h.kept r hr
        have hne : getFileName r.entry.key ≠ getFileName entry.key := by
          intro heq
          rw [heq, hfree] at ht'
          cases ht'
        exact ⟨t, t', ht, (Function.update_of_ne hne ..).trans ht', hsame⟩
      · rw [List.mem_singleton.1 hr]
        exact ⟨_, _, Function.update_self .., Function.update_self .., rfl, rfl⟩

theorem registered_worker {s : State} {tasks : Tasks} {key : String} {event : WorkerEvent}
    (h : Registered s) (hstep : workerStep s.tasks key event = some tasks) :
    Registered { s with tasks } := by
  unfold workerStep at hstep
  split at hstep
  · cases hstep
  · rename_i t ht
    obtain ⟨t', hworker, rfl⟩ := Option.map_eq_some_iff.1 hstep
    obtain ⟨harchive, hentry⟩ := DecompressTaskInfo.worker_same hworker
    constructor
    · intro key' u hu
      change Function.update s.tasks _ _ key' = some u at hu
      by_cases hkey : key' = key
      · subst hkey
        obtain ⟨r, hr, hname, ha, he⟩ := h.started key' t ht
        rw [Function.update_self, Option.some.injEq] at hu
        subst hu
        exact ⟨r, hr, hname, ha.trans harchive.symm, he.trans hentry.symm⟩
      · rw [Function.update_of_ne hkey] at hu
        exact h.started key' u hu
    · intro r hr
      obtain ⟨u, u', hu, hu', ha, he⟩ := h.kept r hr
      by_cases hkey : getFileName r.entry.key = key
      · rw [hkey, ht, Option.some.injEq] at hu'
        subst hu'
        refine ⟨u, t', hu, ?_, ha.trans harchive.symm, he.trans hentry.symm⟩
        rw [hkey]
        exact Function.update_self ..
      · exact ⟨u, u', hu, (Function.update_of_ne hkey ..).trans hu', ha, he⟩

theorem registered_step {s s' : State} {l : Label} (h : Registered s)
    (hstep : step endsWith s l = some s') : Registered s' := by
  cases l with
  | create archive entryName opens =>
    cases hstep
    exact registered_create h archive entryName opens
  | worker key event =>
    obtain ⟨tasks, htasks, rfl⟩ := Option.map_eq_some_iff.1 hstep
    exact registered_worker h htasks

/-- While all calls have got the right tasks, the task under a file name is
right for a call exactly if the calls before it agree with it on the entry. -/
theorem serves_iff {s : State} (h : Registered s) (hsound : ∀ r ∈ s.returned, r.Sound)
    {archive : Archive} {entry : Entry} {t : DecompressTaskInfo}
    (ht : s.tasks (getFileName entry.key) = some t) :
    t.Serves archive entry ↔
      (∀ r ∈ s.returned, getFileName r.entry.key = getFileName entry.key →
        r.archive = archive ∧ r.entry = entry) ∧
      ∀ t, s.tasks (getFileName entry.key) = some t → t.endedEarly = false := by
  rw [ht]
  simp only [Option.some.injEq, forall_eq', DecompressTaskInfo.endedEarly_eq_false]
  unfold DecompressTaskInfo.Serves
  rw [← and_assoc]
  refine and_congr_left fun _ => ?_
  constructor
  · intro ⟨ha, he⟩ r hr hname
    obtain ⟨u, u', hu, hu', hua, hue⟩ := h.kept r hr
    rw [hname, ht, Option.some.injEq] at hu'
    subst hu'
    obtain ⟨v, hv, hserves⟩ := hsound r hr
    rw [hu, Option.some.injEq] at hv
    subst hv
    exact ⟨hserves.1.symm.trans (hua.trans ha), hserves.2.1.symm.trans (hue.trans he)⟩
  · intro hsame
    obtain ⟨r, hr, hname, ha, he⟩ := h.started _ t ht
    obtain ⟨ha', he'⟩ := hsame r hr hname
    exact ⟨ha.symm.trans ha', he.symm.trans he'⟩

/-- A call hands out the right task exactly when its condition holds. -/
theorem create_sound_iff {s : State} (h : Registered s) (archive : Archive)
    (entryName : Option String) (opens : Bool) :
    (∀ r ∈ (createStep endsWith s archive entryName opens).returned, r.Sound) ↔
      (∀ r ∈ s.returned, r.Sound) ∧
        KeyFree endsWith s (.create archive entryName opens) := by
  have hcase := createDecompressor_cases endsWith s.tasks archive entryName opens
  -- under a free name nothing was handed out
  have hkey : ∀ entry, s.tasks (getFileName entry.key) = none →
      (∀ r ∈ s.returned, getFileName r.entry.key = getFileName entry.key →
        r.archive = archive ∧ r.entry = entry) ∧
      ∀ t, s.tasks (getFileName entry.key) = some t → t.endedEarly = false := by
    intro entry hfree
    constructor
    · intro r hr hname
      obtain ⟨-, t', -, ht', -⟩ := h.kept r hr
      rw [hname, hfree] at ht'
      cases ht'
    · intro t ht
      rw [hfree] at ht
      cases ht
  unfold createStep
  generalize createDecompressor endsWith s.tasks archive entryName opens = result at hcase ⊢
  cases hcase with
  | nothing selected hfree =>
    have hfits : KeyFree endsWith s (.create archive entryName opens) :=
      fun entry hselect => hkey entry (hfree entry hselect).1
    cases selected <;> exact (and_iff_left hfits).symm
  | existing entry t hselect ht =>
    simp only [List.mem_append, List.mem_singleton, or_imp, forall_and, forall_eq]
    refine and_congr_right fun hsound => ?_
    have hnew : Returned.Sound { archive, entry, task := s.tasks (getFileName entry.key) } ↔
        t.Serves archive entry := by
      unfold Returned.Sound
      rw [ht]
      simp
    rw [hnew, serves_iff h hsound ht]
    constructor
    · intro hfits entry' hselect'
      rw [hselect] at hselect'
      cases hselect'
      exact hfits
    · intro hfits
      exact hfits entry hselect
  | started entry hselect hfree _ =>
    simp only [List.mem_append, List.mem_singleton, or_imp, forall_and, forall_eq]
    refine and_congr_right fun _ => iff_of_true ?_ ?_
    · exact ⟨_, Function.update_self .., serves_start archive entry⟩
    · intro entry' hselect'
      rw [hselect] at hselect'
      cases hselect'
      exact hkey entry hfree

theorem step_sound_iff {s s' : State} {l : Label} (hregistered : Registered s)
    (h : step endsWith s l = some s') :
    (∀ r ∈ s'.returned, r.Sound) ↔
      (∀ r ∈ s.returned, r.Sound) ∧ KeyFree endsWith s l := by
  cases l with
  | create archive entryName opens =>
    cases h
    exact create_sound_iff hregistered archive entryName opens
  | worker key event =>
    obtain ⟨tasks, -, rfl⟩ := Option.map_eq_some_iff.1 h
    exact (and_iff_left trivial).symm

/-- In every run of calls and workers, each call that returns a key leaves
there an extraction of its own entry that runs or is complete, exactly when
the earlier calls that got the file name of a call were for the same entry, and
no extraction of that name had ended too early. -/
theorem createDecompressor_sound_iff (endsWith : String → String → Bool) (ls : List Label)
    (s : State) (hrun : (system endsWith).run init ls = some s) :
    (∀ r ∈ s.returned, r.Sound) ↔ (system endsWith).StepsMeet (KeyFree endsWith) init ls := by
  have hexact := System.exact_of_step Registered
    (fun s => ∀ r ∈ s.returned, r.Sound) (KeyFree endsWith)
    (fun _ _ _ h hstep => registered_step h hstep)
    (fun s l s' h hstep => step_sound_iff h hstep)
    registered_init hrun
  refine hexact.trans (and_iff_right ?_)
  intro r hr
  cases hr

/-- An archive with one package. -/
def gameArchive (volumes : String) : Archive where
  volumes := volumes
  entries := [{ key := "game/base.pkg", size := 4 }]

/-- A package is extracted and pushed a second time. -/
def completeRun : List Label :=
  [.create (gameArchive "a.rar") none true, .worker "base.pkg" (.read 4),
    .worker "base.pkg" (.read 0), .create (gameArchive "a.rar") none true]

/-- The state that `completeRun` ends in. -/
def completeEnd : State :=
  ((system endsWithIgnoreCase).run init completeRun).get (by decide +kernel)

theorem createDecompressor_sound_completeEnd :
    completeEnd.returned.length = 2 ∧
      ((∀ r ∈ completeEnd.returned, r.Sound) ↔
        (system endsWithIgnoreCase).StepsMeet (KeyFree endsWithIgnoreCase) init completeRun) :=
  ⟨by decide +kernel, createDecompressor_sound_iff endsWithIgnoreCase completeRun completeEnd
    (Option.some_get _).symm⟩

/-- A package of another archive has the same file name: the second call gets
the extraction of the first archive. -/
theorem sameName_handedOut :
    ¬∀ endsWith s, (system endsWith).Reachable s → ∀ r ∈ s.returned, r.Sound := by
  intro h
  have hrun : ((system endsWithIgnoreCase).run init
      [.create (gameArchive "a.rar") none true,
        .create (gameArchive "b.rar") none true]).map
      (fun s => s.returned.map fun r => (r.archive, r.task.map (·.archive))) =
      some [(gameArchive "a.rar", some (gameArchive "a.rar")),
        (gameArchive "b.rar", some (gameArchive "a.rar"))] := by
    decide +kernel
  obtain ⟨s, hs, hlog⟩ := Option.map_eq_some_iff.1 hrun
  have hmem : (gameArchive "b.rar", some (gameArchive "a.rar")) ∈
      s.returned.map fun r => (r.archive, r.task.map (·.archive)) := by
    rw [hlog]
    exact List.mem_cons_of_mem _ (List.mem_cons_self ..)
  obtain ⟨r, hr, heq⟩ := List.mem_map.1 hmem
  obtain ⟨hcalled, hgiven⟩ := Prod.mk.injEq .. ▸ heq
  obtain ⟨t, ht, hserves⟩ := h endsWithIgnoreCase s (System.reachable_of_run (.init rfl) hs) r hr
  rw [ht] at hgiven
  have harchive : t.archive = gameArchive "a.rar" := Option.some.inj hgiven
  rw [hserves.1, hcalled] at harchive
  simp [gameArchive] at harchive

end DirectPackageInstaller.SharpComp
