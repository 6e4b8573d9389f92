import DirectPackageInstaller.Compression.SharpComp

/-!
# Links to archive entries

`Installer.PushPackage` registers a pushed archive entry in `TaskCache` under
a number and issues a link with this number.  A request with the number finds
the URL and the entry name in `TaskCache`, but what it serves is found
through `EntryMap`, which has one file name for each URL, and `Tasks`, which
has one extraction for each file name.

A push is one step, and its preload loop is taken to end.  A request is
refused or served; which of both the ranges and the instance counters decide
is left open.

* `push_right_iff`: what a push must find for all links to stay right.
* `intact_step_iff`: what a step must find for no link to lead to an extraction that has
  ended too early.
* `links_served_iff`: the links of a run serve what they name all the time exactly when
  each step finds both.
* `second_entry_served`: two entries of one archive.
-/

namespace DirectPackageInstaller.DecompressService

open Transition SharpComp

/-! ## The service -/

structure State where
  /-- `Decompressor.Tasks`. -/
  tasks : Tasks
  /-- `EntryMap`. -/
  entryMap : String → Option String
  /-- `TaskCache`, whose keys are the numbers of its entries in their order:
  the entry name and the URL. -/
  taskCache : List (Option String × String)
  /-- The numbers of the links that were issued. -/
  issued : List Nat

def init : State where
  tasks := fun _ => none
  entryMap := fun _ => none
  taskCache := []
  issued := []

/-- What the archive at a URL holds, and how the platform compares names:
`EndsWith` with `InvariantCultureIgnoreCase`. -/
structure Contents where
  entries : String → List Entry
  endsWith : String → String → Bool

/-- The archive that is opened for a URL. -/
def Contents.archive (contents : Contents) (url : String) : Archive where
  volumes := url
  entries := contents.entries url

/-- The entry that a pushed name selects. -/
def Contents.select (contents : Contents) (url : String) (entryName : Option String) :
    Option Entry :=
  selectEntry contents.endsWith (contents.archive url) entryName

/-- `Tasks[EntryMap[Url]]`. -/
def State.taskOf (s : State) (url : String) : Option DecompressTaskInfo :=
  (s.entryMap url).bind s.tasks

/-- The task whose content a request with `id` is served: `Unrar` and `Un7z`
look the URL up, `Decompress` the task. -/
def serve (s : State) (id : Nat) : Option DecompressTaskInfo :=
  (s.taskCache[id]?).bind fun cached => s.taskOf cached.2

/-- `Decompress` removes the task of a failed extraction, and serves it one
more time. -/
def requestStep (s : State) (id : Nat) : State :=
  match s.taskCache[id]? with
  | none => s
  | some (_, url) =>
    match s.entryMap url with
    | none => s
    | some key =>
      match s.tasks key with
      | none => s
      | some t =>
        if t.failed && t.error then
          { s with tasks := Function.update s.tasks key none }
        else s

/-! ## Pushes -/

/-- The loop of `PushPackage` over `TaskCache`, from number `id` on: the
number of an earlier push of the same entry whose extraction is usable. -/
def retryId (s : State) (entryName : Option String) (url : String) :
    List (Option String × String) → Nat → Option Nat
  | [], _ => none
  | cached :: rest, id =>
    if cached = (entryName, url) then
      match s.taskOf url with
      | some t => if t.failed then retryId s entryName url rest (id + 1) else some id
      | none => none
    else retryId s entryName url rest (id + 1)

/-- The archive branch of `PushPackage`.  A link is issued when nothing throws
on the way. -/
def pushStep (contents : Contents) (s : State) (url : String)
    (entryName : Option String) (opens : Bool) : State :=
  match retryId s entryName url s.taskCache 0 with
  | some id =>
    -- `Tasks[EntryFileName!]` with the name as it was given
    match entryName.bind s.tasks with
    | none => s
    | some _ => { s with issued := s.issued ++ [id] }
  | none =>
    let taskCache := s.taskCache ++ [(entryName, url)]
    match createDecompressor contents.endsWith s.tasks (contents.archive url) entryName opens with
    | (tasks, some (_, some entry)) =>
      { tasks
        taskCache
        entryMap := Function.update s.entryMap url (some entry)
        issued := s.issued ++ [s.taskCache.length] }
    | (tasks, _) => { s with tasks, taskCache }

inductive Label
  | push (url : String) (entryName : Option String) (opens : Bool)
  | request (id : Nat)
  | worker (key : String) (event : WorkerEvent)
deriving DecidableEq, Repr

def step (contents : Contents) (s : State) : Label → Option State
  | .push url entryName opens => some (pushStep contents s url entryName opens)
  | .request id => some (requestStep s id)
  | .worker key event =>
    (workerStep s.tasks key event).map fun tasks => { s with tasks }

/-- Pushes, requests and the extraction workers. -/
def system (contents : Contents) : System State Label where
  init := fun s => s = init
  step := step contents

/-! ## What a link names -/

/-- The task extracts the entry that the pair names. -/
def Names (contents : Contents) (entryName : Option String) (url : String)
    (t : DecompressTaskInfo) : Prop :=
  t.archive = contents.archive url ∧
    contents.select url entryName = some t.entry

/-- What a request with `id` is served is the entry registered under `id`. -/
def LinkRight (contents : Contents) (s : State) (id : Nat) : Prop :=
  ∀ t, serve s id = some t → ∃ entryName url,
    s.taskCache[id]? = some (entryName, url) ∧ Names contents entryName url t

/-- All links that were issued are right. -/
def LinksRight (contents : Contents) (s : State) : Prop :=
  ∀ id ∈ s.issued, LinkRight contents s id

/-- The condition on a push that issues a new link for entry `entry` of `url`:
no other extraction has the file name of the entry, no other entry of the URL
has a link, and no other URL has one that goes to the file name. -/
structure NewLinkFits (contents : Contents) (s : State) (url : String)
    (entry : Entry) : Prop where
  task : ∀ t, s.tasks (getFileName entry.key) = some t →
    t.archive = contents.archive url ∧ t.entry = entry
  sameUrl : ∀ id ∈ s.issued, ∀ entryName,
    s.taskCache[id]? = some (entryName, url) →
      contents.select url entryName = some entry
  otherUrl : ∀ id ∈ s.issued, ∀ entryName url',
    s.taskCache[id]? = some (entryName, url') → url' ≠ url →
      s.entryMap url' ≠ some (getFileName entry.key)

/-- The condition on a step.  A push that finds an earlier one reuses its
link, which must go to the entry; a push that gets an extraction must meet
`NewLinkFits`. -/
def PushFits (contents : Contents) (s : State) : Label → Prop
  | .push url entryName opens =>
    match retryId s entryName url s.taskCache 0 with
    | some _ => (entryName.bind s.tasks).isSome = true →
        ∀ t, s.taskOf url = some t → Names contents entryName url t
    | none => ∀ entry,
        contents.select url entryName = some entry →
        (s.tasks (getFileName entry.key)).isSome = true ∨ opens = true →
          NewLinkFits contents s url entry
  | _ => True

/-! ## The steps -/

/-- Numbers of links are numbers of `TaskCache`. -/
def IdsOk (s : State) : Prop :=
  ∀ id ∈ s.issued, id < s.taskCache.length

/-- The number that a repeated push takes is that of an earlier push. -/
theorem retryId_getElem? {s : State} {entryName : Option String} {url : String} :
    ∀ {cache : List (Option String × String)} {first id : Nat},
      retryId s entryName url cache first = some id →
        first ≤ id ∧ cache[id - first]? = some (entryName, url) := by
  intro cache
  induction cache with
  | nil =>
    intro first id h
    cases h
  | cons cached rest ih =>
    intro first id h
    have htail : retryId s entryName url rest (first + 1) = some id →
        first ≤ id ∧ (cached :: rest)[id - first]? = some (entryName, url) := by
      intro h
      obtain ⟨hle, hget⟩ := ih h
      have hsub : id - first = (id - (first + 1)) + 1 := by omega
      rw [hsub, List.getElem?_cons_succ]
      exact ⟨by omega, hget⟩
    unfold retryId at h
    split at h
    · rename_i hcached
      split at h
      · split at h
        · exact htail h
        · cases h
          rw [Nat.sub_self, List.getElem?_cons_zero, hcached]
          exact ⟨Nat.le_refl _, rfl⟩
      · cases h
    · exact htail h

theorem retryId_registered {s : State} {entryName : Option String}
    {url : String} {id : Nat}
    (h : retryId s entryName url s.taskCache 0 = some id) :
    s.taskCache[id]? = some (entryName, url) :=
  (retryId_getElem? h).2

/-- What a link with a registered number serves. -/
theorem linkRight_iff {contents : Contents} {s : State} {id : Nat}
    {entryName : Option String} {url : String}
    (h : s.taskCache[id]? = some (entryName, url)) :
    LinkRight contents s id ↔
      ∀ t, s.taskOf url = some t → Names contents entryName url t := by
  unfold LinkRight serve
  simp only [h, Option.bind_some, Option.some.injEq, Prod.mk.injEq]
  constructor
  · intro hright t ht
    obtain ⟨_, _, ⟨rfl, rfl⟩, hnames⟩ := hright t ht
    exact hnames
  · intro hnames t ht
    exact ⟨entryName, url, ⟨rfl, rfl⟩, hnames t ht⟩

/-- A step that keeps the links and `TaskCache`, and all that a URL leads to
up to the progress of an extraction, keeps right links right. -/
theorem LinksRight.of_same {contents : Contents} {s s' : State}
    (h : LinksRight contents s) (hissued : s'.issued = s.issued)
    (hcache : ∀ id ∈ s.issued, s'.taskCache[id]? = s.taskCache[id]?)
    (htask : ∀ url t', s'.taskOf url = some t' →
      ∃ t, s.taskOf url = some t ∧ t'.archive = t.archive ∧
        t'.entry = t.entry) : LinksRight contents s' := by
  intro id hid t' ht'
  rw [hissued] at hid
  unfold serve at ht'
  rw [hcache id hid] at ht' ⊢
  obtain ⟨⟨entryName, url⟩, hget, ht'⟩ := Option.bind_eq_some_iff.1 ht'
  obtain ⟨t, ht, harchive, hentry⟩ := htask url t' ht'
  have hnames := (linkRight_iff hget).1 (h id hid) t ht
  unfold Names at hnames ⊢
  rw [← harchive, ← hentry] at hnames
  exact ⟨entryName, url, hget, hnames⟩

theorem requestStep_right {contents : Contents} {s : State} (id : Nat)
    (h : LinksRight contents s) : LinksRight contents (requestStep s id) := by
  unfold requestStep
  split
  · exact h
  · split
    · exact h
    · rename_i key hkey
      split
      · exact h
      · split
        · refine h.of_same rfl (fun _ _ => rfl) ?_
          intro url t' ht'
          obtain ⟨key', hkey', ht'⟩ := Option.bind_eq_some_iff.1 ht'
          dsimp only at ht'
          rw [Function.update_apply] at ht'
          split at ht'
          · cases ht'
          · exact ⟨t', Option.bind_eq_some_iff.2 ⟨key', hkey', ht'⟩, rfl, rfl⟩
        · exact h

theorem workerStep_right {contents : Contents} {s : State} {tasks : Tasks}
    {key : String} {event : WorkerEvent}
    (hstep : workerStep s.tasks key event = some tasks)
    (h : LinksRight contents s) : LinksRight contents { s with tasks } := by
  refine h.of_same rfl (fun _ _ => rfl) ?_
  unfold workerStep at hstep
  split at hstep
  · cases hstep
  · rename_i t ht
    obtain ⟨t', hworker, rfl⟩ := Option.map_eq_some_iff.1 hstep
    intro url u hu
    obtain ⟨key', hkey', hu⟩ := Option.bind_eq_some_iff.1 hu
    dsimp only at hu
    rw [Function.update_apply] at hu
    split at hu
    · rename_i heq
      cases hu
      subst heq
      exact ⟨t, Option.bind_eq_some_iff.2 ⟨_, hkey', ht⟩,
        DecompressTaskInfo.worker_same hworker⟩
    · exact ⟨u, Option.bind_eq_some_iff.2 ⟨key', hkey', hu⟩, rfl, rfl⟩

/-- The state after a push that gets the file name `key` and a new link. -/
def State.withLink (s : State) (tasks : Tasks) (entryName : Option String)
    (url key : String) : State where
  tasks := tasks
  taskCache := s.taskCache ++ [(entryName, url)]
  entryMap := Function.update s.entryMap url (some key)
  issued := s.issued ++ [s.taskCache.length]

theorem withLink_taskOf_self (s : State) (tasks : Tasks)
    (entryName : Option String) (url key : String) :
    (s.withLink tasks entryName url key).taskOf url = tasks key := by
  simp [State.taskOf, State.withLink]

theorem withLink_taskOf_ne {s : State} {tasks : Tasks}
    {entryName : Option String} {url url' key : String} (h : url' ≠ url) :
    (s.withLink tasks entryName url key).taskOf url' =
      (s.entryMap url').bind tasks := by
  simp [State.taskOf, State.withLink, Function.update_of_ne h]

/-- The links of the pushed URL, the new one too, lead to the task of the file name. -/
theorem withLink_linkRight_self {contents : Contents} {s : State} {tasks : Tasks}
    {entryName entryName' : Option String} {url key : String} {t : DecompressTaskInfo}
    {id : Nat} (ht : tasks key = some t)
    (hget : (s.withLink tasks entryName url key).taskCache[id]? = some (entryName', url)) :
    LinkRight contents (s.withLink tasks entryName url key) id ↔
      Names contents entryName' url t := by
  rw [linkRight_iff hget, withLink_taskOf_self, ht]
  exact ⟨fun h => h t rfl, fun h t' ht' => Option.some.inj ht' ▸ h⟩

/-- The links of the other URLs lead to their tasks, of which one may be new. -/
theorem withLink_linkRight_ne {contents : Contents} {s : State} {tasks : Tasks}
    {entryName entryName' : Option String} {url url' key : String} {t : DecompressTaskInfo}
    {id : Nat} (ht : tasks key = some t) (hother : ∀ key', key' ≠ key → tasks key' = s.tasks key')
    (hget : s.taskCache[id]? = some (entryName', url'))
    (hget' : (s.withLink tasks entryName url key).taskCache[id]? = some (entryName', url'))
    (hurl : url' ≠ url) (hright : LinkRight contents s id) :
    LinkRight contents (s.withLink tasks entryName url key) id ↔
      (s.entryMap url' = some key → Names contents entryName' url' t) := by
  rw [linkRight_iff hget', withLink_taskOf_ne hurl]
  constructor
  · intro h hkey
    exact h t (by rw [hkey, Option.bind_some, ht])
  · intro h t' ht'
    obtain ⟨key', hkey', ht'⟩ := Option.bind_eq_some_iff.1 ht'
    by_cases hkey : key' = key
    · subst hkey
      rw [ht, Option.some.injEq] at ht'
      exact ht' ▸ h hkey'
    · rw [hother key' hkey] at ht'
      exact (linkRight_iff hget).1 hright t' (Option.bind_eq_some_iff.2 ⟨key', hkey', ht'⟩)

/-- A push whose file name leads to the task `t` makes a right link, and keeps
the others right, exactly when `NewLinkFits` holds. -/
theorem withLink_right_iff {contents : Contents} {s : State} {url : String}
    {entryName : Option String} {entry : Entry} {tasks : Tasks}
    {t : DecompressTaskInfo} (hids : IdsOk s) (hright : LinksRight contents s)
    (hselect : contents.select url entryName = some entry)
    (ht : tasks (getFileName entry.key) = some t)
    (hother : ∀ key, key ≠ getFileName entry.key → tasks key = s.tasks key)
    (htask : (t.archive = contents.archive url ∧ t.entry = entry) ↔
      ∀ t, s.tasks (getFileName entry.key) = some t →
        t.archive = contents.archive url ∧ t.entry = entry) :
    LinksRight contents
        (s.withLink tasks entryName url (getFileName entry.key)) ↔
      NewLinkFits contents s url entry := by
  have hnew : (s.withLink tasks entryName url
      (getFileName entry.key)).taskCache[s.taskCache.length]? =
        some (entryName, url) := List.getElem?_concat_length
  have hold : ∀ id ∈ s.issued, (s.withLink tasks entryName url
      (getFileName entry.key)).taskCache[id]? = s.taskCache[id]? :=
    fun id hid => List.getElem?_append_left (hids id hid)
  have hnewRight := @withLink_linkRight_self contents s tasks entryName entryName url
    (getFileName entry.key) t s.taskCache.length ht hnew
  constructor
  · intro h
    obtain ⟨harchive, hselected⟩ :=
      hnewRight.1 (h _ (List.mem_append_right _ (List.mem_singleton.2 rfl)))
    have hentry : t.entry = entry := Option.some.inj (hselected.symm.trans hselect)
    refine ⟨htask.1 ⟨harchive, hentry⟩, ?_, ?_⟩
    · intro id hid entryName' hget
      have hlink := (withLink_linkRight_self ht ((hold id hid).trans hget)).1
        (h id (List.mem_append_left _ hid))
      rw [hlink.2, hentry]
    · intro id hid entryName' url' hget hne hkey
      have hlink := (withLink_linkRight_ne ht hother hget ((hold id hid).trans hget) hne
        (hright id hid)).1 (h id (List.mem_append_left _ hid)) hkey
      exact hne (congrArg Archive.volumes (hlink.1.symm.trans harchive))
  · intro hfits id hmem
    obtain ⟨harchive, hentry⟩ := htask.2 hfits.task
    rcases List.mem_append.1 hmem with hid | hid
    · obtain ⟨⟨entryName', url'⟩, hget⟩ : ∃ cached, s.taskCache[id]? = some cached :=
        ⟨_, List.getElem?_eq_getElem (hids id hid)⟩
      by_cases hurl : url' = url
      · -- an earlier link of the same URL
        subst hurl
        rw [withLink_linkRight_self ht ((hold id hid).trans hget)]
        refine ⟨harchive, ?_⟩
        rw [hfits.sameUrl id hid entryName' hget, hentry]
      · rw [withLink_linkRight_ne ht hother hget ((hold id hid).trans hget) hurl (hright id hid)]
        exact fun hkey => absurd hkey (hfits.otherUrl id hid entryName' url' hget hurl)
    · rw [List.mem_singleton.1 hid, hnewRight]
      refine ⟨harchive, ?_⟩
      rw [hselect, hentry]

/-- A push keeps all links right exactly when it fits. -/
theorem push_right_iff {contents : Contents} {s : State} {url : String}
    {entryName : Option String} {opens : Bool} (hids : IdsOk s)
    (hright : LinksRight contents s) :
    LinksRight contents (pushStep contents s url entryName opens) ↔
      PushFits contents s (.push url entryName opens) := by
  unfold pushStep PushFits
  dsimp only
  cases hretry : retryId s entryName url s.taskCache 0 with
  | some id =>
    dsimp only
    split
    · rename_i hnone
      refine iff_of_true hright ?_
      rw [hnone]
      intro hsome
      cases hsome
    · rename_i old hold
      have hget := retryId_registered hretry
      simp only [hold, Option.isSome_some, forall_const]
      have hlink : LinkRight contents s id ↔ _ := linkRight_iff hget
      rw [← hlink]
      constructor
      · intro h
        exact h id (List.mem_append_right _ (List.mem_singleton.2 rfl))
      · intro h id' hid'
        rcases List.mem_append.1 hid' with hid' | hid'
        · exact hright id' hid'
        · rw [List.mem_singleton.1 hid']
          exact h
  | none =>
    dsimp only
    have hcase := createDecompressor_cases contents.endsWith s.tasks (contents.archive url)
      entryName opens
    generalize createDecompressor contents.endsWith s.tasks (contents.archive url) entryName opens =
      result at hcase ⊢
    cases hcase with
    | nothing selected hfree =>
      have hfits : ∀ entry,
          contents.select url entryName = some entry →
          (s.tasks (getFileName entry.key)).isSome = true ∨ opens = true →
            NewLinkFits contents s url entry := by
        intro entry hselect hgets
        rw [(hfree entry hselect).1, (hfree entry hselect).2] at hgets
        simp at hgets
      refine iff_of_true ?_ hfits
      cases selected <;>
        exact hright.of_same rfl
          (fun id hid => List.getElem?_append_left (hids id hid))
          (fun url' t' ht' => ⟨t', ht', rfl, rfl⟩)
    | existing entry t hselect ht =>
      have hselect : contents.select url entryName = some entry := hselect
      refine (withLink_right_iff hids hright hselect ht (fun _ _ => rfl) ?_).trans ?_
      · simp [ht]
      · simp [hselect, ht]
    | started entry hselect hfree hopens =>
      have hselect : contents.select url entryName = some entry := hselect
      refine (withLink_right_iff hids hright hselect (Function.update_self ..)
        (fun key hne => Function.update_of_ne hne ..) ?_).trans ?_
      · simp [hfree, DecompressTaskInfo.start]
      · simp [hselect, hopens]

/-! ## Runs -/

theorem pushStep_ids {contents : Contents} {s : State} (url : String)
    (entryName : Option String) (opens : Bool) (hids : IdsOk s) :
    IdsOk (pushStep contents s url entryName opens) := by
  unfold pushStep
  split
  · rename_i id hretry
    split
    · exact hids
    · intro id' hid'
      rcases List.mem_append.1 hid' with hid' | hid'
      · exact hids id' hid'
      · rw [List.mem_singleton.1 hid']
        exact (List.getElem?_eq_some_iff.1 (retryId_registered hretry)).1
  · have hgrow : ∀ id ∈ s.issued,
        id < (s.taskCache ++ [(entryName, url)]).length := by
      intro id hid
      have hlt := hids id hid
      rw [List.length_append]
      omega
    dsimp only
    split
    · intro id hid
      rcases List.mem_append.1 hid with hid | hid
      · exact hgrow id hid
      · rw [List.mem_singleton.1 hid, List.length_append, List.length_singleton]
        exact Nat.lt_succ_self _
    · exact hgrow

theorem step_ids {contents : Contents} {s s' : State} {l : Label}
    (hids : IdsOk s) (h : step contents s l = some s') : IdsOk s' := by
  cases l with
  | push url entryName opens =>
    cases h
    exact pushStep_ids url entryName opens hids
  | request id =>
    cases h
    unfold requestStep
    split
    · exact hids
    · split
      · exact hids
      · split
        · exact hids
        · split <;> exact hids
  | worker key event =>
    obtain ⟨tasks, -, rfl⟩ := Option.map_eq_some_iff.1 h
    exact hids

theorem step_right_iff {contents : Contents} {s s' : State} {l : Label}
    (hids : IdsOk s) (hright : LinksRight contents s)
    (h : step contents s l = some s') :
    LinksRight contents s' ↔ PushFits contents s l := by
  cases l with
  | push url entryName opens =>
    cases h
    exact push_right_iff hids hright
  | request id =>
    cases h
    exact iff_of_true (requestStep_right id hright) trivial
  | worker key event =>
    obtain ⟨tasks, htasks, rfl⟩ := Option.map_eq_some_iff.1 h
    exact iff_of_true (workerStep_right htasks hright) trivial

/-! ## Extractions that end too early -/

/-- No issued link leads to an extraction that has ended too early. -/
def LinksIntact (s : State) : Prop :=
  ∀ id ∈ s.issued, ∀ t, serve s id = some t → t.endedEarly = false

/-- What a request with `id` is served is an extraction of the entry registered under `id`,
which runs or is complete. -/
def LinkServes (contents : Contents) (s : State) (id : Nat) : Prop :=
  ∀ t, serve s id = some t → ∃ entryName url entry,
    s.taskCache[id]? = some (entryName, url) ∧ contents.select url entryName = some entry ∧
      t.Serves (contents.archive url) entry

/-- All links that were issued serve what they name. -/
def LinksServe (contents : Contents) (s : State) : Prop :=
  ∀ id ∈ s.issued, LinkServes contents s id

theorem linksServe_iff {contents : Contents} {s : State} :
    LinksServe contents s ↔ LinksRight contents s ∧ LinksIntact s := by
  constructor
  · intro h
    constructor
    · intro id hid t ht
      obtain ⟨entryName, url, entry, hget, hselect, harchive, hentry, -⟩ := h id hid t ht
      exact ⟨entryName, url, hget, harchive, hentry ▸ hselect⟩
    · intro id hid t ht
      obtain ⟨_, _, _, -, -, -, -, hserves⟩ := h id hid t ht
      exact DecompressTaskInfo.endedEarly_eq_false.2 hserves
  · intro ⟨hright, hintact⟩ id hid t ht
    obtain ⟨entryName, url, hget, harchive, hselect⟩ := hright id hid t ht
    exact ⟨entryName, url, t.entry, hget, hselect, harchive, rfl,
      DecompressTaskInfo.endedEarly_eq_false.1 (hintact id hid t ht)⟩

/-- The event ends a running worker with an exception or before the last byte. -/
def EndsEarly (t : DecompressTaskInfo) : WorkerEvent → Prop
  | .read n => n = 0 ∧ t.written < t.totalSize ∧ 3 ≤ t.readTries
  | .fail => True
  | .overwrite _ => False

/-- The condition on a step for the extractions.  A push gets none that has ended too early,
and no worker ends too early to which an issued link leads. -/
def KeepsIntact (contents : Contents) (s : State) : Label → Prop
  | .push url entryName _ =>
    match retryId s entryName url s.taskCache 0 with
    | some _ => (entryName.bind s.tasks).isSome = true →
        ∀ t, s.taskOf url = some t → t.endedEarly = false
    | none => ∀ entry, contents.select url entryName = some entry →
        ∀ t, s.tasks (getFileName entry.key) = some t → t.endedEarly = false
  | .request _ => True
  | .worker key event => ∀ t, s.tasks key = some t → EndsEarly t event →
      ∀ id ∈ s.issued, ∀ cached, s.taskCache[id]? = some cached →
        s.entryMap cached.2 ≠ some key

/-- A worker that runs has no error yet. -/
def ErrorsEnd (s : State) : Prop :=
  ∀ key t, s.tasks key = some t → t.running = true → t.error = false

theorem worker_error {t t' : DecompressTaskInfo} {event : WorkerEvent}
    (h : t.worker event = some t') (hrunning : t'.running = true) :
    t.running = true ∧ t'.error = t.error := by
  unfold DecompressTaskInfo.worker at h
  split at h
  · split_ifs at h with hstop
    · cases h
      exact ⟨hrunning, rfl⟩
    · cases h
      exact ⟨hrunning, rfl⟩
    · cases h
      cases hrunning
  · split_ifs at h
    cases h
    cases hrunning
  · split_ifs at h with hstop
    cases h
    exact absurd hrunning hstop

/-- What an event makes of a worker that has not ended too early. -/
theorem worker_endedEarly {t t' : DecompressTaskInfo} {event : WorkerEvent}
    (h : t.worker event = some t') (herror : t.running = true → t.error = false)
    (hearly : t.endedEarly = false) : t'.endedEarly = false ↔ ¬ EndsEarly t event := by
  cases event with
  | read n =>
    simp only [DecompressTaskInfo.worker] at h
    split_ifs at h with hstop hpos htries
    · cases h
      rw [not_or] at hstop
      have hrunning : t.running = true := by simpa using hstop.1
      refine iff_of_true (by simp [DecompressTaskInfo.endedEarly, hrunning]) fun hends => ?_
      exact absurd hends.1 (Nat.pos_iff_ne_zero.1 hpos)
    · cases h
      rw [not_or] at hstop
      have hrunning : t.running = true := by simpa using hstop.1
      refine iff_of_true (by simp [DecompressTaskInfo.endedEarly, hrunning]) fun hends => ?_
      exact absurd hends.2.2 (Nat.not_le.2 htries.2)
    · cases h
      rw [not_or] at hstop
      have hrunning : t.running = true := by simpa using hstop.1
      have hzero : n = 0 := Nat.eq_zero_of_not_pos hpos
      have hle : t.written ≤ t.totalSize := by omega
      have hended : DecompressTaskInfo.endedEarly
          { t with running := false, totalDecompressed := (t.written : Int) } = false ↔
            t.written = t.totalSize := by
        unfold DecompressTaskInfo.endedEarly
        dsimp only
        rw [herror hrunning, Bool.not_false, Bool.true_and, Bool.false_or,
          decide_eq_false_iff_not, not_not]
        rfl
      rw [hended, EndsEarly]
      omega
  | fail =>
    simp only [DecompressTaskInfo.worker] at h
    split_ifs at h
    cases h
    simp [DecompressTaskInfo.endedEarly, EndsEarly]
  | overwrite value =>
    simp only [DecompressTaskInfo.worker] at h
    split_ifs at h
    cases h
    exact iff_of_true hearly id

/-- A step that leads no URL to another extraction keeps the links intact. -/
theorem LinksIntact.of_same {s s' : State} (h : LinksIntact s) (hissued : s'.issued = s.issued)
    (hcache : ∀ id ∈ s.issued, s'.taskCache[id]? = s.taskCache[id]?)
    (htask : ∀ url t, s'.taskOf url = some t → s.taskOf url = some t) : LinksIntact s' := by
  intro id hid t ht
  rw [hissued] at hid
  unfold serve at ht
  rw [hcache id hid] at ht
  obtain ⟨cached, hget, ht⟩ := Option.bind_eq_some_iff.1 ht
  exact h id hid t (Option.bind_eq_some_iff.2 ⟨cached, hget, htask cached.2 t ht⟩)

theorem requestStep_taskOf {s : State} (id : Nat) {url : String} {t : DecompressTaskInfo}
    (h : (requestStep s id).taskOf url = some t) : s.taskOf url = some t := by
  unfold requestStep at h
  split at h
  · exact h
  · split at h
    · exact h
    · split at h
      · exact h
      · split at h
        · obtain ⟨key', hkey', ht⟩ := Option.bind_eq_some_iff.1 h
          dsimp only at ht
          rw [Function.update_apply] at ht
          split at ht
          · cases ht
          · exact Option.bind_eq_some_iff.2 ⟨key', hkey', ht⟩
        · exact h

theorem requestStep_issued (s : State) (id : Nat) :
    (requestStep s id).issued = s.issued ∧ (requestStep s id).taskCache = s.taskCache := by
  unfold requestStep
  split
  · exact ⟨rfl, rfl⟩
  · split
    · exact ⟨rfl, rfl⟩
    · split
      · exact ⟨rfl, rfl⟩
      · split <;> exact ⟨rfl, rfl⟩

/-- An event of a worker keeps the links intact exactly when it does not end the worker too
early, or no issued link leads to it. -/
theorem worker_intact_iff {contents : Contents} {s : State} {tasks : Tasks} {key : String}
    {event : WorkerEvent} (herrors : ErrorsEnd s) (hintact : LinksIntact s)
    (hstep : workerStep s.tasks key event = some tasks) :
    LinksIntact { s with tasks } ↔ KeepsIntact contents s (.worker key event) := by
  unfold workerStep at hstep
  split at hstep
  · cases hstep
  · rename_i t ht
    obtain ⟨t', hworker, rfl⟩ := Option.map_eq_some_iff.1 hstep
    rw [KeepsIntact]
    constructor
    · intro h u hu hends id hid cached hget hkey
      rw [ht, Option.some.injEq] at hu
      subst hu
      have hold : serve s id = some t := by
        rw [serve, hget, Option.bind_some, State.taskOf, hkey, Option.bind_some, ht]
      have hnew : serve { s with tasks := Function.update s.tasks key (some t') } id =
          some t' := by
        rw [serve]
        dsimp only
        rw [hget, Option.bind_some, State.taskOf]
        dsimp only
        rw [hkey, Option.bind_some, Function.update_self]
      exact (worker_endedEarly hworker (herrors key t ht) (hintact id hid t hold)).1
        (h id hid t' hnew) hends
    · intro h id hid u hu
      obtain ⟨cached, hget, htask⟩ := Option.bind_eq_some_iff.1 hu
      obtain ⟨key', hkey', hkept⟩ := Option.bind_eq_some_iff.1 htask
      dsimp only at hget hkey' hkept
      by_cases hkey : key' = key
      · subst hkey
        rw [Function.update_self, Option.some.injEq] at hkept
        subst hkept
        have hold : serve s id = some t := by
          rw [serve, hget, Option.bind_some, State.taskOf, hkey', Option.bind_some, ht]
        refine (worker_endedEarly hworker (herrors _ t ht) (hintact id hid t hold)).2 ?_
        exact fun hends => h t ht hends id hid cached hget hkey'
      · rw [Function.update_of_ne hkey] at hkept
        refine hintact id hid u ?_
        rw [serve, hget, Option.bind_some, State.taskOf, hkey', Option.bind_some, hkept]

/-- A push that gets the task `t` keeps the links intact exactly when `t` has not ended too
early. -/
theorem withLink_intact_iff {s : State} {url : String} {entryName : Option String}
    {key : String} {tasks : Tasks} {t : DecompressTaskInfo} (hids : IdsOk s)
    (hintact : LinksIntact s) (ht : tasks key = some t)
    (hother : ∀ key', key' ≠ key → tasks key' = s.tasks key')
    (hkey : ∀ u, s.tasks key = some u → u = t) :
    LinksIntact (s.withLink tasks entryName url key) ↔ t.endedEarly = false := by
  constructor
  · intro h
    apply h s.taskCache.length (List.mem_append_right _ (List.mem_singleton.2 rfl))
    have hnew : (s.withLink tasks entryName url key).taskCache[s.taskCache.length]? =
        some (entryName, url) := List.getElem?_concat_length
    rw [serve, hnew, Option.bind_some, withLink_taskOf_self, ht]
  · intro hearly id hid u hu
    obtain ⟨cached, hget, hu⟩ := Option.bind_eq_some_iff.1 hu
    obtain ⟨key', hkey', hu⟩ := Option.bind_eq_some_iff.1 hu
    by_cases hsame : key' = key
    · subst hsame
      have hu : tasks key' = some u := hu
      rw [ht, Option.some.injEq] at hu
      exact hu ▸ hearly
    · -- a link of another URL to another file name
      have hu : tasks key' = some u := hu
      rw [hother key' hsame] at hu
      have hurl : cached.2 ≠ url := by
        intro heq
        change Function.update s.entryMap url (some key) cached.2 = some key' at hkey'
        rw [heq, Function.update_self, Option.some.injEq] at hkey'
        exact hsame hkey'.symm
      change Function.update s.entryMap url (some key) cached.2 = some key' at hkey'
      rw [Function.update_of_ne hurl] at hkey'
      have hid' : id ∈ s.issued := by
        rcases List.mem_append.1 hid with hid | hid
        · exact hid
        · rw [List.mem_singleton.1 hid] at hget
          have hnew : (s.withLink tasks entryName url key).taskCache[s.taskCache.length]? =
              some (entryName, url) := List.getElem?_concat_length
          rw [hnew, Option.some.injEq] at hget
          exact absurd (congrArg Prod.snd hget).symm hurl
      have hold : (s.withLink tasks entryName url key).taskCache[id]? = s.taskCache[id]? :=
        List.getElem?_append_left (hids id hid')
      refine hintact id hid' u ?_
      rw [serve, ← hold, hget, Option.bind_some, State.taskOf, hkey', Option.bind_some, hu]

theorem push_intact_iff {contents : Contents} {s : State} {url : String}
    {entryName : Option String} {opens : Bool} (hids : IdsOk s) (hintact : LinksIntact s) :
    LinksIntact (pushStep contents s url entryName opens) ↔
      KeepsIntact contents s (.push url entryName opens) := by
  unfold pushStep KeepsIntact
  dsimp only
  cases hretry : retryId s entryName url s.taskCache 0 with
  | some id =>
    have hserve : serve s id = s.taskOf url := by
      rw [serve, retryId_registered hretry, Option.bind_some]
    dsimp only
    split
    · rename_i hnone
      refine iff_of_true hintact ?_
      rw [hnone]
      intro hsome
      cases hsome
    · rename_i old hold
      simp only [hold, Option.isSome_some, forall_const]
      constructor
      · intro h t ht
        exact h id (List.mem_append_right _ (List.mem_singleton.2 rfl)) t (hserve.trans ht)
      · intro h id' hid' t ht
        rcases List.mem_append.1 hid' with hid' | hid'
        · exact hintact id' hid' t ht
        · rw [List.mem_singleton.1 hid'] at ht
          exact h t (hserve.symm.trans ht)
  | none =>
    dsimp only
    have hcase := createDecompressor_cases contents.endsWith s.tasks (contents.archive url)
      entryName opens
    generalize createDecompressor contents.endsWith s.tasks (contents.archive url) entryName opens =
      result at hcase ⊢
    cases hcase with
    | nothing selected hfree =>
      have hfits : ∀ entry, contents.select url entryName = some entry →
          ∀ t, s.tasks (getFileName entry.key) = some t → t.endedEarly = false := by
        intro entry hselect t ht
        rw [(hfree entry hselect).1] at ht
        cases ht
      refine iff_of_true ?_ hfits
      cases selected <;>
        exact hintact.of_same rfl
          (fun id hid => List.getElem?_append_left (hids id hid)) (fun _ _ ht => ht)
    | existing entry t hselect ht =>
      have hselect : contents.select url entryName = some entry := hselect
      refine (withLink_intact_iff hids hintact ht (fun _ _ => rfl) ?_).trans ?_
      · intro u hu
        exact Option.some.inj (hu.symm.trans ht)
      · simp [hselect, ht]
    | started entry hselect hfree hopens =>
      have hselect : contents.select url entryName = some entry := hselect
      refine (withLink_intact_iff hids hintact (Function.update_self ..)
        (fun key hne => Function.update_of_ne hne ..) ?_).trans ?_
      · intro u hu
        rw [hfree] at hu
        cases hu
      · simp [hselect, hfree, DecompressTaskInfo.start, DecompressTaskInfo.endedEarly]

theorem step_errors {contents : Contents} {s s' : State} {l : Label} (h : ErrorsEnd s)
    (hstep : step contents s l = some s') : ErrorsEnd s' := by
  cases l with
  | push url entryName opens =>
    cases hstep
    unfold pushStep
    split
    · split
      · exact h
      · exact h
    · have hcase := createDecompressor_cases contents.endsWith s.tasks (contents.archive url)
        entryName opens
      dsimp only
      generalize createDecompressor contents.endsWith s.tasks (contents.archive url) entryName
        opens = result at hcase ⊢
      cases hcase with
      | nothing selected hfree => cases selected <;> exact h
      | existing entry t hselect ht => exact h
      | started entry hselect hfree hopens =>
        intro key t ht
        change Function.update s.tasks _ _ key = some t at ht
        rw [Function.update_apply] at ht
        split at ht
        · cases ht
          exact fun _ => rfl
        · exact h key t ht
  | request id =>
    cases hstep
    unfold requestStep
    split
    · exact h
    · split
      · exact h
      · split
        · exact h
        · split
          · intro key t ht
            change Function.update s.tasks _ _ key = some t at ht
            rw [Function.update_apply] at ht
            split at ht
            · cases ht
            · exact h key t ht
          · exact h
  | worker key event =>
    obtain ⟨tasks, htasks, rfl⟩ := Option.map_eq_some_iff.1 hstep
    unfold workerStep at htasks
    split at htasks
    · cases htasks
    · rename_i t ht
      obtain ⟨t', hworker, rfl⟩ := Option.map_eq_some_iff.1 htasks
      intro key' u hu hrunning
      change Function.update s.tasks _ _ key' = some u at hu
      rw [Function.update_apply] at hu
      split at hu
      · cases hu
        obtain ⟨hran, herror⟩ := worker_error hworker hrunning
        rw [herror]
        exact h key t ht hran
      · exact h key' u hu hrunning

/-- A step keeps the links intact exactly when it meets `KeepsIntact`. -/
theorem intact_step_iff {contents : Contents} {s s' : State} {l : Label} (hids : IdsOk s)
    (herrors : ErrorsEnd s) (hintact : LinksIntact s) (h : step contents s l = some s') :
    LinksIntact s' ↔ KeepsIntact contents s l := by
  cases l with
  | push url entryName opens =>
    cases h
    exact push_intact_iff hids hintact
  | request id =>
    cases h
    obtain ⟨hissued, hcache⟩ := requestStep_issued s id
    refine iff_of_true (hintact.of_same hissued (fun _ _ => by rw [hcache]) ?_) trivial
    exact fun url t ht => requestStep_taskOf id ht
  | worker key event =>
    obtain ⟨tasks, htasks, rfl⟩ := Option.map_eq_some_iff.1 h
    exact worker_intact_iff herrors hintact htasks

/-- In a run of pushes, requests and extractions, every issued link leads in every state of the
run to an extraction of the entry registered under its number that runs or is complete, exactly
when each push of the run fits, gets no extraction that has ended too early, and no worker ends
too early to which a link leads. -/
theorem links_served_iff (contents : Contents) (ls : List Label) (s : State)
    (hrun : (system contents).run init ls = some s) :
    (system contents).Along (LinksServe contents) init ls ↔
      (system contents).StepsMeet
        (fun s l => PushFits contents s l ∧ KeepsIntact contents s l) init ls := by
  refine System.along_of_step (fun s => IdsOk s ∧ ErrorsEnd s) (LinksServe contents)
    (fun s l => PushFits contents s l ∧ KeepsIntact contents s l)
    (fun s l s' h hstep => ⟨step_ids h.1 hstep, step_errors h.2 hstep⟩) ?_ ?_ ?_ hrun
  · intro s l s' ⟨hids, herrors⟩ hserve hstep
    obtain ⟨hright, hintact⟩ := linksServe_iff.1 hserve
    rw [linksServe_iff, step_right_iff hids hright hstep,
      intact_step_iff hids herrors hintact hstep]
  · constructor
    · intro id hid
      cases hid
    · intro key t ht
      cases ht
  · intro id hid
    cases hid

/-- An archive with two packages. -/
def twoPackages : Contents where
  entries := fun _ => [{ key := "base.pkg", size := 4 }, { key := "patch.pkg", size := 4 }]
  endsWith := endsWithIgnoreCase

/-- One package is pushed, extracted, pushed again and requested. -/
def samePackageRun : List Label :=
  [.push "http://a/a.rar" (some "base.pkg") true, .worker "base.pkg" (.read 4),
    .worker "base.pkg" (.read 0), .push "http://a/a.rar" (some "base.pkg") true,
    .request 0]

/-- The state that `samePackageRun` ends in. -/
def samePackageEnd : State :=
  ((system twoPackages).run init samePackageRun).get (by decide +kernel)

theorem links_served_samePackageEnd :
    samePackageEnd.issued = [0, 0] ∧
      ((system twoPackages).Along (LinksServe twoPackages) init samePackageRun ↔
        (system twoPackages).StepsMeet
          (fun s l => PushFits twoPackages s l ∧ KeepsIntact twoPackages s l) init
          samePackageRun) :=
  ⟨by decide +kernel, links_served_iff twoPackages samePackageRun samePackageEnd
    (Option.some_get _).symm⟩

/-- Both packages of an archive are pushed.  The link of the first leads to
the second, whose file name has replaced that of the first in `EntryMap`. -/
theorem second_entry_served :
    ¬∀ (contents : Contents) (s : State), (system contents).Reachable s →
      LinksServe contents s := by
  intro h
  have hrun : ((system twoPackages).run init
      [.push "http://a/a.rar" (some "base.pkg") true,
        .push "http://a/a.rar" (some "patch.pkg") true]).map
      (fun s => (s.issued, s.taskCache[0]?, (serve s 0).map (·.entry.key))) =
      some ([0, 1], some (some "base.pkg", "http://a/a.rar"),
        some "patch.pkg") := by
    decide +kernel
  obtain ⟨s, hs, hlinks⟩ := Option.map_eq_some_iff.1 hrun
  simp only [Prod.mk.injEq] at hlinks
  obtain ⟨hissued, hcached, hserved⟩ := hlinks
  obtain ⟨t, ht, hkey⟩ := Option.map_eq_some_iff.1 hserved
  obtain ⟨entryName, url, hget, hnames⟩ :=
    (linksServe_iff.1 (h _ s (System.reachable_of_run (.init rfl) hs))).1 0
      (by simp [hissued]) t ht
  rw [hcached] at hget
  cases hget
  have hselect : (twoPackages.select "http://a/a.rar" (some "base.pkg")).map (·.key) =
      some "base.pkg" := by
    decide +kernel
  rw [hnames.2, Option.map_some, hkey] at hselect
  exact absurd hselect (by decide)

end DirectPackageInstaller.DecompressService
