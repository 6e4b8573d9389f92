import DirectPackageInstaller.Host.DecompressService
import DirectPackageInstaller.Host.Manifest

/-!
# Issued links over restarts of the server

The console keeps the links it was given.  `RegisterJSON` numbers manifests by
the size of `JSONs`, which belongs to the `PS4Server`; a push of an archive
entry numbers its link by the size of `TaskCache`, which is static, as
`EntryMap` is.  The extractions themselves belong to the server again.
`RestartServer_OnClick` puts a new server in the place of the old one.

* `meaning_step_iff`: what a step must find for the links to keep their
  meaning.
* `restartKeeps_iff`: a restart loses every complete extraction.
* `links_keep_iff`: the links of a run keep their meaning, and complete
  extractions survive its restarts, exactly when each registration finds its
  number unused, each push fits and no restart finds a complete extraction.
* `reissued_json`: a manifest link that leads to another package.
-/

namespace DirectPackageInstaller.IssuedLinks

open Text QueryString Links Manifest Transition
open SharpComp (DecompressTaskInfo Entry)
open DecompressService (Contents)

/-! ## Manifest links -/

/-- The package that a manifest is registered for. -/
structure Package where
  url : Text
  packageSize : Nat
  digest : Text
  deriving DecidableEq, Repr

/-- A row of `JSONs`.  The dictionary holds the manifest. -/
structure Registered where
  package : Package
  manifest : PKGManifest
  deriving DecidableEq, Repr

/-- `JSONs`, in the order of the registrations. -/
abbrev JSONs := List (Text × Registered)

def JSONs.lookup (jsons : JSONs) (id : Text) : Option Registered :=
  (jsons.find? fun row => row.1 = id).map Prod.snd

/-! ## The application -/

structure State where
  /-- The server's socket is open. -/
  listening : Bool
  /-- `JSONs` of the server. -/
  jsons : JSONs
  /-- The extractions of the server, and the static maps. -/
  decompress : DecompressService.State
  /-- The numbers of the manifest links that were issued, each with the package
  it was issued for. -/
  jsonLinks : List (Text × Package)

def init : State where
  listening := true
  jsons := []
  decompress := DecompressService.init
  jsonLinks := []

/-- How `RestartServer_OnClick` ends. -/
inductive RestartOutcome where
  /-- The constructor throws, and the old server stays, stopped. -/
  | notCreated
  /-- `Start` throws. -/
  | notStarted
  | started
  deriving DecidableEq, Repr

inductive Label where
  | registerJSON (package : Package) (host : Text) (autoSplit : Bool)
  | decompress (l : DecompressService.Label)
  | restart (outcome : RestartOutcome)
  deriving DecidableEq, Repr

/-- `PS4Server.RegisterJSON`. -/
def registerStep (s : State) (package : Package) (host : Text) (autoSplit : Bool) :
    State :=
  let id := decimal s.jsons.length
  match s.jsons.lookup id with
  | some _ => s
  | none =>
    let manifest := registerManifest package.url host package.packageSize
      package.digest autoSplit
    { s with
      jsons := s.jsons ++ [(id, { package, manifest })]
      jsonLinks := s.jsonLinks ++ [(id, package)] }

/-- A new `PS4Server`, with a new `DecompressService`. -/
def State.newServer (s : State) (listening : Bool) : State :=
  { s with
    listening
    jsons := []
    decompress := { s.decompress with tasks := fun _ => none } }

/-- `RestartServer_OnClick`. -/
def restartStep (s : State) : RestartOutcome → State
  | .notCreated => { s with listening := false }
  | .notStarted => s.newServer false
  | .started => s.newServer true

/-- A stopped server gets no request. -/
def State.reaches (s : State) : DecompressService.Label → Bool
  | .request _ => s.listening
  | _ => true

def step (contents : Contents) (s : State) : Label → Option State
  | .registerJSON package host autoSplit =>
    some (registerStep s package host autoSplit)
  | .decompress l =>
    if s.reaches l then
      (DecompressService.step contents s.decompress l).map fun decompress =>
        { s with decompress }
    else none
  | .restart outcome => some (restartStep s outcome)

/-- Registrations, pushes, requests, extractions and restarts. -/
def system (contents : Contents) : System State Label where
  init := fun s => s = init
  step := step contents

/-! ## What links lead to -/

/-- What the console gets from a manifest link. -/
def State.json (s : State) (id : Text) : Option Registered :=
  if s.listening then s.jsons.lookup id else none

/-- The extraction that the console gets from a link to an archive entry. -/
def State.task (s : State) (id : Nat) : Option DecompressTaskInfo :=
  if s.listening then DecompressService.serve s.decompress id else none

/-- Every issued link leads to the package it was issued for, or to an error. -/
structure LinksKeep (contents : Contents) (s : State) : Prop where
  json : ∀ link ∈ s.jsonLinks, ∀ registered,
    s.json link.1 = some registered → registered.package = link.2
  decompress : ∀ id ∈ s.decompress.issued, ∀ t, s.task id = some t →
    ∃ entryName url, s.decompress.taskCache[id]? = some (entryName, url) ∧
      DecompressService.Names contents entryName url t

/-- A link whose extraction is complete. -/
def State.CompleteLink (s : State) (id : Nat) : Prop :=
  ∃ t, s.task id = some t ∧ t.complete = true

/-- A restart keeps the links to complete extractions servable. -/
def RestartKeeps (s : State) : Label → Prop
  | .restart outcome => ∀ id ∈ s.decompress.issued, s.CompleteLink id →
      ((restartStep s outcome).task id).isSome = true
  | _ => True

/-- The condition on the steps for the meaning of the links: a number of
`JSONs` was not issued for another package, and a push fits. -/
def MeaningFits (contents : Contents) (s : State) : Label → Prop
  | .registerJSON package _ _ => s.listening = true →
      ∀ link ∈ s.jsonLinks, link.1 = decimal s.jsons.length → link.2 = package
  | .decompress l => s.listening = true →
      DecompressService.PushFits contents s.decompress l
  | .restart _ => True

/-- The condition on the restarts: no issued link has a complete extraction. -/
def NothingComplete (s : State) : Label → Prop
  | .restart _ => ∀ id ∈ s.decompress.issued, ¬ s.CompleteLink id
  | _ => True

/-! ## Numbers -/

/-- The rows of `JSONs` have numbers below its size. -/
def KeysOk (jsons : JSONs) : Prop :=
  ∀ row ∈ jsons, ∃ n < jsons.length, row.1 = decimal n

theorem KeysOk.lookup_next {jsons : JSONs} (h : KeysOk jsons) :
    jsons.lookup (decimal jsons.length) = none := by
  have hnone : jsons.find? (fun row => row.1 = decimal jsons.length) = none := by
    rw [List.find?_eq_none]
    intro row hrow
    obtain ⟨n, hn, hkey⟩ := h row hrow
    rw [hkey, decide_eq_true_eq]
    exact fun heq => absurd (decimal_injective heq) (Nat.ne_of_lt hn)
  rw [JSONs.lookup, hnone]
  rfl

theorem KeysOk.append {jsons : JSONs} (h : KeysOk jsons) (registered : Registered) :
    KeysOk (jsons ++ [(decimal jsons.length, registered)]) := by
  intro row hrow
  rw [List.length_append, List.length_singleton]
  rcases List.mem_append.1 hrow with hrow | hrow
  · obtain ⟨n, hn, hkey⟩ := h row hrow
    exact ⟨n, by omega, hkey⟩
  · rw [List.mem_singleton.1 hrow]
    exact ⟨_, Nat.lt_succ_self _, rfl⟩

/-- A new row is found under its number, the others as before. -/
theorem lookup_append {jsons : JSONs} {next : Text} (h : jsons.lookup next = none)
    (registered : Registered) (id : Text) :
    JSONs.lookup (jsons ++ [(next, registered)]) id =
      if id = next then some registered else jsons.lookup id := by
  rw [JSONs.lookup, List.find?_append]
  by_cases hid : id = next
  · subst hid
    have hnone : jsons.find? (fun row => row.1 = id) = none := by
      simpa [JSONs.lookup] using h
    simp [hnone]
  · have hne : next ≠ id := fun heq => hid heq.symm
    simp [JSONs.lookup, hid, hne]

/-! ## The steps -/

/-- Numbers of links are numbers that were given. -/
structure IdsOk (s : State) : Prop where
  keys : KeysOk s.jsons
  decompress : DecompressService.IdsOk s.decompress

theorem registerStep_eq {s : State} (h : KeysOk s.jsons) (package : Package)
    (host : Text) (autoSplit : Bool) :
    registerStep s package host autoSplit = { s with
      jsons := s.jsons ++ [(decimal s.jsons.length, ⟨package, registerManifest
        package.url host package.packageSize package.digest autoSplit⟩)]
      jsonLinks := s.jsonLinks ++ [(decimal s.jsons.length, package)] } := by
  rw [registerStep]
  dsimp only
  rw [h.lookup_next]

theorem decompress_step {contents : Contents} {s s' : State}
    {l : DecompressService.Label} (h : step contents s (.decompress l) = some s') :
    ∃ d, DecompressService.step contents s.decompress l = some d ∧
      s' = { s with decompress := d } := by
  change (if s.reaches l = true then _ else none) = some s' at h
  split at h
  · obtain ⟨d, hd, rfl⟩ := Option.map_eq_some_iff.1 h
    exact ⟨d, hd, rfl⟩
  · cases h

theorem step_ids {contents : Contents} {s s' : State} {l : Label} (hids : IdsOk s)
    (h : step contents s l = some s') : IdsOk s' := by
  cases l with
  | registerJSON package host autoSplit =>
    cases h
    rw [registerStep_eq hids.keys]
    exact ⟨hids.keys.append _, hids.decompress⟩
  | decompress l =>
    obtain ⟨d, hd, rfl⟩ := decompress_step h
    exact ⟨hids.keys, DecompressService.step_ids hids.decompress hd⟩
  | restart outcome =>
    cases h
    cases outcome with
    | notCreated => exact ⟨hids.keys, hids.decompress⟩
    | notStarted => exact ⟨fun row hrow => absurd hrow List.not_mem_nil, hids.decompress⟩
    | started => exact ⟨fun row hrow => absurd hrow List.not_mem_nil, hids.decompress⟩

/-- On a stopped server every link is an error. -/
theorem LinksKeep.of_stopped {contents : Contents} {s : State} (h : s.listening = false) :
    LinksKeep contents s where
  json := by
    intro link _ registered hjson
    rw [State.json, h] at hjson
    cases hjson
  decompress := by
    intro id _ t ht
    rw [State.task, h] at ht
    cases ht

/-- On a server that listens the links to archive entries are those of
`DecompressService`. -/
theorem linksKeep_iff {contents : Contents} {s : State} (h : s.listening = true) :
    LinksKeep contents s ↔
      (∀ link ∈ s.jsonLinks, ∀ registered,
        s.jsons.lookup link.1 = some registered → registered.package = link.2) ∧
      DecompressService.LinksRight contents s.decompress := by
  constructor
  · intro hkeep
    refine ⟨fun link hlink registered hlookup => hkeep.json link hlink registered ?_,
      fun id hid t ht => hkeep.decompress id hid t ?_⟩
    · rw [State.json, h, if_pos rfl, hlookup]
    · rw [State.task, h, if_pos rfl, ht]
  · rintro ⟨hjson, hright⟩
    refine ⟨fun link hlink registered hlookup => hjson link hlink registered ?_,
      fun id hid t ht => hright id hid t ?_⟩
    · rwa [State.json, h, if_pos rfl] at hlookup
    · rwa [State.task, h, if_pos rfl] at ht

/-- A registration keeps the meaning of all links exactly when its number was
not issued for another package. -/
theorem register_meaning_iff {contents : Contents} {s : State} (hids : IdsOk s)
    (hkeep : LinksKeep contents s) (package : Package) (host : Text)
    (autoSplit : Bool) :
    LinksKeep contents (registerStep s package host autoSplit) ↔
      MeaningFits contents s (.registerJSON package host autoSplit) := by
  rw [registerStep_eq hids.keys]
  by_cases hlistening : s.listening = true
  · obtain ⟨hjson, hright⟩ := (linksKeep_iff hlistening).1 hkeep
    rw [linksKeep_iff (by exact hlistening), MeaningFits]
    simp only [lookup_append hids.keys.lookup_next, hlistening, forall_const]
    constructor
    · rintro ⟨hnew, -⟩ link hlink hnumber
      have := hnew link (List.mem_append_left _ hlink)
      rw [if_pos hnumber] at this
      exact (this _ rfl).symm
    · intro hfits
      refine ⟨fun link hlink registered hlookup => ?_, hright⟩
      by_cases hnumber : link.1 = decimal s.jsons.length
      · rw [if_pos hnumber, Option.some.injEq] at hlookup
        rw [← hlookup]
        rcases List.mem_append.1 hlink with hlink | hlink
        · exact (hfits link hlink hnumber).symm
        · rw [List.mem_singleton.1 hlink]
      · rw [if_neg hnumber] at hlookup
        rcases List.mem_append.1 hlink with hlink | hlink
        · exact hjson link hlink registered hlookup
        · rw [List.mem_singleton.1 hlink] at hnumber
          exact absurd rfl hnumber
  · exact iff_of_true (.of_stopped (Bool.not_eq_true _ ▸ hlistening))
      fun h => absurd h hlistening

/-- A new server leads no link anywhere. -/
theorem newServer_task (s : State) (listening : Bool) (id : Nat) :
    (s.newServer listening).task id = none := by
  have hserve : DecompressService.serve (s.newServer listening).decompress id = none := by
    unfold DecompressService.serve DecompressService.State.taskOf State.newServer
    simp
  rw [State.task, hserve, ite_self]

theorem restartStep_task (s : State) (outcome : RestartOutcome) (id : Nat) :
    (restartStep s outcome).task id = none := by
  cases outcome with
  | notCreated => rfl
  | notStarted => exact newServer_task s false id
  | started => exact newServer_task s true id

/-- A restart keeps the meaning of the links, because it makes them errors. -/
theorem restart_meaning {contents : Contents} (s : State) (outcome : RestartOutcome) :
    LinksKeep contents (restartStep s outcome) where
  json := by
    intro link _ registered hjson
    cases outcome <;> cases hjson
  decompress := by
    intro id _ t ht
    rw [restartStep_task] at ht
    cases ht

/-- A step keeps the meaning of all links exactly when it fits. -/
theorem meaning_step_iff {contents : Contents} {s s' : State} {l : Label}
    (hids : IdsOk s) (hkeep : LinksKeep contents s)
    (h : step contents s l = some s') :
    LinksKeep contents s' ↔ MeaningFits contents s l := by
  cases l with
  | registerJSON package host autoSplit =>
    cases h
    exact register_meaning_iff hids hkeep package host autoSplit
  | decompress l =>
    obtain ⟨d, hd, rfl⟩ := decompress_step h
    by_cases hlistening : s.listening = true
    · obtain ⟨hjson, hright⟩ := (linksKeep_iff hlistening).1 hkeep
      have hstep := DecompressService.step_right_iff hids.decompress hright hd
      rw [linksKeep_iff (by exact hlistening), hstep, MeaningFits]
      simp only [hlistening, forall_const]
      exact and_iff_right hjson
    · exact iff_of_true (.of_stopped (Bool.not_eq_true _ ▸ hlistening))
        fun h => absurd h hlistening
  | restart outcome =>
    cases h
    exact iff_of_true (restart_meaning s outcome) trivial

/-- A restart keeps complete extractions servable exactly when there are none. -/
theorem restartKeeps_iff (s : State) (l : Label) : RestartKeeps s l ↔ NothingComplete s l := by
  cases l with
  | registerJSON package host autoSplit => exact Iff.rfl
  | decompress l => exact Iff.rfl
  | restart outcome =>
    rw [RestartKeeps, NothingComplete]
    simp only [restartStep_task, Option.isSome_none, Bool.false_eq_true]

/-! ## Runs -/

/-- In a run of registrations, pushes, requests, extractions and restarts, every
issued link leads at all times to the package it was issued for or to an error,
and every restart keeps the links to complete extractions servable, exactly
when no registration takes a number that was issued for another package, each
push fits, and no restart finds a link to a complete extraction. -/
theorem links_keep_iff (contents : Contents) (ls : List Label) (s : State)
    (hrun : (system contents).run init ls = some s) :
    (system contents).Along (LinksKeep contents) init ls ∧
        (system contents).StepsMeet RestartKeeps init ls ↔
      (system contents).StepsMeet
        (fun s l => MeaningFits contents s l ∧ NothingComplete s l) init ls := by
  have hinit : IdsOk init :=
    ⟨fun row hrow => absurd hrow List.not_mem_nil,
      fun id hid => absurd hid List.not_mem_nil⟩
  have hkeep : LinksKeep contents init :=
    ⟨fun link hlink => absurd hlink List.not_mem_nil,
      fun id hid => absurd hid List.not_mem_nil⟩
  have hmeaning := System.along_of_step (S := system contents) IdsOk
    (LinksKeep contents) (MeaningFits contents)
    (fun s l s' hids hstep => step_ids hids hstep)
    (fun s l s' hids hkeep hstep => meaning_step_iff hids hkeep hstep)
    hinit hkeep hrun
  have hrestart : RestartKeeps = NothingComplete :=
    funext fun s => funext fun l => propext (restartKeeps_iff s l)
  rw [hmeaning, hrestart, System.stepsMeet_and hrun]

/-- Two packages of different sources. -/
def gamePackage : Package where
  url := "http://a/game.pkg".toList
  packageSize := 4
  digest := []

def patchPackage : Package where
  url := "http://a/patch.pkg".toList
  packageSize := 2
  digest := []

def pcHost : Text := "192.168.0.2".toList

/-- A package is registered, and an archive entry pushed; the server is
restarted while the entry is extracted, and the package registered again. -/
def samePackageRun : List Label :=
  [.registerJSON gamePackage pcHost false,
    .decompress (.push "http://a/a.rar" (some "base.pkg") true),
    .decompress (.worker "base.pkg" (.read 2)), .restart .started,
    .registerJSON gamePackage pcHost false]

/-- The state that `samePackageRun` ends in. -/
def samePackageEnd : State :=
  ((system DecompressService.twoPackages).run init samePackageRun).get
    (by decide +kernel)

theorem links_keep_samePackageEnd :
    samePackageEnd.jsonLinks = [(['0'], gamePackage), (['0'], gamePackage)] ∧
      ((system DecompressService.twoPackages).Along
          (LinksKeep DecompressService.twoPackages) init samePackageRun ∧
        (system DecompressService.twoPackages).StepsMeet RestartKeeps init
          samePackageRun ↔
        (system DecompressService.twoPackages).StepsMeet (fun s l =>
          MeaningFits DecompressService.twoPackages s l ∧ NothingComplete s l)
          init samePackageRun) :=
  ⟨by decide +kernel, links_keep_iff DecompressService.twoPackages samePackageRun
    samePackageEnd (Option.some_get _).symm⟩

/-- A package is registered, the server restarted and another package
registered: the link of the first leads to the second.  And an extraction that
is complete is gone after a restart, with its link still there. -/
theorem reissued_json :
    (¬∀ (contents : Contents) (s : State), (system contents).Reachable s →
      LinksKeep contents s) ∧
    ¬∀ (contents : Contents) (s : State) (l : Label), (system contents).Reachable s →
      RestartKeeps s l := by
  constructor
  · intro h
    have hrun : ((system DecompressService.twoPackages).run init
        [.registerJSON gamePackage pcHost false, .restart .started,
          .registerJSON patchPackage pcHost false]).map
        (fun s => (s.jsonLinks, (s.json ['0']).map (·.package))) =
        some ([(['0'], gamePackage), (['0'], patchPackage)], some patchPackage) := by
      decide +kernel
    obtain ⟨s, hs, hlinks⟩ := Option.map_eq_some_iff.1 hrun
    rw [Prod.mk.injEq] at hlinks
    obtain ⟨registered, hjson, hpackage⟩ := Option.map_eq_some_iff.1 hlinks.2
    have hkeep := h _ s (System.reachable_of_run (.init rfl) hs)
    have hsame := hkeep.json (['0'], gamePackage)
      (by rw [hlinks.1]; exact List.mem_cons_self) registered hjson
    rw [hpackage] at hsame
    exact absurd hsame (by decide)
  · intro h
    have hrun : ((system DecompressService.twoPackages).run init
        [.decompress (.push "http://a/a.rar" (some "base.pkg") true),
          .decompress (.worker "base.pkg" (.read 4)),
          .decompress (.worker "base.pkg" (.read 0))]).map
        (fun s => (s.decompress.issued, (s.task 0).map (·.complete))) =
        some ([0], some true) := by
      decide +kernel
    obtain ⟨s, hs, hlinks⟩ := Option.map_eq_some_iff.1 hrun
    rw [Prod.mk.injEq] at hlinks
    obtain ⟨t, ht, hcomplete⟩ := Option.map_eq_some_iff.1 hlinks.2
    have hkeeps := h _ s (.restart .started) (System.reachable_of_run (.init rfl) hs)
      0 (by rw [hlinks.1]; exact List.mem_cons_self) ⟨t, ht, hcomplete⟩
    rw [restartStep_task] at hkeeps
    cases hkeeps

end DirectPackageInstaller.IssuedLinks
