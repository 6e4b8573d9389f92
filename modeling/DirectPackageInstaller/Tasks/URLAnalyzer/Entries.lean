import DirectPackageInstaller.Lib.Table
import DirectPackageInstaller.Tasks.URLAnalyzer.Model

/-!
# The entries of the analysed lists

What every step keeps.  The arrays that are there stay, with their URLs and
with what was found out about them, and every result in an entry comes from
the URL of this entry, whichever call's iteration has stored it.

* `extends_effect`: no step loses an array or a result.
* `consistent_of_reachable`: the invariant of all runs.
-/

namespace DirectPackageInstaller.URLAnalyzer

open Transition

/-! ## What every step keeps -/

/-- The entry of the array is verified. -/
def State.Verified (s : State) (info i : Nat) : Prop :=
  ∃ e, (s.entries info)[i]? = some e ∧ e.verified = true

/-- The results in an entry come from its own URL. -/
structure URLInfoEntry.OfItsURL (network : Network) (e : URLInfoEntry) : Prop where
  stream : ∀ url, e.stream = some url → url = e.URL
  filename : ∀ name, e.filename = some name →
    ∃ head, network e.URL head = true ∧ head.filename = some name
  singleConnection : e.singleConnection = true →
    ∃ head, network e.URL head = true ∧ head.singleConnection = true

theorem store_URL (e : URLInfoEntry) (store : Store) : (e.store store).URL = e.URL := by
  cases store <;> rfl

theorem store_failed {e : URLInfoEntry} (store : Store) (h : e.failed = true) :
    (e.store store).failed = true := by
  cases store <;> first | exact h | rfl

theorem store_verified {e : URLInfoEntry} (store : Store) (h : e.verified = true) :
    (e.store store).verified = true := by
  cases store <;> first | exact h | rfl

theorem ofItsURL_store {network : Network} {e : URLInfoEntry} {store : Store}
    (h : e.OfItsURL network)
    (hhead : ∀ head, store = .head head → network e.URL head = true) :
    (e.store store).OfItsURL network := by
  cases store with
  | stream =>
    refine ⟨?_, h.filename, h.singleConnection⟩
    intro url hurl
    cases hurl
    rfl
  | head head =>
    have hanswer := hhead head rfl
    refine ⟨h.stream, fun name hname => ⟨head, hanswer, hname⟩, ?_⟩
    intro hsingle
    rcases Bool.or_eq_true _ _ ▸ hsingle with hold | hnew
    · exact h.singleConnection hold
    · exact ⟨head, hanswer, hnew⟩
  | verified => exact ⟨h.stream, h.filename, h.singleConnection⟩
  | failed => exact ⟨h.stream, h.filename, h.singleConnection⟩

theorem ofItsURL_new (network : Network) (url : String) :
    (URLInfoEntry.new url).OfItsURL network where
  stream := fun _ h => nomatch h
  filename := fun _ h => nomatch h
  singleConnection := fun h => nomatch h

/-- The arrays that are there stay, with their URLs and what is done of them. -/
structure Extends (s s' : State) : Prop where
  args : ∀ info, s.entries info ≠ [] → s'.args info = s.args info
  links : ∀ info, s.entries info ≠ [] → s'.links info = s.links info
  failed : ∀ info, s.Failed info → s'.Failed info
  verified : ∀ info i, s.Verified info i → s'.Verified info i

theorem Extends.stored {s s' : State} (h : Extends s s') {info : Nat}
    (hstored : s.entries info ≠ []) : s'.entries info ≠ [] := by
  intro hnil
  have hlinks := h.links info hstored
  unfold State.links at hlinks
  rw [hnil, List.map_nil, eq_comm, List.map_eq_nil_iff] at hlinks
  exact hstored hlinks

theorem Extends.length {s s' : State} (h : Extends s s') {info : Nat}
    (hstored : s.entries info ≠ []) :
    (s'.entries info).length = (s.entries info).length := by
  have hlinks := congrArg List.length (h.links info hstored)
  simpa [State.links] using hlinks

/-- A step that leaves arguments and arrays alone. -/
theorem extends_of_same {s s' : State} (hargs : s'.args = s.args)
    (hentries : s'.entries = s.entries) : Extends s s' := by
  constructor
  · intro info _
    rw [hargs]
  · intro info _
    unfold State.links
    rw [hentries]
  · intro info
    unfold State.Failed
    rw [hentries]
    exact id
  · intro info i
    unfold State.Verified
    rw [hentries]
    exact id

theorem extends_write (s : State) (info i : Nat) (store : Store) :
    Extends s (s.write info i store) := by
  refine ⟨fun _ _ => rfl, ?_, ?_, ?_⟩
  · intro j _
    unfold State.links
    by_cases hj : j = info
    · subst hj
      rw [State.entries_write_self, Table.map_modify (fun e => store_URL e store)]
    · rw [State.entries_write_of_ne hj]
  · intro j hfailed
    unfold State.Failed
    by_cases hj : j = info
    · subst hj
      rw [State.entries_write_self]
      exact Table.exists_mem_modify (fun e => store_failed store) hfailed
    · rw [State.entries_write_of_ne hj]
      exact hfailed
  · intro j n h
    obtain ⟨e, he, hverified⟩ := h
    unfold State.Verified
    by_cases hj : j = info
    · subst hj
      rw [State.entries_write_self]
      refine ⟨_, Table.getElem?_modify_some he, ?_⟩
      split
      · exact store_verified store hverified
      · exact hverified
    · rw [State.entries_write_of_ne hj]
      exact ⟨e, he, hverified⟩

/-- The array is there, for lists with this first URL. -/
def State.StoredFor (s : State) (info : Nat) (main : String) : Prop :=
  s.entries info ≠ [] ∧ (s.args info).main = main

/-- What holds in every state. -/
structure Consistent (network : Network) (s : State) : Prop where
  urlInfos : ∀ main info, s.urlInfos main = some info → s.StoredFor info main
  links : ∀ info, s.entries info ≠ [] → s.links info = (s.args info).urls
  pastStore : ∀ c, s.entries c ≠ [] → (s.phase c).pastStore = true
  holds : ∀ c info, (s.phase c).info = some info →
    s.StoredFor info (s.args c).main
  works : ∀ c i info, (s.iteration c i).info = some info →
    s.entries c ≠ [] ∧ s.StoredFor info (s.args c).main ∧
      i < (s.entries info).length
  results : ∀ info, ∀ e ∈ s.entries info, e.OfItsURL network

theorem consistent_init (network : Network) : Consistent network init where
  urlInfos := fun _ _ h => nomatch h
  links := fun _ h => absurd rfl h
  pastStore := fun _ h => absurd rfl h
  holds := fun _ _ h => nomatch h
  works := fun _ _ _ h => nomatch h
  results := fun _ _ h => nomatch h

section Step

variable {network : Network} {s s' : State} {l : Label}

theorem Consistent.ne_of_phase (hs : Consistent network s) {c info : Nat}
    (hc : (s.phase c).pastStore = false) (hstored : s.entries info ≠ []) :
    info ≠ c := by
  intro heq
  subst heq
  rw [hs.pastStore _ hstored] at hc
  cases hc

theorem extends_analyzed (hs : Consistent network s) {c : Nat} (args : Args)
    (hidle : s.phase c = .idle) : Extends s (s.analyzed c args) := by
  have hc : (s.phase c).pastStore = false := by rw [hidle]; rfl
  refine ⟨fun info hstored => ?_, fun _ _ => rfl, fun _ => id, fun _ _ => id⟩
  exact Function.update_of_ne (hs.ne_of_phase hc hstored) _ _

/-- The array of a call that has none yet is new. -/
theorem extends_stored (hs : Consistent network s) {c : Nat}
    (hphase : s.phase c = .missing) : Extends s (s.stored c) := by
  have hc : (s.phase c).pastStore = false := by rw [hphase]; rfl
  have hsame : ∀ info, s.entries info ≠ [] →
      (s.stored c).entries info = s.entries info := by
    intro info hstored
    exact State.entries_stored_of_ne (hs.ne_of_phase hc hstored)
  refine ⟨fun _ _ => rfl, ?_, ?_, ?_⟩
  · intro info hstored
    unfold State.links
    rw [hsame info hstored]
  · intro info h
    obtain ⟨e, he, hfailed⟩ := h
    unfold State.Failed
    rw [hsame info (List.ne_nil_of_mem he)]
    exact ⟨e, he, hfailed⟩
  · intro info i h
    obtain ⟨e, he, hverified⟩ := h
    unfold State.Verified
    rw [hsame info (List.ne_nil_of_mem (List.mem_of_getElem? he))]
    exact ⟨e, he, hverified⟩

theorem extends_effect (hs : Consistent network s) (h : Effect network s l s') :
    Extends s s' := by
  cases h with
  | analyze args hidle => exact extends_analyzed hs args hidle
  | go => exact extends_of_same rfl rfl
  | store hphase => exact extends_stored hs hphase
  | remove => exact extends_of_same rfl rfl
  | lookUp => exact extends_of_same rfl rfl
  | crash => exact extends_of_same rfl rfl
  | @work c i info event store iteration =>
    have hwrite := extends_write s info i store
    exact ⟨hwrite.args, hwrite.links, hwrite.failed, hwrite.verified⟩
  | @fail c i info =>
    have hwrite := extends_write s info i .failed
    exact ⟨hwrite.args, hwrite.links, hwrite.failed, hwrite.verified⟩

theorem Extends.storedFor (h : Extends s s') {info : Nat} {main : String}
    (hstored : s.StoredFor info main) : s'.StoredFor info main := by
  refine ⟨h.stored hstored.1, ?_⟩
  rw [h.args info hstored.1]
  exact hstored.2

/-- The invariant after a step needs to be shown for what is new only. -/
theorem Consistent.of_extends (hs : Consistent network s) (hext : Extends s s')
    (urlInfos : ∀ main info, s'.urlInfos main = some info →
      s.urlInfos main = some info ∨ s'.StoredFor info main)
    (links : ∀ info, s'.entries info ≠ [] →
      s.entries info ≠ [] ∨ s'.links info = (s'.args info).urls)
    (pastStore : ∀ c, s'.entries c ≠ [] →
      (s.entries c ≠ [] ∧ s'.phase c = s.phase c) ∨ (s'.phase c).pastStore = true)
    (holds : ∀ c info, (s'.phase c).info = some info →
      ((s.phase c).info = some info ∧ s'.args c = s.args c) ∨
        s'.StoredFor info (s'.args c).main)
    (works : ∀ c i info, (s'.iteration c i).info = some info →
      (s.iteration c i).info = some info ∨
        (s'.entries c ≠ [] ∧ s'.StoredFor info (s'.args c).main ∧
          i < (s'.entries info).length))
    (results : ∀ info, ∀ e ∈ s'.entries info,
      e ∈ s.entries info ∨ e.OfItsURL network) : Consistent network s' := by
  constructor
  · intro main info hinfo
    rcases urlInfos main info hinfo with hold | hnew
    · exact hext.storedFor (hs.urlInfos main info hold)
    · exact hnew
  · intro info hstored
    rcases links info hstored with hold | hnew
    · rw [hext.links info hold, hext.args info hold]
      exact hs.links info hold
    · exact hnew
  · intro c hstored
    rcases pastStore c hstored with ⟨hold, hphase⟩ | hnew
    · rw [hphase]
      exact hs.pastStore c hold
    · exact hnew
  · intro c info hinfo
    rcases holds c info hinfo with ⟨hold, hargs⟩ | hnew
    · rw [hargs]
      exact hext.storedFor (hs.holds c info hold)
    · exact hnew
  · intro c i info hinfo
    rcases works c i info hinfo with hold | hnew
    · obtain ⟨hc, hstored, hi⟩ := hs.works c i info hold
      rw [hext.args c hc, hext.length hstored.1]
      exact ⟨hext.stored hc, hext.storedFor hstored, hi⟩
    · exact hnew
  · intro info e he
    rcases results info e he with hold | hnew
    · exact hs.results info e hold
    · exact hnew

/-- The array that a call holds after a step of the same or another one. -/
theorem info_withPhase {c c' info : Nat} {phase : Phase}
    (h : ((s.withPhase c phase).phase c').info = some info) :
    (c' = c ∧ phase.info = some info) ∨ (s.phase c').info = some info := by
  by_cases hc : c' = c
  · subst hc
    rw [State.phase_withPhase_self] at h
    exact .inl ⟨rfl, h⟩
  · rw [State.phase_withPhase_of_ne hc] at h
    exact .inr h

/-- What an iteration works on after a step of the same or another one. -/
theorem info_withIteration {c i c' i' info : Nat} {iteration : Iteration}
    (h : ((s.withIteration c i iteration).iteration c' i').info = some info) :
    (c' = c ∧ i' = i ∧ iteration.info = some info) ∨
      (s.iteration c' i').info = some info := by
  rcases @State.iteration_withIteration s c c' i i' iteration with
    hsame | ⟨hc, hi, hnew⟩
  · exact .inr (hsame ▸ h)
  · exact .inl ⟨hc, hi, hnew ▸ h⟩

theorem ended_withIteration {c i c' i' : Nat} {iteration : Iteration}
    (h : (s.withIteration c i iteration).iteration c' i' = .ended) :
    (c' = c ∧ i' = i ∧ iteration = .ended) ∨ s.iteration c' i' = .ended := by
  rcases @State.iteration_withIteration s c c' i i' iteration with
    hsame | ⟨hc, hi, hnew⟩
  · exact .inr (hsame ▸ h)
  · exact .inl ⟨hc, hi, hnew ▸ h⟩

theorem entries_write_ne_nil {info info' i : Nat} {store : Store}
    (h : (s.write info i store).entries info' ≠ []) : s.entries info' ≠ [] := by
  intro hnil
  apply h
  by_cases hinfo : info' = info
  · subst hinfo
    rw [State.entries_write_self, hnil, List.modify_nil]
  · rw [State.entries_write_of_ne hinfo, hnil]

theorem results_write (hs : Consistent network s) {info i : Nat} {store : Store}
    (hhead : ∀ head, store = .head head →
      ∃ e ∈ (s.entries info)[i]?, network e.URL head = true) (info' : Nat) :
    ∀ e ∈ (s.write info i store).entries info',
      e ∈ s.entries info' ∨ e.OfItsURL network := by
  intro e he
  by_cases hinfo : info' = info
  · subst hinfo
    rw [State.entries_write_self] at he
    rcases Table.mem_modify he with hold | ⟨old, hold, rfl⟩
    · exact .inl hold
    · refine .inr (ofItsURL_store (hs.results _ old (List.mem_of_getElem? hold)) ?_)
      intro head hstore
      obtain ⟨e', he', hanswer⟩ := hhead head hstore
      rw [Option.mem_def, hold] at he'
      cases he'
      exact hanswer
  · rw [State.entries_write_of_ne hinfo] at he
    exact .inl he

theorem consistent_analyzed (hs : Consistent network s) {c : Nat} (args : Args)
    (hidle : s.phase c = .idle) : Consistent network (s.analyzed c args) := by
  have hc : (s.phase c).pastStore = false := by rw [hidle]; rfl
  refine hs.of_extends (extends_analyzed hs args hidle) (fun _ _ => .inl)
    (fun _ => .inl) ?_ ?_ (fun _ _ _ => .inl) (fun _ _ => .inl)
  · intro c' hstored
    exact .inl ⟨hstored, State.phase_withPhase_of_ne (hs.ne_of_phase hc hstored)⟩
  · intro c' info hinfo
    rcases info_withPhase hinfo with ⟨rfl, hnew⟩ | hold
    · cases hnew
    · refine .inl ⟨hold, Function.update_of_ne ?_ _ _⟩
      intro heq
      subst heq
      rw [hidle] at hold
      cases hold

theorem consistent_withPhase (hs : Consistent network s) {c : Nat} {phase : Phase}
    (hpast : (s.phase c).pastStore = true → phase.pastStore = true)
    (hinfo : ∀ info, phase.info = some info →
      s.current c = some info ∨ (s.phase c).info = some info) :
    Consistent network (s.withPhase c phase) := by
  refine hs.of_extends (extends_of_same rfl rfl) (fun _ _ => .inl) (fun _ => .inl)
    ?_ ?_ (fun _ _ _ => .inl) (fun _ _ => .inl)
  · intro c' hstored
    by_cases hc : c' = c
    · subst hc
      refine .inr ?_
      rw [State.phase_withPhase_self]
      exact hpast (hs.pastStore _ hstored)
    · exact .inl ⟨hstored, State.phase_withPhase_of_ne hc⟩
  · intro c' info hc'
    rcases info_withPhase hc' with ⟨rfl, hnew⟩ | hold
    · rcases hinfo info hnew with hcurrent | hold
      · exact .inr (hs.urlInfos _ info hcurrent)
      · exact .inl ⟨hold, rfl⟩
    · exact .inl ⟨hold, rfl⟩

theorem consistent_stored (hs : Consistent network s) {c : Nat}
    (hphase : s.phase c = .missing) : Consistent network (s.stored c) := by
  refine hs.of_extends (extends_stored hs hphase) ?_ ?_ ?_ ?_ (fun _ _ _ => .inl) ?_
  · intro main info hinfo
    by_cases hmain : main = (s.args c).main
    · subst hmain
      rw [State.urlInfos_stored_self] at hinfo
      cases hinfo
      refine .inr ⟨?_, rfl⟩
      rw [State.entries_stored_self]
      exact List.cons_ne_nil _ _
    · rw [State.urlInfos_stored_of_ne hmain] at hinfo
      exact .inl hinfo
  · intro info hstored
    by_cases hinfo : info = c
    · subst hinfo
      refine .inr ?_
      unfold State.links
      rw [State.entries_stored_self, List.map_map]
      exact List.map_id _
    · rw [State.entries_stored_of_ne hinfo] at hstored
      exact .inl hstored
  · intro c' hstored
    by_cases hc : c' = c
    · subst hc
      exact .inr (congrArg Phase.pastStore State.phase_withPhase_self)
    · rw [State.entries_stored_of_ne hc] at hstored
      exact .inl ⟨hstored, State.phase_withPhase_of_ne hc⟩
  · intro c' info hinfo
    rcases info_withPhase hinfo with ⟨-, hnew⟩ | hold
    · cases hnew
    · exact .inl ⟨hold, rfl⟩
  · intro info e he
    by_cases hinfo : info = c
    · subst hinfo
      rw [State.entries_stored_self] at he
      obtain ⟨url, -, rfl⟩ := List.mem_map.1 he
      exact .inr (ofItsURL_new network url)
    · rw [State.entries_stored_of_ne hinfo] at he
      exact .inl he

theorem consistent_removed (hs : Consistent network s) (c held : Nat) :
    Consistent network (s.removed c held) := by
  refine hs.of_extends (extends_of_same rfl rfl) ?_ (fun _ => .inl) ?_ ?_
    (fun _ _ _ => .inl) (fun _ _ => .inl)
  · intro main info hinfo
    by_cases hmain : main = (s.args held).main
    · subst hmain
      rw [State.urlInfos_removed_self] at hinfo
      cases hinfo
    · rw [State.urlInfos_removed_of_ne hmain] at hinfo
      exact .inl hinfo
  · intro c' hstored
    by_cases hc : c' = c
    · subst hc
      exact .inr (congrArg Phase.pastStore State.phase_withPhase_self)
    · exact .inl ⟨hstored, State.phase_withPhase_of_ne hc⟩
  · intro c' info hinfo
    rcases info_withPhase hinfo with ⟨-, hnew⟩ | hold
    · cases hnew
    · exact .inl ⟨hold, rfl⟩

theorem consistent_effect (hs : Consistent network s) (h : Effect network s l s') :
    Consistent network s' := by
  have hext := extends_effect hs h
  cases h with
  | analyze args hidle => exact consistent_analyzed hs args hidle
  | go hpast hinfo => exact consistent_withPhase hs hpast hinfo
  | store hphase => exact consistent_stored hs hphase
  | remove => exact consistent_removed hs _ _
  | @lookUp c i event iteration hstored hi hended hinfo =>
    refine hs.of_extends hext (fun _ _ => .inl) (fun _ => .inl)
      (fun _ h => .inl ⟨h, rfl⟩) (fun _ _ h => .inl ⟨h, rfl⟩) ?_ (fun _ _ => .inl)
    intro c' i' info hwork
    rcases info_withIteration hwork with ⟨rfl, rfl, hnew⟩ | hold
    · obtain ⟨hcurrent, hlt⟩ := hinfo info hnew
      exact .inr ⟨hstored, hs.urlInfos _ info hcurrent, hlt⟩
    · exact .inl hold
  | @crash c i =>
    refine hs.of_extends hext (fun _ _ => .inl) (fun _ => .inl)
      (fun _ h => .inl ⟨h, rfl⟩) (fun _ _ h => .inl ⟨h, rfl⟩) ?_ (fun _ _ => .inl)
    intro c' i' info hwork
    rcases info_withIteration hwork with ⟨-, -, hnew⟩ | hold
    · cases hnew
    · exact .inl hold
  | @work c i info event store iteration hwork hnext hhead =>
    refine hs.of_extends hext (fun _ _ => .inl) (fun _ h => .inl (entries_write_ne_nil h))
      (fun _ h => .inl ⟨entries_write_ne_nil h, rfl⟩) (fun _ _ h => .inl ⟨h, rfl⟩) ?_
      (results_write hs hhead)
    intro c' i' info' hinfo
    rcases info_withIteration hinfo with ⟨rfl, rfl, hnew⟩ | hold
    · rcases hnext with hsame | ⟨rfl, -⟩
      · rw [hsame] at hnew
        cases hnew
        exact .inl hwork
      · cases hnew
    · exact .inl hold
  | @fail c i info event hwork =>
    refine hs.of_extends hext (fun _ _ => .inl) (fun _ h => .inl (entries_write_ne_nil h))
      (fun _ h => .inl ⟨entries_write_ne_nil h, rfl⟩) (fun _ _ h => .inl ⟨h, rfl⟩) ?_
      (results_write hs (fun _ h => nomatch h))
    intro c' i' info' hinfo
    rcases info_withIteration hinfo with ⟨-, -, hnew⟩ | hold
    · cases hnew
    · exact .inl hold

end Step

theorem consistent_of_reachable {network : Network} {s : State}
    (h : (system network).Reachable s) : Consistent network s := by
  refine h.invariant (Consistent network) ?_ ?_
  · intro s hinit
    cases hinit
    exact consistent_init network
  · intro s l s' hs hstep
    exact consistent_effect hs (step_effect hstep)

end DirectPackageInstaller.URLAnalyzer
