import DirectPackageInstaller.Tasks.URLAnalyzer.Entries

/-!
# What a call of `Analyze` returns

* `kept_of_reachable`: as long as only failed entries are removed or replaced,
  an entry that has not failed stays under its first URL, and the iterations
  of the call that made it work on it.
* `analyze_describes`: the information that a call returns.
* `analyze_other_list`: a call that gets another list, and an iteration that
  works for another call.
-/

namespace DirectPackageInstaller.URLAnalyzer

open Transition

/-! ## Entries that stay until they fail -/

/-- An entry that the step removes or replaces has failed. -/
def TakesFailed (s : State) : Label → Prop
  | .call c .store => ∀ info, s.current c = some info → s.Failed info
  | .call c .remove => ∀ held info, s.phase c = .returned held →
    s.urlInfos (s.args held).main = some info → s.Failed info
  | _ => True

/-- What holds as long as only failed entries are removed or replaced. -/
structure Kept (s : State) : Prop where
  current : ∀ c, s.entries c ≠ [] → s.current c = some c ∨ s.Failed c
  loop : ∀ c, s.exceptional c = true ∨ s.lowestBreak c ≠ none → s.Failed c
  works : ∀ c i info, (s.iteration c i).info = some info → info = c ∨ s.Failed c
  ended : ∀ c i, s.iteration c i = .ended → s.Failed c ∨ s.Verified c i
  holds : ∀ c info, (s.phase c).info = some info → s.entries c ≠ [] →
    info = c ∨ s.Failed c

theorem kept_init : Kept init where
  current := fun _ h => absurd rfl h
  loop := by
    intro c h
    rcases h with h | h
    · cases h
    · exact absurd rfl h
  works := fun _ _ _ h => nomatch h
  ended := fun _ _ h => nomatch h
  holds := fun _ _ h => nomatch h

section Kept

variable {network : Network} {s s' : State} {l : Label}

theorem Kept.of_extends (hk : Kept s) (hext : Extends s s')
    (current : ∀ c, s'.entries c ≠ [] →
      (s.entries c ≠ [] ∧ s'.current c = s.current c) ∨
        s'.current c = some c ∨ s'.Failed c)
    (loop : ∀ c, s'.exceptional c = true ∨ s'.lowestBreak c ≠ none →
      (s.exceptional c = true ∨ s.lowestBreak c ≠ none) ∨ s'.Failed c)
    (works : ∀ c i info, (s'.iteration c i).info = some info →
      (s.iteration c i).info = some info ∨ info = c ∨ s'.Failed c)
    (ended : ∀ c i, s'.iteration c i = .ended →
      s.iteration c i = .ended ∨ s'.Failed c ∨ s'.Verified c i)
    (holds : ∀ c info, (s'.phase c).info = some info → s'.entries c ≠ [] →
      ((s.phase c).info = some info ∧ s.entries c ≠ []) ∨ info = c ∨ s'.Failed c) :
    Kept s' := by
  constructor
  · intro c hstored
    rcases current c hstored with ⟨hold, hcurrent⟩ | hnew
    · rw [hcurrent]
      exact (hk.current c hold).imp_right (hext.failed c)
    · exact hnew
  · intro c hloop
    rcases loop c hloop with hold | hnew
    · exact hext.failed c (hk.loop c hold)
    · exact hnew
  · intro c i info hinfo
    rcases works c i info hinfo with hold | hnew
    · exact (hk.works c i info hold).imp_right (hext.failed c)
    · exact hnew
  · intro c i hended
    rcases ended c i hended with hold | hnew
    · exact (hk.ended c i hold).imp (hext.failed c) (hext.verified c i)
    · exact hnew
  · intro c info hinfo hstored
    rcases holds c info hinfo hstored with ⟨hold, hc⟩ | hnew
    · exact (hk.holds c info hold hc).imp_right (hext.failed c)
    · exact hnew

/-- A lookup finds the call's own array, unless that has failed. -/
theorem Kept.of_current (hk : Kept s) {c info : Nat} (hstored : s.entries c ≠ [])
    (h : s.current c = some info) : info = c ∨ s.Failed c := by
  rcases hk.current c hstored with hcurrent | hfailed
  · rw [h] at hcurrent
    cases hcurrent
    exact .inl rfl
  · exact .inr hfailed

theorem Kept.failed_of_exit (hk : Kept s) {c i : Nat} (hstored : s.entries c ≠ [])
    (h : s.ShouldExit c i ∨ s.current c = none) : s.Failed c := by
  rcases h with (hexceptional | ⟨lowest, hlowest, -⟩) | hnone
  · exact hk.loop c (.inl hexceptional)
  · refine hk.loop c (.inr ?_)
    rw [Option.mem_def.1 hlowest]
    exact Option.some_ne_none _
  · rcases hk.current c hstored with hcurrent | hfailed
    · rw [hnone] at hcurrent
      cases hcurrent
    · exact hfailed

/-- An index that is not in the array is not one of the call's own array. -/
theorem Kept.failed_of_crash (hs : Consistent network s) (hk : Kept s) {c i : Nat}
    (hstored : s.entries c ≠ []) (hi : i < (s.args c).urls.length)
    (h : ∀ info, s.current c = some info → (s.entries info).length ≤ i) :
    s.Failed c := by
  rcases hk.current c hstored with hcurrent | hfailed
  · have hle := h c hcurrent
    have hlength := congrArg List.length (hs.links c hstored)
    unfold State.links at hlength
    rw [List.length_map] at hlength
    omega
  · exact hfailed

theorem entry_write {info i : Nat} (store : Store)
    (hi : i < (s.entries info).length) :
    ∃ e : URLInfoEntry,
      ((s.write info i store).entries info)[i]? = some (e.store store) := by
  refine ⟨(s.entries info)[i], ?_⟩
  rw [State.entries_write_self, Table.getElem?_modify_some (List.getElem?_eq_getElem hi),
    if_pos rfl]

theorem kept_analyzed (hs : Consistent network s) (hk : Kept s) {c : Nat} (args : Args)
    (hidle : s.phase c = .idle) : Kept (s.analyzed c args) := by
  have hpast : (s.phase c).pastStore = false := by rw [hidle]; rfl
  have hext := extends_analyzed hs args hidle
  refine hk.of_extends hext ?_ (fun _ => .inl) (fun _ _ _ => .inl) (fun _ _ => .inl) ?_
  · intro c' hstored
    refine .inl ⟨hstored, ?_⟩
    unfold State.current
    rw [hext.args c' hstored]
    rfl
  · intro c' info hinfo hstored
    rcases info_withPhase hinfo with ⟨-, hnew⟩ | hold
    · cases hnew
    · exact .inl ⟨hold, hstored⟩

theorem kept_withPhase (hk : Kept s) {c : Nat} {phase : Phase}
    (hinfo : ∀ info, phase.info = some info →
      s.current c = some info ∨ (s.phase c).info = some info) :
    Kept (s.withPhase c phase) := by
  refine hk.of_extends (extends_of_same rfl rfl) (fun _ h => .inl ⟨h, rfl⟩)
    (fun _ => .inl) (fun _ _ _ => .inl) (fun _ _ => .inl) ?_
  intro c' info hphase hstored
  rcases info_withPhase hphase with ⟨rfl, hnew⟩ | hold
  · rcases hinfo info hnew with hcurrent | hold
    · exact .inr (hk.of_current hstored hcurrent)
    · exact .inl ⟨hold, hstored⟩
  · exact .inl ⟨hold, hstored⟩

/-- The entry that a new one replaces has failed. -/
theorem kept_stored (hs : Consistent network s) (hk : Kept s) {c : Nat}
    (hphase : s.phase c = .missing)
    (htakes : ∀ info, s.current c = some info → s.Failed info) :
    Kept (s.stored c) := by
  have hext := extends_stored hs hphase
  refine hk.of_extends hext ?_ (fun _ => .inl) (fun _ _ _ => .inl) (fun _ _ => .inl) ?_
  · intro c' hstored
    by_cases hne : c' = c
    · subst hne
      exact .inr (.inl State.urlInfos_stored_self)
    · rw [State.entries_stored_of_ne hne] at hstored
      by_cases hmain : (s.args c').main = (s.args c).main
      · refine .inr (.inr (hext.failed c' ?_))
        rcases hk.current c' hstored with hcurrent | hfailed
        · rw [State.current, hmain] at hcurrent
          exact htakes c' hcurrent
        · exact hfailed
      · exact .inl ⟨hstored, State.urlInfos_stored_of_ne hmain⟩
  · intro c' info hinfo hstored
    rcases info_withPhase hinfo with ⟨-, hnew⟩ | hold
    · cases hnew
    · have hne : c' ≠ c := by
        intro heq
        subst heq
        rw [hphase] at hold
        cases hold
      rw [State.entries_stored_of_ne hne] at hstored
      exact .inl ⟨hold, hstored⟩

/-- The entry that is removed has failed. -/
theorem kept_removed (hk : Kept s) {c held : Nat}
    (htakes : ∀ info, s.urlInfos (s.args held).main = some info → s.Failed info) :
    Kept (s.removed c held) := by
  have hext : Extends s (s.removed c held) := extends_of_same rfl rfl
  refine hk.of_extends hext ?_ (fun _ => .inl) (fun _ _ _ => .inl) (fun _ _ => .inl) ?_
  · intro c' hstored
    by_cases hmain : (s.args c').main = (s.args held).main
    · refine .inr (.inr (hext.failed c' ?_))
      rcases hk.current c' hstored with hcurrent | hfailed
      · rw [State.current, hmain] at hcurrent
        exact htakes c' hcurrent
      · exact hfailed
    · exact .inl ⟨hstored, State.urlInfos_removed_of_ne hmain⟩
  · intro c' info hinfo hstored
    rcases info_withPhase hinfo with ⟨-, hnew⟩ | hold
    · cases hnew
    · exact .inl ⟨hold, hstored⟩

/-- An iteration that finds an entry of another call, or none, is one of a call
whose own entry has failed. -/
theorem kept_withIteration (hk : Kept s) {c i : Nat} {iteration : Iteration}
    (hstored : s.entries c ≠ [])
    (hended : iteration = .ended → s.ShouldExit c i ∨ s.current c = none)
    (hinfo : ∀ info, iteration.info = some info → s.current c = some info) :
    Kept (s.withIteration c i iteration) := by
  refine hk.of_extends (extends_of_same rfl rfl) (fun _ h => .inl ⟨h, rfl⟩)
    (fun _ => .inl) ?_ ?_ (fun _ _ h h' => .inl ⟨h, h'⟩)
  · intro c' i' info hwork
    rcases info_withIteration hwork with ⟨rfl, rfl, hnew⟩ | hold
    · exact .inr (hk.of_current hstored (hinfo info hnew))
    · exact .inl hold
  · intro c' i' hnow
    rcases ended_withIteration hnow with ⟨rfl, rfl, hnew⟩ | hold
    · exact .inr (.inl (hk.failed_of_exit hstored (hended hnew)))
    · exact .inl hold

theorem kept_crash (hk : Kept s) {c i : Nat} (hfailed : s.Failed c) :
    Kept (s.crash c i) := by
  refine hk.of_extends (extends_of_same rfl rfl) (fun _ h => .inl ⟨h, rfl⟩) ?_ ?_ ?_
    (fun _ _ h h' => .inl ⟨h, h'⟩)
  · intro c' hloop
    by_cases hne : c' = c
    · subst hne
      exact .inr hfailed
    · refine .inl (hloop.imp_left fun h => ?_)
      exact (Function.update_of_ne hne _ _).symm.trans h
  · intro c' i' info hwork
    rcases info_withIteration hwork with ⟨-, -, hnew⟩ | hold
    · cases hnew
    · exact .inl hold
  · intro c' i' hnow
    rcases ended_withIteration hnow with ⟨rfl, rfl, -⟩ | hold
    · exact .inr (.inl hfailed)
    · exact .inl hold

/-- An iteration ends well when it has verified its entry. -/
theorem kept_work (hs : Consistent network s) (hk : Kept s) {c i info : Nat}
    {store : Store} {iteration : Iteration}
    (hwork : (s.iteration c i).info = some info)
    (hnext : iteration.info = some info ∨ (iteration = .ended ∧ store = .verified)) :
    Kept ((s.write info i store).withIteration c i iteration) := by
  have hwrite := extends_write s info i store
  obtain ⟨-, -, hi⟩ := hs.works c i info hwork
  refine hk.of_extends ⟨hwrite.args, hwrite.links, hwrite.failed, hwrite.verified⟩
    (fun _ h => .inl ⟨entries_write_ne_nil h, rfl⟩) (fun _ => .inl) ?_ ?_
    (fun _ _ h h' => .inl ⟨h, entries_write_ne_nil h'⟩)
  · intro c' i' info' hinfo
    rcases info_withIteration hinfo with ⟨rfl, rfl, hnew⟩ | hold
    · rcases hnext with hsame | ⟨rfl, -⟩
      · rw [hsame] at hnew
        cases hnew
        exact .inl hwork
      · cases hnew
    · exact .inl hold
  · intro c' i' hnow
    rcases ended_withIteration hnow with ⟨rfl, rfl, hnew⟩ | hold
    · rcases hnext with hsame | ⟨-, rfl⟩
      · rw [hnew] at hsame
        cases hsame
      · rcases hk.works c' i' info hwork with rfl | hfailed
        · obtain ⟨e, he⟩ := entry_write .verified hi
          exact .inr (.inr ⟨_, he, rfl⟩)
        · exact .inr (.inl (hwrite.failed c' hfailed))
    · exact .inl hold

/-- A failure fails the entry of the call. -/
theorem kept_fail (hs : Consistent network s) (hk : Kept s) {c i info : Nat}
    (hwork : (s.iteration c i).info = some info) :
    Kept (((s.write info i .failed).breakAt c i).withIteration c i .ended) := by
  have hwrite := extends_write s info i .failed
  obtain ⟨-, -, hi⟩ := hs.works c i info hwork
  have hfailed : (s.write info i .failed).Failed c := by
    rcases hk.works c i info hwork with rfl | hfailed
    · obtain ⟨e, he⟩ := entry_write .failed hi
      exact ⟨_, List.mem_of_getElem? he, rfl⟩
    · exact hwrite.failed c hfailed
  refine hk.of_extends ⟨hwrite.args, hwrite.links, hwrite.failed, hwrite.verified⟩
    (fun _ h => .inl ⟨entries_write_ne_nil h, rfl⟩) ?_ ?_ ?_
    (fun _ _ h h' => .inl ⟨h, entries_write_ne_nil h'⟩)
  · intro c' hloop
    by_cases hne : c' = c
    · subst hne
      exact .inr hfailed
    · refine .inl (hloop.imp_right fun h => ?_)
      rwa [← Function.update_of_ne hne (_ : Option Nat) s.lowestBreak]
  · intro c' i' info' hinfo
    rcases info_withIteration hinfo with ⟨-, -, hnew⟩ | hold
    · cases hnew
    · exact .inl hold
  · intro c' i' hnow
    rcases ended_withIteration hnow with ⟨rfl, rfl, -⟩ | hold
    · exact .inr (.inl hfailed)
    · exact .inl hold

theorem kept_effect (hs : Consistent network s) (hk : Kept s)
    (hc : TakesFailed s l) (h : Effect network s l s') : Kept s' := by
  cases h with
  | analyze args hidle => exact kept_analyzed hs hk args hidle
  | go hpast hinfo => exact kept_withPhase hk hinfo
  | store hphase => exact kept_stored hs hk hphase hc
  | remove hphase hfailed => exact kept_removed hk (fun info => hc _ info hphase)
  | lookUp hstored hi hended hinfo =>
    exact kept_withIteration hk hstored hended (fun info h => (hinfo info h).1)
  | crash hstored hi hcrash =>
    exact kept_crash hk (hk.failed_of_crash hs hstored hi hcrash)
  | work hwork hnext hhead => exact kept_work hs hk hwork hnext
  | fail hwork => exact kept_fail hs hk hwork

end Kept

theorem kept_of_reachable {network : Network} {s : State}
    (h : (system network).ReachableWhere TakesFailed s) :
    Consistent network s ∧ Kept s := by
  refine h.invariant (fun s => Consistent network s ∧ Kept s) ?_ ?_
  · intro s hinit
    cases hinit
    exact ⟨consistent_init network, kept_init⟩
  · intro s l s' hs hc hstep
    have heffect := step_effect hstep
    exact ⟨consistent_effect hs.1 heffect, kept_effect hs.1 hs.2 hc heffect⟩

/-! ## What a call returns -/

def State.Returned (s : State) (c info : Nat) : Prop :=
  s.phase c = .returned info

theorem State.Returned.holds {s : State} {c info : Nat} (h : s.Returned c info) :
    (s.phase c).info = some info := by
  rw [h]
  rfl

/-- An array whose iterations have ended is ready or has failed. -/
theorem ready_or_failed {network : Network} {s : State} {info : Nat}
    (hs : Consistent network s) (hk : Kept s) (hstored : s.entries info ≠ [])
    (hended : s.WorkEnded info) : s.Ready info ∨ s.Failed info := by
  by_cases hfailed : s.Failed info
  · exact .inr hfailed
  · refine .inl fun e he => ?_
    obtain ⟨i, hi⟩ := List.mem_iff_getElem?.1 he
    have hlt := (List.getElem?_eq_some_iff.1 hi).1
    have hlength := congrArg List.length (hs.links info hstored)
    unfold State.links at hlength
    rw [List.length_map] at hlength
    have hend := hended i (by omega)
    obtain ⟨e', he', hverified⟩ := (hk.ended info i hend).resolve_left hfailed
    rw [hi] at he'
    cases he'
    exact hverified

/-- A call returns the array that is stored under the first URL of its list:
the URLs are those of the call that stored it, and what is known of a URL
comes from this URL.  As long as only failed entries are removed or replaced,
a call that stores an array gets and fills its own one until that has failed,
and an array is ready or has failed once the iterations of its call have
ended. -/
theorem analyze_describes (network : Network) (s : State) :
    ((system network).Reachable s → ∀ c info, s.Returned c info →
      (s.args info).main = (s.args c).main ∧
        s.links info = (s.args info).urls ∧
        ∀ e ∈ s.entries info, e.OfItsURL network) ∧
      ((system network).ReachableWhere TakesFailed s →
        (∀ c info, s.Returned c info → s.entries c ≠ [] → info = c ∨ s.Failed c) ∧
        (∀ c i info, (s.iteration c i).info = some info → info = c ∨ s.Failed c) ∧
        ∀ c info, s.Returned c info → s.WorkEnded info →
          s.Ready info ∨ s.Failed info) := by
  constructor
  · intro h c info hreturned
    have hs := consistent_of_reachable h
    obtain ⟨hstored, hmain⟩ := hs.holds c info hreturned.holds
    exact ⟨hmain, hs.links info hstored, hs.results info⟩
  · intro h
    obtain ⟨hs, hk⟩ := kept_of_reachable h
    refine ⟨fun c info hreturned => hk.holds c info hreturned.holds, hk.works, ?_⟩
    intro c info hreturned hended
    exact ready_or_failed hs hk (hs.holds c info hreturned.holds).1 hended

/-- A list of two URLs whose servers answer, and a call with the first one alone that
gets its array. -/
def twoCalls : List Label :=
  [.analyze 0 ⟨"u", ["v"], false⟩, .call 0 .containsKey, .call 0 .store,
    .call 0 .finish, .analyze 1 ⟨"u", [], false⟩, .call 1 .containsKey, .call 1 .lookup,
    .call 1 .poll, .iterate 0 0 .check, .iterate 0 0 .find, .iterate 0 0 .openStream,
    .iterate 0 0 (.readHead ⟨some "u.pkg", false⟩), .iterate 0 0 .verify,
    .iterate 0 1 .check, .iterate 0 1 .find, .iterate 0 1 .openStream,
    .iterate 0 1 (.readHead ⟨some "v.pkg", false⟩), .iterate 0 1 .verify]

theorem takesFailed_twoCalls :
    (system fun _ _ => true).StepsMeet TakesFailed init twoCalls := by
  unfold twoCalls
  iterate 2 refine (System.stepsMeet_cons rfl).2 ⟨trivial, ?_⟩
  -- nothing is stored under the URL yet
  refine (System.stepsMeet_cons rfl).2 ⟨(fun info h => nomatch h), ?_⟩
  iterate 15 refine (System.stepsMeet_cons rfl).2 ⟨trivial, ?_⟩
  trivial

theorem analyze_describes_twoCalls :
    ∃ s, (system fun _ _ => true).run init twoCalls = some s ∧ s.Returned 1 0 ∧
      (s.args 0).main = (s.args 1).main ∧ s.links 0 = ["u", "v"] ∧
      (s.Ready 0 ∨ s.Failed 0) := by
  have hinit : (system fun _ _ => true).ReachableWhere TakesFailed init :=
    System.ReachableWhere.init rfl
  have hstart : (system fun _ _ => true).Reachable init := System.Reachable.init rfl
  obtain ⟨s, hrun⟩ : ∃ s, (system fun _ _ => true).run init twoCalls = some s := ⟨_, rfl⟩
  have hreachable := System.reachable_of_run hstart hrun
  have hwhere := System.reachableWhere_of_run hinit hrun takesFailed_twoCalls
  have hdescribes := (analyze_describes _ _).1 hreachable 1 0
  have hready := ((analyze_describes _ _).2 hwhere).2.2 1 0
  cases hrun
  obtain ⟨hmain, hlinks, -⟩ := hdescribes rfl
  exact ⟨_, rfl, rfl, hmain, hlinks, hready rfl (by decide)⟩

/-- A call with another list gets the first one, and an iteration of the first
call works for a later one after the entry has failed and was removed. -/
def otherLists : List Label :=
  [.analyze 0 ⟨"u", ["v", "w"], false⟩, .call 0 .containsKey, .call 0 .store,
    .call 0 .finish, .analyze 1 ⟨"u", ["x"], false⟩, .call 1 .containsKey,
    .call 1 .lookup, .call 1 .poll, .iterate 0 2 .check, .iterate 0 2 .find,
    .iterate 0 2 .openStream, .iterate 0 2 .fail, .analyze 2 ⟨"u", [], false⟩,
    .call 2 .containsKey, .call 2 .lookup, .call 2 .poll, .call 2 .remove,
    .analyze 3 ⟨"u", ["y"], false⟩, .call 3 .containsKey, .call 3 .store,
    .iterate 0 1 .check, .iterate 0 1 .find, .iterate 0 1 .openStream,
    .iterate 0 1 (.readHead ⟨none, false⟩), .iterate 0 1 .verify]

theorem analyze_other_list :
    ∃ s, (system fun _ _ => true).run init otherLists = some s ∧
      s.Returned 1 0 ∧ s.links 0 = ["u", "v", "w"] ∧ (s.args 1).urls = ["u", "x"] ∧
      s.Verified 3 1 ∧ ∀ i, s.iteration 3 i = .waiting := by
  refine ⟨_, rfl, rfl, rfl, rfl, ⟨_, rfl, rfl⟩, fun i => rfl⟩

end DirectPackageInstaller.URLAnalyzer
