import DirectPackageInstaller.Lib.Transition
import Mathlib.Data.List.Nodup
import Mathlib.Data.List.Zip

/-!
# The single view

Where there is only one window, views are called and returned on a stack.  `CallView`
pushes a view with a task that its caller awaits, `ReturnView` drops views down to the
one that returns and completes their tasks.  A caller that goes on may call or return
other views before the loop that completed its task drops the next one.

* `tasks_of_reachable`: each task is on the stack or completed, once.
* `shown_iff`: what is on the screen is the top of the stack exactly if no popup comes
  up again in front of another view than the main one.
-/

namespace DirectPackageInstaller.SingleView

open Transition

variable {α : Type} [DecidableEq α]

/-! ## The code -/

/-- `LifetimeView`, with the tops of its stacks first.  A task is the number of the call
that made it; `calls` counts them, and `completed` lists those with a result.
`returning` are the loops of `ReturnView` in progress, the innermost first. -/
structure Shell (α : Type) where
  main : α
  viewStack : List α
  awaitStack : List Nat
  popupStack : List Bool
  popupVisible : Bool
  popupContent : Option α
  content : Option α
  returning : List α
  calls : Nat
  completed : List Nat
deriving DecidableEq, Repr

/-- After the call in `OnInitialized`. -/
def Shell.start (main : α) : Shell α :=
  ⟨main, [main], [0], [false], false, none, some main, [], 1, []⟩

/-- `CallView`. -/
def callView (s : Shell α) (view : α) (popup : Bool) : Shell α :=
  let s := { s with
    awaitStack := s.calls :: s.awaitStack, popupStack := popup :: s.popupStack,
    viewStack := view :: s.viewStack, calls := s.calls + 1, popupVisible := popup }
  if popup then { s with popupContent := some view } else { s with content := some view }

/-- The view that the loop over `ElementAt(i)`, from the last index down, puts behind a
popup. -/
def background (views : List α) (popups : List Bool) : Option α :=
  ((views.zip popups).reverse.find? fun frame => !frame.2).map Prod.fst

/-- `ReturnView`, up to its loop. -/
def returnView (s : Shell α) (view : α) : Shell α :=
  if view ∈ s.viewStack then { s with returning := view :: s.returning } else s

/-- What is shown when `next` comes to the top. -/
def showNext (s : Shell α) (next : α) (popup : Bool) : Shell α :=
  if popup then
    { s with popupVisible := true, popupContent := some next
             content := (background s.viewStack s.popupStack).or s.content }
  else { s with popupVisible := false, content := some next }

/-- One turn of the loop for `view`; `none` where a stack is empty. -/
def dropView (s : Shell α) (view : α) (loops : List α) : Option (Shell α) :=
  if s.viewStack.length ≤ 1 then some { s with content := some s.main, returning := loops }
  else
    match s.viewStack, s.popupStack, s.awaitStack with
    | dropped :: next :: views, _ :: popup :: popups, completation :: awaits =>
      some { showNext { s with
          viewStack := next :: views, popupStack := popup :: popups, awaitStack := awaits }
          next popup with
        returning := if dropped = view then loops else view :: loops
        completed := completation :: s.completed }
    | _, _, _ => none

inductive Label (α : Type) where
  | call (view : α) (popup : Bool)
  | returnView (view : α)
  /-- The innermost loop goes on. -/
  | drop
deriving DecidableEq, Repr

def step (s : Shell α) : Label α → Option (Shell α)
  | .call view popup => some (callView s view popup)
  | .returnView view => some (SingleView.returnView s view)
  | .drop =>
    match s.returning with
    | [] => none
    | view :: loops => dropView s view loops

def system (main : α) : System (Shell α) (Label α) where
  init := (· = .start main)
  step := step

/-! ## The stacks -/

omit [DecidableEq α] in
theorem showNext_stacks (s : Shell α) (next : α) (popup : Bool) :
    (showNext s next popup).main = s.main ∧ (showNext s next popup).viewStack = s.viewStack ∧
      (showNext s next popup).popupStack = s.popupStack ∧
      (showNext s next popup).awaitStack = s.awaitStack ∧
      (showNext s next popup).calls = s.calls := by
  unfold showNext
  split <;> exact ⟨rfl, rfl, rfl, rfl, rfl⟩

/-- The three stacks are as high, the main view is at the bottom, and every task is on
the stack or completed. -/
structure Stacked (main : α) (s : Shell α) : Prop where
  main_eq : s.main = main
  popups : s.popupStack.length = s.viewStack.length
  awaits : s.awaitStack.length = s.viewStack.length
  bottom : s.viewStack.getLast? = some main
  bottom_full : s.popupStack.getLast? = some false
  bottom_await : s.awaitStack.getLast? = some 0
  descending : s.awaitStack.Pairwise (· > ·)
  once : s.completed.Nodup
  tasks : ∀ t, t < s.calls ↔ t ∈ s.awaitStack ∨ t ∈ s.completed
  apart : ∀ t ∈ s.completed, t ∉ s.awaitStack

/-- A turn of the loop that drops a view. -/
theorem dropView_cases {s s' : Shell α} {view : α} {loops : List α}
    (h : dropView s view loops = some s') :
    s.viewStack.length ≤ 1 ∧ s' = { s with content := some s.main, returning := loops } ∨
      ∃ dropped next views full popup popups completation awaits,
        s.viewStack = dropped :: next :: views ∧ s.popupStack = full :: popup :: popups ∧
        s.awaitStack = completation :: awaits ∧
        s' = { showNext { s with
            viewStack := next :: views, popupStack := popup :: popups, awaitStack := awaits }
            next popup with
          returning := if dropped = view then loops else view :: loops
          completed := completation :: s.completed } := by
  unfold dropView at h
  split at h
  · cases h
    exact Or.inl ⟨‹_›, rfl⟩
  · right
    split at h
    · rename_i dropped next views full popup popups completation awaits hviews hpopups hawaits
      cases h
      exact ⟨dropped, next, views, full, popup, popups, completation, awaits, hviews, hpopups,
        hawaits, rfl⟩
    · cases h

theorem stacked_step {main : α} {s s' : Shell α} {l : Label α} (h : Stacked main s)
    (hstep : step s l = some s') : Stacked main s' := by
  cases l with
  | call view popup =>
    cases hstep
    have hfresh : ∀ t ∈ s.awaitStack, t < s.calls := fun t ht => (h.tasks t).2 (Or.inl ht)
    have hbottom : (view :: s.viewStack).getLast? = some main := by
      rw [List.getLast?_cons, h.bottom]
      rfl
    have hfull : (popup :: s.popupStack).getLast? = some false := by
      rw [List.getLast?_cons, h.bottom_full]
      rfl
    have hfirst : (s.calls :: s.awaitStack).getLast? = some 0 := by
      rw [List.getLast?_cons, h.bottom_await]
      rfl
    have htasks : ∀ t, t < s.calls + 1 ↔ t ∈ s.calls :: s.awaitStack ∨ t ∈ s.completed := by
      intro t
      rw [List.mem_cons, or_assoc, ← h.tasks t]
      omega
    have hapart : ∀ t ∈ s.completed, t ∉ s.calls :: s.awaitStack := by
      intro t ht hin
      have hlt := (h.tasks t).2 (Or.inr ht)
      rcases List.mem_cons.1 hin with heq | hin
      · omega
      · exact h.apart t ht hin
    have hdescending : (s.calls :: s.awaitStack).Pairwise (· > ·) :=
      List.pairwise_cons.2 ⟨hfresh, h.descending⟩
    unfold callView
    dsimp only
    split
    · exact ⟨h.main_eq, by simp [h.popups], by simp [h.awaits], hbottom, hfull, hfirst,
        hdescending, h.once, htasks, hapart⟩
    · exact ⟨h.main_eq, by simp [h.popups], by simp [h.awaits], hbottom, hfull, hfirst,
        hdescending, h.once, htasks, hapart⟩
  | returnView view =>
    cases hstep
    unfold returnView
    split
    · exact ⟨h.main_eq, h.popups, h.awaits, h.bottom, h.bottom_full, h.bottom_await,
          h.descending, h.once, h.tasks,
        h.apart⟩
    · exact h
  | drop =>
    unfold step at hstep
    dsimp only at hstep
    split at hstep
    · cases hstep
    · rcases dropView_cases hstep with ⟨-, rfl⟩ | ⟨dropped, next, views, full, popup, popups,
        completation, awaits, hviews, hpopups, hawaits, rfl⟩
      · exact ⟨h.main_eq, h.popups, h.awaits, h.bottom, h.bottom_full, h.bottom_await,
          h.descending, h.once, h.tasks,
          h.apart⟩
      · obtain ⟨hmain, hviewStack, hpopupStack, hawaitStack, hcalls⟩ := showNext_stacks { s with
          viewStack := next :: views, popupStack := popup :: popups, awaitStack := awaits }
          next popup
        have hheight := h.popups
        have hawaited := h.awaits
        have hbottom := h.bottom
        have hfull := h.bottom_full
        have hfirst := h.bottom_await
        have hdescending := h.descending
        have htasks := h.tasks
        have hapart := h.apart
        rw [hviews] at hheight hawaited hbottom
        rw [hpopups] at hheight hfull
        rw [hawaits] at hawaited hdescending hfirst
        simp only [hawaits] at htasks hapart
        rw [List.getLast?_cons_cons] at hbottom hfull
        simp only [List.length_cons, Nat.add_right_cancel_iff] at hheight hawaited
        obtain ⟨hnewest, hdescending⟩ := List.pairwise_cons.1 hdescending
        have hrest : awaits ≠ [] := by
          intro hnil
          simp [hnil] at hawaited
        rw [List.getLast?_cons, List.getLast?_eq_some_getLast hrest] at hfirst
        refine ⟨hmain.trans h.main_eq, ?_, ?_, ?_, ?_, ?_, ?_, ?_, ?_, ?_⟩
        · simp [hviewStack, hpopupStack, hheight]
        · simp [hviewStack, hawaitStack, hawaited]
        · exact (congrArg List.getLast? hviewStack).trans hbottom
        · exact (congrArg List.getLast? hpopupStack).trans hfull
        · apply (congrArg List.getLast? hawaitStack).trans
          rw [List.getLast?_eq_some_getLast hrest]
          exact hfirst
        · show (showNext _ next popup).awaitStack.Pairwise (· > ·)
          rw [hawaitStack]
          exact hdescending
        · refine List.nodup_cons.2 ⟨fun hin => ?_, h.once⟩
          exact hapart completation hin List.mem_cons_self
        · intro t
          show t < (showNext _ next popup).calls ↔
            t ∈ (showNext _ next popup).awaitStack ∨ t ∈ completation :: s.completed
          rw [hcalls, hawaitStack, List.mem_cons]
          have := htasks t
          rw [List.mem_cons] at this
          tauto
        · intro t ht
          show t ∉ (showNext _ next popup).awaitStack
          rw [hawaitStack]
          rcases List.mem_cons.1 ht with rfl | ht
          · exact fun hin => absurd (hnewest t hin) (Nat.lt_irrefl t)
          · exact fun hin => hapart t ht (List.mem_cons_of_mem _ hin)

theorem stacked_of_reachable {main : α} {s : Shell α} (h : (system main).Reachable s) :
    Stacked main s := by
  refine h.invariant (Stacked main) ?_ ?_
  · intro s hs
    subst hs
    exact ⟨rfl, rfl, rfl, rfl, rfl, rfl, by simp [Shell.start], List.nodup_nil,
      by simp [Shell.start], by simp [Shell.start]⟩
  · exact fun s l s' hs hstep => stacked_step hs hstep

/-- In every reachable state the tasks that are completed are those that are not on the
stack, each once.  The tasks on the stack are in the order of their calls, that of the
main view is never completed, and a loop never finds a stack empty. -/
theorem tasks_of_reachable {main : α} {s : Shell α} (h : (system main).Reachable s) :
    (∀ t, t ∈ s.completed ↔ t < s.calls ∧ t ∉ s.awaitStack) ∧ s.completed.Nodup ∧
      s.awaitStack.Pairwise (· > ·) ∧ 0 ∈ s.awaitStack ∧
      s.awaitStack.length = s.viewStack.length ∧
      (s.returning ≠ [] → (step s .drop).isSome = true) := by
  have hs := stacked_of_reachable h
  refine ⟨fun t => ?_, hs.once, hs.descending, List.mem_of_getLast? hs.bottom_await, hs.awaits,
    fun hloop => ?_⟩
  · have htask := hs.tasks t
    have hapart := hs.apart t
    tauto
  · obtain ⟨view, loops, hreturning⟩ := List.exists_cons_of_ne_nil hloop
    have hpopups := hs.popups
    have hawaits := hs.awaits
    unfold step dropView
    rw [hreturning]
    dsimp only
    split
    · rfl
    · rename_i hheight
      match hv : s.viewStack, hp : s.popupStack, ha : s.awaitStack with
      | [], _, _ => simp [hv] at hheight
      | [_], _, _ => simp [hv] at hheight
      | _ :: _ :: _, [], _ => simp [hv, hp] at hpopups
      | _ :: _ :: _, [_], _ => simp [hv, hp] at hpopups
      | _ :: _ :: _, _ :: _ :: _, [] => simp [hv, ha] at hawaits
      | _ :: _ :: _, _ :: _ :: _, _ :: _ => rfl

/-- A popup that has returned. -/
def returned : Shell Nat :=
  ((system 0).run (.start 0) [.call 1 true, .returnView 1, .drop]).get (by decide)

theorem tasks_of_reachable_returned :
    (∀ t, t ∈ returned.completed ↔ t < returned.calls ∧ t ∉ returned.awaitStack) ∧
      returned.completed.Nodup ∧ returned.awaitStack.Pairwise (· > ·) ∧
      0 ∈ returned.awaitStack ∧ returned.awaitStack.length = returned.viewStack.length ∧
      (returned.returning ≠ [] → (step returned .drop).isSome = true) :=
  tasks_of_reachable (System.reachable_of_run (.init rfl) (Option.some_get _).symm)

/-! ## What is shown -/

/-- The view in the window: the topmost one that is no popup. -/
def topFull (views : List α) (popups : List Bool) : Option α :=
  ((views.zip popups).find? fun frame => !frame.2).map Prod.fst

/-- The window shows the topmost full view, and in front of it the top one if that is a
popup. -/
structure Shown (s : Shell α) : Prop where
  visible : s.popupVisible = s.popupStack.headD false
  popup : s.popupVisible = true → s.popupContent = s.viewStack.head?
  content : s.content = topFull s.viewStack s.popupStack

/-- A popup that comes up again does so in front of the main view. -/
def Right (s : Shell α) : Label α → Prop
  | .drop =>
    s.returning ≠ [] → s.popupStack.tail.head? = some true →
      topFull s.viewStack.tail s.popupStack.tail = some s.main
  | _ => True

omit [DecidableEq α] in
/-- The loop puts the main view behind a popup, whatever is in between. -/
theorem background_eq {main : α} {views : List α} {popups : List Bool}
    (hheight : popups.length = views.length) (hbottom : views.getLast? = some main)
    (hfull : popups.getLast? = some false) : background views popups = some main := by
  have hlast : (views.zip popups).reverse.head? = some (main, false) := by
    rw [List.getLast?_eq_getElem?] at hbottom hfull
    rw [List.head?_reverse, List.getLast?_eq_getElem?, List.length_zip, hheight, Nat.min_self,
      List.getElem?_zip_eq_some]
    rw [hheight] at hfull
    exact ⟨hbottom, hfull⟩
  obtain ⟨rest, hrest⟩ := List.head?_eq_some_iff.1 hlast
  rw [background, hrest, List.find?_cons_of_pos (by rfl)]
  rfl

omit [DecidableEq α] in
theorem topFull_full (view : α) (views : List α) (popups : List Bool) :
    topFull (view :: views) (false :: popups) = some view := rfl

theorem eq_singleton {β : Type} {b : β} {l : List β} (hlength : l.length ≤ 1)
    (hlast : l.getLast? = some b) : l = [b] := by
  match l with
  | [] => simp at hlast
  | [c] =>
    simp at hlast
    rw [hlast]
  | _ :: _ :: _ => simp at hlength

/-- One step keeps the screen right exactly if it is. -/
theorem shown_step {main : α} {s s' : Shell α} {l : Label α} (h : Stacked main s) (hs : Shown s)
    (hstep : step s l = some s') : Shown s' ↔ Right s l := by
  cases l with
  | call view popup =>
    cases hstep
    refine iff_of_true ?_ trivial
    cases popup with
    | true => exact ⟨rfl, fun _ => rfl, hs.content⟩
    | false => exact ⟨rfl, (fun hpopup => by cases hpopup), rfl⟩
  | returnView view =>
    cases hstep
    refine iff_of_true ?_ trivial
    unfold returnView
    split
    · exact ⟨hs.visible, hs.popup, hs.content⟩
    · exact hs
  | drop =>
    unfold step at hstep
    dsimp only at hstep
    split at hstep
    · cases hstep
    · rename_i view loops hreturning
      rcases dropView_cases hstep with ⟨hheight, rfl⟩ | ⟨dropped, next, views, full, popup, popups,
        completation, awaits, hviews, hpopups, hawaits, rfl⟩
      · -- Only the main view is left.
        have hviews := eq_singleton hheight h.bottom
        have hpopups := eq_singleton (h.popups.trans_le hheight) h.bottom_full
        refine iff_of_true ⟨hs.visible, hs.popup, ?_⟩ ?_
        · show some s.main = topFull s.viewStack s.popupStack
          rw [hviews, hpopups, topFull_full, h.main_eq]
        · intro _ hpopup
          simp [hpopups] at hpopup
      · have hheight := h.popups
        have hbottom := h.bottom
        have hfull := h.bottom_full
        rw [hviews] at hheight hbottom
        rw [hpopups] at hheight hfull
        rw [List.getLast?_cons_cons] at hbottom hfull
        have hbackground : background (next :: views) (popup :: popups) = some main :=
          background_eq (by simpa using hheight) hbottom hfull
        unfold Right
        rw [hviews, hpopups, hreturning, h.main_eq]
        cases popup with
        | false =>
          refine iff_of_true ⟨rfl, (fun hpopup => by cases hpopup), rfl⟩ fun _ hpopup => ?_
          simp at hpopup
        | true =>
          constructor
          · intro hshown _ _
            have hcontent := hshown.content
            change (background (next :: views) (true :: popups)).or s.content =
              topFull (next :: views) (true :: popups) at hcontent
            rw [hbackground] at hcontent
            exact hcontent.symm
          · intro hright
            refine ⟨rfl, fun _ => rfl, ?_⟩
            show (background (next :: views) (true :: popups)).or s.content = _
            rw [hbackground]
            exact (hright (by simp) rfl).symm

/-- What is on the screen is the top of the stacks all the time exactly if no popup
comes up again in front of another view than the main one. -/
theorem shown_iff {main : α} {s : Shell α} {ls : List (Label α)}
    (hrun : (system main).run (.start main) ls = some s) :
    (system main).Along Shown (.start main) ls ↔
      (system main).StepsMeet Right (.start main) ls := by
  apply System.along_of_step (Stacked main) Shown Right _ _ _ _ hrun
  · exact fun s l s' hs hstep => stacked_step hs hstep
  · exact fun s l s' hstacked hs hstep => shown_step hstacked hs hstep
  · exact stacked_of_reachable (.init rfl)
  · exact ⟨rfl, (fun hpopup => by cases hpopup), rfl⟩

/-- A full view, a popup in front of it, and a message that returns to the popup. -/
def messageOverPopup : List (Label Nat) :=
  [.call 1 false, .call 2 true, .call 3 true, .returnView 3, .drop]

theorem shown_iff_messageOverPopup :
    (system 0).Along Shown (.start 0) messageOverPopup ↔
      (system 0).StepsMeet Right (.start 0) messageOverPopup :=
  shown_iff (s := _) rfl

end DirectPackageInstaller.SingleView
