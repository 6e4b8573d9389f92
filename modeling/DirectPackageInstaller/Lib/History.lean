import Mathlib.Data.List.Chain
import Mathlib.Tactic.Common

/-!
# A browsing history

The place where somebody is, with the places behind and ahead of it.  A visit to
another place drops those ahead; going back or forward drops nothing.

* `timeline_goBack` and `timeline_goForward`: all places stay in their order.
* `Moving`: no place is listed twice in a row.  Every operation keeps it, and it
  tells the places at the tops from the current one.
* `All`: what all places have in common.
-/

/-- The nearest places come first, on both sides. -/
structure History (α : Type*) where
  back : List α
  current : α
  forward : List α
deriving DecidableEq, Repr

namespace History

variable {α : Type*} {h : History α} {a : α}

/-- The history with which the first visit begins. -/
def start (a : α) : History α := ⟨[], a, []⟩

/-- A visit to the place where one is changes nothing. -/
def visit [DecidableEq α] (h : History α) (a : α) : History α :=
  if a = h.current then h else ⟨h.current :: h.back, a, []⟩

def goBack (h : History α) : History α :=
  match h.back with
  | [] => h
  | a :: back => ⟨back, a, h.current :: h.forward⟩

def goForward (h : History α) : History α :=
  match h.forward with
  | [] => h
  | a :: forward => ⟨h.current :: h.back, a, forward⟩

/-- All places, from the first to the last. -/
def timeline (h : History α) : List α :=
  h.back.reverse ++ h.current :: h.forward

/-- No place twice in a row. -/
def Moving (h : History α) : Prop :=
  h.timeline.IsChain (· ≠ ·)

theorem timeline_goBack (h : History α) : h.goBack.timeline = h.timeline := by
  unfold goBack
  split
  · rfl
  · rename_i hback
    simp [timeline, hback]

theorem timeline_goForward (h : History α) : h.goForward.timeline = h.timeline := by
  unfold goForward
  split
  · rfl
  · rename_i hforward
    simp [timeline, hforward]

/-! ## Places in a row -/

theorem moving_start (a : α) : (start a).Moving :=
  List.isChain_singleton a

theorem Moving.goBack (hm : h.Moving) : h.goBack.Moving := by
  rw [Moving, timeline_goBack]
  exact hm

theorem Moving.goForward (hm : h.Moving) : h.goForward.Moving := by
  rw [Moving, timeline_goForward]
  exact hm

theorem Moving.visit [DecidableEq α] (hm : h.Moving) (a : α) : (h.visit a).Moving := by
  unfold History.visit
  split
  · exact hm
  · rename_i hne
    have hsplit : h.timeline = (h.back.reverse ++ [h.current]) ++ h.forward := by
      simp [timeline]
    rw [Moving, hsplit] at hm
    have hfront := (List.isChain_append.1 hm).1
    show ((h.current :: h.back).reverse ++ [a]).IsChain (· ≠ ·)
    rw [List.reverse_cons, List.isChain_append]
    refine ⟨hfront, List.isChain_singleton a, fun x hx y hy => ?_⟩
    simp at hx hy
    rw [← hx, ← hy]
    exact Ne.symm hne

/-- The place to which one goes back is another one. -/
theorem Moving.ne_back (hm : h.Moving) (ha : h.back.head? = some a) : a ≠ h.current := by
  rw [Moving, timeline, List.isChain_append] at hm
  apply hm.2.2 a _ h.current (by simp)
  rw [List.getLast?_reverse, ha]
  rfl

/-- The place to which one goes forward is another one. -/
theorem Moving.ne_forward (hm : h.Moving) (ha : h.forward.head? = some a) : a ≠ h.current := by
  rw [Moving, timeline, List.isChain_append] at hm
  cases hforward : h.forward with
  | nil =>
    rw [hforward] at ha
    cases ha
  | cons b forward =>
    rw [hforward] at ha hm
    simp at ha
    rw [← ha]
    exact Ne.symm (List.isChain_cons_cons.1 hm.2.1).1

/-! ## A property of the places -/

/-- All places have a property. -/
def All (P : α → Prop) (h : History α) : Prop :=
  ∀ a ∈ h.timeline, P a

variable {P : α → Prop}

theorem All.goBack (hp : h.All P) : h.goBack.All P := by
  rw [All, timeline_goBack]
  exact hp

theorem All.goForward (hp : h.All P) : h.goForward.All P := by
  rw [All, timeline_goForward]
  exact hp

theorem All.visit [DecidableEq α] (hp : h.All P) (ha : P a) : (h.visit a).All P := by
  unfold History.visit
  split
  · exact hp
  · intro b hb
    simp [timeline] at hb
    rcases hb with hb | rfl | rfl
    · exact hp b (by simp [timeline, hb])
    · exact hp h.current (by simp [timeline])
    · exact ha

theorem All.back (hp : h.All P) (ha : a ∈ h.back) : P a :=
  hp a (by simp [timeline, ha])

theorem All.forward (hp : h.All P) (ha : a ∈ h.forward) : P a :=
  hp a (by simp [timeline, ha])

end History
