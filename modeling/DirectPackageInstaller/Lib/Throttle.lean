import Mathlib.Data.List.Pairwise
import Mathlib.Tactic.Common

/-!
# Events that are let through at intervals

A throttle lets an event through when it is urgent or when the last one that it
let through is at least an interval ago.  `last` is the time of that one.

* `urgent_mem`: urgent events always come through.
* `throttle_spaced`: any other event that comes through is an interval behind
  those before it.
* `throttle_covers`: an event that is held back comes less than an interval
  behind one that was let through.
-/

namespace Throttle

variable {α : Type*} (urgent : α → Bool) (time : α → Int) (interval : Int)

/-- The events that are let through. -/
def throttle (last : Int) : List α → List α
  | [] => []
  | a :: events =>
    if urgent a = false ∧ time a - last < interval then throttle last events
    else a :: throttle (time a) events

/-- The events come in the order of their times, none before `last`. -/
def Ordered (last : Int) (events : List α) : Prop :=
  (last :: events.map time).Pairwise (· ≤ ·)

variable {urgent time interval} {last : Int} {a : α} {events : List α}

theorem ordered_cons : Ordered time last (a :: events) ↔
    last ≤ time a ∧ (∀ b ∈ events, last ≤ time b) ∧ Ordered time (time a) events := by
  simp [Ordered, List.pairwise_cons]
  tauto

theorem Ordered.tail (h : Ordered time last (a :: events)) : Ordered time last events := by
  rw [ordered_cons] at h
  have hrest := h.2.2
  unfold Ordered at hrest ⊢
  rw [List.pairwise_cons] at hrest ⊢
  refine ⟨fun t ht => ?_, hrest.2⟩
  obtain ⟨b, hb, rfl⟩ := List.mem_map.1 ht
  exact h.2.1 b hb

/-- Urgent events come through. -/
theorem urgent_mem (ha : a ∈ events) (hurgent : urgent a = true) :
    a ∈ throttle urgent time interval last events := by
  induction events generalizing last with
  | nil => cases ha
  | cons b events ih =>
    rw [throttle]
    rcases List.mem_cons.1 ha with rfl | ha
    · rw [if_neg (by simp [hurgent])]
      exact List.mem_cons_self ..
    · split
      · exact ih ha
      · exact List.mem_cons_of_mem _ (ih ha)

/-- What comes through comes an interval after `last`, or it is urgent. -/
theorem interval_of_mem (h : Ordered time last events)
    (ha : a ∈ throttle urgent time interval last events) (hnot : urgent a = false) :
    last + interval ≤ time a := by
  induction events generalizing last with
  | nil => cases ha
  | cons b events ih =>
    rw [throttle] at ha
    split at ha
    · exact ih h.tail ha
    · rename_i hb
      rw [ordered_cons] at h
      rcases List.mem_cons.1 ha with rfl | ha
      · rw [hnot] at hb
        simp at hb
        omega
      · have hlater := ih h.2.2 ha
        omega

/-- Of two events that come through, the later one is an interval behind or it is
urgent. -/
theorem throttle_spaced (h : Ordered time last events) :
    (throttle urgent time interval last events).Pairwise
      fun b a => urgent a = false → time b + interval ≤ time a := by
  induction events generalizing last with
  | nil => exact List.Pairwise.nil
  | cons b events ih =>
    rw [throttle]
    split
    · exact ih h.tail
    · rw [ordered_cons] at h
      apply List.pairwise_cons.2
      exact ⟨fun a ha hnot => interval_of_mem h.2.2 ha hnot, ih h.2.2⟩

/-- An event comes less than an interval behind the last one let through, if it is
not let through itself. -/
theorem throttle_covers (h : Ordered time last events) (ha : a ∈ events) :
    a ∈ throttle urgent time interval last events ∨
      ∃ t, (t = last ∨ ∃ b ∈ throttle urgent time interval last events, time b = t) ∧
        t ≤ time a ∧ time a < t + interval := by
  induction events generalizing last with
  | nil => cases ha
  | cons b events ih =>
    have hlast := (ordered_cons.1 h).1
    rw [throttle]
    split
    · rename_i hb
      rcases List.mem_cons.1 ha with rfl | ha
      · exact Or.inr ⟨last, Or.inl rfl, hlast, by omega⟩
      · exact ih h.tail ha
    · rcases List.mem_cons.1 ha with rfl | ha
      · exact Or.inl (List.mem_cons_self ..)
      · rcases ih (ordered_cons.1 h).2.2 ha with hin | ⟨t, ht, hle, hlt⟩
        · exact Or.inl (List.mem_cons_of_mem _ hin)
        · refine Or.inr ⟨t, Or.inr ?_, hle, hlt⟩
          rcases ht with rfl | ⟨d, hd, hdt⟩
          · exact ⟨b, List.mem_cons_self .., rfl⟩
          · exact ⟨d, List.mem_cons_of_mem _ hd, hdt⟩

end Throttle
