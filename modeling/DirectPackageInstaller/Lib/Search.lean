import Mathlib.Algebra.Ring.Nat
import Mathlib.Data.List.Infix
import Mathlib.Data.Nat.Find
import Mathlib.Logic.Relation
import Mathlib.Tactic.Common

/-!
# Searching a pattern without going back

A matcher that goes through a text once compares the elements of an attempt
with the pattern.  Where they differ it starts the next attempt behind the
element that it has just read, so the starts in between are never tried.

* `OccursAt` and `FirstAt` say where a pattern occurs, whatever finds it.
* `findFirst` finds the first occurrence (`findFirst_firstAt`,
  `findFirst_isSome`).
* `FailsAt`, `Restarts` and `Attempt` describe the starts that such a matcher
  tries.  `Restarts` is right unique, so the attempts form a chain and at most
  one of them succeeds (`Attempt.unique`).
* `attempt_take_iff`: a part of the text has the attempts of the whole text.
* `attempt_of_constant`: no occurrence of a pattern of one repeated element is
  jumped over.
-/

namespace Search

variable {α : Type*} {pattern text : List α}

/-- The pattern stands in the text at `i`. -/
def OccursAt (pattern text : List α) (i : Nat) : Prop :=
  pattern <+: text.drop i

/-- The first place at which the pattern stands. -/
structure FirstAt (pattern text : List α) (i : Nat) : Prop where
  occurs : OccursAt pattern text i
  first : ∀ j < i, ¬ OccursAt pattern text j

instance [DecidableEq α] (i : Nat) : Decidable (OccursAt pattern text i) :=
  inferInstanceAs (Decidable (_ <+: _))

instance [DecidableEq α] (i : Nat) : Decidable (FirstAt pattern text i) :=
  decidable_of_iff (OccursAt pattern text i ∧ ∀ j < i, ¬ OccursAt pattern text j)
    ⟨fun h => ⟨h.1, h.2⟩, fun h => ⟨h.occurs, h.first⟩⟩

theorem occursAt_iff {i : Nat} :
    OccursAt pattern text i ↔ ∀ j < pattern.length, text[i + j]? = pattern[j]? := by
  rw [OccursAt, List.prefix_iff_getElem?]
  constructor
  · intro h j hj
    rw [← List.getElem?_drop, h j hj, List.getElem?_eq_getElem hj]
  · intro h j hj
    rw [List.getElem?_drop, h j hj, List.getElem?_eq_getElem hj]

theorem OccursAt.le_length {i : Nat} (h : OccursAt pattern text i)
    (hne : pattern ≠ []) : i + pattern.length ≤ text.length := by
  have hle := h.length_le
  have hpos := List.length_pos_iff.2 hne
  rw [List.length_drop] at hle
  omega

/-- An occurrence in the first `n` elements. -/
theorem occursAt_take_iff {i n : Nat} (hne : pattern ≠ []) :
    OccursAt pattern (text.take n) i ↔
      OccursAt pattern text i ∧ i + pattern.length ≤ n := by
  have hpos := List.length_pos_iff.2 hne
  rw [OccursAt, OccursAt, List.drop_take, List.prefix_take_iff]
  refine and_congr_right fun _ => ?_
  omega

theorem FirstAt.unique {i j : Nat} (hi : FirstAt pattern text i)
    (hj : FirstAt pattern text j) : i = j := by
  by_contra hne
  rcases Nat.lt_or_gt_of_ne hne with hlt | hlt
  · exact hj.first i hlt hi.occurs
  · exact hi.first j hlt hj.occurs

/-- A pattern that occurs has a first occurrence. -/
theorem exists_firstAt {i : Nat} (h : OccursAt pattern text i) :
    ∃ f, FirstAt pattern text f := by
  classical
  have hex : ∃ i, OccursAt pattern text i := ⟨i, h⟩
  exact ⟨Nat.find hex, Nat.find_spec hex, fun j hj => Nat.find_min hex hj⟩

theorem occursAt_cons_succ {a : α} {i : Nat} :
    OccursAt pattern (a :: text) (i + 1) ↔ OccursAt pattern text i := Iff.rfl

/-- A pattern stands somewhere in a text if it is a part of it. -/
theorem infix_iff_occursAt : pattern <:+: text ↔ ∃ i, OccursAt pattern text i := by
  constructor
  · intro ⟨front, back, htext⟩
    refine ⟨front.length, back, ?_⟩
    rw [← htext, List.append_assoc, List.drop_left]
  · intro ⟨i, hi⟩
    exact hi.isInfix.trans (List.drop_suffix i text).isInfix

/-- The first place at which the pattern stands, if there is one. -/
def findFirst [DecidableEq α] (pattern : List α) : List α → Option Nat
  | [] => if pattern = [] then some 0 else none
  | a :: text =>
    if pattern <+: a :: text then some 0 else (findFirst pattern text).map (· + 1)

theorem findFirst_firstAt [DecidableEq α] {i : Nat} (h : findFirst pattern text = some i) :
    FirstAt pattern text i := by
  induction text generalizing i with
  | nil =>
    rw [findFirst] at h
    split_ifs at h with hnil
    cases h
    exact ⟨hnil ▸ List.nil_prefix, fun j hj => absurd hj (Nat.not_lt_zero j)⟩
  | cons a text ih =>
    rw [findFirst] at h
    split_ifs at h with hhere
    · cases h
      exact ⟨hhere, fun j hj => absurd hj (Nat.not_lt_zero j)⟩
    · obtain ⟨k, hk, rfl⟩ := Option.map_eq_some_iff.1 h
      refine ⟨(ih hk).occurs, fun j hj hocc => ?_⟩
      cases j with
      | zero => exact hhere hocc
      | succ j => exact (ih hk).first j (by omega) hocc

theorem findFirst_isSome [DecidableEq α] {i : Nat} (h : OccursAt pattern text i) :
    ∃ j ≤ i, findFirst pattern text = some j := by
  induction text generalizing i with
  | nil =>
    have hnil : pattern = [] := by
      rw [OccursAt, List.drop_nil] at h
      exact List.prefix_nil.1 h
    exact ⟨0, Nat.zero_le i, by rw [findFirst, if_pos hnil]⟩
  | cons a text ih =>
    rw [findFirst]
    split_ifs with hhere
    · exact ⟨0, Nat.zero_le i, rfl⟩
    · cases i with
      | zero => exact absurd h hhere
      | succ i =>
        obtain ⟨j, hj, hfind⟩ := ih (occursAt_cons_succ.1 h)
        exact ⟨j + 1, by omega, by rw [hfind]; rfl⟩

/-! ## The attempts of a matcher that never goes back -/

/-- The attempt at `s` agrees with the pattern on `k` elements and fails on the
next one. -/
structure FailsAt (pattern text : List α) (s k : Nat) : Prop where
  agrees : ∀ j < k, text[s + j]? = pattern[j]?
  lt : k < pattern.length
  inside : s + k < text.length
  differs : text[s + k]? ≠ pattern[k]?

/-- The attempt behind the element on which the one at `s` fails. -/
def Restarts (pattern text : List α) (s s' : Nat) : Prop :=
  ∃ k, FailsAt pattern text s k ∧ s' = s + k + 1

/-- The starts that are tried. -/
def Attempt (pattern text : List α) (s : Nat) : Prop :=
  Relation.ReflTransGen (Restarts pattern text) 0 s

theorem FailsAt.not_occursAt {s k : Nat} (h : FailsAt pattern text s k) :
    ¬ OccursAt pattern text s :=
  fun hocc => h.differs (occursAt_iff.1 hocc k h.lt)

theorem FailsAt.unique {s k k' : Nat} (h : FailsAt pattern text s k)
    (h' : FailsAt pattern text s k') : k = k' := by
  by_contra hne
  rcases Nat.lt_or_gt_of_ne hne with hlt | hlt
  · exact h.differs (h'.agrees k hlt)
  · exact h'.differs (h.agrees k' hlt)

theorem restarts_rightUnique : Relator.RightUnique (Restarts pattern text) := by
  intro s a b ⟨k, hk, ha⟩ ⟨k', hk', hb⟩
  have := hk.unique hk'
  omega

theorem Attempt.zero : Attempt pattern text 0 :=
  Relation.ReflTransGen.refl

theorem Attempt.restart {s k : Nat} (h : Attempt pattern text s)
    (hk : FailsAt pattern text s k) : Attempt pattern text (s + k + 1) :=
  h.tail ⟨k, hk, rfl⟩

/-- Behind an attempt that does not fail there is no other. -/
theorem eq_of_reflTransGen {s t : Nat} (hs : ∀ k, ¬ FailsAt pattern text s k)
    (h : Relation.ReflTransGen (Restarts pattern text) s t) : s = t := by
  rcases h.cases_head with heq | ⟨u, ⟨k, hk, -⟩, -⟩
  · exact heq
  · exact absurd hk (hs k)

/-- Two attempts that do not fail are the same. -/
theorem Attempt.unique {s t : Nat} (hs : Attempt pattern text s)
    (ht : Attempt pattern text t) (hsf : ∀ k, ¬ FailsAt pattern text s k)
    (htf : ∀ k, ¬ FailsAt pattern text t k) : s = t := by
  rcases Relation.ReflTransGen.total_of_right_unique restarts_rightUnique hs ht with
    hst | hts
  · exact eq_of_reflTransGen hsf hst
  · exact (eq_of_reflTransGen htf hts).symm

theorem OccursAt.not_failsAt {s : Nat} (h : OccursAt pattern text s) (k : Nat) :
    ¬ FailsAt pattern text s k :=
  fun hk => hk.not_occursAt h

/-! ## A part of the text -/

theorem failsAt_take_iff {s k n : Nat} :
    FailsAt pattern (text.take n) s k ↔ FailsAt pattern text s k ∧ s + k < n := by
  have hget : ∀ j ≤ k, s + k < n → (text.take n)[s + j]? = text[s + j]? := by
    intro j hj hn
    exact List.getElem?_take_of_lt (by omega)
  constructor
  · intro h
    have hin := h.inside
    rw [List.length_take] at hin
    have hn : s + k < n := by omega
    refine ⟨⟨fun j hj => ?_, h.lt, by omega, ?_⟩, hn⟩
    · rw [← hget j (by omega) hn]
      exact h.agrees j hj
    · rw [← hget k (by omega) hn]
      exact h.differs
  · intro ⟨h, hn⟩
    refine ⟨fun j hj => ?_, h.lt, ?_, ?_⟩
    · rw [hget j (by omega) hn]
      exact h.agrees j hj
    · rw [List.length_take]
      exact Nat.lt_min.2 ⟨hn, h.inside⟩
    · rw [hget k (by omega) hn]
      exact h.differs

/-- The first `n` elements of a text have the attempts of the text up to `n`. -/
theorem attempt_take_iff {s n : Nat} (hs : s ≤ n) :
    Attempt pattern (text.take n) s ↔ Attempt pattern text s := by
  constructor
  · intro h
    clear hs
    induction h with
    | refl => exact Attempt.zero
    | tail _ hstep ih =>
      obtain ⟨k, hk, rfl⟩ := hstep
      exact ih.restart (failsAt_take_iff.1 hk).1
  · intro h
    induction h with
    | refl => exact Attempt.zero
    | tail _ hstep ih =>
      obtain ⟨k, hk, rfl⟩ := hstep
      have hin : Attempt pattern (text.take n) _ := ih (by omega)
      exact hin.restart (failsAt_take_iff.2 ⟨hk, by omega⟩)

/-! ## A pattern of one repeated element -/

/-- Before the end of the text, an attempt that does not succeed fails. -/
theorem exists_failsAt {s : Nat} (hin : s + pattern.length ≤ text.length)
    (h : ¬ OccursAt pattern text s) : ∃ k, FailsAt pattern text s k := by
  classical
  rw [occursAt_iff] at h
  push Not at h
  have hspec := Nat.find_spec h
  refine ⟨Nat.find h, fun j hj => ?_, hspec.1, by omega, hspec.2⟩
  have hmin := Nat.find_min h hj
  by_contra hne
  exact hmin ⟨by omega, hne⟩

/-- The first occurrence of a repeated element is tried: the element on which an
attempt before it fails is not the repeated one, so it stands before it. -/
theorem attempt_of_constant {m f : Nat} {a : α} (hm : 0 < m)
    (hf : FirstAt (List.replicate m a) text f) :
    Attempt (List.replicate m a) text f := by
  have hend := hf.occurs.le_length (List.ne_nil_of_length_pos (by simpa using hm))
  rw [List.length_replicate] at hend
  have hocc : ∀ j < m, text[f + j]? = some a := by
    intro j hj
    rw [occursAt_iff.1 hf.occurs j (by simpa using hj), List.getElem?_replicate, if_pos hj]
  -- by induction on the distance of an attempt from the occurrence
  have hreach : ∀ d s, s + d = f → Attempt (List.replicate m a) text s →
      Attempt (List.replicate m a) text f := by
    intro d
    induction d using Nat.strong_induction_on with
    | _ d ih =>
      intro s hd hs
      by_cases hzero : d = 0
      · rwa [show s = f by omega] at hs
      · obtain ⟨k, hk⟩ := exists_failsAt (by rw [List.length_replicate]; omega)
          (hf.first s (by omega))
        have hlt := hk.lt
        have hdiffers := hk.differs
        rw [List.length_replicate] at hlt
        rw [List.getElem?_replicate, if_pos hlt] at hdiffers
        have hbefore : s + k < f := by
          by_contra hge
          refine hdiffers ?_
          rw [show s + k = f + (s + k - f) by omega]
          exact hocc _ (by omega)
        exact ih (f - (s + k + 1)) (by omega) _ (by omega) (hs.restart hk)
  exact hreach f 0 (Nat.zero_add f) Attempt.zero

end Search
