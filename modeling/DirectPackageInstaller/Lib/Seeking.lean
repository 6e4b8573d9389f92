import Mathlib.Data.Int.Order.Basic
import Mathlib.Tactic.Common

/-!
# The seeking contract of a stream

A stream with a length and a position, over a base with a position of its own.
A seek returns a position, throws, or blocks for ever.  The contract asks that
a seek into the stream reaches its target, and that a seek out of it that
throws changes nothing.

* `Adapter.contract_of_inRange`, `Adapter.contract_of_not_inRange`: the two
  halves of the contract.
* `Adapter.contract_of_safe`: a stream that never throws out of its range only
  has the first half to meet.
-/

namespace Seeking

/-- What a seek is relative to. -/
inductive SeekOrigin where
  | begin
  | current
  | fromEnd
  deriving DecidableEq, Repr

/-- How a seek ends, and the state behind it. -/
inductive SeekOutcome (σ : Type*) where
  | returned (position : Int) (s : σ)
  | threw (s : σ)
  | blocked (s : σ)

/-- A seekable stream.  The position is `none` where reading it throws. -/
structure Adapter (σ β : Type*) where
  length : σ → Int
  position : σ → Option Int
  /-- The position of the base. -/
  base : σ → β
  seek : σ → Int → SeekOrigin → SeekOutcome σ

namespace Adapter

variable {σ β : Type*} (a : Adapter σ β)

/-- Where a seek should go. -/
def target (s : σ) (offset : Int) : SeekOrigin → Int
  | .begin => offset
  | .current => (a.position s).getD 0 + offset
  | .fromEnd => a.length s + offset

/-- The target lies in the stream, or at its end. -/
def InRange (s : σ) (offset : Int) (origin : SeekOrigin) : Prop :=
  0 ≤ a.target s offset origin ∧ a.target s offset origin ≤ a.length s

instance (s : σ) (offset : Int) (origin : SeekOrigin) :
    Decidable (a.InRange s offset origin) :=
  inferInstanceAs (Decidable (_ ∧ _))

/-- The seek returns its target and stands there. -/
def Reaches (s : σ) (offset : Int) (origin : SeekOrigin) : Prop :=
  ∃ s', a.seek s offset origin = .returned (a.target s offset origin) s' ∧
    a.position s' = some (a.target s offset origin)

/-- When the seek throws, neither position has changed. -/
def KeepsOnThrow (s : σ) (offset : Int) (origin : SeekOrigin) : Prop :=
  ∀ s', a.seek s offset origin = .threw s' →
    a.position s' = a.position s ∧ a.base s' = a.base s

/-- The contract of one seek. -/
def Contract (s : σ) (offset : Int) (origin : SeekOrigin) : Prop :=
  (a.InRange s offset origin → a.Reaches s offset origin) ∧
    (¬ a.InRange s offset origin → a.KeepsOnThrow s offset origin)

variable {a} {s : σ} {offset : Int} {origin : SeekOrigin}

theorem contract_of_inRange (h : a.InRange s offset origin) :
    a.Contract s offset origin ↔ a.Reaches s offset origin :=
  ⟨fun hc => hc.1 h, fun hr => ⟨fun _ => hr, fun hn => absurd h hn⟩⟩

theorem contract_of_not_inRange (h : ¬ a.InRange s offset origin) :
    a.Contract s offset origin ↔ a.KeepsOnThrow s offset origin :=
  ⟨fun hc => hc.2 h, fun hk => ⟨fun hi => absurd hi h, fun _ => hk⟩⟩

/-- A stream that changes nothing when it throws only has to reach the targets
in its range. -/
theorem contract_of_safe (h : ¬ a.InRange s offset origin → a.KeepsOnThrow s offset origin) :
    a.Contract s offset origin ↔ (a.InRange s offset origin → a.Reaches s offset origin) :=
  and_iff_left h

/-- A seek that throws does not reach its target. -/
theorem not_reaches_of_threw {s' : σ} (h : a.seek s offset origin = .threw s') :
    ¬ a.Reaches s offset origin := by
  rintro ⟨s'', hreturned, -⟩
  rw [h] at hreturned
  cases hreturned

theorem not_reaches_of_blocked {s' : σ} (h : a.seek s offset origin = .blocked s') :
    ¬ a.Reaches s offset origin := by
  rintro ⟨s'', hreturned, -⟩
  rw [h] at hreturned
  cases hreturned

/-- A seek that returns a position and stands there has reached its target
exactly when that is it. -/
theorem reaches_iff_of_returned {s' : σ} {p : Int}
    (h : a.seek s offset origin = .returned p s') (hp : a.position s' = some p) :
    a.Reaches s offset origin ↔ p = a.target s offset origin := by
  constructor
  · rintro ⟨s'', hreturned, -⟩
    rw [h] at hreturned
    cases hreturned
    rfl
  · rintro rfl
    exact ⟨s', h, hp⟩

/-- A seek that returns keeps what it should on a throw. -/
theorem keepsOnThrow_of_returned {s' : σ} {p : Int}
    (h : a.seek s offset origin = .returned p s') : a.KeepsOnThrow s offset origin := by
  intro s'' hthrew
  rw [h] at hthrew
  cases hthrew

theorem keepsOnThrow_of_blocked {s' : σ} (h : a.seek s offset origin = .blocked s') :
    a.KeepsOnThrow s offset origin := by
  intro s'' hthrew
  rw [h] at hthrew
  cases hthrew

/-- A seek that throws at once keeps everything. -/
theorem keepsOnThrow_of_unchanged (h : a.seek s offset origin = .threw s) :
    a.KeepsOnThrow s offset origin := by
  intro s' hthrew
  rw [h] at hthrew
  cases hthrew
  exact ⟨rfl, rfl⟩

end Adapter

end Seeking
