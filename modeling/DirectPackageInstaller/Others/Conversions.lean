import DirectPackageInstaller.Lib.Search

/-!
# The search for the payload marker

`Conversions.IndexOf` goes through a buffer once.  Where a byte differs from
the pattern it starts again behind that byte, and it stops a pattern length
before the end of the buffer.

* `indexOfLoop_spec` is the induction along the buffer: the loop returns the
  one attempt that succeeds.
* `indexOf_correct_iff`: the index is right exactly when the first occurrence
  is an attempt and has a pattern length of other bytes behind it.
* `indexOf_marker`: for the marker of `EnsureClient` only the bytes behind it
  matter.
-/

namespace DirectPackageInstaller

namespace Conversions

open Search

/-- The loop of `IndexOf` over the bytes that are left, `i` being the index of
the next one.  `none` is the exception for an index behind the end of
`Content`. -/
def indexOfLoop (content : List UInt8) : List UInt8 → Nat → Nat → Nat → Option Int
  | [], _, _, _ => some (-1)
  | byte :: bytes, i, x, offset =>
    match content[x]? with
    | none => none
    | some c =>
      if byte ≠ c then indexOfLoop content bytes (i + 1) 0 offset
      else
        let offset := if x = 0 then i else offset
        let x := x + 1
        if x ≥ content.length then some offset
        else indexOfLoop content bytes (i + 1) x offset

/-- `Buffer.IndexOf(Content)`.  `Buffer.Count()` throws for more bytes than an
`int` counts. -/
def indexOf (buffer content : List UInt8) : Option Int :=
  if buffer.length ≥ 2 ^ 31 then none
  else
    -- `Count` is negative for a buffer shorter than `Content`: nothing is read
    let count := buffer.length - content.length
    indexOfLoop content (buffer.take count) 0 0 0

/-- The index of the first occurrence, or -1. -/
def Correct (buffer content : List UInt8) (result : Option Int) : Prop :=
  (∀ f, FirstAt content buffer f → result = some f) ∧
    ((∀ i, ¬ OccursAt content buffer i) → result = some (-1))

/-! ## The loop -/

/-- Where the loop stands: the attempt at `s` agrees on the `x` bytes before
`i`. -/
structure Stands (content text : List UInt8) (s i x : Nat) : Prop where
  attempt : Attempt content text s
  index : i = s + x
  inside : i ≤ text.length
  lt : x < content.length
  agrees : ∀ j < x, text[s + j]? = content[j]?

/-- What the loop should return: an attempt that succeeds, or -1 when there is
none. -/
def Finds (content text : List UInt8) (result : Option Int) : Prop :=
  (∃ s : Nat, result = some s ∧ Attempt content text s ∧ OccursAt content text s) ∨
    result = some (-1) ∧ ∀ s, Attempt content text s → ¬ OccursAt content text s

/-- At the end of the text the last attempt is open: it neither fails nor
succeeds, so no attempt does. -/
theorem Stands.not_occursAt {content text : List UInt8} {s x : Nat}
    (h : Stands content text s text.length x) {t : Nat} (ht : Attempt content text t) :
    ¬ OccursAt content text t := by
  intro hocc
  have hlen := h.index
  have hopen : ∀ k, ¬ FailsAt content text s k := by
    intro k hk
    have hin := hk.inside
    exact hk.differs (h.agrees k (by omega))
  have hst := h.attempt.unique ht hopen hocc.not_failsAt
  subst hst
  have hne : content ≠ [] := List.ne_nil_of_length_pos (by have := h.lt; omega)
  have hle := hocc.le_length hne
  have := h.lt
  omega

/-- A byte that differs: the next attempt is behind it. -/
theorem Stands.restart {content text : List UInt8} {s i x : Nat} {byte c : UInt8}
    (h : Stands content text s i x) (hbyte : text[i]? = some byte)
    (hc : content[x]? = some c) (hne : byte ≠ c) :
    Stands content text (i + 1) (i + 1) 0 := by
  have hlt := (List.getElem?_eq_some_iff.1 hbyte).1
  have hindex := h.index
  have hfails : FailsAt content text s x := by
    refine ⟨h.agrees, h.lt, hindex ▸ hlt, ?_⟩
    rw [← hindex, hbyte, hc]
    exact fun heq => hne (Option.some.inj heq)
  have hattempt := h.attempt.restart hfails
  rw [← hindex] at hattempt
  refine ⟨hattempt, rfl, hlt, Nat.zero_lt_of_lt h.lt, ?_⟩
  intro j hj
  omega

/-- A byte that agrees: the attempt covers it too. -/
theorem Stands.agrees_succ {content text : List UInt8} {s i x : Nat} {byte : UInt8}
    (h : Stands content text s i x) (hbyte : text[i]? = some byte)
    (hc : content[x]? = some byte) :
    ∀ j < x + 1, text[s + j]? = content[j]? := by
  intro j hj
  by_cases hlast : j = x
  · rw [hlast, ← h.index, hbyte, hc]
  · exact h.agrees j (by omega)

/-- The loop returns the attempt that succeeds, by induction along the text. -/
theorem indexOfLoop_spec {content text : List UInt8} (bytes : List UInt8) :
    ∀ {s i x offset : Nat}, Stands content text s i x → text.drop i = bytes →
      (x ≠ 0 → offset = s) →
      Finds content text (indexOfLoop content bytes i x offset) := by
  induction bytes with
  | nil =>
    intro s i x offset h hdrop hoffset
    have hle := List.drop_eq_nil_iff.1 hdrop
    have hinside := h.inside
    rw [show i = text.length by omega] at h
    exact Or.inr ⟨rfl, fun t ht => h.not_occursAt ht⟩
  | cons byte bytes ih =>
    intro s i x offset h hdrop hoffset
    have hbyte : text[i]? = some byte := by
      rw [← Nat.add_zero i, ← List.getElem?_drop, hdrop]
      rfl
    have hrest : text.drop (i + 1) = bytes := by
      rw [← List.drop_drop, hdrop]
      rfl
    have hlt := h.lt
    have hc : content[x]? = some content[x] := List.getElem?_eq_getElem hlt
    rw [indexOfLoop, hc]
    dsimp only
    by_cases hne : byte ≠ content[x]
    · rw [if_pos hne]
      exact ih (h.restart hbyte hc hne) hrest fun hzero => absurd rfl hzero
    · rw [if_neg hne]
      rw [not_not] at hne
      have hagrees := h.agrees_succ hbyte (hne ▸ hc)
      have hstart : (if x = 0 then i else offset) = s := by
        have hindex := h.index
        split_ifs with hzero
        · omega
        · exact hoffset hzero
      rw [hstart]
      by_cases hdone : x + 1 ≥ content.length
      · rw [if_pos hdone]
        refine Or.inl ⟨s, rfl, h.attempt, occursAt_iff.2 fun j hj => ?_⟩
        exact hagrees j (by omega)
      · rw [if_neg hdone]
        have hin := (List.getElem?_eq_some_iff.1 hbyte).1
        have hindex := h.index
        exact ih ⟨h.attempt, by omega, hin, by omega, hagrees⟩ hrest fun _ => rfl

theorem indexOf_finds {buffer content : List UInt8} (hne : content ≠ [])
    (hlen : buffer.length < 2 ^ 31) :
    Finds content (buffer.take (buffer.length - content.length)) (indexOf buffer content) := by
  rw [indexOf, if_neg (by omega)]
  refine indexOfLoop_spec _ ⟨Attempt.zero, rfl, Nat.zero_le _, ?_, ?_⟩ rfl fun hzero => ?_
  · exact List.length_pos_iff.2 hne
  · intro j hj
    omega
  · exact absurd rfl hzero

/-! ## When the index is right -/

/-- Without an overflow the index is right exactly when the first occurrence is
one of the attempts and ends a pattern length before the end. -/
theorem correct_iff_of_lt {buffer content : List UInt8} (hne : content ≠ [])
    (hlen : buffer.length < 2 ^ 31) :
    Correct buffer content (indexOf buffer content) ↔
      ∀ f, FirstAt content buffer f →
        Attempt content buffer f ∧ f + 2 * content.length ≤ buffer.length := by
  have hpos := List.length_pos_iff.2 hne
  have hfinds := indexOf_finds hne hlen
  generalize indexOf buffer content = result at hfinds ⊢
  constructor
  · intro ⟨hfirst, _⟩ f hf
    have hresult := hfirst f hf
    rcases hfinds with ⟨s, hs, hattempt, hocc⟩ | ⟨hminus, _⟩
    · have hsf := Option.some.inj (hs.symm.trans hresult)
      rw [Int.natCast_inj] at hsf
      subst hsf
      have hscanned := (occursAt_take_iff hne).1 hocc
      exact ⟨(attempt_take_iff (by omega)).1 hattempt, by omega⟩
    · have := Option.some.inj (hresult.symm.trans hminus)
      omega
  · intro h
    refine ⟨fun f hf => ?_, fun hnone => ?_⟩
    · obtain ⟨hattempt, hbound⟩ := h f hf
      have hinside : f + content.length ≤ buffer.length - content.length := by omega
      have hocc := (occursAt_take_iff hne).2 ⟨hf.occurs, hinside⟩
      have hscanned := (attempt_take_iff
        (show f ≤ buffer.length - content.length by omega)).2 hattempt
      rcases hfinds with ⟨s, hs, hs', hsocc⟩ | ⟨_, hnone⟩
      · rw [hs, hs'.unique hscanned hsocc.not_failsAt hocc.not_failsAt]
      · exact absurd hocc (hnone f hscanned)
    · rcases hfinds with ⟨s, _, _, hsocc⟩ | ⟨hminus, _⟩
      · exact absurd ((occursAt_take_iff hne).1 hsocc).1 (hnone s)
      · exact hminus

/-- The index is right exactly when `Buffer.Count()` is an `int`, the first
occurrence is one of the attempts, and at least as many bytes as the pattern
has stand behind it. -/
theorem indexOf_correct_iff (buffer content : List UInt8) (hne : content ≠ []) :
    Correct buffer content (indexOf buffer content) ↔
      buffer.length < 2 ^ 31 ∧ ∀ f, FirstAt content buffer f →
        Attempt content buffer f ∧ f + 2 * content.length ≤ buffer.length := by
  by_cases hlen : buffer.length < 2 ^ 31
  · rw [and_iff_right hlen]
    exact correct_iff_of_lt hne hlen
  · -- `Buffer.Count()` throws
    have hnone : indexOf buffer content = none := by
      rw [indexOf, if_pos (by omega)]
    rw [hnone]
    constructor
    · intro ⟨hfirst, hminus⟩
      by_cases hocc : ∃ i, OccursAt content buffer i
      · obtain ⟨i, hi⟩ := hocc
        obtain ⟨f, hf⟩ := exists_firstAt hi
        cases hfirst f hf
      · push Not at hocc
        cases hminus hocc
    · intro h
      exact absurd h.1 hlen

/-- Two bytes in front of two other ones. -/
theorem indexOf_correct_front : Correct [1, 2, 0, 0] [1, 2] (indexOf [1, 2, 0, 0] [1, 2]) := by
  refine (indexOf_correct_iff [1, 2, 0, 0] [1, 2] (by decide)).2 ⟨by decide, fun f hf => ?_⟩
  rw [hf.unique (show FirstAt [1, 2] [1, 2, 0, 0] 0 by decide)]
  exact ⟨Attempt.zero, by decide⟩

/-- A match up to the last byte, and one inside a failed attempt. -/
theorem indexOf_misses :
    ¬ Correct [1] [1] (indexOf [1] [1]) ∧
      ¬ Correct [1, 1, 1, 2, 0, 0, 0] [1, 1, 2]
        (indexOf [1, 1, 1, 2, 0, 0, 0] [1, 1, 2]) := by
  refine ⟨fun h => ?_, fun h => ?_⟩
  · exact absurd (h.1 0 (by decide)) (by decide)
  · exact absurd (h.1 1 (by decide)) (by decide)

/-! ## The marker in the payload -/

/-- The bytes that `EnsureClient` replaces by the IP and the port. -/
def marker : List UInt8 :=
  List.replicate 6 0xB4

/-- The marker is found exactly when six bytes stand behind its first
occurrence; no earlier attempt runs over it. -/
theorem indexOf_marker {payload : List UInt8} (hlen : payload.length < 2 ^ 31) :
    Correct payload marker (indexOf payload marker) ↔
      ∀ f, FirstAt marker payload f → f + 12 ≤ payload.length := by
  rw [correct_iff_of_lt (show marker ≠ [] by decide) hlen]
  constructor
  · intro h f hf
    exact (h f hf).2
  · intro h f hf
    exact ⟨attempt_of_constant (Nat.succ_pos 5) hf, h f hf⟩

end Conversions

end DirectPackageInstaller
