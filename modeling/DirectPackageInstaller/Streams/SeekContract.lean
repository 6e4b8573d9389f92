import DirectPackageInstaller.Streams.MergedStream
import DirectPackageInstaller.Streams.ReadSeekableStream
import DirectPackageInstaller.Streams.UnsafeMemoryStream
import DirectPackageInstaller.Streams.VirtualStream

/-!
# Seeking through the stream adapters

The four adapters are stacked on each other and under the archive readers, and
each implements `Seek` for itself.  For each of them a predicate on the state
and the arguments says when a seek keeps the contract of streams; nothing is
assumed about the state.

* `VirtualStream` and `UnsafeMemoryStream` refuse negative offsets from any
  origin, and count from the end backwards.
* `MergedStream` does not move to its end.
* `ReadSeekableStream` counts from the end of its input, whatever length it
  reports.

`seek_contract_iff` puts them together.
-/

namespace DirectPackageInstaller.SeekContract

open Seeking

/-! ## The window -/

/-- `VirtualStream` over a base. -/
def virtual (base : VirtualStream.Base) : Adapter VirtualStream.Opened Int where
  length := fun s => s.window.len
  position := fun s => some s.window.pos
  base := fun s => s.basePosition
  seek := VirtualStream.seek base

/-- The base can be set to the position, and a window that waits for its bytes
does not wait there. -/
def Admits (base : VirtualStream.Base) (s : VirtualStream.Opened) (p : Int) : Prop :=
  base.accepts p = true ∧ (s.forceAmount = true → p ≤ base.length)

/-- When a seek of `VirtualStream` keeps the contract. -/
def VirtualSeeks (base : VirtualStream.Base) (s : VirtualStream.Opened) (offset : Int) :
    SeekOrigin → Prop
  | .begin => 0 ≤ offset → offset ≤ s.window.len →
      Admits base s (s.window.filePos + offset)
  | .current => 0 ≤ s.window.pos + offset → s.window.pos + offset ≤ s.window.len →
      0 ≤ offset ∧ offset ≤ s.window.len ∧ Admits base s (s.basePosition + offset)
  | .fromEnd =>
      (0 ≤ s.window.len + offset → offset ≤ 0 →
        offset = 0 ∧ Admits base s (s.window.filePos + s.window.len)) ∧
      (0 < offset → offset ≤ s.window.len → s.window.len - offset ≠ s.window.pos →
        base.accepts (s.window.filePos + (s.window.len - offset)) = true)

/-- Moving the base reaches the position exactly when the base admits it. -/
theorem moveBase_cases (base : VirtualStream.Base) (s : VirtualStream.Opened)
    (basePosition pos : Int) :
    (Admits base s basePosition ∧ VirtualStream.moveBase base s basePosition pos =
      .returned pos { s with basePosition, window := { s.window with pos } }) ∨
    (¬ Admits base s basePosition ∧ base.accepts basePosition = true ∧
      ∃ s', VirtualStream.moveBase base s basePosition pos = .blocked s') ∨
    (¬ Admits base s basePosition ∧ base.accepts basePosition = false ∧
      VirtualStream.moveBase base s basePosition pos = .threw s) := by
  unfold VirtualStream.moveBase VirtualStream.await Admits
  cases haccepts : base.accepts basePosition with
  | false => exact Or.inr (Or.inr ⟨by simp, rfl, rfl⟩)
  | true =>
    by_cases hwait : s.forceAmount = true ∧ basePosition > base.length
    · refine Or.inr (Or.inl ⟨?_, rfl, ?_⟩)
      · rintro ⟨-, hadmits⟩
        have := hadmits hwait.1
        omega
      · exact ⟨_, by rw [if_pos rfl, if_pos hwait]⟩
    · refine Or.inl ⟨⟨rfl, fun hforce => ?_⟩, ?_⟩
      · by_contra hover
        exact hwait ⟨hforce, by omega⟩
      · rw [if_pos rfl, if_neg hwait]

/-- A seek that moves the base to reach its target does so exactly when the base
admits the move. -/
theorem reaches_moveBase {base : VirtualStream.Base} {s s₁ : VirtualStream.Opened}
    {offset basePosition pos : Int} {origin : SeekOrigin}
    (hseek : (virtual base).seek s offset origin =
      VirtualStream.moveBase base s₁ basePosition pos)
    (htarget : (virtual base).target s offset origin = pos)
    (hforce : s₁.forceAmount = s.forceAmount) :
    (virtual base).Reaches s offset origin ↔ Admits base s basePosition := by
  have hadmits : Admits base s₁ basePosition ↔ Admits base s basePosition := by
    rw [Admits, Admits, hforce]
  rw [← hadmits]
  rcases moveBase_cases base s₁ basePosition pos with
    ⟨h, hmove⟩ | ⟨h, -, s', hmove⟩ | ⟨h, -, hmove⟩
  · rw [hmove] at hseek
    exact iff_of_true ((Adapter.reaches_iff_of_returned hseek rfl).2 htarget.symm) h
  · rw [hmove] at hseek
    exact iff_of_false (Adapter.not_reaches_of_blocked hseek) h
  · rw [hmove] at hseek
    exact iff_of_false (Adapter.not_reaches_of_threw hseek) h

/-- A refused offset throws at once. -/
theorem virtual_refused {base : VirtualStream.Base} {s : VirtualStream.Opened}
    {offset : Int} (h : offset < 0 ∨ offset > s.window.len) (origin : SeekOrigin) :
    (virtual base).seek s offset origin = .threw s :=
  if_pos h

/-- A move of the base from the unchanged window changes nothing when it throws. -/
theorem keepsOnThrow_moveBase {base : VirtualStream.Base} {s : VirtualStream.Opened}
    {offset basePosition pos : Int} {origin : SeekOrigin}
    (hseek : (virtual base).seek s offset origin =
      VirtualStream.moveBase base s basePosition pos) :
    (virtual base).KeepsOnThrow s offset origin := by
  rcases moveBase_cases base s basePosition pos with
    ⟨-, hmove⟩ | ⟨-, -, s', hmove⟩ | ⟨-, -, hmove⟩
  · exact Adapter.keepsOnThrow_of_returned (hseek.trans hmove)
  · exact Adapter.keepsOnThrow_of_blocked (hseek.trans hmove)
  · exact Adapter.keepsOnThrow_of_unchanged (hseek.trans hmove)

theorem virtual_begin_iff (base : VirtualStream.Base) (s : VirtualStream.Opened)
    (offset : Int) :
    (virtual base).Contract s offset .begin ↔ VirtualSeeks base s offset .begin := by
  by_cases hin : (virtual base).InRange s offset .begin
  · have hlo : 0 ≤ offset := hin.1
    have hhi : offset ≤ s.window.len := hin.2
    have hseek : (virtual base).seek s offset .begin =
        VirtualStream.moveBase base s (s.window.filePos + offset) offset :=
      if_neg (by omega)
    rw [Adapter.contract_of_inRange hin, reaches_moveBase hseek rfl rfl]
    exact ⟨fun h _ _ => h, fun h => h hlo hhi⟩
  · have hout : ¬(0 ≤ offset ∧ offset ≤ s.window.len) := hin
    have hthrew : (virtual base).seek s offset .begin = .threw s :=
      virtual_refused (by omega) .begin
    rw [Adapter.contract_of_not_inRange hin]
    exact iff_of_true (Adapter.keepsOnThrow_of_unchanged hthrew)
      fun hlo hhi => absurd ⟨hlo, hhi⟩ hout

theorem virtual_current_iff (base : VirtualStream.Base) (s : VirtualStream.Opened)
    (offset : Int) :
    (virtual base).Contract s offset .current ↔ VirtualSeeks base s offset .current := by
  have hbody : ¬(offset < 0 ∨ offset > s.window.len) →
      (virtual base).seek s offset .current =
        if s.window.pos + offset > s.window.len then .threw s
        else VirtualStream.moveBase base s (s.basePosition + offset)
          (s.window.pos + offset) :=
    fun hallowed => if_neg hallowed
  by_cases hin : (virtual base).InRange s offset .current
  · have hlo : 0 ≤ s.window.pos + offset := hin.1
    have hhi : s.window.pos + offset ≤ s.window.len := hin.2
    rw [Adapter.contract_of_inRange hin]
    by_cases hrefused : offset < 0 ∨ offset > s.window.len
    · refine iff_of_false (Adapter.not_reaches_of_threw (virtual_refused hrefused _)) ?_
      intro hseeks
      have := hseeks hlo hhi
      omega
    · have hseek := (hbody hrefused).trans (if_neg (by omega))
      rw [reaches_moveBase hseek rfl rfl]
      exact ⟨fun h _ _ => ⟨by omega, by omega, h⟩, fun h => (h hlo hhi).2.2⟩
  · have hout : ¬(0 ≤ s.window.pos + offset ∧ s.window.pos + offset ≤ s.window.len) := hin
    rw [Adapter.contract_of_not_inRange hin]
    refine iff_of_true ?_ fun hlo hhi => absurd ⟨hlo, hhi⟩ hout
    by_cases hrefused : offset < 0 ∨ offset > s.window.len
    · exact Adapter.keepsOnThrow_of_unchanged (virtual_refused hrefused _)
    · by_cases hover : s.window.pos + offset > s.window.len
      · exact Adapter.keepsOnThrow_of_unchanged ((hbody hrefused).trans (if_pos hover))
      · exact keepsOnThrow_moveBase ((hbody hrefused).trans (if_neg hover))

/-- From the end the position is assigned before the base is moved, so a base
that refuses leaves it changed. -/
theorem virtual_fromEnd_iff (base : VirtualStream.Base) (s : VirtualStream.Opened)
    (offset : Int) :
    (virtual base).Contract s offset .fromEnd ↔ VirtualSeeks base s offset .fromEnd := by
  have hbody : ¬(offset < 0 ∨ offset > s.window.len) →
      (virtual base).seek s offset .fromEnd = VirtualStream.moveBase base
        { s with window := { s.window with pos := s.window.len - offset } }
        (s.window.filePos + (s.window.len - offset)) (s.window.len - offset) := by
    intro hallowed
    have hpos : ¬ s.window.len - offset < 0 := by omega
    exact (if_neg hallowed).trans (if_neg hpos)
  by_cases hin : (virtual base).InRange s offset .fromEnd
  · have hlo : 0 ≤ s.window.len + offset := hin.1
    have hhi : s.window.len + offset ≤ s.window.len := hin.2
    rw [Adapter.contract_of_inRange hin]
    by_cases hzero : offset = 0
    · subst hzero
      have hseek := hbody (by omega)
      rw [reaches_moveBase hseek (by change s.window.len + 0 = s.window.len - 0; omega) rfl,
        Int.sub_zero]
      exact ⟨fun h => ⟨fun _ _ => ⟨rfl, h⟩, fun hpos => absurd hpos (by omega)⟩,
        fun h => (h.1 hlo (by omega)).2⟩
    · refine iff_of_false
        (Adapter.not_reaches_of_threw (virtual_refused (by omega) _)) fun hseeks => ?_
      exact hzero (hseeks.1 hlo (by omega)).1
  · have hout : ¬(0 ≤ s.window.len + offset ∧ s.window.len + offset ≤ s.window.len) := hin
    rw [Adapter.contract_of_not_inRange hin]
    by_cases hrefused : offset < 0 ∨ offset > s.window.len
    · refine iff_of_true (Adapter.keepsOnThrow_of_unchanged (virtual_refused hrefused _)) ?_
      exact ⟨fun hlo hhi => absurd ⟨hlo, by omega⟩ hout, fun hlo hhi => by omega⟩
    · have hseek := hbody hrefused
      have hpast : 0 < offset := by omega
      have hseeks : VirtualSeeks base s offset .fromEnd ↔
          (s.window.len - offset ≠ s.window.pos →
            base.accepts (s.window.filePos + (s.window.len - offset)) = true) :=
        ⟨fun h => h.2 hpast (by omega), fun h => ⟨fun hlo hhi => by omega, fun _ _ => h⟩⟩
      rw [hseeks]
      rcases moveBase_cases base _ (s.window.filePos + (s.window.len - offset))
        (s.window.len - offset) with ⟨hadmits, hmove⟩ | ⟨-, haccepts, s', hmove⟩ |
          ⟨-, haccepts, hmove⟩
      · exact iff_of_true (Adapter.keepsOnThrow_of_returned (hseek.trans hmove))
          fun _ => hadmits.1
      · exact iff_of_true (Adapter.keepsOnThrow_of_blocked (hseek.trans hmove))
          fun _ => haccepts
      · rw [haccepts]
        constructor
        · intro hkeeps hne
          have hpos := (hkeeps _ (hseek.trans hmove)).1
          exact absurd (Option.some.inj hpos) hne
        · intro hsame s' hthrew
          rw [hseek, hmove] at hthrew
          cases hthrew
          have hpos : s.window.len - offset = s.window.pos := by
            by_contra hne
            exact absurd (hsame hne) (by decide)
          exact ⟨congrArg some hpos, rfl⟩

theorem virtual_contract_iff (base : VirtualStream.Base) (s : VirtualStream.Opened)
    (offset : Int) (origin : SeekOrigin) :
    (virtual base).Contract s offset origin ↔ VirtualSeeks base s offset origin := by
  cases origin with
  | begin => exact virtual_begin_iff base s offset
  | current => exact virtual_current_iff base s offset
  | fromEnd => exact virtual_fromEnd_iff base s offset

/-! ## The merged parts -/

/-- `MergedStream` over its parts. -/
def merged : Adapter MergedStream (List Nat) where
  length := fun m => m.length
  position := fun m => m.position.map Int.ofNat
  base := fun m => m.parts.map fun part => part.stream.position
  seek := MergedStream.seek

/-- A part holds the position. -/
def Held (m : MergedStream) (value : Int) : Prop :=
  ∃ part ∈ m.parts, value ≥ part.offset ∧ value < part.offset + part.size

/-- When a seek of `MergedStream` keeps the contract: its target lies in a part,
or the stream stands there already. -/
def MergedSeeks (m : MergedStream) (offset : Int) (origin : SeekOrigin) : Prop :=
  merged.InRange m offset origin → ∃ value, m.seekTarget offset origin = some value ∧
    (Held m value ∨ merged.position m = some value)

/-- The first part that holds the value. -/
theorem setPosition_of_held {m : MergedStream} {value : Int} (h : Held m value) :
    merged.position (m.setPosition value) = some value := by
  obtain ⟨part, hmem, hlo, hhi⟩ := h
  unfold MergedStream.setPosition
  split
  · rename_i hnone
    have hno := List.findIdx?_eq_none_iff.1 hnone part hmem
    simp only [ge_iff_le, Bool.and_eq_false_iff, decide_eq_false_iff_not] at hno
    omega
  · rename_i i hsome
    obtain ⟨hlt, hin, -⟩ := List.findIdx?_eq_some_iff_getElem.1 hsome
    have hi : m.parts[i]? = some m.parts[i] := List.getElem?_eq_getElem hlt
    simp only [ge_iff_le, Bool.and_eq_true, decide_eq_true_eq] at hin
    rw [hi]
    change (MergedStream.position _).map Int.ofNat = some value
    rw [MergedStream.position, MergedStream.getElem?_set_row hi]
    simp only [Option.map_some, Option.some.injEq, Int.ofNat_eq_natCast]
    omega

/-- A value that no part holds changes nothing. -/
theorem setPosition_of_not_held {m : MergedStream} {value : Int} (h : ¬ Held m value) :
    m.setPosition value = m := by
  have hnone : (m.parts.findIdx? fun part =>
      decide (value ≥ part.offset) && decide (value < part.offset + part.size)) = none := by
    rw [List.findIdx?_eq_none_iff]
    intro part hmem
    by_contra hin
    simp only [Bool.not_eq_false, Bool.and_eq_true, decide_eq_true_eq] at hin
    exact h ⟨part, hmem, hin⟩
  rw [MergedStream.setPosition, hnone]

/-- What a seek that has a target assigns is its target. -/
theorem merged_target {m : MergedStream} {offset value : Int} {origin : SeekOrigin}
    (h : m.seekTarget offset origin = some value) :
    merged.target m offset origin = value := by
  cases origin with
  | begin => exact Option.some.inj h
  | fromEnd => exact Option.some.inj h
  | current =>
    obtain ⟨p, hp, rfl⟩ := Option.map_eq_some_iff.1 h
    change ((m.position.map Int.ofNat).getD 0) + offset = p + offset
    rw [hp]
    rfl

/-- Behind its assignment, a seek returns the position if a part is current. -/
theorem merged_seek_some {m : MergedStream} {offset value p : Int} {origin : SeekOrigin}
    (h : m.seekTarget offset origin = some value)
    (hp : merged.position (m.setPosition value) = some p) :
    merged.seek m offset origin = .returned p (m.setPosition value) := by
  obtain ⟨q, hq, rfl⟩ := Option.map_eq_some_iff.1 hp
  change MergedStream.seek m offset origin = _
  rw [MergedStream.seek, h]
  dsimp only
  rw [hq]
  rfl

/-- Else it throws. -/
theorem merged_seek_lost {m : MergedStream} {offset value : Int} {origin : SeekOrigin}
    (h : m.seekTarget offset origin = some value)
    (hp : merged.position (m.setPosition value) = none) :
    merged.seek m offset origin = .threw (m.setPosition value) := by
  have hq := Option.map_eq_none_iff.1 hp
  change MergedStream.seek m offset origin = _
  rw [MergedStream.seek, h]
  dsimp only
  rw [hq]

/-- A seek without a current part to count from throws. -/
theorem merged_seek_none {m : MergedStream} {offset : Int} {origin : SeekOrigin}
    (h : m.seekTarget offset origin = none) : merged.seek m offset origin = .threw m := by
  change MergedStream.seek m offset origin = _
  rw [MergedStream.seek, h]

/-- Behind an assignment of the target, the seek has reached it exactly when a
part holds it or the stream stood there. -/
theorem merged_reaches_iff {m : MergedStream} {offset value : Int} {origin : SeekOrigin}
    (h : m.seekTarget offset origin = some value) :
    merged.Reaches m offset origin ↔ Held m value ∨ merged.position m = some value := by
  have htarget := merged_target h
  by_cases hheld : Held m value
  · have hposition := setPosition_of_held hheld
    have hseek := merged_seek_some h hposition
    exact iff_of_true ((Adapter.reaches_iff_of_returned hseek hposition).2 htarget.symm)
      (Or.inl hheld)
  · have hsame := setPosition_of_not_held hheld
    rw [or_iff_right hheld]
    cases hposition : merged.position m with
    | none =>
      have hseek := merged_seek_lost h (by rw [hsame, hposition])
      exact iff_of_false (Adapter.not_reaches_of_threw hseek) (by simp)
    | some p =>
      have hseek := merged_seek_some h (by rw [hsame, hposition])
      rw [hsame] at hseek
      rw [Adapter.reaches_iff_of_returned hseek hposition, htarget, Option.some.injEq]

/-- A `MergedStream` that throws has not moved. -/
theorem merged_keepsOnThrow (m : MergedStream) (offset : Int) (origin : SeekOrigin) :
    merged.KeepsOnThrow m offset origin := by
  cases h : m.seekTarget offset origin with
  | none => exact Adapter.keepsOnThrow_of_unchanged (merged_seek_none h)
  | some value =>
    cases hposition : merged.position (m.setPosition value) with
    | some p => exact Adapter.keepsOnThrow_of_returned (merged_seek_some h hposition)
    | none =>
      have hheld : ¬ Held m value := by
        intro hheld
        rw [setPosition_of_held hheld] at hposition
        cases hposition
      have hseek := merged_seek_lost h hposition
      rw [setPosition_of_not_held hheld] at hseek
      exact Adapter.keepsOnThrow_of_unchanged hseek

theorem merged_contract_iff (m : MergedStream) (offset : Int) (origin : SeekOrigin) :
    merged.Contract m offset origin ↔ MergedSeeks m offset origin := by
  rw [Adapter.contract_of_safe fun _ => merged_keepsOnThrow m offset origin, MergedSeeks]
  refine forall_congr' fun hin => ?_
  cases h : m.seekTarget offset origin with
  | none =>
    refine iff_of_false (Adapter.not_reaches_of_threw (merged_seek_none h)) ?_
    rintro ⟨value, hvalue, -⟩
    cases hvalue
  | some value =>
    rw [merged_reaches_iff h]
    simp

/-! ## The buffered input -/

/-- `ReadSeekableStream` over its input. -/
def readSeekable : Adapter ReadSeekableStream Nat where
  length := fun r => r.length
  position := fun r => some r.readPosition
  base := fun r => r.input.position
  seek := fun r offset origin =>
    .returned (r.seek offset origin).readPosition (r.seek offset origin)

/-- When a seek of `ReadSeekableStream` keeps the contract: not from the end of
a stream that reports another length than its input has. -/
def ReadSeekableSeeks (r : ReadSeekableStream) (offset : Int) (origin : SeekOrigin) : Prop :=
  readSeekable.InRange r offset origin → origin = .fromEnd →
    r.length = r.input.content.length

theorem readSeekable_contract_iff (r : ReadSeekableStream) (offset : Int)
    (origin : SeekOrigin) :
    readSeekable.Contract r offset origin ↔ ReadSeekableSeeks r offset origin := by
  have hseek : readSeekable.seek r offset origin =
      .returned (r.seekTarget offset origin) (r.seek offset origin) := rfl
  rw [Adapter.contract_of_safe fun _ => Adapter.keepsOnThrow_of_returned hseek,
    ReadSeekableSeeks]
  refine forall_congr' fun hin => ?_
  rw [Adapter.reaches_iff_of_returned hseek rfl]
  cases origin with
  | begin => exact iff_of_true rfl (fun h => by cases h)
  | current => exact iff_of_true rfl (fun h => by cases h)
  | fromEnd =>
    change (r.input.content.length : Int) + offset = r.length + offset ↔ _
    simp only [forall_const]
    omega

/-! ## The block of memory -/

/-- `UnsafeMemoryStream`, which has no base. -/
def unsafeMemory : Adapter UnsafeMemoryStream Unit where
  length := UnsafeMemoryStream.length
  position := fun u => some u.position
  base := fun _ => ()
  seek := UnsafeMemoryStream.seek

/-- When a seek of `UnsafeMemoryStream` keeps the contract: with an offset that
is not negative, and from the end only without one. -/
def UnsafeMemorySeeks (u : UnsafeMemoryStream) (offset : Int) (origin : SeekOrigin) : Prop :=
  unsafeMemory.InRange u offset origin →
    0 ≤ offset ∧ offset ≤ u.length ∧ (origin = .fromEnd → offset = 0)

/-- What the seek does: it throws and changes nothing, or returns where it is. -/
theorem unsafeMemory_seek_cases (u : UnsafeMemoryStream) (offset : Int)
    (origin : SeekOrigin) :
    unsafeMemory.seek u offset origin = .threw u ∨
      ∃ p, unsafeMemory.seek u offset origin = .returned p (u.setPosition p) := by
  change UnsafeMemoryStream.seek u offset origin = _ ∨
    ∃ p, UnsafeMemoryStream.seek u offset origin = _
  unfold UnsafeMemoryStream.seek
  split
  · exact Or.inl rfl
  · cases origin with
    | begin => exact Or.inr ⟨_, rfl⟩
    | current =>
      dsimp only
      split
      · exact Or.inl rfl
      · exact Or.inr ⟨_, rfl⟩
    | fromEnd =>
      dsimp only
      split
      · exact Or.inl rfl
      · exact Or.inr ⟨_, rfl⟩

theorem unsafeMemory_contract_iff (u : UnsafeMemoryStream) (offset : Int)
    (origin : SeekOrigin) :
    unsafeMemory.Contract u offset origin ↔ UnsafeMemorySeeks u offset origin := by
  have hsafe : unsafeMemory.KeepsOnThrow u offset origin := by
    rcases unsafeMemory_seek_cases u offset origin with hthrew | ⟨p, hreturned⟩
    · exact Adapter.keepsOnThrow_of_unchanged hthrew
    · exact Adapter.keepsOnThrow_of_returned hreturned
  rw [Adapter.contract_of_safe fun _ => hsafe, UnsafeMemorySeeks]
  refine forall_congr' fun hin => ?_
  by_cases hrefused : offset < 0 ∨ offset > u.length
  · have hthrew : unsafeMemory.seek u offset origin = .threw u := if_pos hrefused
    exact iff_of_false (Adapter.not_reaches_of_threw hthrew) fun hseeks => by omega
  · have hallowed : 0 ≤ offset ∧ offset ≤ u.length := by omega
    rw [← and_assoc, and_iff_right hallowed]
    cases origin with
    | begin =>
      have hreturned : unsafeMemory.seek u offset .begin =
          .returned offset (u.setPosition offset) := if_neg hrefused
      exact iff_of_true ((Adapter.reaches_iff_of_returned hreturned rfl).2 rfl)
        fun h => by cases h
    | current =>
      have hhi : u.position + offset ≤ u.length := hin.2
      have hreturned : unsafeMemory.seek u offset .current =
          .returned (u.position + offset) (u.setPosition (u.position + offset)) :=
        (if_neg hrefused).trans (if_neg (by omega))
      exact iff_of_true ((Adapter.reaches_iff_of_returned hreturned rfl).2 rfl)
        fun h => by cases h
    | fromEnd =>
      have hreturned : unsafeMemory.seek u offset .fromEnd =
          .returned (u.length - offset) (u.setPosition (u.length - offset)) :=
        (if_neg hrefused).trans (if_neg (by omega))
      rw [Adapter.reaches_iff_of_returned hreturned rfl]
      change u.length - offset = u.length + offset ↔ _
      simp only [forall_const]
      omega

/-! ## All adapters -/

/-- When each stream adapter keeps the contract of seeking, in any state, with any
offset from any origin. -/
theorem seek_contract_iff (offset : Int) (origin : SeekOrigin) :
    (∀ (base : VirtualStream.Base) (s : VirtualStream.Opened),
      (virtual base).Contract s offset origin ↔ VirtualSeeks base s offset origin) ∧
    (∀ m : MergedStream, merged.Contract m offset origin ↔ MergedSeeks m offset origin) ∧
    (∀ r : ReadSeekableStream,
      readSeekable.Contract r offset origin ↔ ReadSeekableSeeks r offset origin) ∧
    ∀ u : UnsafeMemoryStream,
      unsafeMemory.Contract u offset origin ↔ UnsafeMemorySeeks u offset origin :=
  ⟨fun base s => virtual_contract_iff base s offset origin,
    fun m => merged_contract_iff m offset origin,
    fun r => readSeekable_contract_iff r offset origin,
    fun u => unsafeMemory_contract_iff u offset origin⟩

/-- A base of twelve bytes that can be set to its own positions. -/
def twelveBytes : VirtualStream.Base where
  length := 12
  accepts := fun p => decide (0 ≤ p) && decide (p ≤ 12)

/-- A window of ten bytes at its start. -/
def tenWindow : VirtualStream.Opened where
  window := VirtualStream.create 0 10
  forceAmount := false
  basePosition := 0

/-- Two parts of two bytes, at their start. -/
def twoParts : MergedStream where
  parts := [⟨⟨[1, 2], 0⟩, 2, 0⟩, ⟨⟨[3, 4], 0⟩, 2, 2⟩]
  totalLen := 4
  sIndex := 0

/-- A stream that reports two bytes less than its input has. -/
def reportingStream : ReadSeekableStream where
  buffer := []
  input := ⟨[1, 2, 3, 4], 0⟩
  canSeek := false
  reportLength := some 2
  readPosition := 0
  inputPosition := 0

/-- A block of four bytes, read to the middle. -/
def halfRead : UnsafeMemoryStream where
  memory := [1, 2, 3, 4]
  position := 2

/-- Each adapter misses a target in its range: the window and the block one
before their end, the merged parts and the reporting stream their end. -/
theorem seek_targets_missed :
    ¬ (virtual twelveBytes).Contract tenWindow (-1) .fromEnd ∧
    ¬ merged.Contract twoParts 0 .fromEnd ∧
    ¬ readSeekable.Contract reportingStream 0 .fromEnd ∧
    ¬ unsafeMemory.Contract halfRead (-1) .fromEnd := by
  refine ⟨?_, ?_, ?_, ?_⟩
  · rw [virtual_contract_iff]
    intro h
    exact absurd (h.1 (by decide) (by decide)).1 (by decide)
  · rw [merged_contract_iff]
    intro h
    obtain ⟨value, hvalue, hreached⟩ := h (by decide)
    cases hvalue
    rcases hreached with ⟨part, hmem, hlo, hhi⟩ | hposition
    · have hall : ∀ part ∈ twoParts.parts, ¬ (4 : Int) < part.offset + part.size := by
        decide
      exact hall part hmem hhi
    · exact absurd hposition (by decide)
  · rw [readSeekable_contract_iff]
    intro h
    exact absurd (h (by decide) rfl) (by decide)
  · rw [unsafeMemory_contract_iff]
    intro h
    exact absurd (h (by decide)).1 (by decide)

end DirectPackageInstaller.SeekContract
