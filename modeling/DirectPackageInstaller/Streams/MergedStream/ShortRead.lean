import DirectPackageInstaller.Streams.MergedStream

/-!
# How far one read of the parts gets

A read of a `MergedStream` goes on in the next part only if it has exhausted
the current one.  So it gets to a byte exactly if every part in front of the
byte, and the part of the byte itself, delivers all that lies in between in one
read.

* `Covers` says so for one part, `Reaches` for all of them.
* `readLoop_reaches` is the induction along the parts.
-/

namespace DirectPackageInstaller

namespace MergedStream

/-- A part of the given offset and size that delivers at most `wish` bytes, but
at least one, gets from `p` to the end of byte `q`, as far as they are its own. -/
def Covers (offset size wish p q : Nat) : Prop :=
  min (q + 1) (offset + size) - max p offset ≤ max 1 wish

/-- All parts get from `p` to the end of byte `q`. -/
def Reaches (parts : List Part) (wish : Nat → Nat) (p q : Nat) : Prop :=
  ∀ i part, parts[i]? = some part → Covers part.offset part.size (wish i) p q

/-- Where the streams stand does not matter. -/
theorem reaches_set {parts : List Part} {i : Nat} {part : Part}
    (hi : parts[i]? = some part) (stream : Cursor UInt8) {wish : Nat → Nat} {p q : Nat} :
    Reaches (parts.set i { part with stream }) wish p q ↔ Reaches parts wish p q := by
  constructor
  · intro h j other hj
    by_cases heq : j = i
    · subst heq
      rw [hi, Option.some.injEq] at hj
      subst hj
      exact h j { part with stream } (getElem?_set_row hi _)
    · exact h j other (by rw [List.getElem?_set_ne (Ne.symm heq)]; exact hj)
  · intro h j other hj
    by_cases heq : j = i
    · subst heq
      rw [getElem?_set_row hi, Option.some.injEq] at hj
      subst hj
      exact h j part hi
    · rw [List.getElem?_set_ne (Ne.symm heq)] at hj
      exact h j other hj

theorem reaches_setPosition (m : MergedStream) (value : Int) {wish : Nat → Nat}
    {p q : Nat} :
    Reaches (m.setPosition value).parts wish p q ↔ Reaches m.parts wish p q := by
  unfold setPosition
  split
  · exact Iff.rfl
  · rename_i i _
    cases hi : m.parts[i]? with
    | none => exact Iff.rfl
    | some part => exact reaches_set hi _

/-- A part that lies in front of `p` has nothing to deliver. -/
theorem covers_of_le {offset size wish p q : Nat} (h : offset + size ≤ p) :
    Covers offset size wish p q := by
  unfold Covers
  omega

/-- Nor has one that starts behind `q`. -/
theorem covers_of_lt {offset size wish p q : Nat} (h : q < offset) :
    Covers offset size wish p q := by
  unfold Covers
  omega

/-- For a part behind both places it does not matter where the read starts. -/
theorem covers_congr {offset size wish p p' q : Nat} (h : p ≤ offset) (h' : p' ≤ offset) :
    Covers offset size wish p q ↔ Covers offset size wish p' q := by
  rw [Covers, Covers, Nat.max_eq_right h, Nat.max_eq_right h']

/-- Only the part that contains `p` and those behind it matter. -/
theorem reaches_iff_from {parts : List Part} {offset i p q : Nat} {part : Part}
    {wish : Nat → Nat} (h : Offsets parts offset) (hi : parts[i]? = some part)
    (hp : part.offset ≤ p) :
    Reaches parts wish p q ↔ Covers part.offset part.size (wish i) p q ∧
      ∀ j > i, ∀ other, parts[j]? = some other →
        Covers other.offset other.size (wish j) p q := by
  constructor
  · intro hall
    exact ⟨hall i part hi, fun j _ other hj => hall j other hj⟩
  · intro hboth j other hj
    obtain ⟨hpart, hbehind⟩ := hboth
    rcases Nat.lt_trichotomy j i with hlt | heq | hgt
    · have hle := h.offset_le hj hi hlt
      exact covers_of_le (by omega)
    · subst heq
      rw [hi, Option.some.injEq] at hj
      exact hj ▸ hpart
    · exact hbehind j hgt other hj

/-- Only the bounds of the parts matter. -/
theorem reaches_of_bounds {parts parts' : List Part} {wish : Nat → Nat} {p q : Nat}
    (h : parts'.map partBounds = parts.map partBounds) (hreach : Reaches parts wish p q) :
    Reaches parts' wish p q := by
  intro i part hi
  have hbounds : (parts.map partBounds)[i]? = some (partBounds part) := by
    rw [← h, List.getElem?_map, hi]
    rfl
  rw [List.getElem?_map] at hbounds
  obtain ⟨other, hother, heq⟩ := Option.map_eq_some_iff.1 hbounds
  rw [partBounds, partBounds, Prod.mk.injEq] at heq
  rw [← heq.1, ← heq.2]
  exact hreach i other hother

theorem reaches_congr {parts parts' : List Part} {wish : Nat → Nat} {p q : Nat}
    (h : parts'.map partBounds = parts.map partBounds) :
    Reaches parts' wish p q ↔ Reaches parts wish p q :=
  ⟨reaches_of_bounds h.symm, reaches_of_bounds h⟩

section Round

variable {wish : Nat → Nat} {m m' : MergedStream} {count p : Nat} {part : Part}
  {readed : List UInt8}

/-- The parts behind the current one start where it ends. -/
theorem Round.le_offset (hround : Round wish m count p part readed m') (h : Inv m) :
    ∀ j > m.sIndex, ∀ other, m.parts[j]? = some other →
      part.offset + part.size ≤ other.offset :=
  fun _ hj _ hother => h.layout.offsets.offset_le hround.current hother hj

/-- What a round has read is reached. -/
theorem Round.reaches (hround : Round wish m count p part readed m') (h : Inv m) {q : Nat}
    (hq : q < p + readed.length) : Reaches m.parts wish p q := by
  have hlength := hround.length_eq
  have hsize := hround.size
  have hposition := hround.position
  have hinside := (h.layout.split hround.current).2.1
  rw [Cursor.readSize] at hlength
  rw [reaches_iff_from h.layout.offsets hround.current (by omega)]
  constructor
  · unfold Covers
    omega
  · intro j hj other hother
    have hle := hround.le_offset h j hj other hother
    exact covers_of_lt (by omega)

/-- Behind the last round, nothing else is. -/
theorem Ends.reaches_iff (hends : Ends wish m count p part readed m')
    (hround : Round wish m count p part readed m') (h : Inv m)
    (hcount : p + count ≤ (content m.parts).length) {q : Nat} (hhi : q < p + count) :
    q < p + readed.length ↔ Reaches m.parts wish p q := by
  constructor
  · exact hround.reaches h
  · intro hreach
    have hlength := hround.length_eq
    have hsize := hround.size
    have hposition := hround.position
    rw [Cursor.readSize] at hlength
    rcases hends.done with hinside | hend | hall
    · have hcovers := hreach m.sIndex part hround.current
      unfold Covers at hcovers
      omega
    · omega
    · omega

/-- Where the loop goes on, the rest of the part has come. -/
theorem GoesOn.reaches_iff (hgoes : GoesOn wish m count p part readed m')
    (hround : Round wish m count p part readed m') (h : Inv m) {q : Nat} :
    Reaches m'.parts wish (p + readed.length) q ↔ Reaches m.parts wish p q := by
  have hlength := hround.length_eq
  have hsize := hround.size
  have hposition := hround.position
  have hexhausted := hgoes.exhausted
  rw [Cursor.readSize] at hlength
  have hcovers : Covers part.offset part.size (wish m.sIndex) p q := by
    unfold Covers
    omega
  -- from the border on, the parts behind it have the same to deliver
  have hsame : ∀ j > m.sIndex, ∀ other, m.parts[j]? = some other →
      (Covers other.offset other.size (wish j) (p + readed.length) q ↔
        Covers other.offset other.size (wish j) p q) := by
    intro j hj other hother
    have hle := hround.le_offset h j hj other hother
    exact covers_congr (by omega) (by omega)
  rw [reaches_congr hround.bounds,
    reaches_iff_from h.layout.offsets hround.current (show part.offset ≤ p by omega),
    reaches_iff_from h.layout.offsets hround.current
      (show part.offset ≤ p + readed.length by omega)]
  constructor
  · intro hall
    exact ⟨hcovers, fun j hj other hother =>
      (hsame j hj other hother).1 (hall.2 j hj other hother)⟩
  · intro hall
    exact ⟨covers_of_le (by omega), fun j hj other hother =>
      (hsame j hj other hother).2 (hall.2 j hj other hother)⟩

end Round

/-- One read gets to byte `q` exactly if all parts get to it, by induction along
the parts that it goes through. -/
theorem readLoop_reaches (wish : Nat → Nat) :
    ∀ (fuel : Nat) (m : MergedStream) (count p : Nat), Inv m → m.position = some p →
      m.parts.length - m.sIndex ≤ fuel → p + count ≤ (content m.parts).length →
      ∀ bytes m', readLoop wish fuel m count = some (bytes, m') →
        ∀ q, p ≤ q → q < p + count →
          (q < p + bytes.length ↔ Reaches m.parts wish p q) := by
  intro fuel
  induction fuel with
  | zero =>
    intro m count p h _ hfuel
    have := h.current
    omega
  | succ fuel ih =>
    intro m count p h hp hfuel hcount bytes m'' hloop q hlo hhi
    obtain ⟨part, readed, m', hround, hends | hgoes⟩ := exists_round wish h count hp
    · rw [hends.loop_eq] at hloop
      cases hloop
      exact hends.reaches_iff hround h hcount hhi
    · rw [hgoes.loop_eq] at hloop
      obtain ⟨⟨more, m₂⟩, hloop', heq⟩ := Option.map_eq_some_iff.1 hloop
      cases heq
      have hlength := congrArg List.length hround.bounds
      have hindex := hgoes.index
      have hlt := hgoes.lt
      rw [List.length_map, List.length_map] at hlength
      have hih := ih m' (count - readed.length) _ hround.moved.inv hround.moved.position
        (by omega) (by rw [hround.moved.content_eq]; omega) more m₂ hloop' q
      rw [List.length_append]
      by_cases hq : q < p + readed.length
      · exact iff_of_true (by omega) (hround.reaches h hq)
      · rw [← Nat.add_assoc, hih (by omega) (by omega), hgoes.reaches_iff hround h]

end MergedStream

end DirectPackageInstaller
