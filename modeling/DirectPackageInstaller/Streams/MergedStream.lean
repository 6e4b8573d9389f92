import DirectPackageInstaller.Lib.Cursor
import DirectPackageInstaller.Lib.Seeking
import DirectPackageInstaller.Lib.Table
import DirectPackageInstaller.Lib.Transition
import Mathlib.Algebra.Ring.Nat

/-!
# Several streams as one

`MergedStream` shows a list of part streams as their concatenation.  It keeps
the index of the current part; its position is the offset of that part plus
the position of the part stream.  A read that exhausts the current part moves
on to the next one, rewinds it and goes on reading there.

The three arrays of the source (`Streams`, `PartSize`, `PartOffset`) have one
row for each part here.

* `Inv` says that the offsets are the running sums of the sizes and that the
  sizes are the lengths of the streams.  The positions of the parts that are
  not current are arbitrary: they are stale after a seek.
* `exists_round` is one round of the loop, and `readLoop_reads` the induction along
  the parts.
* `merged_is_concatenation`: after any seeks and reads, a read delivers what
  a read of the concatenation delivers at the same position.
-/

namespace DirectPackageInstaller

open Transition Seeking

/-- One row of `Streams`, `PartSize` and `PartOffset`. -/
structure Part where
  stream : Cursor UInt8
  size : Nat
  offset : Nat
deriving DecidableEq, Repr

/-- The fields of `MergedStream`. -/
structure MergedStream where
  parts : List Part
  totalLen : Nat
  sIndex : Nat
deriving DecidableEq, Repr

namespace MergedStream

/-- The loop of the constructors from the row with the given offset on.  `none`
is the exception for an array of sizes that is too short. -/
def partsLoop : List (Cursor UInt8) → List Nat → Nat → Option (List Part)
  | [], _, _ => some []
  | _ :: _, [], _ => none
  | stream :: streams, size :: sizes, offset =>
    (partsLoop streams sizes (offset + size)).map
      ({ stream, size, offset } :: ·)

/-- `new MergedStream(Streams, Sizes)`. -/
def create (streams : List (Cursor UInt8)) (sizes : List Nat) :
    Option MergedStream :=
  (partsLoop streams sizes 0).map fun parts =>
    { parts, totalLen := (parts.map Part.size).sum, sIndex := 0 }

/-- `Length`. -/
def length (m : MergedStream) : Nat := m.totalLen

/-- `Position`, or `none` when there is no current part. -/
def position (m : MergedStream) : Option Nat :=
  m.parts[m.sIndex]?.map fun part => part.offset + part.stream.position

/-- `Position = value`.  A value that lies in no part changes nothing. -/
def setPosition (m : MergedStream) (value : Int) : MergedStream :=
  match m.parts.findIdx? fun part =>
      decide (value ≥ part.offset) && decide (value < part.offset + part.size) with
  | none => m
  | some i =>
    match m.parts[i]? with
    | none => m
    | some part =>
      { m with
        sIndex := i
        parts := m.parts.set i { part with
          stream := { part.stream with
            position := (value - part.offset).toNat } } }

/-- What `Seek(offset, origin)` assigns to `Position`. -/
def seekTarget (m : MergedStream) (offset : Int) : SeekOrigin → Option Int
  | .begin => some offset
  | .current => m.position.map fun p : Nat => (p : Int) + offset
  | .fromEnd => some (m.length + offset)

/-- `Seek(offset, origin)`, which returns the position behind the assignment. -/
def seek (m : MergedStream) (offset : Int) (origin : SeekOrigin) :
    SeekOutcome MergedStream :=
  match m.seekTarget offset origin with
  | none => .threw m
  | some value =>
    let m := m.setPosition value
    match m.position with
    | none => .threw m
    | some p => .returned p m

/-- `Read(buffer, offset, count)`: the bytes that it delivers and the state
behind it.  `wish i` resolves how short the read of part `i` is.  The recursion
of the source goes from part to part, so one unit of fuel a part is enough.
`none` is the exception for a missing part. -/
def readLoop (wish : Nat → Nat) :
    Nat → MergedStream → Nat → Option (List UInt8 × MergedStream)
  | 0, _, _ => none
  | fuel + 1, m, count =>
    match m.parts[m.sIndex]? with
    | none => none
    | some part =>
      let (readed, stream) := part.stream.read count (wish m.sIndex)
      let m := { m with parts := m.parts.set m.sIndex { part with stream } }
      if part.offset + stream.position ≥ part.offset + part.size then
        match m.parts[m.sIndex + 1]? with
        | none => some (readed, m)
        | some next =>
          let m := { m with
            sIndex := m.sIndex + 1
            parts := m.parts.set (m.sIndex + 1)
              { next with stream := { next.stream with position := 0 } } }
          if readed.length < count then
            (readLoop wish fuel m (count - readed.length)).map
              fun (more, m) => (readed ++ more, m)
          else some (readed, m)
      else some (readed, m)

def read (m : MergedStream) (count : Nat) (wish : Nat → Nat) :
    Option (List UInt8 × MergedStream) :=
  readLoop wish m.parts.length m count

/-! ## The layout of the parts -/

/-- The rows lie one behind the other from `offset` on. -/
def Offsets : List Part → Nat → Prop
  | [], _ => True
  | part :: parts, offset =>
    part.offset = offset ∧ Offsets parts (offset + part.size)

theorem offsets_append {parts more : List Part} {offset : Nat} :
    Offsets (parts ++ more) offset ↔
      Offsets parts offset ∧ Offsets more (offset + (parts.map Part.size).sum) := by
  induction parts generalizing offset with
  | nil => simp [Offsets]
  | cons part parts ih => simp [Offsets, ih, Nat.add_assoc, and_assoc]

theorem Offsets.offset_eq {parts : List Part} {offset : Nat}
    (h : Offsets parts offset) {i : Nat} {part : Part} (hi : parts[i]? = some part) :
    part.offset = offset + ((parts.map Part.size).take i).sum := by
  induction parts generalizing offset i with
  | nil => cases hi
  | cons first parts ih =>
    cases i with
    | zero =>
      rw [List.getElem?_cons_zero, Option.some.injEq] at hi
      subst hi
      simpa using h.1
    | succ i =>
      rw [List.getElem?_cons_succ] at hi
      have hoff := ih h.2 hi
      simp only [List.map_cons, List.take_succ_cons, List.sum_cons]
      omega

/-- Every position in the rows lies in exactly one of them. -/
theorem Offsets.existsUnique_part {parts : List Part} {offset : Nat}
    (h : Offsets parts offset) {p : Nat} (hlo : offset ≤ p)
    (hhi : p < offset + (parts.map Part.size).sum) :
    ∃! i : Nat, ∃ part : Part, parts[i]? = some part ∧
      part.offset ≤ p ∧ p < part.offset + part.size := by
  induction parts generalizing offset with
  | nil =>
    simp only [List.map_nil, List.sum_nil] at hhi
    omega
  | cons first parts ih =>
    have hoff := h.1
    rw [List.map_cons, List.sum_cons] at hhi
    by_cases hin : p < offset + first.size
    · -- the first row, and the rows behind it start behind the position
      refine ⟨0, ⟨first, rfl, by omega, by omega⟩, ?_⟩
      intro i ⟨part, hi, hle, _⟩
      cases i with
      | zero => rfl
      | succ i =>
        rw [List.getElem?_cons_succ] at hi
        have := h.2.offset_eq hi
        omega
    · obtain ⟨i, ⟨part, hi, hpart⟩, hunique⟩ := ih h.2 (by omega) (by omega)
      refine ⟨i + 1, ⟨part, hi, hpart⟩, ?_⟩
      intro j ⟨other, hj, hother⟩
      cases j with
      | zero =>
        rw [List.getElem?_cons_zero, Option.some.injEq] at hj
        subst hj
        omega
      | succ j =>
        rw [List.getElem?_cons_succ] at hj
        rw [hunique j ⟨other, hj, hother⟩]

/-- A row starts behind the rows in front of it. -/
theorem Offsets.offset_le {parts : List Part} {offset i j : Nat} {part other : Part}
    (h : Offsets parts offset) (hi : parts[i]? = some part) (hj : parts[j]? = some other)
    (hij : i < j) : part.offset + part.size ≤ other.offset := by
  induction parts generalizing offset i j with
  | nil => cases hi
  | cons first parts ih =>
    obtain ⟨j, rfl⟩ : ∃ n, j = n + 1 := ⟨j - 1, by omega⟩
    rw [List.getElem?_cons_succ] at hj
    cases i with
    | zero =>
      rw [List.getElem?_cons_zero, Option.some.injEq] at hi
      subst hi
      have hstart := h.1
      have hoff := h.2.offset_eq hj
      omega
    | succ i =>
      rw [List.getElem?_cons_succ] at hi
      exact ih h.2 hi hj (by omega)

/-- The parts lie one behind the other from `offset` on, each with its whole
stream, and no stream stands behind its end. -/
def Layout : List Part → Nat → Prop
  | [], _ => True
  | part :: parts, offset =>
    part.offset = offset ∧ part.stream.content.length = part.size ∧
      part.stream.position ≤ part.size ∧ Layout parts (offset + part.size)

/-- The concatenation of the part streams. -/
def content (parts : List Part) : List UInt8 :=
  (parts.map fun part => part.stream.content).flatten

/-- What the constructors establish and every operation keeps. -/
structure Inv (m : MergedStream) : Prop where
  layout : Layout m.parts 0
  totalLen : m.totalLen = (m.parts.map Part.size).sum
  current : m.sIndex < m.parts.length

theorem Layout.offsets {parts : List Part} {offset : Nat} (h : Layout parts offset) :
    Offsets parts offset := by
  induction parts generalizing offset with
  | nil => trivial
  | cons part parts ih => exact ⟨h.1, ih h.2.2.2⟩

theorem Layout.content_length {parts : List Part} {offset : Nat}
    (h : Layout parts offset) :
    (content parts).length = (parts.map Part.size).sum := by
  induction parts generalizing offset with
  | nil => rfl
  | cons part parts ih =>
    obtain ⟨-, hsize, -, hrest⟩ := h
    have htail := ih hrest
    unfold content at htail ⊢
    simp only [List.map_cons, List.flatten_cons, List.length_append,
      List.sum_cons, hsize, htail]

/-- A part and what lies before and behind it. -/
theorem Layout.split {parts : List Part} {offset i : Nat} {part : Part}
    (h : Layout parts offset) (hi : parts[i]? = some part) :
    part.stream.content.length = part.size ∧
      part.stream.position ≤ part.size ∧
      ∃ pre post, content parts = pre ++ part.stream.content ++ post ∧
        offset + pre.length = part.offset ∧
        (∀ next, parts[i + 1]? = some next →
          next.offset = part.offset + part.size) ∧
        (parts[i + 1]? = none → post = []) := by
  induction parts generalizing offset i with
  | nil => cases hi
  | cons first parts ih =>
    obtain ⟨hoff, hsize, hpos, hrest⟩ := h
    cases i with
    | zero =>
      rw [List.getElem?_cons_zero, Option.some.injEq] at hi
      subst hi
      refine ⟨hsize, hpos, [], content parts, by simp [content], by simpa using
        hoff.symm, ?_, ?_⟩
      · intro next hnext
        cases parts with
        | nil => cases hnext
        | cons second parts =>
          simp only [List.getElem?_cons_succ, List.getElem?_cons_zero,
            Option.some.injEq] at hnext
          subst hnext
          rw [hrest.1, hoff]
      · intro hnone
        cases parts with
        | nil => rfl
        | cons second parts => simp at hnone
    | succ i =>
      rw [List.getElem?_cons_succ] at hi
      obtain ⟨hs, hp, pre, post, hcontent, hpre, hnext, hlast⟩ := ih hrest hi
      refine ⟨hs, hp, first.stream.content ++ pre, post, ?_, ?_, hnext, hlast⟩
      · unfold content at hcontent ⊢
        simp only [List.map_cons, List.flatten_cons, hcontent,
          List.append_assoc]
      · rw [List.length_append, hsize, ← hpre]
        omega

/-- A part whose stream has moved keeps the layout. -/
theorem Layout.set {parts : List Part} {offset i : Nat} {part new : Part}
    (h : Layout parts offset) (hi : parts[i]? = some part)
    (hoff : new.offset = part.offset) (hsize : new.size = part.size)
    (hcontent : new.stream.content = part.stream.content)
    (hpos : new.stream.position ≤ part.size) :
    Layout (parts.set i new) offset := by
  induction parts generalizing offset i with
  | nil => cases hi
  | cons first parts ih =>
    obtain ⟨h1, h2, h3, hrest⟩ := h
    cases i with
    | zero =>
      rw [List.getElem?_cons_zero, Option.some.injEq] at hi
      subst hi
      exact ⟨hoff.trans h1, by rw [hcontent, hsize, h2], hsize ▸ hpos,
        hsize ▸ hrest⟩
    | succ i =>
      rw [List.getElem?_cons_succ] at hi
      exact ⟨h1, h2, h3, ih hrest hi⟩

theorem content_set {parts : List Part} {i : Nat} {part new : Part}
    (hi : parts[i]? = some part)
    (hcontent : new.stream.content = part.stream.content) :
    content (parts.set i new) = content parts := by
  unfold content
  rw [Table.map_set_of_eq hi hcontent]

theorem sizes_set {parts : List Part} {i : Nat} {part new : Part}
    (hi : parts[i]? = some part) (hsize : new.size = part.size) :
    (parts.set i new).map Part.size = parts.map Part.size :=
  Table.map_set_of_eq hi hsize

/-! ## One read -/

/-- The row of a part after its stream has been replaced. -/
theorem getElem?_set_row {parts : List Part} {i : Nat} {part : Part}
    (hi : parts[i]? = some part) (new : Part) :
    (parts.set i new)[i]? = some new := by
  rw [Table.getElem?_set_of_some hi, if_pos rfl]

/-- `m'` shows the same bytes as `m` and stands at `p`. -/
structure Moved (m m' : MergedStream) (p : Nat) : Prop where
  inv : Inv m'
  content_eq : content m'.parts = content m.parts
  totalLen_eq : m'.totalLen = m.totalLen
  position : m'.position = some p

theorem Moved.trans {m m' m'' : MergedStream} {p q : Nat} (h : Moved m m' p)
    (h' : Moved m' m'' q) : Moved m m'' q :=
  ⟨h'.inv, h'.content_eq.trans h.content_eq, h'.totalLen_eq.trans h.totalLen_eq,
    h'.position⟩

/-- A read of the current part, and the row that it leaves. -/
theorem Inv.read_part {m : MergedStream} (h : Inv m) {part : Part}
    (hi : m.parts[m.sIndex]? = some part) {count : Nat} {readed : List UInt8}
    {stream : Cursor UInt8} (hread : part.stream.Reads count readed stream) :
    Moved m { m with parts := m.parts.set m.sIndex { part with stream } }
      (part.offset + part.stream.position + readed.length) ∧
      Cursor.Delivers ⟨content m.parts, part.offset + part.stream.position⟩
        count readed
        ⟨content m.parts, part.offset + part.stream.position + readed.length⟩ := by
  obtain ⟨hsize, hpos, pre, post, hcontent, hpre, -⟩ := h.layout.split hi
  have hstream := hread.next
  have hlen := congrArg List.length hread.elems_eq
  rw [window_length] at hlen
  have hcont : stream.content = part.stream.content := by rw [hstream]; rfl
  have hnew : stream.position = part.stream.position + readed.length := by
    rw [hstream]
    rfl
  refine ⟨⟨⟨?_, ?_, ?_⟩, content_set hi hcont, rfl, ?_⟩, ?_⟩
  · exact h.layout.set hi rfl rfl hcont (by dsimp only; omega)
  · rw [h.totalLen]
    dsimp only
    rw [sizes_set hi (by rfl)]
  · dsimp only
    rw [List.length_set]
    exact h.current
  · rw [position, getElem?_set_row hi]
    simp [hnew, Nat.add_assoc]
  · have hin : part.stream.position ≤ part.stream.content.length := by omega
    rw [hcontent, ← hpre, Nat.zero_add]
    exact hread.toDelivers.embed pre post hin

/-- The move to the next part, which stands at the end of the current one. -/
theorem Inv.next_part {m : MergedStream} (h : Inv m) {part next : Part}
    (hi : m.parts[m.sIndex]? = some part)
    (hend : part.stream.position = part.size)
    (hnext : m.parts[m.sIndex + 1]? = some next) :
    Moved m { m with
      sIndex := m.sIndex + 1
      parts := m.parts.set (m.sIndex + 1)
        { next with stream := { next.stream with position := 0 } } }
      (part.offset + part.stream.position) := by
  obtain ⟨-, -, -, -, -, -, hoff, -⟩ := h.layout.split hi
  have hlt := (List.getElem?_eq_some_iff.1 hnext).1
  refine ⟨⟨?_, ?_, ?_⟩, content_set hnext rfl, rfl, ?_⟩
  · exact h.layout.set hnext rfl rfl rfl (Nat.zero_le _)
  · rw [h.totalLen]
    dsimp only
    rw [sizes_set hnext (by rfl)]
  · dsimp only
    rw [List.length_set]
    exact hlt
  · rw [position, getElem?_set_row hnext]
    simp [hoff next hnext, hend]

/-- The end of the last part is the end of the whole. -/
theorem Inv.end_of_last {m : MergedStream} (h : Inv m) {part : Part}
    (hi : m.parts[m.sIndex]? = some part)
    (hlast : m.parts[m.sIndex + 1]? = none) :
    (content m.parts).length = part.offset + part.size := by
  obtain ⟨hsize, -, pre, post, hcontent, hpre, -, hnil⟩ := h.layout.split hi
  rw [hcontent, hnil hlast, List.append_nil, List.length_append]
  omega

/-- Where a part starts, and how long it is. -/
def partBounds (part : Part) : Nat × Nat := (part.offset, part.size)

/-- What a round of the loop takes from the current part, and the stream that it
leaves. -/
structure Round (wish : Nat → Nat) (m : MergedStream) (count p : Nat) (part : Part)
    (readed : List UInt8) (m' : MergedStream) : Prop where
  current : m.parts[m.sIndex]? = some part
  size : part.stream.content.length = part.size
  position : p = part.offset + part.stream.position
  length_eq : readed.length = part.stream.readSize count (wish m.sIndex)
  moved : Moved m m' (p + readed.length)
  delivers : Cursor.Delivers ⟨content m.parts, p⟩ count readed
    ⟨content m.parts, p + readed.length⟩
  bounds : m'.parts.map partBounds = m.parts.map partBounds

/-- The loop is done behind a round: the part is not exhausted, it is the last one,
or all that was asked for is there. -/
structure Ends (wish : Nat → Nat) (m : MergedStream) (count p : Nat) (part : Part)
    (readed : List UInt8) (m' : MergedStream) : Prop where
  loop_eq : ∀ fuel, readLoop wish (fuel + 1) m count = some (readed, m')
  done : p + readed.length < part.offset + part.size ∨
    p + readed.length = (content m.parts).length ∨ count ≤ readed.length

/-- The loop goes on in the next part. -/
structure GoesOn (wish : Nat → Nat) (m : MergedStream) (count p : Nat) (part : Part)
    (readed : List UInt8) (m' : MergedStream) : Prop where
  loop_eq : ∀ fuel, readLoop wish (fuel + 1) m count =
    (readLoop wish fuel m' (count - readed.length)).map fun r => (readed ++ r.1, r.2)
  index : m'.sIndex = m.sIndex + 1
  lt : readed.length < count
  exhausted : p + readed.length = part.offset + part.size

/-- One round of the loop. -/
theorem exists_round (wish : Nat → Nat) {m : MergedStream} (h : Inv m) (count : Nat) {p : Nat}
    (hp : m.position = some p) :
    ∃ part readed m', Round wish m count p part readed m' ∧
      (Ends wish m count p part readed m' ∨ GoesOn wish m count p part readed m') := by
  obtain ⟨part, hi, rfl⟩ := Option.map_eq_some_iff.1 hp
  have hread := part.stream.reads_read count (wish m.sIndex)
  have hlength := part.stream.read_length count (wish m.sIndex)
  have hloop : ∀ fuel, readLoop wish (fuel + 1) m count = _ := fun fuel => by
    rw [readLoop, hi]
  dsimp only at hloop
  generalize (part.stream.read count (wish m.sIndex)).1 = readed at hread hlength hloop
  generalize (part.stream.read count (wish m.sIndex)).2 = stream at hread hloop
  obtain ⟨hmoved, hdelivers⟩ := h.read_part hi hread
  have hsize := (h.layout.split hi).1
  have hrow := getElem?_set_row hi { part with stream }
  have hbound := (hmoved.inv.layout.split hrow).2.1
  have hbounds : (m.parts.set m.sIndex { part with stream }).map partBounds =
      m.parts.map partBounds := Table.map_set_of_eq hi rfl
  have hpos : stream.position = part.stream.position + readed.length := by
    rw [hread.next]
    rfl
  dsimp only at hbound
  by_cases hend : part.offset + stream.position ≥ part.offset + part.size
  · simp only [if_pos hend] at hloop
    cases hnext : (m.parts.set m.sIndex { part with stream })[m.sIndex + 1]? with
    | none =>
      -- the last part: its end is the end of the whole
      simp only [hnext] at hloop
      have hlast := hmoved.inv.end_of_last hrow hnext
      rw [hmoved.content_eq] at hlast
      dsimp only at hlast
      refine ⟨part, readed, _, ⟨hi, hsize, rfl, hlength, hmoved, hdelivers, hbounds⟩,
        Or.inl ⟨hloop, Or.inr (Or.inl ?_)⟩⟩
      omega
    | some next =>
      simp only [hnext] at hloop
      have hnew := hmoved.inv.next_part hrow (by dsimp only; omega) hnext
      dsimp only at hnew
      rw [hpos, ← Nat.add_assoc] at hnew
      have hbounds' : ((m.parts.set m.sIndex { part with stream }).set (m.sIndex + 1)
          { next with stream := { next.stream with position := 0 } }).map partBounds =
          m.parts.map partBounds := (Table.map_set_of_eq hnext (by rfl)).trans hbounds
      have hround : Round wish m count (part.offset + part.stream.position) part readed _ :=
        ⟨hi, hsize, rfl, hlength, hmoved.trans hnew, hdelivers, hbounds'⟩
      by_cases hmore : readed.length < count
      · simp only [if_pos hmore] at hloop
        exact ⟨part, readed, _, hround, Or.inr ⟨hloop, rfl, hmore, by omega⟩⟩
      · simp only [if_neg hmore] at hloop
        exact ⟨part, readed, _, hround, Or.inl ⟨hloop, Or.inr (Or.inr (by omega))⟩⟩
  · -- the part is not exhausted
    simp only [if_neg hend] at hloop
    refine ⟨part, readed, _, ⟨hi, hsize, rfl, hlength, hmoved, hdelivers, hbounds⟩,
      Or.inl ⟨hloop, Or.inl ?_⟩⟩
    omega

/-- Behind the last round, nothing is delivered only at the end. -/
theorem Ends.reads {wish : Nat → Nat} {m m' : MergedStream} {count p : Nat} {part : Part}
    {readed : List UInt8} (h : Ends wish m count p part readed m')
    (hround : Round wish m count p part readed m') :
    Cursor.Reads ⟨content m.parts, p⟩ count readed
      ⟨content m.parts, p + readed.length⟩ where
  toDelivers := hround.delivers
  progress := by
    intro hnil
    have hlength := hround.length_eq
    have hsize := hround.size
    have hposition := hround.position
    have hdone := h.done
    rw [Cursor.readSize] at hlength
    rw [hnil, List.length_nil] at hlength hdone
    dsimp only
    omega

/-- A read delivers what the concatenation has at the position, by induction
along the parts that it goes through. -/
theorem readLoop_reads (wish : Nat → Nat) :
    ∀ (fuel : Nat) (m : MergedStream) (count p : Nat), Inv m →
      m.position = some p → m.parts.length - m.sIndex ≤ fuel →
      ∃ bytes m', readLoop wish fuel m count = some (bytes, m') ∧
        Moved m m' (p + bytes.length) ∧
        Cursor.Reads ⟨content m.parts, p⟩ count bytes
          ⟨content m.parts, p + bytes.length⟩ := by
  intro fuel
  induction fuel with
  | zero =>
    intro m count p h _ hfuel
    have := h.current
    omega
  | succ fuel ih =>
    intro m count p h hp hfuel
    obtain ⟨part, readed, m', hround, hends | hgoes⟩ := exists_round wish h count hp
    · exact ⟨readed, m', hends.loop_eq fuel, hround.moved, hends.reads hround⟩
    · have hlength := congrArg List.length hround.bounds
      have hindex := hgoes.index
      rw [List.length_map, List.length_map] at hlength
      obtain ⟨more, m'', hloop, hmoved, hreads⟩ := ih m' (count - readed.length) _
        hround.moved.inv hround.moved.position (by omega)
      have hlen : p + (readed ++ more).length = p + readed.length + more.length := by
        rw [List.length_append]
        omega
      rw [hround.moved.content_eq] at hreads
      refine ⟨readed ++ more, m'', by rw [hgoes.loop_eq, hloop]; rfl, ?_, ?_⟩
      · rw [hlen]
        exact hround.moved.trans hmoved
      · rw [hlen]
        exact hround.delivers.reads hreads

/-! ## The constructor and the seeks -/

theorem partsLoop_spec (streams : List (Cursor UInt8)) (offset : Nat)
    (hpos : ∀ stream ∈ streams, stream.position ≤ stream.content.length) :
    ∃ parts, partsLoop streams
        (streams.map fun stream => stream.content.length) offset = some parts ∧
      Layout parts offset ∧ parts.map Part.stream = streams ∧
      parts.map Part.size = streams.map fun stream => stream.content.length := by
  induction streams generalizing offset with
  | nil => exact ⟨[], rfl, trivial, rfl, rfl⟩
  | cons stream streams ih =>
    obtain ⟨parts, hloop, hlayout, hstreams, hsizes⟩ :=
      ih (offset + stream.content.length)
        fun s hs => hpos s (List.mem_cons_of_mem _ hs)
    refine ⟨{ stream, size := stream.content.length, offset } :: parts, ?_, ?_,
      ?_, ?_⟩
    · rw [List.map_cons, partsLoop, hloop]
      rfl
    · exact ⟨rfl, rfl, hpos stream (List.mem_cons_self ..), hlayout⟩
    · rw [List.map_cons, hstreams]
    · rw [List.map_cons, List.map_cons, hsizes]

/-- What a constructor with the right sizes builds. -/
theorem create_spec (streams : List (Cursor UInt8)) (hne : streams ≠ [])
    (hstart : ∀ stream ∈ streams, stream.position = 0) :
    ∃ m, create streams (streams.map fun stream => stream.content.length) =
        some m ∧ Inv m ∧
      content m.parts = (streams.map Cursor.content).flatten ∧
      m.totalLen = (streams.map fun stream => stream.content.length).sum ∧
      m.position = some 0 := by
  obtain ⟨parts, hloop, hlayout, hstreams, hsizes⟩ := partsLoop_spec streams 0
    fun stream hs => by rw [hstart stream hs]; exact Nat.zero_le _
  have hlen : parts.length = streams.length := by
    rw [← hstreams, List.length_map]
  have hpos : 0 < parts.length := by
    rw [hlen]
    exact List.length_pos_iff.2 hne
  refine ⟨{ parts, totalLen := (parts.map Part.size).sum, sIndex := 0 }, ?_,
    ⟨hlayout, rfl, hpos⟩, ?_, ?_, ?_⟩
  · rw [create, hloop]
    rfl
  · dsimp only
    rw [← hstreams, List.map_map]
    rfl
  · dsimp only
    rw [hsizes]
  · cases parts with
    | nil => exact absurd hpos (Nat.lt_irrefl 0)
    | cons part parts =>
      have hmem : part.stream ∈ streams := by
        rw [← hstreams]
        exact List.mem_map_of_mem (List.mem_cons_self ..)
      simp [position, hlayout.1, hstart _ hmem]

/-- Every position before the end lies in a part. -/
theorem Layout.exists_part {parts : List Part} {offset : Nat}
    (h : Layout parts offset) {value : Nat} (hlo : offset ≤ value)
    (hhi : value < offset + (parts.map Part.size).sum) :
    ∃ part ∈ parts, part.offset ≤ value ∧ value < part.offset + part.size := by
  obtain ⟨i, ⟨part, hi, hpart⟩, -⟩ := h.offsets.existsUnique_part hlo hhi
  exact ⟨part, List.mem_of_getElem? hi, hpart⟩

/-- Assigning a position before the end moves there. -/
theorem Inv.setPosition {m : MergedStream} (h : Inv m) {value : Nat}
    (hvalue : value < m.length) : Moved m (m.setPosition value) value := by
  unfold MergedStream.setPosition
  split
  · rename_i hnone
    obtain ⟨part, hmem, hlo, hhi⟩ := h.layout.exists_part (Nat.zero_le value)
      (by rw [Nat.zero_add, ← h.totalLen]; exact hvalue)
    have hno := List.findIdx?_eq_none_iff.1 hnone part hmem
    simp only [ge_iff_le, Bool.and_eq_false_iff, decide_eq_false_iff_not] at hno
    omega
  · rename_i i hsome
    obtain ⟨hlt, hin, -⟩ := List.findIdx?_eq_some_iff_getElem.1 hsome
    have hi : m.parts[i]? = some m.parts[i] := List.getElem?_eq_getElem hlt
    simp only [ge_iff_le, Bool.and_eq_true, decide_eq_true_eq] at hin
    rw [hi]
    dsimp only
    refine ⟨⟨?_, ?_, ?_⟩, content_set hi (by rfl), rfl, ?_⟩
    · exact h.layout.set hi (by rfl) (by rfl) (by rfl) (by dsimp only; omega)
    · rw [h.totalLen]
      dsimp only
      rw [sizes_set hi (by rfl)]
    · dsimp only
      rw [List.length_set]
      exact hlt
    · rw [MergedStream.position, getElem?_set_row hi]
      simp only [Option.map_some, Option.some.injEq]
      omega

theorem Inv.content_length {m : MergedStream} (h : Inv m) :
    (content m.parts).length = m.length := by
  rw [h.layout.content_length, ← h.totalLen]
  rfl

/-- The position is never behind the end. -/
theorem Inv.position_le {m : MergedStream} (h : Inv m) :
    ∃ p, m.position = some p ∧ p ≤ m.length := by
  have hcurrent := h.current
  have hi : m.parts[m.sIndex]? = some m.parts[m.sIndex] :=
    List.getElem?_eq_getElem hcurrent
  obtain ⟨hsize, hpos, pre, post, hcontent, hpre, -⟩ := h.layout.split hi
  refine ⟨_, by rw [MergedStream.position, hi]; rfl, ?_⟩
  rw [← h.content_length, hcontent, List.length_append, List.length_append]
  dsimp only
  omega

/-! ## Any sequence of seeks and reads -/

/-- The operations of a caller. -/
inductive Op
  /-- `Position = value`, with a value before the end. -/
  | setPosition (value : Nat)
  /-- `Read` of `count` bytes; `wish i` says how short part `i` reads. -/
  | read (count : Nat) (wish : Nat → Nat)

def step (m : MergedStream) : Op → Option MergedStream
  | .setPosition value =>
    if value < m.length then some (m.setPosition value) else none
  | .read count wish => (m.read count wish).map Prod.snd

/-- The uses of a `MergedStream` over the given streams. -/
def system (streams : List (Cursor UInt8)) (sizes : List Nat) :
    System MergedStream Op where
  init := fun m => create streams sizes = some m
  step := step

/-- One read, from the outside. -/
theorem Inv.read {m : MergedStream} (h : Inv m) {p : Nat}
    (hp : m.position = some p) (count : Nat) (wish : Nat → Nat) :
    ∃ bytes m', m.read count wish = some (bytes, m') ∧
      Moved m m' (p + bytes.length) ∧
      Cursor.Reads ⟨content m.parts, p⟩ count bytes
        ⟨content m.parts, p + bytes.length⟩ :=
  readLoop_reads wish m.parts.length m count p h hp (Nat.sub_le _ _)

/-- Every operation keeps the invariant and the content. -/
theorem Inv.step {m m' : MergedStream} {op : Op} (h : Inv m)
    (hs : step m op = some m') :
    Inv m' ∧ content m'.parts = content m.parts ∧ m'.length = m.length := by
  cases op with
  | setPosition value =>
    change (if value < m.length then some (m.setPosition value) else none) =
      some m' at hs
    split at hs
    · rename_i hvalue
      cases hs
      have hmoved := h.setPosition hvalue
      exact ⟨hmoved.inv, hmoved.content_eq, hmoved.totalLen_eq⟩
    · cases hs
  | read count wish =>
    obtain ⟨p, hp, -⟩ := h.position_le
    obtain ⟨bytes, m'', hread, hmoved, -⟩ := h.read hp count wish
    change (m.read count wish).map Prod.snd = some m' at hs
    rw [hread] at hs
    cases hs
    exact ⟨hmoved.inv, hmoved.content_eq, hmoved.totalLen_eq⟩

/-- What holds of a `MergedStream` after any seeks and reads. -/
theorem reachable_spec (streams : List (Cursor UInt8)) (sizes : List Nat)
    (hsizes : sizes = streams.map fun stream => stream.content.length)
    (hstart : ∀ stream ∈ streams, stream.position = 0) (hne : streams ≠ [])
    {m : MergedStream} (hm : (system streams sizes).Reachable m) :
    Inv m ∧ content m.parts = (streams.map Cursor.content).flatten ∧
      m.length = sizes.sum := by
  obtain ⟨m₀, hcreate, hinv₀, hcontent₀, hlen₀, -⟩ := create_spec streams hne hstart
  rw [← hsizes] at hcreate hlen₀
  refine System.Reachable.invariant (fun m => Inv m ∧
    content m.parts = (streams.map Cursor.content).flatten ∧
    m.length = sizes.sum) ?_ ?_ hm
  · intro m hinit
    have heq : some m = some m₀ := hinit.symm.trans hcreate
    rw [Option.some.injEq] at heq
    exact heq ▸ ⟨hinv₀, hcontent₀, hlen₀⟩
  · rintro m op m' ⟨h, hcontent, hlen⟩ hs
    obtain ⟨h', hcontent', hlen'⟩ := h.step hs
    exact ⟨h', hcontent'.trans hcontent, hlen'.trans hlen⟩

/-- After any seeks and reads, a `MergedStream` is a cursor over the
concatenation of its parts: it has the sum of the sizes as its length, a seek
to a position before the end goes there, and a read delivers what a read of the
concatenation at the position may deliver, and moves behind it. -/
theorem merged_is_concatenation (streams : List (Cursor UInt8))
    (sizes : List Nat)
    (hsizes : sizes = streams.map fun stream => stream.content.length)
    (hstart : ∀ stream ∈ streams, stream.position = 0)
    (hne : ∃ stream ∈ streams, stream.content ≠ []) :
    (∃ m, create streams sizes = some m ∧ m.position = some 0) ∧
    ∀ m, (system streams sizes).Reachable m → m.length = sizes.sum ∧
      ∃ p, m.position = some p ∧ p ≤ m.length ∧
        (∀ value : Nat, value < m.length →
          (m.setPosition value).position = some value) ∧
        ∀ count wish, ∃ bytes m', m.read count wish = some (bytes, m') ∧
          Cursor.Reads ⟨(streams.map Cursor.content).flatten, p⟩ count bytes
            ⟨(streams.map Cursor.content).flatten, p + bytes.length⟩ ∧
          m'.position = some (p + bytes.length) := by
  have hnil : streams ≠ [] := by
    rintro rfl
    obtain ⟨stream, hmem, -⟩ := hne
    cases hmem
  obtain ⟨m₀, hcreate, -, -, -, hpos₀⟩ := create_spec streams hnil hstart
  rw [← hsizes] at hcreate
  refine ⟨⟨m₀, hcreate, hpos₀⟩, fun m hm => ?_⟩
  have hinv := reachable_spec streams sizes hsizes hstart hnil hm
  obtain ⟨hinv, hcontent, hlen⟩ := hinv
  obtain ⟨p, hp, hle⟩ := hinv.position_le
  refine ⟨hlen, p, hp, hle, fun value hvalue =>
    (hinv.setPosition hvalue).position, fun count wish => ?_⟩
  obtain ⟨bytes, m', hread, hmoved, hreads⟩ := hinv.read hp count wish
  exact ⟨bytes, m', hread, hcontent ▸ hreads, hmoved.position⟩

/-- Two parts of two bytes with an empty part between them. -/
def threeParts : List (Cursor UInt8) :=
  [⟨[1, 2], 0⟩, ⟨[], 0⟩, ⟨[3, 4], 0⟩]

theorem merged_is_concatenation_threeParts :
    ∃ m, create threeParts [2, 0, 2] = some m ∧ m.length = 4 ∧
      (m.setPosition 3).position = some 3 ∧
      ∀ count wish, ∃ bytes m', m.read count wish = some (bytes, m') ∧
        Cursor.Reads ⟨[1, 2, 3, 4], 0⟩ count bytes ⟨[1, 2, 3, 4], bytes.length⟩ := by
  obtain ⟨⟨m, hcreate, hstart⟩, hall⟩ := merged_is_concatenation threeParts [2, 0, 2] rfl
    (by decide) ⟨⟨[1, 2], 0⟩, by decide, by decide⟩
  obtain ⟨hlen, p, hp, -, hseek, hread⟩ := hall m (.init hcreate)
  obtain rfl : 0 = p := Option.some.inj (hstart.symm.trans hp)
  refine ⟨m, hcreate, hlen, hseek 3 (by rw [hlen]; decide), fun count wish => ?_⟩
  obtain ⟨bytes, m', heq, hreads, -⟩ := hread count wish
  rw [Nat.zero_add] at hreads
  exact ⟨bytes, m', heq, hreads⟩

/-- A read of three bytes from position 1 goes over both borders. -/
example : ((create threeParts [2, 0, 2]).bind fun m =>
    (m.setPosition 1).read 3 fun _ => 10).map Prod.fst = some [2, 3, 4] := by
  decide

end MergedStream

end DirectPackageInstaller
