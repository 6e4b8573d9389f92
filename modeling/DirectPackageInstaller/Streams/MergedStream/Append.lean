import DirectPackageInstaller.Streams.MergedStream
import Mathlib.Algebra.Order.BigOperators.Group.List
import Mathlib.Algebra.Order.Group.Nat

/-!
# Appended parts

`AppendStream` adds a row to the three arrays of a `MergedStream`.  The row
starts at `TotalLen`, but `TotalLen` keeps its value, unlike in the
constructors.  So the stream stays consistent only as long as the appended
parts are empty.

* `Offsets` says that the rows lie one behind the other, whatever the streams
  contain and wherever they stand.
* `settled` moves the streams that stand behind their end back to it.  A read
  does not notice (`readLoop_settled`), so the reads of a `MergedStream` whose
  streams stand anywhere are those of one that meets `Inv`.
* `readAll_eq`: enough reads deliver all that is behind the position.
* `appended_consistent_iff` is the result.
-/

namespace DirectPackageInstaller

/-- The stream and the size of a row. -/
def Part.row (part : Part) : Cursor UInt8 × Nat :=
  (part.stream, part.size)

/-- A row whose stream stands at its end instead of behind it. -/
def Part.settled (part : Part) : Part :=
  { part with
    stream := { part.stream with position := min part.stream.position part.size } }

/-- A stream that stands behind its end reads what it reads at its end. -/
theorem Part.settled_read {part : Part}
    (hsize : part.stream.content.length = part.size) (count wish : Nat) :
    part.settled.stream.read count wish =
      ((part.stream.read count wish).1,
        { (part.stream.read count wish).2 with
          position := min (part.stream.read count wish).2.position part.size }) := by
  have hn : part.settled.stream.readSize count wish =
      part.stream.readSize count wish := by
    simp only [Part.settled, Cursor.readSize, hsize]
    omega
  have hle := (part.stream.readSize_le count wish).2
  simp only [Cursor.read, hn, Prod.mk.injEq]
  refine ⟨?_, ?_⟩
  · by_cases hin : part.stream.position ≤ part.size
    · simp [Part.settled, Nat.min_eq_left hin]
    · have hzero : part.stream.readSize count wish = 0 := by omega
      simp [hzero]
  · simp only [Part.settled, Cursor.advance, Cursor.mk.injEq, true_and]
    omega

namespace MergedStream

/-- `AppendStream(Part, Size)`.  `AppendStream(Part)` passes `Part.Length` as
the size. -/
def appendStream (m : MergedStream) (part : Cursor UInt8) (size : Nat) :
    MergedStream :=
  -- `TotalLen` is the offset of the new row and is not extended
  { m with parts := m.parts ++ [{ stream := part, size, offset := m.totalLen }] }

/-- A sequence of `AppendStream` calls. -/
def appendAll (m : MergedStream) (appended : List (Cursor UInt8 × Nat)) :
    MergedStream :=
  appended.foldl (fun m part => m.appendStream part.1 part.2) m

/-- A sequence of `Read` calls, each with its count and its chunking: all the
bytes that they deliver. -/
def readAll : MergedStream → List (Nat × (Nat → Nat)) →
    Option (List UInt8 × MergedStream)
  | m, [] => some ([], m)
  | m, (count, wish) :: reads =>
    (m.read count wish).bind fun (bytes, m) =>
      (readAll m reads).map fun (more, m) => (bytes ++ more, m)

/-- What a `MergedStream` over the given streams and sizes promises. -/
structure Consistent (m : MergedStream) (parts : List (Cursor UInt8 × Nat)) :
    Prop where
  /-- `Length` is the sum of the sizes. -/
  length_eq : m.length = (parts.map Prod.snd).sum
  /-- `PartOffset[i]` is the sum of the sizes before `i`. -/
  offset_eq : ∀ i part, m.parts[i]? = some part →
    part.offset = ((parts.take i).map Prod.snd).sum
  /-- Every position belongs to exactly one part. -/
  covered : ∀ p < m.length, ∃! i : Nat, ∃ part : Part, m.parts[i]? = some part ∧
    part.offset ≤ p ∧ p < part.offset + part.size
  /-- Where the sizes are those of the streams, reading from position 0 to the
  end delivers the concatenation.  Every read but those at the end delivers a
  byte, so one read for each byte is enough. -/
  reads_eq : (∀ part ∈ parts, part.1.content.length = part.2) →
    ∀ reads : List (Nat × (Nat → Nat)), (∀ read ∈ reads, 0 < read.1) →
      (parts.map Prod.snd).sum ≤ reads.length →
      ((m.setPosition 0).readAll reads).map Prod.fst =
        some (parts.map fun part => part.1.content).flatten

/-! ## The rows -/

/-- The rows that the loop of the constructors builds. -/
theorem partsLoop_rows (parts : List (Cursor UInt8 × Nat)) (offset : Nat) :
    ∃ rows, partsLoop (parts.map Prod.fst) (parts.map Prod.snd) offset = some rows ∧
      Offsets rows offset ∧ rows.map Part.row = parts := by
  induction parts generalizing offset with
  | nil => exact ⟨[], rfl, trivial, rfl⟩
  | cons part parts ih =>
    obtain ⟨rows, hloop, hoffsets, hrows⟩ := ih (offset + part.2)
    refine ⟨{ stream := part.1, size := part.2, offset } :: rows, ?_,
      ⟨rfl, hoffsets⟩, ?_⟩
    · simp [partsLoop, hloop]
    · simp [Part.row, hrows]

theorem sizes_of_rows {rows : List Part} {parts : List (Cursor UInt8 × Nat)}
    (h : rows.map Part.row = parts) : rows.map Part.size = parts.map Prod.snd := by
  rw [← h, List.map_map]
  rfl

theorem content_of_rows {rows : List Part} {parts : List (Cursor UInt8 × Nat)}
    (h : rows.map Part.row = parts) :
    content rows = (parts.map fun part => part.1.content).flatten := by
  rw [← h, List.map_map]
  rfl

/-! ## The calls of `AppendStream` -/

theorem appendAll_cons (m : MergedStream) (part : Cursor UInt8 × Nat)
    (appended : List (Cursor UInt8 × Nat)) :
    m.appendAll (part :: appended) = (m.appendStream part.1 part.2).appendAll appended :=
  rfl

@[simp] theorem appendAll_totalLen (m : MergedStream)
    (appended : List (Cursor UInt8 × Nat)) :
    (m.appendAll appended).totalLen = m.totalLen := by
  induction appended generalizing m with
  | nil => rfl
  | cons part appended ih =>
    rw [appendAll_cons, ih]
    rfl

@[simp] theorem appendAll_sIndex (m : MergedStream)
    (appended : List (Cursor UInt8 × Nat)) :
    (m.appendAll appended).sIndex = m.sIndex := by
  induction appended generalizing m with
  | nil => rfl
  | cons part appended ih =>
    rw [appendAll_cons, ih]
    rfl

/-- Every call adds its row, and all of them have the same offset. -/
theorem appendAll_parts (m : MergedStream) (appended : List (Cursor UInt8 × Nat)) :
    (m.appendAll appended).parts = m.parts ++
      appended.map fun part =>
        { stream := part.1, size := part.2, offset := m.totalLen } := by
  induction appended generalizing m with
  | nil => exact (List.append_nil _).symm
  | cons part appended ih =>
    rw [appendAll_cons, ih]
    simp [appendStream]

/-- Empty parts at the end of the rows. -/
theorem offsets_of_empty {appended : List (Cursor UInt8 × Nat)} {offset : Nat}
    (h : ∀ part ∈ appended, part.2 = 0) :
    Offsets (appended.map fun part => { stream := part.1, size := part.2, offset })
      offset := by
  induction appended with
  | nil => trivial
  | cons part appended ih =>
    refine ⟨rfl, ?_⟩
    show Offsets _ (offset + part.2)
    rw [h part (List.mem_cons_self ..)]
    exact ih fun other hmem => h other (List.mem_cons_of_mem _ hmem)

/-! ## Streams that stand behind their end -/

/-- All streams moved back to their ends. -/
def settled (m : MergedStream) : MergedStream :=
  { m with parts := m.parts.map Part.settled }

/-- The sizes of the rows are those of their streams. -/
def Sized (parts : List Part) : Prop :=
  ∀ part ∈ parts, part.stream.content.length = part.size

theorem Sized.set {parts : List Part} (h : Sized parts) {i : Nat} {new : Part}
    (hnew : new.stream.content.length = new.size) : Sized (parts.set i new) := by
  intro part hmem
  rcases List.mem_or_eq_of_mem_set hmem with hmem | rfl
  · exact h part hmem
  · exact hnew

theorem content_settled (parts : List Part) :
    content (parts.map Part.settled) = content parts := by
  rw [content, List.map_map]
  rfl

theorem sizes_settled (parts : List Part) :
    (parts.map Part.settled).map Part.size = parts.map Part.size := by
  rw [List.map_map]
  rfl

/-- Settled rows are laid out as `Inv` wants them. -/
theorem Offsets.layout {parts : List Part} {offset : Nat} (h : Offsets parts offset)
    (hsized : Sized parts) : Layout (parts.map Part.settled) offset := by
  induction parts generalizing offset with
  | nil => trivial
  | cons part parts ih =>
    exact ⟨h.1, hsized part (List.mem_cons_self ..), Nat.min_le_right _ _,
      ih h.2 fun other hmem => hsized other (List.mem_cons_of_mem _ hmem)⟩

theorem sized_of_layout {parts : List Part} {offset : Nat}
    (h : Layout (parts.map Part.settled) offset) : Sized parts := by
  induction parts generalizing offset with
  | nil => intro part hmem; cases hmem
  | cons first parts ih =>
    obtain ⟨-, hsize, -, hrest⟩ := h
    intro part hmem
    cases hmem with
    | head => exact hsize
    | tail _ hmem => exact ih hrest part hmem

/-- The rows behind a read of a part. -/
theorem map_settled_set (rows : List Part) (i : Nat) (part : Part) (stream : Cursor UInt8) :
    (rows.map Part.settled).set i
        { part.settled with
          stream := { stream with position := min stream.position part.size } } =
      (rows.set i { part with stream }).map Part.settled := by
  simp [Part.settled, List.map_set]

/-- A rewound stream is settled. -/
theorem map_settled_rewind (rows : List Part) (i : Nat) (next : Part) :
    (rows.map Part.settled).set i
        { next.settled with stream := { next.settled.stream with position := 0 } } =
      (rows.set i { next with stream := { next.stream with position := 0 } }).map
        Part.settled := by
  simp [Part.settled, List.map_set]

theorem settled_exhausted_iff (part : Part) (stream : Cursor UInt8) :
    part.settled.offset + min stream.position part.size ≥
        part.settled.offset + part.settled.size ↔
      part.offset + stream.position ≥ part.offset + part.size := by
  show part.offset + min stream.position part.size ≥ part.offset + part.size ↔ _
  omega

/-- Settling the rows first changes neither the bytes of a read nor, once
settled, the state behind it. -/
theorem readLoop_settled (wish : Nat → Nat) (fuel : Nat) {m : MergedStream}
    (hsized : Sized m.parts) (count : Nat) :
    readLoop wish fuel m.settled count =
      (readLoop wish fuel m count).map fun r => (r.1, r.2.settled) := by
  induction fuel generalizing m count with
  | zero => rfl
  | succ fuel ih =>
    cases hi : m.parts[m.sIndex]? with
    | none => simp [readLoop, settled, hi]
    | some part =>
      have hsize := hsized part (List.mem_of_getElem? hi)
      have hread := Part.settled_read hsize count (wish m.sIndex)
      have hi' : m.settled.parts[m.settled.sIndex]? = some part.settled := by
        simp [settled, hi]
      rw [readLoop, readLoop, hi, hi', show m.settled.sIndex = m.sIndex from rfl]
      dsimp only
      rw [hread]
      have hcontent : (part.stream.read count (wish m.sIndex)).2.content =
          part.stream.content := rfl
      generalize (part.stream.read count (wish m.sIndex)).1 = readed
      generalize (part.stream.read count (wish m.sIndex)).2 = stream at hcontent ⊢
      have hset := map_settled_set m.parts m.sIndex part stream
      have hsized' : Sized (m.parts.set m.sIndex { part with stream }) :=
        hsized.set ((congrArg List.length hcontent).trans hsize)
      rw [show m.settled.parts = m.parts.map Part.settled from rfl, hset]
      generalize m.parts.set m.sIndex { part with stream } = rows at hsized' ⊢
      have hexhausted := settled_exhausted_iff part stream
      by_cases hend : part.offset + stream.position ≥ part.offset + part.size
      · rw [if_pos hend, if_pos (hexhausted.2 hend), List.getElem?_map]
        cases hnext : rows[m.sIndex + 1]? with
        | none => rfl
        | some next =>
          have hnew := map_settled_rewind rows (m.sIndex + 1) next
          have hnewSized : Sized (rows.set (m.sIndex + 1)
              { next with stream := { next.stream with position := 0 } }) :=
            hsized'.set (hsized' next (List.mem_of_getElem? hnext))
          dsimp only [Option.map_some] at hnew ⊢
          rw [hnew]
          by_cases hmore : readed.length < count
          · rw [if_pos hmore, if_pos hmore]
            have hloop := ih (m := { m with
              sIndex := m.sIndex + 1
              parts := rows.set (m.sIndex + 1)
                { next with stream := { next.stream with position := 0 } } })
              hnewSized (count - readed.length)
            refine (congrArg _ hloop).trans ?_
            rw [Option.map_map, Option.map_map]
            rfl
          · rw [if_neg hmore, if_neg hmore]
            rfl
      · rw [if_neg hend, if_neg fun h => hend (hexhausted.1 h)]
        rfl

theorem read_settled {m : MergedStream} (hsized : Sized m.parts) (count : Nat)
    (wish : Nat → Nat) :
    m.settled.read count wish =
      (m.read count wish).map fun r => (r.1, r.2.settled) := by
  rw [read, read, ← readLoop_settled wish _ hsized, settled, List.length_map]

/-- Assigning a position commutes with settling. -/
theorem setPosition_settled (m : MergedStream) (value : Int) :
    m.settled.setPosition value = (m.setPosition value).settled := by
  have hfind : (m.parts.map Part.settled).findIdx? (fun part =>
      decide (value ≥ part.offset) && decide (value < part.offset + part.size)) =
      m.parts.findIdx? fun part =>
        decide (value ≥ part.offset) && decide (value < part.offset + part.size) := by
    rw [List.findIdx?_map]
    rfl
  unfold setPosition
  rw [show m.settled.parts = m.parts.map Part.settled from rfl, hfind]
  cases hi : m.parts.findIdx? fun part =>
      decide (value ≥ part.offset) && decide (value < part.offset + part.size) with
  | none => rfl
  | some i =>
    obtain ⟨hlt, hin, -⟩ := List.findIdx?_eq_some_iff_getElem.1 hi
    simp only [ge_iff_le, Bool.and_eq_true, decide_eq_true_eq] at hin
    have hrow : m.parts[i]? = some m.parts[i] := List.getElem?_eq_getElem hlt
    have hmin : min (value.toNat - m.parts[i].offset) m.parts[i].size =
        value.toNat - m.parts[i].offset := by
      omega
    simp [settled, Part.settled, hrow, List.map_set, hmin]

/-! ## Reading to the end -/

/-- Enough reads deliver all that is behind the position: each of them delivers
a byte until nothing is left. -/
theorem readAll_eq (reads : List (Nat × (Nat → Nat))) {m : MergedStream} {p : Nat}
    (h : Inv m.settled) (hp : m.settled.position = some p)
    (hpos : ∀ read ∈ reads, 0 < read.1)
    (hlen : (content m.parts).length - p ≤ reads.length) :
    (m.readAll reads).map Prod.fst = some ((content m.parts).drop p) := by
  induction reads generalizing m p with
  | nil =>
    rw [List.length_nil] at hlen
    rw [List.drop_eq_nil_of_le (by omega)]
    rfl
  | cons read reads ih =>
    obtain ⟨count, wish⟩ := read
    have hcount : 0 < count := hpos (count, wish) (List.mem_cons_self ..)
    obtain ⟨bytes, m', hread, hmoved, hreads⟩ := h.read hp count wish
    rw [read_settled (sized_of_layout h.layout)] at hread
    obtain ⟨⟨bytes', next⟩, hnext, heq⟩ := Option.map_eq_some_iff.1 hread
    obtain ⟨rfl, rfl⟩ := Prod.mk.inj heq
    have hcontent : content next.parts = content m.parts := by
      have := hmoved.content_eq
      rwa [settled, settled, content_settled, content_settled] at this
    have hbytes := hreads.elems_eq
    have hprogress := hreads.progress
    rw [settled, content_settled] at hbytes hprogress
    rw [List.length_cons] at hlen
    have hleft : (content next.parts).length - (p + bytes'.length) ≤ reads.length := by
      rw [hcontent]
      by_cases hnil : bytes' = []
      · have hend := hprogress hnil
        dsimp only at hend
        omega
      · have := List.length_pos_iff.2 hnil
        omega
    have htail := ih hmoved.inv hmoved.position
      (fun read hmem => hpos read (List.mem_cons_of_mem _ hmem)) hleft
    rw [hcontent] at htail
    -- what the first read delivers and what the others deliver
    have hjoin : bytes' ++ (content m.parts).drop (p + bytes'.length) =
        (content m.parts).drop p := by
      have htake : ((content m.parts).drop p).take bytes'.length = bytes' := hbytes.symm
      calc bytes' ++ (content m.parts).drop (p + bytes'.length)
          = ((content m.parts).drop p).take bytes'.length ++
              ((content m.parts).drop p).drop bytes'.length := by
            rw [htake, List.drop_drop]
        _ = (content m.parts).drop p := List.take_append_drop _ _
    obtain ⟨r, hr, hfst⟩ := Option.map_eq_some_iff.1 htail
    simp [readAll, hnext, hr, hfst, hjoin]

/-- Moving to position 0: it is the position then, also in an empty stream. -/
theorem Inv.setPosition_zero {m : MergedStream} (h : Inv m) :
    Inv (m.setPosition 0) ∧ content (m.setPosition 0).parts = content m.parts ∧
      (m.setPosition 0).position = some 0 := by
  by_cases hpos : 0 < m.length
  · have hmoved := h.setPosition hpos
    exact ⟨hmoved.inv, hmoved.content_eq, hmoved.position⟩
  · -- all parts are empty, so none of them contains the position
    have hnone : m.parts.findIdx? (fun part => decide ((0 : Int) ≥ part.offset) &&
        decide ((0 : Int) < part.offset + part.size)) = none := by
      apply List.findIdx?_eq_none_iff.2
      intro part hmem
      have hle : part.size ≤ (m.parts.map Part.size).sum :=
        List.le_sum_of_mem (List.mem_map_of_mem hmem)
      have htotal := h.totalLen
      simp only [length] at hpos
      simp only [ge_iff_le, Bool.and_eq_false_iff, decide_eq_false_iff_not]
      omega
    have hsame : m.setPosition 0 = m := by
      rw [MergedStream.setPosition, hnone]
    obtain ⟨p, hp, hle⟩ := h.position_le
    rw [hsame]
    exact ⟨h, rfl, hp.trans (congrArg some (by omega))⟩

/-! ## When the stream stays consistent -/

/-- Rows that lie one behind the other up to the total length promise what they
should, wherever their streams stand. -/
theorem consistent_of_offsets {m : MergedStream} {parts : List (Cursor UInt8 × Nat)}
    (hoffsets : Offsets m.parts 0) (hrows : m.parts.map Part.row = parts)
    (htotal : m.totalLen = (parts.map Prod.snd).sum) (hcurrent : m.sIndex < m.parts.length) :
    Consistent m parts where
  length_eq := htotal
  offset_eq := by
    intro i part hi
    rw [hoffsets.offset_eq hi, sizes_of_rows hrows, List.map_take, Nat.zero_add]
  covered := by
    intro p hp
    apply hoffsets.existsUnique_part (Nat.zero_le p)
    rw [sizes_of_rows hrows, ← htotal, Nat.zero_add]
    exact hp
  reads_eq := by
    intro hsizes reads hpos hlen
    have hsized : Sized m.parts := by
      intro part hmem
      exact hsizes part.row (hrows ▸ List.mem_map_of_mem hmem)
    have hinv : Inv m.settled := by
      refine ⟨hoffsets.layout hsized, ?_, ?_⟩
      · rw [settled, sizes_settled, sizes_of_rows hrows]
        exact htotal
      · rw [settled, List.length_map]
        exact hcurrent
    obtain ⟨hstart, hcontent, hzero⟩ := hinv.setPosition_zero
    rw [setPosition_settled] at hstart hcontent hzero
    rw [settled, settled, content_settled, content_settled] at hcontent
    rw [readAll_eq reads hstart hzero hpos, hcontent, content_of_rows hrows, List.drop_zero]
    have hlength := hinv.layout.content_length
    rw [settled, content_settled, sizes_settled, sizes_of_rows hrows] at hlength
    rw [hcontent, hlength]
    omega

/-- A `MergedStream` with appended parts is consistent exactly when it has a
part at all and every appended part is empty: `TotalLen` is not extended. -/
theorem appended_consistent_iff (parts appended : List (Cursor UInt8 × Nat)) :
    ∃ m, create (parts.map Prod.fst) (parts.map Prod.snd) = some m ∧
      (Consistent (m.appendAll appended) (parts ++ appended) ↔
        parts ++ appended ≠ [] ∧ ∀ part ∈ appended, part.2 = 0) := by
  obtain ⟨rows, hloop, hoffsets, hrows⟩ := partsLoop_rows parts 0
  have hsizes := sizes_of_rows hrows
  refine ⟨{ parts := rows, totalLen := (rows.map Part.size).sum, sIndex := 0 },
    by rw [create, hloop]; rfl, ?_⟩
  constructor
  · intro h
    refine ⟨?_, ?_⟩
    · -- without a part, `Read` throws
      intro hnil
      obtain ⟨rfl, rfl⟩ := List.append_eq_nil_iff.1 hnil
      cases List.map_eq_nil_iff.1 hrows
      have hreads := h.reads_eq (fun part hmem => by cases hmem) [(1, fun _ => 1)]
        (by simp) (by simp)
      exact absurd hreads (by decide)
    · have hlength := h.length_eq
      rw [length, appendAll_totalLen, List.map_append, List.sum_append] at hlength
      have hzero : (appended.map Prod.snd).sum = 0 := by
        dsimp only at hlength
        rw [hsizes] at hlength
        omega
      intro part hmem
      have hle : part.2 ≤ (appended.map Prod.snd).sum :=
        List.le_sum_of_mem (List.mem_map_of_mem hmem)
      omega
  · intro hboth
    obtain ⟨hne, hempty⟩ := hboth
    have hzero : (appended.map Prod.snd).sum = 0 := by
      apply List.sum_eq_zero
      intro size hmem
      obtain ⟨part, hpart, rfl⟩ := List.mem_map.1 hmem
      exact hempty part hpart
    apply consistent_of_offsets
    · rw [appendAll_parts, offsets_append, Nat.zero_add]
      exact ⟨hoffsets, offsets_of_empty hempty⟩
    · rw [appendAll_parts, List.map_append, hrows, List.map_map]
      exact congrArg _ (List.map_id _)
    · rw [appendAll_totalLen, hsizes, List.map_append, List.sum_append, hzero, Nat.add_zero]
    · rw [appendAll_sIndex, appendAll_parts, List.length_append, List.length_map,
        ← List.length_map, hrows, ← List.length_append]
      exact List.length_pos_iff.2 hne

/-- One part of one byte, and one more appended to it. -/
theorem appended_not_consistent :
    ∃ m, create [⟨[1], 0⟩] [1] = some m ∧
      ¬ Consistent (m.appendStream ⟨[2], 0⟩ 1) [(⟨[1], 0⟩, 1), (⟨[2], 0⟩, 1)] := by
  refine ⟨_, rfl, fun h => ?_⟩
  exact absurd h.length_eq (by decide)

end MergedStream

end DirectPackageInstaller
