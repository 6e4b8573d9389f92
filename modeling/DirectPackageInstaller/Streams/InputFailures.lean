import DirectPackageInstaller.Streams.ReadSeekableStream
import Mathlib.Algebra.Ring.Nat
import Mathlib.Algebra.Order.Ring.Int

/-!
# A forward-only stream over an input that fails

A caller may seek a `ReadSeekableStream` anywhere, and a read of its input may
throw at any time.  The copy loop appends each piece that it gets to the buffer
file, but `InputPosition` is moved only behind the whole loop.  So an exception
behind the first piece leaves a file that is longer than `InputPosition` says.

* `copy_ends` is the copy loop over an input that may throw: it appends what the
  input has delivered before.
* `inv_step_iff` says which operations keep the file, the input and
  `InputPosition` in step.
* `survives_iff` is the same for the runs.
-/

namespace DirectPackageInstaller

open Transition Seeking

namespace ReadSeekableStream

/-! ## What the input delivers -/

/-- The number of bytes that the first `calls` reads of a skip over `skip` bytes
deliver, when the input has `rest` bytes left. -/
def delivered (supply : Supply) (skip rest : Nat) : Nat → Nat
  | 0 => 0
  | calls + 1 =>
    let before := delivered supply skip rest calls
    before + min (max 1 ((supply calls).getD 0))
      (min (chunkSize (skip - before)) (rest - before))

/-- The first `calls` reads of a skip do not throw, and each delivers something:
the skip goes on. -/
def GoesOn (supply : Supply) (skip rest calls : Nat) : Prop :=
  ∀ j < calls, supply j ≠ none ∧
    delivered supply skip rest j < delivered supply skip rest (j + 1)

instance (supply : Supply) (skip rest calls : Nat) :
    Decidable (GoesOn supply skip rest calls) :=
  inferInstanceAs (Decidable (∀ j < calls, _ ∧ _))

/-- The input throws in this read of a skip. -/
def ThrowsAt (supply : Supply) (skip rest call : Nat) : Prop :=
  supply call = none ∧ GoesOn supply skip rest call

instance (supply : Supply) (skip rest call : Nat) :
    Decidable (ThrowsAt supply skip rest call) :=
  inferInstanceAs (Decidable (_ ∧ _))

theorem GoesOn.succ {supply : Supply} {skip rest calls : Nat}
    (h : GoesOn supply skip rest calls) (hcall : supply calls ≠ none)
    (hmore : delivered supply skip rest calls < delivered supply skip rest (calls + 1)) :
    GoesOn supply skip rest (calls + 1) := by
  intro j hj
  by_cases heq : j = calls
  · rw [heq]
    exact ⟨hcall, hmore⟩
  · exact h j (by omega)

theorem GoesOn.le_delivered {supply : Supply} {skip rest calls : Nat}
    (h : GoesOn supply skip rest calls) : calls ≤ delivered supply skip rest calls := by
  induction calls with
  | zero => exact Nat.zero_le _
  | succ calls ih =>
    have hbefore := ih fun j hj => h j (by omega)
    have hlast := (h calls (by omega)).2
    omega

theorem delivered_le (supply : Supply) (skip rest calls : Nat) :
    delivered supply skip rest calls ≤ rest := by
  induction calls with
  | zero => exact Nat.zero_le _
  | succ calls ih =>
    rw [delivered]
    omega

/-- A skip ends at one read: where it throws, or where nothing comes. -/
theorem ThrowsAt.unique {supply : Supply} {skip rest call last : Nat}
    (h : ThrowsAt supply skip rest call) (hon : GoesOn supply skip rest last)
    (hend : supply last ≠ none →
      delivered supply skip rest (last + 1) = delivered supply skip rest last) :
    call = last := by
  by_contra hne
  by_cases hlt : call < last
  · exact (hon call hlt).1 h.1
  · obtain ⟨hsome, hmore⟩ := h.2 last (by omega)
    have := hend hsome
    omega

/-! ## The copy loop -/

/-- One read of the loop delivers what `delivered` counts. -/
theorem readSize_delivered {supply : Supply} {source : Cursor UInt8}
    {calls start wish : Nat} (length : Nat) (hcall : supply calls = some wish)
    (hpos : source.position =
      start + delivered supply length (source.content.length - start) calls) :
    delivered supply length (source.content.length - start) (calls + 1) =
      delivered supply length (source.content.length - start) calls +
        source.readSize (chunkSize (length -
          delivered supply length (source.content.length - start) calls)) wish := by
  have hrest : source.content.length - source.position = source.content.length - start -
      delivered supply length (source.content.length - start) calls := by omega
  rw [Cursor.readSize, hrest, delivered, hcall]
  rfl

/-- The copy loop over an input that may throw.  It ends with the read number
`last`, and has appended what the reads before have delivered. -/
theorem copy_ends (supply : Supply) (source : Cursor UInt8) (target : List UInt8)
    (calls total length start : Nat)
    (htotal : total = delivered supply length (source.content.length - start) calls)
    (hpos : source.position = start + total)
    (hon : GoesOn supply length (source.content.length - start) calls) :
    ∃ last n, n = delivered supply length (source.content.length - start) last ∧ total ≤ n ∧
      copy supply calls source target total length = {
        input := source.advance (n - total)
        target := target ++ window source.content source.position (n - total)
        total := (supply last).map fun _ => n
        calls := last + 1 } ∧
      GoesOn supply length (source.content.length - start) last ∧
      (supply last ≠ none →
        delivered supply length (source.content.length - start) (last + 1) = n) := by
  rw [copy]
  cases hcall : supply calls with
  | none =>
    refine ⟨calls, total, htotal, Nat.le_refl _, ?_, hon, fun h => absurd hcall h⟩
    simp [hcall, Cursor.advance]
  | some wish =>
    have hsize := readSize_delivered length hcall (htotal ▸ hpos)
    rw [← htotal] at hsize
    have hreads := source.reads_read (chunkSize (length - total)) wish
    have hlen := source.read_length (chunkSize (length - total)) wish
    dsimp only
    generalize source.read (chunkSize (length - total)) wish = chunk at hreads hlen ⊢
    rw [← hlen] at hsize
    by_cases hnil : chunk.1 = []
    · -- nothing came, so the loop ends here
      have hzero : chunk.1.length = 0 := by rw [hnil]; rfl
      refine ⟨calls, total, htotal, Nat.le_refl _, ?_, hon, fun _ => by omega⟩
      rw [if_pos hnil, hreads.next, hzero, Nat.sub_self, window_zero, List.append_nil, hcall]
      rfl
    · have hpositive := List.length_pos_iff.2 hnil
      have hshort := hreads.length_le.trans (chunkSize_le _)
      have hcontent : chunk.2.content = source.content := by rw [hreads.next]; rfl
      have hposition : chunk.2.position = source.position + chunk.1.length := by
        rw [hreads.next]
        rfl
      have hgoes : GoesOn supply length (source.content.length - start) (calls + 1) :=
        hon.succ (by rw [hcall]; exact Option.some_ne_none _) (by omega)
      rw [if_neg hnil]
      obtain ⟨last, n, hn, hle, hcopy, hlast, hend⟩ := copy_ends supply chunk.2
        (target ++ chunk.1) (calls + 1) (total + chunk.1.length) length start
        (by rw [hcontent]; exact hsize.symm) (by omega) (by rw [hcontent]; exact hgoes)
      rw [hcontent] at hn hlast hend
      have hjoin : chunk.1 ++ window source.content (source.position + chunk.1.length)
          (n - (total + chunk.1.length)) =
          window source.content source.position (n - total) := by
        have := window_append source.content source.position chunk.1.length
          (n - (total + chunk.1.length))
        rw [← hreads.elems_eq] at this
        rw [this]
        congr 1
        omega
      refine ⟨last, n, hn, by omega, ?_, hlast, hend⟩
      rw [hcopy, hcontent, hposition, List.append_assoc, hjoin, hreads.next,
        Cursor.advance_advance]
      congr 2
      omega
termination_by length - total
decreasing_by omega

/-! ## One read -/

/-- The skip in front of a read of the input. -/
def skip (s : ReadSeekableStream) (supply : Supply) : Copied :=
  if s.readPosition > s.inputPosition then
    copy supply 0 s.input s.buffer 0 (s.readPosition - s.inputPosition).toNat
  else { input := s.input, target := s.buffer, total := some 0, calls := 0 }

/-- The state behind a skip over `total` bytes. -/
def skipped (s : ReadSeekableStream) (copied : Copied) (total : Nat) : ReadSeekableStream :=
  { s with
    input := copied.input
    buffer := copied.target
    inputPosition := s.inputPosition + total }

/-- The read of the input behind the skip. -/
def readDirect (s : ReadSeekableStream) (count calls : Nat) (supply : Supply) :
    Outcome × ReadSeekableStream :=
  -- "Bad Buffer Offset"
  if s.readPosition ≠ (s.inputPosition : Int) then (.threw, s)
  else
    match supply calls with
    | none => (.threw, s)
    | some wish =>
      let (readed, input) := s.input.read count wish
      (.returned readed, { s with
        input
        buffer := s.buffer ++ readed
        readPosition := s.readPosition + readed.length
        inputPosition := s.inputPosition + readed.length })

theorem readInput_of_skip {s : ReadSeekableStream} {supply : Supply} {total : Nat}
    (h : (s.skip supply).total = some total) (count : Nat) :
    s.readInput count supply =
      (s.skipped (s.skip supply) total).readDirect count (s.skip supply).calls supply := by
  unfold skip at h ⊢
  unfold readInput
  dsimp only
  rw [h]
  rfl

theorem readInput_of_skip_threw {s : ReadSeekableStream} {supply : Supply}
    (h : (s.skip supply).total = none) (count : Nat) :
    s.readInput count supply = (.threw, s.skipped (s.skip supply) 0) := by
  unfold skip at h ⊢
  unfold readInput
  dsimp only
  rw [h]
  rfl

/-- `bytes` is what the content has at the read position. -/
def Served (b : List UInt8) (s : ReadSeekableStream) (count : Nat) (bytes : List UInt8) :
    Prop :=
  ∃ p : Nat, s.readPosition = p ∧ Cursor.Reads ⟨b, p⟩ count bytes ⟨b, p + bytes.length⟩

/-- The read of the input keeps all positions in step, whether it throws or
not. -/
theorem readDirect_spec {b : List UInt8} {s : ReadSeekableStream} (h : Inv b s)
    (count calls : Nat) (supply : Supply) :
    Inv b (s.readDirect count calls supply).2 ∧
      ∀ bytes, (s.readDirect count calls supply).1 = .returned bytes → Served b s count bytes := by
  unfold readDirect
  by_cases hbad : s.readPosition ≠ (s.inputPosition : Int)
  · rw [if_pos hbad]
    exact ⟨h, fun bytes heq => by cases heq⟩
  rw [if_neg hbad]
  cases supply calls with
  | none => exact ⟨h, fun bytes heq => by cases heq⟩
  | some wish =>
    have hinput : s.input = ⟨b, s.inputPosition⟩ := by
      rw [← h.content, ← h.stands]
    have hreads := Cursor.reads_read ⟨b, s.inputPosition⟩ count wish
    have hle := h.le
    rw [hinput]
    dsimp only
    generalize Cursor.read ⟨b, s.inputPosition⟩ count wish = chunk at hreads ⊢
    have hnext := hreads.next
    have hshort := congrArg List.length hreads.elems_eq
    rw [window_length] at hshort
    dsimp only at hshort
    refine ⟨⟨by rw [hnext]; rfl, by rw [hnext]; rfl, ?_, ?_⟩, fun bytes heq => ?_⟩
    · dsimp only
      omega
    · have := take_append_window b s.inputPosition chunk.1.length
      rw [← hreads.elems_eq] at this
      rw [h.buffer]
      exact this
    · cases heq
      exact ⟨s.inputPosition, not_not.1 hbad, ⟨hreads.elems_eq, hreads.length_le, rfl⟩,
        hreads.progress⟩

/-- The reads whose skip is cut off: the input throws after it has delivered a
part of the bytes to skip. -/
def CutOff (s : ReadSeekableStream) (supply : Supply) : Prop :=
  (s.inputPosition : Int) < s.readPosition ∧
    ∃ call, 0 < call ∧ ThrowsAt supply (s.readPosition - s.inputPosition).toNat
      (s.input.content.length - s.inputPosition) call

/-- The skip appends `n` bytes.  Where it throws, it is cut off exactly if `n` is
not zero. -/
theorem skip_spec {b : List UInt8} {s : ReadSeekableStream} (h : Inv b s) (supply : Supply) :
    ∃ n, Inv b (s.skipped (s.skip supply) n) ∧
      ((s.skip supply).total = none ∧ (CutOff s supply ↔ n ≠ 0) ∨
        (s.skip supply).total = some n ∧ ¬ CutOff s supply) := by
  by_cases hbeyond : (s.inputPosition : Int) < s.readPosition
  · obtain ⟨last, n, hn, -, hcopy, hon, hend⟩ := copy_ends supply s.input s.buffer 0 0
      (s.readPosition - s.inputPosition).toNat s.inputPosition rfl
      (by rw [h.stands]; rfl) (by intro j hj; exact absurd hj (Nat.not_lt_zero j))
    have hcopied : s.skip supply = _ := (if_pos hbeyond).trans hcopy
    have hrest := delivered_le supply (s.readPosition - s.inputPosition).toNat
      (s.input.content.length - s.inputPosition) last
    have hle := h.le
    have hlength : s.input.content.length = b.length := by rw [h.content]
    rw [hcopied]
    refine ⟨n, ⟨h.content, ?_, ?_, ?_⟩, ?_⟩
    · show s.input.position + (n - 0) = s.inputPosition + n
      rw [h.stands, Nat.sub_zero]
    · show s.inputPosition + n ≤ b.length
      omega
    · show s.buffer ++ window s.input.content s.input.position (n - 0) = _
      rw [h.buffer, h.content, h.stands, Nat.sub_zero, take_append_window]
      rfl
    · cases hlast : supply last with
      | none =>
        refine Or.inl ⟨rfl, ?_⟩
        constructor
        · rintro ⟨-, call, hcall, hthrows⟩
          have heq := hthrows.unique hon fun h => absurd hlast h
          have := hon.le_delivered
          omega
        · intro hne
          refine ⟨hbeyond, last, ?_, hlast, hon⟩
          by_contra hzero
          have hfirst : last = 0 := by omega
          rw [hfirst] at hn
          exact hne hn
      | some wish =>
        refine Or.inr ⟨rfl, ?_⟩
        rintro ⟨-, call, -, hthrows⟩
        have heq := hthrows.unique hon fun h => (hend h).trans hn
        rw [← heq, hthrows.1] at hlast
        cases hlast
  · have hnone : s.skip supply = _ := if_neg hbeyond
    rw [hnone]
    exact ⟨0, h, Or.inr ⟨rfl, fun hcut => hbeyond hcut.1⟩⟩

/-- A read of the input keeps all positions in step exactly if its skip is not cut
off. -/
theorem readInput_inv_iff {b : List UInt8} {s : ReadSeekableStream} (h : Inv b s)
    (count : Nat) (supply : Supply) :
    Inv b (s.readInput count supply).2 ↔ ¬ CutOff s supply := by
  obtain ⟨n, hinv, ⟨hthrew, hcut⟩ | ⟨hskip, hwhole⟩⟩ := skip_spec h supply
  · rw [readInput_of_skip_threw hthrew, hcut, not_not]
    constructor
    · -- the file is longer than `InputPosition` by the bytes of the skip
      intro hafter
      have hfile : (s.skip supply).target.length = s.inputPosition + n := hinv.buffer_length
      have hstill : (s.skip supply).target.length = s.inputPosition + 0 := hafter.buffer_length
      omega
    · intro hzero
      rw [hzero] at hinv
      exact hinv
  · rw [readInput_of_skip hskip]
    exact iff_of_true (readDirect_spec hinv count _ supply).1 hwhole

/-- A read of the input that returns delivers what the content has. -/
theorem readInput_served {b : List UInt8} {s : ReadSeekableStream} (h : Inv b s)
    {count : Nat} {supply : Supply} {bytes : List UInt8}
    (hread : (s.readInput count supply).1 = .returned bytes) : Served b s count bytes := by
  obtain ⟨n, hinv, ⟨hthrew, -⟩ | ⟨hskip, -⟩⟩ := skip_spec h supply
  · rw [readInput_of_skip_threw hthrew] at hread
    cases hread
  · rw [readInput_of_skip hskip] at hread
    exact (readDirect_spec hinv count _ supply).2 bytes hread

/-- A read keeps all positions in step exactly if it has no skip that is cut
off. -/
theorem read_inv_iff {b : List UInt8} {s : ReadSeekableStream} (h : Inv b s)
    (count fileWish : Nat) (supply : Supply) :
    Inv b (s.read count fileWish supply).2 ↔ ¬ CutOff s supply := by
  have hlen := h.buffer_length
  rw [read, hlen]
  by_cases hlt : s.readPosition < s.inputPosition
  · have hwhole : ¬ CutOff s supply := by
      intro hcut
      have := hcut.1
      omega
    rw [if_pos hlt]
    refine iff_of_true ?_ hwhole
    by_cases hneg : s.readPosition < 0
    · rw [if_pos hneg]
      exact h
    · rw [if_neg hneg]
      obtain ⟨bytes, s', hread, hat⟩ := readBuffer_spec h
        (Int.toNat_of_nonneg (not_lt.1 hneg)).symm (by omega) count fileWish supply
      rw [hread]
      exact hat.inv
  · rw [if_neg hlt]
    exact readInput_inv_iff h count supply

/-- A read that returns delivers what the content has. -/
theorem read_served {b : List UInt8} {s s' : ReadSeekableStream} (h : Inv b s)
    {count fileWish : Nat} {supply : Supply} {bytes : List UInt8}
    (hread : s.read count fileWish supply = (.returned bytes, s')) :
    Served b s count bytes := by
  have hlen := h.buffer_length
  rw [read, hlen] at hread
  by_cases hlt : s.readPosition < s.inputPosition
  · rw [if_pos hlt] at hread
    by_cases hneg : s.readPosition < 0
    · rw [if_pos hneg] at hread
      cases hread
    · rw [if_neg hneg] at hread
      obtain ⟨p, hp⟩ := Int.eq_ofNat_of_zero_le (not_lt.1 hneg)
      obtain ⟨bytes', s'', hread', hat⟩ :=
        readBuffer_spec h hp (by omega) count fileWish supply
      rw [hread'] at hread
      cases hread
      exact ⟨p, hp, hat.reads⟩
  · rw [if_neg hlt] at hread
    exact readInput_served h (congrArg Prod.fst hread)

/-! ## Any sequence of operations -/

/-- The operations of a caller, over an input that may throw. -/
inductive AnyOp where
  | setPosition (value : Int)
  | seek (offset : Int) (origin : SeekOrigin)
  | read (count fileWish : Nat) (supply : Supply)

def anyStep (s : ReadSeekableStream) : AnyOp → Option ReadSeekableStream
  | .setPosition value => some (s.setPosition value)
  | .seek offset origin => some (s.seek offset origin)
  | .read count fileWish supply => some (s.read count fileWish supply).2

/-- A `ReadSeekableStream` over an input with the content `b`, which is sought
anywhere and whose input may throw in every read. -/
def failingSystem (b : List UInt8) : System ReadSeekableStream AnyOp where
  init := fun s => s.buffer = [] ∧ s.input = ⟨b, 0⟩ ∧ s.readPosition = 0 ∧
    s.inputPosition = 0
  step := anyStep

/-- The file, the input and `InputPosition` are in step, and every read that
returns delivers what the content has at its position. -/
def Consistent (b : List UInt8) (s : ReadSeekableStream) : Prop :=
  Inv b s ∧ ∀ count fileWish supply bytes s',
    s.read count fileWish supply = (.returned bytes, s') → Served b s count bytes

theorem consistent_iff {b : List UInt8} {s : ReadSeekableStream} :
    Consistent b s ↔ Inv b s :=
  ⟨fun h => h.1, fun h => ⟨h, fun _ _ _ _ _ => read_served h⟩⟩

/-- No skip is cut off in this operation. -/
def Whole (s : ReadSeekableStream) : AnyOp → Prop
  | .setPosition _ => True
  | .seek _ _ => True
  | .read _ _ supply => ¬ CutOff s supply

/-- The operations that keep all positions in step. -/
theorem inv_step_iff {b : List UInt8} {s s' : ReadSeekableStream} {op : AnyOp}
    (h : Inv b s) (hs : anyStep s op = some s') : Inv b s' ↔ Whole s op := by
  cases op with
  | setPosition value =>
    cases hs
    exact iff_of_true ⟨h.content, h.stands, h.le, h.buffer⟩ trivial
  | seek offset origin =>
    cases hs
    exact iff_of_true ⟨h.content, h.stands, h.le, h.buffer⟩ trivial
  | read count fileWish supply =>
    cases hs
    exact read_inv_iff h count fileWish supply

theorem inv_of_init {b : List UInt8} {s : ReadSeekableStream}
    (hs : (failingSystem b).init s) : Inv b s := by
  obtain ⟨hbuffer, hinput, -, hposition⟩ := hs
  refine ⟨?_, ?_, ?_, ?_⟩
  · rw [hinput]
  · rw [hinput, hposition]
  · rw [hposition]
    exact Nat.zero_le _
  · rw [hbuffer, hposition]
    rfl

/-- Every operation can be called. -/
theorem exists_run (b : List UInt8) (s : ReadSeekableStream) (ops : List AnyOp) :
    ∃ s', (failingSystem b).run s ops = some s' := by
  induction ops generalizing s with
  | nil => exact ⟨s, rfl⟩
  | cons op ops ih =>
    obtain ⟨m, hm⟩ : ∃ m, anyStep s op = some m := by
      cases op <;> exact ⟨_, rfl⟩
    obtain ⟨s', hs'⟩ := ih m
    exact ⟨s', System.run_cons_eq_some.2 ⟨m, hm, hs'⟩⟩

/-- The runs that survive the failures of the input.  A stream is consistent in
every state of a run, over any seeks and any reads with any exceptions of the
input, exactly if the input never throws behind a part of a skip. -/
theorem survives_iff (b : List UInt8) (s : ReadSeekableStream) (ops : List AnyOp)
    (hs : (failingSystem b).init s) :
    (failingSystem b).Along (Consistent b) s ops ↔ (failingSystem b).StepsMeet Whole s ops := by
  obtain ⟨s', hrun⟩ := exists_run b s ops
  refine System.along_of_step (fun _ => True) (Consistent b) Whole (fun _ _ _ _ _ => trivial)
    (fun s op s' _ hp hstep => ?_) trivial (consistent_iff.2 (inv_of_init hs)) hrun
  rw [consistent_iff]
  exact inv_step_iff hp.1 hstep

/-- A new stream over four bytes. -/
def fresh : ReadSeekableStream where
  buffer := []
  input := ⟨[1, 2, 3, 4], 0⟩
  canSeek := false
  reportLength := none
  readPosition := 0
  inputPosition := 0

/-- An input that reads a byte at a time and throws at one call. -/
def throwsAt (call : Nat) : Supply :=
  fun n => if n = call then none else some 1

/-- Two bytes are skipped, and the read behind them throws. -/
theorem survives_throw_behind_skip :
    (failingSystem [1, 2, 3, 4]).Along (Consistent [1, 2, 3, 4]) fresh
      [.setPosition 2, .read 1 0 (throwsAt 3)] := by
  apply (survives_iff [1, 2, 3, 4] fresh _ ⟨rfl, rfl, rfl, rfl⟩).2
  refine ⟨trivial, fun s hs => ⟨?_, fun _ _ => trivial⟩⟩
  cases hs
  rintro ⟨-, call, -, hnone, hon⟩
  have hcall : call = 3 := by
    by_contra hne
    rw [throwsAt, if_neg hne] at hnone
    cases hnone
  rw [hcall] at hon
  exact absurd hon (by decide)

/-- The stream whose input has thrown when one of two bytes was skipped. -/
def cutOff : ReadSeekableStream where
  buffer := [1]
  input := ⟨[1, 2, 3, 4], 1⟩
  canSeek := false
  reportLength := none
  readPosition := 2
  inputPosition := 0

theorem copy_cutOff : copy (throwsAt 1) 0 ⟨[1, 2, 3, 4], 0⟩ [] 0 2 =
    ⟨⟨[1, 2, 3, 4], 1⟩, [1], none, 2⟩ := by
  rw [copy]
  change copy (throwsAt 1) 1 ⟨[1, 2, 3, 4], 1⟩ [1] 1 2 = _
  rw [copy]
  rfl

/-- The next skip appends the bytes behind those that the input has delivered. -/
theorem copy_after_cutOff : copy (fun _ => some 1) 0 ⟨[1, 2, 3, 4], 1⟩ [1] 0 2 =
    ⟨⟨[1, 2, 3, 4], 3⟩, [1, 2, 3], some 2, 3⟩ := by
  rw [copy]
  change copy (fun _ => some 1) 1 ⟨[1, 2, 3, 4], 2⟩ [1, 2] 1 2 = _
  rw [copy]
  change copy (fun _ => some 1) 2 ⟨[1, 2, 3, 4], 3⟩ [1, 2, 3] 2 2 = _
  rw [copy]
  rfl

/-- The input throws when one of two bytes is skipped.  The next read at 2
delivers the last byte of the content instead of the third. -/
theorem survives_fails_in_skip :
    (failingSystem [1, 2, 3, 4]).run fresh [.setPosition 2, .read 1 0 (throwsAt 1)] =
        some cutOff ∧
      ¬ Consistent [1, 2, 3, 4] cutOff ∧
      (cutOff.read 1 0 fun _ => some 1).1 = .returned [4] := by
  refine ⟨?_, ?_, ?_⟩
  · have hskip : (fresh.setPosition 2).skip (throwsAt 1) = _ :=
      (if_pos (by decide)).trans copy_cutOff
    have hread : (fresh.setPosition 2).readInput 1 (throwsAt 1) = (.threw, cutOff) := by
      rw [readInput_of_skip_threw (by rw [hskip]), hskip]
      rfl
    have hstep : (fresh.setPosition 2).read 1 0 (throwsAt 1) = (.threw, cutOff) := hread
    refine System.run_cons_eq_some.2 ⟨fresh.setPosition 2, rfl, ?_⟩
    refine System.run_singleton_eq_some.2 ?_
    exact congrArg (fun result => some result.2) hstep
  · intro h
    exact absurd h.1.buffer_length (by decide)
  · have hskip : cutOff.skip (fun _ => some 1) = _ :=
      (if_pos (by decide)).trans copy_after_cutOff
    show (cutOff.readInput 1 fun _ => some 1).1 = _
    rw [readInput_of_skip (by rw [hskip]), hskip]
    rfl

end ReadSeekableStream

end DirectPackageInstaller
