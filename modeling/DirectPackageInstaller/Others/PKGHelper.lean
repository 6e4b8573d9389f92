import DirectPackageInstaller.Streams.InputFailures
import DirectPackageInstaller.Streams.MergedStream.ShortRead
import DirectPackageInstaller.Streams.SeekContract

/-!
# The icon of a package

`GetPKGInfo` lets a parser read the header, moves the stream to the icon and
reads it with one `Read`, whose count it does not look at.  What the read does
not deliver stays zero.

The parser is not part of this development.  It is any function that leaves the
stream in a state that seeks and reads lead to.

* `Input.Reaches` says how far one read of the stream gets: up to the border of
  the buffered bytes or of a part, and no further than the source delivers at a
  time.
* `Serves.read_icon`: the read delivers the bytes of the content that it
  reaches.
* `icon_complete_iff` is the result.
-/

namespace DirectPackageInstaller.PKGHelper

open Transition Seeking

/-! ## The streams under a package -/

/-- The stream that `GetPKGInfo` is called on. -/
inductive Input where
  | readSeekable (s : ReadSeekableStream)
  | merged (m : MergedStream)

/-- How short the reads below one read are. -/
structure Chunking where
  /-- The read of the buffer file. -/
  file : Nat
  /-- The reads of the input, by their number, or of the parts, by their index. -/
  source : Nat → Nat

namespace Input

/-- `Length`. -/
def length : Input → Nat
  | readSeekable s => s.length
  | merged m => m.length

/-- `Position = value`. -/
def setPosition (value : Int) : Input → Input
  | readSeekable s => readSeekable (s.setPosition value)
  | merged m => merged (m.setPosition value)

/-- `Seek(offset, origin)`.  `none` is an exception. -/
def seek (offset : Int) (origin : SeekOrigin) : Input → Option Input
  | readSeekable s => some (readSeekable (s.seek offset origin))
  | merged m =>
    match m.seek offset origin with
    | .returned _ m => some (merged m)
    | _ => none

/-- `Read(buffer, 0, count)`: the bytes that it delivers.  `none` is an
exception. -/
def read (count : Nat) (chunking : Chunking) : Input → Option (List UInt8 × Input)
  | readSeekable s =>
    match s.read count chunking.file fun n => some (chunking.source n) with
    | (.returned bytes, s) => some (bytes, readSeekable s)
    | (.threw, _) => none
  | merged m => (m.read count chunking.source).map fun r => (r.1, merged r.2)

end Input

/-! ## The code -/

/-- A `MetaEntry` of the header. -/
structure MetaEntry (ι : Type) where
  id : ι
  dataOffset : UInt32
  dataSize : UInt32
deriving DecidableEq

/-- The fields of `PKGInfo` that do not come from the parameter file. -/
structure PKGInfo (ι : Type) where
  packageSize : Nat
  entries : List (UInt32 × UInt32 × UInt32 × ι)
  iconData : Option (List UInt8)

/-- The length of the largest array of bytes. -/
def maxArrayLength : Nat := 0x7FFFFFC7

variable {ι : Type} [DecidableEq ι]

/-- The inner `try` of the icon.  `none` is an exception: `IconData` stays
null. -/
def readIcon (icon : MetaEntry ι) (input : Input) (chunking : Chunking) :
    Option (List UInt8) :=
  let input := input.setPosition icon.dataOffset.toNat
  if icon.dataSize.toNat > maxArrayLength then none
  else
    let buffer := List.replicate icon.dataSize.toNat (0 : UInt8)
    -- one `Read`, and its result is not used
    (input.read buffer.length chunking).map fun (bytes, _) =>
      bytes ++ buffer.drop bytes.length

/-- `GetPKGInfo()`, with the parser `ReadPkg` and the id `ICON0_PNG`. -/
def getPKGInfo (icon0Png : ι) (readPkg : Input → Option (List (MetaEntry ι) × Input))
    (input : Input) (chunking : Chunking) : Option (PKGInfo ι) :=
  (readPkg input).map fun (metas, input) => {
    packageSize := input.length
    entries := metas.map fun x =>
      (x.dataOffset, x.dataOffset + x.dataSize, x.dataSize, x.id)
    iconData := (metas.find? fun entry => entry.id = icon0Png).bind fun icon =>
      readIcon icon input chunking }

/-! ## What the parser does to the stream -/

/-- The operations of the parser.  The stream's source does not throw, and a
read or a seek that throws ends the parser. -/
inductive Op where
  | setPosition (value : Int)
  | seek (offset : Int) (origin : SeekOrigin)
  | read (count : Nat) (chunking : Chunking)

def step (input : Input) : Op → Option Input
  | .setPosition value => some (input.setPosition value)
  | .seek offset origin => input.seek offset origin
  | .read count chunking => (input.read count chunking).map Prod.snd

/-- A new stream over the content `b`. -/
def Opened (b : List UInt8) : Input → Prop
  | .readSeekable s =>
    s.buffer = [] ∧ s.input = ⟨b, 0⟩ ∧ s.readPosition = 0 ∧ s.inputPosition = 0
  | .merged m => ∃ streams : List (Cursor UInt8), streams ≠ [] ∧
    (∀ stream ∈ streams, stream.position = 0) ∧
      MergedStream.create streams (streams.map fun stream => stream.content.length) =
        some m ∧ (streams.map Cursor.content).flatten = b

/-- A package with the content `b` in use. -/
def system (b : List UInt8) : System Input Op where
  init := Opened b
  step := step

/-- The stream shows the content `b`. -/
def Serves (b : List UInt8) : Input → Prop
  | .readSeekable s => ReadSeekableStream.Inv b s
  | .merged m => MergedStream.Inv m ∧ MergedStream.content m.parts = b

theorem serves_of_opened {b : List UInt8} {input : Input} (h : Opened b input) :
    Serves b input := by
  cases input with
  | readSeekable s => exact ReadSeekableStream.inv_of_init h
  | merged m =>
    obtain ⟨streams, hne, hstart, hcreate, hcontent⟩ := h
    obtain ⟨m', hcreate', hinv, hparts, -, -⟩ := MergedStream.create_spec streams hne hstart
    rw [hcreate, Option.some.injEq] at hcreate'
    subst hcreate'
    exact ⟨hinv, hparts.trans hcontent⟩

/-- An assignment of any position keeps the parts. -/
theorem merged_setPosition {m : MergedStream} (h : MergedStream.Inv m) (value : Int) :
    MergedStream.Inv (m.setPosition value) ∧
      MergedStream.content (m.setPosition value).parts = MergedStream.content m.parts := by
  by_cases hheld : SeekContract.Held m value
  · obtain ⟨part, hmem, hlo, hhi⟩ := hheld
    obtain ⟨i, hi⟩ := List.mem_iff_getElem?.1 hmem
    obtain ⟨hsize, -, pre, post, hcontent, hpre, -⟩ := h.layout.split hi
    have hlength := h.content_length
    rw [hcontent, List.length_append, List.length_append] at hlength
    have hbefore : value.toNat < m.length := by omega
    have hmoved := h.setPosition hbefore
    rw [Int.toNat_of_nonneg (by omega)] at hmoved
    exact ⟨hmoved.inv, hmoved.content_eq⟩
  · rw [SeekContract.setPosition_of_not_held hheld]
    exact ⟨h, rfl⟩

/-- Every operation of the parser keeps the content. -/
theorem Serves.step {b : List UInt8} {input input' : Input} {op : Op}
    (h : Serves b input) (hs : step input op = some input') : Serves b input' := by
  cases input with
  | readSeekable s =>
    have h : ReadSeekableStream.Inv b s := h
    cases op with
    | setPosition value | seek offset origin =>
      cases hs
      exact ⟨h.content, h.stands, h.le, h.buffer⟩
    | read count chunking =>
      have hwhole : ¬ ReadSeekableStream.CutOff s fun n => some (chunking.source n) := by
        rintro ⟨-, call, -, hthrows, -⟩
        cases hthrows
      have hinv := (ReadSeekableStream.read_inv_iff h count chunking.file _).2 hwhole
      rw [PKGHelper.step, Input.read] at hs
      split at hs
      · rename_i bytes s' hread
        cases hs
        rw [hread] at hinv
        exact hinv
      · cases hs
  | merged m =>
    obtain ⟨hinv, hcontent⟩ := h
    cases op with
    | setPosition value =>
      cases hs
      obtain ⟨hinv', hsame⟩ := merged_setPosition hinv value
      exact ⟨hinv', hsame.trans hcontent⟩
    | seek offset origin =>
      rw [PKGHelper.step, Input.seek, MergedStream.seek] at hs
      cases htarget : m.seekTarget offset origin with
      | none =>
        rw [htarget] at hs
        cases hs
      | some value =>
        obtain ⟨hinv', hsame⟩ := merged_setPosition hinv value
        cases hposition : (m.setPosition value).position with
        | none =>
          simp only [htarget, hposition] at hs
          cases hs
        | some p =>
          simp only [htarget, hposition] at hs
          cases hs
          exact ⟨hinv', hsame.trans hcontent⟩
    | read count chunking =>
      obtain ⟨p, hp, -⟩ := hinv.position_le
      obtain ⟨bytes, m', hread, hmoved, -⟩ := hinv.read hp count chunking.source
      change Option.map Prod.snd (Option.map _ (m.read count chunking.source)) =
        some input' at hs
      rw [hread] at hs
      cases hs
      exact ⟨hmoved.inv, hmoved.content_eq.trans hcontent⟩

theorem serves_of_run {b : List UInt8} {input input' : Input} {ops : List Op}
    (hopen : Opened b input) (hrun : (system b).run input ops = some input') :
    Serves b input' :=
  System.Reachable.invariant (Serves b) (fun _ h => serves_of_opened h)
    (fun _ _ _ h hs => h.step hs)
    (System.reachable_of_run (System.Reachable.init hopen) hrun)

/-! ## How far the one read gets -/

/-- One read at `start` gets to the byte at `q`. -/
def Input.Reaches (start : Nat) (chunking : Chunking) (q : Nat) : Input → Prop
  | .readSeekable s =>
    if start < s.inputPosition then
      -- the buffered bytes, as far as the buffer file reads at a time
      q < s.inputPosition ∧ q - start < max 1 chunking.file
    else
      -- the read of the input that follows the skip to `start`
      q - start < max 1 (chunking.source
        ((s.setPosition start).skip fun n => some (chunking.source n)).calls)
  | .merged m => MergedStream.Reaches m.parts chunking.source start q

/-- The bytes that a read at `start` delivers: those of the content, as far as the
read gets. -/
structure ReadsAt (b : List UInt8) (start count : Nat) (reaches : Nat → Prop)
    (bytes : List UInt8) : Prop where
  bytes_eq : bytes = window b start bytes.length
  length_le : bytes.length ≤ count
  reaches_iff : ∀ q, start ≤ q → q < start + count →
    (q < start + bytes.length ↔ reaches q)

open ReadSeekableStream in
/-- How many of the buffered bytes a read delivers. -/
theorem readBuffer_length {b : List UInt8} {s s' : ReadSeekableStream} (h : Inv b s)
    {p count fileWish : Nat} {supply : Supply} {bytes : List UInt8}
    (hp : s.readPosition = p) (hlt : p < s.inputPosition)
    (hread : s.readBuffer count fileWish supply = (.returned bytes, s')) :
    bytes.length = min (max 1 fileWish) (min count (s.inputPosition - p)) := by
  have hlen := Cursor.read_length ⟨s.buffer, p⟩ count fileWish
  have hle := (Cursor.readSize_le ⟨s.buffer, p⟩ count fileWish).2
  rw [readBuffer, hp, Int.toNat_natCast] at hread
  dsimp only at hle hread
  rw [h.buffer_length] at hle
  generalize Cursor.read ⟨s.buffer, p⟩ count fileWish = chunk at hlen hread
  rw [if_neg (by omega)] at hread
  cases hread
  rw [hlen, Cursor.readSize, h.buffer_length]

open ReadSeekableStream in
/-- How many bytes of the input a read delivers. -/
theorem readInput_length {b : List UInt8} {s s' : ReadSeekableStream} (h : Inv b s)
    {p count : Nat} {wish : Nat → Nat} {bytes : List UInt8} (hp : s.readPosition = p)
    (hread : s.readInput count (fun n => some (wish n)) = (.returned bytes, s')) :
    bytes.length = min (max 1 (wish (s.skip fun n => some (wish n)).calls))
      (min count (b.length - p)) := by
  obtain ⟨n, hinv, ⟨hthrew, -⟩ | ⟨hskip, -⟩⟩ := skip_spec h fun n => some (wish n)
  · rw [readInput_of_skip_threw hthrew] at hread
    cases hread
  · rw [readInput_of_skip hskip, readDirect] at hread
    split at hread
    · cases hread
    · rename_i hposition
      have hposition : s.readPosition = _ := not_not.1 hposition
      cases hread
      have hstands : (s.skipped (s.skip fun n => some (wish n)) n).inputPosition = p := by
        rw [hp] at hposition
        exact (Int.natCast_inj.1 hposition).symm
      have hcursor : (s.skipped (s.skip fun n => some (wish n)) n).input = ⟨b, p⟩ := by
        rw [← hinv.content, ← hstands, ← hinv.stands]
      rw [hcursor]
      exact Cursor.read_length ⟨b, p⟩ count _

/-- Behind an assignment of a position, the buffered bytes are read, or the
input. -/
theorem readSeekable_read {b : List UInt8} {s : ReadSeekableStream}
    (h : ReadSeekableStream.Inv b s) {start count : Nat} (hin : start + count ≤ b.length)
    (chunking : Chunking) :
    ∃ bytes s', (s.setPosition start).read count chunking.file
        (fun n => some (chunking.source n)) = (.returned bytes, s') ∧
      ReadsAt b start count (fun q => Input.Reaches start chunking q (.readSeekable s))
        bytes := by
  have hafter : ReadSeekableStream.Inv b (s.setPosition start) :=
    ⟨h.content, h.stands, h.le, h.buffer⟩
  have hlength := hafter.buffer_length
  obtain ⟨bytes, s', hread, hat⟩ := ReadSeekableStream.read_spec hafter (p := start) rfl
    (by omega) count chunking.file chunking.source
  refine ⟨bytes, s', hread, hat.reads.elems_eq, hat.reads.length_le, ?_⟩
  intro q hlo hhi
  rw [ReadSeekableStream.read, hlength] at hread
  change (if (start : Int) < s.inputPosition then _ else _) = _ at hread
  unfold Input.Reaches
  dsimp only
  by_cases hbuffered : start < s.inputPosition
  · rw [if_pos (by omega), if_neg (by show ¬ (start : Int) < 0; omega)] at hread
    have hbytes : bytes.length = min (max 1 chunking.file)
        (min count (s.inputPosition - start)) :=
      readBuffer_length hafter rfl hbuffered hread
    rw [if_pos hbuffered, hbytes]
    omega
  · rw [if_neg (by omega)] at hread
    have hbytes : bytes.length = min (max 1 (chunking.source
        ((s.setPosition start).skip fun n => some (chunking.source n)).calls))
        (min count (b.length - start)) :=
      readInput_length hafter rfl hread
    rw [if_neg hbuffered, hbytes]
    omega

theorem merged_read {m : MergedStream} (h : MergedStream.Inv m) {start count : Nat}
    (hin : start + count ≤ (MergedStream.content m.parts).length) (chunking : Chunking) :
    ∃ bytes m', (m.setPosition start).read count chunking.source = some (bytes, m') ∧
      ReadsAt (MergedStream.content m.parts) start count
        (fun q => Input.Reaches start chunking q (.merged m)) bytes := by
  obtain ⟨hinv, hcontent⟩ := merged_setPosition h start
  by_cases hcount : count = 0
  · -- nothing is asked for, wherever the stream stands
    subst hcount
    obtain ⟨p, hp, -⟩ := hinv.position_le
    obtain ⟨bytes, m', hread, -, hreads⟩ := hinv.read hp 0 chunking.source
    have hnil := List.length_eq_zero_iff.1 (Nat.le_zero.1 hreads.length_le)
    subst hnil
    exact ⟨[], m', hread, by simp, Nat.zero_le _, fun q hlo hhi => by omega⟩
  · rw [h.content_length] at hin
    have hbefore : start < m.length := by omega
    have hmoved := h.setPosition hbefore
    obtain ⟨bytes, m', hread, -, hreads⟩ := hinv.read hmoved.position count chunking.source
    rw [hcontent] at hreads
    refine ⟨bytes, m', hread, hreads.elems_eq, hreads.length_le, fun q hlo hhi => ?_⟩
    have hreach := MergedStream.readLoop_reaches chunking.source _ (m.setPosition start) count
      start hinv hmoved.position (Nat.sub_le _ _)
      (by rw [hcontent, h.content_length]; exact hin) bytes m' hread q hlo hhi
    exact hreach.trans (MergedStream.reaches_setPosition m start)

/-- The read of an icon in the content. -/
theorem Serves.read_icon {b : List UInt8} {input : Input} (h : Serves b input)
    {start count : Nat} (hin : start + count ≤ b.length) (chunking : Chunking) :
    ∃ bytes input', (input.setPosition start).read count chunking = some (bytes, input') ∧
      ReadsAt b start count (fun q => input.Reaches start chunking q) bytes := by
  cases input with
  | readSeekable s =>
    obtain ⟨bytes, s', hread, hat⟩ := readSeekable_read h hin chunking
    exact ⟨bytes, .readSeekable s', by simp only [Input.setPosition, Input.read, hread], hat⟩
  | merged m =>
    obtain ⟨hinv, rfl⟩ := h
    obtain ⟨bytes, m', hread, hat⟩ := merged_read hinv hin chunking
    exact ⟨bytes, .merged m', by simp only [Input.setPosition, Input.read, hread]; rfl, hat⟩

/-! ## When the icon is complete -/

/-- The zeros behind the bytes that were read stand for the content exactly if the
content has zeros there. -/
theorem ReadsAt.filled_iff {b : List UInt8} {start count : Nat} {reaches : Nat → Prop}
    {bytes : List UInt8} (h : ReadsAt b start count reaches bytes)
    (hin : start + count ≤ b.length) :
    bytes ++ (List.replicate count 0).drop bytes.length = window b start count ↔
      ∀ q, start ≤ q → q < start + count → b[q]? ≠ some 0 → reaches q := by
  have hle := h.length_le
  have hcut : window b start count =
      bytes ++ window b (start + bytes.length) (count - bytes.length) := by
    conv_rhs => lhs; rw [h.bytes_eq]
    rw [window_append]
    congr 1
    omega
  rw [hcut, List.append_cancel_left_eq, List.drop_replicate, eq_comm, List.eq_replicate_iff,
    and_iff_right (by rw [window_length]; omega)]
  constructor
  · intro hzero q hlo hhi hne
    by_contra hnot
    have hbehind := mt (h.reaches_iff q hlo hhi).1 hnot
    have hq : b[q]? = some b[q] := List.getElem?_eq_getElem (by omega)
    refine hne (hq.trans (congrArg some (hzero _ (mem_window.2 ⟨q, ?_, ?_, hq⟩))))
    · omega
    · omega
  · intro hreach x hx
    obtain ⟨q, hlo, hhi, hq⟩ := mem_window.1 hx
    by_contra hne
    have hin := (h.reaches_iff q (by omega) (by omega)).2
      (hreach q (by omega) (by omega) (by rw [hq]; exact fun heq => hne (Option.some.inj heq)))
    omega

/-- For every package whose parser succeeds over the content `b`, with any seeks and
reads, and for every chunking of the reads below: `IconData` is the icon exactly if
the icon fits in an array and every byte of it that is not zero is reached by the
one read. -/
theorem icon_complete_iff {b : List UInt8} {icon0Png : ι}
    {readPkg : Input → Option (List (MetaEntry ι) × Input)} {opened parsed : Input}
    {metas : List (MetaEntry ι)} {icon : MetaEntry ι} (hopen : Opened b opened)
    {ops : List Op} (hops : (system b).run opened ops = some parsed)
    (hparse : readPkg opened = some (metas, parsed))
    (hicon : (metas.find? fun entry => entry.id = icon0Png) = some icon)
    (hin : icon.dataOffset.toNat + icon.dataSize.toNat ≤ b.length) (chunking : Chunking) :
    ∃ info, getPKGInfo icon0Png readPkg opened chunking = some info ∧
      (info.iconData = some (window b icon.dataOffset.toNat icon.dataSize.toNat) ↔
        icon.dataSize.toNat ≤ maxArrayLength ∧
          ∀ q, icon.dataOffset.toNat ≤ q →
            q < icon.dataOffset.toNat + icon.dataSize.toNat → b[q]? ≠ some 0 →
              parsed.Reaches icon.dataOffset.toNat chunking q) := by
  have hserves := serves_of_run hopen hops
  refine ⟨_, by rw [getPKGInfo, hparse]; rfl, ?_⟩
  dsimp only
  rw [hicon, Option.bind_some, readIcon]
  obtain ⟨bytes, input', hread, hat⟩ := hserves.read_icon hin chunking
  by_cases hbig : icon.dataSize.toNat > maxArrayLength
  · rw [if_pos hbig]
    refine iff_of_false (fun h => by cases h) fun h => ?_
    have := h.1
    omega
  · rw [if_neg hbig]
    dsimp only
    rw [List.length_replicate, hread, Option.map_some, Option.some.injEq,
      hat.filled_iff hin, and_iff_right (not_lt.1 hbig)]

/-! ## Two runs on one package -/

/-- A new stream over four bytes. -/
def fourBytes : Input :=
  .readSeekable {
    buffer := []
    input := ⟨[1, 2, 3, 4], 0⟩
    canSeek := false
    reportLength := none
    readPosition := 0
    inputPosition := 0 }

/-- A parser that makes one read for a header of two bytes.  It finds an icon in the
last three bytes. -/
def readHeader (wish : Nat) (input : Input) : Option (List (MetaEntry Unit) × Input) :=
  (input.read 2 ⟨10, fun _ => wish⟩).map fun r => ([⟨(), 1, 3⟩], r.2)

/-- The stream behind the parser: `wish` bytes are buffered. -/
def behindHeader (wish : Nat) : Input :=
  .readSeekable {
    buffer := [1, 2, 3, 4].take wish
    input := ⟨[1, 2, 3, 4], wish⟩
    canSeek := false
    reportLength := none
    readPosition := wish
    inputPosition := wish }

theorem run_readHeader :
    (system [1, 2, 3, 4]).run fourBytes [.read 2 ⟨10, fun _ => 1⟩] = some (behindHeader 1) ∧
      (system [1, 2, 3, 4]).run fourBytes [.read 2 ⟨10, fun _ => 2⟩] =
        some (behindHeader 2) :=
  ⟨rfl, rfl⟩

/-- A header that comes byte by byte leaves one byte in the buffer, and the icon is
read from the input. -/
theorem icon_complete_fourBytes :
    ∃ info, getPKGInfo () (readHeader 1) fourBytes ⟨10, fun _ => 10⟩ = some info ∧
      info.iconData = some [2, 3, 4] := by
  have hopen : Opened [1, 2, 3, 4] fourBytes := ⟨rfl, rfl, rfl, rfl⟩
  have hparse : readHeader 1 fourBytes = some ([⟨(), 1, 3⟩], behindHeader 1) := rfl
  have hfind : ([⟨(), 1, 3⟩] : List (MetaEntry Unit)).find? (fun entry => entry.id = ()) =
      some ⟨(), 1, 3⟩ := rfl
  obtain ⟨info, hinfo, hicon⟩ := icon_complete_iff hopen run_readHeader.1 hparse hfind
    (by decide) ⟨10, fun _ => 10⟩
  refine ⟨info, hinfo, hicon.2 ⟨by decide, fun q hlo hhi _ => ?_⟩⟩
  show q - 1 < max 1 10
  change q < 1 + 3 at hhi
  omega

/-- A header that comes at once leaves two bytes in the buffer.  The read of the
icon ends there, and two of its bytes stay zero. -/
theorem icon_incomplete :
    (system [1, 2, 3, 4]).run fourBytes [.read 2 ⟨10, fun _ => 2⟩] =
        some (behindHeader 2) ∧
      readHeader 2 fourBytes = some ([⟨(), 1, 3⟩], behindHeader 2) ∧
      ((getPKGInfo () (readHeader 2) fourBytes ⟨10, fun _ => 10⟩).bind PKGInfo.iconData) =
        some [2, 0, 0] ∧
      window [1, 2, 3, 4] 1 3 = ([2, 3, 4] : List UInt8) ∧
      ((getPKGInfo () (readHeader 1) fourBytes ⟨10, fun _ => 10⟩).bind PKGInfo.iconData) =
        some [2, 3, 4] :=
  ⟨rfl, rfl, by decide, by decide, by decide⟩

end DirectPackageInstaller.PKGHelper
