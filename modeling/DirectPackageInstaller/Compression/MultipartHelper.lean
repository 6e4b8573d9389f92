import DirectPackageInstaller.Streams.SegmentedStream.Released

/-!
# Swapping the source of a volume

While an archive is extracted, `MultipartHelper` runs behind every read of a volume.  When
a volume has been read for a while it gets a `SegmentedStream`, and the volumes that had
one before get a plain connection again.

A volume has the state of its `SegmentedStream` as the model of that stream has it.  The
outcomes of the calls that may throw are given.

* `parts_eq_finished`, `parts_eq_stopped`: how the loop over the volumes ends, and what it
  has replaced by then.
* `kept_cancel_iff`: what becomes of a volume whose download is cancelled.
* `invisible_iff`: after which calls no reader is left behind and the flag is down.
-/

namespace DirectPackageInstaller.MultipartHelper

open SegmentedStream Transition

/-! ## The code -/

/-- A `FileHostStream`, and what the resource behind it holds. -/
structure FileHost where
  pageUrl : Option String
  singleConnection : Bool
  origin : Int → UInt8
  length : Int
  position : Int
  length_nonneg : 0 ≤ length

/-- A `SegmentedStream`.  `connection` is what `OpenSegment` opens. -/
structure Segmented where
  connection : FileHost
  cfg : Config
  state : State
  position : Int
  origin_eq : cfg.origin = connection.origin
  totalSize_eq : cfg.totalSize = connection.length
  bufferSize_le : cfg.bufferSize ≤ 2 * 1024 * 1024
  reachable : (system cfg).Reachable state

/-- `Base` of a volume. -/
inductive Base where
  | fileHost (stream : FileHost)
  | segmented (stream : Segmented)
  | other (origin : Int → UInt8) (length position : Int)

/-- The volumes at a read of one of them. -/
structure Call where
  hasInfo : Bool
  segmentedDownload : Bool
  /-- `PartsStream`. -/
  volumes : List Base
  /-- The index of the volume that was read. -/
  this : Nat
  this_lt : this < volumes.length
  totalReaded : Int
  inSegmentTranstion : Bool

/-- What comes of the calls of the helper. -/
structure Outcomes where
  /-- `OpenSegment` of a volume returns. -/
  opens : Nat → Bool
  /-- `GetTempFile` returns. -/
  tempFile : Bool
  isAndroid : Bool
  /-- `GetAvaiablePhysicalMemory()`; `none` where it throws. -/
  availableMemory : Option Int
  /-- `FileStream.Length` returns. -/
  readsLength : Bool
  /-- The memory is allocated. -/
  allocates : Bool
  /-- The constructor of `SegmentedStream` returns. -/
  constructs : Bool
  /-- What the buffer holds before. -/
  initialBuffer : Int → UInt8

/-- What is left by the helper. -/
structure Result where
  volumes : List Base
  inSegmentTranstion : Bool
  threw : Bool

/-- `Cancel()`. -/
def Segmented.cancel (g : Segmented) : Segmented :=
  { g with
    state := { g.state with cancelled := true }
    reachable := g.reachable.step (l := .cancel) rfl }

/-- The new connection of a volume, at the same position. -/
def Segmented.reopen (g : Segmented) : FileHost :=
  { g.connection with position := g.position }

/-- How the loop over the volumes ends. -/
inductive LoopEnd where
  | finished
  /-- A download in progress is cancelled, and the helper returns. -/
  | cancelled
  | threw
deriving DecidableEq, Repr

/-- The loop over the volumes, from the `i`-th one on.  The volume that is read has no
`SegmentedStream` here. -/
def parts (o : Outcomes) : Nat → List Base → List Base × LoopEnd
  | _, [] => ([], .finished)
  | i, .segmented g :: rest =>
    if inProgress g.state.segments then (.segmented g.cancel :: rest, .cancelled)
    else if o.opens i then
      (.fileHost g.reopen :: (parts o (i + 1) rest).1, (parts o (i + 1) rest).2)
    else (.segmented g :: rest, .threw)
  | i, part :: rest => (part :: (parts o (i + 1) rest).1, (parts o (i + 1) rest).2)

/-- Where the buffer of the download is. -/
inductive Buffer where
  | memory
  | file
deriving DecidableEq, Repr

/-- The choice of the buffer; `none` where it throws. -/
def chooseBuffer (f : FileHost) (o : Outcomes) : Option Buffer :=
  if o.isAndroid then some .file
  else
    match o.availableMemory with
    | none => none
    | some memory =>
      if !o.readsLength then none
      else if memory > f.length + 1024 * 1024 * 500 ∧ o.allocates then some .memory
      else some .file

/-- The buffer size that the constructor is given. -/
theorem bufferSize_pos : (0 : Int) < 1024 * 1024 := by decide

theorem bufferSize_le : (1024 * 1024 : Int) ≤ 2 * 1024 * 1024 := by decide

/-- The new `SegmentedStream`, at the position of the volume; `none` where something
throws.  Without a page URL the constructor has nothing to connect to. -/
def segmentedStream (f : FileHost) (o : Outcomes) : Option Segmented :=
  match chooseBuffer f o, f.pageUrl with
  | some _, some _ =>
    if o.constructs then
      let cfg : Config :=
        { totalSize := f.length, bufferSize := 1024 * 1024, origin := f.origin
          initialBuffer := o.initialBuffer, totalSize_nonneg := f.length_nonneg
          bufferSize_pos }
      some { connection := { f with position := 0 }, cfg, state := init cfg
             position := f.position, origin_eq := rfl, totalSize_eq := rfl
             bufferSize_le, reachable := .init rfl }
    else none
  | _, _ => none

/-- `SingleConnection` of a plain volume. -/
def Base.cantBuffer : Base → Bool
  | .fileHost f => f.singleConnection
  | _ => false

def Base.isSegmented : Base → Bool
  | .segmented _ => true
  | _ => false

/-- `Args.This.Base`. -/
def Call.base (c : Call) : Base := c.volumes.get ⟨c.this, c.this_lt⟩

/-- The tests in front of the loop. -/
def Call.enters (c : Call) : Bool :=
  c.hasInfo && !c.base.cantBuffer && c.segmentedDownload && !c.base.isSegmented &&
    decide (c.totalReaded > 1024 * 1024 * 4) && !c.inSegmentTranstion

/-- `MultipartHelper`. -/
def multipartHelper (c : Call) (o : Outcomes) : Result :=
  if !c.enters then ⟨c.volumes, c.inSegmentTranstion, false⟩
  else
    match parts o 0 c.volumes with
    | (volumes, .cancelled) => ⟨volumes, false, false⟩
    | (volumes, .threw) => ⟨volumes, true, true⟩
    | (volumes, .finished) =>
      match c.base with
      | .fileHost f =>
        if !o.tempFile then ⟨volumes, true, true⟩
        else
          match segmentedStream f o with
          | none => ⟨volumes, false, false⟩
          | some g => ⟨volumes.set c.this (.segmented g), false, false⟩
      | _ => ⟨volumes, false, false⟩

/-! ## What is asked of a swap -/

def Base.position : Base → Int
  | .fileHost f => f.position
  | .segmented g => g.position
  | .other _ _ position => position

/-- The bytes behind a volume, and their number. -/
def Base.content : Base → (Int → UInt8) × Int
  | .fileHost f => (f.origin, f.length)
  | .segmented g => (g.cfg.origin, g.cfg.totalSize)
  | .other origin length _ => (origin, length)

/-- The kind of a stream; a volume never gets another stream of the same kind. -/
inductive Kind where
  | fileHost
  | segmented
  | other
deriving DecidableEq, Repr

def Base.kind : Base → Kind
  | .fileHost _ => .fileHost
  | .segmented _ => .segmented
  | .other .. => .other

/-- A reader at the position is not left behind; a plain connection leaves none. -/
def Base.CanRead : Base → Prop
  | .segmented g => SegmentedStream.CanRead g.cfg g.state g.position
  | _ => True

/-- What is asked of a volume: a new stream has the same bytes at the same position, and
an old one can still be read. -/
structure Kept (before after : Base) : Prop where
  replaced : after.kind ≠ before.kind →
    after.position = before.position ∧ after.content = before.content
  readable : after.kind = before.kind → after.CanRead

/-- The decompressor does not notice the helper. -/
structure Invisible (c : Call) (r : Result) : Prop where
  volumes : List.Forall₂ Kept c.volumes r.volumes
  flag : r.inSegmentTranstion = false

/-! ## When it is so -/

/-- The rest of the volume is there, or the counters have reached the total size. -/
def Segmented.Released (g : Segmented) : Prop :=
  SegmentedStream.Released g.cfg g.state g.position

/-- No `SegmentedStream`, one that was not cancelled, or one that has what is needed. -/
def Base.Alive : Base → Prop
  | .segmented g => g.state.cancelled = false ∨ g.Released
  | _ => True

/-- The first volume whose download is in progress or whose connection is not opened, and
the volumes after it. -/
def firstStop (o : Outcomes) : Nat → List Base → Option (Segmented × List Base)
  | _, [] => none
  | i, .segmented g :: rest =>
    if inProgress g.state.segments || !o.opens i then some (g, rest)
    else firstStop o (i + 1) rest
  | i, _ :: rest => firstStop o (i + 1) rest

/-- The helper does nothing, and nothing was wrong before; or it gets through the volumes
and to its `try` block; or it cancels a download that is not needed any more, with nothing
wrong behind it. -/
def Quiet (c : Call) (o : Outcomes) : Prop :=
  (c.enters = false ∧ c.inSegmentTranstion = false ∧ ∀ b ∈ c.volumes, b.Alive) ∨
    (c.enters = true ∧ firstStop o 0 c.volumes = none ∧
      (c.base.kind = .fileHost → o.tempFile = true)) ∨
    (c.enters = true ∧ ∃ g back, firstStop o 0 c.volumes = some (g, back) ∧
      inProgress g.state.segments = true ∧ g.Released ∧ ∀ b ∈ back, b.Alive)

/-! ## One volume -/

theorem canRead_iff_alive (b : Base) : b.CanRead ↔ b.Alive := by
  cases b with
  | segmented g => exact canRead_iff g.bufferSize_le g.reachable g.position
  | fileHost | other => exact Iff.rfl

theorem kept_self_iff (b : Base) : Kept b b ↔ b.Alive := by
  rw [← canRead_iff_alive]
  exact ⟨fun h => h.readable rfl, fun h => ⟨fun hne => absurd rfl hne, fun _ => h⟩⟩

/-- A download that is cancelled must not be needed any more. -/
theorem kept_cancel_iff (g : Segmented) :
    Kept (.segmented g) (.segmented g.cancel) ↔ g.Released := by
  have hcan : (Base.segmented g.cancel).CanRead ↔ g.Released := by
    rw [canRead_iff_alive]
    constructor
    · rintro (h | h)
      · cases h
      · exact h.congr rfl rfl
    · exact fun h => Or.inr (h.congr rfl rfl)
  rw [← hcan]
  exact ⟨fun h => h.readable rfl, fun h => ⟨fun hne => absurd rfl hne, fun _ => h⟩⟩

/-- A volume with a new connection. -/
def reopened : Base → Base
  | .segmented g => .fileHost g.reopen
  | b => b

theorem kept_reopened (b : Base) : Kept b (reopened b) := by
  cases b with
  | fileHost | other => exact (kept_self_iff _).2 trivial
  | segmented g =>
    refine ⟨fun _ => ⟨rfl, ?_⟩, fun h => nomatch h⟩
    exact Prod.ext g.origin_eq.symm g.totalSize_eq.symm

theorem kept_segmentedStream {f : FileHost} {o : Outcomes} {g : Segmented}
    (h : segmentedStream f o = some g) : Kept (.fileHost f) (.segmented g) := by
  unfold segmentedStream at h
  split at h
  · obtain ⟨-, hg⟩ := Option.ite_none_right_eq_some.1 h
    rw [← Option.some.inj hg]
    refine ⟨fun _ => ⟨rfl, rfl⟩, ?_⟩
    rintro ⟨⟩
  · cases h

/-! ## The loop -/

/-- A loop that meets no stop replaces every `SegmentedStream`. -/
theorem parts_eq_finished {o : Outcomes} {i : Nat} {volumes : List Base}
    (h : firstStop o i volumes = none) :
    parts o i volumes = (volumes.map reopened, .finished) := by
  induction volumes generalizing i with
  | nil => rfl
  | cons part rest ih =>
    cases part with
    | fileHost | other =>
      have hrest : parts o (i + 1) rest = (rest.map reopened, .finished) := ih h
      unfold parts
      rw [hrest]
      rfl
    | segmented g =>
      unfold firstStop at h
      split at h
      · cases h
      · rename_i hgo
        rw [Bool.or_eq_true, not_or, Bool.not_eq_true', Bool.not_eq_false] at hgo
        unfold parts
        rw [if_neg hgo.1, if_pos hgo.2, ih h]
        rfl

/-- A loop that stops leaves the volumes from its stop on, the first of them cancelled
when its download is in progress. -/
theorem parts_eq_stopped {o : Outcomes} {i : Nat} {volumes back : List Base}
    {g : Segmented} (h : firstStop o i volumes = some (g, back)) :
    ∃ front, volumes = front ++ .segmented g :: back ∧
      parts o i volumes =
        if inProgress g.state.segments then
          (front.map reopened ++ .segmented g.cancel :: back, .cancelled)
        else (front.map reopened ++ .segmented g :: back, .threw) := by
  induction volumes generalizing i with
  | nil => cases h
  | cons part rest ih =>
    cases part with
    | fileHost | other =>
      obtain ⟨front, rfl, hrest⟩ := ih (i := i + 1) h
      refine ⟨_ :: front, rfl, ?_⟩
      unfold parts
      rw [hrest]
      split <;> rfl
    | segmented part =>
      unfold firstStop at h
      split at h
      · rename_i hstop
        cases h
        refine ⟨[], rfl, ?_⟩
        unfold parts
        by_cases hbusy : inProgress g.state.segments = true
        · rw [if_pos hbusy, if_pos hbusy]
          rfl
        · have hopens : ¬o.opens i = true := by simpa [hbusy] using hstop
          rw [if_neg hbusy, if_neg hbusy, if_neg hopens]
          rfl
      · rename_i hgo
        rw [Bool.or_eq_true, not_or, Bool.not_eq_true', Bool.not_eq_false] at hgo
        obtain ⟨front, rfl, hrest⟩ := ih h
        refine ⟨_ :: front, rfl, ?_⟩
        unfold parts
        rw [if_neg hgo.1, if_pos hgo.2, hrest]
        split <;> rfl

/-! ## The helper -/

theorem kept_map_reopened (volumes : List Base) :
    List.Forall₂ Kept volumes (volumes.map reopened) :=
  List.forall₂_map_right_iff.2 (List.forall₂_same.2 fun b _ => kept_reopened b)

theorem Call.getElem?_this (c : Call) : c.volumes[c.this]? = some c.base :=
  List.getElem?_eq_getElem c.this_lt

/-- The helper does nothing. -/
theorem invisible_of_not_enters {c : Call} {o : Outcomes} (h : c.enters = false) :
    Invisible c (multipartHelper c o) ↔
      c.inSegmentTranstion = false ∧ ∀ b ∈ c.volumes, b.Alive := by
  unfold multipartHelper
  rw [h]
  have hvolumes : List.Forall₂ Kept c.volumes c.volumes ↔ ∀ b ∈ c.volumes, b.Alive := by
    rw [List.forall₂_same]
    exact forall₂_congr fun b _ => kept_self_iff b
  rw [← hvolumes]
  exact ⟨fun h => ⟨h.flag, h.volumes⟩, fun h => ⟨h.2, h.1⟩⟩

/-- The helper gets through the volumes. -/
theorem invisible_of_finished {c : Call} {o : Outcomes} (h : c.enters = true)
    (hstop : firstStop o 0 c.volumes = none) :
    Invisible c (multipartHelper c o) ↔ (c.base.kind = .fileHost → o.tempFile = true) := by
  have hkept := kept_map_reopened c.volumes
  unfold multipartHelper
  rw [h, parts_eq_finished hstop]
  cases hbase : c.base with
  | segmented | other => exact iff_of_true ⟨hkept, rfl⟩ fun h => nomatch h
  | fileHost f =>
    cases htemp : o.tempFile with
    | false => exact iff_of_false (fun h => nomatch h.flag) fun h => nomatch h rfl
    | true =>
      refine iff_of_true ?_ fun _ => rfl
      dsimp only
      cases hnew : segmentedStream f o with
      | none => exact ⟨hkept, rfl⟩
      | some g =>
        exact ⟨Table.forall₂_set hkept (hbase ▸ c.getElem?_this) (kept_segmentedStream hnew), rfl⟩

/-- The helper stops at a volume. -/
theorem invisible_of_stopped {c : Call} {o : Outcomes} {g : Segmented}
    {back : List Base} (h : c.enters = true)
    (hstop : firstStop o 0 c.volumes = some (g, back)) :
    Invisible c (multipartHelper c o) ↔
      inProgress g.state.segments = true ∧ g.Released ∧ ∀ b ∈ back, b.Alive := by
  obtain ⟨front, hvolumes, hparts⟩ := parts_eq_stopped hstop
  unfold multipartHelper
  rw [h, hparts]
  by_cases hbusy : inProgress g.state.segments = true
  · rw [if_pos hbusy, and_iff_right hbusy]
    have hkept : List.Forall₂ Kept c.volumes
        (front.map reopened ++ .segmented g.cancel :: back) ↔
          g.Released ∧ ∀ b ∈ back, b.Alive := by
      rw [hvolumes, Table.forall₂_append_iff (kept_map_reopened front), List.forall₂_cons,
        kept_cancel_iff, List.forall₂_same]
      exact and_congr_right' (forall₂_congr fun b _ => kept_self_iff b)
    rw [← hkept]
    exact ⟨fun h => h.volumes, fun h => ⟨h, rfl⟩⟩
  · rw [if_neg hbusy]
    exact iff_of_false (fun h => nomatch h.flag) fun h => hbusy h.1

/-- After a call of the helper every volume is as it was or can be read as it could, and
the flag is down, exactly when the call is a quiet one. -/
theorem invisible_iff (c : Call) (o : Outcomes) :
    Invisible c (multipartHelper c o) ↔ Quiet c o := by
  unfold Quiet
  cases henter : c.enters with
  | false => simp [invisible_of_not_enters henter]
  | true =>
    cases hstop : firstStop o 0 c.volumes with
    | none => simp [invisible_of_finished henter hstop]
    | some stop =>
      obtain ⟨g, back⟩ := stop
      simp [invisible_of_stopped henter hstop]

/-- The connection of a volume of three bytes. -/
def threeBytes : FileHost where
  pageUrl := some "page"
  singleConnection := false
  origin := fun _ => 7
  length := 3
  position := 0
  length_nonneg := by decide

/-- A download that has just begun. -/
def begun : Segmented where
  connection := threeBytes
  cfg := sevens 3
  state := init (sevens 3)
  position := 0
  origin_eq := rfl
  totalSize_eq := rfl
  bufferSize_le := by decide
  reachable := .init rfl

/-- The first volume has been read for a while, the second one is being downloaded. -/
def twoVolumes : Call where
  hasInfo := true
  segmentedDownload := true
  volumes := [.fileHost threeBytes, .segmented begun]
  this := 0
  this_lt := by decide
  totalReaded := 1024 * 1024 * 5
  inSegmentTranstion := false

/-- Nothing throws. -/
def smooth : Outcomes where
  opens := fun _ => true
  tempFile := true
  isAndroid := false
  availableMemory := some 0
  readsLength := true
  allocates := true
  constructs := true
  initialBuffer := fun _ => 0

/-- A reader of the second volume is left behind: its download is cancelled before the
first byte, and the volume keeps it. -/
theorem cancelled_volume_stuck :
    ¬∀ c o, c.inSegmentTranstion = false → (∀ b ∈ c.volumes, b.CanRead) →
      Invisible c (multipartHelper c o) := by
  intro h
  have halive : ∀ b ∈ twoVolumes.volumes, b.CanRead := by
    intro b hb
    rw [canRead_iff_alive]
    rcases List.mem_pair.1 hb with rfl | rfl
    · trivial
    · exact Or.inl rfl
  have henter : twoVolumes.enters = true := by decide
  have hcall := (invisible_of_stopped henter rfl).1 (h twoVolumes smooth rfl halive)
  rcases hcall.2.1 with hsum | hrest
  · exact absurd hsum (by decide)
  · obtain ⟨seg, hmem, -, -, hgot⟩ := hrest.available 0 (by decide) (by decide)
    change seg ∈ [_] at hmem
    rw [List.mem_singleton] at hmem
    subst hmem
    exact absurd hgot (by decide)

end DirectPackageInstaller.MultipartHelper
