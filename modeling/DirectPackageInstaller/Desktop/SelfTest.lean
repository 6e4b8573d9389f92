import DirectPackageInstaller.Lib.Cursor

/-!
# The self-test of the segmented download

`RunSelfTest` hashes a direct and a segmented download, and compares two more of them
block by block.  A read may be short in every stream, and in each its own way.

* `download_eq`, `fillBuffer_eq`: short reads are filled up, as far as the stream goes.
* `verify_verdict`: what the comparison says about the streams.
* `selfTest_passes_iff`: which downloads pass the test.
* `mismatch_eq_some_iff`: between streams that do not end early, the reported offset is
  that of the first byte that differs.
-/

namespace DirectPackageInstaller.SelfTest

/-! ## The code -/

/-- A stream.  `wish` says how much a read delivers, call by call. -/
structure Source where
  cursor : Cursor UInt8
  wish : Nat → Nat
  calls : Nat

/-- `stream.Read(buffer, offset, count)`. -/
def Source.read (s : Source) (count : Nat) : List UInt8 × Source :=
  let r := s.cursor.read count (s.wish s.calls)
  (r.1, { s with cursor := r.2, calls := s.calls + 1 })

def bufferSize : Nat := 65536

/-- The loop of a download, which hashes what it reads. -/
def download (totalSize : Nat) (s : Source) (pos : Nat) (hashed : List UInt8) : List UInt8 :=
  if pos < totalSize then
    let r := s.read bufferSize
    if r.1.length = 0 then hashed
    else download totalSize r.2 (pos + r.1.length) (hashed ++ r.1)
  else hashed
termination_by totalSize - pos
decreasing_by
  have hread : ¬(s.read bufferSize).1.length = 0 := ‹_›
  omega

/-- `FillBuffer(stream, buffer, count, out read)`, behind the bytes that are read. -/
def fillBuffer (s : Source) (count : Nat) (filled : List UInt8) : List UInt8 × Source :=
  if filled.length < count then
    let r := s.read (count - filled.length)
    if r.1.length = 0 then (filled, r.2)
    else fillBuffer r.2 count (filled ++ r.1)
  else (filled, s)
termination_by count - filled.length
decreasing_by
  have hread : ¬(s.read (count - filled.length)).1.length = 0 := ‹_›
  rw [List.length_append]
  omega

/-- The index of the first bytes that differ. -/
def firstDifference : List UInt8 → List UInt8 → Option Nat
  | x :: xs, y :: ys => if x = y then (firstDifference xs ys).map (· + 1) else some 0
  | _, _ => none

/-- The loop of the verification: `verified` and `mismatchOffset`. -/
def verify (totalSize : Nat) (direct segmented : Source) (verified : Nat) : Nat × Option Nat :=
  if verified < totalSize then
    let target := min bufferSize (totalSize - verified)
    let d := fillBuffer direct target []
    let s := fillBuffer segmented target []
    if (decide (d.1.length > 0) != decide (s.1.length > 0)) || d.1.length != s.1.length then
      (verified, some (verified + min d.1.length s.1.length))
    else if d.1.length = 0 then (verified, none)
    else
      let mismatchOffset := (firstDifference d.1 s.1).map (verified + ·)
      if mismatchOffset.isSome then (verified, mismatchOffset)
      else verify totalSize d.2 s.2 (verified + d.1.length)
  else (verified, none)
termination_by totalSize - verified
decreasing_by
  have hread : ¬(fillBuffer direct (min bufferSize (totalSize - verified)) []).1.length = 0 := ‹_›
  omega

/-- The third pass, with the check for an early end. -/
def mismatch (totalSize : Nat) (direct segmented : Source) (verified : Nat) : Option Nat :=
  let r := verify totalSize direct segmented verified
  if r.2 = none ∧ r.1 ≠ totalSize then some r.1 else r.2

/-- `RunSelfTest`: whether the hashes match, and where corruption was detected. -/
def selfTest {β : Type} [DecidableEq β] (hash : List UInt8 → β) (totalSize : Nat)
    (direct segmented verificationDirect verificationSegmented : Source) : Bool × Option Nat :=
  let hash1 := hash (download totalSize direct 0 [])
  let hash2 := hash (download totalSize segmented 0 [])
  (hash1 = hash2, mismatch totalSize verificationDirect verificationSegmented 0)

/-! ## Reading -/

section Reading

variable {s : Source} {count totalSize pos : Nat} {filled hashed : List UInt8}

/-- One read goes on in the stream, by one byte at least unless it is at its end. -/
theorem Source.read_spec (s : Source) (count : Nat) :
    ∃ k, (s.read count).1.length = k ∧ k ≤ count ∧
      k ≤ s.cursor.content.length - s.cursor.position ∧
      (k = 0 → count = 0 ∨ s.cursor.content.length ≤ s.cursor.position) ∧
      (s.read count).1 = window s.cursor.content s.cursor.position k ∧
      (s.read count).2.cursor = s.cursor.advance k := by
  have hle := s.cursor.readSize_le count (s.wish s.calls)
  exact ⟨s.cursor.readSize count (s.wish s.calls), Cursor.read_length .., hle.1, hle.2,
    Cursor.readSize_eq_zero.1, rfl, rfl⟩

/-- However short the reads are, the buffer gets the next bytes of the stream. -/
theorem fillBuffer_eq (s : Source) (count : Nat) (filled : List UInt8) :
    (fillBuffer s count filled).1 =
        filled ++ window s.cursor.content s.cursor.position (count - filled.length) ∧
      (fillBuffer s count filled).2.cursor =
        s.cursor.advance
          (window s.cursor.content s.cursor.position (count - filled.length)).length := by
  fun_induction fillBuffer s count filled with
  | case1 s filled hlt r hr =>
    obtain ⟨k, hk, -, -, hzero, -, hnext⟩ := s.read_spec (count - filled.length)
    have hk0 : k = 0 := hk.symm.trans hr
    have hend : s.cursor.content.length ≤ s.cursor.position := by
      rcases hzero hk0 with h | h <;> omega
    have hlen : (window s.cursor.content s.cursor.position (count - filled.length)).length = 0 := by
      rw [window_length]
      omega
    rw [hlen, List.length_eq_zero_iff.1 hlen, ← hk0]
    exact ⟨(List.append_nil _).symm, hnext⟩
  | case2 s filled hlt r hr ih =>
    obtain ⟨k, hk, hkc, hkl, -, hwin, hnext⟩ := s.read_spec (count - filled.length)
    have hrest : count - (filled ++ r.1).length = count - filled.length - k := by
      rw [List.length_append, show r.1.length = k from hk]
      omega
    rw [hrest, show r.2.cursor = s.cursor.advance k from hnext] at ih
    have hsplit := window_append s.cursor.content s.cursor.position k
      (count - filled.length - k)
    rw [show k + (count - filled.length - k) = count - filled.length by omega] at hsplit
    constructor
    · rw [ih.1, show r.1 = _ from hwin, List.append_assoc]
      exact congrArg (filled ++ ·) hsplit
    · rw [ih.2, Cursor.advance_advance]
      simp only [window_length, Cursor.advance_content, Cursor.advance_position]
      congr 1
      omega
  | case3 s filled hlt =>
    rw [show count - filled.length = 0 by omega, window_zero, List.append_nil]
    exact ⟨rfl, rfl⟩

/-- A download of a stream that is no longer than its announced size gets all of it. -/
theorem download_eq (hle : s.cursor.content.length ≤ totalSize)
    (hpos : s.cursor.position = pos) :
    download totalSize s pos hashed = hashed ++ s.cursor.content.drop pos := by
  fun_induction download totalSize s pos hashed with
  | case1 s pos hashed hlt r hr =>
    obtain ⟨k, hk, -, -, hzero, -, -⟩ := s.read_spec bufferSize
    have hend : s.cursor.content.length ≤ s.cursor.position := by
      rcases hzero (hk.symm.trans hr) with h | h
      · exact absurd h (by decide)
      · exact h
    rw [List.drop_eq_nil_of_le (by omega), List.append_nil]
  | case2 s pos hashed hlt r hr ih =>
    obtain ⟨k, hk, -, -, -, hwin, hnext⟩ := s.read_spec bufferSize
    have hcursor : r.2.cursor = s.cursor.advance k := hnext
    rw [hcursor, Cursor.advance_content, Cursor.advance_position] at ih
    have hlen : r.1.length = k := hk
    rw [hlen] at ih
    rw [hlen, ih hle (by rw [hpos]), show r.1 = _ from hwin, List.append_assoc, hpos, window,
      ← List.drop_drop, List.take_append_drop]
  | case3 s pos hashed hlt =>
    rw [List.drop_eq_nil_of_le (by omega), List.append_nil]

end Reading

/-! ## Comparing -/

/-- There is a first difference exactly if the lists differ where both have a byte. -/
theorem firstDifference_eq_some_iff {xs ys : List UInt8} {i : Nat} :
    firstDifference xs ys = some i ↔
      i < xs.length ∧ i < ys.length ∧ xs[i]? ≠ ys[i]? ∧ ∀ q < i, xs[q]? = ys[q]? := by
  fun_induction firstDifference xs ys generalizing i with
  | case1 x xs ys ih =>
    cases i with
    | zero => simp
    | succ i =>
      simp only [Option.map_eq_some_iff, Nat.succ.injEq, exists_eq_right, ih,
        List.length_cons, List.getElem?_cons_succ]
      constructor
      · intro ⟨hx, hy, hne, hall⟩
        refine ⟨by omega, by omega, hne, fun q hq => ?_⟩
        cases q with
        | zero => rfl
        | succ q => exact hall q (by omega)
      · intro ⟨hx, hy, hne, hall⟩
        exact ⟨by omega, by omega, hne, fun q hq => hall (q + 1) (by omega)⟩
  | case2 x xs y ys hne =>
    cases i with
    | zero => simpa using hne
    | succ i =>
      have hfirst : (x :: xs)[0]? ≠ (y :: ys)[0]? := by simpa using hne
      constructor
      · intro h
        cases h
      · intro ⟨_, _, _, hall⟩
        exact absurd (hall 0 (by omega)) hfirst
  | case3 xs ys hnil =>
    constructor
    · intro h
      cases h
    · intro ⟨hx, hy, _, _⟩
      cases xs with
      | nil => exact absurd hx (by simp)
      | cons x xs =>
        cases ys with
        | nil => exact absurd hy (by simp)
        | cons y ys => exact absurd rfl (hnil x xs y ys rfl)

/-- Blocks of one length without a difference are the same. -/
theorem eq_of_firstDifference_none {xs ys : List UInt8} (hlen : xs.length = ys.length)
    (h : firstDifference xs ys = none) : xs = ys := by
  fun_induction firstDifference xs ys with
  | case1 x xs ys ih =>
    rw [ih (by simpa using hlen) (by simpa using h)]
  | case2 => cases h
  | case3 xs ys hnil =>
    cases xs with
    | nil => exact (List.length_eq_zero_iff.1 hlen.symm).symm
    | cons x xs =>
      cases ys with
      | nil => cases hlen
      | cons y ys => exact absurd rfl (hnil x xs y ys rfl)

/-- What the loop has found out when it ends at `r`, of streams with the contents `D` and
`S` that stood at `v`. -/
structure Verdict (D S : List UInt8) (totalSize v : Nat) (r : Nat × Option Nat) : Prop where
  le : v ≤ r.1
  le_total : r.1 ≤ totalSize
  agree : ∀ q, v ≤ q → q < r.1 → D[q]? = S[q]?
  within : r.1 = v ∨ r.1 ≤ D.length
  ended : r.2 = none → r.1 = totalSize ∨ (D.length ≤ r.1 ∧ S.length ≤ r.1)
  differs : ∀ off, r.2 = some off → r.1 ≤ off ∧ off < totalSize ∧ D[off]? ≠ S[off]?
  first : ∀ off, r.2 = some off → totalSize ≤ D.length → totalSize ≤ S.length →
    ∀ q, r.1 ≤ q → q < off → D[q]? = S[q]?

section Verdict

variable {D S : List UInt8} {totalSize v w off : Nat} {r : Nat × Option Nat}

/-- The loop stops at `v`. -/
theorem Verdict.stop (hv : v ≤ totalSize)
    (hend : v = totalSize ∨ (D.length ≤ v ∧ S.length ≤ v)) : Verdict D S totalSize v (v, none) where
  le := Nat.le_refl v
  le_total := hv
  agree := fun _ hle hlt => absurd hlt (Nat.not_lt.2 hle)
  within := .inl rfl
  ended := fun _ => hend
  differs := fun _ hoff => by cases hoff
  first := fun _ hoff => by cases hoff

/-- The loop finds a difference in the block at `v`. -/
theorem Verdict.found (hle : v ≤ off) (hlt : off < totalSize) (hne : D[off]? ≠ S[off]?)
    (hfirst : totalSize ≤ D.length → totalSize ≤ S.length →
      ∀ q, v ≤ q → q < off → D[q]? = S[q]?) :
    Verdict D S totalSize v (v, some off) where
  le := Nat.le_refl v
  le_total := Nat.le_of_lt (Nat.lt_of_le_of_lt hle hlt)
  agree := fun _ hle hlt => absurd hlt (Nat.not_lt.2 hle)
  within := .inl rfl
  ended := fun hnone => by cases hnone
  differs := by
    intro off' hoff
    cases hoff
    exact ⟨hle, hlt, hne⟩
  first := by
    intro off' hoff
    cases hoff
    exact hfirst

/-- The loop goes on behind a block in which the streams agree. -/
theorem Verdict.behind (h : Verdict D S totalSize w r) (hvw : v ≤ w) (hw : w ≤ D.length)
    (hsame : ∀ q, v ≤ q → q < w → D[q]? = S[q]?) : Verdict D S totalSize v r where
  le := Nat.le_trans hvw h.le
  le_total := h.le_total
  agree := by
    intro q hlo hhi
    rcases Nat.lt_or_ge q w with hin | hout
    · exact hsame q hlo hin
    · exact h.agree q hout hhi
  within := by
    right
    rcases h.within with heq | hle
    · rw [heq]
      exact hw
    · exact hle
  ended := h.ended
  differs := h.differs
  first := h.first

end Verdict

/-- One block: the next bytes, and a stream that stands behind them. -/
theorem fillBuffer_block {D : List UInt8} {v : Nat} {s : Source} (hs : s.cursor = ⟨D, v⟩)
    (target : Nat) :
    (fillBuffer s target []).1 = window D v target ∧
      (fillBuffer s target []).1.length = min target (D.length - v) ∧
      (fillBuffer s target []).2.cursor = ⟨D, v + (fillBuffer s target []).1.length⟩ := by
  have h := fillBuffer_eq s target []
  rw [hs] at h
  have hblock : (fillBuffer s target []).1 = window D v target := h.1
  refine ⟨hblock, ?_, ?_⟩
  · rw [hblock, window_length]
  · rw [h.2, hblock]
    rfl

/-- The bytes of a block are those of the stream. -/
theorem getElem?_block {D block : List UInt8} {v target i : Nat}
    (hblock : block = window D v target) (hi : i < block.length) :
    block[i]? = D[v + i]? := by
  have hlen : i < target := by
    rw [hblock, window_length] at hi
    omega
  rw [hblock, window_getElem?, if_pos hlen]

/-- The loop ends with a verdict about the rest of the streams. -/
theorem verify_verdict {D S : List UInt8} {totalSize : Nat} (direct segmented : Source)
    (v : Nat) (hd : direct.cursor = ⟨D, v⟩) (hs : segmented.cursor = ⟨S, v⟩)
    (hv : v ≤ totalSize) :
    Verdict D S totalSize v (verify totalSize direct segmented v) := by
  fun_induction verify totalSize direct segmented v with
  | case1 direct segmented v hlt target d s hsize =>
    obtain ⟨-, hdl, -⟩ := fillBuffer_block hd target
    obtain ⟨-, hsl, -⟩ := fillBuffer_block hs target
    change d.1.length = _ at hdl
    change s.1.length = _ at hsl
    have htarget : target ≤ totalSize - v := Nat.min_le_right _ _
    have hne : d.1.length ≠ s.1.length := by
      intro heq
      simp [heq] at hsize
    refine .found (by omega) (by omega) ?_ ?_
    · -- one of the two ends here
      rcases Nat.lt_or_ge d.1.length s.1.length with hlt | hge
      · rw [List.getElem?_eq_none (l := D) (by omega), List.getElem?_eq_getElem (l := S) (by omega)]
        exact (Option.some_ne_none _).symm
      · rw [List.getElem?_eq_none (l := S) (by omega), List.getElem?_eq_getElem (l := D) (by omega)]
        exact Option.some_ne_none _
    · intro hD hS
      omega
  | case2 direct segmented v hlt target d s hsize hzero =>
    obtain ⟨-, hdl, -⟩ := fillBuffer_block hd target
    obtain ⟨-, hsl, -⟩ := fillBuffer_block hs target
    change d.1.length = _ at hdl
    change s.1.length = _ at hsl
    have htarget : 0 < target := Nat.lt_min.2 ⟨by decide, by omega⟩
    have hlen : d.1.length = s.1.length := by
      by_contra hne
      simp [hne] at hsize
    exact .stop hv (.inr (by omega))
  | case3 direct segmented v hlt target d s hsize hzero mismatchOffset hfound =>
    obtain ⟨hdb, hdl, -⟩ := fillBuffer_block hd target
    obtain ⟨hsb, -, -⟩ := fillBuffer_block hs target
    change d.1.length = _ at hdl
    change d.1 = _ at hdb
    change s.1 = _ at hsb
    have htarget : target ≤ totalSize - v := Nat.min_le_right _ _
    obtain ⟨i, hdiff⟩ := Option.isSome_iff_exists.1 (Option.isSome_map ▸ hfound)
    have hoffset : mismatchOffset = some (v + i) := congrArg (Option.map (v + ·)) hdiff
    obtain ⟨hid, his, hne, hall⟩ := firstDifference_eq_some_iff.1 hdiff
    rw [getElem?_block hdb hid, getElem?_block hsb his] at hne
    rw [hoffset]
    refine .found (by omega) (by omega) hne ?_
    intro _ _ q hlo hq
    have hsame := hall (q - v) (by omega)
    rw [getElem?_block hdb (by omega), getElem?_block hsb (by omega),
      show v + (q - v) = q by omega] at hsame
    exact hsame
  | case4 direct segmented v hlt target d s hsize hzero mismatchOffset hnone ih =>
    obtain ⟨hdb, hdl, hdc⟩ := fillBuffer_block hd target
    obtain ⟨hsb, hsl, hsc⟩ := fillBuffer_block hs target
    change d.1 = _ at hdb
    change s.1 = _ at hsb
    change d.1.length = _ at hdl
    change s.1.length = _ at hsl
    have htarget : target ≤ totalSize - v := Nat.min_le_right _ _
    have hlen : d.1.length = s.1.length := by
      by_contra hne
      simp [hne] at hsize
    have hsame : firstDifference d.1 s.1 = none := by
      rw [Option.not_isSome_iff_eq_none] at hnone
      exact Option.map_eq_none_iff.1 hnone
    have heq : d.1 = s.1 := eq_of_firstDifference_none hlen hsame
    have hrest := ih hdc (by rw [hlen]; exact hsc) (by omega)
    refine hrest.behind (by omega) (by omega) ?_
    intro q hlo hhi
    have hd' := getElem?_block (i := q - v) hdb (by omega)
    have hs' := getElem?_block (i := q - v) hsb (by omega)
    rw [show v + (q - v) = q by omega] at hd' hs'
    rw [← hd', ← hs']
    exact congrArg (·[q - v]?) heq
  | case5 direct segmented v hge => exact .stop hv (.inl (by omega))

/-! ## The result -/

section Result

variable {D S : List UInt8} {totalSize off : Nat} {direct segmented : Source}

/-- Lists that agree at every index have the same first elements. -/
theorem take_eq_take_iff :
    D.take totalSize = S.take totalSize ↔ ∀ q < totalSize, D[q]? = S[q]? := by
  constructor
  · intro h q hq
    rw [← List.getElem?_take_of_lt hq, h, List.getElem?_take_of_lt hq]
  · intro h
    apply List.ext_getElem?
    intro q
    rw [List.getElem?_take, List.getElem?_take]
    split
    · exact h q ‹_›
    · rfl

/-- The pass finds nothing exactly if neither stream ends early and they agree. -/
theorem mismatch_eq_none_iff (hd : direct.cursor = ⟨D, 0⟩) (hs : segmented.cursor = ⟨S, 0⟩) :
    mismatch totalSize direct segmented 0 = none ↔
      totalSize ≤ D.length ∧ D.take totalSize = S.take totalSize := by
  have hverdict := verify_verdict direct segmented 0 hd hs (Nat.zero_le totalSize)
  rw [mismatch, take_eq_take_iff]
  generalize verify totalSize direct segmented 0 = r at hverdict
  constructor
  · intro h
    split at h
    · cases h
    · rename_i hend
      have hend : r.1 = totalSize := by
        by_contra hne
        exact hend ⟨h, hne⟩
      refine ⟨?_, fun q hq => hverdict.agree q (Nat.zero_le q) (hend ▸ hq)⟩
      rcases hverdict.within with hzero | hle <;> omega
  · intro ⟨hlen, hagree⟩
    have hnone : r.2 = none := by
      rw [Option.eq_none_iff_forall_ne_some]
      intro off hoff
      obtain ⟨-, hlt, hne⟩ := hverdict.differs off hoff
      exact hne (hagree off hlt)
    have hend : r.1 = totalSize := by
      have hle := hverdict.le_total
      rcases hverdict.ended hnone with h | h <;> omega
    rw [if_neg fun h => h.2 hend, hnone]

/-- An offset that the pass reports is the first one at which the streams differ, if they do
not end early. -/
theorem mismatch_first (hd : direct.cursor = ⟨D, 0⟩) (hs : segmented.cursor = ⟨S, 0⟩)
    (hD : totalSize ≤ D.length) (hS : totalSize ≤ S.length)
    (h : mismatch totalSize direct segmented 0 = some off) :
    off < totalSize ∧ D[off]? ≠ S[off]? ∧ ∀ q < off, D[q]? = S[q]? := by
  have hverdict := verify_verdict direct segmented 0 hd hs (Nat.zero_le totalSize)
  rw [mismatch] at h
  generalize verify totalSize direct segmented 0 = r at hverdict h
  split at h
  · rename_i hearly
    have hle := hverdict.le_total
    rcases hverdict.ended hearly.1 with hend | hend
    · exact absurd hend hearly.2
    · exact absurd (show r.1 = totalSize by omega) hearly.2
  · obtain ⟨-, hlt, hne⟩ := hverdict.differs off h
    refine ⟨hlt, hne, fun q hq => ?_⟩
    rcases Nat.lt_or_ge q r.1 with hbefore | hbehind
    · exact hverdict.agree q (Nat.zero_le q) hbefore
    · exact hverdict.first off h hD hS q hbehind hq

/-- Between streams that do not end early, the pass reports an offset exactly if the streams
differ there for the first time. -/
theorem mismatch_eq_some_iff (hd : direct.cursor = ⟨D, 0⟩) (hs : segmented.cursor = ⟨S, 0⟩)
    (hD : totalSize ≤ D.length) (hS : totalSize ≤ S.length) :
    mismatch totalSize direct segmented 0 = some off ↔
      off < totalSize ∧ D[off]? ≠ S[off]? ∧ ∀ q < off, D[q]? = S[q]? := by
  refine ⟨mismatch_first hd hs hD hS, ?_⟩
  intro ⟨hlt, hne, hbefore⟩
  have hsome : mismatch totalSize direct segmented 0 ≠ none := by
    rw [Ne, mismatch_eq_none_iff hd hs, take_eq_take_iff]
    exact fun hnone => hne (hnone.2 off hlt)
  obtain ⟨found, hfound⟩ := Option.ne_none_iff_exists'.1 hsome
  obtain ⟨-, hdiffer, hfirst⟩ := mismatch_first hd hs hD hS hfound
  have heq : found = off := by
    rcases Nat.lt_trichotomy found off with h | h | h
    · exact absurd (hbefore found h) hdiffer
    · exact h
    · exact absurd (hfirst off h) hne
  rw [hfound, heq]

/-- The test passes exactly if the hashes of the downloads are the same, and the two streams
of the verification agree in all the announced bytes. -/
theorem selfTest_passes_iff {β : Type} [DecidableEq β] {hash : List UInt8 → β}
    {D' S' : List UInt8} {direct' segmented' : Source} (hd : direct.cursor = ⟨D, 0⟩)
    (hs : segmented.cursor = ⟨S, 0⟩) (hd' : direct'.cursor = ⟨D', 0⟩)
    (hs' : segmented'.cursor = ⟨S', 0⟩) (hD : D.length ≤ totalSize) (hS : S.length ≤ totalSize) :
    selfTest hash totalSize direct segmented direct' segmented' = (true, none) ↔
      hash D = hash S ∧ totalSize ≤ D'.length ∧ D'.take totalSize = S'.take totalSize := by
  have hdown : download totalSize direct 0 [] = D := by
    rw [download_eq (by rw [hd]; exact hD) (by rw [hd]), hd, List.nil_append, List.drop_zero]
  have hdown' : download totalSize segmented 0 [] = S := by
    rw [download_eq (by rw [hs]; exact hS) (by rw [hs]), hs, List.nil_append, List.drop_zero]
  rw [selfTest, hdown, hdown', Prod.mk.injEq, decide_eq_true_iff, mismatch_eq_none_iff hd' hs']

end Result

/-- A stream that delivers two bytes at a time. -/
def steady (content : List UInt8) : Source := ⟨⟨content, 0⟩, fun _ => 2, 0⟩

/-- A stream whose reads get shorter. -/
def slowing (content : List UInt8) : Source := ⟨⟨content, 0⟩, fun n => 3 - n, 0⟩

/-- A checksum in the place of SHA-256. -/
def checksum (content : List UInt8) : Nat :=
  content.foldl (fun sum b => 31 * sum + b.toNat) 0

theorem mismatch_eq_some_iff_steady :
    mismatch 4 (steady [1, 2, 3, 4]) (slowing [1, 2, 5, 4]) 0 = some 2 :=
  (mismatch_eq_some_iff rfl rfl (by decide) (by decide)).2
    ⟨by decide, by decide, by decide⟩

theorem selfTest_passes_iff_steady :
    selfTest checksum 4 (steady [1, 2, 3, 4]) (slowing [1, 2, 3, 4]) (slowing [1, 2, 3, 4])
      (steady [1, 2, 3, 4]) = (true, none) :=
  (selfTest_passes_iff rfl rfl rfl rfl (by decide) (by decide)).2 ⟨rfl, by decide, rfl⟩

end DirectPackageInstaller.SelfTest
