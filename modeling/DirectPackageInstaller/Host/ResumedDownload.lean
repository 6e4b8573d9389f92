import DirectPackageInstaller.Host.Responses
import DirectPackageInstaller.Lib.Memory

/-!
# A download in several requests

The console does not get a package in one request.  It asks for a part, the
transfer may break anywhere, and it asks again from where it stands.  The
client here follows HTTP: it appends the body of a 206, takes the body of a 200
as the content from its start, and ignores a refusal.

* `answer_eq`: what `File` answers to the client's header, at any position.
* `received_prefix`: whatever is asked for and wherever transfers break, the
  client has a prefix of the content, and it has all of it after as many
  requests as there are bytes, when no transfer stays empty.
-/

namespace DirectPackageInstaller.ResumedDownload

open Text HttpRange Responses Memory

/-! ## The client -/

/-- One request from the position where the client stands, to `last` or to the
end, of which `arrives` bytes come through. -/
structure Transfer where
  last : Option Nat
  arrives : Nat
  last_lt : ∀ b, last = some b → (b : Int) < 2 ^ 63

/-- A request to the end. -/
def Transfer.rest (arrives : Nat) : Transfer where
  last := none
  arrives
  last_lt := by simp

/-- `bytes={position}-{last}`. -/
def header (position : Nat) (last : Option Nat) : Text :=
  "bytes=".toList ++ decimal position ++ '-' :: (last.map decimal).getD []

/-- The client after an answer. -/
def receive (content : Int → UInt8) (received : List UInt8) (a : Answer) (arrives : Nat) :
    List UInt8 :=
  match a.body with
  | none => received
  | some (s, n) =>
    let body := (slice content s n.toNat).take arrives
    if a.head.statusCode = 206 then received ++ body
    else if a.head.statusCode = 200 then body
    else received

/-- One request to the file service. -/
def request (totalSize : Int) (content : Int → UInt8) (received : List UInt8) (t : Transfer) :
    List UInt8 :=
  match file (some (header received.length t.last)) totalSize with
  | none => received
  | some a => receive content received a t.arrives

/-- A download that starts with nothing. -/
def download (totalSize : Int) (content : Int → UInt8) (transfers : List Transfer) : List UInt8 :=
  transfers.foldl (request totalSize content) []

/-! ## The answers -/

theorem number_decimal {n : Nat} (h : (n : Int) < 2 ^ 63) : Number (decimal n) n :=
  ⟨digits_decimal n, h⟩

/-- The client's header is well formed. -/
theorem rangeHeader_header (position : Nat) (last : Option Nat) :
    RangeHeader (decimal position) ((last.map decimal).getD []) (header position last) := by
  have h : RangeHeader (decimal position) ((last.map decimal).getD []) _ :=
    .mk [] "bytes".toList [] [] [] [] [] [] white_nil white_nil white_nil white_nil white_nil
      white_nil (by decide) (Or.inl rfl)
  simpa [header] using h

theorem ofHeader_header {position : Nat} (last : Option Nat)
    (hposition : (position : Int) < 2 ^ 63) (hlast : ∀ b, last = some b → (b : Int) < 2 ^ 63) :
    ofHeader (header position last) =
      if ∃ b, last = some b ∧ b < position then { refused with begin := position }
      else span position (last.map Int.ofNat) := by
  have hfirst := number_decimal hposition
  have hheader := rangeHeader_header position last
  cases last with
  | none =>
    rw [ofHeader_rangeHeader hheader hfirst.trimmed trimmed_nil (hfirst.ne (by decide))
      ⟨hfirst.ne (by decide), List.not_mem_nil⟩, if_neg (by simp)]
    exact ofEnds_open hfirst (Or.inl rfl)
  | some b =>
    have hend := number_decimal (hlast b rfl)
    rw [ofHeader_rangeHeader hheader hfirst.trimmed hend.trimmed (hfirst.ne (by decide))
      ⟨hfirst.ne (by decide), hend.ne (by decide)⟩]
    have hspan := ofEnds_span hfirst hend
    by_cases hlt : b < position
    · rw [if_pos hlt] at hspan
      rw [if_pos ⟨b, rfl, hlt⟩]
      exact hspan
    · rw [if_neg hlt] at hspan
      rw [if_neg (by simpa using hlt)]
      exact hspan

/-- How many bytes the body of an answer has, for a client inside the content. -/
def bodyLength (totalSize : Int) (position : Nat) (last : Option Nat) : Int :=
  max 0 (min ((last.map Int.ofNat).getD (totalSize - 1)) (totalSize - 1) - position + 1)

/-- What the file service answers to the client: the part behind what it has,
or the refusal when there is none. -/
theorem answer_eq {totalSize : Int} {position : Nat} {last : Option Nat} (hpos : 0 < totalSize)
    (hfits : totalSize < 2 ^ 63) (hin : position ≤ totalSize)
    (hlast : ∀ b, last = some b → (b : Int) < 2 ^ 63)
    (hn : 0 < bodyLength totalSize position last) :
    file (some (header position last)) totalSize = some {
      head := ⟨206, some (bodyLength totalSize position last),
        some (partText position (position + bodyLength totalSize position last - 1) totalSize)⟩
      body := some (position, bodyLength totalSize position last) } := by
  have hheader := ofHeader_header last (show (position : Int) < 2 ^ 63 by omega) hlast
  have hnot : ¬ ∃ b, last = some b ∧ b < position := by
    intro ⟨b, hb, hlt⟩
    rw [bodyLength, hb, Option.map_some, Option.getD_some] at hn
    have : (Int.ofNat b) = (b : Int) := rfl
    omega
  have hstop : ∀ e, last.map Int.ofNat = some e → (position : Int) ≤ e := by
    intro e he
    obtain ⟨b, hb, rfl⟩ := Option.map_eq_some_iff.1 he
    by_contra hlt
    exact hnot ⟨b, hb, by simpa using hlt⟩
  rw [if_neg hnot] at hheader
  have hselection :=
    selection_span (position : Int) (last.map Int.ofNat) hpos hfits (by omega) hstop
  rw [min_eq_left hin] at hselection
  change Selection _ _ _ (bodyLength totalSize position last) at hselection
  have hsend := sendStream_selection hpos hfits (hheader ▸ hselection)
  rw [if_neg (by omega)] at hsend
  exact hsend

/-- Nothing is sent where there is nothing to send. -/
theorem answer_nothing {totalSize : Int} {position : Nat} {last : Option Nat}
    (hpos : 0 < totalSize) (hfits : totalSize < 2 ^ 63) (hin : position ≤ totalSize)
    (hlast : ∀ b, last = some b → (b : Int) < 2 ^ 63)
    (hn : bodyLength totalSize position last = 0) :
    ∃ a, file (some (header position last)) totalSize = some a ∧ a.body = none := by
  have hheader := ofHeader_header last (show (position : Int) < 2 ^ 63 by omega) hlast
  have hselection : ∃ s, Selection (ofHeader (header position last)) totalSize s 0 := by
    split at hheader
    · rw [hheader]
      exact ⟨0, selection_invalid (Or.inl rfl)⟩
    · rename_i hnot
      have hstop : ∀ e, last.map Int.ofNat = some e → (position : Int) ≤ e := by
        intro e he
        obtain ⟨b, hb, rfl⟩ := Option.map_eq_some_iff.1 he
        by_contra hlt
        exact hnot ⟨b, hb, by simpa using hlt⟩
      have hspan := selection_span (position : Int) (last.map Int.ofNat) hpos hfits (by omega) hstop
      rw [min_eq_left hin] at hspan
      change Selection _ _ _ (bodyLength totalSize position last) at hspan
      rw [hn] at hspan
      rw [hheader]
      exact ⟨_, hspan⟩
  obtain ⟨s, hselection⟩ := hselection
  have hsend := sendStream_selection hpos hfits hselection
  rw [if_pos rfl] at hsend
  exact ⟨_, hsend, rfl⟩

/-! ## The content so far -/

/-- How far a request brings the client. -/
def advance (totalSize : Int) (position : Nat) (t : Transfer) : Nat :=
  min t.arrives (bodyLength totalSize position t.last).toNat

theorem take_slice (content : Int → UInt8) (position : Int) (n arrives : Nat) :
    (slice content position n).take arrives = slice content position (min arrives n) := by
  rw [slice, slice, ← List.map_take, List.take_range]

theorem slice_append (content : Int → UInt8) (position n : Nat) :
    slice content 0 position ++ slice content position n = slice content 0 (position + n) := by
  simp only [slice, List.range_add, List.map_append, List.map_map]
  congr 1
  apply List.map_congr_left
  intro i _
  simp

/-- One request leaves the client with a prefix of the content. -/
theorem request_slice {totalSize : Int} (hpos : 0 < totalSize) (hfits : totalSize < 2 ^ 63)
    (content : Int → UInt8) {position : Nat} (hin : position ≤ totalSize) (t : Transfer) :
    request totalSize content (slice content 0 position) t =
      slice content 0 (position + advance totalSize position t) := by
  unfold request advance
  rw [slice_length]
  by_cases hn : bodyLength totalSize position t.last = 0
  · obtain ⟨a, ha, hbody⟩ := answer_nothing hpos hfits hin t.last_lt hn
    rw [ha, hn]
    simp [receive, hbody]
  · have hnonneg : 0 ≤ bodyLength totalSize position t.last := le_max_left _ _
    rw [answer_eq hpos hfits hin t.last_lt (by omega)]
    simp only [receive, if_true]
    rw [take_slice, slice_append]

theorem advance_le {totalSize : Int} {position : Nat} (hin : position ≤ totalSize)
    (t : Transfer) : ((position + advance totalSize position t : Nat) : Int) ≤ totalSize := by
  unfold advance bodyLength
  omega

/-- A request that asks for something, of which something arrives. -/
def Brings (position : Nat) (t : Transfer) : Prop :=
  0 < t.arrives ∧ ∀ b, t.last = some b → position ≤ b

theorem advance_pos {totalSize : Int} {position : Nat} (hin : position < totalSize)
    {t : Transfer} (ht : Brings position t) : 0 < advance totalSize position t := by
  obtain ⟨harrives, hlast⟩ := ht
  have hbody : 0 < bodyLength totalSize position t.last := by
    unfold bodyLength
    cases hb : t.last with
    | none =>
      rw [Option.map_none, Option.getD_none]
      omega
    | some b =>
      have hle := hlast b hb
      rw [Option.map_some, Option.getD_some]
      have hcast : Int.ofNat b = (b : Int) := rfl
      omega
  unfold advance
  omega

/-- A run of requests, by induction on it: the client goes from prefix to
prefix. -/
theorem download_from {totalSize : Int} (hpos : 0 < totalSize) (hfits : totalSize < 2 ^ 63)
    (content : Int → UInt8) (transfers : List Transfer) :
    ∀ position : Nat, position ≤ totalSize →
      ∃ k : Nat, transfers.foldl (request totalSize content) (slice content 0 position) =
        slice content 0 k ∧ k ≤ totalSize ∧ position ≤ k ∧
        ((∀ t ∈ transfers, 0 < t.arrives ∧ t.last = none) →
          min totalSize (position + transfers.length) ≤ k) := by
  induction transfers with
  | nil =>
    intro position hin
    exact ⟨position, rfl, hin, Nat.le_refl _, fun _ => by simp⟩
  | cons t transfers ih =>
    intro position hin
    obtain ⟨k, hk, hle, hge, hall⟩ := ih _ (advance_le hin t)
    refine ⟨k, ?_, hle, by omega, fun hbrings => ?_⟩
    · rw [List.foldl_cons, request_slice hpos hfits content hin]
      exact hk
    · have hrest := hall fun u hu => hbrings u (List.mem_cons_of_mem _ hu)
      obtain ⟨harrives, hlast⟩ := hbrings t (List.mem_cons_self ..)
      rw [List.length_cons]
      by_cases hdone : (position : Int) < totalSize
      · have hbringsNow : Brings position t := by
          refine ⟨harrives, fun b hb => ?_⟩
          rw [hlast] at hb
          cases hb
        have hstep := advance_pos hdone hbringsNow
        omega
      · omega

/-- Whatever a client asks for and wherever its transfers break, what it has is
a prefix of the content. -/
theorem received_prefix {totalSize : Int} (hpos : 0 < totalSize) (hfits : totalSize < 2 ^ 63)
    (content : Int → UInt8) (transfers : List Transfer) :
    ∃ k : Nat, download totalSize content transfers = slice content 0 k ∧ k ≤ totalSize ∧
      ((∀ t ∈ transfers, 0 < t.arrives ∧ t.last = none) →
        min totalSize transfers.length ≤ k) := by
  obtain ⟨k, hk, hle, -, hall⟩ := download_from hpos hfits content transfers 0 (by omega)
  refine ⟨k, hk, hle, fun h => ?_⟩
  have := hall h
  omega

/-- Four bytes in two requests, of which the first breaks. -/
theorem received_prefix_twoRequests :
    ∃ k : Nat, download 4 (fun _ => 7) [.rest 1, .rest 3] = slice (fun _ => 7) 0 k ∧
      k ≤ (4 : Int) ∧
      ((∀ t ∈ [Transfer.rest 1, .rest 3], 0 < t.arrives ∧ t.last = none) → min (4 : Int) 2 ≤ k) :=
  received_prefix (by decide) (by decide) (fun _ => 7) [.rest 1, .rest 3]

end DirectPackageInstaller.ResumedDownload
