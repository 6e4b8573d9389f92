import DirectPackageInstaller.Host.Links
import DirectPackageInstaller.Lib.Tiling
import Mathlib.Data.List.Sort
import DirectPackageInstaller.Streams.MergedStream

/-!
# Package manifests

`PS4Server.RegisterJSON` describes a package to the console by a manifest, and
with `AutoSplit` cuts it into pieces of at most 4 GiB, each with a split link.
`SplitHelper.OpenJSON` goes the other way: it opens the pieces of a manifest,
in the order of their offsets, as one `MergedStream`.  It takes the offsets of
the merged stream from the sizes and not from the manifest.

* `mem_piecesLoop`, `tiles_piecesLoop`, `windows_piecesLoop`: the loop of
  `RegisterJSON` cuts the package without a gap.
* `orderByFileOffset_perm`: sorting undoes any order of the listing.
* `split_then_merge`: opening the manifest, its pieces listed in any order,
  gives the package back.
-/

namespace DirectPackageInstaller.Manifest

open Text Links Tiling

/-- One piece of a package. -/
structure PkgPiece where
  url : Text
  fileOffset : Nat
  fileSize : Nat
  hashValue : Text
  deriving DecidableEq, Repr

/-- What the console is told about a package. -/
structure PKGManifest where
  originalFileSize : Nat
  packageDigest : Text
  numberOfSplitFiles : Nat
  pieces : List PkgPiece
  deriving DecidableEq, Repr

/-! ## Splitting -/

def maxPieceSize : Nat := 4294967296

/-- The hash that every piece gets. -/
def noHash : Text := "0000000000000000000000000000000000000000".toList

/-- The size of the next piece. -/
def pieceSize (remaining : Nat) : Nat :=
  if remaining > maxPieceSize then maxPieceSize else remaining

theorem pieceSize_le (remaining : Nat) :
    pieceSize remaining ≤ remaining ∧ pieceSize remaining ≤ maxPieceSize := by
  unfold pieceSize
  split <;> omega

theorem pieceSize_pos {remaining : Nat} (h : 0 < remaining) : 0 < pieceSize remaining := by
  unfold pieceSize
  split
  · decide
  · exact h

/-- The loop of `RegisterJSON`, with `offset` behind it and `remaining` ahead. -/
def piecesLoop (host url : Text) (offset remaining : Nat) : List PkgPiece :=
  if 0 < remaining then
    { url := splitLink host url offset (pieceSize remaining)
      fileOffset := offset
      fileSize := pieceSize remaining
      hashValue := noHash } ::
        piecesLoop host url (offset + pieceSize remaining)
          (remaining - pieceSize remaining)
  else []
termination_by remaining
decreasing_by
  have := pieceSize_pos ‹_›
  omega

/-- The manifest that `RegisterJSON` serializes. -/
def registerManifest (url host : Text) (packageSize : Nat) (digest : Text)
    (autoSplit : Bool) : PKGManifest :=
  let pieces :=
    if autoSplit then piecesLoop host url 0 packageSize
    else [{ url, fileOffset := 0, fileSize := packageSize, hashValue := noHash }]
  { originalFileSize := packageSize
    packageDigest := digest
    numberOfSplitFiles := if autoSplit then pieces.length else 1
    pieces }

/-! ## Merging -/

/-- `orderby x.fileOffset ascending`, which is stable. -/
def orderByFileOffset (pieces : List PkgPiece) : List PkgPiece :=
  pieces.insertionSort fun a b => a.fileOffset ≤ b.fileOffset

/-- The streams that `OpenJSON` opens.  `opened` is `new FileHostStream(url)`. -/
def openedUrls (opened : Text → Cursor UInt8) (pieces : List PkgPiece) :
    List (Cursor UInt8) :=
  (orderByFileOffset pieces).map fun piece => opened piece.url

/-- The sizes that `OpenJSON` reads. -/
def openedSizes (pieces : List PkgPiece) : List Nat :=
  (orderByFileOffset pieces).map fun piece => piece.fileSize

/-- `SplitHelper.OpenJSON`, behind the parser. -/
def openJSON (opened : Text → Cursor UInt8) (info : PKGManifest) :
    Option MergedStream :=
  MergedStream.create (openedUrls opened info.pieces) (openedSizes info.pieces)

/-! ## The pieces -/

/-- The pieces have the sizes that the console takes, and their links. -/
theorem mem_piecesLoop (host url : Text) (offset remaining : Nat) :
    ∀ piece ∈ piecesLoop host url offset remaining,
      0 < piece.fileSize ∧ piece.fileSize ≤ maxPieceSize ∧
      offset ≤ piece.fileOffset ∧ piece.fileOffset + piece.fileSize ≤ offset + remaining ∧
      piece.url = splitLink host url piece.fileOffset piece.fileSize := by
  induction offset, remaining using piecesLoop.induct with
  | case1 offset remaining hpos ih =>
    have hle := pieceSize_le remaining
    intro piece hpiece
    rw [piecesLoop, if_pos hpos] at hpiece
    rcases List.mem_cons.1 hpiece with rfl | hpiece
    · exact ⟨pieceSize_pos hpos, hle.2, Nat.le_refl offset,
        Nat.add_le_add_left hle.1 offset, rfl⟩
    · obtain ⟨h₁, h₂, h₃, h₄, h₅⟩ := ih piece hpiece
      exact ⟨h₁, h₂, by omega, by omega, h₅⟩
  | case2 offset remaining hpos =>
    intro piece hpiece
    rw [piecesLoop, if_neg hpos] at hpiece
    exact absurd hpiece List.not_mem_nil

/-- The pieces tile the package. -/
theorem tiles_piecesLoop (host url : Text) (offset remaining : Nat) :
    Tiles ((piecesLoop host url offset remaining).map fun piece =>
      (piece.fileOffset, piece.fileOffset + piece.fileSize))
      offset (offset + remaining) := by
  induction offset, remaining using piecesLoop.induct with
  | case1 offset remaining hpos ih =>
    have hle := (pieceSize_le remaining).1
    have hend : offset + pieceSize remaining + (remaining - pieceSize remaining) =
        offset + remaining := by omega
    rw [hend] at ih
    rw [piecesLoop, if_pos hpos]
    exact ih.cons (Nat.le_add_right _ _) (by omega)
  | case2 offset remaining hpos =>
    have hzero : remaining = 0 := by omega
    rw [piecesLoop, if_neg hpos, hzero]
    exact tiles_nil offset

/-- The pieces are listed in the order of their offsets. -/
theorem pairwise_piecesLoop (host url : Text) (offset remaining : Nat) :
    (piecesLoop host url offset remaining).Pairwise fun a b =>
      a.fileOffset < b.fileOffset := by
  induction offset, remaining using piecesLoop.induct with
  | case1 offset remaining hpos ih =>
    have hsize := pieceSize_pos hpos
    rw [piecesLoop, if_pos hpos]
    refine List.pairwise_cons.2 ⟨fun piece hpiece => ?_, ih⟩
    have := (mem_piecesLoop host url _ _ piece hpiece).2.2.1
    dsimp only
    omega
  | case2 offset remaining hpos =>
    rw [piecesLoop, if_neg hpos]
    exact List.Pairwise.nil

/-- The windows of the pieces, joined, are the window of all of them. -/
theorem windows_piecesLoop (host url : Text) (source : List UInt8)
    (offset remaining : Nat) :
    ((piecesLoop host url offset remaining).map fun piece =>
      window source piece.fileOffset piece.fileSize).flatten =
      window source offset remaining := by
  induction offset, remaining using piecesLoop.induct with
  | case1 offset remaining hpos ih =>
    have hle := (pieceSize_le remaining).1
    have hsum : pieceSize remaining + (remaining - pieceSize remaining) = remaining := by
      omega
    rw [piecesLoop, if_pos hpos, List.map_cons, List.flatten_cons, ih, window_append, hsum]
  | case2 offset remaining hpos =>
    have hzero : remaining = 0 := by omega
    rw [piecesLoop, if_neg hpos, hzero, window_zero]
    rfl

/-! ## The way back -/

/-- Sorting gives the list whose offsets increase, from any order of it. -/
theorem orderByFileOffset_perm {pieces listed : List PkgPiece}
    (hpieces : pieces.Pairwise fun a b => a.fileOffset < b.fileOffset)
    (hperm : listed.Perm pieces) : orderByFileOffset listed = pieces := by
  have : Std.Total fun a b : PkgPiece => a.fileOffset ≤ b.fileOffset :=
    ⟨fun a b => Nat.le_total a.fileOffset b.fileOffset⟩
  have : IsTrans PkgPiece fun a b => a.fileOffset ≤ b.fileOffset :=
    ⟨fun a b c => Nat.le_trans⟩
  have hsorted : (orderByFileOffset listed).Pairwise fun a b =>
      a.fileOffset ≤ b.fileOffset :=
    List.pairwise_insertionSort _ _
  have hsame : (orderByFileOffset listed).Perm pieces :=
    (List.perm_insertionSort _ _).trans hperm
  -- two pieces with the same offset are one piece
  have hkey : ∀ a ∈ pieces, ∀ b ∈ pieces, a.fileOffset = b.fileOffset → a = b :=
    fun a ha b hb => List.Pairwise.forall_of_forall_of_flip
      (R := fun a b => a.fileOffset = b.fileOffset → a = b) (fun _ _ _ => rfl)
      (hpieces.imp fun hlt heq => absurd heq (Nat.ne_of_lt hlt))
      (hpieces.imp fun hlt heq => absurd heq (Nat.ne_of_gt hlt)) ha hb
  refine hsame.eq_of_pairwise (fun a b ha hb hab hba => ?_) hsorted
    (hpieces.imp Nat.le_of_lt)
  exact hkey a (hsame.mem_iff.1 ha) b hb (Nat.le_antisymm hab hba)

/-- Links to the windows of a package, as far as the package goes. -/
def OpensWindows (opened : Text → Cursor UInt8) (host url : Text)
    (source : List UInt8) (packageSize : Nat) : Prop :=
  ∀ offset size, offset + size ≤ packageSize →
    opened (splitLink host url offset size) = ⟨window source offset size, 0⟩

/-- What `OpenJSON` opens: the windows of the pieces, in their order. -/
theorem openedUrls_eq {opened : Text → Cursor UInt8} {host url : Text}
    {source : List UInt8} {packageSize : Nat}
    (hopened : OpensWindows opened host url source packageSize)
    {listed : List PkgPiece} (hperm : listed.Perm (piecesLoop host url 0 packageSize)) :
    openedUrls opened listed = (piecesLoop host url 0 packageSize).map fun piece =>
      ⟨window source piece.fileOffset piece.fileSize, 0⟩ := by
  rw [openedUrls, orderByFileOffset_perm (pairwise_piecesLoop host url 0 packageSize) hperm]
  apply List.map_congr_left
  intro piece hpiece
  obtain ⟨-, -, -, hend, hurl⟩ := mem_piecesLoop host url 0 packageSize piece hpiece
  rw [hurl]
  exact hopened _ _ (by omega)

/-- The sizes of a manifest's pieces are the lengths of what they open. -/
theorem openedSizes_eq {opened : Text → Cursor UInt8} {host url : Text}
    {source : List UInt8} {packageSize : Nat}
    (hopened : OpensWindows opened host url source packageSize)
    (hsource : packageSize ≤ source.length) {listed : List PkgPiece}
    (hperm : listed.Perm (piecesLoop host url 0 packageSize)) :
    openedSizes listed =
      (openedUrls opened listed).map fun stream => stream.content.length := by
  rw [openedUrls_eq hopened hperm, openedSizes,
    orderByFileOffset_perm (pairwise_piecesLoop host url 0 packageSize) hperm, List.map_map]
  apply List.map_congr_left
  intro piece hpiece
  obtain ⟨-, -, -, hend, -⟩ := mem_piecesLoop host url 0 packageSize piece hpiece
  simp only [Function.comp_apply, window_length]
  omega

/-- Splitting and then merging is the identity.  The pieces that `RegisterJSON`
makes of a package have the sizes that the console takes and tile the package,
and their number is right.  A manifest that lists them in any order opens as a
stream that has the package's length and, after any seeks and reads, the
package's byte at every position. -/
theorem split_then_merge (opened : Text → Cursor UInt8) (source : List UInt8)
    (url host digest : Text) (packageSize : Nat) (hpos : 0 < packageSize)
    (hsource : packageSize ≤ source.length)
    (hopened : OpensWindows opened host url source packageSize) :
    let manifest := registerManifest url host packageSize digest true
    (∀ piece ∈ manifest.pieces, 0 < piece.fileSize ∧ piece.fileSize ≤ 4294967296) ∧
    Tiles (manifest.pieces.map fun piece =>
      (piece.fileOffset, piece.fileOffset + piece.fileSize)) 0 packageSize ∧
    manifest.numberOfSplitFiles = manifest.pieces.length ∧
    ∀ listed : List PkgPiece, listed.Perm manifest.pieces →
      (∃ s, openJSON opened { manifest with pieces := listed } = some s) ∧
      ∀ s, (MergedStream.system (openedUrls opened listed) (openedSizes listed)).Reachable s →
        s.length = packageSize ∧
        ∀ (p : Nat) (hp : p < packageSize) (wish : Nat → Nat),
          ∃ s', (s.setPosition p).read 1 wish = some ([source[p]], s') := by
  intro manifest
  have hpieces : manifest.pieces = piecesLoop host url 0 packageSize := rfl
  have htiles := tiles_piecesLoop host url 0 packageSize
  rw [Nat.zero_add] at htiles
  rw [hpieces]
  refine ⟨fun piece hpiece => ?_, htiles, rfl, fun listed hperm => ?_⟩
  · obtain ⟨h₁, h₂, -⟩ := mem_piecesLoop host url 0 packageSize piece hpiece
    exact ⟨h₁, h₂⟩
  have hstreams := openedUrls_eq hopened hperm
  have hsizes := openedSizes_eq hopened hsource hperm
  have hstart : ∀ stream ∈ openedUrls opened listed, stream.position = 0 := by
    rw [hstreams]
    intro stream hstream
    obtain ⟨piece, -, rfl⟩ := List.mem_map.1 hstream
    rfl
  have hne : openedUrls opened listed ≠ [] := by
    rw [hstreams, piecesLoop, if_pos hpos]
    exact List.cons_ne_nil _ _
  have hcontent : ((openedUrls opened listed).map Cursor.content).flatten =
      source.take packageSize := by
    rw [hstreams, List.map_map]
    exact windows_piecesLoop host url source 0 packageSize
  obtain ⟨m, hcreate, -⟩ := MergedStream.create_spec _ hne hstart
  rw [← hsizes] at hcreate
  refine ⟨⟨m, hcreate⟩, fun s hs => ?_⟩
  obtain ⟨hinv, hcontent', -⟩ :=
    MergedStream.reachable_spec _ _ hsizes hstart hne hs
  rw [hcontent] at hcontent'
  have hlength : s.length = packageSize := by
    rw [← hinv.content_length, hcontent', List.length_take]
    omega
  refine ⟨hlength, fun p hp wish => ?_⟩
  have hmoved := hinv.setPosition (show p < s.length by omega)
  obtain ⟨bytes, s', hread, -, hreads⟩ := hmoved.inv.read hmoved.position 1 wish
  rw [hmoved.content_eq, hcontent'] at hreads
  have hone := hreads.one (by dsimp only; rw [List.length_take]; omega)
  refine ⟨s', ?_⟩
  rw [hread, hone]
  simp

/-- The server's own links: what `Process` and `Split` read from the link is the
window it is answered with. -/
def served (replace : List UInt8 → Text) (source : List UInt8) (url : Text) :
    Cursor UInt8 :=
  match (process replace (requestTarget url)).bind fun r =>
      r.url.bind (split replace r.query) with
  | none => ⟨[], 0⟩
  | some w => ⟨window source w.offset w.size, 0⟩

/-- Links to a package are served as they should, when its own link comes back
from them. -/
theorem opensWindows_served (replace : List UInt8 → Text) {host : Text}
    (hhost : Host host) (route : Route) {url : Text} (hplus : NoPlus url)
    (source : List UInt8) {packageSize : Nat} (hlong : packageSize < 2 ^ 63) :
    OpensWindows (served replace source) host (link host route url) source
      packageSize := by
  intro offset size hend
  obtain ⟨r, hprocess, -, hurl, hsplit⟩ :=
    splitRecovers replace hhost route hplus (show offset < 2 ^ 63 by omega)
      (show size < 2 ^ 63 by omega) suffix_nil
  rw [List.append_nil] at hprocess
  rw [served, hprocess, Option.bind_some, hurl, Option.bind_some, hsplit]

/-- The link to a game in the cache, served by the server itself. -/
def gameLink : Text :=
  link "192.168.0.2".toList .cache "http://example.org/game.pkg".toList

/-- A package of 4 GiB and one byte in two pieces. -/
def twoPieces : PKGManifest :=
  registerManifest gameLink "192.168.0.2".toList 4294967297 [] true

/-- The second piece is listed first, and the byte behind 4 GiB is its byte. -/
theorem split_then_merge_twoPieces :
    ∃ s, openJSON (served (fun _ => []) (List.replicate 4294967297 7))
        { twoPieces with pieces := twoPieces.pieces.reverse } = some s ∧
      s.length = 4294967297 ∧
      ∀ wish, ∃ s', (s.setPosition 4294967296).read 1 wish = some ([7], s') := by
  obtain ⟨-, -, -, hlisted⟩ := split_then_merge
    (served (fun _ => []) (List.replicate 4294967297 7)) (List.replicate 4294967297 7) gameLink
    "192.168.0.2".toList [] 4294967297 (by decide)
    (Nat.le_of_eq List.length_replicate.symm)
    (opensWindows_served _ (by decide +kernel) .cache (by decide +kernel) _ (by decide))
  obtain ⟨⟨s, hopen⟩, hreads⟩ := hlisted twoPieces.pieces.reverse (List.reverse_perm _)
  obtain ⟨hlength, hread⟩ := hreads s (.init hopen)
  refine ⟨s, hopen, hlength, fun wish => ?_⟩
  obtain ⟨s', hs'⟩ := hread 4294967296 (by decide) wish
  rw [List.getElem_replicate] at hs'
  exact ⟨s', hs'⟩

end DirectPackageInstaller.Manifest
