import DirectPackageInstaller.Host.PkgInfo.Wire

/-!
# When the record survives the wire

The receiver decodes the record whenever its first eleven reads, all up to the
length of the icon, return what they ask for; the icon itself may come in any
pieces.  The converse holds too.  A short read of a length leaves garbage in
its highest byte, a short read of a text cuts the text, and every short read
leaves bytes behind that the later fields are read from or that are never
read.

* `getPkgInfo_full`: the round trip with full reads.
* `getPkgInfo_ok`: the calls of a run that comes to its end.
* `decodes_iff`: the record survives exactly when the eleven reads are full.
* `url_cut`: a split inside the URL that changes it.
-/

namespace DirectPackageInstaller.PkgInfo

open LittleEndian

/-- A computation that succeeds is a first step that succeeds and the rest. -/
theorem bind_eq_ok {ε α β : Type} {x : Except ε α} {f : α → Except ε β} {b : β} :
    x >>= f = .ok b ↔ ∃ a, x = .ok a ∧ f a = .ok b := by
  cases x with
  | error e => simp [bind, Except.bind]
  | ok a => simp [bind, Except.bind]

/-! ## Full reads -/

/-- The `read` of `size` bytes at this call returns them all. -/
def Network.Full (net : Network) (size call : Nat) : Prop :=
  size ≤ max 1 (net.chunk call)

theorem read_full {net : Network} {got : List UInt8} {calls : Nat}
    (rest : List UInt8) (h : net.Full got.length calls) :
    read net got.length ⟨got ++ rest, calls⟩ = .ok (got, ⟨rest, calls + 1⟩) := by
  have hshare : net.share got.length calls = got.length := min_eq_left h
  unfold read
  split
  · rename_i hzero
    rw [List.eq_nil_of_length_eq_zero hzero]
    rfl
  · rename_i hpos
    have hstream : ¬(got ++ rest).isEmpty = true := by
      rw [List.isEmpty_iff, List.append_eq_nil_iff]
      rintro ⟨rfl, -⟩
      exact hpos rfl
    rw [if_neg hstream]
    dsimp only
    rw [hshare, List.take_left, List.drop_left]

theorem getUint_full {net : Network} {width calls : Nat} (n : Nat)
    (rest : List UInt8) (h : net.Full width calls) :
    getUint net width ⟨bytes width n ++ rest, calls⟩ =
      .ok (n % 256 ^ width, ⟨rest, calls + 1⟩) := by
  have hlen : (bytes width n).length = width := length_bytes width n
  have hfull : net.Full (bytes width n).length calls := hlen.symm ▸ h
  have hread := read_full rest hfull
  rw [hlen] at hread
  unfold getUint
  rw [hread]
  have hnone : (List.range width).drop width = [] := by simp
  simp only [bind, Except.bind, hlen, hnone, List.map_nil, List.append_nil,
    value_bytes]
  rfl

/-- A text without a NUL is read back from its array. -/
theorem cString_of_no_nul {text : List UInt8} (h : 0 ∉ text) :
    cString text = text := by
  have hall : ∀ b ∈ text, decide (b ≠ 0) = true := by
    intro b hb
    rw [decide_eq_true_eq]
    rintro rfl
    exact h hb
  have happend := @List.takeWhile_append_of_pos _ _ _ [] hall
  simpa [cString] using happend

theorem getString_full {net : Network} {capacity calls : Nat}
    (text : Text capacity) (hcapacity : capacity ≤ 2 ^ 32)
    (rest : List UInt8) (hlength : net.Full 4 calls)
    (htext : net.Full text.data.length (calls + 1)) :
    getString net capacity ⟨prefixed text.data ++ rest, calls⟩ =
      .ok (text.data, ⟨rest, calls + 2⟩) := by
  have hlt := text.length_lt
  unfold getString getUint32 prefixed
  rw [List.append_assoc, getUint_full _ _ hlength]
  simp only [bind, Except.bind]
  rw [Nat.mod_eq_of_lt (by omega), if_neg (by omega), read_full rest htext]
  dsimp only
  rw [cString_of_no_nul text.no_nul]
  rfl

/-! ## The icon -/

/-- A `read` with bytes at hand returns some. -/
theorem read_some {net : Network} {size : Nat} {w : Wire}
    (h : w.stream ≠ []) : ∃ got w', read net size w = .ok (got, w') := by
  unfold read
  split
  · exact ⟨_, _, rfl⟩
  · rw [if_neg (by simpa using h)]
    exact ⟨_, _, rfl⟩

/-- The loop of `get_file` collects a file of any length from any pieces. -/
theorem fileLoop_all {net : Network} :
    ∀ (k : Nat) (data file : List UInt8) (calls : Nat), data.length = k →
      data ≠ [] → ∃ calls', fileLoop net data.length file ⟨data, calls⟩ =
        .ok (file ++ data, ⟨[], calls'⟩) := by
  intro k
  induction k using Nat.strongRecOn with
  | _ k ih =>
    intro data file calls hk hdata
    have hpos : 0 < data.length := List.length_pos_iff.2 hdata
    obtain ⟨got, w', hread⟩ :=
      @read_some net (requestSize data.length) ⟨data, calls⟩ hdata
    have hgot := read_pos (requestSize_pos (by omega)) hread
    obtain ⟨hstream, -, hlen⟩ := read_ok hread
    have hshare : got.length ≤ requestSize data.length := by
      unfold Network.share at hlen
      omega
    have hsplit := congrArg List.length hstream
    rw [List.length_append] at hsplit
    dsimp only at hsplit
    have hbuffer : got.length ≤ bufferSize := by
      unfold requestSize at hshare
      unfold bufferSize at hshare ⊢
      split at hshare <;> omega
    unfold fileLoop
    split
    · rename_i stop hfailed
      rw [hread] at hfailed
      cases hfailed
    · rename_i got' next hread'
      rw [hread] at hread'
      cases hread'
      rw [if_neg (by omega)]
      split
      · -- all bytes have come
        have hrest : w'.stream = [] := List.eq_nil_of_length_eq_zero (by omega)
        dsimp only at hstream
        rw [hrest, List.append_nil] at hstream
        refine ⟨w'.calls, ?_⟩
        rw [hstream, ← hrest]
      · have hlen' : (data.length : Int) - got.length = w'.stream.length := by
          omega
        have hrest : w'.stream ≠ [] := List.length_pos_iff.1 (by omega)
        obtain ⟨calls', hloop⟩ := ih w'.stream.length (by omega) w'.stream
          (file ++ got) w'.calls rfl hrest
        refine ⟨calls', ?_⟩
        dsimp only at hstream
        rw [hlen', hstream, ← List.append_assoc]
        exact hloop

theorem toInt32_of_lt {n : Nat} (h : n < 2 ^ 31) : toInt32 n = n :=
  if_pos h

/-- The icon file that `get_file` leaves. -/
def iconFile (iconData : List UInt8) : Option (List UInt8) :=
  if iconData.length = 0 then none else some iconData

theorem getFile_full {net : Network} {calls : Nat} (iconData : List UInt8)
    (hicon : iconData.length < 2 ^ 31) (hlength : net.Full 4 calls) :
    ∃ calls', getFile net ⟨iconPart iconData, calls⟩ =
      .ok (iconFile iconData, ⟨[], calls'⟩) := by
  unfold getFile getUint32 iconPart iconFile
  split
  · refine ⟨calls + 1, ?_⟩
    have hzero : List.replicate 4 (0 : UInt8) = bytes 4 0 ++ [] := rfl
    rw [hzero, getUint_full 0 [] hlength]
    simp only [bind, Except.bind]
    rw [Nat.zero_mod, toInt32_of_lt (by omega), if_pos Nat.cast_zero]
    rfl
  · rename_i hpos
    have hdata : iconData ≠ [] := fun h => hpos (by rw [h]; rfl)
    obtain ⟨calls', hloop⟩ :=
      @fileLoop_all net _ iconData [] (calls + 1) rfl hdata
    refine ⟨calls', ?_⟩
    rw [getUint_full _ _ hlength]
    simp only [bind, Except.bind]
    rw [Nat.mod_eq_of_lt (by omega), toInt32_of_lt hicon, if_neg (by omega),
      hloop]
    rfl

/-! ## The round trip -/

/-- The sizes that the first eleven calls of `read` ask for. -/
def Package.requests (p : Package) : List Nat :=
  [4, 4, p.url.data.length, 4, p.friendlyName.data.length,
    4, p.contentID.data.length, 4, p.bgftContentType.data.length, 8, 4]

/-- Each of these reads returns all that it asks for. -/
def Package.ReadInFull (p : Package) (chunk : Nat → Nat) : Prop :=
  ∀ i size, p.requests[i]? = some size → size ≤ max 1 (chunk i)

/-- The package as the receiver should see it. -/
def Package.params (p : Package) : Params where
  contentUrl := p.url.data
  contentName := p.friendlyName.data
  id := p.contentID.data
  packageType := p.bgftContentType.data
  packageSize := p.packageSize.toNat
  iconPath := if (iconFile p.iconData).isSome then iconPath p.contentID.data else []
  iconFile := iconFile p.iconData

theorem getPkgInfo_full {p : Package} {net : Network}
    (h : p.ReadInFull net.chunk) :
    ∃ calls, getPkgInfo net ⟨p.buffer, 0⟩ = .ok (some p.params, ⟨[], calls⟩) := by
  have hfull : ∀ i size, p.requests[i]? = some size → net.Full size i := h
  have hlength : net.Full 4 10 := hfull 10 _ rfl
  obtain ⟨calls, hicon⟩ := getFile_full p.iconData p.icon_length_lt hlength
  refine ⟨calls, ?_⟩
  unfold getPkgInfo Package.buffer getUint32 getUint64
  simp only [List.append_assoc]
  rw [getUint_full _ _ (hfull 0 _ rfl)]
  simp only [bind, Except.bind]
  rw [if_neg (by decide),
    getString_full p.url (by decide) _ (hfull 1 _ rfl) (hfull 2 _ rfl)]
  dsimp only
  rw [getString_full p.friendlyName (by decide) _ (hfull 3 _ rfl) (hfull 4 _ rfl)]
  dsimp only
  rw [getString_full p.contentID (by decide) _ (hfull 5 _ rfl) (hfull 6 _ rfl)]
  dsimp only
  rw [getString_full p.bgftContentType (by decide) _ (hfull 7 _ rfl)
    (hfull 8 _ rfl)]
  dsimp only
  rw [getUint_full _ _ (hfull 9 _ rfl)]
  dsimp only
  have hsize : p.packageSize.toNat < 256 ^ 8 := p.packageSize.toNat_lt
  rw [hicon, Nat.mod_eq_of_lt hsize]
  rfl

/-! ## Runs that come to their end -/

theorem getUint_ok {net : Network} {width n : Nat} {w w' : Wire}
    (h : getUint net width w = .ok (n, w')) :
    ∃ got, read net width w = .ok (got, w') ∧
      n = value (got ++
        ((List.range width).drop got.length).map (net.garbage w.calls)) := by
  unfold getUint at h
  obtain ⟨⟨got, m⟩, hread, h⟩ := bind_eq_ok.1 h
  cases h
  exact ⟨got, hread, rfl⟩

theorem getString_ok {net : Network} {maxSize : Nat} {w w' : Wire}
    {text : List UInt8} (h : getString net maxSize w = .ok (text, w')) :
    ∃ n m buffer, getUint32 net w = .ok (n, m) ∧ n ≤ maxSize ∧
      read net n m = .ok (buffer, w') ∧ text = cString buffer := by
  unfold getString at h
  obtain ⟨⟨n, m⟩, hlen, h⟩ := bind_eq_ok.1 h
  dsimp only at h
  split at h
  · cases h
  · rename_i hle
    obtain ⟨⟨buffer, m'⟩, hread, h⟩ := bind_eq_ok.1 h
    cases h
    exact ⟨n, m, buffer, hlen, by omega, hread, rfl⟩

/-- The loop of `get_file` puts all it reads into the file. -/
theorem fileLoop_ok {net : Network} {len : Int} {file all : List UInt8}
    {w w' : Wire} (h : fileLoop net len file w = .ok (all, w')) :
    ∃ taken, all = file ++ taken ∧ w.stream = taken ++ w'.stream := by
  fun_induction fileLoop net len file w with
  | case1 => cases h
  | case2 => cases h
  | case3 len file w got m hread =>
    cases h
    exact ⟨got, rfl, (read_ok hread).1⟩
  | case4 len file w got m hread hbuffer hmore ih =>
    obtain ⟨taken, rfl, hrest⟩ := ih h
    refine ⟨got ++ taken, List.append_assoc .., ?_⟩
    rw [(read_ok hread).1, hrest, List.append_assoc]

theorem getFile_ok {net : Network} {w w' : Wire}
    {file : Option (List UInt8)} (h : getFile net w = .ok (file, w')) :
    ∃ n m, getUint32 net w = .ok (n, m) ∧
      m.stream = file.getD [] ++ w'.stream := by
  unfold getFile at h
  obtain ⟨⟨n, m⟩, hlen, h⟩ := bind_eq_ok.1 h
  dsimp only at h
  refine ⟨n, m, hlen, ?_⟩
  split at h
  · cases h
    rfl
  · obtain ⟨⟨all, m'⟩, hloop, h⟩ := bind_eq_ok.1 h
    cases h
    obtain ⟨taken, rfl, hstream⟩ := fileLoop_ok hloop
    exact hstream

/-- The calls of a run of `get_pkg_info` that reads a package. -/
theorem getPkgInfo_ok {net : Network} {w w' : Wire} {params : Params}
    (h : getPkgInfo net w = .ok (some params, w')) :
    ∃ flag w0 w1 w2 w3 w4 w5, getUint32 net w = .ok (flag, w0) ∧
      getString net 0x800 w0 = .ok (params.contentUrl, w1) ∧
      getString net 0x259 w1 = .ok (params.contentName, w2) ∧
      getString net 0x30 w2 = .ok (params.id, w3) ∧
      getString net 0x10 w3 = .ok (params.packageType, w4) ∧
      getUint64 net w4 = .ok (params.packageSize, w5) ∧
      getFile net w5 = .ok (params.iconFile, w') := by
  unfold getPkgInfo at h
  obtain ⟨⟨flag, w0⟩, hflag, h⟩ := bind_eq_ok.1 h
  dsimp only at h
  split at h
  · cases h
  · obtain ⟨⟨url, w1⟩, hurl, h⟩ := bind_eq_ok.1 h
    obtain ⟨⟨name, w2⟩, hname, h⟩ := bind_eq_ok.1 h
    obtain ⟨⟨id, w3⟩, hid, h⟩ := bind_eq_ok.1 h
    obtain ⟨⟨pkgType, w4⟩, htype, h⟩ := bind_eq_ok.1 h
    obtain ⟨⟨size, w5⟩, hsize, h⟩ := bind_eq_ok.1 h
    obtain ⟨⟨file, w6⟩, hfile, h⟩ := bind_eq_ok.1 h
    cases h
    exact ⟨flag, w0, w1, w2, w3, w4, w5, hflag, hurl, hname, hid, htype, hsize,
      hfile⟩

/-! ## Short reads -/

theorem read_length_le {net : Network} {size : Nat} {w w' : Wire}
    {got : List UInt8} (h : read net size w = .ok (got, w')) :
    got.length ≤ size := by
  have hlen := (read_ok h).2.2
  unfold Network.share at hlen
  omega

/-- A read that returned all that was asked for was full. -/
theorem full_of_length {net : Network} {size : Nat} {w w' : Wire}
    {got : List UInt8} (h : read net size w = .ok (got, w'))
    (hlen : size ≤ got.length) : net.Full size w.calls := by
  have hshare := (read_ok h).2.2
  unfold Network.share at hshare
  unfold Network.Full
  omega

/-- Every byte of the stack that a short read leaves is 255. -/
def Network.Dirty (net : Network) : Prop :=
  ∀ call i, net.garbage call i = 255

/-- On a dirty stack a small length has been read in full. -/
theorem getUint32_small {net : Network} {w w' : Wire} {n : Nat}
    (hdirty : net.Dirty) (h : getUint32 net w = .ok (n, w'))
    (hn : n ≤ 2 ^ 16) :
    ∃ got, read net 4 w = .ok (got, w') ∧ got.length = 4 ∧ n = value got := by
  obtain ⟨got, hread, hvalue⟩ := getUint_ok h
  have hle := read_length_le hread
  have hrest : ((List.range 4).drop got.length).map (net.garbage w.calls) =
      List.replicate (4 - got.length) 255 := by
    rw [List.eq_replicate_iff]
    constructor
    · simp
    · intro b hb
      obtain ⟨i, -, rfl⟩ := List.mem_map.1 hb
      exact hdirty _ _
  rw [hrest] at hvalue
  have hlen : got.length = 4 := by
    by_contra hshort
    -- the highest byte is 255
    have hsucc : 4 - got.length = (3 - got.length) + 1 := by omega
    rw [hsucc, List.replicate_succ', ← List.append_assoc] at hvalue
    have hhigh := le_value_concat
      (got ++ List.replicate (3 - got.length) (255 : UInt8)) 255
    have hthree : (got ++ List.replicate (3 - got.length) (255 : UInt8)).length =
        3 := by
      rw [List.length_append, List.length_replicate]
      omega
    rw [hthree, ← hvalue] at hhigh
    have hbyte : (255 : UInt8).toNat = 255 := rfl
    rw [hbyte] at hhigh
    omega
  refine ⟨got, hread, hlen, ?_⟩
  rw [hvalue, hlen, Nat.sub_self, List.replicate_zero, List.append_nil]

theorem cString_length_le (buffer : List UInt8) :
    (cString buffer).length ≤ buffer.length :=
  (List.takeWhile_sublist _).length_le

/-- A text that is read right, from where it stands, has been read in full. -/
theorem getString_aligned {net : Network} {capacity : Nat} {w w' : Wire}
    {text : Text capacity} {rest : List UInt8} (hdirty : net.Dirty)
    (hcapacity : capacity ≤ 2 ^ 16)
    (hw : w.stream = prefixed text.data ++ rest)
    (h : getString net capacity w = .ok (text.data, w')) :
    net.Full 4 w.calls ∧ net.Full text.data.length (w.calls + 1) ∧
      w'.stream = rest ∧ w'.calls = w.calls + 2 := by
  have hlt := text.length_lt
  obtain ⟨n, m, buffer, hlen, hle, hread, htext⟩ := getString_ok h
  obtain ⟨got, hgot, hfour, hn⟩ := getUint32_small hdirty hlen (by omega)
  obtain ⟨hstream, hcalls, -⟩ := read_ok hgot
  obtain ⟨hstream', hcalls', -⟩ := read_ok hread
  rw [hw, prefixed, List.append_assoc] at hstream
  obtain ⟨hbytes, hm⟩ := List.append_inj hstream
    ((length_bytes 4 _).trans hfour.symm)
  have hn' : n = text.data.length := by
    rw [hn, ← hbytes, value_bytes_of_lt (by omega)]
  subst hn'
  have hge : text.data.length ≤ buffer.length :=
    (congrArg List.length htext).le.trans (cString_length_le buffer)
  have hle' := read_length_le hread
  rw [← hm] at hstream'
  have hrest := (List.append_inj hstream' (by omega)).2
  have hfull := full_of_length hread hge
  rw [hcalls] at hfull hcalls'
  exact ⟨full_of_length hgot hfour.ge, hfull, hrest.symm, hcalls'⟩

/-- An array that starts with a NUL holds the empty text. -/
theorem cString_of_head {buffer rest tail : List UInt8}
    (h : 0 :: tail = buffer ++ rest) : cString buffer = [] := by
  cases buffer with
  | nil => rfl
  | cons b buffer =>
    rw [List.cons_append, List.cons.injEq] at h
    rw [← h.1]
    rfl

/-- The four bytes of the length of a short text: the last two are zero. -/
theorem bytes_length {text : List UInt8} (h : text.length < 2 ^ 16) :
    bytes 4 text.length = [UInt8.ofNat text.length,
      UInt8.ofNat (text.length / 256), 0, 0] :=
  bytes_of_lt_pow 2 (k := 2) (by omega)

/-- Behind one to three zeros the length of a text that is not empty comes out
wrong: it is too large, or the text starts with a NUL. -/
theorem cString_shifted {shift n : Nat} {text got stream buffer tail : List UInt8}
    (rest : List UInt8) (hpos : 0 < shift) (hshift : shift ≤ 3)
    (htext : text.length < 2 ^ 16) (hfour : got.length = 4)
    (hstream : List.replicate shift 0 ++ (prefixed text ++ rest) = got ++ stream)
    (hn : n = value got) (hle : n < 2 ^ 24) (hbuffer : buffer.length ≤ n)
    (htail : stream = buffer ++ tail) : cString buffer = [] := by
  unfold prefixed at hstream
  rw [bytes_length htext, List.append_assoc] at hstream
  have hdrop : (got ++ stream).drop 4 = stream := List.drop_left' hfour
  have htake : (got ++ stream).take 4 = got := List.take_left' hfour
  rw [← hstream] at hdrop htake
  obtain rfl | rfl | rfl : shift = 1 ∨ shift = 2 ∨ shift = 3 := by omega
  · exact cString_of_head (hdrop.trans htail)
  · exact cString_of_head (hdrop.trans htail)
  · -- the low byte of the length has become the highest
    have hvalue : n = 256 ^ 3 * (UInt8.ofNat text.length).toNat := by
      rw [hn, ← htake]
      exact (value_replicate_zero_append 3 [UInt8.ofNat text.length]).trans
        (by rw [value_cons, value_nil, Nat.mul_zero, Nat.add_zero])
    have hzero : buffer.length = 0 := by omega
    rw [List.eq_nil_of_length_eq_zero hzero]
    rfl

/-- A text is not read right behind one to three zeros, except an empty one,
which leaves the zeros in front of what follows. -/
theorem getString_shifted {net : Network} {capacity shift : Nat}
    {w w' : Wire} {text : Text capacity} {rest : List UInt8}
    (hdirty : net.Dirty) (hcapacity : capacity ≤ 2 ^ 16)
    (hpos : 0 < shift) (hshift : shift ≤ 3)
    (hw : w.stream = List.replicate shift 0 ++ (prefixed text.data ++ rest))
    (h : getString net capacity w = .ok (text.data, w')) :
    w'.stream = List.replicate shift 0 ++ rest := by
  have hlt := text.length_lt
  obtain ⟨n, m, buffer, hlen, hle, hread, htext⟩ := getString_ok h
  obtain ⟨got, hgot, hfour, hn⟩ := getUint32_small hdirty hlen (by omega)
  have hstream := (read_ok hgot).1
  have hstream' := (read_ok hread).1
  rw [hw] at hstream
  have hbuffer := read_length_le hread
  have hnil : text.data = [] := htext.trans
    (cString_shifted rest hpos hshift (by omega) hfour hstream hn (by omega)
      hbuffer hstream')
  -- all that has been read is zeros
  have hzeros : List.replicate shift 0 ++ (prefixed text.data ++ rest) =
      List.replicate 4 0 ++ (List.replicate shift 0 ++ rest) := by
    have hhead : prefixed text.data = List.replicate 4 0 := by rw [hnil]; rfl
    rw [hhead, ← List.append_assoc, ← List.append_assoc,
      List.replicate_append_replicate, List.replicate_append_replicate,
      Nat.add_comm]
  rw [hzeros] at hstream
  obtain ⟨hgot', hm⟩ := List.append_inj hstream (by simp [hfour])
  have hn' : n = 0 := by
    rw [hn, ← hgot']
    exact value_replicate_zero_append 4 []
  have hempty : buffer = [] := List.eq_nil_of_length_eq_zero (by omega)
  rw [hempty, List.nil_append] at hstream'
  rw [← hstream', ← hm]

/-! ## The end of the record -/

theorem iconPart_length (iconData : List UInt8) :
    (iconPart iconData).length = 4 + iconData.length := by
  unfold iconPart
  split
  · rename_i hzero
    rw [hzero]
    rfl
  · rw [List.length_append, length_bytes]

theorem iconFile_getD (iconData : List UInt8) :
    (iconFile iconData).getD [] = iconData := by
  unfold iconFile
  split
  · rename_i hzero
    exact (List.eq_nil_of_length_eq_zero hzero).symm
  · rfl

/-- Size and icon use up what is left only if nothing else is left in front
of them and both reads are full. -/
theorem end_exact {net : Network} {n : Nat} {w w5 w' : Wire}
    {iconData : List UInt8} (hsize : getUint64 net w = .ok (n, w5))
    (hfile : getFile net w5 = .ok (iconFile iconData, w'))
    (hend : w'.stream = []) (hlen : 12 + iconData.length ≤ w.stream.length) :
    w.stream.length = 12 + iconData.length ∧ net.Full 8 w.calls ∧
      net.Full 4 (w.calls + 1) := by
  obtain ⟨got, hread, -⟩ := getUint_ok hsize
  obtain ⟨k, m, hk, hrest⟩ := getFile_ok hfile
  obtain ⟨got', hread', -⟩ := getUint_ok hk
  rw [iconFile_getD, hend, List.append_nil] at hrest
  have height := read_length_le hread
  have hfour := read_length_le hread'
  obtain ⟨hstream, hcalls, -⟩ := read_ok hread
  obtain ⟨hstream', -, -⟩ := read_ok hread'
  have htotal := congrArg List.length hstream
  rw [hstream', hrest, List.length_append, List.length_append] at htotal
  refine ⟨by omega, full_of_length hread (by omega), ?_⟩
  have hfull := full_of_length hread' (by omega)
  rw [hcalls] at hfull
  exact hfull

/-! ## The exact condition -/

/-- The receiver decodes the record as it was meant, and uses up its bytes,
whatever the stack holds. -/
def Decodes (p : Package) (chunk : Nat → Nat) : Prop :=
  ∀ garbage, ∃ calls, getPkgInfo { chunk, garbage } ⟨p.buffer, 0⟩ =
    .ok (some p.params, ⟨[], calls⟩)

/-- The record without its flag, field by field. -/
theorem Package.buffer_eq (p : Package) :
    p.buffer = bytes 4 1 ++ (prefixed p.url.data ++
      (prefixed p.friendlyName.data ++ (prefixed p.contentID.data ++
        (prefixed p.bgftContentType.data ++
          (bytes 8 p.packageSize.toNat ++ iconPart p.iconData))))) := by
  simp only [Package.buffer, List.append_assoc]

/-- The part of the record behind the texts. -/
theorem Package.end_length (p : Package) :
    (bytes 8 p.packageSize.toNat ++ iconPart p.iconData).length =
      12 + p.iconData.length := by
  rw [List.length_append, length_bytes, iconPart_length]
  omega

/-- A short read of the flag leaves zeros that move every later field. -/
theorem flag_full {p : Package} {net : Network} {calls : Nat}
    (hdirty : net.Dirty)
    (h : getPkgInfo net ⟨p.buffer, 0⟩ = .ok (some p.params, ⟨[], calls⟩)) :
    net.Full 4 0 := by
  obtain ⟨flag, w0, w1, w2, w3, w4, w5, hflag, hurl, hname, hid, htype, hsize,
    hfile⟩ := getPkgInfo_ok h
  obtain ⟨got, hread, -⟩ := getUint_ok hflag
  have hle := read_length_le hread
  have hpos := read_pos (by decide) hread
  by_contra hshort
  have hlt : got.length < 4 := by
    by_contra hfour
    exact hshort (full_of_length hread (by omega))
  have hstream := (read_ok hread).1
  dsimp only at hstream
  rw [p.buffer_eq] at hstream
  have hw0 : w0.stream = List.replicate (4 - got.length) 0 ++
      (prefixed p.url.data ++ (prefixed p.friendlyName.data ++
        (prefixed p.contentID.data ++ (prefixed p.bgftContentType.data ++
          (bytes 8 p.packageSize.toNat ++ iconPart p.iconData))))) := by
    have hdrop := congrArg (List.drop got.length) hstream
    rw [List.drop_left, List.drop_append_of_le_length (by rw [length_bytes]; omega)]
      at hdrop
    rw [← hdrop]
    obtain hone | htwo | hthree :
        got.length = 1 ∨ got.length = 2 ∨ got.length = 3 := by omega
    · rw [hone]; rfl
    · rw [htwo]; rfl
    · rw [hthree]; rfl
  have hw1 := getString_shifted hdirty (by decide) (by omega) (by omega) hw0 hurl
  have hw2 := getString_shifted hdirty (by decide) (by omega) (by omega) hw1 hname
  have hw3 := getString_shifted hdirty (by decide) (by omega) (by omega) hw2 hid
  have hw4 := getString_shifted hdirty (by decide) (by omega) (by omega) hw3 htype
  -- more is left than size and icon can use up
  have hlen := congrArg List.length hw4
  rw [List.length_append, List.length_replicate, p.end_length] at hlen
  have hexact := (end_exact hsize hfile rfl (by omega)).1
  omega

/-- A decoded record came in full reads. -/
theorem readInFull_of_ok {p : Package} {net : Network} {calls : Nat}
    (hdirty : net.Dirty)
    (h : getPkgInfo net ⟨p.buffer, 0⟩ = .ok (some p.params, ⟨[], calls⟩)) :
    p.ReadInFull net.chunk := by
  have hzero := flag_full hdirty h
  obtain ⟨flag, w0, w1, w2, w3, w4, w5, hflag, hurl, hname, hid, htype, hsize,
    hfile⟩ := getPkgInfo_ok h
  unfold getUint32 at hflag
  rw [p.buffer_eq, getUint_full 1 _ hzero, Except.ok.injEq, Prod.mk.injEq]
    at hflag
  obtain ⟨-, rfl⟩ := hflag
  obtain ⟨h1, h2, hw1, hc1⟩ := getString_aligned hdirty (by decide) rfl hurl
  obtain ⟨h3, h4, hw2, hc2⟩ := getString_aligned hdirty (by decide) hw1 hname
  obtain ⟨h5, h6, hw3, hc3⟩ := getString_aligned hdirty (by decide) hw2 hid
  obtain ⟨h7, h8, hw4, hc4⟩ := getString_aligned hdirty (by decide) hw3 htype
  have hlen := congrArg List.length hw4
  rw [p.end_length] at hlen
  obtain ⟨-, h9, h10⟩ := end_exact hsize hfile rfl hlen.ge
  simp only [hc4, hc3, hc2, hc1, Nat.zero_add, Nat.reduceAdd] at h1 h2 h3 h4 h5 h6 h7 h8 h9 h10
  intro i size hi
  have hlt : i < 11 := (List.getElem?_eq_some_iff.1 hi).1
  interval_cases i <;> cases hi <;> assumption

/-- The record survives the wire exactly when the first eleven calls of
`read` each return all that they ask for: the flag, four texts with their
lengths, the package size and the length of the icon. -/
theorem decodes_iff (p : Package) (chunk : Nat → Nat) :
    Decodes p chunk ↔ p.ReadInFull chunk := by
  constructor
  · intro h
    obtain ⟨calls, hrun⟩ := h fun _ _ => 255
    have hdirty : Network.Dirty { chunk, garbage := fun _ _ => 255 } :=
      fun _ _ => rfl
    exact readInFull_of_ok hdirty hrun
  · intro h garbage
    exact @getPkgInfo_full p { chunk, garbage } h

/-- A package with a URL and a content type, no icon and no other text. -/
def samplePackage : Package where
  url := ⟨chars "http://pc/1", by decide, by decide⟩
  friendlyName := ⟨[], by decide, by decide⟩
  contentID := ⟨[], by decide, by decide⟩
  bgftContentType := ⟨chars "PS4GD", by decide, by decide⟩
  packageSize := 65536
  iconData := []
  icon_length_lt := by decide

/-- A split of the URL behind its fourth byte.  The rest of it is taken for
the length of the name, which is too large. -/
theorem url_cut : ¬∀ (p : Package) (chunk : Nat → Nat), Decodes p chunk := by
  intro h
  have hrun : getPkgInfo
      { chunk := fun i => if i = 2 then 4 else 4096, garbage := fun _ _ => 0 }
      ⟨samplePackage.buffer, 0⟩ = .error .badLength := by
    rfl
  obtain ⟨calls, hok⟩ := h samplePackage (fun i => if i = 2 then 4 else 4096)
    fun _ _ => 0
  rw [hrun] at hok
  cases hok

end DirectPackageInstaller.PkgInfo
