import DirectPackageInstaller.Host.PkgInfo.Wire
import DirectPackageInstaller.Lib.CArray

/-!
# The arrays of the receiver

`get_pkg_info` reads what the peer sends into six arrays of fixed size and puts
the icon's path together in them.  Here every array is a list of its size, and
every index and every count passed to `read` is checked.  The peer, the results
of `read` and `write` and the contents of uninitialised arrays are arbitrary.

* `strlen_eq` and `strlen_unterminated`: the scan for the terminator.
* `appendString_eq`: an append to an array with room for it.
* `getFile_eq`: the icon, for an array with its name.
* `getPkgInfo_safe_iff`: no access leaves its array, and the arrays that are
  handed on are terminated, exactly if every string leaves a terminator in its
  array and the icon's length is no negative `int`.
-/

namespace DirectPackageInstaller.PkgInfo.Arrays

open LittleEndian CArray

/-! ## The code -/

/-- What the receiver does not control.  A `read` that asks for `count` bytes
gets the first `count` of the given ones at most; `none` is the result -1. -/
structure Peer where
  read : Nat → Option (List UInt8)
  /-- The bytes of an uninitialised array, by the call of `read` into it. -/
  garbage : Nat → Nat → UInt8
  /-- The results of `write`, which are at most what is asked for. -/
  written : Nat → Int

/-- An array that is not initialised. -/
def Peer.uninitialised (peer : Peer) (call size : Nat) : List UInt8 :=
  (List.range size).map (peer.garbage call)

/-- The bytes that a `read` stores. -/
def Peer.got (peer : Peer) (call count : Nat) : List UInt8 :=
  ((peer.read call).getD []).take count

/-- The result of a `read`. -/
def Peer.result (peer : Peer) (call count : Nat) : Int :=
  if peer.read call = none then -1 else (peer.got call count).length

/-- A zeroed array, as `char buffer[size] = "\x0"` gives it. -/
def zeroed (size : Nat) : List UInt8 :=
  List.replicate size 0

/-- `read(sock, buffer, count)`. -/
def readInto (peer : Peer) (call : Nat) (buffer : List UInt8) (count : Int) :
    Except Fault (Int × List UInt8) :=
  if count < 0 ∨ (buffer.length : Int) < count then .error .count
  else
    let got := peer.got call count.toNat
    .ok (peer.result call count.toNat, got ++ buffer.drop got.length)

/-- `get_uint32` and `get_uint64`. -/
def getUint (peer : Peer) (call width : Nat) : Except Fault Nat := do
  let (_, buffer) ← readInto peer call (peer.uninitialised call width) width
  return value buffer

def getUint32 (peer : Peer) (call : Nat) : Except Fault Nat :=
  getUint peer call 4

def getUint64 (peer : Peer) (call : Nat) : Except Fault Nat :=
  getUint peer call 8

/-- The loop of `strlen`. -/
def strlenFrom (buffer : List UInt8) (len : Nat) : Except Fault Nat :=
  match _hget : buffer[len]? with
  | none => .error .index
  | some c => if c ≠ 0 then strlenFrom buffer (len + 1) else .ok len
termination_by buffer.length - len
decreasing_by
  have := (List.getElem?_eq_some_iff.1 _hget).1
  omega

/-- `strlen`. -/
def strlen (buffer : List UInt8) : Except Fault Nat :=
  strlenFrom buffer 0

/-- `get_string(sock, Buffer, MAX_SIZE)`, whose first call of `read` is the
given one: the result and the array. -/
def getString (peer : Peer) (call : Nat) (buffer : List UInt8) (maxSize : Nat) :
    Except Fault (Int × List UInt8) := do
  let strLen ← getUint32 peer call
  let buffer ← put buffer 0 0
  if strLen > maxSize then return (-1, buffer)
  else
    let (_, buffer) ← readInto peer (call + 1) buffer strLen
    return (0, buffer)

/-- The loop of `append_string`, with `n` characters left. -/
def copyLoop (buffer newContent : List UInt8) (pNew i : Nat) :
    Nat → Except Fault (List UInt8)
  | 0 => .ok buffer
  | n + 1 => do
    let c ← get newContent i
    let buffer ← put buffer (pNew + i) c
    copyLoop buffer newContent pNew (i + 1) n

/-- `append_string`. -/
def appendString (buffer newContent : List UInt8) : Except Fault (List UInt8) := do
  let oriLen ← strlen buffer
  let nLen ← strlen newContent
  copyLoop buffer newContent oriLen 0 nLen

/-- `get_file_path`. -/
def getFilePath (path fname : List UInt8) : Except Fault (List UInt8) := do
  let path ← put path 0 0
  let path ← appendString path (chars "/user/data/tmp_" ++ [0])
  appendString path fname

/-- The inner loop of `get_file`, which writes `readed` bytes from `pBuff` on.
`none` is the return where `write` fails. -/
def writeLoop (peer : Peer) (buffer : List UInt8) (pBuff readed writes : Nat) :
    Except Fault (Option Nat) :=
  if readed = 0 then .ok (some writes)
  else if buffer.length < pBuff + readed then .error .index
  else
    let written := min (peer.written writes) readed
    if written ≤ 0 then .ok none
    else
      writeLoop peer buffer (pBuff + written.toNat) (readed - written.toNat) (writes + 1)
termination_by readed
decreasing_by omega

/-- The outer loop of `get_file`. -/
def fileLoop (peer : Peer) (buffer : List UInt8) (len : Int) (call writes : Nat) :
    Except Fault Unit :=
  match readInto peer call buffer (if len < bufferSize then len else bufferSize) with
  | .error fault => .error fault
  | .ok (readed, buffer) =>
    if readed ≤ 0 then .ok ()
    else
      match writeLoop peer buffer 0 readed.toNat writes with
      | .error fault => .error fault
      | .ok none => .ok ()
      | .ok (some writes) =>
        if len - readed ≤ 0 then .ok ()
        else fileLoop peer buffer (len - readed) (call + 1) writes
termination_by len.toNat
decreasing_by omega

/-- `get_file(sock, out_path, name)`: the result and `out_path`. -/
def getFile (peer : Peer) (call : Nat) (outPath name : List UInt8) :
    Except Fault (Int × List UInt8) := do
  let outPath ← put outPath 0 0
  let len ← getUint32 peer call
  if toInt32 len = 0 then return (0, outPath)
  else
    let outPath ← getFilePath outPath name
    fileLoop peer (peer.uninitialised (call + 1) bufferSize) (toInt32 len) (call + 1) 0
    return (1, outPath)

/-- `icon_path[0] == 0x00`, a comparison without an effect. -/
def compareFirst (iconPath : List UInt8) (ret : Int) : Except Fault (List UInt8) :=
  if ret = 0 then (get iconPath 0).map fun _ => iconPath else .ok iconPath

/-- The arrays that `params` points to. -/
structure ParamArrays where
  url : List UInt8
  name : List UInt8
  id : List UInt8
  pkgType : List UInt8
  iconPath : List UInt8
  size : Nat
deriving DecidableEq, Repr

/-- `get_pkg_info` behind the strings. -/
def getIcon (peer : Peer) (url name id pkgType : List UInt8) :
    Except Fault (Int × Option ParamArrays) := do
  let size ← getUint64 peer 9
  let iconName ← appendString (zeroed 100) id
  let iconName ← appendString iconName (chars ".png" ++ [0])
  let (ret, iconPath) ← getFile peer 10 (zeroed 0x800) iconName
  let iconPath ← compareFirst iconPath ret
  return (0, some { url, name, id, pkgType, iconPath, size })

/-- `get_pkg_info` on a connection: the result and what `params` points to. -/
def getPkgInfo (peer : Peer) : Except Fault (Int × Option ParamArrays) := do
  let flag ← getUint32 peer 0
  if flag = 0 then return (1, none)
  else
    let (ret, url) ← getString peer 1 (zeroed 0x800) 0x800
    if ret = -1 then return (-1, none)
    else
      let (ret, name) ← getString peer 3 (zeroed 0x259) 0x259
      if ret = -1 then return (-1, none)
      else
        let (ret, id) ← getString peer 5 (zeroed 0x30) 0x30
        if ret = -1 then return (-1, none)
        else
          let (ret, pkgType) ← getString peer 7 (zeroed 0x10) 0x10
          if ret = -1 then return (-1, none)
          else getIcon peer url name id pkgType

/-! ## Reads -/

theorem Peer.got_length_le (peer : Peer) (call count : Nat) :
    (peer.got call count).length ≤ count :=
  List.length_take_le _ _

theorem readInto_eq (peer : Peer) (call : Nat) {buffer : List UInt8} {count : Nat}
    (h : count ≤ buffer.length) :
    readInto peer call buffer count = .ok (peer.result call count,
      peer.got call count ++ buffer.drop (peer.got call count).length) := by
  unfold readInto
  rw [if_neg (by omega), Int.toNat_natCast]

/-- The integer that a `read` into an uninitialised array gives. -/
def Peer.uint (peer : Peer) (call width : Nat) : Nat :=
  value (peer.got call width ++
    (peer.uninitialised call width).drop (peer.got call width).length)

theorem getUint_eq (peer : Peer) (call width : Nat) :
    getUint peer call width = .ok (peer.uint call width) := by
  have hlength : width ≤ (peer.uninitialised call width).length := by
    simp [Peer.uninitialised]
  unfold getUint
  rw [readInto_eq peer call hlength]
  rfl

theorem Peer.uint_lt (peer : Peer) (call width : Nat) :
    peer.uint call width < 256 ^ width := by
  have hle := peer.got_length_le call width
  have hlt := value_lt (peer.got call width ++
    (peer.uninitialised call width).drop (peer.got call width).length)
  have hlength : (peer.got call width ++ (peer.uninitialised call width).drop
      (peer.got call width).length).length = width := by
    simp [Peer.uninitialised]
    omega
  rw [hlength] at hlt
  exact hlt

/-- The string that starts with the given call of `read`, in its array. -/
def Peer.string (peer : Peer) (call size : Nat) : List UInt8 :=
  peer.got (call + 1) (peer.uint call 4) ++
    zeroed (size - (peer.got (call + 1) (peer.uint call 4)).length)

theorem put_zeroed {size : Nat} (h : 0 < size) :
    put (zeroed size) 0 0 = .ok (zeroed size) := by
  cases size with
  | zero => omega
  | succ n => rfl

theorem getString_long {peer : Peer} {call size : Nat} (hsize : 0 < size)
    (h : size < peer.uint call 4) :
    getString peer call (zeroed size) size = .ok (-1, zeroed size) := by
  unfold getString getUint32
  rw [getUint_eq, put_zeroed hsize]
  simp only [bind, Except.bind]
  rw [if_pos h]
  rfl

theorem getString_eq {peer : Peer} {call size : Nat} (hsize : 0 < size)
    (h : peer.uint call 4 ≤ size) :
    getString peer call (zeroed size) size = .ok (0, peer.string call size) := by
  have hlength : peer.uint call 4 ≤ (zeroed size).length := by
    simpa [zeroed] using h
  unfold getString getUint32
  rw [getUint_eq, put_zeroed hsize]
  simp only [bind, Except.bind]
  rw [if_neg (by omega), readInto_eq peer (call + 1) hlength]
  simp only [zeroed, List.drop_replicate]
  rfl

/-! ## Strings in arrays -/

/-- The array has a terminator. -/
def Terminated (buffer : List UInt8) : Prop :=
  0 ∈ buffer

instance (buffer : List UInt8) : Decidable (Terminated buffer) :=
  inferInstanceAs (Decidable (0 ∈ buffer))

/-- The text in front of the first terminator. -/
theorem Terminated.split {buffer : List UInt8} (h : Terminated buffer) :
    ∃ text rest, buffer = text ++ 0 :: rest ∧ 0 ∉ text := by
  obtain ⟨text, rest, hsplit, hnot⟩ := List.eq_append_cons_of_mem h
  exact ⟨text, rest, hsplit, hnot⟩

theorem strlenFrom_at (front : List UInt8) (c : UInt8) (back : List UInt8) :
    strlenFrom (front ++ c :: back) front.length =
      if c ≠ 0 then strlenFrom (front ++ c :: back) (front.length + 1)
      else .ok front.length := by
  have hget : (front ++ c :: back)[front.length]? = some c := by simp
  rw [strlenFrom]
  split
  · rename_i hnone
    rw [hget] at hnone
    cases hnone
  · rename_i d hsome
    rw [hget] at hsome
    cases hsome
    rfl

theorem strlenFrom_eq (text : List UInt8) (rest : List UInt8) (h : 0 ∉ text) :
    ∀ front : List UInt8, strlenFrom (front ++ (text ++ 0 :: rest)) front.length =
      .ok (front.length + text.length) := by
  induction text with
  | nil =>
    intro front
    rw [List.nil_append, strlenFrom_at, if_neg (by simp)]
    rfl
  | cons c text ih =>
    intro front
    have hc : c ≠ 0 := fun hzero => h (hzero ▸ List.mem_cons_self)
    have htext : 0 ∉ text := fun hmem => h (List.mem_cons_of_mem c hmem)
    have hnext := ih htext (front ++ [c])
    rw [List.append_assoc, List.length_append] at hnext
    rw [List.cons_append, strlenFrom_at, if_pos hc]
    calc strlenFrom (front ++ c :: (text ++ 0 :: rest)) (front.length + 1)
        = .ok (front.length + 1 + text.length) := hnext
      _ = .ok (front.length + (c :: text).length) := by
          rw [List.length_cons]
          congr 1
          omega

/-- The scan of an array with a terminator ends at the first one. -/
theorem strlen_eq {text : List UInt8} (rest : List UInt8) (h : 0 ∉ text) :
    strlen (text ++ 0 :: rest) = .ok text.length := by
  have hfrom := strlenFrom_eq text rest h []
  rwa [List.nil_append, List.length_nil, Nat.zero_add] at hfrom

theorem strlenFrom_unterminated (back : List UInt8) (h : 0 ∉ back) :
    ∀ front : List UInt8,
      strlenFrom (front ++ back) front.length = .error .index := by
  induction back with
  | nil =>
    intro front
    have hnone : (front ++ [])[front.length]? = none := by simp
    rw [strlenFrom]
    split
    · rfl
    · rename_i c hsome
      rw [hnone] at hsome
      cases hsome
  | cons c back ih =>
    intro front
    have hc : c ≠ 0 := fun hzero => h (hzero ▸ List.mem_cons_self)
    have hback : 0 ∉ back := fun hmem => h (List.mem_cons_of_mem c hmem)
    have hnext := ih hback (front ++ [c])
    rw [List.append_assoc, List.length_append] at hnext
    rw [strlenFrom_at, if_pos hc]
    exact hnext

/-- The scan of an array without a terminator leaves it. -/
theorem strlen_unterminated {buffer : List UInt8} (h : ¬Terminated buffer) :
    strlen buffer = .error .index := by
  have hfrom := strlenFrom_unterminated buffer h []
  rwa [List.nil_append] at hfrom

/-! ## Appending -/

/-- The loop of `append_string` stores what is left of the text in the places
behind what it has stored. -/
theorem copyLoop_eq (buffer rest room : List UInt8) :
    ∀ text done gap : List UInt8, gap.length = text.length →
      copyLoop (buffer ++ done ++ gap ++ room) (done ++ text ++ rest)
          buffer.length done.length text.length =
        .ok (buffer ++ done ++ text ++ room) := by
  intro text
  induction text with
  | nil =>
    intro done gap hgap
    rw [List.eq_nil_of_length_eq_zero hgap]
    rfl
  | cons c text ih =>
    intro done gap hgap
    obtain ⟨d, gap, rfl⟩ := List.exists_cons_of_length_eq_add_one hgap
    have hget : get (done ++ (c :: text) ++ rest) done.length = .ok c := by
      rw [List.append_assoc]
      exact get_at done c (text ++ rest)
    have hput : put (buffer ++ done ++ (d :: gap) ++ room)
        (buffer.length + done.length) c =
        .ok (buffer ++ done ++ (c :: gap) ++ room) := by
      rw [List.append_assoc (buffer ++ done), ← List.length_append]
      rw [List.append_assoc (buffer ++ done)]
      exact put_at (buffer ++ done) d c (gap ++ room)
    have hnext := ih (done ++ [c]) gap (Nat.succ.inj hgap)
    simp only [List.append_assoc, List.length_append, List.singleton_append,
      List.length_singleton] at hnext
    rw [List.length_cons, copyLoop, hget]
    simp only [bind, Except.bind, hput]
    simpa only [List.append_assoc, List.cons_append] using hnext

theorem zeroed_succ (n : Nat) : zeroed (n + 1) = 0 :: zeroed n := rfl

theorem zeroed_add (m n : Nat) : zeroed (m + n) = zeroed m ++ zeroed n :=
  List.replicate_add m n 0

/-- An append to an array that has room for the text and a terminator. -/
theorem appendString_eq {front text : List UInt8} {room : Nat}
    (rest : List UInt8) (hfront : 0 ∉ front) (htext : 0 ∉ text)
    (hroom : text.length < room) :
    appendString (front ++ zeroed room) (text ++ 0 :: rest) =
      .ok (front ++ text ++ zeroed (room - text.length)) := by
  have hfrontLen : strlen (front ++ zeroed room) = .ok front.length := by
    obtain ⟨n, rfl⟩ : ∃ n, room = n + 1 := ⟨room - 1, by omega⟩
    exact strlen_eq (zeroed n) hfront
  have hsplit : zeroed room = zeroed text.length ++ zeroed (room - text.length) := by
    rw [← zeroed_add]
    congr 1
    omega
  have hcopy := copyLoop_eq front (0 :: rest) (zeroed (room - text.length)) text []
    (zeroed text.length) List.length_replicate
  rw [List.append_nil, List.nil_append, List.append_assoc front, ← hsplit] at hcopy
  unfold appendString
  rw [hfrontLen, strlen_eq rest htext]
  exact hcopy

/-- An append of an array without a terminator leaves that array. -/
theorem appendString_unterminated {room : Nat} {newContent : List UInt8}
    (hroom : 0 < room) (h : ¬Terminated newContent) :
    appendString (zeroed room) newContent = .error .index := by
  obtain ⟨n, rfl⟩ : ∃ n, room = n + 1 := ⟨room - 1, by omega⟩
  have hzero : strlen (zeroed (n + 1)) = .ok 0 := strlen_eq (zeroed n) List.not_mem_nil
  unfold appendString
  rw [hzero, strlen_unterminated h]
  rfl

theorem getFilePath_eq {room : Nat} {text : List UInt8} (rest : List UInt8)
    (htext : 0 ∉ text) (hroom : text.length + 15 < room) :
    getFilePath (zeroed room) (text ++ 0 :: rest) =
      .ok (chars "/user/data/tmp_" ++ text ++ zeroed (room - 15 - text.length)) := by
  have hdir : 0 ∉ chars "/user/data/tmp_" := by decide
  have hdirLen : (chars "/user/data/tmp_").length = 15 := by decide
  have happend := @appendString_eq [] (chars "/user/data/tmp_") room []
    List.not_mem_nil hdir (by omega)
  rw [List.nil_append, List.nil_append, hdirLen] at happend
  unfold getFilePath
  rw [put_zeroed (by omega)]
  simp only [bind, Except.bind, happend]
  exact appendString_eq rest hdir htext (by omega)

/-! ## The icon -/

/-- `write` gets bytes of the buffer only. -/
theorem writeLoop_safe (peer : Peer) (buffer : List UInt8) :
    ∀ (readed pBuff writes : Nat), pBuff + readed ≤ buffer.length →
      ∃ left, writeLoop peer buffer pBuff readed writes = .ok left := by
  intro readed
  induction readed using Nat.strongRecOn with
  | _ readed ih =>
    intro pBuff writes hroom
    rw [writeLoop]
    split
    · exact ⟨_, rfl⟩
    · rw [if_neg (by omega)]
      dsimp only
      split
      · exact ⟨_, rfl⟩
      · exact ih _ (by omega) _ _ (by omega)

theorem readInto_length {peer : Peer} {call : Nat} {buffer : List UInt8}
    {count : Nat} (h : count ≤ buffer.length) :
    (peer.got call count ++ buffer.drop (peer.got call count).length).length =
      buffer.length := by
  have hle := peer.got_length_le call count
  rw [List.length_append, List.length_drop]
  omega

theorem Peer.result_le (peer : Peer) (call count : Nat) :
    peer.result call count ≤ count := by
  have hle := peer.got_length_le call count
  unfold Peer.result
  split <;> omega

/-- The file of a length that is not negative is read within the buffer. -/
theorem fileLoop_safe (peer : Peer) :
    ∀ (k : Nat) (buffer : List UInt8) (len : Int) (call writes : Nat),
      len.toNat = k → 0 ≤ len → buffer.length = bufferSize →
      fileLoop peer buffer len call writes = .ok () := by
  intro k
  induction k using Nat.strongRecOn with
  | _ k ih =>
    intro buffer len call writes hk hlen hbuffer
    obtain ⟨count, hcount, hle⟩ : ∃ count : Nat,
        (if len < bufferSize then len else (bufferSize : Int)) = count ∧
          count ≤ buffer.length := by
      split
      · exact ⟨len.toNat, by omega, by omega⟩
      · exact ⟨bufferSize, rfl, hbuffer.ge⟩
    have hresult := peer.result_le call count
    rw [fileLoop, hcount, readInto_eq peer call hle]
    dsimp only
    split
    · rfl
    · obtain ⟨left, hwrites⟩ := writeLoop_safe peer
        (peer.got call count ++ buffer.drop (peer.got call count).length)
        (peer.result call count).toNat 0 writes (by
          rw [readInto_length hle]
          omega)
      rw [hwrites]
      cases left with
      | none => rfl
      | some writes =>
        dsimp only
        split
        · rfl
        · exact ih _ (by omega) _ _ _ _ rfl (by omega)
            ((readInto_length hle).trans hbuffer)

/-- A negative length is the count of the first `read`. -/
theorem fileLoop_negative (peer : Peer) (buffer : List UInt8) {len : Int}
    (call writes : Nat) (h : len < 0) :
    fileLoop peer buffer len call writes = .error .count := by
  have hlt : len < bufferSize := by
    unfold bufferSize
    omega
  have hfault : readInto peer call buffer len = .error .count := if_pos (.inl h)
  rw [fileLoop, if_pos hlt, hfault]

/-- The path of the icon in its array. -/
def iconPathArray (text : List UInt8) : List UInt8 :=
  chars "/user/data/tmp_" ++ text ++ zeroed (0x800 - 15 - text.length)

theorem getFile_eq (peer : Peer) (call : Nat) {text : List UInt8}
    (rest : List UInt8) (htext : 0 ∉ text) (hlength : text.length ≤ 100) :
    getFile peer call (zeroed 0x800) (text ++ 0 :: rest) =
      if peer.uint call 4 = 0 then .ok (0, zeroed 0x800)
      else if peer.uint call 4 < 2 ^ 31 then .ok (1, iconPathArray text)
      else .error .count := by
  have hlt := peer.uint_lt call 4
  have hbuffer : (peer.uninitialised (call + 1) bufferSize).length = bufferSize := by
    simp [Peer.uninitialised]
  unfold getFile getUint32
  rw [put_zeroed (by omega), getUint_eq]
  simp only [bind, Except.bind]
  rw [getFilePath_eq rest htext (by omega)]
  unfold toInt32
  by_cases hzero : peer.uint call 4 = 0
  · rw [if_pos hzero, hzero]
    rfl
  by_cases hsmall : peer.uint call 4 < 2 ^ 31
  · rw [if_neg hzero, if_pos hsmall, if_pos hsmall, if_neg (by omega)]
    dsimp only
    rw [fileLoop_safe peer _ _ _ _ _ rfl (by omega) hbuffer]
    rfl
  · rw [if_neg hzero, if_neg hsmall, if_neg hsmall, if_neg (by omega)]
    dsimp only
    rw [fileLoop_negative _ _ _ _ (by omega)]

/-! ## The whole run -/

/-- Every array that is handed on has a terminator. -/
def ParamArrays.AllTerminated (params : ParamArrays) : Prop :=
  Terminated params.url ∧ Terminated params.name ∧ Terminated params.id ∧
    Terminated params.pkgType ∧ Terminated params.iconPath

/-- No index and no count leaves its array, and after a result of 0 the arrays
that are handed on have their terminators. -/
def Safe (run : Except Fault (Int × Option ParamArrays)) : Prop :=
  ∃ ret params, run = .ok (ret, params) ∧
    (ret = 0 → ∃ arrays, params = some arrays ∧ arrays.AllTerminated)

theorem not_safe_error (fault : Fault) : ¬Safe (.error fault) := by
  intro hsafe
  obtain ⟨ret, params, hrun, -⟩ := hsafe
  cases hrun

theorem terminated_zeroed {size : Nat} (front : List UInt8) (h : 0 < size) :
    Terminated (front ++ zeroed size) :=
  List.mem_append_right _ (List.mem_replicate.2 ⟨by omega, rfl⟩)

section Icon

variable (peer : Peer) {url name id pkgType : List UInt8}

/-- The content ID is scanned first. -/
theorem getIcon_unterminated (h : ¬Terminated id) :
    getIcon peer url name id pkgType = .error .index := by
  unfold getIcon getUint64
  rw [getUint_eq]
  simp only [bind, Except.bind]
  rw [appendString_unterminated (by omega) h]

/-- The two appends that make the name of the icon's file. -/
theorem iconName_eq {text : List UInt8} (rest : List UInt8) (htext : 0 ∉ text)
    (hlength : text.length < 0x30) :
    ∃ iconName, appendString (zeroed 100) (text ++ 0 :: rest) = .ok iconName ∧
      appendString iconName (chars ".png" ++ [0]) =
        .ok (text ++ chars ".png" ++ 0 :: zeroed (95 - text.length)) := by
  have hext : 0 ∉ chars ".png" := by decide
  have hextLen : (chars ".png").length = 4 := by decide
  have hid := @appendString_eq [] text 100 rest List.not_mem_nil htext (by omega)
  rw [List.nil_append, List.nil_append] at hid
  have hpng := @appendString_eq text (chars ".png") (100 - text.length) [] htext hext
    (by omega)
  have hroom : 100 - text.length - (chars ".png").length = 95 - text.length + 1 := by
    omega
  rw [hroom, zeroed_succ] at hpng
  exact ⟨_, hid, hpng⟩

theorem getFile_icon {text : List UInt8} (htext : 0 ∉ text)
    (hlength : text.length < 0x30) :
    getFile peer 10 (zeroed 0x800)
        (text ++ chars ".png" ++ 0 :: zeroed (95 - text.length)) =
      if peer.uint 10 4 = 0 then .ok (0, zeroed 0x800)
      else if peer.uint 10 4 < 2 ^ 31 then
        .ok (1, iconPathArray (text ++ chars ".png"))
      else .error .count := by
  have hext : 0 ∉ chars ".png" := by decide
  have hextLen : (chars ".png").length = 4 := by decide
  have hnul : 0 ∉ text ++ chars ".png" := by
    rw [List.mem_append]
    exact not_or.2 ⟨htext, hext⟩
  apply getFile_eq peer 10 _ hnul
  rw [List.length_append]
  omega

/-- An icon's length that is no negative `int`. -/
theorem getIcon_ok {text : List UInt8} (rest : List UInt8) (htext : 0 ∉ text)
    (hlength : text.length < 0x30) (hicon : peer.uint 10 4 < 2 ^ 31) :
    ∃ iconPath, Terminated iconPath ∧
      getIcon peer url name (text ++ 0 :: rest) pkgType =
        .ok (0, some ⟨url, name, text ++ 0 :: rest, pkgType, iconPath, peer.uint 9 8⟩) := by
  obtain ⟨iconName, hid, hpng⟩ := iconName_eq rest htext hlength
  have hfile := getFile_icon peer htext hlength
  unfold getIcon getUint64
  rw [getUint_eq]
  simp only [bind, Except.bind, hid, hpng, hfile]
  by_cases hzero : peer.uint 10 4 = 0
  · refine ⟨zeroed 0x800, @terminated_zeroed 0x800 [] (by omega), ?_⟩
    rw [if_pos hzero]
    rfl
  · have hextLen : (chars ".png").length = 4 := by decide
    refine ⟨iconPathArray (text ++ chars ".png"), terminated_zeroed _ ?_, ?_⟩
    · rw [List.length_append]
      omega
    · rw [if_neg hzero, if_pos hicon]
      rfl

theorem getIcon_negative {text : List UInt8} (rest : List UInt8) (htext : 0 ∉ text)
    (hlength : text.length < 0x30) (hicon : 2 ^ 31 ≤ peer.uint 10 4) :
    getIcon peer url name (text ++ 0 :: rest) pkgType = .error .count := by
  obtain ⟨iconName, hid, hpng⟩ := iconName_eq rest htext hlength
  have hfile := getFile_icon peer htext hlength
  rw [if_neg (by omega), if_neg (by omega)] at hfile
  unfold getIcon getUint64
  rw [getUint_eq]
  simp only [bind, Except.bind, hid, hpng, hfile]

theorem getIcon_safe_iff (hid : id.length ≤ 0x30) :
    Safe (getIcon peer url name id pkgType) ↔
      Terminated url ∧ Terminated name ∧ Terminated id ∧ Terminated pkgType ∧
        peer.uint 10 4 < 2 ^ 31 := by
  by_cases hterminated : Terminated id
  · obtain ⟨text, rest, rfl, htext⟩ := hterminated.split
    have hlength : text.length < 0x30 := by
      rw [List.length_append, List.length_cons] at hid
      omega
    by_cases hicon : peer.uint 10 4 < 2 ^ 31
    · obtain ⟨iconPath, hpath, hrun⟩ := @getIcon_ok peer url name pkgType text rest
        htext hlength hicon
      rw [hrun]
      constructor
      · intro hsafe
        obtain ⟨ret, params, hok, hparams⟩ := hsafe
        cases hok
        obtain ⟨arrays, harrays, hurl, hname, -, htype, -⟩ := hparams rfl
        cases harrays
        exact ⟨hurl, hname, hterminated, htype, hicon⟩
      · intro hsafe
        obtain ⟨hurl, hname, -, htype, -⟩ := hsafe
        exact ⟨0, _, rfl, fun _ => ⟨_, rfl, hurl, hname, hterminated, htype, hpath⟩⟩
    · rw [getIcon_negative peer rest htext hlength (by omega)]
      constructor
      · intro hsafe
        exact absurd hsafe (not_safe_error _)
      · intro h
        exact absurd h.2.2.2.2 hicon
  · rw [getIcon_unterminated peer hterminated]
    constructor
    · intro hsafe
      exact absurd hsafe (not_safe_error _)
    · intro h
      exact absurd h.2.2.1 hterminated

end Icon

/-- The flag ends the service, or a string is longer than its array. -/
def Peer.EndsEarly (peer : Peer) : Prop :=
  peer.uint 0 4 = 0 ∨ 0x800 < peer.uint 1 4 ∨ 0x259 < peer.uint 3 4 ∨
    0x30 < peer.uint 5 4 ∨ 0x10 < peer.uint 7 4

instance (peer : Peer) : Decidable peer.EndsEarly :=
  inferInstanceAs (Decidable (_ ∨ _))

/-- What is read of the string that starts with the given call is shorter than
its array, or has a NUL in it. -/
def Peer.LeavesNul (peer : Peer) (call size : Nat) : Prop :=
  (peer.got (call + 1) (peer.uint call 4)).length < size ∨
    0 ∈ peer.got (call + 1) (peer.uint call 4)

theorem Peer.terminated_string_iff (peer : Peer) (call size : Nat) :
    Terminated (peer.string call size) ↔ peer.LeavesNul call size := by
  unfold Terminated Peer.string Peer.LeavesNul zeroed
  rw [List.mem_append, List.mem_replicate]
  constructor
  · intro h
    rcases h with hgot | ⟨hpad, -⟩
    · exact .inr hgot
    · exact .inl (by omega)
  · intro h
    rcases h with hshort | hgot
    · exact .inr ⟨by omega, rfl⟩
    · exact .inl hgot

theorem Peer.string_length {peer : Peer} {call size : Nat}
    (h : peer.uint call 4 ≤ size) : (peer.string call size).length = size := by
  have hle := peer.got_length_le (call + 1) (peer.uint call 4)
  unfold Peer.string zeroed
  rw [List.length_append, List.length_replicate]
  omega

theorem getPkgInfo_early {peer : Peer} (h : peer.EndsEarly) :
    ∃ ret, ret ≠ 0 ∧ getPkgInfo peer = .ok (ret, none) := by
  unfold getPkgInfo getUint32
  rw [getUint_eq]
  simp only [bind, Except.bind]
  by_cases hflag : peer.uint 0 4 = 0
  · exact ⟨1, by omega, if_pos hflag⟩
  rw [if_neg hflag]
  refine ⟨-1, by omega, ?_⟩
  by_cases hurl : 0x800 < peer.uint 1 4
  · rw [getString_long (by omega) hurl]
    rfl
  rw [getString_eq (by omega) (by omega)]
  by_cases hname : 0x259 < peer.uint 3 4
  · rw [getString_long (by omega) hname]
    rfl
  rw [getString_eq (by omega) (by omega)]
  by_cases hid : 0x30 < peer.uint 5 4
  · rw [getString_long (by omega) hid]
    rfl
  rw [getString_eq (by omega) (by omega)]
  obtain htype : 0x10 < peer.uint 7 4 := by
    unfold Peer.EndsEarly at h
    omega
  rw [getString_long (by omega) htype]
  rfl

theorem getPkgInfo_eq {peer : Peer} (h : ¬peer.EndsEarly) :
    getPkgInfo peer = getIcon peer (peer.string 1 0x800) (peer.string 3 0x259)
      (peer.string 5 0x30) (peer.string 7 0x10) := by
  unfold Peer.EndsEarly at h
  unfold getPkgInfo getUint32
  rw [getUint_eq, getString_eq (by omega) (by omega), getString_eq (by omega) (by omega),
    getString_eq (by omega) (by omega), getString_eq (by omega) (by omega)]
  simp only [bind, Except.bind]
  rw [if_neg (by omega)]
  rfl

/-- The arrays behind the strings. -/
theorem getPkgInfo_late {peer : Peer} (h : ¬peer.EndsEarly) :
    Safe (getPkgInfo peer) ↔
      peer.LeavesNul 1 0x800 ∧ peer.LeavesNul 3 0x259 ∧ peer.LeavesNul 5 0x30 ∧
        peer.LeavesNul 7 0x10 ∧ peer.uint 10 4 < 2 ^ 31 := by
  have hid : (peer.string 5 0x30).length ≤ 0x30 := by
    unfold Peer.EndsEarly at h
    exact (Peer.string_length (by omega)).le
  rw [getPkgInfo_eq h, getIcon_safe_iff peer hid]
  simp only [Peer.terminated_string_iff]

/-- The receiver stays inside its arrays exactly when it gives up before the
icon, or every string leaves a terminator in its array and the icon's length
is no negative `int`. -/
theorem getPkgInfo_safe_iff (peer : Peer) :
    Safe (getPkgInfo peer) ↔
      peer.EndsEarly ∨
        (peer.LeavesNul 1 0x800 ∧ peer.LeavesNul 3 0x259 ∧ peer.LeavesNul 5 0x30 ∧
          peer.LeavesNul 7 0x10 ∧ peer.uint 10 4 < 2 ^ 31) := by
  by_cases hearly : peer.EndsEarly
  · obtain ⟨ret, hret, hrun⟩ := getPkgInfo_early hearly
    rw [hrun]
    constructor
    · intro _
      exact .inl hearly
    · intro _
      exact ⟨ret, none, rfl, fun hzero => absurd hzero hret⟩
  · rw [getPkgInfo_late hearly]
    constructor
    · intro h
      exact .inr h
    · intro h
      exact h.resolve_left hearly

/-! ## A content ID without a terminator, and a negative length -/

/-- A peer that sends one record, with full reads, and then ends. -/
def oneRecord (id iconLength : List UInt8) : Peer where
  read call := [[1, 0, 0, 0], [1, 0, 0, 0], [65], [1, 0, 0, 0], [65],
    bytes 4 id.length, id, [1, 0, 0, 0], [65], List.replicate 8 0, iconLength][call]?
  garbage := fun _ _ => 0
  written := fun _ => 0

/-- A content ID that fills its array, and an icon of 4294967295 bytes. -/
theorem getPkgInfo_unsafe :
    ¬Safe (getPkgInfo (oneRecord (List.replicate 0x30 65) [0, 0, 0, 0])) ∧
      ¬Safe (getPkgInfo (oneRecord [65] [255, 255, 255, 255])) := by
  constructor
  · rw [getPkgInfo_late (by decide)]
    intro hsafe
    obtain ⟨-, -, hshort | hnul, -⟩ := hsafe
    · exact absurd hshort (by decide)
    · exact absurd hnul (by decide)
  · rw [getPkgInfo_late (by decide)]
    intro hsafe
    obtain ⟨-, -, -, -, hicon⟩ := hsafe
    exact absurd hicon (by decide)

end DirectPackageInstaller.PkgInfo.Arrays
