import DirectPackageInstaller.Lib.Scatter

/-!
# Copies between the payload and the kernel

`jbc_krw_memcpy` of `kernelrw.c` copies between the memory of the process and the
memory of the kernel.  It checks the ends of both ranges and copies with `rep movsb` in
the kernel, or, under Mira, in chunks through a socket pair.

* `permitted_iff`: a copy that passes the checks stays in the ranges they stand for
  exactly if it is no longer than `2 ^ 47` bytes.
* `allowed_iff`: a longer one passes them exactly if both of its ranges wrap around.
* `memcpy_eq`, `memcpy_refused`: such a copy is made, and any other one is not.
* `calls_copy`: calls that all return 0 have made all copies, on either path.
* `calls_of_permitted`: permitted calls do so when nothing is moved short.
-/

namespace DirectPackageInstaller.Payload

open Memory (overlay slice)

/-! ## The code -/

/-- An address as a `uintptr_t`. -/
def uintptr (n : Nat) : Nat := n % 0x10000000000000000

inductive KmemKind where
  | userspace
  | kernelHeap
  | kernelText
deriving DecidableEq, Repr

/-- `check_ptr(p, kind)`. -/
def checkPtr (p : Nat) : KmemKind → Bool
  | .userspace => p < 0x800000000000
  | .kernelHeap => p ≥ 0xffff800000000000 && p < 0xffffffff00000000
  | .kernelText => p ≥ 0xffffffff00000000 && p < 0xfffffffffffff000

/-- The memory of the process and of the kernel, the bytes in `mira_socket`, and
`have_mira`. -/
structure Machine where
  mem : Nat → UInt8
  socket : List UInt8
  haveMira : Bool

/-- How many bytes `write` and `read` move at most, for each chunk of a copy. -/
abbrev Transfers := Nat → Nat × Nat

def setByte (mem : Nat → UInt8) (p : Nat) (b : UInt8) : Nat → UInt8 :=
  fun q => if q = p then b else mem q

/-- `k_kcpy`: `rep movsb`. -/
def kcpy (mem : Nat → UInt8) (dst src : Nat) : Nat → Nat → UInt8
  | 0 => mem
  | n + 1 => kcpy (setByte mem dst (mem src)) (uintptr (dst + 1)) (uintptr (src + 1)) n

/-- `read` into the memory at `dst`. -/
def store (mem : Nat → UInt8) (dst : Nat) (bytes : List UInt8) : Nat → UInt8 :=
  overlay mem (fun q => bytes.getD (q - dst) 0) dst (dst + bytes.length)

/-- `kcpy_mira(dst, src, sz)` from chunk `i` on; `false` is `-1`. -/
def kcpyMira (io : Transfers) (i : Nat) (s : Machine) (dst src sz : Nat) : Machine × Bool :=
  if sz = 0 then (s, true)
  else
    let chk := if sz > 64 then 64 else sz
    let written := min chk (io i).1
    let s := { s with socket := s.socket ++ slice s.mem src written }
    if written ≠ chk then (s, false)
    else
      let readed := min chk (min (io i).2 s.socket.length)
      let s := { s with
        mem := store s.mem dst (s.socket.take readed)
        socket := s.socket.drop readed }
      if readed ≠ chk then (s, false)
      else kcpyMira io (i + 1) s (uintptr (dst + chk)) (uintptr (src + chk)) (sz - chk)
termination_by sz
decreasing_by split <;> omega

/-- Both ends of the `sz` bytes at `p` are pointers of the kind. -/
def checkEnds (p sz : Nat) (kind : KmemKind) : Bool :=
  checkPtr p kind && checkPtr (uintptr (p + sz - 1)) kind

/-- The checks of `jbc_krw_memcpy`. -/
def allowed (dst src sz : Nat) (kind : KmemKind) : Bool :=
  let u1 := checkEnds dst sz .userspace
  let ok1 := checkEnds dst sz kind
  let u2 := checkEnds src sz .userspace
  let ok2 := checkEnds src sz kind
  if !((u1 || ok1) && (u2 || ok2)) then false
  else if u1 && u2 then false
  else true

/-- `jbc_krw_memcpy(dst, src, sz, kind)`; `false` is `-1`. -/
def memcpy (io : Transfers) (s : Machine) (dst src sz : Nat) (kind : KmemKind) : Machine × Bool :=
  if sz = 0 then (s, true)
  else if !allowed dst src sz kind then (s, false)
  else if s.haveMira then kcpyMira io 0 s dst src sz
  else ({ s with mem := kcpy s.mem dst src sz }, true)

/-! ## The checks -/

/-- The addresses of a kind. -/
def KmemKind.lo : KmemKind → Nat
  | .userspace => 0
  | .kernelHeap => 0xffff800000000000
  | .kernelText => 0xffffffff00000000

def KmemKind.hi : KmemKind → Nat
  | .userspace => 0x800000000000
  | .kernelHeap => 0xffffffff00000000
  | .kernelText => 0xfffffffffffff000

/-- All the `sz` bytes at `p` are of the kind. -/
def Within (p sz : Nat) (kind : KmemKind) : Prop := kind.lo ≤ p ∧ p + sz ≤ kind.hi

instance (p sz : Nat) (kind : KmemKind) : Decidable (Within p sz kind) :=
  inferInstanceAs (Decidable (_ ∧ _))

/-- Each range is the process's or one of the kernel's, and not both are the process's. -/
def Permitted (dst src sz : Nat) (kind : KmemKind) : Prop :=
  (Within dst sz .userspace ∨ Within dst sz kind) ∧
    (Within src sz .userspace ∨ Within src sz kind) ∧
    ¬ (Within dst sz .userspace ∧ Within src sz .userspace)

instance (dst src sz : Nat) (kind : KmemKind) : Decidable (Permitted dst src sz kind) :=
  inferInstanceAs (Decidable (_ ∧ _))

/-- The `sz` bytes at `p` begin at an address of the kind and wrap around to another one. -/
def Wraps (p sz : Nat) (kind : KmemKind) : Prop :=
  kind.lo ≤ p ∧ p < kind.hi ∧ 0x10000000000000000 + kind.lo < p + sz

instance (p sz : Nat) (kind : KmemKind) : Decidable (Wraps p sz kind) :=
  inferInstanceAs (Decidable (_ ∧ _))

/-- The ranges of a copy that `Permitted` does not know of and that the checks let pass. -/
def WrapsAround (dst src sz : Nat) (kind : KmemKind) : Prop :=
  (Wraps dst sz .userspace ∨ Wraps dst sz kind) ∧
    (Wraps src sz .userspace ∨ Wraps src sz kind) ∧
    ¬ (Wraps dst sz .userspace ∧ Wraps src sz .userspace)

instance (dst src sz : Nat) (kind : KmemKind) : Decidable (WrapsAround dst src sz kind) :=
  inferInstanceAs (Decidable (_ ∧ _))

theorem checkPtr_iff {p : Nat} {kind : KmemKind} :
    checkPtr p kind = true ↔ kind.lo ≤ p ∧ p < kind.hi := by
  cases kind <;> simp [checkPtr, KmemKind.lo, KmemKind.hi]

theorem Within.le {p sz : Nat} {kind : KmemKind} (h : Within p sz kind) :
    p + sz ≤ 0xfffffffffffff000 ∧ sz ≤ 0x800000000000 := by
  unfold Within at h
  cases kind <;> simp only [KmemKind.lo, KmemKind.hi] at h <;> omega

/-- The ends of a range that is small enough decide on the range. -/
theorem checkEnds_iff {p sz : Nat} {kind : KmemKind} (hpos : 0 < sz)
    (hsz : sz ≤ 0x800000000000) :
    checkEnds p sz kind = true ↔ Within p sz kind := by
  unfold checkEnds Within uintptr
  rw [Bool.and_eq_true, checkPtr_iff, checkPtr_iff]
  cases kind <;> simp only [KmemKind.lo, KmemKind.hi] <;> omega

/-- The ends of a range that is too long are only good if it wraps around. -/
theorem checkEnds_iff_wraps {p sz : Nat} {kind : KmemKind} (hlong : 0x800000000000 < sz)
    (hsz : sz < 0x10000000000000000) :
    checkEnds p sz kind = true ↔ Wraps p sz kind := by
  unfold checkEnds Wraps uintptr
  rw [Bool.and_eq_true, checkPtr_iff, checkPtr_iff]
  cases kind <;> simp only [KmemKind.lo, KmemKind.hi] <;> omega

theorem allowed_iff_or {dst src sz : Nat} {kind : KmemKind} :
    allowed dst src sz kind = true ↔
      (checkEnds dst sz .userspace = true ∨ checkEnds dst sz kind = true) ∧
      (checkEnds src sz .userspace = true ∨ checkEnds src sz kind = true) ∧
      ¬ (checkEnds dst sz .userspace = true ∧ checkEnds src sz .userspace = true) := by
  unfold allowed
  cases checkEnds dst sz .userspace <;> cases checkEnds dst sz kind <;>
    cases checkEnds src sz .userspace <;> cases checkEnds src sz kind <;> decide

theorem Permitted.le {dst src sz : Nat} {kind : KmemKind} (h : Permitted dst src sz kind) :
    dst + sz ≤ 0xfffffffffffff000 ∧ src + sz ≤ 0xfffffffffffff000 ∧ sz ≤ 0x800000000000 := by
  have hdst := h.1.elim Within.le Within.le
  have hsrc := h.2.1.elim Within.le Within.le
  exact ⟨hdst.1, hsrc.1, hsrc.2⟩

/-- The checks look at the ends only.  They keep a copy inside these ranges exactly if it
is no longer than the memory of a process. -/
theorem permitted_iff {dst src sz : Nat} {kind : KmemKind} (hpos : 0 < sz) :
    Permitted dst src sz kind ↔ allowed dst src sz kind = true ∧ sz ≤ 0x800000000000 := by
  constructor
  · intro h
    have hsz := h.le.2.2
    refine ⟨?_, hsz⟩
    rw [allowed_iff_or]
    simp only [checkEnds_iff hpos hsz]
    exact h
  · intro ⟨hallowed, hsz⟩
    rw [allowed_iff_or] at hallowed
    simp only [checkEnds_iff hpos hsz] at hallowed
    exact hallowed

/-- Of all sizes of a `size_t`, those up to `2 ^ 47` pass if the ranges are permitted, and
longer ones if they wrap around. -/
theorem allowed_iff {dst src sz : Nat} {kind : KmemKind} (hpos : 0 < sz)
    (hsz : sz < 0x10000000000000000) :
    (Permitted dst src sz kind ↔ allowed dst src sz kind = true ∧ sz ≤ 0x800000000000) ∧
      (0x800000000000 < sz → (allowed dst src sz kind = true ↔ WrapsAround dst src sz kind)) := by
  refine ⟨permitted_iff hpos, fun hlong => ?_⟩
  rw [allowed_iff_or]
  simp only [checkEnds_iff_wraps hlong hsz]
  exact Iff.rfl

/-- Eight bytes short of `2 ^ 64`, a copy from the kernel's heap into the process passes. -/
theorem allowed_iff_wrapping :
    allowed 0x1000 0xffff900000001000 0xfffffffffffffff8 .kernelHeap = true ∧
      ¬ Permitted 0x1000 0xffff900000001000 0xfffffffffffffff8 .kernelHeap := by
  have hiff := @allowed_iff 0x1000 0xffff900000001000 0xfffffffffffffff8 .kernelHeap (by decide)
    (by decide)
  exact ⟨(hiff.2 (by decide)).2 (by decide), fun h => absurd (hiff.1.1 h).2 (by decide)⟩

/-! ## One copy -/

/-- `rep movsb` between ranges that keep apart. -/
theorem kcpy_eq {mem : Nat → UInt8} {dst src n : Nat} (hdst : dst + n ≤ 0x10000000000000000)
    (hsrc : src + n ≤ 0x10000000000000000) (hapart : dst + n ≤ src ∨ src + n ≤ dst) :
    kcpy mem dst src n = Scatter.copy mem ⟨dst, src, n⟩ := by
  induction n generalizing mem dst src with
  | zero => exact (Memory.overlay_self ..).symm
  | succ n ih =>
    have hrest : kcpy (setByte mem dst (mem src)) (uintptr (dst + 1)) (uintptr (src + 1)) n =
        Scatter.copy (setByte mem dst (mem src)) ⟨dst + 1, src + 1, n⟩ := by
      cases n with
      | zero => exact (Memory.overlay_self ..).symm
      | succ n =>
        unfold uintptr
        rw [Nat.mod_eq_of_lt (by omega), Nat.mod_eq_of_lt (by omega)]
        exact ih (by omega) (by omega) (by omega)
    rw [kcpy, hrest]
    funext q
    by_cases hq : dst ≤ q ∧ q < dst + (n + 1)
    · obtain ⟨i, rfl⟩ := Nat.exists_eq_add_of_le hq.1
      have hright : Scatter.copy mem ⟨dst, src, n + 1⟩ (dst + i) = mem (src + i) :=
        Scatter.copy_inside (p := ⟨dst, src, n + 1⟩) (by show i < n + 1; omega)
      rw [hright]
      cases i with
      | zero =>
        rw [Scatter.copy_outside (by unfold Scatter.Piece.Writes; simp)]
        exact if_pos rfl
      | succ i =>
        have hleft : Scatter.copy (setByte mem dst (mem src)) ⟨dst + 1, src + 1, n⟩ (dst + 1 + i) =
            setByte mem dst (mem src) (src + 1 + i) :=
          Scatter.copy_inside (p := ⟨dst + 1, src + 1, n⟩) (by show i < n; omega)
        rw [show dst + (i + 1) = dst + 1 + i by omega, hleft,
          show src + (i + 1) = src + 1 + i by omega]
        have hne : src + 1 + i ≠ dst := by omega
        exact if_neg hne
    · rw [Scatter.copy_outside (p := ⟨dst, src, n + 1⟩) hq,
        Scatter.copy_outside (p := ⟨dst + 1, src + 1, n⟩)]
      · exact if_neg fun heq => hq ⟨by omega, by omega⟩
      · intro hwrites
        change dst + 1 ≤ q ∧ q < dst + 1 + n at hwrites
        exact hq ⟨by omega, by omega⟩

section Store

variable {mem : Nat → UInt8} {dst src n m q : Nat} {xs ys : List UInt8}

theorem store_outside (h : ¬ (dst ≤ q ∧ q < dst + xs.length)) : store mem dst xs q = mem q :=
  Memory.overlay_outside h

@[simp] theorem store_nil : store mem dst [] = mem := Memory.overlay_self ..

theorem store_append :
    store (store mem dst xs) (dst + xs.length) ys = store mem dst (xs ++ ys) := by
  funext q
  unfold store overlay
  rw [List.length_append]
  by_cases hlow : q < dst
  · rw [if_neg (by omega), if_neg (by omega), if_neg (by omega)]
  · by_cases hmid : q < dst + xs.length
    · rw [if_neg (by omega), if_pos (by omega), if_pos (by omega)]
      show xs.getD (q - dst) 0 = (xs ++ ys).getD (q - dst) 0
      rw [List.getD_eq_getElem?_getD, List.getD_eq_getElem?_getD,
        List.getElem?_append_left (by omega)]
    · by_cases hhigh : q < dst + xs.length + ys.length
      · rw [if_pos (by omega), if_pos (by omega)]
        show ys.getD (q - (dst + xs.length)) 0 = (xs ++ ys).getD (q - dst) 0
        rw [List.getD_eq_getElem?_getD, List.getD_eq_getElem?_getD,
          List.getElem?_append_right (by omega),
          show q - dst - xs.length = q - (dst + xs.length) by omega]
      · rw [if_neg (by omega), if_neg (by omega), if_neg (by omega)]

theorem slice_add : slice mem src (n + m) = slice mem src n ++ slice mem (src + n) m := by
  unfold slice
  rw [List.range_add, List.map_append, List.map_map]
  congr 1
  apply List.map_congr_left
  intro i _
  show mem (src + (n + i)) = mem (src + n + i)
  rw [Nat.add_assoc]

theorem slice_store (h : dst + xs.length ≤ src ∨ src + n ≤ dst) :
    slice (store mem dst xs) src n = slice mem src n := by
  rw [Memory.slice_eq_slice_iff]
  intro i hi
  apply store_outside
  rw [Nat.cast_id]
  omega

/-- The bytes of a range, stored in another one. -/
theorem store_slice : store mem dst (slice mem src n) = Scatter.copy mem ⟨dst, src, n⟩ := by
  funext q
  unfold store Scatter.copy overlay
  rw [Memory.slice_length]
  by_cases hq : dst ≤ q ∧ q < dst + n
  · rw [if_pos hq, if_pos hq]
    show (slice mem src n).getD (q - dst) 0 = mem (src + (q - dst))
    unfold slice
    rw [List.getD_eq_getElem?_getD, List.getElem?_map, List.getElem?_range (by omega)]
    rfl
  · rw [if_neg hq, if_neg hq]

end Store

/-- Through the socket pair a range gets what lies in the socket, and the bytes of the
other range behind that. -/
theorem kcpyMira_spec (io : Transfers) (i : Nat) (s : Machine) (dst src sz : Nat)
    (hdst : dst + sz < 0x10000000000000000) (hsrc : src + sz < 0x10000000000000000)
    (hapart : dst + sz ≤ src ∨ src + sz ≤ dst) :
    ∃ written readed, written ≤ sz ∧ readed ≤ written ∧
      (kcpyMira io i s dst src sz).1 =
        { s with
          mem := store s.mem dst ((s.socket ++ slice s.mem src written).take readed)
          socket := (s.socket ++ slice s.mem src written).drop readed } ∧
      ((kcpyMira io i s dst src sz).2 = true ↔ readed = sz) := by
  induction sz using Nat.strongRecOn generalizing i s dst src with
  | ind sz ih =>
    rw [kcpyMira]
    by_cases hzero : sz = 0
    · subst hzero
      refine ⟨0, 0, Nat.le_refl _, Nat.le_refl _, ?_, by simp⟩
      simp [slice]
    rw [if_neg hzero]
    have hchk : 0 < (if sz > 64 then 64 else sz) ∧ (if sz > 64 then 64 else sz) ≤ sz := by
      split <;> omega
    generalize (if sz > 64 then 64 else sz) = chk at hchk ⊢
    dsimp only
    by_cases hwritten : min chk (io i).1 = chk
    · rw [hwritten, if_neg (by simp)]
      have hlen : chk ≤ (s.socket ++ slice s.mem src chk).length := by
        rw [List.length_append, Memory.slice_length]
        omega
      by_cases hreaded : min chk (min (io i).2 (s.socket ++ slice s.mem src chk).length) = chk
      · rw [hreaded, if_neg (by simp)]
        unfold uintptr
        rw [Nat.mod_eq_of_lt (by omega), Nat.mod_eq_of_lt (by omega)]
        have htake : ((s.socket ++ slice s.mem src chk).take chk).length = chk :=
          List.length_take_of_le hlen
        obtain ⟨written, readed, hle, hle', hstate, hresult⟩ := ih (sz - chk) (by omega) (i + 1)
          { s with
            mem := store s.mem dst ((s.socket ++ slice s.mem src chk).take chk)
            socket := (s.socket ++ slice s.mem src chk).drop chk }
          (dst + chk) (src + chk) (by omega) (by omega) (by omega)
        have hall : readed = sz - chk ↔ chk + readed = sz := by omega
        refine ⟨chk + written, chk + readed, by omega, by omega, ?_, hresult.trans hall⟩
        -- The queue of the rest is what the first chunk has left of the whole.
        have hrest : (s.socket ++ slice s.mem src chk).drop chk ++ slice s.mem (src + chk) written =
            (s.socket ++ slice s.mem src (chk + written)).drop chk := by
          rw [slice_add, ← List.append_assoc, List.drop_append_of_le_length hlen]
        have hfront : (s.socket ++ slice s.mem src chk).take chk =
            (s.socket ++ slice s.mem src (chk + written)).take chk := by
          rw [slice_add, ← List.append_assoc, List.take_append_of_le_length hlen]
        have hsource : slice (store s.mem dst ((s.socket ++ slice s.mem src chk).take chk))
            (src + chk) written = slice s.mem (src + chk) written := by
          apply slice_store
          rw [htake]
          omega
        rw [hstate]
        dsimp only
        rw [hsource, hrest, List.drop_drop]
        congr 1
        rw [List.take_add, ← hfront, ← store_append, htake]
      · rw [if_pos hreaded]
        exact ⟨chk, _, hchk.2, Nat.min_le_left _ _, rfl, by simp; omega⟩
    · rw [if_pos hwritten]
      refine ⟨min chk (io i).1, 0, by omega, Nat.zero_le _, ?_, ?_⟩
      · simp
      · simp
        omega

/-- Every `write` and `read` moves its chunk. -/
def Full (io : Transfers) : Prop := ∀ i, 64 ≤ (io i).1 ∧ 64 ≤ (io i).2

/-- Nothing is cut short where every `write` and `read` moves its chunk. -/
theorem kcpyMira_full {io : Transfers} (hfull : Full io) (i : Nat)
    (s : Machine) (dst src sz : Nat) : (kcpyMira io i s dst src sz).2 = true := by
  induction sz using Nat.strongRecOn generalizing i s dst src with
  | ind sz ih =>
    rw [kcpyMira]
    by_cases hzero : sz = 0
    · rw [if_pos hzero]
    have hchk : 0 < (if sz > 64 then 64 else sz) ∧ (if sz > 64 then 64 else sz) ≤ 64 := by
      split <;> omega
    rw [if_neg hzero]
    generalize (if sz > 64 then 64 else sz) = chk at hchk ⊢
    have hio := hfull i
    have hwritten : min chk (io i).1 = chk := by omega
    dsimp only
    rw [hwritten, if_neg (by simp), List.length_append, Memory.slice_length]
    have hreaded : min chk (min (io i).2 (s.socket.length + chk)) = chk := by omega
    rw [hreaded, if_neg (by simp)]
    exact ih (sz - chk) (by omega) _ _ _ _

/-! ## Calls -/

/-- No earlier copy was cut short. -/
def Drained (s : Machine) : Prop := s.haveMira = true → s.socket = []

/-- What a call that passes the checks does when it returns 0. -/
theorem memcpy_of_success {io : Transfers} {s : Machine} {dst src sz : Nat} {kind : KmemKind}
    (hs : Drained s) (hsz : sz ≤ 0x800000000000) (hapart : dst + sz ≤ src ∨ src + sz ≤ dst)
    (h : (memcpy io s dst src sz kind).2 = true) :
    memcpy io s dst src sz kind = ({ s with mem := Scatter.copy s.mem ⟨dst, src, sz⟩ }, true) ∧
      (0 < sz → Permitted dst src sz kind) := by
  unfold memcpy at h ⊢
  by_cases hzero : sz = 0
  · subst hzero
    rw [if_pos rfl]
    refine ⟨?_, fun hpos => absurd hpos (Nat.lt_irrefl 0)⟩
    rw [show Scatter.copy s.mem ⟨dst, src, 0⟩ = s.mem from Memory.overlay_self ..]
  rw [if_neg hzero] at h ⊢
  by_cases hallowed : allowed dst src sz kind = true
  · have hpermitted : Permitted dst src sz kind :=
      (permitted_iff (by omega)).2 ⟨hallowed, hsz⟩
    have hle := hpermitted.le
    refine ⟨?_, fun _ => hpermitted⟩
    rw [hallowed, if_neg (by decide)] at h ⊢
    by_cases hmira : s.haveMira = true
    · rw [if_pos hmira] at h ⊢
      obtain ⟨written, readed, hwritten, hreaded, hstate, hresult⟩ :=
        kcpyMira_spec io 0 s dst src sz (by omega) (by omega) hapart
      have hall : readed = sz := hresult.1 h
      have hall' : written = sz := by omega
      subst hall
      subst hall'
      have hempty := hs hmira
      apply Prod.ext
      · rw [hstate, hempty, List.nil_append, List.take_of_length_le (by simp),
          List.drop_of_length_le (by simp), store_slice, ← hempty]
      · exact h
    · rw [if_neg hmira, kcpy_eq (by omega) (by omega) hapart]
  · rw [Bool.not_eq_true] at hallowed
    rw [hallowed] at h
    simp at h

/-- A call whose ranges are not permitted does nothing. -/
theorem memcpy_refused {io : Transfers} {s : Machine} {dst src sz : Nat} {kind : KmemKind}
    (hpos : 0 < sz) (hsz : sz ≤ 0x800000000000) (h : ¬ Permitted dst src sz kind) :
    memcpy io s dst src sz kind = (s, false) := by
  have hrefused : allowed dst src sz kind = false := by
    rw [← Bool.not_eq_true]
    exact fun hallowed => h ((permitted_iff hpos).2 ⟨hallowed, hsz⟩)
  unfold memcpy
  rw [if_neg (by omega), hrefused]
  rfl

/-- A call whose ranges are permitted copies. -/
theorem memcpy_eq {io : Transfers} {s : Machine} {dst src sz : Nat} {kind : KmemKind}
    (hfull : Full io) (hs : Drained s) (hpos : 0 < sz)
    (hapart : dst + sz ≤ src ∨ src + sz ≤ dst) (h : Permitted dst src sz kind) :
    memcpy io s dst src sz kind =
      ({ s with mem := Scatter.copy s.mem ⟨dst, src, sz⟩ }, true) := by
  apply (memcpy_of_success hs h.le.2.2 hapart _).1
  unfold memcpy
  rw [if_neg (by omega), ((permitted_iff hpos).1 h).1, if_neg (by decide)]
  split
  · exact kcpyMira_full hfull ..
  · rfl

/-- A call of `jbc_krw_memcpy`, and what its system calls move. -/
structure Call where
  io : Transfers
  dst : Nat
  src : Nat
  sz : Nat
  kind : KmemKind

/-- Calls joined by `||`: the first one that fails is the last one. -/
def calls (s : Machine) : List Call → Machine × Bool
  | [] => (s, true)
  | c :: cs =>
    let r := memcpy c.io s c.dst c.src c.sz c.kind
    if r.2 then calls r.1 cs else (r.1, false)

def Call.piece (c : Call) : Scatter.Piece := ⟨c.dst, c.src, c.sz⟩

/-- When calls have all returned 0, each has copied its range and its checks were right,
with Mira as without it and whatever the system calls moved. -/
theorem calls_copy {s : Machine} {cs : List Call} (hs : Drained s)
    (hsz : ∀ c ∈ cs, c.sz ≤ 0x800000000000)
    (hapart : ∀ c ∈ cs, c.dst + c.sz ≤ c.src ∨ c.src + c.sz ≤ c.dst)
    (h : (calls s cs).2 = true) :
    (calls s cs).1 = { s with mem := Scatter.copies s.mem (cs.map Call.piece) } ∧
      ∀ c ∈ cs, 0 < c.sz → Permitted c.dst c.src c.sz c.kind := by
  induction cs generalizing s with
  | nil => exact ⟨rfl, by simp⟩
  | cons c cs ih =>
    rw [calls] at h ⊢
    by_cases hok : (memcpy c.io s c.dst c.src c.sz c.kind).2 = true
    · obtain ⟨heq, hpermitted⟩ := memcpy_of_success hs (hsz c List.mem_cons_self)
        (hapart c List.mem_cons_self) hok
      rw [heq] at h ⊢
      obtain ⟨hrest, hall⟩ := ih (s := { s with mem := Scatter.copy s.mem c.piece }) hs
        (fun c' hc' => hsz c' (List.mem_cons_of_mem _ hc'))
        (fun c' hc' => hapart c' (List.mem_cons_of_mem _ hc')) h
      refine ⟨hrest, fun c' hc' => ?_⟩
      rcases List.mem_cons.1 hc' with heq' | hc'
      · rw [heq']
        exact hpermitted
      · exact hall c' hc'
    · rw [if_neg hok] at h
      cases h

/-- Calls whose ranges are permitted all return 0 when nothing is moved short. -/
theorem calls_of_permitted {s : Machine} {cs : List Call} (hs : Drained s)
    (h : ∀ c ∈ cs, Full c.io ∧ 0 < c.sz ∧ (c.dst + c.sz ≤ c.src ∨ c.src + c.sz ≤ c.dst) ∧
      Permitted c.dst c.src c.sz c.kind) :
    (calls s cs).2 = true := by
  induction cs generalizing s with
  | nil => rfl
  | cons c cs ih =>
    obtain ⟨hfull, hpos, hapart, hpermitted⟩ := h c List.mem_cons_self
    have heq := memcpy_eq hfull hs hpos hapart hpermitted
    rw [calls, heq]
    exact ih (s := { s with mem := Scatter.copy s.mem c.piece }) hs
      fun c' hc' => h c' (List.mem_cons_of_mem _ hc')

/-- A process without Mira. -/
def blank : Machine := ⟨fun _ => 0, [], false⟩

/-- The same process with Mira. -/
def mira : Machine := { blank with haveMira := true }

/-- Two fields are read, one after the other, and nothing is moved short. -/
def twoFields : List Call :=
  [⟨fun _ => (64, 64), 0x1000, 0xffff900000000004, 12, .kernelHeap⟩,
    ⟨fun _ => (64, 64), 0x1010, 0xffff900000000014, 8, .kernelHeap⟩]

theorem twoFields_permitted : ∀ c ∈ twoFields, Full c.io ∧ 0 < c.sz ∧
    (c.dst + c.sz ≤ c.src ∨ c.src + c.sz ≤ c.dst) ∧ Permitted c.dst c.src c.sz c.kind := by
  intro c hc
  rcases List.mem_pair.1 hc with rfl | rfl
  · exact ⟨fun _ => ⟨Nat.le_refl _, Nat.le_refl _⟩, by decide, by decide, by decide⟩
  · exact ⟨fun _ => ⟨Nat.le_refl _, Nat.le_refl _⟩, by decide, by decide, by decide⟩

theorem calls_copy_twoFields :
    ((calls blank twoFields).1 =
        { blank with mem := Scatter.copies blank.mem (twoFields.map Call.piece) } ∧
      ∀ c ∈ twoFields, 0 < c.sz → Permitted c.dst c.src c.sz c.kind) ∧
    (calls mira twoFields).1 =
        { mira with mem := Scatter.copies mira.mem (twoFields.map Call.piece) } := by
  have hblank := calls_of_permitted (s := blank) (fun _ => rfl) twoFields_permitted
  have hmira := calls_of_permitted (s := mira) (fun _ => rfl) twoFields_permitted
  exact ⟨calls_copy (fun _ => rfl) (by decide) (by decide) hblank,
    (calls_copy (fun _ => rfl) (by decide) (by decide) hmira).1⟩

end DirectPackageInstaller.Payload
