import DirectPackageInstaller.Lib.LittleEndian
import DirectPackageInstaller.Payload.KernelMemory

/-!
# The credentials of a process

`jbc_get_cred` and `jbc_set_cred` of `jailbreak.c` copy five ranges between a
`struct jbc_cred` of the payload and the records of the kernel.

* `getCred_reads`, `setCred_writes`: the two records agree afterwards, and nothing else
  has changed.
* `cred_laws`: what was set is got, and to set what was got changes nothing.
-/

namespace DirectPackageInstaller.Payload

open Memory (slice)

/-! ## The code -/

abbrev Mem := Nat → UInt8

/-- What stays the same for a thread of the payload: whether there is Mira, the address
of the variable that `jbc_krw_read64` reads into, and `jbc_krw_get_td()`. -/
structure Thread where
  haveMira : Bool
  ans : Nat
  td : Nat

/-- The `w` bytes at `p` as an integer. -/
def word (mem : Mem) (p w : Nat) : Nat := LittleEndian.value (slice mem p w)

/-- `jbc_krw_memcpy(dst, src, sz, KERNEL_HEAP)`.  Under Mira, `write` and `read` move all
that they are asked to. -/
def krwMemcpy (t : Thread) (mem : Mem) (dst src sz : Nat) : Mem × Bool :=
  let r := memcpy (fun _ => (64, 64)) ⟨mem, [], t.haveMira⟩ dst src sz .kernelHeap
  (r.1.mem, r.2)

/-- A read of `w` bytes into a variable, which is gone afterwards. -/
def krwRead (t : Thread) (mem : Mem) (p w : Nat) : Option Nat :=
  let r := krwMemcpy t mem t.ans p w
  if r.2 then some (word r.1 t.ans w) else none

/-- `jbc_krw_read64(p, KERNEL_HEAP)`. -/
def krwRead64 (t : Thread) (mem : Mem) (p : Nat) : Nat :=
  match krwRead t mem p 8 with
  | none => 0xffffffffffffffff
  | some ans => ans

/-- Where the fields of `struct jbc_cred` are. -/
def offUid : Nat := 0
def offRuid : Nat := 4
def offSvuid : Nat := 8
def offRgid : Nat := 12
def offSvgid : Nat := 16
def offPrison : Nat := 24
def offCdir : Nat := 32
def offRdir : Nat := 40
def offJdir : Nat := 48
def offSceProcType : Nat := 56
def offSonyCred : Nat := 64
def offSceProcCap : Nat := 72
def sizeofCred : Nat := 80

/-- `ppcopyout(u1, u2, k)`. -/
def ppcopyout (t : Thread) (mem : Mem) (u1 u2 k : Nat) : Mem × Bool :=
  krwMemcpy t mem u1 k (u2 - u1)

/-- `ppcopyin(u1, u2, k)`. -/
def ppcopyin (t : Thread) (mem : Mem) (u1 u2 k : Nat) : Mem × Bool :=
  krwMemcpy t mem k u1 (u2 - u1)

/-- The arguments of the five copies. -/
def credRanges (ans ucred fd : Nat) : List (Nat × Nat × Nat) :=
  [(ans + offUid, ans + offSvuid + 4, uintptr (ucred + 4)),
    (ans + offRgid, ans + offSvgid + 4, uintptr (ucred + 20)),
    (ans + offPrison, ans + offPrison + 8, uintptr (ucred + 0x30)),
    (ans + offCdir, ans + offJdir + 8, uintptr (fd + 0x10)),
    (ans + offSceProcType, ans + offSceProcCap + 8, uintptr (ucred + 88))]

/-- The copies joined by `||`; `false` is `-1`. -/
def attempt (copy : Mem → Nat → Nat → Nat → Mem × Bool) (mem : Mem) :
    List (Nat × Nat × Nat) → Mem × Bool
  | [] => (mem, true)
  | (u1, u2, k) :: ranges =>
    let r := copy mem u1 u2 k
    if r.2 then attempt copy r.1 ranges else r

def procOf (t : Thread) (mem : Mem) : Nat := krwRead64 t mem (uintptr (t.td + 8))

def ucredOf (t : Thread) (mem : Mem) (proc : Nat) : Nat := krwRead64 t mem (uintptr (proc + 0x40))

def fdOf (t : Thread) (mem : Mem) (proc : Nat) : Nat := krwRead64 t mem (uintptr (proc + 0x48))

/-- `jbc_get_cred(ans)`. -/
def getCred (t : Thread) (mem : Mem) (ans : Nat) : Mem × Bool :=
  let proc := procOf t mem
  let ucred := ucredOf t mem proc
  let fd := fdOf t mem proc
  attempt (ppcopyout t) mem (credRanges ans ucred fd)

/-- `jbc_set_cred(ans)`. -/
def setCred (t : Thread) (mem : Mem) (ans : Nat) : Mem × Bool :=
  let proc := procOf t mem
  let ucred := ucredOf t mem proc
  let fd := fdOf t mem proc
  attempt (ppcopyin t) mem (credRanges ans ucred fd)

/-! ## The records -/

/-- The values of a `struct jbc_cred`. -/
structure JbcCred where
  uid : Nat
  ruid : Nat
  svuid : Nat
  rgid : Nat
  svgid : Nat
  prison : Nat
  cdir : Nat
  rdir : Nat
  jdir : Nat
  sceProcType : Nat
  sonyCred : Nat
  sceProcCap : Nat
deriving DecidableEq, Repr

/-- The struct at `ans`. -/
def structAt (mem : Mem) (ans : Nat) : JbcCred where
  uid := word mem (ans + offUid) 4
  ruid := word mem (ans + offRuid) 4
  svuid := word mem (ans + offSvuid) 4
  rgid := word mem (ans + offRgid) 4
  svgid := word mem (ans + offSvgid) 4
  prison := word mem (ans + offPrison) 8
  cdir := word mem (ans + offCdir) 8
  rdir := word mem (ans + offRdir) 8
  jdir := word mem (ans + offJdir) 8
  sceProcType := word mem (ans + offSceProcType) 8
  sonyCred := word mem (ans + offSonyCred) 8
  sceProcCap := word mem (ans + offSceProcCap) 8

/-- The credentials in the records of the kernel. -/
def credAt (mem : Mem) (ucred fd : Nat) : JbcCred where
  uid := word mem (ucred + 4) 4
  ruid := word mem (ucred + 8) 4
  svuid := word mem (ucred + 12) 4
  rgid := word mem (ucred + 20) 4
  svgid := word mem (ucred + 24) 4
  prison := word mem (ucred + 0x30) 8
  cdir := word mem (fd + 0x10) 8
  rdir := word mem (fd + 0x18) 8
  jdir := word mem (fd + 0x20) 8
  sceProcType := word mem (ucred + 88) 8
  sonyCred := word mem (ucred + 96) 8
  sceProcCap := word mem (ucred + 104) 8

/-- The ranges of the struct and of the kernel, as copies into the kernel. -/
def credPieces (ans ucred fd : Nat) : List Scatter.Piece :=
  [⟨ucred + 4, ans, 12⟩, ⟨ucred + 20, ans + 12, 8⟩, ⟨ucred + 48, ans + 24, 8⟩,
    ⟨fd + 16, ans + 32, 24⟩, ⟨ucred + 88, ans + 56, 24⟩]

/-- The two ranges keep apart. -/
def Away (p n q m : Nat) : Prop := p + n ≤ q ∨ q + m ≤ p

instance (p n q m : Nat) : Decidable (Away p n q m) := inferInstanceAs (Decidable (_ ∨ _))

/-- The records of the thread's process are in the heap of the kernel, apart from each
other and from the pointers that lead to them. -/
structure Current (t : Thread) (mem : Mem) (ucred fd : Nat) : Prop where
  ans_user : Within t.ans 8 .userspace
  td_heap : Within (t.td + 8) 8 .kernelHeap
  proc_heap : Within (word mem (t.td + 8) 8 + 0x40) 16 .kernelHeap
  ucred_eq : word mem (word mem (t.td + 8) 8 + 0x40) 8 = ucred
  fd_eq : word mem (word mem (t.td + 8) 8 + 0x48) 8 = fd
  ucred_heap : Within (ucred + 4) 108 .kernelHeap
  fd_heap : Within (fd + 16) 24 .kernelHeap
  apart : Away (ucred + 4) 108 (fd + 16) 24
  td_ucred : Away (t.td + 8) 8 (ucred + 4) 108
  td_fd : Away (t.td + 8) 8 (fd + 16) 24
  proc_ucred : Away (word mem (t.td + 8) 8 + 0x40) 16 (ucred + 4) 108
  proc_fd : Away (word mem (t.td + 8) 8 + 0x40) 16 (fd + 16) 24

/-- A struct of the payload. -/
def Struct (ans : Nat) : Prop := Within ans sizeofCred .userspace

instance (ans : Nat) : Decidable (Struct ans) := inferInstanceAs (Decidable (Within ..))

/-! ## The copies -/

section Copies

variable {t : Thread} {mem mem' : Mem} {p q u k n w ans ucred fd : Nat}

theorem word_congr (h : ∀ i < w, mem (p + i) = mem' (q + i)) : word mem p w = word mem' q w := by
  unfold word slice
  congr 1
  apply List.map_congr_left
  intro i hi
  exact h i (List.mem_range.1 hi)

/-- A range of the process and one of the kernel. -/
theorem away_of_within (hu : Within u n .userspace) (hk : Within k n .kernelHeap) :
    Away u n k n := by
  unfold Within KmemKind.lo KmemKind.hi at hu hk
  unfold Away
  dsimp only at hu hk
  omega

theorem krwMemcpy_eq {dst src : Nat} (hpos : 0 < n) (haway : Away dst n src n)
    (hpermitted : Permitted dst src n .kernelHeap) :
    krwMemcpy t mem dst src n = (Scatter.copy mem ⟨dst, src, n⟩, true) := by
  have hfull : Full fun _ => (64, 64) := fun _ => ⟨Nat.le_refl _, Nat.le_refl _⟩
  unfold krwMemcpy
  rw [memcpy_eq hfull (fun _ => rfl) hpos haway hpermitted]

/-- No range is both the process's and the kernel's. -/
theorem not_userspace (hpos : 0 < n) (hk : Within k n .kernelHeap) :
    ¬ Within k n .userspace := by
  intro hu
  unfold Within KmemKind.lo KmemKind.hi at hu hk
  dsimp only at hu hk
  omega

theorem copyout_eq (hpos : 0 < n) (hu : Within u n .userspace) (hk : Within k n .kernelHeap) :
    krwMemcpy t mem u k n = (Scatter.copy mem ⟨u, k, n⟩, true) :=
  krwMemcpy_eq hpos (away_of_within hu hk)
    ⟨.inl hu, .inr hk, fun h => not_userspace hpos hk h.2⟩

theorem copyin_eq (hpos : 0 < n) (hu : Within u n .userspace) (hk : Within k n .kernelHeap) :
    krwMemcpy t mem k u n = (Scatter.copy mem ⟨k, u, n⟩, true) :=
  krwMemcpy_eq hpos (Or.symm (away_of_within hu hk))
    ⟨.inr hk, .inl hu, fun h => not_userspace hpos hk h.1⟩

/-- A variable gets what is in the heap, and nothing from anywhere else. -/
theorem krwRead_eq (hpos : 0 < w) (hans : Within t.ans w .userspace) :
    krwRead t mem p w = if Within p w .kernelHeap then some (word mem p w) else none := by
  unfold krwRead
  by_cases hp : Within p w .kernelHeap
  · rw [copyout_eq hpos hans hp, if_pos rfl, if_pos hp]
    congr 1
    exact word_congr fun i hi => Scatter.copy_inside (p := ⟨t.ans, p, w⟩) hi
  · have hrefused : ¬ Permitted t.ans p w .kernelHeap := fun h => by
      rcases h.2.1 with hu | hk
      · exact h.2.2 ⟨hans, hu⟩
      · exact hp hk
    unfold krwMemcpy
    rw [memcpy_refused hpos hans.le.2 hrefused, if_neg hp]
    rfl

theorem uintptr_of_within (h : Within p n .kernelHeap) : uintptr p = p := by
  have hle := h.le
  exact Nat.mod_eq_of_lt (by omega)

theorem krwRead64_eq (hans : Within t.ans 8 .userspace) (hp : Within p 8 .kernelHeap) :
    krwRead64 t mem (uintptr p) = word mem p 8 := by
  unfold krwRead64
  rw [uintptr_of_within hp, krwRead_eq (by decide) hans, if_pos hp]

/-- A part of a range. -/
theorem Within.part {kind : KmemKind} {m : Nat} (h : Within p n kind) (hlo : p ≤ q)
    (hhi : q + m ≤ p + n) : Within q m kind := by
  unfold Within at h ⊢
  omega

theorem Current.procOf_eq (h : Current t mem ucred fd) :
    procOf t mem = word mem (t.td + 8) 8 :=
  krwRead64_eq h.ans_user h.td_heap

theorem Current.ucredOf_eq (h : Current t mem ucred fd) :
    ucredOf t mem (procOf t mem) = ucred := by
  rw [h.procOf_eq, ucredOf, krwRead64_eq h.ans_user (h.proc_heap.part (Nat.le_refl _) (by omega)),
    h.ucred_eq]

theorem Current.fdOf_eq (h : Current t mem ucred fd) : fdOf t mem (procOf t mem) = fd := by
  rw [h.procOf_eq, fdOf, krwRead64_eq h.ans_user (h.proc_heap.part (by omega) (by omega)), h.fd_eq]

/-- The record is found wherever the pointers to it are as before. -/
theorem Current.congr (h : Current t mem ucred fd)
    (htd : ∀ i < 8, mem' (t.td + 8 + i) = mem (t.td + 8 + i))
    (hproc : ∀ i < 16, mem' (word mem (t.td + 8) 8 + 0x40 + i) =
      mem (word mem (t.td + 8) 8 + 0x40 + i)) : Current t mem' ucred fd := by
  have hword : word mem' (t.td + 8) 8 = word mem (t.td + 8) 8 := word_congr htd
  have hucred : word mem' (word mem (t.td + 8) 8 + 0x40) 8 =
      word mem (word mem (t.td + 8) 8 + 0x40) 8 :=
    word_congr fun i hi => hproc i (by omega)
  have hfd : word mem' (word mem (t.td + 8) 8 + 0x48) 8 =
      word mem (word mem (t.td + 8) 8 + 0x48) 8 := by
    apply word_congr
    intro i hi
    have hi' := hproc (8 + i) (by omega)
    rw [show word mem (t.td + 8) 8 + 0x40 + (8 + i) = word mem (t.td + 8) 8 + 0x48 + i by omega]
      at hi'
    exact hi'
  constructor
  · exact h.ans_user
  · exact h.td_heap
  · rw [hword]
    exact h.proc_heap
  · rw [hword, hucred]
    exact h.ucred_eq
  · rw [hword, hfd]
    exact h.fd_eq
  · exact h.ucred_heap
  · exact h.fd_heap
  · exact h.apart
  · exact h.td_ucred
  · exact h.td_fd
  · rw [hword]
    exact h.proc_ucred
  · rw [hword]
    exact h.proc_fd

/-- The arguments of the five copies are the ranges of the struct and of the kernel. -/
theorem Current.credRanges_eq (h : Current t mem ucred fd) :
    credRanges ans ucred fd =
      (credPieces ans ucred fd).map fun p => (p.src, p.src + p.len, p.dst) := by
  have hucred := h.ucred_heap
  have hfd := h.fd_heap
  unfold credRanges credPieces
  rw [uintptr_of_within (hucred.part (m := 12) (q := ucred + 4) (by omega) (by omega)),
    uintptr_of_within (hucred.part (m := 8) (q := ucred + 20) (by omega) (by omega)),
    uintptr_of_within (hucred.part (m := 8) (q := ucred + 0x30) (by omega) (by omega)),
    uintptr_of_within (hucred.part (m := 24) (q := ucred + 88) (by omega) (by omega)),
    uintptr_of_within hfd]
  rfl

/-- Every range is one of the struct and one of the heap. -/
theorem Current.piece_within (h : Current t mem ucred fd) (hans : Struct ans)
    {p : Scatter.Piece} (hp : p ∈ credPieces ans ucred fd) :
    0 < p.len ∧ Within p.src p.len .userspace ∧ Within p.dst p.len .kernelHeap := by
  have hucred := h.ucred_heap
  have hfd := h.fd_heap
  unfold Struct sizeofCred at hans
  unfold Within KmemKind.lo KmemKind.hi at *
  dsimp only at *
  simp only [credPieces, List.mem_cons, List.not_mem_nil, or_false] at hp
  rcases hp with rfl | rfl | rfl | rfl | rfl <;> dsimp only <;> omega

/-- Copies that are all permitted are made one after the other. -/
theorem attempt_eq {copy : Mem → Nat → Nat → Nat → Mem × Bool}
    (piece : Scatter.Piece → Scatter.Piece) {ps : List Scatter.Piece}
    (h : ∀ p ∈ ps, ∀ mem, copy mem p.src (p.src + p.len) p.dst =
      (Scatter.copy mem (piece p), true)) :
    attempt copy mem (ps.map fun p => (p.src, p.src + p.len, p.dst)) =
      (Scatter.copies mem (ps.map piece), true) := by
  induction ps generalizing mem with
  | nil => rfl
  | cons p ps ih =>
    rw [List.map_cons, attempt, h p List.mem_cons_self]
    exact ih fun p' hp' => h p' (List.mem_cons_of_mem _ hp')

/-- `jbc_get_cred` copies the ranges of the kernel into the struct. -/
theorem getCred_eq (h : Current t mem ucred fd) (hans : Struct ans) :
    getCred t mem ans =
      (Scatter.copies mem ((credPieces ans ucred fd).map Scatter.Piece.swap), true) := by
  unfold getCred
  dsimp only
  rw [h.ucredOf_eq, h.fdOf_eq, h.credRanges_eq]
  apply attempt_eq Scatter.Piece.swap
  intro p hp mem
  obtain ⟨hpos, hu, hk⟩ := h.piece_within hans hp
  unfold ppcopyout
  rw [Nat.add_sub_cancel_left]
  exact copyout_eq hpos hu hk

/-- `jbc_set_cred` copies the struct into the ranges of the kernel. -/
theorem setCred_eq (h : Current t mem ucred fd) (hans : Struct ans) :
    setCred t mem ans = (Scatter.copies mem (credPieces ans ucred fd), true) := by
  unfold setCred
  dsimp only
  rw [h.ucredOf_eq, h.fdOf_eq, h.credRanges_eq, attempt_eq id, List.map_id]
  intro p hp mem
  obtain ⟨hpos, hu, hk⟩ := h.piece_within hans hp
  unfold ppcopyin
  rw [Nat.add_sub_cancel_left]
  exact copyin_eq hpos hu hk

/-! ## What is read and written -/

/-- The ranges of the kernel lie apart, and apart from the struct. -/
theorem Current.apart_pieces (h : Current t mem ucred fd) (hans : Struct ans) :
    Scatter.Apart (credPieces ans ucred fd) ∧
      Scatter.Apart ((credPieces ans ucred fd).map Scatter.Piece.swap) ∧
      ∀ p ∈ credPieces ans ucred fd, ∀ p' ∈ credPieces ans ucred fd,
        Away p.dst p.len p'.src p'.len := by
  have hucred := h.ucred_heap
  have hfd := h.fd_heap
  have haway := h.apart
  unfold Struct sizeofCred at hans
  unfold Within KmemKind.lo KmemKind.hi at *
  unfold Away at *
  dsimp only at *
  simp only [Scatter.Apart, credPieces, List.map_cons, List.map_nil, List.pairwise_cons,
    List.mem_cons, List.not_mem_nil, or_false, forall_eq_or_imp, forall_eq, Scatter.Piece.Before,
    Scatter.Piece.swap, List.Pairwise.nil, and_true, false_implies, implies_true]
  omega

/-- Where the ranges agree, the records do. -/
theorem structAt_eq_credAt
    (hagree : ∀ p ∈ credPieces ans ucred fd, ∀ i < p.len, mem (p.src + i) = mem' (p.dst + i)) :
    structAt mem ans = credAt mem' ucred fd := by
  simp only [credPieces, List.mem_cons, List.not_mem_nil, or_false, forall_eq_or_imp,
    forall_eq] at hagree
  obtain ⟨hids, hgroups, hprison, hdirs, hsce⟩ := hagree
  -- A field is some of the bytes of its range.
  have hfield : ∀ {u k len : Nat} (off w p q : Nat), (∀ i < len, mem (u + i) = mem' (k + i)) →
      off + w ≤ len → p = u + off → q = k + off → word mem p w = word mem' q w := by
    intro u k len off w p q hrange hfits hp hq
    apply word_congr
    intro i hi
    have hbyte := hrange (off + i) (by omega)
    rw [hp, hq, Nat.add_assoc, Nat.add_assoc]
    exact hbyte
  simp only [structAt, credAt, JbcCred.mk.injEq, offUid, offRuid, offSvuid, offRgid, offSvgid,
    offPrison, offCdir, offRdir, offJdir, offSceProcType, offSonyCred, offSceProcCap]
  refine ⟨?_, ?_, ?_, ?_, ?_, ?_, ?_, ?_, ?_, ?_, ?_, ?_⟩
  · exact hfield 0 4 _ _ hids (by omega) (by omega) (by omega)
  · exact hfield 4 4 _ _ hids (by omega) (by omega) (by omega)
  · exact hfield 8 4 _ _ hids (by omega) (by omega) (by omega)
  · exact hfield 0 4 _ _ hgroups (by omega) (by omega) (by omega)
  · exact hfield 4 4 _ _ hgroups (by omega) (by omega) (by omega)
  · exact hfield 0 8 _ _ hprison (by omega) (by omega) (by omega)
  · exact hfield 0 8 _ _ hdirs (by omega) (by omega) (by omega)
  · exact hfield 8 8 _ _ hdirs (by omega) (by omega) (by omega)
  · exact hfield 16 8 _ _ hdirs (by omega) (by omega) (by omega)
  · exact hfield 0 8 _ _ hsce (by omega) (by omega) (by omega)
  · exact hfield 8 8 _ _ hsce (by omega) (by omega) (by omega)
  · exact hfield 16 8 _ _ hsce (by omega) (by omega) (by omega)

/-- `jbc_get_cred` fills the struct with the credentials and writes nothing else. -/
theorem getCred_reads (h : Current t mem ucred fd) (hans : Struct ans) :
    (getCred t mem ans).2 = true ∧
      structAt (getCred t mem ans).1 ans = credAt mem ucred fd ∧
      ∀ q, q < ans ∨ ans + sizeofCred ≤ q → (getCred t mem ans).1 q = mem q := by
  have hapart := (h.apart_pieces hans).2.1
  rw [getCred_eq h hans]
  refine ⟨rfl, structAt_eq_credAt fun p hp i hi => ?_, fun q hq => ?_⟩
  · exact Scatter.copies_inside (p := p.swap) hapart (List.mem_map_of_mem hp) hi
  · apply Scatter.copies_outside
    intro p hp hwrites
    unfold sizeofCred at hq
    simp only [credPieces, List.map_cons, List.map_nil, List.mem_cons, List.not_mem_nil,
      or_false] at hp
    rcases hp with rfl | rfl | rfl | rfl | rfl <;>
      simp only [Scatter.Piece.Writes, Scatter.Piece.swap] at hwrites <;> omega

/-- `jbc_set_cred` gives the credentials of the struct to the process and writes nothing
else. -/
theorem setCred_writes (h : Current t mem ucred fd) (hans : Struct ans) :
    (setCred t mem ans).2 = true ∧
      credAt (setCred t mem ans).1 ucred fd = structAt mem ans ∧
      ∀ q, (∀ p ∈ credPieces ans ucred fd, ¬ p.Writes q) → (setCred t mem ans).1 q = mem q := by
  rw [setCred_eq h hans]
  refine ⟨rfl, (structAt_eq_credAt fun p hp i hi => ?_).symm, fun q hq => ?_⟩
  · exact (Scatter.copies_inside (h.apart_pieces hans).1 hp hi).symm
  · exact Scatter.copies_outside hq

/-- What lies outside of both records is not written. -/
theorem not_writes (h : Away q 1 (ucred + 4) 108 ∧ Away q 1 (fd + 16) 24) :
    ∀ p ∈ credPieces ans ucred fd, ¬ p.Writes q := by
  intro p hp hwrites
  unfold Away at h
  simp only [credPieces, List.mem_cons, List.not_mem_nil, or_false] at hp
  rcases hp with rfl | rfl | rfl | rfl | rfl <;> simp only [Scatter.Piece.Writes] at hwrites <;>
    omega

theorem Current.getCred (h : Current t mem ucred fd) (hans : Struct ans) :
    Current t (getCred t mem ans).1 ucred fd := by
  have hkept := (getCred_reads h hans).2.2
  have htd := h.td_heap
  have hproc := h.proc_heap
  unfold Struct at hans
  unfold Within KmemKind.lo KmemKind.hi at hans htd hproc
  dsimp only at hans htd hproc
  exact h.congr (fun i _ => hkept _ (by omega)) fun i _ => hkept _ (by omega)

theorem Current.setCred (h : Current t mem ucred fd) (hans : Struct ans) :
    Current t (setCred t mem ans).1 ucred fd := by
  have hkept := (setCred_writes h hans).2.2
  have htd := h.td_ucred
  have htd' := h.td_fd
  have hproc := h.proc_ucred
  have hproc' := h.proc_fd
  unfold Away at htd htd' hproc hproc'
  apply h.congr
  · exact fun i _ => hkept _ (not_writes (by unfold Away; omega))
  · exact fun i _ => hkept _ (not_writes (by unfold Away; omega))

end Copies

/-- What was set is got, into any struct, and to set what was got changes nothing. -/
theorem cred_laws {t : Thread} {mem : Mem} {ucred fd a b : Nat} (h : Current t mem ucred fd)
    (ha : Struct a) (hb : Struct b) :
    structAt (getCred t (setCred t mem a).1 b).1 b = structAt mem a ∧
      setCred t (getCred t mem a).1 a = ((getCred t mem a).1, true) := by
  constructor
  · rw [(getCred_reads (h.setCred ha) hb).2.1, (setCred_writes h ha).2.1]
  · rw [setCred_eq (h.getCred ha) ha, getCred_eq h ha]
    have hback := @Scatter.copies_back _ mem _ (h.apart_pieces ha).2.1
      (fun p hp p' hp' => by
        obtain ⟨q, hq, rfl⟩ := List.mem_map.1 hp
        obtain ⟨q', hq', rfl⟩ := List.mem_map.1 hp'
        exact Or.symm ((h.apart_pieces ha).2.2 q' hq' q hq))
    have hswap : Scatter.Piece.swap ∘ Scatter.Piece.swap = id := rfl
    rw [List.map_map, hswap, List.map_id] at hback
    rw [hback]

/-- A thread, and the pointers from it to the records of its process. -/
def installer : Thread := ⟨false, 0x7fff00000000, 0xffff900000000000⟩

def installerMem : Mem :=
  store (store (fun _ => 0) 0xffff900000000008 (LittleEndian.bytes 8 0xffff900000001000))
    0xffff900000001040
    (LittleEndian.bytes 8 0xffff900000002000 ++ LittleEndian.bytes 8 0xffff900000003000)

theorem current_installer :
    Current installer installerMem 0xffff900000002000 0xffff900000003000 := by
  constructor <;> decide

theorem cred_laws_installer :
    structAt (getCred installer (setCred installer installerMem 0x1000).1 0x2000).1 0x2000 =
        structAt installerMem 0x1000 ∧
      setCred installer (getCred installer installerMem 0x1000).1 0x1000 =
        ((getCred installer installerMem 0x1000).1, true) :=
  cred_laws current_installer (by decide) (by decide)

end DirectPackageInstaller.Payload
