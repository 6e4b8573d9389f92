import DirectPackageInstaller.Payload.Credentials
import Mathlib.Logic.Relation

/-!
# How the payload becomes root

`resolve` of `jailbreak.c` follows the list of processes to the one with the id 1 and
takes its prison and its root directory.  `jbc_jailbreak_cred` puts them into a struct,
`main` and `jbc_run_as_root` give that struct to the process.

* `findInit_iff`: the walk comes to its end exactly if the list leads to such a process.
* `runAsRoot_restores`: a function runs with the prison and the root directory of that
  process, and afterwards the credentials are those from before.
* `mainCred_sets`: the credentials that `main` leaves in the kernel.
-/

namespace DirectPackageInstaller.Payload

open Memory (slice)

/-! ## The code -/

/-- `static uintptr_t prison0, rootvnode`. -/
structure Statics where
  prison0 : Nat
  rootvnode : Nat
deriving DecidableEq, Repr

/-- The loop of `resolve`, for so many steps.  `goto restart` begins with the process of
the thread. -/
def findInit (t : Thread) (mem : Mem) : Nat → Nat → Option Nat
  | 0, _ => none
  | fuel + 1, proc =>
    match krwRead t mem (uintptr (proc + 0xb0)) 4 with
    | none => findInit t mem fuel (procOf t mem)
    | some pid =>
      if pid = 1 then some proc
      else
        let proc2 := krwRead64 t mem proc
        let proc1 := krwRead64 t mem (uintptr (proc2 + 8))
        if proc1 ≠ proc then findInit t mem fuel (procOf t mem)
        else findInit t mem fuel proc2

/-- The end of `resolve`, behind the loop. -/
def takeFrom (t : Thread) (mem : Mem) (st : Statics) (proc : Nat) : Statics × Bool :=
  let pid1Ucred := krwRead64 t mem (uintptr (proc + 0x40))
  let pid1Fd := krwRead64 t mem (uintptr (proc + 0x48))
  match krwRead t mem (uintptr (pid1Ucred + 0x30)) 8 with
  | none => (st, false)
  | some prison0 =>
    match krwRead t mem (uintptr (pid1Fd + 0x18)) 8 with
    | none => ({ st with prison0 := 0 }, false)
    | some rootvnode => (⟨prison0, rootvnode⟩, true)

def resolve (t : Thread) (mem : Mem) (fuel : Nat) (st : Statics) : Option (Statics × Bool) :=
  (findInit t mem fuel (procOf t mem)).map (takeFrom t mem st)

/-- `jbc_get_prison0()`. -/
def getPrison0 (t : Thread) (mem : Mem) (fuel : Nat) (st : Statics) : Option Statics :=
  if st.prison0 = 0 then (resolve t mem fuel st).map Prod.fst else some st

/-- `jbc_get_rootvnode()`. -/
def getRootvnode (t : Thread) (mem : Mem) (fuel : Nat) (st : Statics) : Option Statics :=
  if st.rootvnode = 0 then (resolve t mem fuel st).map Prod.fst else some st

/-- Assignments to fields of the struct at `ans`, each with its offset, size and value. -/
def assign (mem : Mem) (ans : Nat) : List (Nat × Nat × Nat) → Mem
  | [] => mem
  | (off, w, v) :: rest => assign (store mem (ans + off) (LittleEndian.bytes w v)) ans rest

/-- What `jbc_jailbreak_cred` assigns. -/
def rootFields (prison0 rootvnode : Nat) : List (Nat × Nat × Nat) :=
  [(offSceProcCap, 8, 0xffffffffffffffff), (offSceProcType, 8, 0x3801000000000013),
    (offSonyCred, 8, 0xffffffffffffffff),
    (offSvgid, 4, 0), (offRgid, 4, 0), (offSvuid, 4, 0), (offRuid, 4, 0), (offUid, 4, 0),
    (offPrison, 8, prison0),
    (offJdir, 8, rootvnode), (offRdir, 8, rootvnode), (offCdir, 8, rootvnode)]

/-- `jbc_jailbreak_cred(ans)`; `false` is `-1`. -/
def jailbreakCred (t : Thread) (mem : Mem) (fuel : Nat) (st : Statics) (ans : Nat) :
    Option (Mem × Statics × Bool) := do
  let st ← getPrison0 t mem fuel st
  if st.prison0 = 0 then return (mem, st, false)
  let prison0 := st.prison0
  let st ← getRootvnode t mem fuel st
  if st.rootvnode = 0 then return (mem, st, false)
  return (assign mem ans (rootFields prison0 st.rootvnode), st, true)

/-- What `main` assigns afterwards. -/
def mainFields : List (Nat × Nat × Nat) :=
  [(offJdir, 8, 0), (offSceProcType, 8, 0x3800000000000010),
    (offSonyCred, 8, 0x40001c0000000000), (offSceProcCap, 8, 0x900000000000ff00)]

/-- The first lines of `main`, whose struct is at `cred`. -/
def mainCred (t : Thread) (mem : Mem) (fuel : Nat) (st : Statics) (cred : Nat) :
    Option (Mem × Statics) := do
  let mem := (getCred t mem cred).1
  let (mem, st, _) ← jailbreakCred t mem fuel st cred
  let mem := assign mem cred mainFields
  return ((setCred t mem cred).1, st)

/-- The value of `root_cred.cdir` for a `cwd_mode`. -/
def cwdOf (mem : Mem) (cred rootCred : Nat) (cwdMode : Int) : Nat :=
  if cwdMode = 1 then word mem (cred + offRdir) 8
  else if cwdMode = 2 then word mem (rootCred + offRdir) 8
  else word mem (cred + offCdir) 8

/-- `jbc_run_as_root(fn, arg, cwd_mode)`, whose structs are at `cred` and `rootCred`.  The
second result is the memory that `fn` is called with. -/
def runAsRoot (t : Thread) (mem : Mem) (fuel : Nat) (st : Statics) (cred rootCred : Nat)
    (fn : Mem → Mem) (cwdMode : Int) : Option (Mem × Mem × Statics) := do
  let mem := (getCred t mem cred).1
  let mem := Scatter.copy mem ⟨rootCred, cred, sizeofCred⟩
  let (mem, st, _) ← jailbreakCred t mem fuel st rootCred
  let mem := assign mem rootCred [(offCdir, 8, cwdOf mem cred rootCred cwdMode)]
  let called := (setCred t mem rootCred).1
  let mem := fn called
  return ((setCred t mem cred).1, called, st)

/-! ## The walk -/

/-- The process has the id 1. -/
def IsInit (t : Thread) (mem : Mem) (proc : Nat) : Prop :=
  krwRead t mem (uintptr (proc + 0xb0)) 4 = some 1

/-- The process is another one, and its successor points back to it. -/
def Next (t : Thread) (mem : Mem) (proc proc2 : Nat) : Prop :=
  (∃ pid, krwRead t mem (uintptr (proc + 0xb0)) 4 = some pid ∧ pid ≠ 1) ∧
    proc2 = krwRead64 t mem proc ∧ krwRead64 t mem (uintptr (proc2 + 8)) = proc

/-- The list leads from the thread's process to `proc`. -/
def Listed (t : Thread) (mem : Mem) (proc : Nat) : Prop :=
  Relation.ReflTransGen (Next t mem) (procOf t mem) proc

section Walk

variable {t : Thread} {mem : Mem} {p q : Nat}

theorem findInit_of_isInit (h : IsInit t mem p) (fuel : Nat) :
    findInit t mem (fuel + 1) p = some p := by
  rw [findInit, h]
  exact if_pos rfl

theorem findInit_of_next (h : Next t mem p q) (fuel : Nat) :
    findInit t mem (fuel + 1) p = findInit t mem fuel q := by
  obtain ⟨⟨pid, hpid, hne⟩, hq, hback⟩ := h
  rw [findInit, hpid]
  dsimp only
  rw [if_neg hne, ← hq, hback, if_neg (by simp)]

/-- A walk that has come so far on the list finds what the list leads to. -/
theorem findInit_listed {fuel : Nat} (hp : Listed t mem p)
    (h : findInit t mem fuel p = some q) : Listed t mem q ∧ IsInit t mem q := by
  induction fuel generalizing p with
  | zero => cases h
  | succ fuel ih =>
    rw [findInit] at h
    split at h
    · exact ih .refl h
    · rename_i pid hpid
      split at h
      · rename_i hone
        cases h
        subst hone
        exact ⟨hp, hpid⟩
      · rename_i hone
        dsimp only at h
        split at h
        · exact ih .refl h
        · rename_i hback
          rw [not_not] at hback
          exact ih (hp.tail ⟨⟨pid, hpid, hone⟩, rfl, hback⟩) h

/-- With the memory at rest, the walk of `resolve` comes to its end exactly if the list of
processes leads to one with the id 1, and then it has found that one. -/
theorem findInit_iff :
    (∃ fuel, findInit t mem fuel (procOf t mem) = some p) ↔
      Listed t mem p ∧ IsInit t mem p := by
  constructor
  · intro ⟨fuel, h⟩
    exact findInit_listed .refl h
  · intro ⟨hlisted, hinit⟩
    unfold Listed at hlisted
    generalize procOf t mem = first at hlisted ⊢
    induction hlisted using Relation.ReflTransGen.head_induction_on with
    | refl => exact ⟨1, findInit_of_isInit hinit 0⟩
    | head hnext _ ih =>
      obtain ⟨fuel, h⟩ := ih
      exact ⟨fuel + 1, (findInit_of_next hnext fuel).trans h⟩

theorem IsInit.not_next (h : IsInit t mem p) : ¬ Next t mem p q := by
  intro hnext
  obtain ⟨pid, hpid, hne⟩ := hnext.1
  rw [IsInit, hpid] at h
  exact hne (Option.some.inj h)

/-- The list is a line, and the process with the id 1 is its end. -/
theorem Listed.unique (hp : Listed t mem p) (hq : Listed t mem q) (hpinit : IsInit t mem p)
    (hqinit : IsInit t mem q) : p = q := by
  have hright : Relator.RightUnique (Next t mem) := fun _ _ _ h h' => h.2.1.trans h'.2.1.symm
  rcases Relation.ReflTransGen.total_of_right_unique hright hp hq with h | h
  · rcases h.cases_head with heq | ⟨_, hnext, -⟩
    · exact heq
    · exact absurd hnext hpinit.not_next
  · rcases h.cases_head with heq | ⟨_, hnext, -⟩
    · exact heq.symm
    · exact absurd hnext hqinit.not_next

end Walk

/-! ## Assignments -/

section Assign

variable {mem : Mem} {ans p q off w v : Nat} {fields : List (Nat × Nat × Nat)}

theorem slice_store_self (mem : Mem) (p : Nat) (xs : List UInt8) :
    slice (store mem p xs) p xs.length = xs := by
  apply List.ext_getElem?
  intro i
  unfold slice
  rw [List.getElem?_map]
  by_cases hi : i < xs.length
  · rw [List.getElem?_range hi, Option.map_some, Nat.cast_id, store,
      Memory.overlay_inside (by omega) (by omega), Nat.add_sub_cancel_left,
      List.getD_eq_getElem?_getD, List.getElem?_eq_getElem hi]
    rfl
  · rw [List.getElem?_eq_none (by simpa using hi), List.getElem?_eq_none (by omega)]
    rfl

theorem word_store (hv : v < 256 ^ w) : word (store mem p (LittleEndian.bytes w v)) p w = v := by
  have hslice := slice_store_self mem p (LittleEndian.bytes w v)
  rw [LittleEndian.length_bytes] at hslice
  rw [word, hslice, LittleEndian.value_bytes_of_lt hv]

theorem word_store_away {w' : Nat} (h : Away p w' q w) :
    word (store mem p (LittleEndian.bytes w' v)) q w = word mem q w := by
  unfold word
  rw [slice_store]
  rw [LittleEndian.length_bytes]
  exact h

/-- The offsets and sizes of the assigned fields. -/
def layout (fields : List (Nat × Nat × Nat)) : List (Nat × Nat) :=
  fields.map fun f => (f.1, f.2.1)

def AwayFields (f g : Nat × Nat) : Prop := Away f.1 f.2 g.1 g.2

instance (f g : Nat × Nat) : Decidable (AwayFields f g) := inferInstanceAs (Decidable (Away ..))

/-- A field that is not assigned. -/
theorem word_assign_away (h : ∀ f ∈ fields, Away f.1 f.2.1 off w) :
    word (assign mem ans fields) (ans + off) w = word mem (ans + off) w := by
  induction fields generalizing mem with
  | nil => rfl
  | cons f fields ih =>
    obtain ⟨off', w', v⟩ := f
    have hf := h _ List.mem_cons_self
    dsimp only at hf
    rw [assign, ih fun g hg => h g (List.mem_cons_of_mem _ hg), word_store_away]
    unfold Away at hf ⊢
    omega

/-- A field that is assigned once. -/
theorem word_assign (hfields : (layout fields).Pairwise AwayFields) (hf : (off, w, v) ∈ fields)
    (hv : v < 256 ^ w) : word (assign mem ans fields) (ans + off) w = v := by
  induction fields generalizing mem with
  | nil => simp at hf
  | cons g fields ih =>
    obtain ⟨hg, hrest⟩ := List.pairwise_cons.1 hfields
    rw [assign]
    rcases List.mem_cons.1 hf with heq | hf
    · subst heq
      rw [word_assign_away, word_store hv]
      exact fun f hf => Or.symm (hg _ (List.mem_map_of_mem hf))
    · exact ih hrest hf

/-- Assignments to the fields of a struct write nothing else. -/
theorem assign_outside (h : ∀ f ∈ fields, f.1 + f.2.1 ≤ sizeofCred)
    (hq : q < ans ∨ ans + sizeofCred ≤ q) : assign mem ans fields q = mem q := by
  induction fields generalizing mem with
  | nil => rfl
  | cons f fields ih =>
    obtain ⟨off, w, v⟩ := f
    have hf := h _ List.mem_cons_self
    dsimp only at hf
    rw [assign, ih fun g hg => h g (List.mem_cons_of_mem _ hg), store_outside]
    rw [LittleEndian.length_bytes]
    omega

end Assign

/-- The credentials of root, with a current directory. -/
def rootCredOf (prison0 rootvnode : Nat) : JbcCred where
  uid := 0
  ruid := 0
  svuid := 0
  rgid := 0
  svgid := 0
  prison := prison0
  cdir := rootvnode
  rdir := rootvnode
  jdir := rootvnode
  sceProcType := 0x3801000000000013
  sonyCred := 0xffffffffffffffff
  sceProcCap := 0xffffffffffffffff

/-- The credentials that `main` asks for. -/
def mainCredOf (prison0 rootvnode : Nat) : JbcCred :=
  { rootCredOf prison0 rootvnode with
    jdir := 0
    sceProcType := 0x3800000000000010
    sonyCred := 0x40001c0000000000
    sceProcCap := 0x900000000000ff00 }

theorem structAt_rootFields {mem : Mem} {ans prison0 rootvnode : Nat}
    (hprison0 : prison0 < 256 ^ 8) (hrootvnode : rootvnode < 256 ^ 8) :
    structAt (assign mem ans (rootFields prison0 rootvnode)) ans =
      rootCredOf prison0 rootvnode := by
  have hlayout : (layout (rootFields prison0 rootvnode)).Pairwise AwayFields := by
    show (layout (rootFields 0 0)).Pairwise AwayFields
    decide
  have hfield : ∀ {off w v : Nat}, (off, w, v) ∈ rootFields prison0 rootvnode → v < 256 ^ w →
      word (assign mem ans (rootFields prison0 rootvnode)) (ans + off) w = v :=
    fun hf hv => word_assign hlayout hf hv
  simp only [structAt, rootCredOf, JbcCred.mk.injEq]
  refine ⟨?_, ?_, ?_, ?_, ?_, ?_, ?_, ?_, ?_, ?_, ?_, ?_⟩
  · exact hfield (by simp [rootFields]) (by decide)
  · exact hfield (by simp [rootFields]) (by decide)
  · exact hfield (by simp [rootFields]) (by decide)
  · exact hfield (by simp [rootFields]) (by decide)
  · exact hfield (by simp [rootFields]) (by decide)
  · exact hfield (by simp [rootFields]) hprison0
  · exact hfield (by simp [rootFields]) hrootvnode
  · exact hfield (by simp [rootFields]) hrootvnode
  · exact hfield (by simp [rootFields]) hrootvnode
  · exact hfield (by simp [rootFields]) (by decide)
  · exact hfield (by simp [rootFields]) (by decide)
  · exact hfield (by simp [rootFields]) (by decide)

/-- The fields that `main` assigns, and the ones that it leaves alone. -/
theorem structAt_mainFields {mem : Mem} {ans prison0 rootvnode : Nat}
    (h : structAt mem ans = rootCredOf prison0 rootvnode) :
    structAt (assign mem ans mainFields) ans = mainCredOf prison0 rootvnode := by
  have hfield : ∀ {off w v : Nat}, (off, w, v) ∈ mainFields → v < 256 ^ w →
      word (assign mem ans mainFields) (ans + off) w = v :=
    fun hf hv => word_assign (by decide) hf hv
  have hkept : ∀ {off w : Nat}, (∀ f ∈ mainFields, Away f.1 f.2.1 off w) →
      word (assign mem ans mainFields) (ans + off) w = word mem (ans + off) w :=
    fun hf => word_assign_away hf
  simp only [structAt, rootCredOf, JbcCred.mk.injEq] at h
  obtain ⟨huid, hruid, hsvuid, hrgid, hsvgid, hprison, hcdir, hrdir, -⟩ := h
  simp only [structAt, mainCredOf, rootCredOf, JbcCred.mk.injEq]
  refine ⟨?_, ?_, ?_, ?_, ?_, ?_, ?_, ?_, ?_, ?_, ?_, ?_⟩
  · exact (hkept (by decide)).trans huid
  · exact (hkept (by decide)).trans hruid
  · exact (hkept (by decide)).trans hsvuid
  · exact (hkept (by decide)).trans hrgid
  · exact (hkept (by decide)).trans hsvgid
  · exact (hkept (by decide)).trans hprison
  · exact (hkept (by decide)).trans hcdir
  · exact (hkept (by decide)).trans hrdir
  · exact hfield (by simp [mainFields]) (by decide)
  · exact hfield (by simp [mainFields]) (by decide)
  · exact hfield (by simp [mainFields]) (by decide)
  · exact hfield (by simp [mainFields]) (by decide)

theorem structAt_cdir (mem : Mem) (ans : Nat) {cdir : Nat} (h : cdir < 256 ^ 8) :
    structAt (assign mem ans [(offCdir, 8, cdir)]) ans = { structAt mem ans with cdir } := by
  have hkept : ∀ {off w : Nat}, Away offCdir 8 off w →
      word (assign mem ans [(offCdir, 8, cdir)]) (ans + off) w = word mem (ans + off) w := by
    intro off w haway
    apply word_assign_away
    intro f hf
    rw [List.mem_singleton.1 hf]
    exact haway
  simp only [structAt, JbcCred.mk.injEq]
  refine ⟨?_, ?_, ?_, ?_, ?_, ?_, ?_, ?_, ?_, ?_, ?_, ?_⟩
  case refine_7 => exact word_store h
  all_goals exact hkept (by decide)

/-! ## The memory of the kernel -/

/-- The memory of the kernel is the same. -/
def SameKernel (mem mem' : Mem) : Prop := ∀ q, 0x800000000000 ≤ q → mem' q = mem q

section Kernel

variable {t : Thread} {mem mem' mem'' : Mem} {ucred fd ans p w : Nat}

theorem SameKernel.trans (h : SameKernel mem mem') (h' : SameKernel mem' mem'') :
    SameKernel mem mem'' := fun q hq => (h' q hq).trans (h q hq)

theorem Struct.le (h : Struct ans) : ans + sizeofCred ≤ 0x800000000000 := h.2

theorem sameKernel_getCred (h : Current t mem ucred fd) (hans : Struct ans) :
    SameKernel mem (getCred t mem ans).1 := by
  intro q hq
  have hle := hans.le
  exact (getCred_reads h hans).2.2 q (by omega)

theorem krwRead_congr (h : SameKernel mem mem') (hpos : 0 < w)
    (hans : Within t.ans w .userspace) : krwRead t mem' p w = krwRead t mem p w := by
  rw [krwRead_eq hpos hans, krwRead_eq hpos hans]
  by_cases hp : Within p w .kernelHeap
  · rw [if_pos hp, if_pos hp]
    congr 1
    apply word_congr
    intro i _
    apply h
    unfold Within KmemKind.lo at hp
    dsimp only at hp
    omega
  · rw [if_neg hp, if_neg hp]

theorem krwRead64_congr (h : SameKernel mem mem') (hans : Within t.ans 8 .userspace) :
    krwRead64 t mem' p = krwRead64 t mem p := by
  rw [krwRead64, krwRead64, krwRead_congr h (by decide) hans]

theorem findInit_congr (h : SameKernel mem mem') (hans : Within t.ans 8 .userspace)
    (fuel : Nat) : findInit t mem' fuel p = findInit t mem fuel p := by
  have hans' : Within t.ans 4 .userspace := hans.part (Nat.le_refl _) (by omega)
  induction fuel generalizing p with
  | zero => rfl
  | succ fuel ih =>
    simp only [findInit, procOf, krwRead_congr h (by decide : 0 < 4) hans', krwRead64_congr h hans,
      ih]

theorem isInit_congr (h : SameKernel mem mem') (hans : Within t.ans 8 .userspace) :
    IsInit t mem' p ↔ IsInit t mem p := by
  have hans' : Within t.ans 4 .userspace := hans.part (Nat.le_refl _) (by omega)
  rw [IsInit, IsInit, krwRead_congr h (by decide) hans']

theorem listed_congr (h : SameKernel mem mem') (hans : Within t.ans 8 .userspace) :
    Listed t mem' p ↔ Listed t mem p := by
  have hans' : Within t.ans 4 .userspace := hans.part (Nat.le_refl _) (by omega)
  have hnext : Next t mem' = Next t mem := by
    funext p q
    simp only [Next, krwRead_congr h (by decide : 0 < 4) hans', krwRead64_congr h hans]
  rw [Listed, Listed, hnext, procOf, procOf, krwRead64_congr h hans]

theorem takeFrom_congr (h : SameKernel mem mem') (hans : Within t.ans 8 .userspace)
    (st : Statics) : takeFrom t mem' st p = takeFrom t mem st p := by
  simp only [takeFrom, krwRead_congr h (by decide : 0 < 8) hans, krwRead64_congr h hans]

theorem Current.sameKernel (h : Current t mem ucred fd) (hsame : SameKernel mem mem') :
    Current t mem' ucred fd := by
  have htd := h.td_heap
  have hproc := h.proc_heap
  unfold Within KmemKind.lo at htd hproc
  dsimp only at htd hproc
  exact h.congr (fun i _ => hsame _ (by omega)) fun i _ => hsame _ (by omega)

/-- The ranges of the kernel are not the process's. -/
theorem Current.not_writes_user (h : Current t mem ucred fd) {q : Nat}
    (hq : q < 0x800000000000) : ∀ p ∈ credPieces ans ucred fd, ¬ p.Writes q := by
  have hucred := h.ucred_heap
  have hfd := h.fd_heap
  unfold Within KmemKind.lo at hucred hfd
  dsimp only at hucred hfd
  apply not_writes
  unfold Away
  omega

theorem structAt_congr {b : Nat} (h : ∀ i < sizeofCred, mem' (b + i) = mem (ans + i)) :
    structAt mem' b = structAt mem ans := by
  have hfield : ∀ off w : Nat, off + w ≤ sizeofCred →
      word mem' (b + off) w = word mem (ans + off) w := by
    intro off w hfits
    apply word_congr
    intro i hi
    rw [Nat.add_assoc, Nat.add_assoc]
    exact h _ (by omega)
  simp only [structAt, JbcCred.mk.injEq]
  refine ⟨?_, ?_, ?_, ?_, ?_, ?_, ?_, ?_, ?_, ?_, ?_, ?_⟩ <;> exact hfield _ _ (by decide)

/-- A struct away from the one that is written. -/
theorem structAt_away {b : Nat} (h : ∀ q, q < b ∨ b + sizeofCred ≤ q → mem' q = mem q)
    (haway : Away ans sizeofCred b sizeofCred) : structAt mem' ans = structAt mem ans := by
  apply structAt_congr
  intro i hi
  apply h
  unfold Away at haway
  omega

/-- The credentials are not in the memory of the process. -/
theorem structAt_setCred (h : Current t mem ucred fd) {b : Nat} (hb : Struct b)
    (hans : Struct ans) : structAt (setCred t mem b).1 ans = structAt mem ans := by
  have hle := hans.le
  exact structAt_congr fun i hi =>
    (setCred_writes h hb).2.2 _ (h.not_writes_user (by omega))

end Kernel

/-! ## The credentials of root -/

section Root

variable {t : Thread} {mem mem' : Mem} {fuel ans ucred fd : Nat} {st st' : Statics} {ok : Bool}

theorem word_lt (mem : Mem) (p w : Nat) : word mem p w < 256 ^ w := by
  have hlt := LittleEndian.value_lt (slice mem p w)
  rwa [Memory.slice_length] at hlt

/-- The values are those of a `uintptr_t`. -/
def Statics.Fits (st : Statics) : Prop := st.prison0 < 256 ^ 8 ∧ st.rootvnode < 256 ^ 8

instance (st : Statics) : Decidable st.Fits := inferInstanceAs (Decidable (_ ∧ _))

theorem krwRead_lt (hans : Within t.ans 8 .userspace) {p v : Nat}
    (h : krwRead t mem p 8 = some v) : v < 256 ^ 8 := by
  rw [krwRead_eq (by decide) hans] at h
  split at h
  · rw [← Option.some.inj h]
    exact word_lt ..
  · cases h

theorem takeFrom_fits (hans : Within t.ans 8 .userspace) (hst : st.Fits) (proc : Nat) :
    (takeFrom t mem st proc).1.Fits := by
  unfold takeFrom
  dsimp only
  split
  · exact hst
  · rename_i prison0 hprison0
    split
    · exact ⟨show 0 < 256 ^ 8 by decide, hst.2⟩
    · rename_i rootvnode hrootvnode
      exact ⟨krwRead_lt hans hprison0, krwRead_lt hans hrootvnode⟩

/-- What `resolve` takes from a process does not depend on what it has taken before. -/
theorem takeFrom_again {proc : Nat} (h : (takeFrom t mem st proc).2 = true) :
    takeFrom t mem st' proc = takeFrom t mem st proc := by
  unfold takeFrom at h ⊢
  dsimp only at h ⊢
  split
  · rename_i hnone
    rw [hnone] at h
    cases h
  · rename_i prison0 hprison0
    rw [hprison0] at h
    dsimp only at h
    split
    · rename_i hnone
      rw [hnone] at h
      cases h
    · rfl

/-- Without a prison at first, there is one only where `resolve` succeeds. -/
theorem takeFrom_success {proc : Nat} (h : (takeFrom t mem ⟨0, 0⟩ proc).1.prison0 ≠ 0) :
    (takeFrom t mem ⟨0, 0⟩ proc).2 = true := by
  unfold takeFrom at h ⊢
  dsimp only at h ⊢
  split at h
  · exact absurd rfl h
  · split at h
    · exact absurd rfl h
    · rfl

/-- The result of `jbc_jailbreak_cred` with what was resolved. -/
def filled (mem : Mem) (ans : Nat) (st : Statics) : Mem × Statics × Bool :=
  if st.prison0 = 0 ∨ st.rootvnode = 0 then (mem, st, false)
  else (assign mem ans (rootFields st.prison0 st.rootvnode), st, true)

theorem rootFields_le (prison0 rootvnode : Nat) :
    ∀ f ∈ rootFields prison0 rootvnode, f.1 + f.2.1 ≤ sizeofCred := by
  have hlayout : ∀ f ∈ layout (rootFields prison0 rootvnode), f.1 + f.2 ≤ sizeofCred := by
    show ∀ f ∈ layout (rootFields 0 0), f.1 + f.2 ≤ sizeofCred
    decide
  exact fun f hf => hlayout _ (List.mem_map_of_mem hf)

/-- `jbc_jailbreak_cred` when nothing was resolved before. -/
theorem jailbreakCred_first :
    jailbreakCred t mem fuel ⟨0, 0⟩ ans =
      (findInit t mem fuel (procOf t mem)).map fun proc =>
        filled mem ans (takeFrom t mem ⟨0, 0⟩ proc).1 := by
  unfold jailbreakCred getPrison0
  rw [if_pos rfl, resolve]
  cases hfind : findInit t mem fuel (procOf t mem) with
  | none => rfl
  | some proc =>
    have hagain : (takeFrom t mem ⟨0, 0⟩ proc).2 = true →
        takeFrom t mem (takeFrom t mem ⟨0, 0⟩ proc).1 proc = takeFrom t mem ⟨0, 0⟩ proc :=
      takeFrom_again
    have hsuccess : (takeFrom t mem ⟨0, 0⟩ proc).1.prison0 ≠ 0 →
        (takeFrom t mem ⟨0, 0⟩ proc).2 = true := takeFrom_success
    show (if (takeFrom t mem ⟨0, 0⟩ proc).1.prison0 = 0 then _ else _) =
      some (filled mem ans (takeFrom t mem ⟨0, 0⟩ proc).1)
    generalize takeFrom t mem ⟨0, 0⟩ proc = r at hagain hsuccess ⊢
    unfold filled
    by_cases hprison0 : r.1.prison0 = 0
    · rw [if_pos hprison0, if_pos (Or.inl hprison0)]
      rfl
    · have hroot : getRootvnode t mem fuel r.1 = some r.1 := by
        unfold getRootvnode resolve
        rw [hfind, Option.map_some, hagain (hsuccess hprison0), Option.map_some]
        split <;> rfl
      rw [if_neg hprison0, hroot]
      show (if r.1.rootvnode = 0 then _ else _) = _
      by_cases hrootvnode : r.1.rootvnode = 0
      · rw [if_pos hrootvnode, if_pos (Or.inr hrootvnode)]
        rfl
      · rw [if_neg hrootvnode, if_neg fun hor => hor.elim hprison0 hrootvnode]
        rfl

theorem filled_statics (mem : Mem) (ans : Nat) (st : Statics) : (filled mem ans st).2.1 = st := by
  unfold filled
  split <;> rfl

theorem filled_outside {q : Nat} (hq : q < ans ∨ ans + sizeofCred ≤ q) :
    (filled mem ans st).1 q = mem q := by
  unfold filled
  split
  · rfl
  · exact assign_outside (rootFields_le _ _) hq

/-- Either nothing was resolved before, or what the process with the id 1 has. -/
def Statics.Known (t : Thread) (mem : Mem) (st : Statics) : Prop :=
  st = ⟨0, 0⟩ ∨
    ∃ proc, Listed t mem proc ∧ IsInit t mem proc ∧ takeFrom t mem ⟨0, 0⟩ proc = (st, true)

theorem Statics.Known.sameKernel (h : st.Known t mem) (hsame : SameKernel mem mem')
    (hans : Within t.ans 8 .userspace) : st.Known t mem' := by
  rcases h with h | ⟨proc, hlisted, hinit, htake⟩
  · exact .inl h
  · refine .inr ⟨proc, ?_, ?_, ?_⟩
    · rwa [listed_congr hsame hans]
    · rwa [isInit_congr hsame hans]
    · rwa [takeFrom_congr hsame hans]

/-- The walk of `resolve` is all that can keep `jbc_jailbreak_cred` from its end. -/
theorem jailbreakCred_isSome {proc : Nat} (h : findInit t mem fuel (procOf t mem) = some proc) :
    (jailbreakCred t mem fuel st ans).isSome = true := by
  have hprison0 : ∃ st', getPrison0 t mem fuel st = some st' := by
    unfold getPrison0 resolve
    rw [h]
    split <;> exact ⟨_, rfl⟩
  obtain ⟨st₁, hst₁⟩ := hprison0
  have hrootvnode : ∃ st', getRootvnode t mem fuel st₁ = some st' := by
    unfold getRootvnode resolve
    rw [h]
    split <;> exact ⟨_, rfl⟩
  obtain ⟨st₂, hst₂⟩ := hrootvnode
  unfold jailbreakCred
  rw [hst₁]
  dsimp only [Option.bind_eq_bind, Option.bind_some]
  split
  · rfl
  · rw [hst₂]
    dsimp only [Option.bind_some]
    split <;> rfl

/-- Behind a walk that has come to its end once, `resolve` takes the same again. -/
theorem jailbreakCred_again {proc : Nat} (hlisted : Listed t mem proc) (hinit : IsInit t mem proc)
    (htake : takeFrom t mem ⟨0, 0⟩ proc = (st, true)) {r : Mem × Statics × Bool}
    (h : jailbreakCred t mem fuel st ans = some r) : r = filled mem ans st := by
  have hresolve : ∀ r', resolve t mem fuel st = some r' → r' = (st, true) := by
    intro r' hr'
    obtain ⟨proc', hfind, rfl⟩ := Option.map_eq_some_iff.1 hr'
    obtain ⟨hlisted', hinit'⟩ := findInit_iff.1 ⟨fuel, hfind⟩
    rw [hlisted'.unique hlisted hinit' hinit, takeFrom_again (by rw [htake]), htake]
  have hprison0 : ∀ st', getPrison0 t mem fuel st = some st' → st' = st := by
    intro st' hst'
    unfold getPrison0 at hst'
    split at hst'
    · obtain ⟨r', hr', rfl⟩ := Option.map_eq_some_iff.1 hst'
      rw [hresolve r' hr']
    · exact (Option.some.inj hst').symm
  have hrootvnode : ∀ st', getRootvnode t mem fuel st = some st' → st' = st := by
    intro st' hst'
    unfold getRootvnode at hst'
    split at hst'
    · obtain ⟨r', hr', rfl⟩ := Option.map_eq_some_iff.1 hst'
      rw [hresolve r' hr']
    · exact (Option.some.inj hst').symm
  obtain ⟨st₁, hst₁, h⟩ := Option.bind_eq_some_iff.1 h
  rw [hprison0 st₁ hst₁] at h
  unfold filled
  split at h
  · rename_i hzero
    rw [if_pos (Or.inl hzero)]
    exact (Option.some.inj h).symm
  · rename_i hzero
    obtain ⟨st₂, hst₂, h⟩ := Option.bind_eq_some_iff.1 h
    rw [hrootvnode st₂ hst₂] at h
    split at h
    · rename_i hzero'
      rw [if_pos (Or.inr hzero')]
      exact (Option.some.inj h).symm
    · rename_i hzero'
      rw [if_neg fun hor => hor.elim hzero hzero']
      exact (Option.some.inj h).symm

/-- `jbc_jailbreak_cred` uses what the process with the id 1 has, if it comes to its
end. -/
theorem jailbreakCred_known (hst : st.Known t mem) {r : Mem × Statics × Bool}
    (h : jailbreakCred t mem fuel st ans = some r) :
    ∃ proc, Listed t mem proc ∧ IsInit t mem proc ∧
      r = filled mem ans (takeFrom t mem ⟨0, 0⟩ proc).1 := by
  rcases hst with rfl | ⟨proc, hlisted, hinit, htake⟩
  · rw [jailbreakCred_first] at h
    obtain ⟨proc, hfind, rfl⟩ := Option.map_eq_some_iff.1 h
    obtain ⟨hlisted, hinit⟩ := findInit_iff.1 ⟨fuel, hfind⟩
    exact ⟨proc, hlisted, hinit, rfl⟩
  · refine ⟨proc, hlisted, hinit, ?_⟩
    rw [htake]
    exact jailbreakCred_again hlisted hinit htake h

/-- The credentials of root, or the old ones where there is no prison or root
directory. -/
def Statics.rooted (st : Statics) (cred : JbcCred) : JbcCred :=
  if st.prison0 = 0 ∨ st.rootvnode = 0 then cred else rootCredOf st.prison0 st.rootvnode

theorem structAt_filled (hst : st.Fits) :
    structAt (filled mem ans st).1 ans = st.rooted (structAt mem ans) := by
  unfold filled Statics.rooted
  split
  · rfl
  · exact structAt_rootFields hst.1 hst.2

end Root

section RunAsRoot

variable {t : Thread} {mem : Mem} {ucred fd cred rootCred : Nat} {fn : Mem → Mem} {cwdMode : Int}

/-- `jbc_run_as_root` behind `jbc_jailbreak_cred`: the memory at its end, and the one that
`fn` is called with. -/
def runWith (t : Thread) (fn : Mem → Mem) (cred rootCred : Nat) (cwdMode : Int) (mem : Mem) :
    Mem × Mem :=
  let mem := assign mem rootCred [(offCdir, 8, cwdOf mem cred rootCred cwdMode)]
  let called := (setCred t mem rootCred).1
  ((setCred t (fn called) cred).1, called)

theorem runAsRoot_eq (fuel : Nat) (st : Statics) :
    runAsRoot t mem fuel st cred rootCred fn cwdMode =
      (jailbreakCred t (Scatter.copy (getCred t mem cred).1 ⟨rootCred, cred, sizeofCred⟩) fuel st
        rootCred).map fun r =>
          ((runWith t fn cred rootCred cwdMode r.1).1,
            (runWith t fn cred rootCred cwdMode r.1).2, r.2.1) := by
  unfold runAsRoot
  dsimp only
  cases jailbreakCred t _ fuel st rootCred <;> rfl

/-- `struct jbc_cred root_cred = cred;` behind `jbc_get_cred(&cred)`. -/
theorem rootCred_copied (h : Current t mem ucred fd) (hcred : Struct cred)
    (hroot : Struct rootCred) (haway : Away cred sizeofCred rootCred sizeofCred) :
    structAt (Scatter.copy (getCred t mem cred).1 ⟨rootCred, cred, sizeofCred⟩) rootCred =
        credAt mem ucred fd ∧
      structAt (Scatter.copy (getCred t mem cred).1 ⟨rootCred, cred, sizeofCred⟩) cred =
        credAt mem ucred fd ∧
      SameKernel mem (Scatter.copy (getCred t mem cred).1 ⟨rootCred, cred, sizeofCred⟩) := by
  have hle := hroot.le
  obtain ⟨-, hgot, -⟩ := getCred_reads h hcred
  have hsame := sameKernel_getCred h hcred
  have hkept : ∀ q, q < rootCred ∨ rootCred + sizeofCred ≤ q →
      Scatter.copy (getCred t mem cred).1 ⟨rootCred, cred, sizeofCred⟩ q =
        (getCred t mem cred).1 q := by
    intro q hq
    apply Scatter.copy_outside
    intro hwrites
    change rootCred ≤ q ∧ q < rootCred + sizeofCred at hwrites
    omega
  refine ⟨?_, (structAt_away hkept haway).trans hgot,
    hsame.trans fun q hq => hkept q (by omega)⟩
  rw [← hgot]
  exact structAt_congr fun i hi => Scatter.copy_inside (p := ⟨rootCred, cred, sizeofCred⟩) hi

/-- From `switch(cwd_mode)` on, with the credentials in both structs. -/
theorem runWith_restores {old new : JbcCred} (h : Current t mem ucred fd) (hcred : Struct cred)
    (hroot : Struct rootCred) (haway : Away cred sizeofCred rootCred sizeofCred)
    (hfn : ∀ m, Current t m ucred fd →
      Current t (fn m) ucred fd ∧ ∀ i < sizeofCred, fn m (cred + i) = m (cred + i))
    (hold : structAt mem cred = old) (hnew : structAt mem rootCred = new) :
    credAt (runWith t fn cred rootCred cwdMode mem).2 ucred fd =
        { new with
          cdir := if cwdMode = 1 then old.rdir else if cwdMode = 2 then new.rdir else old.cdir } ∧
      credAt (runWith t fn cred rootCred cwdMode mem).1 ucred fd = old ∧
      ∀ q, (∀ p ∈ credPieces cred ucred fd, ¬ p.Writes q) →
        (runWith t fn cred rootCred cwdMode mem).1 q =
          fn (runWith t fn cred rootCred cwdMode mem).2 q := by
  have hle := hroot.le
  have hcwd : cwdOf mem cred rootCred cwdMode =
      if cwdMode = 1 then old.rdir else if cwdMode = 2 then new.rdir else old.cdir := by
    rw [← hold, ← hnew]
    rfl
  have hlt : cwdOf mem cred rootCred cwdMode < 256 ^ 8 := by
    unfold cwdOf
    split
    · exact word_lt ..
    · split <;> exact word_lt ..
  unfold runWith
  dsimp only
  have hassigned := structAt_cdir mem rootCred hlt
  have hkept : ∀ q, q < rootCred ∨ rootCred + sizeofCred ≤ q →
      assign mem rootCred [(offCdir, 8, cwdOf mem cred rootCred cwdMode)] q = mem q := by
    intro q hq
    apply assign_outside _ hq
    intro f hf
    rw [List.mem_singleton.1 hf]
    show offCdir + 8 ≤ sizeofCred
    decide
  have hold' := (structAt_away hkept haway).trans hold
  have hcurrent := h.sameKernel fun q hq => hkept q (by omega)
  generalize assign mem rootCred [(offCdir, 8, cwdOf mem cred rootCred cwdMode)] = mem'
    at hassigned hold' hcurrent ⊢
  -- `jbc_set_cred(&root_cred); fn(arg); jbc_set_cred(&cred);`
  obtain ⟨hcurrent', hstack⟩ := hfn _ (hcurrent.setCred hroot)
  obtain ⟨-, hrestored, hrest⟩ := setCred_writes hcurrent' hcred
  refine ⟨?_, ?_, hrest⟩
  · rw [(setCred_writes hcurrent hroot).2.1, hassigned, hnew, hcwd]
  · rw [hrestored, structAt_congr hstack, structAt_setCred hcurrent hroot hcred, hold']

end RunAsRoot

/-- `jbc_run_as_root` comes to its end exactly if the list of processes leads to one with
the id 1.  The function then runs with what that process has, or with the old credentials
where it has no prison or root directory, and in the directory that `cwd_mode` says.
Afterwards the credentials are the old ones, and everything else is as the function has
left it. -/
theorem runAsRoot_restores {t : Thread} {mem : Mem} {ucred fd cred rootCred : Nat} {st : Statics}
    {fn : Mem → Mem} {cwdMode : Int} (h : Current t mem ucred fd)
    (hcred : Struct cred) (hroot : Struct rootCred)
    (haway : Away cred sizeofCred rootCred sizeofCred) (hst : st.Known t mem)
    (hfn : ∀ m, Current t m ucred fd →
      Current t (fn m) ucred fd ∧ ∀ i < sizeofCred, fn m (cred + i) = m (cred + i)) :
    ((∃ fuel r, runAsRoot t mem fuel st cred rootCred fn cwdMode = some r) ↔
        ∃ proc, Listed t mem proc ∧ IsInit t mem proc) ∧
      ∀ fuel mem' called st',
        runAsRoot t mem fuel st cred rootCred fn cwdMode = some (mem', called, st') →
        (∃ proc, Listed t mem proc ∧ IsInit t mem proc ∧ st' = (takeFrom t mem ⟨0, 0⟩ proc).1) ∧
          credAt called ucred fd =
            { st'.rooted (credAt mem ucred fd) with
              cdir := if cwdMode = 1 then (credAt mem ucred fd).rdir
                else if cwdMode = 2 then (st'.rooted (credAt mem ucred fd)).rdir
                else (credAt mem ucred fd).cdir } ∧
          credAt mem' ucred fd = credAt mem ucred fd ∧
          ∀ q, (∀ p ∈ credPieces cred ucred fd, ¬ p.Writes q) → mem' q = fn called q := by
  have hle := hroot.le
  obtain ⟨hnew, hold, hsame⟩ := rootCred_copied h hcred hroot haway
  simp only [runAsRoot_eq]
  generalize Scatter.copy (getCred t mem cred).1 ⟨rootCred, cred, sizeofCred⟩ = mem₂
    at hnew hold hsame ⊢
  have hknown : st.Known t mem₂ := hst.sameKernel hsame h.ans_user
  have hlisted : ∀ {proc}, Listed t mem₂ proc ↔ Listed t mem proc := listed_congr hsame h.ans_user
  have hinit : ∀ {proc}, IsInit t mem₂ proc ↔ IsInit t mem proc := isInit_congr hsame h.ans_user
  constructor
  · constructor
    · intro ⟨fuel, r, hr⟩
      obtain ⟨r', hjailbreak, -⟩ := Option.map_eq_some_iff.1 hr
      obtain ⟨proc, hproc, hone, -⟩ := jailbreakCred_known hknown hjailbreak
      exact ⟨proc, hlisted.1 hproc, hinit.1 hone⟩
    · intro ⟨proc, hproc, hone⟩
      obtain ⟨fuel, hfind⟩ := findInit_iff.2 ⟨hlisted.2 hproc, hinit.2 hone⟩
      have hsome : (jailbreakCred t mem₂ fuel st rootCred).isSome = true :=
        jailbreakCred_isSome hfind
      obtain ⟨r, hr⟩ := Option.isSome_iff_exists.1 hsome
      exact ⟨fuel, _, Option.map_eq_some_iff.2 ⟨r, hr, rfl⟩⟩
  · intro fuel mem' called st' hrun
    obtain ⟨r, hjailbreak, heq⟩ := Option.map_eq_some_iff.1 hrun
    obtain ⟨proc, hproc, hone, rfl⟩ := jailbreakCred_known hknown hjailbreak
    have hfits : (takeFrom t mem₂ ⟨0, 0⟩ proc).1.Fits :=
      takeFrom_fits h.ans_user (by decide) proc
    rw [takeFrom_congr hsame h.ans_user] at heq hfits
    generalize htake : (takeFrom t mem ⟨0, 0⟩ proc).1 = taken at heq hfits
    have hkept : ∀ q, q < rootCred ∨ rootCred + sizeofCred ≤ q →
        (filled mem₂ rootCred taken).1 q = mem₂ q := fun q hq => filled_outside hq
    have hnew' : structAt (filled mem₂ rootCred taken).1 rootCred =
        taken.rooted (credAt mem ucred fd) := by
      rw [structAt_filled hfits, hnew]
    have hold' := (structAt_away hkept haway).trans hold
    have hcurrent := h.sameKernel (hsame.trans fun q hq => hkept q (by omega))
    rw [filled_statics] at heq
    cases heq
    exact ⟨⟨proc, hlisted.1 hproc, hinit.1 hone, htake.symm⟩,
      runWith_restores hcurrent hcred hroot haway hfn hold' hnew'⟩

/-- The process of the thread has the id 5, and the next one in the list the id 1. -/
def listMem : Mem :=
  store (store (store (store (store (store (store installerMem
    0xffff900000001000 (LittleEndian.bytes 8 0xffff900000004000))
    0xffff9000000010b0 (LittleEndian.bytes 4 5))
    0xffff900000004008 (LittleEndian.bytes 8 0xffff900000001000))
    0xffff900000004040
    (LittleEndian.bytes 8 0xffff900000005000 ++ LittleEndian.bytes 8 0xffff900000006000))
    0xffff9000000040b0 (LittleEndian.bytes 4 1))
    0xffff900000005030 (LittleEndian.bytes 8 0xffff900000007000))
    0xffff900000006018 (LittleEndian.bytes 8 0xffff900000008000)

theorem current_listMem : Current installer listMem 0xffff900000002000 0xffff900000003000 := by
  constructor <;> decide

/-- The function runs with the prison and the root directory of the process with the
id 1. -/
theorem runAsRoot_restores_listMem :
    ∃ mem' called st',
      runAsRoot installer listMem 2 ⟨0, 0⟩ 0x1000 0x2000 id 2 = some (mem', called, st') ∧
        credAt called 0xffff900000002000 0xffff900000003000 =
          rootCredOf 0xffff900000007000 0xffff900000008000 ∧
        credAt mem' 0xffff900000002000 0xffff900000003000 =
          credAt listMem 0xffff900000002000 0xffff900000003000 := by
  obtain ⟨⟨mem', called, st'⟩, hrun⟩ := Option.isSome_iff_exists.1
    (show (runAsRoot installer listMem 2 ⟨0, 0⟩ 0x1000 0x2000 id 2).isSome = true by decide)
  have hst : (runAsRoot installer listMem 2 ⟨0, 0⟩ 0x1000 0x2000 id 2).map (fun r => r.2.2) =
      some ⟨0xffff900000007000, 0xffff900000008000⟩ := by decide
  rw [hrun] at hst
  obtain rfl := Option.some.inj hst
  obtain ⟨-, hcalled, hrestored, -⟩ :=
    (runAsRoot_restores current_listMem (by decide) (by decide) (by decide) (.inl rfl)
      (fun _ hm => ⟨hm, fun _ _ => rfl⟩)).2 _ _ _ _ hrun
  exact ⟨mem', called, _, hrun, hcalled, hrestored⟩

/-! ## The credentials of the payload -/

section Main

variable {t : Thread} {mem : Mem} {fuel ans : Nat}

/-- The first lines of `main`, with the process that the walk finds. -/
theorem mainCred_eq {ucred fd : Nat} (h : Current t mem ucred fd) (hans : Struct ans) :
    mainCred t mem fuel ⟨0, 0⟩ ans =
      (findInit t mem fuel (procOf t mem)).map fun proc =>
        ((setCred t (assign (filled (getCred t mem ans).1 ans (takeFrom t mem ⟨0, 0⟩ proc).1).1 ans
            mainFields) ans).1,
          (takeFrom t mem ⟨0, 0⟩ proc).1) := by
  have hsame := sameKernel_getCred h hans
  have hproc : procOf t (getCred t mem ans).1 = procOf t mem := krwRead64_congr hsame h.ans_user
  unfold mainCred
  dsimp only
  rw [jailbreakCred_first, hproc, findInit_congr hsame h.ans_user]
  simp only [takeFrom_congr hsame h.ans_user]
  cases findInit t mem fuel (procOf t mem) with
  | none => rfl
  | some proc =>
    show some ((setCred t (assign (filled _ ans _).1 ans mainFields) ans).1, (filled _ ans _).2.1) =
      some _
    rw [filled_statics]

end Main

/-- The first lines of `main` come to their end exactly if the list of processes leads to
one with the id 1.  If that one has a prison and a root directory, the process then has
these, the ids of root and the capabilities that `main` asks for, and nothing else in the
kernel has changed. -/
theorem mainCred_sets {t : Thread} {mem : Mem} {ucred fd cred : Nat} (h : Current t mem ucred fd)
    (hcred : Struct cred) :
    ((∃ fuel r, mainCred t mem fuel ⟨0, 0⟩ cred = some r) ↔
        ∃ proc, Listed t mem proc ∧ IsInit t mem proc) ∧
      ∀ fuel mem' st, mainCred t mem fuel ⟨0, 0⟩ cred = some (mem', st) →
        (∃ proc, Listed t mem proc ∧ IsInit t mem proc ∧ st = (takeFrom t mem ⟨0, 0⟩ proc).1) ∧
          (st.prison0 ≠ 0 → st.rootvnode ≠ 0 →
            credAt mem' ucred fd = mainCredOf st.prison0 st.rootvnode) ∧
          ∀ q, 0x800000000000 ≤ q → (∀ p ∈ credPieces cred ucred fd, ¬ p.Writes q) →
            mem' q = mem q := by
  constructor
  · constructor
    · intro ⟨fuel, r, hr⟩
      rw [mainCred_eq h hcred] at hr
      obtain ⟨proc, hfind, -⟩ := Option.map_eq_some_iff.1 hr
      exact ⟨proc, findInit_iff.1 ⟨fuel, hfind⟩⟩
    · intro ⟨proc, hproc⟩
      obtain ⟨fuel, hfind⟩ := findInit_iff.2 hproc
      exact ⟨fuel, _, (mainCred_eq h hcred).trans (by rw [hfind]; rfl)⟩
  · intro fuel mem' st hmain
    rw [mainCred_eq h hcred] at hmain
    obtain ⟨proc, hfind, heq⟩ := Option.map_eq_some_iff.1 hmain
    obtain ⟨hlisted, hinit⟩ := findInit_iff.1 ⟨fuel, hfind⟩
    have hfits : (takeFrom t mem ⟨0, 0⟩ proc).1.Fits :=
      takeFrom_fits h.ans_user (by decide) proc
    generalize htake : (takeFrom t mem ⟨0, 0⟩ proc).1 = st₁ at heq hfits
    cases heq
    have hle := hcred.le
    have hkept : ∀ q, q < cred ∨ cred + sizeofCred ≤ q →
        assign (filled (getCred t mem cred).1 cred st).1 cred mainFields q =
          (getCred t mem cred).1 q := by
      intro q hq
      rw [assign_outside (by decide) hq, filled_outside hq]
    have hsame : SameKernel mem _ :=
      (sameKernel_getCred h hcred).trans fun q hq => hkept q (by omega)
    have hcurrent := h.sameKernel hsame
    obtain ⟨-, hset, hrest⟩ := setCred_writes hcurrent hcred
    refine ⟨⟨proc, hlisted, hinit, htake.symm⟩, fun hprison0 hrootvnode => ?_, fun q hq hout => ?_⟩
    · rw [hset]
      apply structAt_mainFields
      unfold filled
      rw [if_neg fun hor => hor.elim hprison0 hrootvnode]
      exact structAt_rootFields hfits.1 hfits.2
    · rw [hrest q hout]
      exact hsame q hq

/-- The walk ends at the second process, whose prison and root directory `main` gets. -/
theorem mainCred_sets_listMem :
    (∃ proc, Listed installer listMem proc ∧ IsInit installer listMem proc) ∧
      ∃ mem' st, mainCred installer listMem 2 ⟨0, 0⟩ 0x1000 = some (mem', st) ∧
        credAt mem' 0xffff900000002000 0xffff900000003000 =
          mainCredOf 0xffff900000007000 0xffff900000008000 := by
  obtain ⟨⟨mem', st⟩, hrun⟩ := Option.isSome_iff_exists.1
    (show (mainCred installer listMem 2 ⟨0, 0⟩ 0x1000).isSome = true by decide)
  have hst : (mainCred installer listMem 2 ⟨0, 0⟩ 0x1000).map Prod.snd =
      some ⟨0xffff900000007000, 0xffff900000008000⟩ := by decide
  rw [hrun] at hst
  obtain rfl := Option.some.inj hst
  obtain ⟨hiff, hsets⟩ := mainCred_sets current_listMem (show Struct 0x1000 by decide)
  obtain ⟨-, hcred, -⟩ := hsets _ _ _ hrun
  exact ⟨hiff.1 ⟨2, _, hrun⟩, mem', _, hrun, hcred (by decide) (by decide)⟩

end DirectPackageInstaller.Payload
