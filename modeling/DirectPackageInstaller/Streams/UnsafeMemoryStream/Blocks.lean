import DirectPackageInstaller.Lib.Table
import DirectPackageInstaller.Lib.Transition
import Mathlib.Algebra.Ring.Nat
import Mathlib.Logic.Function.Basic

/-!
# Blocks with several users

Several instances of `UnsafeMemoryStream` may stand on one block: the first one
allocates it, the others are made from its pointer.  `InstanceCount` counts them
by address, in both constructors and in `Dispose`, which frees the block when its
count reaches zero.

The allocator hands out any address that is not allocated, so an address may come
back with another block.  A pointer is attached while `PointerDisposed` is false,
as `MultipartHelper` does.  The two logs are ghosts.

* `Inv`: the count of an address is the number of its undisposed instances, and
  the address is allocated exactly while it has one.
* `blocks_freed_once` puts the results together.
-/

namespace DirectPackageInstaller.UnsafeMemoryStream.Blocks

open Transition

/-- An instance of `UnsafeMemoryStream`. -/
structure Instance where
  basePointer : Nat
  disposed : Bool
deriving DecidableEq, Repr

structure State where
  /-- `InstanceCount`. -/
  instanceCount : Nat → Option Int
  /-- Every instance that was made. -/
  instances : List Instance
  /-- The addresses that the allocator has handed out and not got back. -/
  allocated : Nat → Bool
  /-- The results of `AllocHGlobal`. -/
  allocs : List Nat
  /-- The arguments of `FreeHGlobal`. -/
  frees : List Nat

def init : State where
  instanceCount := fun _ => none
  instances := []
  allocated := fun _ => false
  allocs := []
  frees := []

namespace State

def setCount (s : State) (p : Nat) (count : Option Int) : State :=
  { s with instanceCount := Function.update s.instanceCount p count }

/-- What both constructors do with `InstanceCount`, and the new instance. -/
def register (s : State) (p : Nat) : State :=
  { s.setCount p (some ((s.instanceCount p).getD 0 + 1)) with
    instances := s.instances ++ [⟨p, false⟩] }

/-- `AllocHGlobal` returns `p`. -/
def allocHGlobal (s : State) (p : Nat) : State :=
  { s with
    allocated := Function.update s.allocated p true
    allocs := s.allocs ++ [p] }

/-- `FreeHGlobal(p)`. -/
def freeHGlobal (s : State) (p : Nat) : State :=
  { s with
    allocated := Function.update s.allocated p false
    frees := s.frees ++ [p] }

/-- `Disposed = true`. -/
def setDisposed (s : State) (i : Nat) (inst : Instance) : State :=
  { s with instances := s.instances.set i { inst with disposed := true } }

/-- `PointerDisposed(p)`. -/
def pointerDisposed (s : State) (p : Nat) : Bool :=
  match s.instanceCount p with
  | some count => !decide (count > 0)
  | none => true

/-- `Dispose` of instance `i`. -/
def dispose (s : State) (i : Nat) (inst : Instance) : State :=
  if inst.disposed then s
  else
    let p := inst.basePointer
    let s := s.setDisposed i inst
    match s.instanceCount p with
    | none => s
    | some count =>
      if count > 0 then
        let s := s.setCount p (some (count - 1))
        if count - 1 > 0 then s else (s.freeHGlobal p).setCount p none
      else (s.freeHGlobal p).setCount p none

/-- The undisposed instances on a block. -/
def users (s : State) (p : Nat) : Nat :=
  s.instances.countP fun inst => !inst.disposed && decide (inst.basePointer = p)

end State

inductive Label
  /-- `UnsafeMemoryStream(Size)`, for which the allocator returns `p`. -/
  | alloc (p : Nat)
  /-- `UnsafeMemoryStream(p, Size)`. -/
  | attach (p : Nat)
  /-- `Dispose` of instance `i`. -/
  | dispose (i : Nat)
deriving DecidableEq, Repr

def step (s : State) : Label → Option State
  | .alloc p => if s.allocated p then none else some ((s.allocHGlobal p).register p)
  | .attach p => if s.pointerDisposed p then none else some (s.register p)
  | .dispose i => s.instances[i]?.map fun inst => s.dispose i inst

/-- All the instances of a process. -/
def system : System State Label where
  init := fun s => s = init
  step := step

/-! ## The users of a block -/

variable {s s' : State} {p q i : Nat} {inst : Instance}

theorem users_register : (s.register p).users q = s.users q + if p = q then 1 else 0 := by
  show (s.instances ++ [(⟨p, false⟩ : Instance)]).countP _ = _
  rw [List.countP_append]
  by_cases hpq : p = q
  · simp [State.users, hpq]
  · simp [State.users, hpq]

theorem users_setDisposed (hi : s.instances[i]? = some inst) (hlive : inst.disposed = false) :
    s.users q = (s.setDisposed i inst).users q + if inst.basePointer = q then 1 else 0 := by
  show s.instances.countP _ = (s.instances.set i _).countP _ + _
  rw [Table.countP_set_of_getElem? hi, Table.countP_of_getElem? hi, hlive]
  by_cases hq : inst.basePointer = q
  · simp [hq]
  · simp [hq]

/-- An undisposed instance is a user. -/
theorem users_pos (hmem : inst ∈ s.instances) (hlive : inst.disposed = false) :
    0 < s.users inst.basePointer := by
  apply List.countP_pos_iff.2
  exact ⟨inst, hmem, by simp [hlive]⟩

/-! ## The invariant -/

/-- The count of an address; it has none when it has no user. -/
def State.CountOk (s : State) (p : Nat) : Prop :=
  s.instanceCount p = if s.users p = 0 then none else some (s.users p : Int)

structure Inv (s : State) : Prop where
  count : ∀ p, s.CountOk p
  allocated : ∀ p, s.allocated p = true ↔ 0 < s.users p
  ledger : ∀ p, s.allocs.count p = s.frees.count p + if s.allocated p then 1 else 0

theorem inv_init : Inv init where
  count := fun _ => rfl
  allocated := fun _ => iff_of_false (fun h => nomatch h) (Nat.lt_irrefl 0)
  ledger := fun _ => rfl

theorem State.CountOk.getD (h : s.CountOk p) : (s.instanceCount p).getD 0 = s.users p := by
  rw [h]
  split
  · rename_i hzero
    rw [hzero]
    rfl
  · rfl

theorem State.CountOk.of_pos (h : s.CountOk p) (hpos : 0 < s.users p) :
    s.instanceCount p = some (s.users p : Int) := by
  rw [h, if_neg (Nat.ne_of_gt hpos)]

theorem State.CountOk.pointerDisposed (h : s.CountOk p) :
    s.pointerDisposed p = false ↔ 0 < s.users p := by
  unfold State.pointerDisposed
  rw [h]
  by_cases hzero : s.users p = 0
  · simp [hzero]
  · simp [hzero]

/-- A new user is counted. -/
theorem State.CountOk.register (h : s.CountOk q) (p : Nat) : (s.register p).CountOk q := by
  unfold State.CountOk
  rw [users_register]
  by_cases hpq : p = q
  · subst hpq
    rw [if_pos rfl, if_neg (Nat.succ_ne_zero _)]
    show Function.update s.instanceCount p _ p = _
    rw [Function.update_self, h.getD]
    rfl
  · rw [if_neg hpq, Nat.add_zero]
    show Function.update s.instanceCount p _ q = _
    rw [Function.update_of_ne (Ne.symm hpq)]
    exact h

/-- A block is allocated for its first user. -/
theorem Inv.alloc (h : Inv s) (hfree : s.allocated p = false) :
    Inv ((s.allocHGlobal p).register p) where
  count := fun q => State.CountOk.register (s := s.allocHGlobal p) (h.count q) p
  allocated := by
    intro q
    rw [users_register]
    show Function.update s.allocated p true q = true ↔ 0 < s.users q + _
    by_cases hpq : p = q
    · simp [hpq]
    · rw [Function.update_of_ne (Ne.symm hpq), h.allocated, if_neg hpq, Nat.add_zero]
  ledger := by
    intro q
    show (s.allocs ++ [p]).count q =
      s.frees.count q + if Function.update s.allocated p true q then 1 else 0
    rw [List.count_append, List.count_singleton, h.ledger]
    by_cases hpq : p = q
    · subst hpq
      simp [hfree]
    · simp [Function.update_of_ne (Ne.symm hpq), hpq]

/-- A block that has a user gets another one. -/
theorem Inv.attach (h : Inv s) (hused : 0 < s.users p) : Inv (s.register p) where
  count := fun q => (h.count q).register p
  allocated := by
    intro q
    rw [users_register]
    show s.allocated q = true ↔ _
    rw [h.allocated]
    split
    · rename_i hpq
      subst hpq
      omega
    · rw [Nat.add_zero]
  ledger := h.ledger

/-- The last user of a block leaves. -/
def LastUser (s : State) (i p : Nat) : Prop :=
  ∃ inst, s.instances[i]? = some inst ∧ inst.disposed = false ∧ inst.basePointer = p ∧
    s.users p = 1

/-- The two ends of a first `Dispose`. -/
theorem Inv.dispose_eq (h : Inv s) (hi : s.instances[i]? = some inst)
    (hlive : inst.disposed = false) :
    s.dispose i inst =
      if s.users inst.basePointer = 1 then
        ((s.setDisposed i inst).setCount inst.basePointer (some 0)).freeHGlobal
          inst.basePointer |>.setCount inst.basePointer none
      else (s.setDisposed i inst).setCount inst.basePointer
        (some ((s.users inst.basePointer : Int) - 1)) := by
  have hpos := users_pos (List.mem_of_getElem? hi) hlive
  have hcount : (s.setDisposed i inst).instanceCount inst.basePointer =
      some (s.users inst.basePointer : Int) := (h.count _).of_pos hpos
  unfold State.dispose
  rw [hlive]
  simp only [Bool.false_eq_true, if_false, hcount]
  rw [if_pos (by omega)]
  split
  · rw [if_neg (by omega)]
  · rename_i hmore
    have hone : s.users inst.basePointer = 1 := by omega
    rw [if_pos hone, hone]
    rfl

/-- The other blocks keep their users. -/
theorem users_setDisposed_of_ne (hi : s.instances[i]? = some inst) (hlive : inst.disposed = false)
    (hq : inst.basePointer ≠ q) : (s.setDisposed i inst).users q = s.users q := by
  have hleft := @users_setDisposed s q i inst hi hlive
  rw [if_neg hq] at hleft
  exact hleft.symm

/-- The last user takes its block away. -/
theorem Inv.last_user_leaves (h : Inv s) (hi : s.instances[i]? = some inst)
    (hlive : inst.disposed = false) (hlast : s.users inst.basePointer = 1) :
    Inv (((s.setDisposed i inst).setCount inst.basePointer (some 0)).freeHGlobal
      inst.basePointer |>.setCount inst.basePointer none) := by
  have hself := @users_setDisposed s inst.basePointer i inst hi hlive
  rw [if_pos rfl] at hself
  refine ⟨fun q => ?_, fun q => ?_, fun q => ?_⟩
  · show Function.update (Function.update s.instanceCount _ _) _ none q =
      if (s.setDisposed i inst).users q = 0 then none
      else some ((s.setDisposed i inst).users q : Int)
    by_cases hq : inst.basePointer = q
    · subst hq
      rw [Function.update_self, if_pos (by omega)]
    · rw [Function.update_of_ne (Ne.symm hq), Function.update_of_ne (Ne.symm hq),
        users_setDisposed_of_ne hi hlive hq]
      exact h.count q
  · show Function.update s.allocated inst.basePointer false q = true ↔
      0 < (s.setDisposed i inst).users q
    by_cases hq : inst.basePointer = q
    · subst hq
      rw [Function.update_self]
      exact iff_of_false (fun h => nomatch h) (by omega)
    · rw [Function.update_of_ne (Ne.symm hq), users_setDisposed_of_ne hi hlive hq]
      exact h.allocated q
  · show s.allocs.count q = (s.frees ++ [inst.basePointer]).count q +
      if Function.update s.allocated inst.basePointer false q then 1 else 0
    rw [List.count_append, List.count_singleton, h.ledger]
    by_cases hq : inst.basePointer = q
    · subst hq
      have hallocated := (h.allocated inst.basePointer).2 (by omega)
      simp [hallocated]
    · simp [Function.update_of_ne (Ne.symm hq), hq]

/-- Another user leaves the block to those that remain. -/
theorem Inv.user_leaves (h : Inv s) (hi : s.instances[i]? = some inst)
    (hlive : inst.disposed = false) (hmore : s.users inst.basePointer ≠ 1) :
    Inv ((s.setDisposed i inst).setCount inst.basePointer
      (some ((s.users inst.basePointer : Int) - 1))) := by
  have hself := @users_setDisposed s inst.basePointer i inst hi hlive
  rw [if_pos rfl] at hself
  refine ⟨fun q => ?_, fun q => ?_, h.ledger⟩
  · show Function.update s.instanceCount _ _ q =
      if (s.setDisposed i inst).users q = 0 then none
      else some ((s.setDisposed i inst).users q : Int)
    by_cases hq : inst.basePointer = q
    · subst hq
      rw [Function.update_self, if_neg (by omega), hself]
      congr 1
      omega
    · rw [Function.update_of_ne (Ne.symm hq), users_setDisposed_of_ne hi hlive hq]
      exact h.count q
  · show s.allocated q = true ↔ 0 < (s.setDisposed i inst).users q
    rw [h.allocated]
    by_cases hq : inst.basePointer = q
    · subst hq
      omega
    · rw [users_setDisposed_of_ne hi hlive hq]

/-- What a first `Dispose` leaves, whether other users remain or not. -/
theorem Inv.dispose_of_live (h : Inv s) (hi : s.instances[i]? = some inst)
    (hlive : inst.disposed = false) : Inv (s.dispose i inst) := by
  rw [h.dispose_eq hi hlive]
  split
  · rename_i hlast
    exact h.last_user_leaves hi hlive hlast
  · rename_i hmore
    exact h.user_leaves hi hlive hmore

theorem dispose_of_disposed (h : inst.disposed = true) : s.dispose i inst = s := by
  unfold State.dispose
  rw [if_pos h]

theorem Inv.step {l : Label} (h : Inv s) (hs : step s l = some s') : Inv s' := by
  cases l with
  | alloc p =>
    obtain ⟨hfree, heq⟩ := Option.ite_none_left_eq_some.1 hs
    cases heq
    exact h.alloc (Bool.eq_false_iff.2 hfree)
  | attach p =>
    obtain ⟨hfree, heq⟩ := Option.ite_none_left_eq_some.1 hs
    cases heq
    exact h.attach ((h.count p).pointerDisposed.1 (Bool.eq_false_iff.2 hfree))
  | dispose i =>
    obtain ⟨inst, hi, rfl⟩ := Option.map_eq_some_iff.1 hs
    cases hdisposed : inst.disposed with
    | true =>
      rw [dispose_of_disposed hdisposed]
      exact h
    | false => exact h.dispose_of_live hi hdisposed

theorem inv_of_reachable (h : system.Reachable s) : Inv s := by
  refine h.invariant Inv ?_ ?_
  · intro s hs
    rw [show s = init from hs]
    exact inv_init
  · intro s l s' hinv hs
    exact hinv.step hs

/-- A step frees the block whose last user it disposes, and nothing else. -/
theorem Inv.frees {l : Label} (h : Inv s) (hs : Blocks.step s l = some s') :
    (∃ i p, l = .dispose i ∧ LastUser s i p ∧ s'.frees = s.frees ++ [p]) ∨
      ((∀ i p, l = .dispose i → ¬ LastUser s i p) ∧ s'.frees = s.frees) := by
  cases l with
  | alloc p | attach p =>
    obtain ⟨-, heq⟩ := Option.ite_none_left_eq_some.1 hs
    cases heq
    exact .inr ⟨(fun _ _ hl => nomatch hl), rfl⟩
  | dispose i =>
    obtain ⟨inst, hi, rfl⟩ := Option.map_eq_some_iff.1 hs
    have hunique : ∀ j p, Label.dispose i = .dispose j → LastUser s j p →
        inst.disposed = false ∧ s.users inst.basePointer = 1 := by
      intro j p hl hlast
      cases hl
      obtain ⟨other, hj, hlive, rfl, hone⟩ := hlast
      rw [hi, Option.some.injEq] at hj
      exact hj ▸ ⟨hlive, hone⟩
    cases hdisposed : inst.disposed with
    | true =>
      refine .inr ⟨fun j p hl hlast => ?_, by rw [dispose_of_disposed hdisposed]⟩
      rw [(hunique j p hl hlast).1] at hdisposed
      cases hdisposed
    | false =>
      rw [h.dispose_eq hi hdisposed]
      split
      · rename_i hone
        exact .inl ⟨i, inst.basePointer, rfl, ⟨inst, hi, hdisposed, rfl, hone⟩, rfl⟩
      · rename_i hmany
        exact .inr ⟨fun j p hl hlast => hmany (hunique j p hl hlast).2, rfl⟩

/-- In every run: `InstanceCount` has the number of undisposed instances of an
address; an undisposed instance stands on an allocated block; a block that was
handed out so many times was freed as often, or once less while it has a user; and a
step frees a block exactly when it disposes its last user. -/
theorem blocks_freed_once (s : State) (h : system.Reachable s) :
    (∀ p, (s.instanceCount p).getD 0 = s.users p) ∧
      (∀ inst ∈ s.instances, inst.disposed = false → s.allocated inst.basePointer = true) ∧
      (∀ p, s.allocs.count p = s.frees.count p + if 0 < s.users p then 1 else 0) ∧
      ∀ l s', Blocks.step s l = some s' →
        (∃ i p, l = .dispose i ∧ LastUser s i p ∧ s'.frees = s.frees ++ [p]) ∨
          ((∀ i p, l = .dispose i → ¬ LastUser s i p) ∧ s'.frees = s.frees) := by
  have hinv := inv_of_reachable h
  refine ⟨fun p => (hinv.count p).getD, ?_, ?_, fun l s' hs => hinv.frees hs⟩
  · intro inst hmem hlive
    exact (hinv.allocated _).2 (users_pos hmem hlive)
  · intro p
    rw [hinv.ledger]
    by_cases hused : 0 < s.users p
    · rw [if_pos ((hinv.allocated p).2 hused), if_pos hused]
    · rw [if_neg hused, if_neg fun hallocated => hused ((hinv.allocated p).1 hallocated)]

/-- Two instances share a block, one of them is disposed twice, and the address comes
back. -/
def sharedRun : List Label :=
  [.alloc 8, .attach 8, .dispose 0, .dispose 0, .dispose 1, .alloc 8]

theorem blocks_freed_once_sharedRun :
    ∃ s, system.run init sharedRun = some s ∧ s.frees = [8] ∧
      (s.instanceCount 8).getD 0 = s.users 8 ∧
      s.allocs.count 8 = s.frees.count 8 + if 0 < s.users 8 then 1 else 0 := by
  have hrun : ∃ s, system.run init sharedRun = some s ∧ s.frees = [8] := ⟨_, rfl, rfl⟩
  obtain ⟨s, hrun, hfrees⟩ := hrun
  have hall := blocks_freed_once s (System.reachable_of_run (.init rfl) hrun)
  exact ⟨s, hrun, hfrees, hall.1 8, hall.2.2.1 8⟩

end DirectPackageInstaller.UnsafeMemoryStream.Blocks
