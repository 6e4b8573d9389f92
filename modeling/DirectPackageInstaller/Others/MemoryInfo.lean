import Mathlib.Data.List.Basic
import Mathlib.Order.Basic
import Mathlib.Tactic.Common

/-!
# The check for free space

`EnsureFreeSpace` loops while the storage has less free space than a package
needs.  An iteration switches to the other storage of an Android device, clears the
cache, or shows the dialog.  Clearing tries to delete every cached file and swallows
the errors, and the loop goes on without looking at what is left.

The environment says for each iteration how many connections the server has and
which files can be deleted.  What the storages have free depends on the cached files
alone, so it is constant while nothing is deleted.

`silence_ends_iff` says when the iterations without a dialog come to an end, from the
call on or from a dialog on.
-/

namespace DirectPackageInstaller.MemoryInfo

/-! ## The code -/

/-- The flags of `Source` that the check looks at. -/
structure Source where
  diskCache : Bool
  rar : Bool
  sevenZip : Bool
  segmented : Bool
deriving DecidableEq, Repr

/-- `AllocationRequired`. -/
def Source.allocationRequired (inputType : Source) : Bool :=
  inputType.diskCache || inputType.rar || inputType.sevenZip || inputType.segmented

/-- How the part in front of the loop ends. -/
inductive Start where
  /-- It returns true. -/
  | enough
  /-- `DecompressorStreams.First()` throws. -/
  | threw
  /-- The loop starts, for this `MaxAllocationSize`. -/
  | loop (maxAllocationSize : Int)
deriving DecidableEq, Repr

/-- `EnsureFreeSpace` up to its loop, for the lengths of the streams. -/
def start (pkgStream : Option Int) (decompressorStreams : Option (List Int))
    (inputType : Source) : Start :=
  match inputType.allocationRequired, pkgStream with
  | false, _ | _, none => .enough
  | true, some length =>
    match decompressorStreams with
    | none => .loop length
    | some [] => .threw
    | some (first :: _) => .loop (length + first)

/-- What an iteration reads. -/
structure Config where
  maxAllocationSize : Int
  inputType : Source
  isAndroid : Bool
  /-- `ToFileSize()`. -/
  toFileSize : Int → String

/-- What happens around the loop.  The free space of a storage, `true` for the SD
card, is given by the cached files. -/
structure Environment where
  freeSpace : Bool → List String → Int
  /-- `Installer.Server.Connections`, or `none` without a server. -/
  connections : Nat → Option Nat
  /-- `File.Delete` succeeds in the given iteration. -/
  deletes : Nat → String → Bool

/-- `GetAllCachedFiles()` and `UseSDCard`. -/
structure State where
  cachedFiles : List String
  useSDCard : Bool
deriving DecidableEq, Repr

/-- `CacheIsEmpty()`. -/
def State.cacheIsEmpty (s : State) : Bool :=
  s.cachedFiles.isEmpty

/-- `TempHelper.Clear()`. -/
def State.clear (s : State) (deletes : String → Bool) : State :=
  { s with cachedFiles := s.cachedFiles.filter fun file => !deletes file }

def storageName (useSDCard : Bool) : String :=
  if useSDCard then "SD card" else "internal storage"

/-- The text of the dialog. -/
def message (cfg : Config) (free : Bool → Int) (useSDCard : Bool) : String :=
  cfg.toFileSize cfg.maxAllocationSize ++ " in your " ++ storageName useSDCard ++
    " is required, missing " ++ cfg.toFileSize (cfg.maxAllocationSize - free useSDCard) ++
    " currently." ++
    (if cfg.isAndroid then
      "\nOr clean more " ++ cfg.toFileSize (cfg.maxAllocationSize - free !useSDCard) ++
        " in your " ++ storageName (!useSDCard) ++ "."
    else "") ++
    if cfg.inputType.segmented then
      "\nAlternatively, you can disable Segmented Download feature."
    else ""

/-- What comes of the test of the loop and of its body. -/
inductive Iteration where
  /-- The test fails, and the check returns true. -/
  | returned
  /-- The dialog is shown; after a retry the loop goes on. -/
  | dialog (text : String)
  /-- A `continue`. -/
  | again (s : State)
deriving DecidableEq, Repr

/-- One iteration, which is the `n`-th since the call or the last dialog. -/
def iteration (cfg : Config) (env : Environment) (n : Nat) (s : State) : Iteration :=
  let free := fun useSDCard => env.freeSpace useSDCard s.cachedFiles
  if cfg.maxAllocationSize ≤ free s.useSDCard then .returned
  else if cfg.isAndroid ∧ free (!s.useSDCard) > cfg.maxAllocationSize then
    .again { s with useSDCard := !s.useSDCard }
  else if !s.cacheIsEmpty ∧ env.connections n = some 0 then
    .again (s.clear (env.deletes n))
  else .dialog (message cfg free s.useSDCard)

/-- The state after `n` iterations that have neither returned nor shown a dialog. -/
def silent (cfg : Config) (env : Environment) (s : State) : Nat → Option State
  | 0 => some s
  | n + 1 =>
    match silent cfg env s n with
    | none => none
    | some s =>
      match iteration cfg env n s with
      | .again s => some s
      | _ => none

/-! ## When the silence ends -/

/-- The cached files that no clearing before the `n`-th iteration gets. -/
def survivors (env : Environment) (files : List String) : Nat → List String
  | 0 => files
  | n + 1 => (survivors env files n).filter fun file => !env.deletes n file

/-- The storage in use has the space, or the other one has more than that. -/
def Enough (cfg : Config) (env : Environment) (useSDCard : Bool) (files : List String) : Prop :=
  cfg.maxAllocationSize ≤ env.freeSpace useSDCard files ∨
    cfg.isAndroid = true ∧ env.freeSpace (!useSDCard) files > cfg.maxAllocationSize

/-- Every cached file is deleted sooner or later, or at some time there is space, a
connection or no server. -/
def Ends (cfg : Config) (env : Environment) (s : State) : Prop :=
  (∀ file ∈ s.cachedFiles, ∃ n, env.deletes n file = true) ∨
    (∃ n, env.connections n ≠ some 0) ∨
      ∃ n, Enough cfg env s.useSDCard (survivors env s.cachedFiles n)

theorem mem_survivors {env : Environment} {files : List String} {file : String}
    (h : file ∈ files) (hkept : ∀ n, env.deletes n file = false) (n : Nat) :
    file ∈ survivors env files n := by
  induction n with
  | zero => exact h
  | succ n ih => exact List.mem_filter.2 ⟨ih, by simp [hkept n]⟩

theorem survivors_sublist (env : Environment) (files : List String) {n m : Nat} (h : n ≤ m) :
    (survivors env files m).Sublist (survivors env files n) := by
  induction m with
  | zero =>
    rw [Nat.le_zero.1 h]
  | succ m ih =>
    by_cases hnm : n = m + 1
    · rw [hnm]
    · exact List.filter_sublist.trans (ih (by omega))

/-- A file is gone after the iteration that deletes it. -/
theorem not_mem_survivors {env : Environment} {files : List String} {file : String} {n : Nat}
    (h : env.deletes n file = true) : file ∉ survivors env files (n + 1) := by
  intro hmem
  have hkept := (List.mem_filter.1 hmem).2
  rw [h] at hkept
  cases hkept

/-- Finitely many files are gone at some time. -/
theorem survivors_eq_nil {env : Environment} {files : List String}
    (h : ∀ file ∈ files, ∃ n, env.deletes n file = true) :
    ∃ n, survivors env files n = [] := by
  have hgone : ∀ part : List String, (∀ file ∈ part, file ∈ files) →
      ∃ n, ∀ file ∈ part, file ∉ survivors env files n := by
    intro part
    induction part with
    | nil => exact fun _ => ⟨0, fun file hfile => nomatch hfile⟩
    | cons first rest ih =>
      intro hsub
      obtain ⟨n, hn⟩ := ih fun file hfile => hsub file (List.mem_cons_of_mem _ hfile)
      obtain ⟨m, hm⟩ := h first (hsub first List.mem_cons_self)
      refine ⟨max n (m + 1), fun file hfile hmem => ?_⟩
      rcases List.mem_cons.1 hfile with rfl | hfile
      · exact not_mem_survivors hm
          ((survivors_sublist env files (Nat.le_max_right _ _)).mem hmem)
      · exact hn file hfile ((survivors_sublist env files (Nat.le_max_left _ _)).mem hmem)
  obtain ⟨n, hn⟩ := hgone files fun _ hfile => hfile
  refine ⟨n, List.eq_nil_iff_forall_not_mem.2 fun file hfile => ?_⟩
  exact hn file ((survivors_sublist env files (Nat.zero_le n)).mem hfile) hfile

/-- What is known when the silence goes on for another iteration. -/
theorem iteration_cases {cfg : Config} {env : Environment} {n : Nat} {s s' : State}
    (h : iteration cfg env n s = .again s') :
    (Enough cfg env s.useSDCard s.cachedFiles ∧
      s' = { s with useSDCard := !s.useSDCard } ∧
        env.freeSpace s'.useSDCard s'.cachedFiles > cfg.maxAllocationSize) ∨
      (s.cachedFiles ≠ [] ∧ env.connections n = some 0 ∧
        ¬Enough cfg env s.useSDCard s.cachedFiles ∧ s' = s.clear (env.deletes n)) := by
  simp only [iteration] at h
  split at h
  · cases h
  · next hfree =>
    split at h
    · next halt =>
      obtain rfl := Iteration.again.inj h
      exact .inl ⟨.inr halt, rfl, halt.2⟩
    · next halt =>
      split at h
      · next hclear =>
        refine .inr ⟨?_, hclear.2, fun henough => ?_, (Iteration.again.inj h).symm⟩
        · simpa [State.cacheIsEmpty] using hclear.1
        · exact henough.elim hfree halt
      · cases h

/-- An iteration that clears the cache. -/
theorem iteration_clear {cfg : Config} {env : Environment} {n : Nat} {s : State}
    (hfiles : s.cachedFiles ≠ []) (hserver : env.connections n = some 0)
    (hfull : ¬Enough cfg env s.useSDCard s.cachedFiles) :
    iteration cfg env n s = .again (s.clear (env.deletes n)) := by
  have hempty : s.cacheIsEmpty = false := by
    simpa [State.cacheIsEmpty] using hfiles
  simp only [iteration]
  rw [if_neg fun hfree => hfull (.inl hfree), if_neg fun halt => hfull (.inr halt),
    if_pos ⟨by simp [hempty], hserver⟩]

/-- Behind a switch the loop returns. -/
theorem iteration_switched {cfg : Config} {env : Environment} {n : Nat} {s : State}
    (h : env.freeSpace s.useSDCard s.cachedFiles > cfg.maxAllocationSize) :
    iteration cfg env n s = .returned := by
  simp only [iteration]
  exact if_pos (Int.le_of_lt h)

theorem silent_succ {cfg : Config} {env : Environment} {s : State} {n : Nat} {t u : State}
    (h : silent cfg env s n = some t) :
    silent cfg env s (n + 1) = some u ↔ iteration cfg env n t = .again u := by
  simp only [silent, h]
  cases iteration cfg env n t <;> simp

/-- As long as nothing helps, the cache is cleared and cleared again. -/
theorem silent_survivors {cfg : Config} {env : Environment} {s : State}
    (hfiles : ∀ n, survivors env s.cachedFiles n ≠ [])
    (hserver : ∀ n, env.connections n = some 0)
    (hfull : ∀ n, ¬Enough cfg env s.useSDCard (survivors env s.cachedFiles n)) (n : Nat) :
    silent cfg env s n = some ⟨survivors env s.cachedFiles n, s.useSDCard⟩ := by
  induction n with
  | zero => rfl
  | succ n ih => exact (silent_succ ih).2 (iteration_clear (hfiles n) (hserver n) (hfull n))

/-- A silence without an end clears the cache in every iteration: behind a switch it
would be over. -/
theorem clears_of_forever {cfg : Config} {env : Environment} {s t : State} {n : Nat}
    (h : ∀ n, silent cfg env s n ≠ none) (ht : silent cfg env s n = some t) :
    t.cachedFiles ≠ [] ∧ env.connections n = some 0 ∧
      ¬Enough cfg env t.useSDCard t.cachedFiles ∧
        silent cfg env s (n + 1) = some (t.clear (env.deletes n)) := by
  obtain ⟨u, hu⟩ := Option.ne_none_iff_exists'.1 (h (n + 1))
  obtain ⟨v, hv⟩ := Option.ne_none_iff_exists'.1 (h (n + 2))
  rcases iteration_cases ((silent_succ ht).1 hu) with
    ⟨-, -, hfree⟩ | ⟨hfiles, hserver, hfull, rfl⟩
  · have hagain := (silent_succ hu).1 hv
    rw [iteration_switched hfree] at hagain
    cases hagain
  · exact ⟨hfiles, hserver, hfull, hu⟩

theorem silent_of_forever {cfg : Config} {env : Environment} {s : State}
    (h : ∀ n, silent cfg env s n ≠ none) (n : Nat) :
    silent cfg env s n = some ⟨survivors env s.cachedFiles n, s.useSDCard⟩ := by
  induction n with
  | zero => rfl
  | succ n ih => exact (clears_of_forever h ih).2.2.2

/-- The iterations without a dialog come to an end exactly if every cached file gets
deleted or something else helps at some time. -/
theorem silence_ends_iff (cfg : Config) (env : Environment) (s : State) :
    (∃ n, silent cfg env s n = none) ↔ Ends cfg env s := by
  constructor
  · rintro ⟨n, hend⟩
    by_contra hnot
    simp only [Ends, not_or, not_exists, not_not] at hnot
    obtain ⟨hkept, hserver, hfull⟩ := hnot
    obtain ⟨file, hfile, hkept⟩ : ∃ file ∈ s.cachedFiles, ∀ n, env.deletes n file = false := by
      by_contra hno
      refine hkept fun file hfile => ?_
      by_contra hnever
      exact hno ⟨file, hfile, fun n => Bool.eq_false_iff.2 fun hdel => hnever ⟨n, hdel⟩⟩
    have hfiles := fun n => List.ne_nil_of_mem (mem_survivors hfile hkept n)
    rw [silent_survivors hfiles hserver hfull n] at hend
    cases hend
  · intro hends
    by_contra hnot
    have hforever : ∀ n, silent cfg env s n ≠ none := fun n hend => hnot ⟨n, hend⟩
    have hclears := fun n => clears_of_forever hforever (silent_of_forever hforever n)
    rcases hends with hdeleted | ⟨n, hserver⟩ | ⟨n, henough⟩
    · obtain ⟨n, hnil⟩ := survivors_eq_nil hdeleted
      exact (hclears n).1 hnil
    · exact hserver (hclears n).2.1
    · exact (hclears n).2.2.1 henough

/-- A desktop without space, with a cached file that cannot be deleted. -/
theorem lockedFile_spins :
    start (some 1) none ⟨true, false, false, false⟩ = .loop 1 ∧
      ∀ n, silent ⟨1, ⟨true, false, false, false⟩, false, fun _ => ""⟩
        ⟨fun _ _ => 0, fun _ => some 0, fun _ _ => false⟩ ⟨["a.tmp"], false⟩ n ≠ none := by
  refine ⟨rfl, fun n => ?_⟩
  suffices hstays : silent ⟨1, ⟨true, false, false, false⟩, false, fun _ => ""⟩
      ⟨fun _ _ => 0, fun _ => some 0, fun _ _ => false⟩ ⟨["a.tmp"], false⟩ n =
        some ⟨["a.tmp"], false⟩ by
    rw [hstays]
    exact Option.some_ne_none _
  induction n with
  | zero => rfl
  | succ n ih => exact (silent_succ ih).2 rfl

end DirectPackageInstaller.MemoryInfo
