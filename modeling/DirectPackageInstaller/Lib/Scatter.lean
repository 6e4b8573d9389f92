import DirectPackageInstaller.Lib.Memory

/-!
# Scattered copies

Ranges of a memory are copied one after the other to other places of the same memory,
as the parts of a record are when its fields lie elsewhere.

* `copies_inside`, `copies_outside`: where no copy touches what an earlier one has
  written, every range ends up with what was in its source at first, and the other
  cells keep what they hold.
* `copies_eq_self`: copies of equal cells change nothing.
* `copies_back`: what was copied and is copied back leaves everything as it is.
-/

namespace Scatter

variable {α : Type*}

/-- A copy of `len` cells. -/
structure Piece where
  dst : ℕ
  src : ℕ
  len : ℕ
deriving DecidableEq, Repr

/-- `q` is one of the cells that the copy writes. -/
def Piece.Writes (p : Piece) (q : ℕ) : Prop := p.dst ≤ q ∧ q < p.dst + p.len

/-- The later copy neither reads nor writes what the earlier one has written. -/
def Piece.Before (p p' : Piece) : Prop :=
  (p.dst + p.len ≤ p'.dst ∨ p'.dst + p'.len ≤ p.dst) ∧
    (p.dst + p.len ≤ p'.src ∨ p'.src + p'.len ≤ p.dst)

/-- The copy back. -/
def Piece.swap (p : Piece) : Piece := ⟨p.src, p.dst, p.len⟩

def copy (mem : ℕ → α) (p : Piece) : ℕ → α :=
  Memory.overlay mem (fun q => mem (p.src + (q - p.dst))) p.dst (p.dst + p.len)

def copies (mem : ℕ → α) : List Piece → ℕ → α
  | [] => mem
  | p :: ps => copies (copy mem p) ps

/-- The copies may be made in their order. -/
def Apart (ps : List Piece) : Prop := ps.Pairwise Piece.Before

variable {mem : ℕ → α} {p : Piece} {ps : List Piece} {q i : ℕ}

theorem copy_inside (h : i < p.len) : copy mem p (p.dst + i) = mem (p.src + i) := by
  unfold copy
  rw [Memory.overlay_inside (by omega) (by omega), Nat.add_sub_cancel_left]

theorem copy_outside (h : ¬ p.Writes q) : copy mem p q = mem q :=
  Memory.overlay_outside h

theorem copies_outside (h : ∀ p ∈ ps, ¬ p.Writes q) : copies mem ps q = mem q := by
  induction ps generalizing mem with
  | nil => rfl
  | cons p ps ih =>
    rw [copies, ih fun p' hp' => h p' (List.mem_cons_of_mem _ hp'),
      copy_outside (h p List.mem_cons_self)]

/-- The range of one copy holds what was in its source before the first. -/
theorem copies_inside (hapart : Apart ps) (hp : p ∈ ps) (hi : i < p.len) :
    copies mem ps (p.dst + i) = mem (p.src + i) := by
  induction ps generalizing mem with
  | nil => simp at hp
  | cons first rest ih =>
    obtain ⟨hfirst, hrest⟩ := List.pairwise_cons.1 hapart
    rw [copies]
    rcases List.mem_cons.1 hp with heq | hp
    · subst heq
      rw [copies_outside, copy_inside hi]
      intro p' hp' hwrites
      have hbefore := (hfirst p' hp').1
      unfold Piece.Writes at hwrites
      omega
    · rw [ih hrest hp, copy_outside]
      intro hwrites
      have hbefore := (hfirst p hp).2
      unfold Piece.Writes at hwrites
      omega

/-- A copy of equal cells changes nothing. -/
theorem copies_eq_self (h : ∀ p ∈ ps, ∀ i < p.len, mem (p.dst + i) = mem (p.src + i)) :
    copies mem ps = mem := by
  induction ps with
  | nil => rfl
  | cons p ps ih =>
    have hcopy : copy mem p = mem := by
      funext q
      by_cases hq : p.Writes q
      · obtain ⟨i, rfl⟩ := Nat.exists_eq_add_of_le hq.1
        have hi : i < p.len := by have := hq.2; omega
        rw [copy_inside hi, h p List.mem_cons_self i hi]
      · exact copy_outside hq
    rw [copies, hcopy]
    exact ih fun p' hp' => h p' (List.mem_cons_of_mem _ hp')

/-- Where no source is overwritten, the ranges and their sources agree afterwards, and
may be copied back. -/
theorem copies_back (hapart : Apart ps)
    (hkept : ∀ p ∈ ps, ∀ p' ∈ ps, p.dst + p.len ≤ p'.src ∨ p'.src + p'.len ≤ p.dst) :
    copies (copies mem ps) (ps.map Piece.swap) = copies mem ps := by
  apply copies_eq_self
  intro back hback i hi
  obtain ⟨p, hp, rfl⟩ := List.mem_map.1 hback
  show copies mem ps (p.src + i) = copies mem ps (p.dst + i)
  rw [copies_inside hapart hp hi, copies_outside]
  intro p' hp' hwrites
  have hkeep := hkept p' hp' p hp
  have hlen : i < p.len := hi
  unfold Piece.Writes at hwrites
  omega

end Scatter
