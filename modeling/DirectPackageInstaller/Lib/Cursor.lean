import Mathlib.Data.List.Basic
import Mathlib.Tactic.Common

/-!
# Random access to a list

A `Cursor` is a fixed content with a position in it: the abstract value of a
readable, seekable stream.  A read may be short.  `Delivers` says that a read
delivers the elements at the position, no more than asked for, and moves behind
them.  `Reads` is the whole contract of a read: it also delivers something,
unless nothing was asked for or nothing is left.

* `Cursor.read` is the executable reader.  A wish resolves how short it is,
  and `reads_read` says that it keeps the contract.
* `Delivers.trans` and `Delivers.reads` join two reads to one, as a reader
  does that continues in a next source.
* `Delivers.embed` turns a read of a part into a read of the whole.
-/

/-- A fixed content and a position. -/
structure Cursor (α : Type*) where
  content : List α
  position : Nat
deriving DecidableEq, Repr

/-- The `n` elements of `l` from `position` on, or as many as there are. -/
def window {α : Type*} (l : List α) (position n : Nat) : List α :=
  (l.drop position).take n

section Window

variable {α : Type*}

@[simp] theorem window_length (l : List α) (p n : Nat) :
    (window l p n).length = min n (l.length - p) := by
  simp [window]

@[simp] theorem window_zero (l : List α) (p : Nat) : window l p 0 = [] := by
  simp [window]

theorem window_getElem? (l : List α) (p n i : Nat) :
    (window l p n)[i]? = if i < n then l[p + i]? else none := by
  rw [window, List.getElem?_take, List.getElem?_drop]

/-- Two windows in a row are one. -/
theorem window_append (l : List α) (p m n : Nat) :
    window l p m ++ window l (p + m) n = window l p (m + n) := by
  rw [window, window, window, List.take_add, List.drop_drop]

/-- A window of a part of a list is a window of the whole list. -/
theorem window_embed (pre l post : List α) {p n : Nat} (h : p + n ≤ l.length) :
    window (pre ++ l ++ post) (pre.length + p) n = window l p n := by
  rw [window, window, List.append_assoc, List.drop_append,
    List.drop_eq_nil_of_le (by omega), List.nil_append,
    Nat.add_sub_cancel_left, List.drop_append_of_le_length (by omega),
    List.take_append_of_le_length (by rw [List.length_drop]; omega)]

/-- The first `p` elements and the window behind them. -/
theorem take_append_window (l : List α) (p n : Nat) :
    l.take p ++ window l p n = l.take (p + n) := by
  rw [window, List.take_add]

/-- A window inside the first `k` elements. -/
theorem window_take {l : List α} {p n k : Nat} (h : p + n ≤ k) :
    window (l.take k) p n = window l p n := by
  rw [window, window, List.drop_take, List.take_take]
  congr 1
  omega

/-- The elements of a window and where they stand. -/
theorem mem_window {l : List α} {p n : Nat} {x : α} :
    x ∈ window l p n ↔ ∃ q, p ≤ q ∧ q < p + n ∧ l[q]? = some x := by
  rw [window, List.mem_iff_getElem?]
  constructor
  · intro ⟨i, hi⟩
    rw [List.getElem?_take] at hi
    split at hi
    · rw [List.getElem?_drop] at hi
      exact ⟨p + i, by omega, by omega, hi⟩
    · cases hi
  · intro ⟨q, hlo, hhi, hq⟩
    refine ⟨q - p, ?_⟩
    rw [List.getElem?_take, if_pos (by omega), List.getElem?_drop,
      show p + (q - p) = q by omega]
    exact hq

end Window

namespace Cursor

variable {α : Type*}

/-- Move the position forward. -/
def advance (c : Cursor α) (n : Nat) : Cursor α :=
  { c with position := c.position + n }

@[simp] theorem advance_content (c : Cursor α) (n : Nat) :
    (c.advance n).content = c.content := rfl

@[simp] theorem advance_position (c : Cursor α) (n : Nat) :
    (c.advance n).position = c.position + n := rfl

@[simp] theorem advance_advance (c : Cursor α) (m n : Nat) :
    (c.advance m).advance n = c.advance (m + n) := by
  simp [advance, Nat.add_assoc]

/-- A read of at most `count` elements that does not skip or repeat any. -/
structure Delivers (c : Cursor α) (count : Nat) (elems : List α)
    (c' : Cursor α) : Prop where
  elems_eq : elems = window c.content c.position elems.length
  length_le : elems.length ≤ count
  next : c' = c.advance elems.length

/-- The contract of one read of at most `count` elements. -/
structure Reads (c : Cursor α) (count : Nat) (elems : List α) (c' : Cursor α) :
    Prop extends Delivers c count elems c' where
  /-- Nothing is delivered only at the end, or when nothing is asked for. -/
  progress : elems = [] → count = 0 ∨ c.content.length ≤ c.position

/-- How many elements a read delivers.  `wish` resolves how short it is. -/
def readSize (c : Cursor α) (count wish : Nat) : Nat :=
  min (max 1 wish) (min count (c.content.length - c.position))

/-- A read that delivers as much as `wish` allows, and at least one element
when it can. -/
def read (c : Cursor α) (count wish : Nat) : List α × Cursor α :=
  (window c.content c.position (c.readSize count wish),
    c.advance (c.readSize count wish))

theorem readSize_le (c : Cursor α) (count wish : Nat) :
    c.readSize count wish ≤ count ∧
      c.readSize count wish ≤ c.content.length - c.position := by
  unfold readSize
  omega

theorem readSize_eq_zero {c : Cursor α} {count wish : Nat} :
    c.readSize count wish = 0 ↔ count = 0 ∨ c.content.length ≤ c.position := by
  unfold readSize
  omega

theorem read_length (c : Cursor α) (count wish : Nat) :
    (c.read count wish).1.length = c.readSize count wish := by
  have h := c.readSize_le count wish
  simp only [read, window_length]
  omega

/-- Every wish keeps the contract. -/
theorem reads_read (c : Cursor α) (count wish : Nat) :
    c.Reads count (c.read count wish).1 (c.read count wish).2 where
  elems_eq := by
    rw [read_length]
    rfl
  length_le := by
    rw [read_length]
    exact (c.readSize_le count wish).1
  next := by
    rw [read_length]
    rfl
  progress := by
    intro hnil
    have hsize := c.read_length count wish
    rw [hnil] at hsize
    exact readSize_eq_zero.1 hsize.symm

/-- A read of one element before the end delivers it. -/
theorem Reads.one {c c' : Cursor α} {elems : List α} (h : c.Reads 1 elems c')
    (hlt : c.position < c.content.length) : elems = [c.content[c.position]] := by
  have hle := h.length_le
  have hne : elems ≠ [] := by
    intro hnil
    rcases h.progress hnil with hzero | hend
    · exact absurd hzero Nat.one_ne_zero
    · omega
  have hlen : elems.length = 1 := by
    have := List.length_pos_iff.2 hne
    omega
  rw [h.elems_eq, hlen, window, List.drop_eq_getElem_cons hlt]
  rfl

/-- Two reads in a row are one. -/
theorem Delivers.trans {c c₁ c₂ : Cursor α} {count : Nat} {first more : List α}
    (h₁ : c.Delivers count first c₁)
    (h₂ : c₁.Delivers (count - first.length) more c₂) :
    c.Delivers count (first ++ more) c₂ := by
  have hc₁ := h₁.next
  have hle₁ := h₁.length_le
  have hle₂ := h₂.length_le
  refine ⟨?_, ?_, ?_⟩
  · rw [List.length_append, ← window_append, ← h₁.elems_eq]
    congr 1
    simpa [hc₁] using h₂.elems_eq
  · rw [List.length_append]
    omega
  · rw [h₂.next, hc₁, advance_advance, List.length_append]

/-- A reader that goes on where the first read stopped keeps the contract, even
if the first read delivered nothing. -/
theorem Delivers.reads {c c₁ c₂ : Cursor α} {count : Nat} {first more : List α}
    (h₁ : c.Delivers count first c₁)
    (h₂ : c₁.Reads (count - first.length) more c₂) :
    c.Reads count (first ++ more) c₂ where
  toDelivers := h₁.trans h₂.toDelivers
  progress := by
    intro hnil
    obtain ⟨hfirst, hmore⟩ := List.append_eq_nil_iff.1 hnil
    have hprogress := h₂.progress hmore
    rw [h₁.next, hfirst] at hprogress
    simpa using hprogress

/-- A read of a part is a read of the whole. -/
theorem Delivers.embed {l elems : List α} {p count : Nat} {c' : Cursor α}
    (h : Delivers ⟨l, p⟩ count elems c') (pre post : List α)
    (hp : p ≤ l.length) :
    Delivers ⟨pre ++ l ++ post, pre.length + p⟩ count elems
      ⟨pre ++ l ++ post, pre.length + p + elems.length⟩ where
  elems_eq := by
    have hlen := congrArg List.length h.elems_eq
    rw [window_length] at hlen
    dsimp only at hlen ⊢
    rw [window_embed pre l post (by omega)]
    exact h.elems_eq
  length_le := h.length_le
  next := rfl

end Cursor
