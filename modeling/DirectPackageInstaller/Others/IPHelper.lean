import DirectPackageInstaller.Lib.TextCompare

/-!
# The PC's address in the console's network

`FindLocalIP` takes what is in front of the last dot of the console's address and looks
for the one local address that starts with it.  That text ends in the digits of the third
number, so it is the beginning of longer numbers too.

* `decimal_prefix_iff`: whose digits a number's digits begin with.
* `findLocalIP_iff`: an address is found exactly if it is the only one with the same first
  two numbers and a third one that begins with the console's.
-/

namespace DirectPackageInstaller.IPHelper

open Text

/-! ## The code -/

/-- `LastIndexOf(c)`; `none` is -1. -/
def lastIndexOf (c : Char) : Text → Option Nat
  | [] => none
  | d :: text =>
    match lastIndexOf c text with
    | some i => some (i + 1)
    | none => if d = c then some 0 else none

/-- `Single()` of a list; `none` is the exception. -/
def single {α : Type} : List α → Option α
  | [x] => some x
  | _ => none

/-- `FindLocalIP(RemoteIP)` with the addresses of `EnumLocalIPs`.  `startsWith` is the
comparison of the culture, and an exception gives null. -/
def findLocalIP (startsWith : Text → Text → Bool) (ips : List Text) (remoteIP : Text) :
    Option Text := do
  let i ← lastIndexOf '.' remoteIP
  let remotePartial := remoteIP.take i
  single (ips.filter fun x => startsWith x remotePartial)

/-! ## Digits -/

theorem decimal_of_ge {n : Nat} (h : 10 ≤ n) :
    decimal n = decimal (n / 10) ++ [(n % 10).digitChar] := by
  unfold decimal
  rw [Nat.toDigits_of_base_le (by decide) h]

/-- A number's digits begin those of the numbers that leave it when last digits are cut
off. -/
theorem decimal_prefix_iff {m n : Nat} :
    decimal m <+: decimal n ↔ ∃ k, n / 10 ^ k = m ∧ (k = 0 ∨ 10 ^ k ≤ n) := by
  induction n using Nat.strongRecOn with
  | ind n ih =>
    by_cases hn : n < 10
    · have hshort : decimal m <+: decimal n ↔ decimal m = decimal n := by
        constructor
        · intro h
          apply h.eq_of_length_le
          rw [decimal_of_lt hn, List.length_singleton]
          exact List.length_pos_iff.2 Nat.toDigits_ne_nil
        · intro h
          rw [h]
      rw [hshort]
      constructor
      · intro h
        exact ⟨0, by rw [decimal_injective h, pow_zero, Nat.div_one], Or.inl rfl⟩
      · intro ⟨k, hk, hlarge⟩
        have hzero : k = 0 := by
          rcases hlarge with hzero | hlarge
          · exact hzero
          · by_contra hne
            have hpow := Nat.pow_le_pow_right (n := 10) (by decide) (Nat.pos_of_ne_zero hne)
            omega
        rw [← hk, hzero, pow_zero, Nat.div_one]
    · have hten : 10 ≤ n := by omega
      rw [decimal_of_ge hten, List.prefix_concat_iff, ← decimal_of_ge hten, ih (n / 10) (by omega)]
      constructor
      · intro h
        rcases h with heq | ⟨k, hk, hlarge⟩
        · exact ⟨0, by rw [decimal_injective heq, pow_zero, Nat.div_one], Or.inl rfl⟩
        · refine ⟨k + 1, ?_, Or.inr ?_⟩
          · rw [pow_succ', ← Nat.div_div_eq_div_mul]
            exact hk
          · rw [pow_succ]
            rcases hlarge with rfl | hlarge
            · simpa using hten
            · omega
      · intro ⟨k, hk, hlarge⟩
        cases k with
        | zero =>
          rw [pow_zero, Nat.div_one] at hk
          exact Or.inl (by rw [hk])
        | succ k =>
          rw [pow_succ', ← Nat.div_div_eq_div_mul] at hk
          have hle := hlarge.resolve_left (Nat.succ_ne_zero k)
          rw [pow_succ] at hle
          exact Or.inr ⟨k, hk, Or.inr (by omega)⟩

/-! ## Addresses -/

/-- A local or a remote address. -/
structure Quad where
  a : Fin 256
  b : Fin 256
  c : Fin 256
  d : Fin 256
deriving DecidableEq, Repr

/-- What is in front of the last dot. -/
def Quad.network (q : Quad) : Text :=
  decimal q.a ++ '.' :: (decimal q.b ++ '.' :: decimal q.c)

/-- The address as a text. -/
def Quad.dotted (q : Quad) : Text := q.network ++ '.' :: decimal q.d

/-- The third number is the same, or continues it with one digit or two. -/
def near (r q : Quad) : Bool :=
  q.a = r.a && q.b = r.b && (q.c = r.c || (10 ≤ q.c.val && q.c.val / 10 = r.c.val) ||
    (100 ≤ q.c.val && q.c.val / 100 = r.c.val))

theorem dot_not_mem (n : Nat) : '.' ∉ decimal n := not_mem_decimal rfl n

theorem lastIndexOf_eq_none {c : Char} {text : Text} (h : c ∉ text) :
    lastIndexOf c text = none := by
  induction text with
  | nil => rfl
  | cons d text ih =>
    rw [List.mem_cons, not_or] at h
    rw [lastIndexOf, ih h.2]
    exact if_neg (Ne.symm h.1)

theorem lastIndexOf_append {c : Char} (front : Text) {back : Text} (h : c ∉ back) :
    lastIndexOf c (front ++ c :: back) = some front.length := by
  induction front with
  | nil =>
    rw [List.nil_append, lastIndexOf, lastIndexOf_eq_none h]
    exact if_pos rfl
  | cons d front ih => rw [List.cons_append, lastIndexOf, ih, List.length_cons]

/-- A prefix, behind the first dot of both. -/
theorem prefix_dot_iff {x y u v : Text} (hx : '.' ∉ x) (hy : '.' ∉ y) :
    x ++ '.' :: u <+: y ++ '.' :: v ↔ x = y ∧ u <+: v := by
  induction x generalizing y with
  | nil =>
    cases y with
    | nil => simp
    | cons d y =>
      rw [List.mem_cons, not_or] at hy
      simp [hy.1]
  | cons c x ih =>
    rw [List.mem_cons, not_or] at hx
    cases y with
    | nil =>
      rw [List.nil_append, List.cons_append, List.cons_prefix_cons]
      simp [Ne.symm hx.1]
    | cons d y =>
      rw [List.mem_cons, not_or] at hy
      rw [List.cons_append, List.cons_append, List.cons_prefix_cons, ih hx.2 hy.2, List.cons.injEq,
        and_assoc]

/-- A prefix without a dot. -/
theorem prefix_undotted_iff {u y v : Text} (hu : '.' ∉ u) :
    u <+: y ++ '.' :: v ↔ u <+: y := by
  constructor
  · intro h
    rcases List.prefix_or_prefix_of_prefix h (List.prefix_append y ('.' :: v)) with hu' | ⟨w, hw⟩
    · exact hu'
    · subst hw
      cases w with
      | nil => exact (List.append_nil y).symm ▸ List.prefix_rfl
      | cons c w =>
        rw [List.prefix_append_right_inj, List.cons_prefix_cons] at h
        exact absurd (by simp [h.1]) hu
  · intro h
    exact h.trans (List.prefix_append ..)

/-- Which addresses start with what is in front of the last dot of another one. -/
theorem network_prefix_iff (r q : Quad) : r.network <+: q.dotted ↔ near r q = true := by
  have hdigits : decimal r.c <+: decimal q.c ↔ q.c = r.c ∨
      (10 ≤ q.c.val ∧ q.c.val / 10 = r.c.val) ∨ (100 ≤ q.c.val ∧ q.c.val / 100 = r.c.val) := by
    rw [decimal_prefix_iff]
    constructor
    · intro ⟨k, hk, hlarge⟩
      have hsmall := q.c.isLt
      rcases k with _ | _ | _ | k
      · exact Or.inl (Fin.ext (by simpa using hk))
      · exact Or.inr (Or.inl ⟨by simpa using hlarge, by simpa using hk⟩)
      · exact Or.inr (Or.inr ⟨by simpa using hlarge, by simpa using hk⟩)
      · have hpow : 0 < 10 ^ k := Nat.pow_pos (by decide)
        omega
    · intro h
      rcases h with heq | ⟨hten, hdiv⟩ | ⟨hundred, hdiv⟩
      · exact ⟨0, by rw [heq, pow_zero, Nat.div_one], Or.inl rfl⟩
      · exact ⟨1, by simpa using hdiv, Or.inr (by simpa using hten)⟩
      · exact ⟨2, by simpa using hdiv, Or.inr (by simpa using hundred)⟩
  have hvalue : ∀ x y : Fin 256, decimal x = decimal y ↔ y = x := fun x y =>
    ⟨fun h => Fin.ext (decimal_injective h).symm, fun h => by rw [h]⟩
  unfold Quad.network Quad.dotted Quad.network near
  rw [List.append_assoc, List.cons_append, List.append_assoc, List.cons_append,
    prefix_dot_iff (dot_not_mem _) (dot_not_mem _), prefix_dot_iff (dot_not_mem _) (dot_not_mem _),
    prefix_undotted_iff (dot_not_mem _), hdigits, hvalue, hvalue]
  simp only [Bool.and_eq_true, Bool.or_eq_true, decide_eq_true_eq, and_assoc, or_assoc]

theorem single_eq_some {α : Type} {xs : List α} {x : α} : single xs = some x ↔ xs = [x] := by
  constructor
  · intro h
    rcases xs with _ | ⟨y, _ | ⟨z, xs⟩⟩
    · cases h
    · rw [Option.some.inj h]
    · cases h
  · intro h
    rw [h]
    rfl

/-- Digits and dots. -/
def Numeric (text : Text) : Prop := text.all (fun c => c.isDigit || c == '.') = true

theorem numeric_append {a b : Text} : Numeric (a ++ b) ↔ Numeric a ∧ Numeric b := by
  simp [Numeric, List.all_append]

theorem numeric_decimal (n : Nat) : Numeric (decimal n) :=
  List.all_eq_true.2 fun c hc => by rw [isDigit_of_mem_decimal hc]; rfl

theorem numeric_dot {text : Text} (h : Numeric text) : Numeric ('.' :: text) :=
  numeric_append.2 ⟨(rfl : Numeric ['.']), h⟩

theorem numeric_network (q : Quad) : Numeric q.network :=
  numeric_append.2 ⟨numeric_decimal _, numeric_dot (numeric_append.2
    ⟨numeric_decimal _, numeric_dot (numeric_decimal _)⟩)⟩

theorem numeric_dotted (q : Quad) : Numeric q.dotted :=
  numeric_append.2 ⟨numeric_network q, numeric_dot (numeric_decimal _)⟩

/-- Whatever addresses the PC has, one is found for a console exactly if there is one, and
only one, with the same first two numbers whose third one begins with the digits of the
console's third. -/
theorem findLocalIP_iff {startsWith : Text → Text → Bool}
    (hnumeric : ∀ text part, Numeric text → Numeric part →
      startsWith text part = part.isPrefixOf text)
    (qs : List Quad) (r : Quad) (ip : Text) :
    findLocalIP startsWith (qs.map Quad.dotted) r.dotted = some ip ↔
      ∃ q, qs.filter (near r) = [q] ∧ ip = q.dotted := by
  have hpart : r.dotted.take r.network.length = r.network := by
    unfold Quad.dotted
    rw [List.take_left]
  have hfilter : (qs.map Quad.dotted).filter (fun x => startsWith x r.network) =
      (qs.filter (near r)).map Quad.dotted := by
    rw [List.filter_map]
    congr 1
    apply List.filter_congr
    intro q _
    show startsWith q.dotted r.network = near r q
    rw [hnumeric _ _ (numeric_dotted q) (numeric_network r), Bool.eq_iff_iff,
      List.isPrefixOf_iff_prefix, network_prefix_iff]
  have hfind : findLocalIP startsWith (qs.map Quad.dotted) r.dotted =
      single ((qs.filter (near r)).map Quad.dotted) := by
    unfold findLocalIP
    rw [show lastIndexOf '.' r.dotted = some r.network.length from
      lastIndexOf_append r.network (dot_not_mem _)]
    show single (List.filter _ _) = _
    rw [hpart, hfilter]
  rw [hfind, single_eq_some, List.map_eq_singleton_iff]
  constructor
  · intro ⟨q, hq, heq⟩
    exact ⟨q, hq, heq.symm⟩
  · intro ⟨q, hq, heq⟩
    exact ⟨q, hq, heq.symm⟩

/-- A PC in the console's network and in another one whose number goes on. -/
def twoNetworks : List Quad := [⟨192, 168, 1, 5⟩, ⟨192, 168, 10, 7⟩]

theorem findLocalIP_iff_twoNetworks :
    findLocalIP (fun text part => part.isPrefixOf text) (twoNetworks.map Quad.dotted)
        (Quad.mk 192 168 1 20).dotted = some (Quad.mk 192 168 1 5).dotted ↔
      ∃ q, twoNetworks.filter (near ⟨192, 168, 1, 20⟩) = [q] ∧
        (Quad.mk 192 168 1 5).dotted = q.dotted :=
  findLocalIP_iff (fun _ _ _ _ => rfl) twoNetworks ⟨192, 168, 1, 20⟩ (Quad.mk 192 168 1 5).dotted

end DirectPackageInstaller.IPHelper
