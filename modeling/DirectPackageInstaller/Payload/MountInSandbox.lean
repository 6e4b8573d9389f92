import DirectPackageInstaller.Host.PkgInfo.Bounds

/-!
# Mounting into the sandbox

`do_mount_in_sandbox` of `utils.c` joins the current directory and a name in an array of
the stack, checks the name and mounts a directory there, or unmounts it.  Every index is
checked.

* `doMountInSandbox_eq`: no access leaves its array.  A name is refused exactly if it has
  a slash or the path does not fit, and any other one makes the system calls at the
  directory, a slash and the name.

The check for names of dots never refuses one: its loop looks at the terminator too,
which is not a dot.
-/

namespace DirectPackageInstaller.Payload

open CArray PkgInfo PkgInfo.Arrays

/-! ## The code -/

/-- A system call with its texts. -/
inductive SysCall where
  | mkdir (path : List UInt8)
  | nmount (fspath target : List UInt8)
  | rmdir (path : List UInt8)
  | unmount (path : List UInt8)
deriving DecidableEq, Repr

/-- What the system answers.  `getcwd` writes a text that fits, or answers with an
error. -/
structure Answers where
  getcwd : Except Int (List UInt8)
  answer : SysCall → Int

def maxPath : Nat := 1024

def einval : Int := 22

/-- The loop over the name, `n` characters of which are left; `none` is
`goto invalid`. -/
def nameLoop (name path : List UInt8) (l1 i : Nat) (dots : Bool) :
    Nat → Except Fault (Option (List UInt8 × Bool))
  | 0 => .ok (some (path, dots))
  | n + 1 => do
    let c ← get name i
    if c = 47 then return none
    else
      let path ← put path (l1 + 1 + i) c
      nameLoop name path l1 (i + 1) (if c ≠ 46 then false else dots) n

/-- Behind the checks: the answer and the system calls.  `target` is `p->path`, and its
absence an unmount. -/
def mountAt (sys : Answers) (path : List UInt8) : Option (List UInt8) → Int × List SysCall
  | some target =>
    let error := sys.answer (.mkdir path)
    if error ≠ 0 then (error, [.mkdir path])
    else
      let error := sys.answer (.nmount path target)
      if error ≠ 0 then (error, [.mkdir path, .nmount path target, .rmdir path])
      else (0, [.mkdir path, .nmount path target])
  | none =>
    let error := sys.answer (.unmount path)
    if error ≠ 0 then (error, [.unmount path])
    else
      let error := sys.answer (.rmdir path)
      if error ≠ 0 then (error, [.unmount path, .rmdir path])
      else (0, [.unmount path, .rmdir path])

/-- `do_mount_in_sandbox` with the array `stack` for `path`: `p->ans` and the system
calls. -/
def doMountInSandbox (sys : Answers) (stack name : List UInt8) (target : Option (List UInt8)) :
    Except Fault (Int × List SysCall) := do
  let path ← put stack maxPath 0
  match sys.getcwd with
  | .error error => return (error, [])
  | .ok cwd =>
    let path := cwd ++ 0 :: path.drop (cwd.length + 1)
    let l1 ← strlen path
    let l2 ← strlen name
    if l1 + l2 + 1 ≥ maxPath then return (einval, [])
    else
      let path ← put path l1 47
      match ← nameLoop name path l1 0 true (l2 + 1) with
      | none => return (einval, [])
      | some (path, dots) =>
        if dots && l2 ≤ 2 then return (einval, [])
        else return mountAt sys (cString path) target

/-! ## The path -/

/-- The loop copies the name with its terminator, unless it meets a slash.  The
terminator is not a dot. -/
theorem nameLoop_eq (l1 : Nat) (text rest : List UInt8) (hnul : 0 ∉ text)
    (done front back : List UInt8) (hfront : front.length = l1 + 1 + done.length)
    (hroom : text.length + 1 ≤ back.length)
    (dots : Bool) :
    nameLoop (done ++ (text ++ 0 :: rest)) (front ++ back) l1 done.length dots (text.length + 1) =
      .ok (if 47 ∈ text then none
        else some (front ++ text ++ 0 :: back.drop (text.length + 1), false)) := by
  induction text generalizing done front back dots with
  | nil =>
    obtain ⟨b, back, rfl⟩ := List.exists_cons_of_length_pos (l := back) (by omega)
    have hput := put_at front b 0 back
    rw [hfront] at hput
    rw [List.nil_append, List.length_nil, nameLoop, get_at]
    show (do
      if (0 : UInt8) = 47 then return none
      else
        let path ← put (front ++ b :: back) (l1 + 1 + done.length) 0
        nameLoop _ path l1 (done.length + 1) (if (0 : UInt8) ≠ 46 then false else dots) 0) = _
    rw [if_neg (by decide), hput, if_neg (c := 47 ∈ []) (by simp), List.append_nil]
    rfl
  | cons c text ih =>
    obtain ⟨b, back, rfl⟩ := List.exists_cons_of_length_pos (l := back) (by simp at hroom; omega)
    rw [List.mem_cons, not_or] at hnul
    rw [List.cons_append, List.length_cons, nameLoop, get_at]
    by_cases hc : c = 47
    · subst hc
      rw [if_pos List.mem_cons_self]
      rfl
    · have hput := put_at front b c back
      rw [hfront] at hput
      have hnext := ih hnul.2 (done ++ [c]) (front ++ [c]) back
        (by rw [List.length_append, List.length_append, hfront]; rfl)
        (by simp only [List.length_cons] at hroom; omega)
        (if c ≠ 46 then false else dots)
      rw [List.append_assoc, List.singleton_append, List.length_append, List.length_singleton,
        List.append_assoc front, List.singleton_append] at hnext
      show (do
        if c = 47 then return none
        else
          let path ← put (front ++ b :: back) (l1 + 1 + done.length) c
          nameLoop _ path l1 (done.length + 1) (if c ≠ 46 then false else dots) _) = _
      rw [if_neg hc, hput]
      refine hnext.trans ?_
      have hmem : 47 ∈ c :: text ↔ 47 ∈ text := by
        rw [List.mem_cons, or_iff_right (Ne.symm hc)]
      rw [List.drop_succ_cons]
      simp only [hmem, List.append_assoc, List.cons_append, List.nil_append]

/-- For every name and directory the array is large enough, a name is refused exactly if
it has a slash or is too long, and the system calls are made at the directory and the
name otherwise. -/
theorem doMountInSandbox_eq (sys : Answers) {stack text rest cwd : List UInt8}
    (target : Option (List UInt8)) (hstack : stack.length = maxPath + 1) (hnul : 0 ∉ text)
    (hcwd : sys.getcwd = .ok cwd) (hcwd' : 0 ∉ cwd) (hfits : cwd.length < maxPath) :
    doMountInSandbox sys stack (text ++ 0 :: rest) target =
      .ok (if 47 ∈ text ∨ maxPath ≤ cwd.length + text.length + 1 then (einval, [])
        else mountAt sys (cwd ++ 47 :: text) target) := by
  have hput : put stack maxPath 0 = .ok (stack.set maxPath 0) := if_pos (by omega)
  unfold doMountInSandbox
  rw [hput, hcwd]
  generalize hback : (stack.set maxPath 0).drop (cwd.length + 1) = back
  have hlength : back.length = maxPath - cwd.length := by
    rw [← hback, List.length_drop, List.length_set, hstack]
    omega
  show (do
    let l1 ← strlen (cwd ++ 0 :: (stack.set maxPath 0).drop (cwd.length + 1))
    _) = _
  rw [hback, strlen_eq back hcwd']
  show (do
    let l2 ← strlen (text ++ 0 :: rest)
    _) = _
  rw [strlen_eq rest hnul]
  show (if cwd.length + text.length + 1 ≥ maxPath then _ else _) = _
  by_cases hlong : cwd.length + text.length + 1 ≥ maxPath
  · rw [if_pos hlong, if_pos (Or.inr hlong)]
    rfl
  · have hslash := put_at cwd 0 47 back
    have hloop := nameLoop_eq cwd.length text rest hnul [] (cwd ++ [47]) back
      (by simp) (by omega) true
    rw [List.nil_append, List.length_nil, List.append_assoc, List.singleton_append] at hloop
    rw [if_neg hlong, hslash]
    show (do
      match ← nameLoop (text ++ 0 :: rest) (cwd ++ 47 :: back) cwd.length 0 true
        (text.length + 1) with
      | none => return (einval, [])
      | some (path, dots) =>
        if dots && text.length ≤ 2 then return (einval, [])
        else return mountAt sys (cString path) target) = _
    rw [hloop]
    by_cases hmem : 47 ∈ text
    · rw [if_pos hmem, if_pos (Or.inl hmem)]
      rfl
    · rw [if_neg hmem, if_neg fun hor => hor.elim hmem hlong]
      have htext : cString (cwd ++ 47 :: text ++ 0 :: back.drop (text.length + 1)) =
          cwd ++ 47 :: text := by
        rw [cString, List.takeWhile_append_of_pos, List.takeWhile_cons_of_neg (by simp),
          List.append_nil]
        intro c hc
        rcases List.mem_append.1 hc with hc | hc
        · exact decide_eq_true fun hzero => hcwd' (hzero ▸ hc)
        · rcases List.mem_cons.1 hc with rfl | hc
          · decide
          · exact decide_eq_true fun hzero => hnul (hzero ▸ hc)
      rw [List.append_assoc cwd, List.singleton_append]
      show Except.ok (mountAt sys (cString _) target) = _
      rw [htext]

/-- A system that answers every call with success. -/
def sandbox : Answers := ⟨.ok (chars "/mnt/sandbox"), fun _ => 0⟩

/-- The name of the parent directory is not refused. -/
theorem doMountInSandbox_eq_dots :
    doMountInSandbox sandbox (zeroed 1025) (chars ".." ++ 0 :: []) none =
      .ok (if 47 ∈ chars ".." ∨
          maxPath ≤ (chars "/mnt/sandbox").length + (chars "..").length + 1 then (einval, [])
        else mountAt sandbox (chars "/mnt/sandbox" ++ 47 :: chars "..") none) :=
  doMountInSandbox_eq sandbox none (List.length_replicate ..) (by decide) rfl (by decide)
    (by decide)

end DirectPackageInstaller.Payload
