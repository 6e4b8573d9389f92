import DirectPackageInstaller.Lib.Text

/-!
# Lines of a text file

`File.WriteAllLines` ends every line with the platform's line break, and
`File.ReadAllLines` cuts at any of the three line breaks.  Lines without a line
break are read back as they were written (`readAllLines_writeAllLines`).
-/

namespace Text

/-- The line breaks that a platform writes. -/
inductive NewLine where
  | lf
  | crlf
deriving DecidableEq, Repr

/-- `Environment.NewLine`. -/
def NewLine.text : NewLine → Text
  | .lf => ['\n']
  | .crlf => ['\r', '\n']

/-- `File.WriteAllLines(path, lines)`: the text of the file. -/
def writeAllLines (newLine : NewLine) (lines : List Text) : Text :=
  lines.flatMap fun line => line ++ newLine.text

/-- The lines of a text, behind the characters `pending` of the first line in
reverse order. -/
def splitLines (pending : Text) : Text → List Text
  | [] => if pending = [] then [] else [pending.reverse]
  | '\r' :: '\n' :: rest => pending.reverse :: splitLines [] rest
  | c :: rest =>
    if c = '\n' ∨ c = '\r' then pending.reverse :: splitLines [] rest
    else splitLines (c :: pending) rest

/-- `File.ReadAllLines(path)`. -/
def readAllLines (text : Text) : List Text :=
  splitLines [] text

/-- A text without line breaks. -/
structure OneLine (text : Text) : Prop where
  no_lf : '\n' ∉ text
  no_cr : '\r' ∉ text

theorem oneLine_nil : OneLine [] :=
  ⟨List.not_mem_nil, List.not_mem_nil⟩

theorem oneLine_append {text text' : Text} (h : OneLine text) (h' : OneLine text') :
    OneLine (text ++ text') where
  no_lf := by
    rw [List.mem_append]
    exact fun hmem => hmem.elim h.no_lf h'.no_lf
  no_cr := by
    rw [List.mem_append]
    exact fun hmem => hmem.elim h.no_cr h'.no_cr

theorem splitLines_append {line : Text} (h : OneLine line) (pending rest : Text) :
    splitLines pending (line ++ rest) = splitLines (line.reverse ++ pending) rest := by
  induction line generalizing pending with
  | nil => rfl
  | cons c line ih =>
    have hlf := h.no_lf
    have hcr := h.no_cr
    rw [List.mem_cons, not_or] at hlf hcr
    have hplain : ¬ (c = '\n' ∨ c = '\r') := by
      rintro (heq | heq)
      · exact hlf.1 heq.symm
      · exact hcr.1 heq.symm
    have hstep : splitLines pending (c :: (line ++ rest)) =
        splitLines (c :: pending) (line ++ rest) := by
      rw [splitLines, if_neg hplain]
      rintro rest' rfl
      exact absurd rfl hcr.1
    rw [List.cons_append, hstep, ih ⟨hlf.2, hcr.2⟩, List.reverse_cons, List.append_assoc]
    rfl

theorem splitLines_newLine (newLine : NewLine) (pending rest : Text) :
    splitLines pending (newLine.text ++ rest) = pending.reverse :: splitLines [] rest := by
  cases newLine <;> rfl

/-- Lines without line breaks are read back. -/
theorem readAllLines_writeAllLines (newLine : NewLine) {lines : List Text}
    (h : ∀ line ∈ lines, OneLine line) :
    readAllLines (writeAllLines newLine lines) = lines := by
  induction lines with
  | nil => rfl
  | cons line lines ih =>
    have hfirst := h line (List.mem_cons_self ..)
    have hrest := ih fun l hl => h l (List.mem_cons_of_mem _ hl)
    rw [readAllLines, writeAllLines, List.flatMap_cons, List.append_assoc,
      splitLines_append hfirst, splitLines_newLine, List.append_nil, List.reverse_reverse]
    exact congrArg (line :: ·) hrest

end Text
