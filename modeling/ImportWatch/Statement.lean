import ImportWatch.Grammar

/-!
# ImportWatch.Statement

Putting the statements of a source text together from its lines.

A statement starts on a line that begins with the keyword and runs to the
first line with a terminator outside of a line comment.  Where the keyword
follows that terminator on the same line, the line is cut there and the next
statement starts.  Lines outside of statements are passed over.  A statement
that the text leaves open gets a terminator on a line of its own.

* `cutLine` cuts a line into the parts of different statements;
* `readLine` is the step of the reader: from the draft that the lines before
  left open to the statements that the line ends and the draft that it leaves;
* `Statement.ofSource` reads a whole text.
-/

namespace ImportWatch

open Text

/-- One statement of a source text. -/
structure Statement where
  /-- The number of the line that it starts on; the first line is 1. -/
  line : Nat
  /-- Its lines, with line feeds between them. -/
  text : Text
  /-- True when the source ended first and the terminator was added. -/
  unfinished : Bool
  deriving DecidableEq, Repr

/-- A statement that is being read. -/
structure Draft where
  line : Nat
  text : Text
  deriving DecidableEq, Repr

namespace Draft

/-- The draft with one more line. -/
def extend (d : Draft) (piece : Text) : Draft := { d with text := d.text ++ '\n' :: piece }

/-- The statement that a draft has become. -/
def finish (d : Draft) : Statement := ⟨d.line, d.text, false⟩

/-- The statement for a draft that the source left open. -/
def abandon (d : Draft) : Statement := ⟨d.line, d.text ++ ['\n', terminator], true⟩

end Draft

/-- The parts of a line that belong to different statements: a cut is made
behind the first terminator of a part when another statement follows. -/
def cutLine (line : Text) : Text × List Text :=
  match _h : splitTerminator? line with
  | none => (line, [])
  | some (ended, rest) =>
    if startsStatement (trimStart rest) then
      let (part, parts) := cutLine (trimStart rest)
      (ended, part :: parts)
    else (line, [])
termination_by line.length
decreasing_by
  have ⟨hl, hne⟩ := append_of_splitTerminator? _h
  have := length_trimStart_le rest
  have := List.length_pos_iff.2 hne
  simp only [hl, List.length_append]
  omega

/-- Closes the draft that holds the first part of line `n` and those that the
other parts start; the last of them stays open when it has no terminator. -/
def closeParts (n : Nat) (d : Draft) (part : Text) : List Text → List Statement × Option Draft
  | [] => if isTerminated part then ([d.finish], none) else ([], some d)
  | next :: parts =>
    let (done, left) := closeParts n ⟨n, next⟩ next parts
    (d.finish :: done, left)

/-- Reads line `n`, given the draft that the lines before it left open. -/
def readLine (left : Option Draft) (n : Nat) (line : Text) : List Statement × Option Draft :=
  let (part, parts) := cutLine line
  match left with
  | some d => closeParts n (d.extend part) part parts
  | none => if startsStatement line then closeParts n ⟨n, part⟩ part parts else ([], none)

/-- Reads the lines from number `n` on. -/
def readLines (left : Option Draft) (n : Nat) : List Text → List Statement
  | [] => (left.map Draft.abandon).toList
  | line :: rest =>
    let (done, left) := readLine left n line
    done ++ readLines left (n + 1) rest

/-- The statements of a source text, in order. -/
def Statement.ofSource (source : Text) : List Statement := readLines none 1 (lines source)

end ImportWatch
