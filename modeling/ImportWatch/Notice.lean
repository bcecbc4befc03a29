import ImportWatch.ModulePath
import ImportWatch.PathText

/-!
# ImportWatch.Notice

What a scan finds, and what it has to say about its input.

* A `Finding` is one import of a watched module;
* a `Notice` is a problem that did not stop the scan: a statement that was
  rejected, one that the file left open, a path that several patterns cover,
  or a field that lost its commas in a report;
* `kindCounts` counts notices by kind.
-/

namespace ImportWatch

open Text

/-- One import of a watched module. -/
structure Finding where
  package : Text
  /-- The text of the pattern that labels the import. -/
  pattern : Text
  file : Text
  line : Nat
  /-- The statement that the import comes from, on one line. -/
  statement : Text
  path : ModulePath
  deriving DecidableEq, Repr

namespace Finding

/-- The directory that holds the file of a finding. -/
def directory (f : Finding) : Text := (PathText.parent? f.file).getD []

/-- The name of the file of a finding. -/
def fileName (f : Finding) : Text := (PathText.fileName? f.file).getD []

end Finding

/-- The kinds of notices. -/
inductive NoticeKind where
  | malformed
  | unfinished
  | ambiguous
  | lossy
  deriving DecidableEq, Repr

namespace NoticeKind

/-- All kinds, in the order in which they are listed. -/
def all : List NoticeKind := [malformed, unfinished, ambiguous, lossy]

/-- The name of a kind on the terminal. -/
def title : NoticeKind → Text
  | malformed => "MalformedStatement".toList
  | unfinished => "TruncatedInput".toList
  | ambiguous => "AmbiguousMatch".toList
  | lossy => "SanitizationLoss".toList

/-- The name of a kind in machine-readable reports. -/
def key : NoticeKind → Text
  | malformed => "malformed_statement".toList
  | unfinished => "truncated_input".toList
  | ambiguous => "ambiguous_match".toList
  | lossy => "sanitization_loss".toList

theorem mem_all (k : NoticeKind) : k ∈ all := by cases k <;> decide

end NoticeKind

/-- A problem that did not stop the scan. -/
inductive Notice where
  /-- A statement was rejected. -/
  | malformed (file : Text) (line : Nat) (statement : Text) (reason : Rejection)
  /-- The file ended in a statement, and a terminator was added. -/
  | unfinished (file : Text) (line : Nat) (statement : Text)
  /-- Several patterns cover a path; the first one was kept. -/
  | ambiguous (file : Text) (line : Nat) (statement : Text) (path : ModulePath) (chosen : Text)
      (others : List Text)
  /-- A field of a report row lost its commas. -/
  | lossy (package field value : Text)
  deriving DecidableEq, Repr

namespace Notice

/-- The kind of a notice. -/
def kind : Notice → NoticeKind
  | malformed .. => .malformed
  | unfinished .. => .unfinished
  | ambiguous .. => .ambiguous
  | lossy .. => .lossy

/-- The place that a notice is about. -/
def place (file : Text) (line : Nat) : Text := file ++ ':' :: Nat.toDigits 10 line

/-- The wording of a notice. -/
def message : Notice → Text
  | malformed file line statement reason =>
    place file line ++ ": skipping malformed statement (".toList ++ reason.message ++
      "): ".toList ++ statement
  | unfinished file line statement =>
    place file line ++ ": file ended during statement, adding implicit ';': ".toList ++ statement
  | ambiguous file line statement path chosen others =>
    place file line ++ ": '".toList ++ path.text ++
      "' matched multiple patterns, keeping '".toList ++ chosen ++ "' over [".toList ++
      List.intercalate [',', ' '] others ++ "]: ".toList ++ statement
  | lossy package field value =>
    package ++ ": stripped ',' from ".toList ++ field ++ " field: ".toList ++ value

end Notice

/-- How many notices are of a kind. -/
def kindCount (notices : List Notice) (kind : NoticeKind) : Nat :=
  notices.countP fun n => n.kind == kind

/-- The kinds that occur among some notices, each with its number. -/
def kindCounts (notices : List Notice) : List (NoticeKind × Nat) :=
  (NoticeKind.all.map fun k => (k, kindCount notices k)).filter fun e => e.2 != 0

end ImportWatch
