import ImportWatch.Text.Pieces

/-!
# ImportWatch.Chain

Failures as chains of texts: what failed first, then why, from the outside in.

* `message` tells a chain on one line;
* `report` tells it on several lines, the causes below what failed.
-/

namespace ImportWatch

open Text

/-- What failed and why, from the outside in. -/
abbrev Chain := List Text

namespace Chain

/-- A chain on one line. -/
def message (c : Chain) : Text := List.intercalate [':', ' '] c

/-- The lines of the causes, numbered when there are several. -/
def causeLines : List Text → List Text
  | [cause] => ["    ".toList ++ cause]
  | causes => causes.zipIdx.map fun (cause, i) =>
      "    ".toList ++ Nat.toDigits 10 i ++ ": ".toList ++ cause

/-- A chain on several lines. -/
def report : Chain → Text
  | [] => []
  | [what] => unlines ["Error: ".toList ++ what]
  | what :: causes =>
    unlines (["Error: ".toList ++ what, [], "Caused by:".toList] ++ causeLines causes)

end Chain

end ImportWatch
