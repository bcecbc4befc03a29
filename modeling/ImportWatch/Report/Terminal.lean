import ImportWatch.Report.Style
import ImportWatch.Report.Summary

/-!
# ImportWatch.Report.Terminal

The overview of an outcome on the terminal.

It tells the number of findings, the findings of each pattern, the ten
packages with most findings and how many more there are, the packages that
could not be scanned, and the notices by kind.
-/

namespace ImportWatch.Report

open Text

/-- The number of packages that the overview names. -/
def namedPackages : Nat := 10

/-- The number of packages without findings. -/
def cleanCount (o : Outcome) : Nat := o.packageCounts.entries.length - (affected o).length

/-- The lines that tell the number of findings. -/
def headline (color : Bool) (o : Outcome) : List Text :=
  let n := o.findings.length
  if n = 0 then [paint color .boldGreen ['✓'] ++ " No watched imports found".toList]
  else
    [paint color .boldYellow ['⚠'] ++ " Found ".toList ++
        paint color .boldYellow (Nat.toDigits 10 n) ++ " watched imports".toList,
      []]

/-- The line of a pattern. -/
def patternLine (color : Bool) (e : Text × Nat) : Text :=
  ' ' :: ' ' :: paint color .blue e.1 ++
    ' ' :: paint color (if e.2 = 0 then .dimmed else .red) (Nat.toDigits 10 e.2)

/-- The line of a package with findings. -/
def packageLine (color : Bool) (e : Text × Nat) : Text :=
  ' ' :: ' ' :: paint color .brightWhite e.1 ++ ' ' :: paint color .red (Nat.toDigits 10 e.2)

/-- The lines of the packages with findings. -/
def packageLines (color : Bool) (o : Outcome) : List Text :=
  let es := affected o
  (es.take namedPackages).map (packageLine color) ++
    (if namedPackages < es.length then
      [' ' :: ' ' :: paint color .dimmed
        ("... and ".toList ++ Nat.toDigits 10 (es.length - namedPackages) ++ " more".toList)]
    else []) ++
    [' ' :: ' ' :: paint color .yellow (Nat.toDigits 10 es.length) ++
      " with watched imports, ".toList ++ paint color .green (Nat.toDigits 10 (cleanCount o)) ++
      " without".toList]

/-- The line of a package that could not be scanned. -/
def failureLine (color : Bool) (f : Failure) : Text :=
  ' ' :: ' ' :: paint color .red ['✗'] ++
    ' ' :: f.package ++ ": ".toList ++ paint color .dimmed f.reason

/-- The lines that count the notices by kind. -/
def noticeLines (color : Bool) (o : Outcome) : List Text :=
  if o.notices.isEmpty then []
  else
    [paint color .dimmed (List.replicate 60 '─'), paint color .bold "Diagnostics".toList] ++
      o.kindCounts.map fun (k, n) =>
        ' ' :: ' ' :: k.title ++ ": ".toList ++ paint color .yellow (Nat.toDigits 10 n)

/-- The lines of the overview. -/
def overviewLines (color : Bool) (o : Outcome) : List Text :=
  headline color o ++
    [paint color .bold "Patterns".toList] ++
    o.patternCounts.ranked.map (patternLine color) ++
    [[], paint color .bold "Packages".toList] ++
    packageLines color o ++
    o.failures.map (failureLine color) ++
    noticeLines color o

/-- The overview of an outcome on the terminal. -/
def overview (color : Bool) (o : Outcome) : Text := unlines (overviewLines color o)

end ImportWatch.Report
