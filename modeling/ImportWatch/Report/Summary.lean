import ImportWatch.Outcome
import ImportWatch.Report.Table

/-!
# ImportWatch.Report.Summary

The summary of an outcome as plain text.

Every pattern is listed with its number of findings, then every package that
has findings, then how many packages have some and how many have none.
-/

namespace ImportWatch.Report

open Text

/-- The packages with findings, most findings first. -/
def affected (o : Outcome) : List (Text × Nat) := o.packageCounts.ranked.filter fun e => e.2 != 0

/-- The number of packages without findings. -/
def unaffectedCount (o : Outcome) : Nat := o.packageCounts.ranked.countP fun e => e.2 == 0

/-- A name with its number. -/
def countLine (e : Text × Nat) : Text := e.1 ++ ": ".toList ++ Nat.toDigits 10 e.2

/-- The lines of the summary. -/
def summaryLines (o : Outcome) : List Text :=
  ["===== Patterns =====".toList, "Total instances of each import pattern:".toList] ++
    o.patternCounts.ranked.map countLine ++
    ["===== Crate Summary =====".toList, "Number of dangerous imports by crate:".toList] ++
    (affected o).map countLine ++
    ["===== Crate Totals =====".toList,
      Nat.toDigits 10 (affected o).length ++ " crates with 1 or more dangerous imports".toList,
      Nat.toDigits 10 (unaffectedCount o) ++ " crates with 0 dangerous imports".toList]

/-- The summary of an outcome as plain text. -/
def summary (o : Outcome) : Text := unlines (summaryLines o)

end ImportWatch.Report
