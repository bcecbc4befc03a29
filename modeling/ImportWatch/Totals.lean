import ImportWatch.Counts
import ImportWatch.Survey

/-!
# ImportWatch.Totals

Counting findings by package and by pattern while packages are scanned.

The counters start at zero for every package and every pattern.  A package
that was scanned adds to the counters by a series of increments, one for the
package and one for the pattern of each finding; a package that could not be
scanned adds nothing.
-/

namespace ImportWatch

/-- Counters by package and by pattern. -/
structure Totals where
  packages : Counts
  patterns : Counts
  deriving DecidableEq

/-- A single change of the totals. -/
inductive Increment where
  /-- Adds the number of its findings to the counter of a package. -/
  | package (name : Text) (n : Nat)
  /-- Adds one to the counter of a pattern. -/
  | pattern (name : Text)
  deriving DecidableEq, Repr

namespace Totals

/-- Counters at zero for some packages and all patterns of a watchlist. -/
def start (packages : List Text) (watch : Watchlist) : Totals :=
  ⟨.zeros packages, .zeros watch.texts⟩

/-- The totals after one increment. -/
def apply (t : Totals) : Increment → Totals
  | .package name n => { t with packages := t.packages.add name n }
  | .pattern name => { t with patterns := t.patterns.add name 1 }

/-- The totals after some increments, in order. -/
def applyAll (t : Totals) (is : List Increment) : Totals := is.foldl apply t

theorem applyAll_append (t : Totals) (is js : List Increment) :
    t.applyAll (is ++ js) = (t.applyAll is).applyAll js := by
  simp [applyAll, List.foldl_append]

end Totals

/-- The increments of a package that was scanned. -/
def Survey.increments (v : Survey) : List Increment :=
  .package v.package v.findings.length :: v.findings.map fun f => .pattern f.pattern

end ImportWatch
