import ImportWatch.Counts
import ImportWatch.Notice

/-!
# ImportWatch.Outcome

What a scan of several packages comes to.

The counters by package and by pattern are kept apart from the findings, so
that they can be checked against each other: an outcome is accepted when both
sums are the number of findings.  The sums are machine words.  In a release
build they wrap around (`checkTotals`); in a build that checks additions one
that overflows ends the program (`checkTotals?`, without an answer).  A list of
findings is never longer than a machine word can tell.
-/

namespace ImportWatch

/-- A package that could not be scanned, and why. -/
structure Failure where
  package : Text
  reason : Text
  deriving DecidableEq, Repr

/-- The result of scanning several packages. -/
structure Outcome where
  /-- In the order of the packages, then of their files, then of the statements. -/
  findings : List Finding
  /-- Findings by package; every package that was asked for has a counter. -/
  packageCounts : Counts
  /-- Findings by pattern; every pattern of the watchlist has a counter. -/
  patternCounts : Counts
  notices : List Notice
  failures : List Failure
  filesRead : Nat
  deriving DecidableEq

/-- The three numbers that should agree and do not. -/
structure CountMismatch where
  byPackage : Nat
  byPattern : Nat
  findings : Nat
  deriving DecidableEq, Repr

/-- The wording of a mismatch. -/
def CountMismatch.message (m : CountMismatch) : Text :=
  "Count mismatch: ".toList ++ Nat.toDigits 10 m.byPackage ++ " by package, ".toList ++
    Nat.toDigits 10 m.byPattern ++ " by pattern, ".toList ++ Nat.toDigits 10 m.findings ++
    " records".toList

namespace Outcome

/-- Compares the two sums of counters and the number of findings. -/
def compareTotals (byPackage byPattern findings : Nat) : Except CountMismatch Unit :=
  if byPackage = byPattern ∧ byPattern = findings then .ok ()
  else .error ⟨byPackage, byPattern, findings⟩

/-- Checks that both sums of counters, which wrap around, are the number of findings. -/
def checkTotals (o : Outcome) : Except CountMismatch Unit :=
  compareTotals o.packageCounts.wrappedTotal o.patternCounts.wrappedTotal
    (o.findings.length % wordSize)

/-- Checks that both sums of counters are the number of findings, unless one of them overflows. -/
def checkTotals? (o : Outcome) : Option (Except CountMismatch Unit) := do
  let byPackage ← o.packageCounts.checkedTotal?
  let byPattern ← o.patternCounts.checkedTotal?
  return compareTotals byPackage byPattern o.findings.length

theorem compareTotals_eq_ok_iff {byPackage byPattern findings : Nat} :
    compareTotals byPackage byPattern findings = .ok () ↔
      byPackage = findings ∧ byPattern = findings := by
  rw [compareTotals]
  split
  · rename_i h
    exact iff_of_true rfl ⟨h.1.trans h.2, h.2⟩
  · rename_i h
    exact iff_of_false nofun fun h' => h ⟨h'.1.trans h'.2.symm, h'.2⟩

/-- A check whose sums wrap around compares the sums up to multiples of the word size. -/
theorem checkTotals_eq_ok_iff (o : Outcome) :
    o.checkTotals = .ok () ↔
      o.packageCounts.total % wordSize = o.findings.length % wordSize ∧
        o.patternCounts.total % wordSize = o.findings.length % wordSize := by
  rw [checkTotals, compareTotals_eq_ok_iff, Counts.wrappedTotal_eq, Counts.wrappedTotal_eq]

/-- A check that stops at an overflow accepts the sums that are the number of findings. -/
theorem checkTotals?_eq_ok_iff (o : Outcome) :
    o.checkTotals? = some (.ok ()) ↔ o.packageCounts.total = o.findings.length ∧
      o.patternCounts.total = o.findings.length ∧ o.findings.length < wordSize := by
  rw [checkTotals?, Counts.checkedTotal?_eq, Counts.checkedTotal?_eq]
  by_cases hpackage : o.packageCounts.total < wordSize
  · by_cases hpattern : o.patternCounts.total < wordSize
    · rw [if_pos hpackage, if_pos hpattern]
      simp only [Option.bind_eq_bind, Option.bind_some, Option.pure_def, Option.some.injEq,
        compareTotals_eq_ok_iff]
      exact ⟨fun h => ⟨h.1, h.2, h.1 ▸ hpackage⟩, fun h => ⟨h.1, h.2.1⟩⟩
    · rw [if_pos hpackage, if_neg hpattern]
      exact iff_of_false nofun fun h => hpattern (h.2.1 ▸ h.2.2)
  · rw [if_neg hpackage]
    exact iff_of_false nofun fun h => hpackage (h.1 ▸ h.2.2)

/-- The kinds of notices that occur, each with its number. -/
def kindCounts (o : Outcome) : List (NoticeKind × Nat) := ImportWatch.kindCounts o.notices

/-- The outcome with more notices behind its own. -/
def addNotices (o : Outcome) (notices : List Notice) : Outcome :=
  { o with notices := o.notices ++ notices }

end Outcome

end ImportWatch
