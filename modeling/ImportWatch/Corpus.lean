import ImportWatch.Chain
import ImportWatch.Disk.Sources
import ImportWatch.Outcome
import ImportWatch.Totals

/-!
# ImportWatch.Corpus

Scanning packages whose sources lie in folders of their own.

The sources of a package are in `<packages folder>/<package>/<source folder>`.
A package without that folder fails, which touches no other package.

* `scanFolder` scans the sources in one folder;
* `scanPackages` scans some packages and puts the results together.
-/

namespace ImportWatch

/-- What is looked for in which files. -/
structure Scope where
  watch : Watchlist
  /-- The extensions of source files, without the dot. -/
  extensions : List Text
  deriving DecidableEq, Repr

/-- The package whose folder of sources is missing, and where the folder should be. -/
structure MissingSources where
  package : Text
  root : Text
  deriving DecidableEq, Repr

/-- What failed and why, from the outside in. -/
def MissingSources.chain (e : MissingSources) : Chain :=
  ["Failed to collect sources of ".toList ++ e.package,
    "Source directory not found: ".toList ++ e.root]

/-- Scans the sources in the folder at a path. -/
def scanFolder (d : Disk) (scope : Scope) (package root : Text) : Except MissingSources Survey :=
  match d.sources? scope.extensions root with
  | none => .error ⟨package, root⟩
  | some files =>
    .ok (.ofFiles scope.watch package (files.map fun f => (f.1, Utf8.decodeLossy f.2)))

/-- Where the sources of packages are. -/
structure Places where
  packagesFolder : Text
  sourceFolder : Text
  deriving DecidableEq, Repr

/-- The path of the sources of a package. -/
def Places.root (p : Places) (package : Text) : Text :=
  PathText.clean (PathText.join (PathText.join p.packagesFolder package) p.sourceFolder)

/-- What became of a package. -/
abbrev PackageResult := Except MissingSources Survey

namespace PackageResult

/-- The findings in a package; none in one that could not be scanned. -/
def findings : PackageResult → List Finding
  | .ok v => v.findings
  | .error _ => []

/-- The notices about a package; none about one that could not be scanned. -/
def notices : PackageResult → List Notice
  | .ok v => v.notices
  | .error _ => []

/-- The number of files of a package that were read. -/
def filesRead : PackageResult → Nat
  | .ok v => v.filesRead
  | .error _ => 0

/-- What a package adds to the totals. -/
def increments : PackageResult → List Increment
  | .ok v => v.increments
  | .error _ => []

/-- The failure of a package that could not be scanned. -/
def failure? : PackageResult → Option Failure
  | .ok _ => none
  | .error e => some ⟨e.package, e.chain.message⟩

end PackageResult

/-- Puts the results of packages together with the counters of the totals. -/
def Outcome.ofResults (t : Totals) (results : List PackageResult) : Outcome where
  findings := results.flatMap PackageResult.findings
  packageCounts := t.packages
  patternCounts := t.patterns
  notices := results.flatMap PackageResult.notices
  failures := results.filterMap PackageResult.failure?
  filesRead := results.foldr (fun r n => r.filesRead + n) 0

/-- Scans one package. -/
def scanPackage (d : Disk) (scope : Scope) (places : Places) (package : Text) : PackageResult :=
  scanFolder d scope package (places.root package)

/-- Scans some packages, in order. -/
def scanPackages (d : Disk) (scope : Scope) (places : Places) (packages : List Text) : Outcome :=
  let results := packages.map (scanPackage d scope places)
  .ofResults ((Totals.start packages scope.watch).applyAll
    (results.flatMap PackageResult.increments)) results

end ImportWatch
