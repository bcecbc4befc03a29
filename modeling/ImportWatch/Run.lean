import ImportWatch.Corpus
import ImportWatch.Options
import ImportWatch.Roster

/-!
# ImportWatch.Run

Carrying out the scan that a command line asks for.

The packages are those that are named, or the first ones of a package list.
-/

namespace ImportWatch

/-- Why a scan cannot be carried out. -/
inductive RunError where
  | roster (cause : Roster.ReadError)
  | noPackages
  deriving DecidableEq, Repr

/-- What failed and why, from the outside in. -/
def RunError.chain : RunError → Chain
  | roster cause => cause.chain
  | noPackages => ["No packages to scan; pass --package or --package-list".toList]

namespace Options

/-- The packages to scan. -/
def resolvePackages (d : Disk) (o : Options) : Except RunError (List Text) :=
  let packages :=
    match o.packageList with
    | some file => (Roster.read d file o.top).mapError RunError.roster
    | none => .ok o.packages
  match packages with
  | .error e => .error e
  | .ok [] => .error .noPackages
  | .ok names => .ok names

/-- The watchlist that was given, or the standard one. -/
def watchlist (o : Options) : Watchlist :=
  if o.watch.isEmpty then .standard else .ofTexts o.watch

/-- The extensions of source files, without the dots that they may be given with. -/
def sourceExtensions (o : Options) : List Text :=
  if o.extensions.isEmpty then [['r', 's']]
  else o.extensions.map fun e => e.dropWhile (· == '.')

/-- How the names of the reports start. -/
def reportStem (o : Options) : Text :=
  match o.stem, o.packageList with
  | some stem, _ => stem
  | none, some _ => "top".toList ++ Nat.toDigits 10 o.top
  | none, none => "scan".toList

/-- What is looked for in which files. -/
def scope (o : Options) : Scope := ⟨o.watchlist, o.sourceExtensions⟩

/-- Where the sources of packages are. -/
def places (o : Options) : Places := ⟨o.packagesDir, o.srcDir⟩

/-- Carries out a scan. -/
def run (d : Disk) (o : Options) : Except RunError Outcome :=
  (o.resolvePackages d).map (scanPackages d o.scope o.places)

end Options

end ImportWatch
