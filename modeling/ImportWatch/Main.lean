import ImportWatch.Program

/-!
# ImportWatch.Main

The program on a real file system.

The part of the file system that a scan may look at is loaded into a `Disk`:
the package list, the source folders, and what there is along the paths of the
reports.  The scan is carried out on that disk, and the reports that it leaves
there are written back.
-/

namespace ImportWatch.Shell

open ImportWatch

/-- The usage of the program. -/
def usage : String :=
  "Usage: importwatch scan [OPTIONS]\n\n" ++
  "  --packages-dir DIR   folder with one folder for each package\n" ++
  "  --package NAMES      packages to scan, comma separated\n" ++
  "  --package-list FILE  ranked list of packages\n" ++
  "  --top N              how many packages to take from the list\n" ++
  "  --src-dir DIR        folder of the sources in each package\n" ++
  "  --watch PREFIXES     watched module prefixes, comma separated\n" ++
  "  --extension EXTS     extensions of source files, comma separated\n" ++
  "  --output-dir DIR     folder for the reports\n" ++
  "  --prefix NAME        how the names of the reports start\n" ++
  "  --json               write a machine-readable summary as well\n" ++
  "  --jobs N             number of workers\n"

/-! ## loading -/

/-- The file or folder at a path, with the contents of the files whose names are wanted. -/
partial def loadNode (wanted : Text → Bool) (path : String) : IO (Option Node) := do
  let here := System.mkFilePath [path]
  if ← here.isDir then
    let mut entries := []
    for e in ← here.readDir do
      if let some n ← loadNode wanted e.path.toString then
        entries := (e.fileName.toList, n) :: entries
    return some (.folder entries)
  else if ← here.pathExists then
    let name := (PathText.fileName? path.toList).getD []
    if wanted name then return some (.file (← IO.FS.readBinFile here).toList)
    else return some (.file [])
  else return none

/-- The real location of a path that exists. -/
def realLocation (path : String) : IO Location := do
  let real ← IO.FS.realPath (System.mkFilePath [path])
  return (PathText.pieces real.toString.toList).filter fun p => !p.isEmpty

/-- The path of a location. -/
def absolutePath (here : Location) : Text := '/' :: List.intercalate ['/'] here

/-- Puts a node on a disk, with the folders above it. -/
def mount (d : Disk) (here : Location) (n : Node) : Disk :=
  ((d.makeFolders (absolutePath here.dropLast)).1).put here n

/-- Loads what there is along a path: folders without entries, files without contents. -/
def loadAlong (d : Disk) (path : Text) : IO Disk := do
  let mut d := d
  let mut lead := []
  for piece in PathText.pieces path do
    lead := lead ++ [piece]
    let part := String.ofList (List.intercalate ['/'] lead)
    let here := System.mkFilePath [part]
    if ← here.pathExists then
      let real ← realLocation part
      if ← here.isDir then d := (d.makeFolders (absolutePath real)).1
      else if (d.node? real).isNone then d := mount d real (.file [])
  return d

/-- Loads what there is at a path, with all that is in it. -/
def loadAt (wanted : Text → Bool) (d : Disk) (path : Text) : IO Disk := do
  let d ← loadAlong d path
  match ← loadNode wanted (String.ofList path) with
  | some n => return mount d (← realLocation (String.ofList path)) n
  | none => return d

/-- The disk that a scan finds. -/
def loadDisk (o : Options) : IO Disk := do
  let mut d := Disk.ofWorkplace (← realLocation ".")
  for path in [Report.tablePath, Report.summaryPath, Report.jsonPath] do
    d ← loadAlong d (path o.outputDir o.reportStem)
  if let some list := o.packageList then
    d ← loadAt (fun _ => true) d list
  if let .ok packages := o.resolvePackages d then
    for package in packages do
      d ← loadAt (fun name => isSource o.sourceExtensions [name]) d (o.places.root package)
  return d

/-! ## writing back -/

/-- Writes the folder of the reports and the reports that a scan has left on a disk. -/
def storeReports (o : Options) (d : Disk) : IO Unit := do
  if d.isFolder o.outputDir then
    IO.FS.createDirAll (System.mkFilePath [String.ofList o.outputDir])
  for path in [Report.tablePath, Report.summaryPath, Report.jsonPath] do
    let path := path o.outputDir o.reportStem
    if let .ok bytes := d.read path then
      if !bytes.isEmpty then
        IO.FS.writeBinFile (System.mkFilePath [String.ofList path]) (ByteArray.mk bytes.toArray)

/-- Carries out a scan; answers the exit code. -/
def scan (o : Options) : IO UInt32 := do
  let start ← IO.monoMsNow
  let (d, result) := scanAndSave (← loadDisk o) o
  storeReports o d
  match result with
  | .error e =>
    IO.eprint (String.ofList e.chain.report)
    return e.exitCode.toUInt32
  | .ok f =>
    let color ← (← IO.getStdout).isTty
    IO.print (String.ofList (f.printed color ((← IO.monoMsNow) - start) (o.workers 1)))
    return 0

end ImportWatch.Shell

open ImportWatch in
/-- Runs the program on the arguments of the command line. -/
def main (arguments : List String) : IO UInt32 := do
  match Command.read (arguments.map String.toList) with
  | .error e =>
    IO.eprint ("error: " ++ String.ofList e.message ++ "\n\n" ++ Shell.usage)
    return 2
  | .ok .help =>
    IO.print Shell.usage
    return 0
  | .ok (.scan o) => Shell.scan o
