import ImportWatch.Entries
import ImportWatch.PathText
import ImportWatch.Text.Utf8

/-!
# ImportWatch.Disk

Files and folders, without links, and the working folder from which relative
paths are followed.

A path is followed piece by piece: every piece but the last has to be a
folder, `.` and empty pieces stay where they are, and `..` goes up; the root
is above itself.

Names are Unicode texts.  Systems also allow names whose bytes are no UTF-8;
such names are left out here.

* `read` and `isFolder` look;
* `makeFolder`, `makeFolders` and `write` change; none of them removes
  anything, and `write` replaces the contents of a file that exists;
* `makeFolders` keeps what it has made when it fails half-way, so it answers
  the disk that it leaves in either case.
-/

namespace ImportWatch

open PathText

/-- A file or a folder. -/
inductive Node where
  | file (content : Bytes)
  | folder (entries : List (Text × Node))

/-- The names on the way from the root to a node. -/
abbrev Location := List Text

/-- Files and folders below a root, and the working folder. -/
structure Disk where
  root : Node
  workplace : Location

/-- Why an operation on a disk fails. -/
inductive DiskError where
  | notFound
  | alreadyExists
  | notFolder
  | isFolder
  /-- The path holds the character that ends paths inside of the system. -/
  | nulInPath
  deriving DecidableEq, Repr

/-- The wording of a failure, with its number where it has one. -/
def DiskError.message : DiskError → Text
  | notFound => "No such file or directory (os error 2)".toList
  | alreadyExists => "File exists (os error 17)".toList
  | notFolder => "Not a directory (os error 20)".toList
  | isFolder => "Is a directory (os error 21)".toList
  | nulInPath => "file name contained an unexpected NUL byte".toList

/-! ## nodes at locations -/

namespace Node

/-- A folder without entries. -/
def empty : Node := .folder []

/-- The node at a location below a node. -/
def find? : Location → Node → Option Node
  | [], n => some n
  | _ :: _, .file _ => none
  | name :: rest, .folder es => (es.lookup name).bind (find? rest)

/-- Puts a node at a location whose folder exists; anywhere else nothing changes. -/
def put (new : Node) : Location → Node → Node
  | [], _ => new
  | _ :: _, .file c => .file c
  | [name], .folder es => .folder (putEntry name new es)
  | name :: next :: rest, .folder es =>
    match es.lookup name with
    | none => .folder es
    | some n => .folder (putEntry name (put new (next :: rest) n) es)

end Node

namespace Disk

/-! ## following paths -/

/-- A disk with nothing on it but the way to the working folder. -/
def ofWorkplace (workplace : Location) : Disk :=
  ⟨workplace.foldr (fun name n => .folder [(name, n)]) .empty, workplace⟩

/-- The node at a location. -/
def node? (d : Disk) (here : Location) : Option Node := d.root.find? here

/-- Goes on from a location by one piece of a path. -/
def step (d : Disk) (here : Location) (piece : Text) : Except DiskError Location :=
  match d.node? here with
  | some (.folder es) =>
    if isInert piece then .ok here
    else if piece = above then .ok here.dropLast
    else if (es.lookup piece).isSome then .ok (here ++ [piece])
    else .error .notFound
  | some (.file _) => .error .notFolder
  | none => .error .notFound

/-- Where a path starts. -/
def origin (d : Disk) (path : Text) : Location := if isAbsolute path then [] else d.workplace

/-- Refuses the paths that no node can have. -/
def checkPath (path : Text) : Except DiskError Unit :=
  if path.contains '\x00' then .error .nulInPath
  else if path.isEmpty then .error .notFound
  else .ok ()

/-- The location of an existing node. -/
def locate (d : Disk) (path : Text) : Except DiskError Location := do
  checkPath path
  (pieces path).foldlM d.step (d.origin path)

/-- The location of the existing folder that some pieces of a path lead to. -/
def locateFolder (d : Disk) (path : Text) (before : List Text) : Except DiskError Location := do
  checkPath path
  let here ← before.foldlM d.step (d.origin path)
  match d.node? here with
  | some (.folder _) => .ok here
  | _ => .error .notFolder

/-- The contents of the file at a path. -/
def read (d : Disk) (path : Text) : Except DiskError Bytes :=
  match d.locate path with
  | .error e => .error e
  | .ok here =>
    match d.node? here with
    | some (.file c) => .ok c
    | some (.folder _) => .error .isFolder
    | none => .error .notFound

/-- The folder at a path, if there is one. -/
def folder? (d : Disk) (path : Text) : Option (List (Text × Node)) :=
  match d.locate path with
  | .error _ => none
  | .ok here =>
    match d.node? here with
    | some (.folder es) => some es
    | _ => none

/-- True when there is a folder at a path. -/
def isFolder (d : Disk) (path : Text) : Bool := (d.folder? path).isSome

/-! ## changes -/

/-- The disk with a node put at a location. -/
def put (d : Disk) (here : Location) (n : Node) : Disk := { d with root := Node.put n here d.root }

/-- True for the pieces that are no names of entries. -/
def isNoName (piece : Text) : Bool := isInert piece || piece == above

/-- Writes a file, which may exist already. -/
def write (d : Disk) (path : Text) (content : Bytes) : Except DiskError Disk := do
  let here ← d.locateFolder path (pieces path).dropLast
  let name := (pieces path).getLast?.getD []
  if isNoName name then .error .isFolder
  else
    match d.node? (here ++ [name]) with
    | some (.folder _) => .error .isFolder
    | _ => .ok (d.put (here ++ [name]) (.file content))

/-- Makes one folder, which must not exist yet; slashes behind its name do not matter. -/
def makeFolder (d : Disk) (path : Text) : Except DiskError Disk := do
  let fromEnd := (pieces path).reverse.dropWhile List.isEmpty
  let here ← d.locateFolder path (fromEnd.drop 1).reverse
  let name := fromEnd.headD []
  if isNoName name then .error .alreadyExists
  else
    match d.node? (here ++ [name]) with
    | some _ => .error .alreadyExists
    | none => .ok (d.put (here ++ [name]) .empty)

/-- Makes the folder at a path where there may be one already. -/
def ensureFolder (d : Disk) (path : Text) : Except DiskError Disk :=
  match d.makeFolder path with
  | .ok d => .ok d
  | .error e => if d.isFolder path then .ok d else .error e

/-- Makes the folder at a path and the folders above it that are missing. -/
def makeFolders (d : Disk) (path : Text) : Disk × Except DiskError Unit :=
  if path.isEmpty then (d, .ok ())
  else
    match d.ensureFolder path with
    | .ok d => (d, .ok ())
    | .error .notFound =>
      match _h : parent? path with
      | none => (d, .error .notFound)
      | some parent =>
        match d.makeFolders parent with
        | (d, .error e) => (d, .error e)
        | (d, .ok ()) =>
          match d.ensureFolder path with
          | .ok d => (d, .ok ())
          | .error e => (d, .error e)
    | .error e => (d, .error e)
termination_by path.length
decreasing_by exact length_lt_of_parent? _h

end Disk

end ImportWatch
