import ImportWatch.Disk

/-!
# ImportWatch.Disk.Sources

The source files in a folder and in the folders below it.

Folders are visited depth first, and the entries of each folder in the order
of their names, so a path comes before another one when it is smaller at the
first name in which they differ.

* `Node.files` are all files of a node, each with its location below the node;
* `Disk.sources?` are those whose names have one of the given extensions.
-/

namespace ImportWatch

open PathText

mutual

/-- All files of a node, in the order in which they are visited. -/
def Node.files : Node → List (Location × Bytes)
  | .file c => [([], c)]
  | .folder es =>
    ((filesByEntry es).mergeSort fun a b => !decide (b.1 < a.1)).flatMap fun e =>
      e.2.map fun f => (e.1 :: f.1, f.2)

/-- The files of each entry of a folder. -/
def filesByEntry : List (Text × Node) → List (Text × List (Location × Bytes))
  | [] => []
  | (name, n) :: es => (name, n.files) :: filesByEntry es

end

theorem filesByEntry_eq_map (es : List (Text × Node)) :
    filesByEntry es = es.map fun e => (e.1, e.2.files) := by
  induction es with
  | nil => rfl
  | cons e es ih =>
      obtain ⟨name, n⟩ := e
      simp [filesByEntry, ih]

/-- True when the last name of a location has one of the given extensions. -/
def isSource (extensions : List Text) (l : Location) : Bool :=
  (l.getLast?.bind extension?).any extensions.contains

/-- True for a path that is a single dash; it stands for an input that is no folder. -/
def isDash (path : Text) : Bool :=
  (splitLead path).1.isEmpty && (pieces path).filter (fun p => !isInert p) == [['-']]

/-- The source files below the folder at a path, each as a path that continues
that of the folder, with its contents; there is no answer without the folder. -/
def Disk.sources? (d : Disk) (extensions : List Text) (root : Text) :
    Option (List (Text × Bytes)) :=
  (d.folder? root).map fun es =>
    if isDash root then []
    else
      ((Node.folder es).files.filter fun f => isSource extensions f.1).map fun f =>
        (f.1.foldl join root, f.2)

end ImportWatch
