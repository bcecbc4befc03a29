import ImportWatch.Expansion
import ImportWatch.Notice
import ImportWatch.Statement
import ImportWatch.Watchlist

/-!
# ImportWatch.Survey

Scanning the sources of one package.

A survey collects findings and notices file by file, in the order of the
statements and, within a statement, of its paths.  A statement that the file
left open is noted before it is expanded; a rejected statement is noted and
gives no finding.
-/

namespace ImportWatch

/-- What was found in the files of a package so far. -/
structure Survey where
  package : Text
  findings : List Finding
  notices : List Notice
  filesRead : Nat
  deriving DecidableEq, Repr

namespace Survey

/-- The survey of a package before its first file. -/
def start (package : Text) : Survey := ⟨package, [], [], 0⟩

/-- The survey with one more notice. -/
def note (v : Survey) (n : Notice) : Survey := { v with notices := v.notices ++ [n] }

/-- The survey with one more finding. -/
def record (v : Survey) (f : Finding) : Survey := { v with findings := v.findings ++ [f] }

/-- Takes in one path of a statement. -/
def addPath (watch : Watchlist) (file : Text) (line : Nat) (statement : Text) (v : Survey)
    (path : ModulePath) : Survey :=
  match watch.label? path with
  | none => v
  | some label =>
    let chosen := label.chosen.text
    let noted :=
      if label.isAmbiguous then
        v.note (.ambiguous file line statement path chosen (label.others.map Pattern.text))
      else v
    noted.record ⟨v.package, chosen, file, line, statement, path⟩

/-- Takes in one statement of a file. -/
def addStatement (watch : Watchlist) (file : Text) (v : Survey) (s : Statement) : Survey :=
  let noted := if s.unfinished then v.note (.unfinished file s.line s.text) else v
  match expand s.text with
  | .error reason => noted.note (.malformed file s.line s.text reason)
  | .ok e => e.paths.foldl (addPath watch file s.line e.statement) noted

/-- Takes in the source text of a file. -/
def addSource (watch : Watchlist) (file source : Text) (v : Survey) : Survey :=
  let read := (Statement.ofSource source).foldl (addStatement watch file) v
  { read with filesRead := read.filesRead + 1 }

/-- Takes in some files, each a path with its source text. -/
def addFiles (watch : Watchlist) (v : Survey) (files : List (Text × Text)) : Survey :=
  files.foldl (fun v (file, source) => v.addSource watch file source) v

/-- The survey of a package whose files have the given paths and source texts. -/
def ofFiles (watch : Watchlist) (package : Text) (files : List (Text × Text)) : Survey :=
  (start package).addFiles watch files

/-- The files of two lists may be taken in one list after the other. -/
theorem addFiles_append (watch : Watchlist) (v : Survey) (files more : List (Text × Text)) :
    v.addFiles watch (files ++ more) = (v.addFiles watch files).addFiles watch more := by
  simp [addFiles, List.foldl_append]

end Survey

end ImportWatch
