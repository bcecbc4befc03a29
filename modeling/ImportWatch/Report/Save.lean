import ImportWatch.Chain
import ImportWatch.Disk
import ImportWatch.Report.Json
import ImportWatch.Report.Summary

/-!
# ImportWatch.Report.Save

Writing the reports of an outcome to files.

The table is written first, then the plain summary, then the machine-readable
one if it is asked for.  What the table loses becomes part of the outcome
before the summaries are written.  A failure ends the saving and leaves what
was done before it.
-/

namespace ImportWatch.Report

open PathText

/-- The file or folder that could not be made, and why. -/
structure SaveError where
  path : Text
  cause : DiskError
  deriving DecidableEq, Repr

/-- What failed and why, from the outside in. -/
def SaveError.chain (e : SaveError) : Chain :=
  ["Failed to create ".toList ++ e.path, e.cause.message]

/-- The paths of the reports: the table, the plain summary, the machine-readable summary. -/
def tablePath (folder stem : Text) : Text := join folder (stem ++ "_all.csv".toList)

/-- The path of the plain summary. -/
def summaryPath (folder stem : Text) : Text := join folder (stem ++ "_summary.txt".toList)

/-- The path of the machine-readable summary. -/
def jsonPath (folder stem : Text) : Text := join folder (stem ++ "_summary.json".toList)

/-- A disk and an outcome after some saving, with the paths that were written or the failure. -/
structure Saved where
  disk : Disk
  outcome : Outcome
  result : Except SaveError (List Text)

/-- Writes one report and goes on, unless that fails. -/
def writeReport (d : Disk) (o : Outcome) (path text : Text) (next : Disk → Saved) : Saved :=
  match d.write path (Utf8.encode text) with
  | .error e => ⟨d, o, .error ⟨path, e⟩⟩
  | .ok d => next d

/-- Writes the reports of an outcome into a folder, which is made where it is missing. -/
def save (d : Disk) (o : Outcome) (folder stem : Text) (json : Bool) : Saved :=
  match d.makeFolders folder with
  | (d, .error e) => ⟨d, o, .error ⟨folder, e⟩⟩
  | (d, .ok ()) =>
    writeReport d o (tablePath folder stem) (table o.findings) fun d =>
      let o := o.addNotices (tableLosses o.findings)
      writeReport d o (summaryPath folder stem) (summary o) fun d =>
        let written := [tablePath folder stem, summaryPath folder stem]
        if json then
          writeReport d o (jsonPath folder stem) (jsonSummary o) fun d =>
            ⟨d, o, .ok (written ++ [jsonPath folder stem])⟩
        else ⟨d, o, .ok written⟩

end ImportWatch.Report
