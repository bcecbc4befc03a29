import ImportWatch.Report.Save
import ImportWatch.Report.Terminal
import ImportWatch.Run

/-!
# ImportWatch.Program

The program behind the command line.

The command `scan` carries out a scan, checks its counters, writes the reports
and prints an overview with the paths of the reports.  Everything that the
program does to the disk and prints is a function of its arguments and of the
disk that it finds, and of the time that it took.

* `Command.read` reads the command line;
* `scanAndSave` does the work of `scan`;
* `Finished.printed` is what is printed in the end.
-/

namespace ImportWatch

open Text

/-! ## the command line -/

/-- What the program is asked to do. -/
inductive Command where
  | scan (options : Options)
  | help
  deriving DecidableEq, Repr

namespace Command

/-- Reads the arguments behind the name of the command `scan`. -/
def readScan (arguments : List Text) : Except UsageError Command :=
  match Options.read arguments with
  | .ok o => .ok (.scan o)
  | .error .help => .ok .help
  | .error e => .error e

/-- Reads a command line. -/
def read : List Text → Except UsageError Command
  | [] => .error .noCommand
  | first :: rest =>
    if first = "scan".toList then readScan rest
    else if first = "--help".toList then .ok .help
    else if ['-', 'h'].isPrefixOf first then .ok .help
    else if first = "help".toList then
      if rest = [] ∨ rest = ["scan".toList] ∨ rest = ["help".toList] then .ok .help
      else .error .unknownArgument
    else .error .unknownArgument

end Command

/-! ## scanning and saving -/

/-- Why the program fails. -/
inductive ProgramError where
  | run (cause : RunError)
  | counts (cause : CountMismatch)
  | save (cause : Report.SaveError)
  deriving DecidableEq, Repr

/-- What failed and why, from the outside in. -/
def ProgramError.chain : ProgramError → Chain
  | run cause => cause.chain
  | counts cause => [cause.message]
  | save cause => cause.chain

/-- The exit code of a failure: want of room ends the program abruptly. -/
def ProgramError.exitCode : ProgramError → Nat
  | run (.roster (.shortage _ (.noRoom _))) => 101
  | _ => 1

/-- What a scan has come to when its reports are saved. -/
structure Finished where
  outcome : Outcome
  /-- The paths of the reports. -/
  written : List Text
  deriving DecidableEq

/-- Carries out a scan and saves its reports; answers the disk that it leaves in either case. -/
def scanAndSave (d : Disk) (o : Options) : Disk × Except ProgramError Finished :=
  match o.run d with
  | .error e => (d, .error (.run e))
  | .ok outcome =>
    match outcome.checkTotals with
    | .error e => (d, .error (.counts e))
    | .ok () =>
      let saved := Report.save d outcome o.outputDir o.reportStem o.json
      match saved.result with
      | .error e => (saved.disk, .error (.save e))
      | .ok written => (saved.disk, .ok ⟨saved.outcome, written⟩)

/-! ## what is printed -/

/-- The line of a report that was written. -/
def writtenLine (color : Bool) (path : Text) : Text :=
  ' ' :: ' ' :: Report.paint color .dimmed ['→'] ++ ' ' :: path

/-- The closing line: the time taken, the files read and the number of workers. -/
def closingLine (color : Bool) (milliseconds workers : Nat) (o : Outcome) : Text :=
  Report.paint color .brightBlue ['●'] ++ " Finished in ".toList ++
    Report.paint color .cyan (Nat.toDigits 10 milliseconds) ++ "ms on ".toList ++
    Report.paint color .cyan (Nat.toDigits 10 o.filesRead) ++ " files (using ".toList ++
    Report.paint color .cyan (Nat.toDigits 10 workers) ++ " threads).".toList

/-- What is printed when a scan has finished. -/
def Finished.printed (f : Finished) (color : Bool) (milliseconds workers : Nat) : Text :=
  Report.overview color f.outcome ++
    unlines (f.written.map (writtenLine color) ++
      [[], closingLine color milliseconds workers f.outcome])

/-- The number of workers: those that were asked for, or the usual number. -/
def Options.workers (o : Options) (usual : Nat) : Nat := if o.jobs = 0 then usual else o.jobs

end ImportWatch
