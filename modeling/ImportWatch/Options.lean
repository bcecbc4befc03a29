import ImportWatch.Text.Pieces

/-!
# ImportWatch.Options

The command line of a scan.

Arguments are read from left to right.  An option takes its value from behind
a `=` or from the next argument; it is *open* until the next option, or the
end of the line, closes it, and only then its value is looked at.  So what is
wrong with an open option is told only when nothing is wrong with the argument
that would close it.

* `OptionKey` are the options with a value, `Given` what was given of them;
* `Given.put` takes in the value of one option;
* `takeArgument` takes in one argument;
* `Options.read` reads a command line and fills in the defaults.
-/

namespace ImportWatch

open Text

/-- The options that take a value. -/
inductive OptionKey where
  | packagesDir
  | package
  | packageList
  | top
  | srcDir
  | watch
  | extension
  | outputDir
  | stem
  | jobs
  deriving DecidableEq, Repr

/-- The name of an option, without the dashes in front of it. -/
def OptionKey.name : OptionKey → Text
  | packagesDir => "packages-dir".toList
  | package => "package".toList
  | packageList => "package-list".toList
  | top => "top".toList
  | srcDir => "src-dir".toList
  | watch => "watch".toList
  | extension => "extension".toList
  | outputDir => "output-dir".toList
  | stem => "prefix".toList
  | jobs => "jobs".toList

/-- All options that take a value. -/
def OptionKey.all : List OptionKey :=
  [packagesDir, package, packageList, top, srcDir, watch, extension, outputDir, stem, jobs]

/-- Why a command line is not a scan. -/
inductive UsageError where
  /-- No command is named. -/
  | noCommand
  /-- An option that may be given once is given again, or two options exclude each other. -/
  | conflict
  /-- An option lacks its value, or a path is empty. -/
  | noValue
  /-- A value is not a number of 64 bits. -/
  | notNumber
  /-- A flag has a value. -/
  | valueForFlag
  /-- An argument is no option and no value of one. -/
  | unknownArgument
  /-- Help is asked for. -/
  | help
  deriving DecidableEq, Repr

/-- The wording of a usage error. -/
def UsageError.message : UsageError → Text
  | noCommand => "a command is required".toList
  | conflict => "an option is given twice, or with one that excludes it".toList
  | noValue => "an option lacks its value".toList
  | notNumber => "a number of 64 bits is required".toList
  | valueForFlag => "a flag takes no value".toList
  | unknownArgument => "an argument is not known".toList
  | help => "help is asked for".toList

/-! ## values -/

/-- What was given on a command line. -/
structure Given where
  packagesDir : Option Text
  packages : Option (List Text)
  packageList : Option Text
  top : Option Nat
  srcDir : Option Text
  watch : Option (List Text)
  extensions : Option (List Text)
  outputDir : Option Text
  stem : Option Text
  json : Bool
  jobs : Option Nat
  deriving DecidableEq, Repr

/-- Nothing was given. -/
def Given.none : Given :=
  ⟨.none, .none, .none, .none, .none, .none, .none, .none, .none, false, .none⟩

/-- The least number that does not fit into 64 bits. -/
def numberLimit : Nat := Nat.pow 2 64

/-- The number that some digits write, if all of them are decimal digits. -/
def digitsValue? (digits : Text) : Option Nat :=
  if digits.all Char.isDigit then
    some (digits.foldl (fun n c => 10 * n + (c.toNat - '0'.toNat)) 0)
  else none

/-- Reads a number of 64 bits, with or without a plus sign. -/
def readNumber (value : Text) : Except UsageError Nat :=
  let digits := if value.head? == some '+' then value.drop 1 else value
  match digitsValue? digits with
  | some n => if digits.isEmpty || numberLimit ≤ n then .error .notNumber else .ok n
  | none => .error .notNumber

/-- Reads a path, which must not be empty. -/
def readPath (value : Text) : Except UsageError Text :=
  if value.isEmpty then .error .noValue else .ok value

/-- Reads the value of an option that may be given once. -/
def once (before : Option α) (value : Except UsageError α) : Except UsageError (Option α) :=
  match before with
  | some _ => .error .conflict
  | none => value.map some

/-- The items of a value that is a list with commas, behind those that were given before. -/
def appendItems (before : Option (List Text)) (value : Text) : Option (List Text) :=
  some (before.getD [] ++ List.splitOn ',' value)

/-- Takes in the value of an option. -/
def Given.put (g : Given) (key : OptionKey) (value : Text) : Except UsageError Given :=
  match key with
  | .packagesDir => (once g.packagesDir (readPath value)).map fun v => { g with packagesDir := v }
  | .package => .ok { g with packages := appendItems g.packages value }
  | .packageList => (once g.packageList (readPath value)).map fun v => { g with packageList := v }
  | .top => (once g.top (readNumber value)).map fun v => { g with top := v }
  | .srcDir => (once g.srcDir (readPath value)).map fun v => { g with srcDir := v }
  | .watch => .ok { g with watch := appendItems g.watch value }
  | .extension => .ok { g with extensions := appendItems g.extensions value }
  | .outputDir => (once g.outputDir (readPath value)).map fun v => { g with outputDir := v }
  | .stem => (once g.stem (.ok value)).map fun v => { g with stem := v }
  | .jobs => (once g.jobs (readNumber value)).map fun v => { g with jobs := v }

/-! ## arguments -/

/-- A command line that is being read. -/
structure Reading where
  given : Given
  /-- The option that is open, with its value when that was read already. -/
  opened : Option (OptionKey × Option Text)
  /-- True behind the argument `--`, where no options are read. -/
  optionsEnded : Bool
  deriving DecidableEq, Repr

/-- What an argument with two dashes names. -/
inductive LongName where
  | key (k : OptionKey)
  | json
  | help
  | unknown
  deriving DecidableEq, Repr

/-- Looks up the name of an argument with two dashes. -/
def LongName.ofText (name : Text) : LongName :=
  if name = "json".toList then .json
  else if name = "help".toList then .help
  else
    match OptionKey.all.find? fun k => k.name = name with
    | some k => .key k
    | none => .unknown

namespace Reading

/-- Closes the open option, if there is one. -/
def close (r : Reading) : Except UsageError Given :=
  match r.opened with
  | none => .ok r.given
  | some (_, none) => .error .noValue
  | some (key, some value) => r.given.put key value

/-- Takes in an argument `--name` or `--name=value`. -/
def takeLong (r : Reading) (name : Text) (attached : Option Text) : Except UsageError Reading :=
  match LongName.ofText name, attached with
  | .unknown, _ => .error .unknownArgument
  | .help, some _ | .json, some _ => .error .valueForFlag
  | .help, none => r.close.bind fun _ => .error .help
  | .json, none =>
    r.close.bind fun g =>
      if g.json then .error .conflict else .ok ⟨{ g with json := true }, none, r.optionsEnded⟩
  | .key k, none => r.close.map fun g => ⟨g, some (k, none), r.optionsEnded⟩
  | .key k, some value =>
    r.close.bind fun g => (g.put k value).map fun g => ⟨g, none, r.optionsEnded⟩

/-- Takes in an argument that is no option. -/
def takeValue (r : Reading) (value : Text) : Except UsageError Reading :=
  match r.opened with
  | some (key, none) => .ok { r with opened := some (key, some value) }
  | _ => .error .unknownArgument

/-- Takes in one argument. -/
def takeArgument (r : Reading) (argument : Text) : Except UsageError Reading :=
  if r.optionsEnded then .error .unknownArgument
  else
    match argument with
    | ['-', '-'] => .ok { r with optionsEnded := true }
    | '-' :: '-' :: rest =>
      let name := rest.takeWhile (· != '=')
      match rest.dropWhile (· != '=') with
      | [] => r.takeLong name none
      | _ :: value => r.takeLong name (some value)
    | '-' :: 'h' :: _ => r.close.bind fun _ => .error .help
    | '-' :: _ :: _ => .error .unknownArgument
    | _ => r.takeValue argument

end Reading

/-! ## command lines -/

/-- A scan as a command line asks for it. -/
structure Options where
  packagesDir : Text
  packages : List Text
  packageList : Option Text
  top : Nat
  srcDir : Text
  watch : List Text
  extensions : List Text
  outputDir : Text
  stem : Option Text
  json : Bool
  jobs : Nat
  deriving DecidableEq, Repr

/-- Fills in the defaults; packages are named or taken from a list, not both. -/
def Given.complete (g : Given) : Except UsageError Options :=
  if g.packages.isSome && g.packageList.isSome then .error .conflict
  else
    .ok {
      packagesDir := g.packagesDir.getD "experiments/packages".toList
      packages := g.packages.getD []
      packageList := g.packageList
      top := g.top.getD 200
      srcDir := g.srcDir.getD "src".toList
      watch := g.watch.getD []
      extensions := g.extensions.getD []
      outputDir := g.outputDir.getD "experiments/results".toList
      stem := g.stem
      json := g.json
      jobs := g.jobs.getD 0 }

/-- Reads the arguments of a scan. -/
def Options.read (arguments : List Text) : Except UsageError Options := do
  let r ← arguments.foldlM Reading.takeArgument ⟨.none, none, false⟩
  let g ← r.close
  g.complete

end ImportWatch
