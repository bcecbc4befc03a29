import ImportWatch.Outcome
import ImportWatch.Report.Table

/-!
# ImportWatch.Report.Json

The machine-readable summary of an outcome: a JSON object, indented by two
spaces for each level, with a line feed at its end.

* `Digest` holds the numbers that are reported;
* `quoted` writes a string with the escapes that JSON asks for and no others;
* `jsonSummary` writes the digest of an outcome.
-/

namespace ImportWatch.Report

open Text

/-- The numbers of an outcome that the machine-readable summary reports. -/
structure Digest where
  total : Nat
  filesRead : Nat
  packages : List (Text × Nat)
  patterns : List (Text × Nat)
  failures : List Failure
  kinds : List (NoticeKind × Nat)
  deriving DecidableEq, Repr

/-- The digest of an outcome. -/
def Digest.ofOutcome (o : Outcome) : Digest :=
  ⟨o.findings.length, o.filesRead, o.packageCounts.entries, o.patternCounts.entries, o.failures,
    o.kindCounts⟩

/-! ## strings -/

/-- The hexadecimal digit of a number below sixteen, in lower case. -/
def hexDigit (n : Nat) : Char := Nat.digitChar n

/-- A character as it stands in a JSON string. -/
def escaped (c : Char) : Text :=
  if c = '"' then ['\\', '"']
  else if c = '\\' then ['\\', '\\']
  else if c.toNat = 0x08 then ['\\', 'b']
  else if c.toNat = 0x09 then ['\\', 't']
  else if c.toNat = 0x0A then ['\\', 'n']
  else if c.toNat = 0x0C then ['\\', 'f']
  else if c.toNat = 0x0D then ['\\', 'r']
  else if c.toNat < 0x20 then
    ['\\', 'u', '0', '0', hexDigit (c.toNat / 16), hexDigit (c.toNat % 16)]
  else [c]

/-- A JSON string. -/
def quoted (t : Text) : Text := '"' :: t.flatMap escaped ++ ['"']

/-! ## containers -/

/-- The blanks that a line of some depth starts with. -/
def indentation (depth : Nat) : Text := List.replicate (2 * depth) ' '

/-- A container at some depth with each item on a line of its own. -/
def container (opening closing : Char) (depth : Nat) (items : List Text) : Text :=
  if items.isEmpty then [opening, closing]
  else
    opening :: '\n' ::
      List.intercalate [',', '\n'] (items.map fun item => indentation (depth + 1) ++ item) ++
      '\n' :: indentation depth ++ [closing]

/-- An object whose members have the given names and written values. -/
def object (depth : Nat) (members : List (Text × Text)) : Text :=
  container '\x7b' '\x7d' depth
    (members.map fun (name, value) => quoted name ++ ": ".toList ++ value)

/-- An array of written values. -/
def array (depth : Nat) (items : List Text) : Text := container '[' ']' depth items

/-- An object with a number for each name. -/
def numbers (depth : Nat) (es : List (Text × Nat)) : Text :=
  object depth (es.map fun (name, n) => (name, Nat.toDigits 10 n))

/-! ## the summary -/

/-- A digest as a JSON object. -/
def Digest.render (d : Digest) : Text :=
  object 0 [
    ("total_matches".toList, Nat.toDigits 10 d.total),
    ("files_scanned".toList, Nat.toDigits 10 d.filesRead),
    ("packages".toList, numbers 1 d.packages),
    ("patterns".toList, numbers 1 d.patterns),
    ("failed_packages".toList,
      array 1 (d.failures.map fun f =>
        object 2 [("package".toList, quoted f.package), ("error".toList, quoted f.reason)])),
    ("diagnostics".toList, numbers 1 (d.kinds.map fun (k, n) => (k.key, n)))]

/-- The machine-readable summary of an outcome. -/
def jsonSummary (o : Outcome) : Text := (Digest.ofOutcome o).render ++ ['\n']

end ImportWatch.Report
