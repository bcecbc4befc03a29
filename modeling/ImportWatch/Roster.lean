import ImportWatch.Chain
import ImportWatch.Disk

/-!
# ImportWatch.Roster

Ranked lists of packages.

A list is a text of comma separated rows behind a header row; the first cell
of a row, without blanks and then without double quotes around it, names a
package, and rows without a name are skipped.

* `Roster.top` takes the first names of a list;
* `Roster.read` reads them from a file.
-/

namespace ImportWatch.Roster

open Text

/-- Why a list does not give the names that are asked for. -/
inductive Shortage where
  /-- There are fewer names in the list. -/
  | tooFew (asked found : Nat)
  /-- There is no room to hold that many names. -/
  | noRoom (asked : Nat)
  deriving DecidableEq, Repr

/-- Why no names are read from a file. -/
inductive ReadError where
  | unreadable (file : Text) (cause : DiskError)
  | notText (file : Text)
  | shortage (file : Text) (cause : Shortage)
  deriving DecidableEq, Repr

/-- The wording of a shortage. -/
def Shortage.message : Shortage → Text
  | tooFew asked found =>
    "Not enough packages. Asked for ".toList ++ Nat.toDigits 10 asked ++ ", found ".toList ++
      Nat.toDigits 10 found
  | noRoom _ => "capacity overflow".toList

/-- What failed and why, from the outside in. -/
def ReadError.chain : ReadError → Chain
  | unreadable file cause => ["Failed to read package list ".toList ++ file, cause.message]
  | notText file =>
    ["Failed to read package list ".toList ++ file,
      "stream did not contain valid UTF-8".toList]
  | shortage file cause => ["Invalid package list ".toList ++ file, cause.message]

/-- The greatest number of names that there is room for: a name takes 24 bytes
of an address space of 63 bits. -/
def room : Nat := (Nat.pow 2 63 - 1) / 24

/-- A text without the double quotes that it starts and ends with. -/
def trimQuotes (s : Text) : Text :=
  ((s.dropWhile (· == '"')).reverse.dropWhile (· == '"')).reverse

/-- The name in the first cell of a row, which may be empty. -/
def nameOfRow (row : Text) : Text := trimQuotes (trim (row.takeWhile (· != ',')))

/-- The names in a list, in order. -/
def names (text : Text) : List Text :=
  (((lines text).drop 1).map nameOfRow).filter fun n => !n.isEmpty

/-- The first names of a list, as many as are asked for. -/
def top (asked : Nat) (text : Text) : Except Shortage (List Text) :=
  if room < asked then .error (.noRoom asked)
  else
    let found := (names text).take asked
    if found.length < asked then .error (.tooFew asked found.length)
    else .ok found

/-- The first names of the list in a file. -/
def read (d : Disk) (file : Text) (asked : Nat) : Except ReadError (List Text) :=
  match d.read file with
  | .error e => .error (.unreadable file e)
  | .ok bytes =>
    match Utf8.decode? bytes with
    | none => .error (.notText file)
    | some text =>
      match top asked text with
      | .error e => .error (.shortage file e)
      | .ok names => .ok names

end ImportWatch.Roster
