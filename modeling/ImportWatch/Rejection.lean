import ImportWatch.Text.Blank

/-!
# ImportWatch.Rejection

Why a statement is rejected.  A rejection is never fatal: it is reported and
the scan goes on with the next statement.
-/

namespace ImportWatch

/-- The reasons for which a statement, or one of its paths, is rejected. -/
inductive Rejection where
  /-- The text does not start with the keyword. -/
  | missingKeyword
  /-- There is no terminator after the keyword. -/
  | missingTerminator
  /-- A slash is left after the comments were removed. -/
  | straySlash
  /-- Something stands after the last terminator. -/
  | trailingText
  /-- There is a second terminator. -/
  | extraTerminator
  /-- Nothing stands between the keyword and the terminator. -/
  | noPath
  /-- A segment of the path `path` is empty. -/
  | emptySegment (path : Text)
  /-- A brace of `item` is opened and never closed. -/
  | unclosedBrace (item : Text)
  /-- A brace of `item` is closed and was never opened. -/
  | unmatchedBrace (item : Text)
  /-- Expanding the groups takes more than `limit` steps. -/
  | tooManySteps (limit : Nat)
  deriving DecidableEq, Repr

namespace Rejection

/-- The wording of a rejection. -/
def message : Rejection → Text
  | missingKeyword => "expected statement to start with 'use '".toList
  | missingTerminator => "expected ';' in statement".toList
  | straySlash => "unexpected '/' after removing comments".toList
  | trailingText => "expected ';' at end of statement".toList
  | extraTerminator => "unexpected extra ';' inside statement".toList
  | noPath => "statement has no path between 'use' and ';'".toList
  | emptySegment path => "empty path segment in '".toList ++ path ++ "'".toList
  | unclosedBrace item => "unclosed '\x7b' in '".toList ++ item ++ "'".toList
  | unmatchedBrace item => "unmatched '\x7d' in '".toList ++ item ++ "'".toList
  | tooManySteps limit =>
    "brace expansion exceeded ".toList ++ Nat.toDigits 10 limit ++ " steps".toList

end Rejection

end ImportWatch
