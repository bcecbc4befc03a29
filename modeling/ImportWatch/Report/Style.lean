import ImportWatch.Text.Blank

/-!
# ImportWatch.Report.Style

Colours on a terminal.

A styled text stands between the sequence that turns its style on and the one
that turns all styles off.  Where the text itself turns styles off, its own
style is turned on again behind that.
-/

namespace ImportWatch.Report

/-- The codes of the styles in use, as terminals number them. -/
inductive Style where
  | bold
  | dimmed
  | red
  | green
  | yellow
  | blue
  | cyan
  | brightBlue
  | brightWhite
  | boldGreen
  | boldYellow
  deriving DecidableEq, Repr

namespace Style

/-- The code of a style. -/
def code : Style → Text
  | bold => "1".toList
  | dimmed => "2".toList
  | red => "31".toList
  | green => "32".toList
  | yellow => "33".toList
  | blue => "34".toList
  | cyan => "36".toList
  | brightBlue => "94".toList
  | brightWhite => "97".toList
  | boldGreen => "1;32".toList
  | boldYellow => "1;33".toList

/-- The sequence that turns a style on. -/
def opening (s : Style) : Text := '\x1b' :: '[' :: s.code ++ ['m']

/-- The sequence that turns all styles off. -/
def reset : Text := ['\x1b', '[', '0', 'm']

/-- A text that turns a style on again wherever it turns styles off. -/
def reopen (opening : Text) : Text → Text
  | '\x1b' :: '[' :: '0' :: 'm' :: t => reset ++ opening ++ reopen opening t
  | c :: t => c :: reopen opening t
  | [] => []

end Style

/-- A text in a style, when colours are wanted. -/
def paint (color : Bool) (s : Style) (t : Text) : Text :=
  if color then s.opening ++ Style.reopen s.opening t ++ Style.reset else t

end ImportWatch.Report
