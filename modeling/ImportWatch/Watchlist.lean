import ImportWatch.ModulePath

/-!
# ImportWatch.Watchlist

The module prefixes that are watched, and the labels that they give to paths.

A pattern covers the paths that start with its segments.  The order of a
watchlist matters: a path that several patterns cover is labelled by the first
of them, and the others are kept with the label.
-/

namespace ImportWatch

open Text

/-- A watched prefix: its text as it is reported and the segments it stands for. -/
structure Pattern where
  text : Text
  segments : List Text
  deriving DecidableEq, Repr

namespace Pattern

/-- The pattern that a text describes. -/
def ofText (text : Text) : Pattern := ⟨trim text, (splitPath (trim text)).map trim⟩

/-- True when a path starts with the segments of a pattern. -/
def covers (w : Pattern) (p : ModulePath) : Bool := p.startsWith w.segments

end Pattern

/-- Watched prefixes in the order in which they label paths. -/
structure Watchlist where
  patterns : List Pattern
  deriving DecidableEq, Repr

/-- The patterns that cover a path: the first of the watchlist and the later ones. -/
structure Label where
  chosen : Pattern
  others : List Pattern
  deriving DecidableEq, Repr

/-- True when a path is covered by more than one pattern. -/
def Label.isAmbiguous (l : Label) : Bool := !l.others.isEmpty

namespace Watchlist

/-- The watchlist that some texts describe; blank texts are skipped. -/
def ofTexts (texts : List Text) : Watchlist :=
  ⟨(texts.filter fun t => !isAllBlank t).map Pattern.ofText⟩

/-- The modules of the standard library that reach outside of the program. -/
def standard : Watchlist :=
  ofTexts ["std::env".toList, "std::fs".toList, "std::net".toList, "std::os".toList,
    "std::path".toList, "std::process".toList]

/-- The texts of the patterns, in order. -/
def texts (w : Watchlist) : List Text := w.patterns.map Pattern.text

/-- The patterns that cover a path, in order. -/
def covering (w : Watchlist) (p : ModulePath) : List Pattern :=
  w.patterns.filter fun pattern => pattern.covers p

/-- The label of a path, if any pattern covers it. -/
def label? (w : Watchlist) (p : ModulePath) : Option Label :=
  match w.covering p with
  | [] => none
  | chosen :: others => some ⟨chosen, others⟩

end Watchlist

end ImportWatch
