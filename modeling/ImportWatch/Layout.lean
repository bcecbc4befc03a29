import ImportWatch.Grammar

/-!
# ImportWatch.Layout

Writing the text of a statement on one line.

Line comments are dropped, words are separated by single spaces, and no space
stands after `{` or `:`, nor before `}`, `,`, `:` or `;`.

* `visibleWords` are the words of a text outside of its line comments;
* `glue` writes words on one line;
* `oneLine` is the composition of the two.
-/

namespace ImportWatch

open Text

/-- The words of a text outside of its line comments. -/
def visibleWords (text : Text) : List Text := (lines text).flatMap fun l => words (uncommented l)

/-- True for the characters that no space follows. -/
def closesGapAfter (c : Char) : Bool := c == '{' || c == ':'

/-- True for the characters that no space precedes. -/
def closesGapBefore (c : Char) : Bool := c == '}' || c == ',' || c == ':' || c == terminator

/-- True when no space stands between two words. -/
def adjoins (w v : Text) : Bool :=
  w.getLast?.any closesGapAfter || v.head?.any closesGapBefore

/-- Words on one line, with a space between two of them unless they adjoin. -/
def glue : List Text → Text
  | [] => []
  | [w] => w
  | w :: v :: ws => w ++ ((if adjoins w v then [] else [' ']) ++ glue (v :: ws))

/-- A text on one line, without comments and needless spaces. -/
def oneLine (text : Text) : Text := glue (visibleWords text)

end ImportWatch
