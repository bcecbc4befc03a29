import ImportWatch.Text.Pieces

/-!
# ImportWatch.PathText

Paths of files, as they are written.

A path is cut into pieces at `/`.  Empty pieces and `.` name nothing, `..`
names the directory above, and every other piece is a name.  Nothing here
looks at files: `x/../y` is a path below `x`, whatever `x` is.

* `parent?` and `fileName?` take a path apart before its last piece;
* `extension?` is what follows the last dot of a file name;
* `join` continues a path by another one;
* `clean` resolves `.` and `..` as far as the text alone tells.
-/

namespace ImportWatch.PathText

open Text

/-- The piece that names the directory above. -/
def above : Text := ['.', '.']

/-- The pieces of a path between its slashes. -/
def pieces (path : Text) : List Text := List.splitOn '/' path

/-- True for a path that starts at the root. -/
def isAbsolute (path : Text) : Bool := path.head? == some '/'

/-- True for the pieces that name nothing. -/
def isInert (piece : Text) : Bool := piece.isEmpty || piece == ['.']

/-- Splits off the root, or the `.` that a path starts with. -/
def splitLead : Text → Text × Text
  | '/' :: rest => (['/'], rest)
  | ['.'] => (['.'], [])
  | '.' :: '/' :: rest => (['.'], '/' :: rest)
  | path => ([], path)

/-- The pieces behind the lead, last first, without those at the end that name nothing. -/
def namedFromEnd (path : Text) : List Text :=
  (pieces (splitLead path).2).reverse.dropWhile isInert

/-- The path without its last piece; the root and the empty path have no parent. -/
def parent? (path : Text) : Option Text :=
  match namedFromEnd path with
  | [] => if (splitLead path).1 = ['.'] then some [] else none
  | _ :: before =>
    some ((splitLead path).1 ++ List.intercalate ['/'] (before.dropWhile isInert).reverse)

/-- The last piece of a path, if it is a name. -/
def fileName? (path : Text) : Option Text :=
  match namedFromEnd path with
  | [] => none
  | piece :: _ => if piece = above then none else some piece

/-- What follows the last dot of a file name, if something stands before that dot. -/
def extension? (name : Text) : Option Text :=
  match name.reverse.dropWhile (· != '.') with
  | _ :: _ :: _ => some (name.reverse.takeWhile (· != '.')).reverse
  | _ => none

/-- The path `right` seen from the path `left`. -/
def join (left right : Text) : Text :=
  if isAbsolute right then right
  else if left.isEmpty || left.getLast? == some '/' then left ++ right
  else left ++ '/' :: right

/-- Takes one piece of a path onto the stack of its names, last name first. -/
def cleanStep (rooted : Bool) (names : List Text) (piece : Text) : List Text :=
  if isInert piece then names
  else if piece = above then
    match names with
    | [] => if rooted then [] else [above]
    | top :: rest => if top = above then above :: top :: rest else rest
  else piece :: names

/-- The shortest path that means the same when no name on it is a link. -/
def clean (path : Text) : Text :=
  let names := ((pieces path).foldl (cleanStep (isAbsolute path)) []).reverse
  if isAbsolute path then '/' :: List.intercalate ['/'] names
  else if names.isEmpty then ['.']
  else List.intercalate ['/'] names

/-! ## the parent is shorter -/

/-- The lead of a path and the rest make up the path. -/
theorem append_splitLead (path : Text) : (splitLead path).1 ++ (splitLead path).2 = path := by
  unfold splitLead
  split <;> simp

/-- The text before a named piece is shorter than the text that holds it. -/
theorem length_lt_of_namedFromEnd {path piece : Text} {before : List Text}
    (h : namedFromEnd path = piece :: before) :
    (List.intercalate ['/'] (before.dropWhile isInert).reverse).length <
      (splitLead path).2.length := by
  have hinert : isInert piece = false := by
    have := List.head?_dropWhile_not isInert (pieces (splitLead path).2).reverse
    simp only [namedFromEnd] at h
    rw [h] at this
    simpa using this
  have hpos : 0 < piece.length := by
    cases piece with
    | nil => simp [isInert] at hinert
    | cons c s => simp
  have hpieces : pieces (splitLead path).2 =
      (before.dropWhile isInert).reverse ++
        ((before.takeWhile isInert).reverse ++
          piece :: ((pieces (splitLead path).2).reverse.takeWhile isInert).reverse) := by
    have hall := List.takeWhile_append_dropWhile (p := isInert)
      (l := (pieces (splitLead path).2).reverse)
    rw [show (pieces (splitLead path).2).reverse.dropWhile isInert = piece :: before from h] at hall
    have hbefore := List.takeWhile_append_dropWhile (p := isInert) (l := before)
    rw [← List.append_assoc, ← List.reverse_append, hbefore]
    simpa using (congrArg List.reverse hall).symm
  have hjoin : List.intercalate ['/'] (List.splitOn '/' (splitLead path).2) = (splitLead path).2 :=
    List.intercalate_splitOn '/'
  rw [show List.splitOn '/' (splitLead path).2 = _ from hpieces] at hjoin
  rw [← hjoin]
  by_cases hb : (before.dropWhile isInert).reverse = []
  · have : piece ∈ (before.dropWhile isInert).reverse ++
        ((before.takeWhile isInert).reverse ++
          piece :: ((pieces (splitLead path).2).reverse.takeWhile isInert).reverse) := by simp
    have := length_le_intercalate ['/'] this
    rw [hb] at this ⊢
    exact Nat.lt_of_lt_of_le hpos this
  · obtain ⟨q, qs, hq⟩ := List.exists_cons_of_ne_nil
      (List.append_ne_nil_of_right_ne_nil (before.takeWhile isInert).reverse
        (List.cons_ne_nil piece ((pieces (splitLead path).2).reverse.takeWhile isInert).reverse))
    rw [hq, intercalate_append_cons _ hb]
    simp only [List.length_append, List.length_cons]
    omega

/-- A parent is shorter than what it is the parent of. -/
theorem length_lt_of_parent? {path parent : Text} (h : parent? path = some parent) :
    parent.length < path.length := by
  have happ := congrArg List.length (append_splitLead path)
  simp only [List.length_append] at happ
  unfold parent? at h
  split at h
  · split at h
    · rename_i hlead
      simp only [Option.some.injEq] at h
      subst h
      simp only [hlead, List.length_cons, List.length_nil] at happ ⊢
      omega
    · simp at h
  · rename_i piece before hn
    have := length_lt_of_namedFromEnd hn
    simp only [Option.some.injEq] at h
    subst h
    simp only [List.length_append]
    omega

end ImportWatch.PathText
