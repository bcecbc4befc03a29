import ImportWatch.Grammar
import ImportWatch.Rejection

/-!
# ImportWatch.ModulePath

Fully qualified paths such as `std::fs::File`, without groups.

* `ModulePath.read` reads a path: a leading `::` is dropped, a rename at the
  end is dropped, and a final `self` stands for the module before it;
* `ModulePath.text` writes the segments with `::` between them;
* `ModulePath.startsWith` compares whole segments, never parts of one;
* paths are ordered segment by segment, each by its code points.
-/

namespace ImportWatch

open Text

/-- A fully qualified path, as its segments. -/
structure ModulePath where
  segments : List Text
  deriving DecidableEq, Repr

namespace ModulePath

/-- The segment that stands for the module before it. -/
def selfSegment : Text := ['s', 'e', 'l', 'f']

/-- Applies a function to the last of some segments. -/
def mapLast (f : Text → Text) : List Text → List Text
  | [] => []
  | [s] => [f s]
  | s :: t :: ts => s :: mapLast f (t :: ts)

/-- Drops a final `self`, unless it is all there is. -/
def dropFinalSelf : List Text → List Text
  | [] => []
  | [s] => [s]
  | [s, t] => if t = selfSegment then [s] else [s, t]
  | s :: t :: u :: ts => s :: dropFinalSelf (t :: u :: ts)

/-- The segments as they are written, without blanks around them and without a rename. -/
def writtenSegments (text : Text) : List Text :=
  mapLast (fun s => trimEnd (withoutRename s))
    ((splitPath (withoutLeadingSeparator (trim text))).map trim)

/-- Reads a path; it is rejected when a segment is empty. -/
def read (text : Text) : Except Rejection ModulePath :=
  let segments := writtenSegments text
  if segments.any List.isEmpty then .error (.emptySegment (trim text))
  else .ok ⟨dropFinalSelf segments⟩

/-- The segments of a path with separators between them. -/
def text (p : ModulePath) : Text := List.intercalate pathSeparator p.segments

/-- True when the first segments of a path are the given ones. -/
def startsWith (p : ModulePath) (lead : List Text) : Bool := lead.isPrefixOf p.segments

instance : LT ModulePath := ⟨fun p q => p.segments < q.segments⟩

instance : LE ModulePath := ⟨fun p q => ¬ q.segments < p.segments⟩

instance (p q : ModulePath) : Decidable (p ≤ q) :=
  inferInstanceAs (Decidable (¬ q.segments < p.segments))

/-- Paths in increasing order. -/
def sort (ps : List ModulePath) : List ModulePath := ps.mergeSort fun p q => decide (p ≤ q)

theorem startsWith_iff (p : ModulePath) (lead : List Text) :
    p.startsWith lead = true ↔ lead <+: p.segments := by
  simp [startsWith]

theorem mapLast_append (f : Text → Text) (ss : List Text) (s : Text) :
    mapLast f (ss ++ [s]) = ss ++ [f s] := by
  induction ss with
  | nil => rfl
  | cons t ss ih =>
      cases ss with
      | nil => rfl
      | cons u ss => exact congrArg (t :: ·) ih

/-- A final `self` is dropped behind any other segment. -/
theorem dropFinalSelf_append (ss : List Text) (s : Text) :
    dropFinalSelf (ss ++ [s]) =
      if s = selfSegment ∧ ss ≠ [] then ss else ss ++ [s] := by
  induction ss with
  | nil => simp [dropFinalSelf]
  | cons t ss ih =>
      cases ss with
      | nil =>
          by_cases hs : s = selfSegment <;> simp [dropFinalSelf, hs]
      | cons u ss =>
          have hcons : dropFinalSelf (t :: u :: ss ++ [s]) =
              t :: dropFinalSelf (u :: ss ++ [s]) := by
            cases ss <;> rfl
          rw [hcons, ih]
          by_cases hs : s = selfSegment <;> simp [hs]

end ModulePath

end ImportWatch
