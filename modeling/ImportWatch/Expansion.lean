import ImportWatch.Braces
import ImportWatch.Layout

/-!
# ImportWatch.Expansion

From the text of a statement to the paths that it brings into scope.

* `statementBody` checks the shape of a statement and answers what stands
  between its keyword and its terminator, on one line;
* `resolve` works through the texts that are still to be expanded: the first
  group of the front text is replaced by each of its alternatives in turn, and
  a text without a group is read as a path;
* `expand` puts the two together: `use a::{b, c::{d, e}};` stands for `a::b`,
  `a::c::d` and `a::c::e` in that order, duplicates kept, and any malformed
  part rejects the whole statement.
-/

namespace ImportWatch

open Text

/-- A statement on one line and the paths that it stands for. -/
structure Imports where
  statement : Text
  paths : List ModulePath
  deriving DecidableEq, Repr

/-- The number of texts that may be taken up while one statement is expanded. -/
def stepLimit : Nat := 4096

/-- What stands between the keyword and the terminator of a statement, on one line. -/
def statementBody (text : Text) : Except Rejection Text :=
  match keyword.isPrefixOf? text with
  | none => .error .missingKeyword
  | some rest =>
    if terminator ∉ rest then .error .missingTerminator
    else
      let line := oneLine rest
      let body := line.dropLast
      if '/' ∈ line then .error .straySlash
      else if line.getLast? ≠ some terminator then .error .trailingText
      else if terminator ∈ body then .error .extraTerminator
      else if isAllBlank body then .error .noPath
      else .ok body

/-- The statement with a given body. -/
def statementOfBody (body : Text) : Text := keyword ++ (body ++ [terminator])

/-- Expands the pending texts, front first, within a number of steps. -/
def resolve : (steps : Nat) → (pending : List Text) → Except Rejection (List ModulePath)
  | _, [] => .ok []
  | 0, _ :: _ => .error (.tooManySteps stepLimit)
  | steps + 1, item :: pending =>
    match Braced.first? item with
    | .error e => .error e
    | .ok (some g) => resolve steps (g.choices ++ pending)
    | .ok none =>
      match ModulePath.read item with
      | .error e => .error e
      | .ok p => (resolve steps pending).map (p :: ·)

@[simp] theorem resolve_nil (steps : Nat) : resolve steps [] = .ok [] := by
  cases steps <;> rfl

theorem resolve_zero_cons (item : Text) (pending : List Text) :
    resolve 0 (item :: pending) = .error (.tooManySteps stepLimit) := rfl

theorem resolve_of_group (steps : Nat) {item : Text} {g : Braced} (pending : List Text)
    (h : Braced.first? item = .ok (some g)) :
    resolve (steps + 1) (item :: pending) = resolve steps (g.choices ++ pending) := by
  rw [resolve, h]

theorem resolve_of_path (steps : Nat) {item : Text} (pending : List Text)
    (h : Braced.first? item = .ok none) :
    resolve (steps + 1) (item :: pending) = do
      let p ← ModulePath.read item
      return p :: (← resolve steps pending) := by
  rw [resolve, h]
  cases ModulePath.read item with
  | error e => rfl
  | ok p => cases resolve steps pending <;> rfl

theorem resolve_of_rejection (steps : Nat) {item : Text} {e : Rejection} (pending : List Text)
    (h : Braced.first? item = .error e) : resolve (steps + 1) (item :: pending) = .error e := by
  rw [resolve, h]

/-- Expands a statement into the paths that it stands for. -/
def expand (text : Text) : Except Rejection Imports :=
  match statementBody text with
  | .error e => .error e
  | .ok body => (resolve stepLimit [body]).map fun paths => ⟨statementOfBody body, paths⟩

end ImportWatch
