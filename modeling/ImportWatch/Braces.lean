import ImportWatch.ModulePath

/-!
# ImportWatch.Braces

Groups of alternatives in braces.

* `splitClosing?` reads up to the brace that closes the open group;
* `Braced.first?` finds the first outermost group of a text and tells
  unclosed from unmatched braces;
* `alternatives` splits the contents of a group at the commas of its own level;
* `Braced.choices` are the texts with the group replaced by each of its
  alternatives.
-/

namespace ImportWatch

open Text

/-- A text around its first outermost group: `before{inside}after`. -/
structure Braced where
  before : Text
  inside : Text
  after : Text
  deriving DecidableEq, Repr

/-- Reads up to the brace that closes the open group, with `depth` further
groups open inside of it; answers what stands before and behind that brace. -/
def splitClosing? : (depth : Nat) → Text → Option (Text × Text)
  | _, [] => none
  | depth, c :: s =>
    if c = '{' then (splitClosing? (depth + 1) s).map fun (a, b) => (c :: a, b)
    else if c = '}' then
      match depth with
      | 0 => some ([], s)
      | depth + 1 => (splitClosing? depth s).map fun (a, b) => (c :: a, b)
    else (splitClosing? depth s).map fun (a, b) => (c :: a, b)

/-- True for the two braces. -/
def isBrace (c : Char) : Bool := c == '{' || c == '}'

/-- The pieces of a text at the commas that stand outside of groups, with
`depth` groups open at its start. -/
def splitCommas : (depth : Nat) → Text → List Text
  | _, [] => [[]]
  | depth, c :: s =>
    if c = '{' then List.modifyHead (c :: ·) (splitCommas (depth + 1) s)
    else if c = '}' then List.modifyHead (c :: ·) (splitCommas (depth - 1) s)
    else if c = ',' ∧ depth = 0 then [] :: splitCommas 0 s
    else List.modifyHead (c :: ·) (splitCommas depth s)

/-- The alternatives in a group: the pieces at the commas of its own level,
trimmed, without the blank ones. -/
def alternatives (inside : Text) : List Text :=
  ((splitCommas 0 inside).map trim).filter fun a => !a.isEmpty

namespace Braced

/-- The first outermost group of a text, if it has one. -/
def first? (item : Text) : Except Rejection (Option Braced) :=
  match item.dropWhile (fun c => !isBrace c) with
  | [] => .ok none
  | c :: rest =>
    if c = '}' then .error (.unmatchedBrace item)
    else
      match splitClosing? 0 rest with
      | none => .error (.unclosedBrace item)
      | some (inside, after) =>
        .ok (some ⟨item.takeWhile (fun c => !isBrace c), inside, after⟩)

/-- The text around a group with one of its alternatives in its place. -/
def fill (g : Braced) (alternative : Text) : Text := g.before ++ alternative ++ g.after

/-- The texts with the group replaced by each of its alternatives, in order. -/
def choices (g : Braced) : List Text := (alternatives g.inside).map g.fill

end Braced

theorem splitClosing?_opening (depth : Nat) (s : Text) :
    splitClosing? depth ('{' :: s) =
      (splitClosing? (depth + 1) s).map fun (a, b) => ('{' :: a, b) := by
  cases depth <;> simp [splitClosing?]

theorem splitClosing?_closing_zero (s : Text) : splitClosing? 0 ('}' :: s) = some ([], s) := by
  simp [splitClosing?]

theorem splitClosing?_closing_succ (depth : Nat) (s : Text) :
    splitClosing? (depth + 1) ('}' :: s) =
      (splitClosing? depth s).map fun (a, b) => ('}' :: a, b) := by
  simp [splitClosing?]

theorem splitClosing?_plain (depth : Nat) {c : Char} (h : isBrace c = false) (s : Text) :
    splitClosing? depth (c :: s) = (splitClosing? depth s).map fun (a, b) => (c :: a, b) := by
  simp only [isBrace, Bool.or_eq_false_iff, beq_eq_false_iff_ne] at h
  cases depth <;> simp [splitClosing?, h.1, h.2]

theorem Braced.first?_plain {c : Char} (h : isBrace c = false) {s : Text} {g : Braced}
    (hs : first? s = .ok (some g)) :
    first? (c :: s) = .ok (some { g with before := c :: g.before }) := by
  simp only [first?, List.dropWhile_cons, List.takeWhile_cons, h, Bool.not_false] at hs ⊢
  cases hd : s.dropWhile (fun c => !isBrace c) with
  | nil => simp [hd] at hs
  | cons d rest =>
      simp only [hd] at hs ⊢
      by_cases hclose : d = '}'
      · simp [hclose] at hs
      · cases hr : splitClosing? 0 rest with
        | none => simp [hclose, hr] at hs
        | some ab =>
            obtain ⟨a, b⟩ := ab
            simp only [hclose, hr, if_false, Except.ok.injEq, Option.some.injEq] at hs
            simp [hclose, hr, ← hs]

/-- Nothing but the closing brace is lost at the cut. -/
theorem append_of_splitClosing? {depth : Nat} {s a b : Text}
    (h : splitClosing? depth s = some (a, b)) : s = a ++ '}' :: b := by
  fun_induction splitClosing? depth s generalizing a with
  | case1 => simp at h
  | case2 depth s ih | case4 s depth hc ih | case5 depth c s hc hd ih =>
      simp only [Option.map_eq_some_iff, Prod.exists, Prod.mk.injEq] at h
      obtain ⟨a', b', hab, rfl, rfl⟩ := h
      simp [← ih hab]
  | case3 s hc => simp_all

end ImportWatch
