import ImportWatch.Expansion

/-!
# ImportWatch.Proofs.UseTree

Use-trees with everything that they are written with.

* `Gap` is what may stand between two tokens: blanks and line comments, so that
  a tree may be spread over any number of lines;
* `UseTree` and `Contents` are the trees and what stands in their groups, each
  with its gaps; a group stands only at the end of an alternative, and it may
  be empty, have blank alternatives or end in a comma;
* `UseTree.leaves` are the imports of a tree, from left to right, and
  `Leaf.path` is the path of an import.
-/

namespace ImportWatch

open Text

/-! ## gaps -/

/-- A piece of what stands between two tokens. -/
inductive Filler where
  | blank (c : Char) (h : isBlank c = true)
  /-- A line comment up to the end of its line. -/
  | comment (words : Text) (h : '\n' ∉ words)

/-- A piece of a gap as it is written. -/
def Filler.text : Filler → Text
  | blank c _ => [c]
  | comment words _ => '/' :: '/' :: (words ++ ['\n'])

/-- What stands between two tokens. -/
abbrev Gap := List Filler

/-- A gap as it is written. -/
def Gap.text (g : Gap) : Text := g.flatMap Filler.text

/-! ## segments -/

/-- True for the characters that a segment of a path may hold. -/
def isSegmentChar (c : Char) : Bool :=
  !isBlank c && !(c == ':' || c == '{' || c == '}' || c == ',' || c == ';' || c == '/')

/-- A segment of a path, such as a name, `self` or `*`. -/
structure Segment where
  text : Text
  ne_nil : text ≠ []
  plain : ∀ c ∈ text, isSegmentChar c = true

/-- A module in front of what is in it. -/
def Segment.moduleText (n : Segment) : Text := n.text ++ pathSeparator

/-! ## trees -/

mutual
/-- A use-tree as it is written. -/
inductive UseTree where
  | leaf (name : Segment)
  | renamed (name : Segment) (before : Gap) (hb : before ≠ []) (after : Gap) (ha : after ≠ [])
      (newName : Segment)
  | under (name : Segment) (before after : Gap) (rest : UseTree)
  | group (contents : Contents)

/-- What stands between the braces of a group. -/
inductive Contents where
  | blank (gap : Gap)
  | last (before : Gap) (tree : UseTree) (after : Gap)
  | skip (gap : Gap) (rest : Contents)
  | cons (before : Gap) (tree : UseTree) (after : Gap) (rest : Contents)
end

mutual
/-- The text of a tree. -/
def UseTree.text : UseTree → Text
  | .leaf name => name.text
  | .renamed name before _ after _ newName =>
    name.text ++ (before.text ++ 'a' :: 's' :: (after.text ++ newName.text))
  | .under name before after rest =>
    name.text ++ (before.text ++ ':' :: ':' :: (after.text ++ rest.text))
  | .group contents => '{' :: (contents.text ++ ['}'])

/-- The text between the braces of a group. -/
def Contents.text : Contents → Text
  | .blank gap => gap.text
  | .last before tree after => before.text ++ (tree.text ++ after.text)
  | .skip gap rest => gap.text ++ ',' :: rest.text
  | .cons before tree after rest => before.text ++ (tree.text ++ (after.text ++ ',' :: rest.text))
end

/-- One import of a tree: the modules on the way to it, its name and its new name. -/
structure Leaf where
  modules : List Segment
  name : Segment
  rename : Option Segment

namespace Leaf

/-- The import in a module. -/
def under (l : Leaf) (m : Segment) : Leaf := { l with modules := m :: l.modules }

/-- The path of an import; `self` in a module is the module. -/
def path (l : Leaf) : ModulePath :=
  if l.name.text = ModulePath.selfSegment ∧ l.modules ≠ [] then ⟨l.modules.map Segment.text⟩
  else ⟨l.modules.map Segment.text ++ [l.name.text]⟩

/-- The name with the new name behind it. -/
def lastText (l : Leaf) : Text :=
  match l.rename with
  | none => l.name.text
  | some newName => l.name.text ++ ' ' :: 'a' :: 's' :: ' ' :: newName.text

/-- An import written on one line. -/
def text (l : Leaf) : Text := l.modules.flatMap Segment.moduleText ++ l.lastText

end Leaf

mutual
/-- The imports of a tree, from left to right. -/
def UseTree.leaves : UseTree → List Leaf
  | .leaf name => [⟨[], name, none⟩]
  | .renamed name _ _ _ _ newName => [⟨[], name, some newName⟩]
  | .under name _ _ rest => rest.leaves.map (·.under name)
  | .group contents => contents.leaves

/-- The imports in a group, from left to right. -/
def Contents.leaves : Contents → List Leaf
  | .blank _ => []
  | .last _ tree _ => tree.leaves
  | .skip _ rest => rest.leaves
  | .cons _ tree _ rest => tree.leaves ++ rest.leaves
end

mutual
/-- The number of alternatives in all groups of a tree; blank ones do not count. -/
def UseTree.alternativeCount : UseTree → Nat
  | .leaf _ => 0
  | .renamed .. => 0
  | .under _ _ _ rest => rest.alternativeCount
  | .group contents => contents.alternativeCount

/-- The number of alternatives in a group and in the groups inside of it. -/
def Contents.alternativeCount : Contents → Nat
  | .blank _ => 0
  | .last _ tree _ => tree.alternativeCount + 1
  | .skip _ rest => rest.alternativeCount
  | .cons _ tree _ rest => tree.alternativeCount + 1 + rest.alternativeCount
end

/-- The alternatives of a group. -/
def Contents.trees : Contents → List UseTree
  | .blank _ => []
  | .last _ tree _ => [tree]
  | .skip _ rest => rest.trees
  | .cons _ tree _ rest => tree :: rest.trees

/-! ## statements -/

/-- A use-tree between its keyword and its terminator. -/
structure UseStatement where
  lead : Gap
  /-- The gap behind a leading separator, if there is one. -/
  root : Option Gap
  tree : UseTree
  trail : Gap
  /-- The expansion of the statement stays within its steps. -/
  budget : tree.alternativeCount < stepLimit

namespace UseStatement

/-- The leading separator with the gap behind it. -/
def rootText (s : UseStatement) : Text :=
  match s.root with
  | none => []
  | some gap => pathSeparator ++ gap.text

/-- What is written behind the keyword. -/
def rest (s : UseStatement) : Text :=
  s.lead.text ++ (s.rootText ++ (s.tree.text ++ (s.trail.text ++ [terminator])))

/-- The text of a statement. -/
def text (s : UseStatement) : Text := keyword ++ s.rest

end UseStatement

/-- Blanks within a line. -/
structure Blanks where
  text : Text
  blank : ∀ c ∈ text, isBlank c = true
  newline_notMem : '\n' ∉ text

/-- What may stand behind the last terminator of a line: blanks and a line comment. -/
structure LineEnd where
  blanks : Blanks
  comment : Option { words : Text // '\n' ∉ words }

/-- The comment at the end of a line. -/
def LineEnd.commentText (e : LineEnd) : Text :=
  match e.comment with
  | none => []
  | some words => '/' :: '/' :: words.1

/-- The end of a line as it is written. -/
def LineEnd.text (e : LineEnd) : Text := e.blanks.text ++ e.commentText

end ImportWatch
