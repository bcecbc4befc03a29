import ImportWatch.Text.Pieces

/-!
# ImportWatch.Grammar

The marks of the import syntax that is watched.

A statement starts with `use ` at the start of a line and ends at the first
`;` outside of a line comment `//`.  Its paths are segments separated by `::`,
a path may end in a rename `as name`, and groups of alternatives stand in
braces with commas between them.

* `uncommented` is a line without its line comment;
* `splitTerminator?` cuts a line after its first uncommented `;`
  (`isTerminated_iff`, `append_of_splitTerminator?`);
* `splitPath` cuts a path at `::`;
* `withoutRename` drops a rename.
-/

namespace ImportWatch

open Text

/-- The word, with the blank after it, that starts a statement. -/
def keyword : Text := ['u', 's', 'e', ' ']

/-- True when a text starts with the keyword. -/
def startsStatement (s : Text) : Bool := keyword.isPrefixOf s

/-- The character that ends a statement. -/
def terminator : Char := ';'

/-- The mark between two segments of a path. -/
def pathSeparator : Text := [':', ':']

/-- The mark between a name and its new name. -/
def renameMark : Text := [' ', 'a', 's', ' ']

/-! ## line comments and terminators -/

/-- A line up to its line comment. -/
def uncommented : Text → Text
  | [] => []
  | '/' :: '/' :: _ => []
  | c :: s => c :: uncommented s

/-- A line cut after its first terminator outside of a line comment, if it has one. -/
def splitTerminator? : Text → Option (Text × Text)
  | [] => none
  | '/' :: '/' :: _ => none
  | c :: s =>
    if c = terminator then some ([c], s)
    else (splitTerminator? s).map fun (ended, rest) => (c :: ended, rest)

/-- True when a line has a terminator outside of a line comment. -/
def isTerminated (line : Text) : Bool := (splitTerminator? line).isSome

/-- Nothing is lost at the cut, and what stands before it is not empty. -/
theorem append_of_splitTerminator? {line ended rest : Text}
    (h : splitTerminator? line = some (ended, rest)) : line = ended ++ rest ∧ ended ≠ [] := by
  fun_induction splitTerminator? line generalizing ended with
  | case1 => simp at h
  | case2 => simp at h
  | case3 s => simp at h; simp [← h]
  | case4 c s _ _ ih =>
      simp only [Option.map_eq_some_iff, Prod.exists, Prod.mk.injEq] at h
      obtain ⟨a, b, hab, rfl, rfl⟩ := h
      simp [(ih hab).1]

/-- A line is terminated exactly when its uncommented part holds a terminator. -/
theorem isTerminated_iff (line : Text) :
    isTerminated line = true ↔ terminator ∈ uncommented line := by
  unfold isTerminated
  fun_induction splitTerminator? line with
  | case1 => simp [uncommented]
  | case2 => simp [uncommented]
  | case3 s h => rw [uncommented] <;> simp_all
  | case4 c s h hc ih =>
      rw [uncommented]
      · simp [ih, Ne.symm hc]
      · simpa using h

/-! ## paths -/

/-- The pieces of a path between its separators; they are found from the left,
so three colons are a separator and a colon. -/
def splitPath : Text → List Text
  | [] => [[]]
  | ':' :: ':' :: s => [] :: splitPath s
  | c :: s => List.modifyHead (c :: ·) (splitPath s)

/-- A path without the separator that it may start with. -/
def withoutLeadingSeparator : Text → Text
  | ':' :: ':' :: s => s
  | s => s

/-- A segment up to its first rename mark. -/
def withoutRename : Text → Text
  | [] => []
  | ' ' :: 'a' :: 's' :: ' ' :: _ => []
  | c :: s => c :: withoutRename s

theorem splitPath_ne_nil (s : Text) : splitPath s ≠ [] := by
  fun_induction splitPath s with
  | case1 => simp
  | case2 => simp
  | case3 c s _ ih => cases h : splitPath s <;> simp_all

theorem not_infix_of_colon_notMem {s : Text} (h : ':' ∉ s) : ¬pathSeparator <:+: s :=
  fun hs => h (hs.subset List.mem_cons_self)

theorem splitPath_eq_singleton {s : Text} (h : ¬pathSeparator <:+: s) : splitPath s = [s] := by
  fun_induction splitPath s with
  | case1 => rfl
  | case2 s ih => exact absurd (List.prefix_append pathSeparator s).isInfix h
  | case3 c s _ ih =>
      rw [ih fun hs => h (hs.trans (List.suffix_cons c s).isInfix)]
      rfl

/-- A separator is found where no other one starts before it. -/
theorem splitPath_append_separator {s : Text} (h : ¬pathSeparator <:+: s)
    (hlast : s.getLast? ≠ some ':') (t : Text) :
    splitPath (s ++ (pathSeparator ++ t)) = s :: splitPath t := by
  induction s with
  | nil => rfl
  | cons c s ih =>
      have hs : ¬pathSeparator <:+: s := fun hs => h (hs.trans (List.suffix_cons c s).isInfix)
      cases s with
      | nil =>
          have hc : c ≠ ':' := by simpa using hlast
          rw [List.cons_append, splitPath, ih hs (by simp)]
          · rfl
          · rintro _ rfl
            exact absurd rfl hc
      | cons d s =>
          rw [List.cons_append, splitPath, ih hs (by simpa using hlast)]
          · rfl
          · rintro _ rfl hd
            cases hd
            exact h (List.prefix_append pathSeparator s).isInfix

theorem withoutRename_eq_self {s : Text} (h : ¬renameMark <:+: s) : withoutRename s = s := by
  fun_induction withoutRename s with
  | case1 => rfl
  | case2 s => exact absurd (List.prefix_append renameMark s).isInfix h
  | case3 c s _ ih => rw [ih fun hs => h (hs.trans (List.suffix_cons c s).isInfix)]

theorem withoutRename_of_not_mem {s : Text} (h : ' ' ∉ s) (t : Text) :
    withoutRename (s ++ t) = s ++ withoutRename t := by
  induction s with
  | nil => rfl
  | cons c s ih =>
      have hc : c ≠ ' ' := fun hc => h (hc ▸ List.mem_cons_self)
      have hs : ' ' ∉ s := fun hs => h (List.mem_cons_of_mem c hs)
      rw [List.cons_append, withoutRename, ih hs]
      · rfl
      · rintro _ rfl
        exact absurd rfl hc

end ImportWatch
