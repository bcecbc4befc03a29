import ImportWatch.Proofs.CrossProduct
import ImportWatch.Proofs.PathPieces
import ImportWatch.Proofs.UseTree

/-!
# ImportWatch.Proofs.TreeExpansion

What is denoted by a use-tree that is written on one line.

* `UseTree.nested` is a tree written on one line;
* `UseTree.denoted_nested`: it denotes the texts of its imports, in order;
* `UseTree.length_visits_nested`: it takes one step for every alternative, and
  one for the tree itself;
* `read_leaf` reads the path of an import from its text.
-/

namespace ImportWatch

open Text

/-! ## characters in front of nested texts -/

/-- True for the characters that mark no group, no comment and no end of a statement. -/
structure Unmarked (c : Char) : Prop where
  brace : isBrace c = false
  comma : c ≠ ','
  slash : c ≠ '/'
  stop : c ≠ terminator

namespace Nested

/-- A nested text behind the characters of a text that are no braces. -/
def chars : Text → Nested → Nested
  | [], t => t
  | c :: s, t => if h : isBrace c = false then char c h (chars s t) else chars s t

theorem chars_cons {c : Char} (h : isBrace c = false) (s : Text) (t : Nested) :
    chars (c :: s) t = char c h (chars s t) := by
  rw [chars, dif_pos h]

variable {s : Text}

theorem text_chars (h : ∀ c ∈ s, Unmarked c) (t : Nested) :
    (chars s t).text = s ++ t.text := by
  induction s with
  | nil => rfl
  | cons c s ih =>
      obtain ⟨hc, hs⟩ := List.forall_mem_cons.1 h
      rw [chars_cons hc.brace, text, ih hs, List.cons_append]

theorem denoted_chars (h : ∀ c ∈ s, Unmarked c) (t : Nested) :
    (chars s t).denoted = t.denoted.map (s ++ ·) := by
  induction s with
  | nil => exact (List.map_id _).symm
  | cons c s ih =>
      obtain ⟨hc, hs⟩ := List.forall_mem_cons.1 h
      rw [chars_cons hc.brace, denoted_char, ih hs, List.map_map]
      rfl

theorem choices?_chars (h : ∀ c ∈ s, Unmarked c) (t : Nested) :
    (chars s t).choices? = t.choices?.map (List.map (chars s)) := by
  induction s with
  | nil =>
      have hid : chars [] = id := rfl
      rw [hid, List.map_id_fun, Option.map_id_fun]
      rfl
  | cons c s ih =>
      obtain ⟨hc, hs⟩ := List.forall_mem_cons.1 h
      have hcons : chars (c :: s) = fun t => char c hc.brace (chars s t) := by
        funext t
        exact chars_cons hc.brace s t
      rw [hcons, choices?, ih hs, Option.map_map]
      congr 1
      funext ts
      exact List.map_map

/-- Characters in front change nothing in the tree of choices. -/
theorem visits_chars (h : ∀ c ∈ s, Unmarked c) (t : Nested) :
    (chars s t).visits = t.visits.map (chars s) := by
  -- the nodes below a node have fewer groups
  induction hn : t.text.count '{' using Nat.strongRecOn generalizing t with
  | ind n ih =>
      subst hn
      cases hts : t.choices? with
      | none =>
          have hplain : t.isPlain = true := by rw [isPlain, hts]; rfl
          have hplain' : (chars s t).isPlain = true := by rw [isPlain, choices?_chars h, hts]; rfl
          rw [visits_of_isPlain hplain, visits_of_isPlain hplain', List.map_singleton]
      | some ts =>
          have hts' : (chars s t).choices? = some (ts.map (chars s)) := by
            rw [choices?_chars h, hts]
            rfl
          have hbelow : ∀ u ∈ ts, (chars s u).visits = u.visits.map (chars s) :=
            fun u hu => ih _ (count_of_mem_choices hts hu) u rfl
          rw [visits_of_choices? hts, visits_of_choices? hts', List.map_cons, List.flatMap_map,
            List.map_flatMap, List.flatMap_def, List.flatMap_def, List.map_congr_left hbelow]

theorem splitCommas_chars (h : ∀ c ∈ s, Unmarked c) {t u : Nested} {us : List Nested}
    (ht : t.splitCommas = u :: us) :
    (chars s t).splitCommas = chars s u :: us := by
  induction s with
  | nil => exact ht
  | cons c s ih =>
      obtain ⟨hc, hs⟩ := List.forall_mem_cons.1 h
      rw [chars_cons hc.brace, chars_cons hc.brace, splitCommas, if_neg hc.comma, ih hs]
      rfl

/-- A comma ends the first part when there is none before it. -/
theorem splitCommas_append_comma {t : Nested} (ht : t.splitCommas = [t])
    (h : isBrace ',' = false) (u : Nested) :
    (t.append (char ',' h u)).splitCommas = t :: u.splitCommas := by
  induction t with
  | nil => rw [append, splitCommas, if_pos rfl]
  | char c hc rest ih =>
      rw [splitCommas] at ht
      by_cases hcomma : c = ','
      · rw [if_pos hcomma] at ht
        cases ht
      · rw [if_neg hcomma] at ht
        have hrest : rest.splitCommas = [rest] := by
          cases hsplit : rest.splitCommas with
          | nil => simp [hsplit] at ht
          | cons p ps => simpa [hsplit] using ht
        rw [append, splitCommas, if_neg hcomma, ih hrest]
        rfl
  | group inside rest _ ih =>
      rw [splitCommas] at ht
      have hrest : rest.splitCommas = [rest] := by
        cases hsplit : rest.splitCommas with
        | nil => simp [hsplit] at ht
        | cons p ps => simpa [hsplit] using ht
      rw [append, splitCommas, ih hrest]
      rfl

end Nested

/-! ## trees on one line -/

theorem isSegmentChar_iff {c : Char} :
    isSegmentChar c = true ↔ isBlank c = false ∧ c ≠ ':' ∧ c ≠ '{' ∧ c ≠ '}' ∧ c ≠ ',' ∧ c ≠ ';' ∧
      c ≠ '/' := by
  simp [isSegmentChar, and_assoc]

theorem Unmarked.of_isSegmentChar {c : Char} (h : isSegmentChar c = true) : Unmarked c := by
  obtain ⟨_, _, hopen, hclose, hcomma, hstop, hslash⟩ := isSegmentChar_iff.1 h
  have hbrace : isBrace c = false := by simp [isBrace, hopen, hclose]
  exact ⟨hbrace, hcomma, hslash, hstop⟩

theorem unmarked_space : Unmarked ' ' := ⟨rfl, by decide, by decide, by decide⟩

theorem unmarked_colon : Unmarked ':' := ⟨rfl, by decide, by decide, by decide⟩

theorem Segment.isBlank_of_mem (n : Segment) {c : Char} (h : c ∈ n.text) : isBlank c = false :=
  (isSegmentChar_iff.1 (n.plain c h)).1

theorem Leaf.of_mem_lastText {l : Leaf} {c : Char} (h : c ∈ l.lastText) :
    c = ' ' ∨ isSegmentChar c = true := by
  unfold lastText at h
  cases hr : l.rename with
  | none =>
      rw [hr] at h
      exact .inr (l.name.plain c h)
  | some newName =>
      rw [hr] at h
      cases List.mem_append.1 h with
      | inl h => exact .inr (l.name.plain c h)
      | inr h =>
          simp only [List.mem_cons] at h
          rcases h with rfl | rfl | rfl | rfl | h
          · exact .inl rfl
          · exact .inr (by decide)
          · exact .inr (by decide)
          · exact .inl rfl
          · exact .inr (newName.plain c h)

theorem Leaf.unmarked_lastText (l : Leaf) : ∀ c ∈ l.lastText, Unmarked c := by
  intro c hc
  cases of_mem_lastText hc with
  | inl h => exact h ▸ unmarked_space
  | inr h => exact .of_isSegmentChar h

theorem unmarked_pathSeparator : ∀ c ∈ pathSeparator, Unmarked c := by
  intro c hc
  obtain rfl : c = ':' := by simpa [pathSeparator] using hc
  exact unmarked_colon

theorem Segment.unmarked_moduleText (n : Segment) : ∀ c ∈ n.moduleText, Unmarked c := by
  intro c hc
  cases List.mem_append.1 hc with
  | inl h => exact .of_isSegmentChar (n.plain c h)
  | inr h => exact unmarked_pathSeparator c h

/-- What is written in front of an alternative when a gap stands there. -/
def joiner (first : Bool) (gap : Gap) : Text := if first || gap.isEmpty then [] else [' ']

mutual
/-- A tree written on one line. -/
def UseTree.nested : UseTree → Nested
  | .leaf name => .chars (Leaf.lastText ⟨[], name, none⟩) .nil
  | .renamed name _ _ _ _ newName => .chars (Leaf.lastText ⟨[], name, some newName⟩) .nil
  | .under name _ _ rest => .chars name.moduleText rest.nested
  | .group contents => .group (contents.nested true) .nil

/-- What stands in a group, written on one line; a space stands before an alternative
only behind a comma. -/
def Contents.nested (first : Bool) : Contents → Nested
  | .blank _ => .nil
  | .last before tree _ => .chars (joiner first before) tree.nested
  | .skip _ rest => .char ',' (by decide) (rest.nested false)
  | .cons before tree _ rest =>
    .chars (joiner first before) (tree.nested.append (.char ',' (by decide) (rest.nested false)))
end

theorem unmarked_joiner (first : Bool) (gap : Gap) : ∀ c ∈ joiner first gap, Unmarked c := by
  intro c hc
  unfold joiner at hc
  split at hc
  · cases hc
  · rw [List.mem_singleton.1 hc]
    exact unmarked_space

/-! ## what a tree denotes -/

theorem Segment.isTrim (n : Segment) : IsTrim n.text :=
  .of_not_isBlank n.ne_nil fun _ => n.isBlank_of_mem

theorem IsTrim.behind_module {s : Text} (h : IsTrim s) (n : Segment) :
    IsTrim (n.moduleText ++ s) := by
  rw [Segment.moduleText, List.append_assoc]
  exact n.isTrim.append h pathSeparator

theorem Leaf.isTrim_lastText (l : Leaf) : IsTrim l.lastText := by
  unfold lastText
  cases l.rename with
  | none => exact l.name.isTrim
  | some newName => exact l.name.isTrim.append newName.isTrim [' ', 'a', 's', ' ']

theorem UseTree.isTrim_nested : (t : UseTree) → IsTrim t.nested.text
  | .leaf name => by
      rw [nested, Nested.text_chars (Leaf.unmarked_lastText _), Nested.text,
        List.append_nil]
      exact Leaf.isTrim_lastText _
  | .renamed name _ _ _ _ newName => by
      rw [nested, Nested.text_chars (Leaf.unmarked_lastText _), Nested.text,
        List.append_nil]
      exact Leaf.isTrim_lastText _
  | .under name _ _ rest => by
      rw [nested, Nested.text_chars name.unmarked_moduleText]
      exact rest.isTrim_nested.behind_module name
  | .group contents => by
      rw [nested, Nested.text, Nested.text]
      exact ⟨⟨'{', _, rfl, rfl⟩, ⟨'{' :: (contents.nested true).text, '}', rfl, rfl⟩⟩

theorem UseTree.splitCommas_nested : (t : UseTree) → t.nested.splitCommas = [t.nested]
  | .leaf _ => Nested.splitCommas_chars (Leaf.unmarked_lastText _) rfl
  | .renamed .. => Nested.splitCommas_chars (Leaf.unmarked_lastText _) rfl
  | .under name _ _ rest =>
      Nested.splitCommas_chars name.unmarked_moduleText rest.splitCommas_nested
  | .group _ => rfl

theorem UseTree.nested_ne_nil (t : UseTree) : t.nested ≠ .nil := by
  intro h
  obtain ⟨c, s, hs, _⟩ := t.isTrim_nested.start
  rw [h] at hs
  cases hs

theorem trim_chars_joiner (first : Bool) (gap : Gap) (t : UseTree) :
    (Nested.chars (joiner first gap) t.nested).trim = t.nested := by
  apply Nested.text_injective
  rw [Nested.text_trim, Nested.text_chars (unmarked_joiner _ _)]
  unfold joiner
  split
  · exact t.isTrim_nested.trim_eq
  · show trim (' ' :: t.nested.text) = t.nested.text
    rw [trim, trimStart_cons_of_isBlank rfl]
    exact t.isTrim_nested.trim_eq

/-- The alternatives in a group are its trees. -/
theorem Contents.alternatives_nested (first : Bool) :
    (c : Contents) → (c.nested first).alternatives = c.trees.map UseTree.nested
  | .blank _ => rfl
  | .last before tree _ => by
      have hsplit := Nested.splitCommas_chars (unmarked_joiner first before) tree.splitCommas_nested
      rw [nested, Nested.alternatives, hsplit, trees, List.map_singleton, trim_chars_joiner]
      simp [tree.nested_ne_nil]
  | .skip _ rest => by
      have ih := rest.alternatives_nested false
      unfold Nested.alternatives at ih
      rw [nested, Nested.alternatives, Nested.splitCommas, if_pos rfl, List.map_cons, trees, ← ih]
      rfl
  | .cons before tree _ rest => by
      have ih := rest.alternatives_nested false
      unfold Nested.alternatives at ih
      have htail := Nested.splitCommas_append_comma tree.splitCommas_nested (by decide)
        (rest.nested false)
      have hsplit := Nested.splitCommas_chars (unmarked_joiner first before) htail
      rw [nested, Nested.alternatives, hsplit, List.map_cons, trim_chars_joiner, trees,
        List.map_cons, ← ih]
      simp [tree.nested_ne_nil]

theorem Leaf.text_under (l : Leaf) (m : Segment) :
    (l.under m).text = m.moduleText ++ l.text := by
  simp [text, under, lastText, Segment.moduleText]

mutual
/-- A tree denotes the texts of its imports. -/
theorem UseTree.denoted_nested : (t : UseTree) → t.nested.denoted = t.leaves.map Leaf.text
  | .leaf name => by
      rw [UseTree.nested, Nested.denoted_chars (Leaf.unmarked_lastText _), Nested.denoted_nil,
        List.map_singleton, List.append_nil]
      rfl
  | .renamed name _ _ _ _ newName => by
      rw [UseTree.nested, Nested.denoted_chars (Leaf.unmarked_lastText _), Nested.denoted_nil,
        List.map_singleton, List.append_nil]
      rfl
  | .under name _ _ rest => by
      rw [UseTree.nested, Nested.denoted_chars name.unmarked_moduleText, rest.denoted_nested,
        UseTree.leaves, List.map_map, List.map_map]
      congr 1
      funext l
      exact (l.text_under name).symm
  | .group contents => by
      have hunit (ss : List Text) : (ss.flatMap fun s => Nested.nil.denoted.map (s ++ ·)) = ss := by
        simp
      rw [UseTree.nested, Nested.denoted_group, hunit, contents.alternatives_nested,
        List.flatMap_map, contents.denoted_trees, UseTree.leaves]

theorem Contents.denoted_trees :
    (c : Contents) → (c.trees.flatMap fun t => t.nested.denoted) = c.leaves.map Leaf.text
  | .blank _ => rfl
  | .last _ tree _ => by
      rw [Contents.trees, List.flatMap_singleton, tree.denoted_nested, Contents.leaves]
  | .skip _ rest => rest.denoted_trees
  | .cons _ tree _ rest => by
      rw [Contents.trees, List.flatMap_cons, tree.denoted_nested, rest.denoted_trees,
        Contents.leaves, List.map_append]
end

mutual
/-- The tree of choices has one node for every alternative, and its root. -/
theorem UseTree.length_visits_nested :
    (t : UseTree) → t.nested.visits.length = t.alternativeCount + 1
  | .leaf name => by
      rw [UseTree.nested, Nested.visits_chars (Leaf.unmarked_lastText _), List.length_map,
        Nested.visits_of_isPlain rfl]
      rfl
  | .renamed name _ _ _ _ newName => by
      rw [UseTree.nested, Nested.visits_chars (Leaf.unmarked_lastText _), List.length_map,
        Nested.visits_of_isPlain rfl]
      rfl
  | .under name _ _ rest => by
      rw [UseTree.nested, Nested.visits_chars name.unmarked_moduleText, List.length_map,
        rest.length_visits_nested, UseTree.alternativeCount]
  | .group contents => by
      have hunit (ts : List Nested) : (ts.map fun t => t.append .nil) = ts := by simp
      rw [UseTree.nested, Nested.visits_of_choices? rfl, hunit, contents.alternatives_nested,
        List.flatMap_map, List.length_cons, contents.length_visits_trees, UseTree.alternativeCount]

theorem Contents.length_visits_trees :
    (c : Contents) → (c.trees.flatMap fun t => t.nested.visits).length = c.alternativeCount
  | .blank _ => rfl
  | .last _ tree _ => by
      rw [Contents.trees, List.flatMap_singleton, tree.length_visits_nested,
        Contents.alternativeCount]
  | .skip _ rest => rest.length_visits_trees
  | .cons _ tree _ rest => by
      rw [Contents.trees, List.flatMap_cons, List.length_append, tree.length_visits_nested,
        rest.length_visits_trees, Contents.alternativeCount]
end

/-! ## reading the imports -/

theorem Segment.colon_notMem (n : Segment) : ':' ∉ n.text := by
  intro h
  exact (isSegmentChar_iff.1 (n.plain _ h)).2.1 rfl

theorem Leaf.colon_notMem_lastText (l : Leaf) : ':' ∉ l.lastText := by
  intro h
  cases of_mem_lastText h with
  | inl h => cases h
  | inr h => exact (isSegmentChar_iff.1 h).2.1 rfl

theorem splitPath_modules (ms : List Segment) {s : Text} (h : ':' ∉ s) :
    splitPath (ms.flatMap Segment.moduleText ++ s) = ms.map Segment.text ++ [s] := by
  induction ms with
  | nil => exact splitPath_eq_singleton (not_infix_of_colon_notMem h)
  | cons m ms ih =>
      have hlast : m.text.getLast? ≠ some ':' := fun h =>
        m.colon_notMem (List.mem_of_getLast? h)
      rw [List.flatMap_cons, Segment.moduleText, List.append_assoc, List.append_assoc,
        splitPath_append_separator (not_infix_of_colon_notMem m.colon_notMem) hlast, ih]
      rfl

theorem Leaf.withoutRename_lastText (l : Leaf) :
    trimEnd (withoutRename l.lastText) = l.name.text := by
  have hspace : ' ' ∉ l.name.text := by
    intro h
    have := l.name.isBlank_of_mem h
    cases this
  have htrim := l.name.isTrim.trimEnd_eq
  unfold lastText
  cases l.rename with
  | none =>
      have hwhole := withoutRename_of_not_mem hspace []
      rw [List.append_nil, withoutRename, List.append_nil] at hwhole
      simp only [hwhole, htrim]
  | some newName =>
      simp only [withoutRename_of_not_mem hspace, withoutRename, List.append_nil, htrim]

/-- The separator that a statement may start with. -/
def separatorText (rooted : Bool) : Text := if rooted then pathSeparator else []

theorem unmarked_separatorText (rooted : Bool) : ∀ c ∈ separatorText rooted, Unmarked c := by
  intro c hc
  cases rooted with
  | false => cases hc
  | true => exact unmarked_pathSeparator c hc

/-- The pieces of an import are its modules and its name with the new name. -/
theorem Leaf.trimmedPieces_text (l : Leaf) :
    trimmedPieces l.text = l.modules.map Segment.text ++ [l.lastText] := by
  have hmodules : (l.modules.map Segment.text).map trim = l.modules.map Segment.text := by
    rw [List.map_map]
    exact List.map_congr_left fun m _ => m.isTrim.trim_eq
  rw [trimmedPieces, Leaf.text, splitPath_modules _ l.colon_notMem_lastText, List.map_append,
    hmodules, List.map_singleton, l.isTrim_lastText.trim_eq]

/-- The path of an import is read from its text, also behind a leading separator. -/
theorem read_leaf (rooted : Bool) (l : Leaf) :
    ModulePath.read (separatorText rooted ++ l.text) = .ok l.path := by
  have hmodules : [] ∉ l.modules.map Segment.text := by
    intro hnil
    obtain ⟨m, _, hm⟩ := List.mem_map.1 hnil
    exact m.ne_nil hm
  have hpieces : dropEmptyLead (trimmedPieces (separatorText rooted ++ l.text)) =
      l.modules.map Segment.text ++ [l.lastText] := by
    cases rooted with
    | true =>
        have hroot : trimmedPieces (separatorText true ++ l.text) = [] :: trimmedPieces l.text :=
          rfl
        rw [hroot, dropEmptyLead_nil_cons (trimmedPieces_ne_nil l.text), l.trimmedPieces_text]
    | false =>
        have hbare : separatorText false ++ l.text = l.text := rfl
        have hnonempty : [] ∉ l.modules.map Segment.text ++ [l.lastText] := by
          simp [hmodules, Ne.symm l.isTrim_lastText.ne_nil]
        rw [hbare, l.trimmedPieces_text, dropEmptyLead_of_notMem hnonempty]
  have hname : trimEnd (withoutRename l.lastText) ≠ [] := by
    rw [l.withoutRename_lastText]
    exact l.name.ne_nil
  rw [ModulePath.read_of_pieces hpieces hmodules hname, l.withoutRename_lastText,
    ModulePath.dropFinalSelf_append, Leaf.path]
  simp only [ne_eq, List.map_eq_nil_iff]
  split <;> rfl

end ImportWatch
