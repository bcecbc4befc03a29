import ImportWatch.Proofs.OneLine
import ImportWatch.Proofs.TreeExpansion

/-!
# ImportWatch.Proofs.TreeLayout

What becomes of use-trees when they are written on one line.

* `laid` is a text on one line, given what stands before it; `laid_gap` and
  `laid_word` say what it makes of gaps and words;
* `UseTree.laid_text`: of a tree nothing is left of its gaps but the spaces
  around `as` and those behind commas;
* `UseStatement.expand_eq`: a statement is expanded to the paths of its
  imports, in order, whatever it is laid out like.
-/

namespace ImportWatch

open Text

/-! ## gaps and words -/

/-- A text on one line, given the last character that was written before it and
whether blanks were passed since. -/
def laid (last : Option Char) (gap : Bool) (s : Text) : Text := tidy last gap (visible s)

theorem joint_of_opener {c : Char} (h : closesGapBefore c = false) (last : Option Char)
    (gap : Bool) : joint last gap c = joint last gap '{' := by
  have hopen : closesGapBefore '{' = false := rfl
  rw [joint, joint, h, hopen]

theorem joint_of_closesGapAfter {d : Char} (h : closesGapAfter d = true) (gap : Bool) (c : Char) :
    joint (some d) gap c = [] := by
  simp [joint, h]

/-- Of the last character nothing matters but whether a space may follow it. -/
theorem tidy_congr {c d : Char} (h : closesGapAfter c = closesGapAfter d) (gap : Bool) (s : Text) :
    tidy (some c) gap s = tidy (some d) gap s := by
  induction s generalizing gap with
  | nil => rfl
  | cons e s ih =>
      cases he : isBlank e with
      | true => rw [tidy_blank _ _ he, tidy_blank _ _ he, ih]
      | false =>
          have hjoint : joint (some c) gap e = joint (some d) gap e := by
            simp only [joint, Option.any_some, h]
          rw [tidy_plain _ _ he, tidy_plain _ _ he, hjoint]

theorem laid_plain {c : Char} (hblank : isBlank c = false) (hslash : c ≠ '/') (last : Option Char)
    (gap : Bool) (s : Text) :
    laid last gap (c :: s) = joint last gap c ++ c :: laid (some c) false s := by
  rw [laid, visible_cons hslash, tidy_plain _ _ hblank, laid]

theorem laid_blank {c : Char} (h : isBlank c = true) (last : Option Char) (gap : Bool) (s : Text) :
    laid last gap (c :: s) = laid last true s := by
  have hslash : c ≠ '/' := by
    rintro rfl
    cases h
  rw [laid, visible_cons hslash, tidy_blank _ _ h, laid]

/-- A gap is passed over and remembered. -/
theorem laid_gap (g : Gap) (last : Option Char) (gap : Bool) (s : Text) :
    laid last gap (g.text ++ s) = laid last (gap || !g.isEmpty) s := by
  induction g generalizing gap with
  | nil => rw [List.isEmpty_nil, Bool.not_true, Bool.or_false]; rfl
  | cons f g ih =>
      have hstep :
          laid last gap (f.text ++ (Gap.text g ++ s)) = laid last true (Gap.text g ++ s) := by
        cases f with
        | blank c h => exact laid_blank h last gap _
        | comment words h =>
            show laid last gap ('/' :: '/' :: (words ++ ['\n'] ++ (Gap.text g ++ s))) = _
            rw [List.append_assoc, List.singleton_append, laid, visible_comment h,
              tidy_blank _ _ isBlank_newline, laid]
      have htext : Gap.text (f :: g) ++ s = f.text ++ (Gap.text g ++ s) := by
        rw [Gap.text, List.flatMap_cons, List.append_assoc, Gap.text]
      rw [htext, hstep, ih, List.isEmpty_cons, Bool.not_false, Bool.or_true, Bool.true_or]

theorem closesGap_of_isSegmentChar {c : Char} (h : isSegmentChar c = true) :
    closesGapBefore c = false ∧ closesGapAfter c = false := by
  obtain ⟨_, hcolon, hopen, hclose, hcomma, hterm, _⟩ := isSegmentChar_iff.1 h
  simp [closesGapBefore, closesGapAfter, terminator, hcolon, hopen, hclose, hcomma, hterm]

/-- A word stands as it is, and a space may follow it. -/
theorem laid_word {w : Text} (hne : w ≠ []) (hw : ∀ c ∈ w, isSegmentChar c = true)
    (last : Option Char) (gap : Bool) (s : Text) :
    laid last gap (w ++ s) = joint last gap '{' ++ (w ++ laid (some '}') false s) := by
  induction w generalizing last gap with
  | nil => exact absurd rfl hne
  | cons c w ih =>
      obtain ⟨hc, hw⟩ := List.forall_mem_cons.1 hw
      obtain ⟨hbefore, hafter⟩ := closesGap_of_isSegmentChar hc
      obtain ⟨hblank, _, _, _, _, _, hslash⟩ := isSegmentChar_iff.1 hc
      -- no space stands within the word, and none of its characters forbids one behind it
      have hrest : laid (some c) false (w ++ s) = w ++ laid (some '}') false s := by
        cases w with
        | nil => exact tidy_congr hafter false (visible s)
        | cons d w =>
            have hnext := ih (List.cons_ne_nil d w) hw (some c) false
            rwa [joint_false, List.nil_append] at hnext
      rw [List.cons_append, laid_plain hblank hslash, hrest, joint_of_opener hbefore,
        List.cons_append]

theorem Segment.laid_text (n : Segment) (last : Option Char) (gap : Bool) (s : Text) :
    laid last gap (n.text ++ s) = joint last gap '{' ++ (n.text ++ laid (some '}') false s) :=
  laid_word n.ne_nil n.plain last gap s

/-! ## trees -/

theorem joiner_eq_joint (first : Bool) (gap : Gap) :
    joiner first gap = joint (some (if first then '{' else ',')) (!gap.isEmpty) '{' := by
  cases first <;> cases gap <;> rfl

/-- Behind a separator no gap is left. -/
theorem laid_separator (last : Option Char) (gap : Bool) (g : Gap) (s : Text) :
    laid last gap (':' :: ':' :: (g.text ++ s)) =
      pathSeparator ++ laid (some ':') (!g.isEmpty) s := by
  rw [laid_plain rfl (by decide), laid_plain rfl (by decide), joint_of_closer rfl,
    joint_of_closer rfl, laid_gap, Bool.false_or]
  rfl

mutual
/-- A tree on one line. -/
theorem UseTree.laid_text : (t : UseTree) → ∀ (last : Option Char) (gap : Bool) (s : Text),
    laid last gap (t.text ++ s) =
      joint last gap '{' ++ (t.nested.text ++ laid (some '}') false s)
  | .leaf name => by
      intro last gap s
      rw [UseTree.text, name.laid_text, UseTree.nested,
        Nested.text_chars (Leaf.unmarked_lastText _), Nested.text, List.append_nil]
      rfl
  | .renamed name before hb after ha newName => by
      intro last gap s
      have hbefore : (!before.isEmpty) = true := by simp [hb]
      have hafter : (!after.isEmpty) = true := by simp [ha]
      have has : ∀ c ∈ ['a', 's'], isSegmentChar c = true := List.all_eq_true.1 rfl
      have hkeyword := laid_word (List.cons_ne_nil 'a' ['s']) has (some '}') true
        (after.text ++ (newName.text ++ s))
      have htext : (UseTree.renamed name before hb after ha newName).text ++ s =
          name.text ++ (before.text ++ (['a', 's'] ++ (after.text ++ (newName.text ++ s)))) := by
        simp [UseTree.text]
      rw [htext, name.laid_text, laid_gap, hbefore, Bool.or_true, hkeyword, laid_gap, hafter,
        Bool.or_true, newName.laid_text, UseTree.nested,
        Nested.text_chars (Leaf.unmarked_lastText _), Nested.text, List.append_nil]
      simp [Leaf.lastText, joint, closesGapAfter, closesGapBefore, terminator]
  | .under name before after rest => by
      intro last gap s
      have htext : (UseTree.under name before after rest).text ++ s =
          name.text ++ (before.text ++ ':' :: ':' :: (after.text ++ (rest.text ++ s))) := by
        simp [UseTree.text]
      rw [htext, name.laid_text, laid_gap, laid_separator, rest.laid_text,
        joint_of_closesGapAfter rfl, UseTree.nested,
        Nested.text_chars name.unmarked_moduleText]
      simp [Segment.moduleText]
  | .group contents => by
      intro last gap s
      have hcontents := contents.laid_text true s
      have htext : (UseTree.group contents).text ++ s = '{' :: (contents.text ++ '}' :: s) := by
        simp [UseTree.text]
      rw [if_pos rfl] at hcontents
      rw [htext, laid_plain rfl (by decide), hcontents, UseTree.nested, Nested.text, Nested.text]
      simp

/-- What stands in a group on one line. -/
theorem Contents.laid_text : (c : Contents) → ∀ (first : Bool) (s : Text),
    laid (some (if first then '{' else ',')) false (c.text ++ '}' :: s) =
      (c.nested first).text ++ '}' :: laid (some '}') false s
  | .blank gap => by
      intro first s
      rw [Contents.text, laid_gap, laid_plain rfl (by decide), joint_of_closer rfl,
        Contents.nested, Nested.text]
  | .last before tree after => by
      intro first s
      have htext : (Contents.last before tree after).text ++ '}' :: s =
          before.text ++ (tree.text ++ (after.text ++ '}' :: s)) := by
        simp [Contents.text]
      rw [htext, laid_gap, Bool.false_or, tree.laid_text, laid_gap, laid_plain rfl (by decide),
        joint_of_closer (c := '}') rfl, ← joiner_eq_joint, Contents.nested,
        Nested.text_chars (unmarked_joiner _ _)]
      simp
  | .skip gap rest => by
      intro first s
      have hrest := rest.laid_text false s
      have htext : (Contents.skip gap rest).text ++ '}' :: s =
          gap.text ++ ',' :: (rest.text ++ '}' :: s) := by
        simp [Contents.text]
      rw [if_neg (by decide)] at hrest
      rw [htext, laid_gap, laid_plain rfl (by decide), joint_of_closer rfl, hrest, Contents.nested,
        Nested.text]
      rfl
  | .cons before tree after rest => by
      intro first s
      have hrest := rest.laid_text false s
      have htext : (Contents.cons before tree after rest).text ++ '}' :: s =
          before.text ++ (tree.text ++ (after.text ++ ',' :: (rest.text ++ '}' :: s))) := by
        simp [Contents.text]
      rw [if_neg (by decide)] at hrest
      rw [htext, laid_gap, Bool.false_or, tree.laid_text, laid_gap, laid_plain rfl (by decide),
        joint_of_closer (c := ',') rfl, hrest, ← joiner_eq_joint, Contents.nested,
        Nested.text_chars (unmarked_joiner _ _), Nested.text_append, Nested.text]
      simp
end

/-! ## statements -/

theorem laid_blanks (b : Blanks) (last : Option Char) (gap : Bool) (s : Text) :
    ∃ gap', laid last gap (b.text ++ s) = laid last gap' s := by
  obtain ⟨t, hblank, _⟩ := b
  induction t generalizing gap with
  | nil => exact ⟨gap, rfl⟩
  | cons c t ih =>
      obtain ⟨hc, hblank⟩ := List.forall_mem_cons.1 hblank
      show ∃ gap', laid last gap (c :: (t ++ s)) = laid last gap' s
      rw [laid_blank hc]
      exact ih true hblank (by grind)

/-- Nothing is left of the end of a line. -/
theorem LineEnd.laid_text (e : LineEnd) (last : Option Char) (gap : Bool) :
    laid last gap e.text = [] := by
  obtain ⟨gap', hgap⟩ := laid_blanks e.blanks last gap e.commentText
  rw [LineEnd.text, hgap, LineEnd.commentText]
  cases e.comment with
  | none => rfl
  | some words =>
      show laid last gap' ('/' :: '/' :: words.1) = []
      rw [laid, visible_comment_end words.2, tidy]

namespace UseStatement

variable (s : UseStatement)

/-- What stands between the keyword and the terminator, on one line. -/
def body : Nested := .chars (separatorText s.root.isSome) s.tree.nested

/-- The statement on one line. -/
def oneLine : Text := statementOfBody s.body.text

theorem text_body : s.body.text = separatorText s.root.isSome ++ s.tree.nested.text :=
  Nested.text_chars (unmarked_separatorText _) _

theorem laid_rest (e : LineEnd) :
    laid none false (s.rest ++ e.text) = s.body.text ++ [terminator] := by
  have hstop (gap : Bool) : laid (some '}') gap (terminator :: e.text) = [terminator] := by
    rw [laid_plain rfl (by decide), joint_of_closer rfl, e.laid_text]
    rfl
  rw [text_body]
  cases hroot : s.root with
  | none =>
      have htext : s.rest ++ e.text =
          s.lead.text ++ (s.tree.text ++ (s.trail.text ++ terminator :: e.text)) := by
        simp [rest, UseStatement.rootText, hroot]
      rw [htext, laid_gap, s.tree.laid_text, laid_gap, hstop, joint_none]
      simp [separatorText]
  | some gap =>
      have htext : s.rest ++ e.text = s.lead.text ++
          ':' :: ':' :: (gap.text ++ (s.tree.text ++ (s.trail.text ++ terminator :: e.text))) := by
        simp [rest, UseStatement.rootText, hroot, pathSeparator]
      rw [htext, laid_gap, laid_separator, s.tree.laid_text, laid_gap, hstop,
        joint_of_closesGapAfter rfl]
      simp [separatorText]

end UseStatement

/-! ### slashes and terminators -/

mutual
theorem UseTree.ne_slash_ne_terminator :
    (t : UseTree) → ∀ c ∈ t.nested.text, c ≠ '/' ∧ c ≠ terminator
  | .leaf _ => by
      intro c hc
      rw [UseTree.nested, Nested.text_chars (Leaf.unmarked_lastText _), Nested.text,
        List.append_nil] at hc
      have hu := Leaf.unmarked_lastText _ c hc
      exact ⟨hu.slash, hu.stop⟩
  | .renamed .. => by
      intro c hc
      rw [UseTree.nested, Nested.text_chars (Leaf.unmarked_lastText _), Nested.text,
        List.append_nil] at hc
      have hu := Leaf.unmarked_lastText _ c hc
      exact ⟨hu.slash, hu.stop⟩
  | .under name _ _ rest => by
      intro c hc
      rw [UseTree.nested, Nested.text_chars name.unmarked_moduleText] at hc
      cases List.mem_append.1 hc with
      | inl h =>
          have hu := name.unmarked_moduleText c h
          exact ⟨hu.slash, hu.stop⟩
      | inr h => exact rest.ne_slash_ne_terminator c h
  | .group contents => by
      intro c hc
      have hinside := contents.ne_slash_ne_terminator true c
      simp only [UseTree.nested, Nested.text, List.mem_cons, List.mem_append] at hc
      grind [terminator]

theorem Contents.ne_slash_ne_terminator :
    (d : Contents) → ∀ (first : Bool), ∀ c ∈ (d.nested first).text, c ≠ '/' ∧ c ≠ terminator
  | .blank _ => by
      intro first c hc
      cases hc
  | .last before tree _ => by
      intro first c hc
      rw [Contents.nested, Nested.text_chars (unmarked_joiner first before)] at hc
      cases List.mem_append.1 hc with
      | inl h =>
          have hu := unmarked_joiner first before c h
          exact ⟨hu.slash, hu.stop⟩
      | inr h => exact tree.ne_slash_ne_terminator c h
  | .skip _ rest => by
      intro first c hc
      have hrest := rest.ne_slash_ne_terminator false c
      simp only [Contents.nested, Nested.text, List.mem_cons] at hc
      grind [terminator]
  | .cons before tree _ rest => by
      intro first c hc
      have htree := tree.ne_slash_ne_terminator c
      have hrest := rest.ne_slash_ne_terminator false c
      rw [Contents.nested, Nested.text_chars (unmarked_joiner first before), Nested.text_append,
        Nested.text] at hc
      cases List.mem_append.1 hc with
      | inl h =>
          have hu := unmarked_joiner first before c h
          exact ⟨hu.slash, hu.stop⟩
      | inr h => grind [terminator]
end

namespace UseStatement

variable (s : UseStatement)

theorem ne_slash_ne_terminator : ∀ c ∈ s.body.text, c ≠ '/' ∧ c ≠ terminator := by
  intro c hc
  rw [text_body] at hc
  cases List.mem_append.1 hc with
  | inl h =>
      have hu := unmarked_separatorText _ c h
      exact ⟨hu.slash, hu.stop⟩
  | inr h => exact s.tree.ne_slash_ne_terminator c h

theorem isAllBlank_body : isAllBlank s.body.text = false := by
  obtain ⟨t, c, ht, hc⟩ := s.tree.isTrim_nested.stop
  rw [text_body, ht, isAllBlank]
  simp [hc]

/-- A text that is written on one line like a statement is expanded to the imports of
the statement. -/
theorem expand_eq (e : LineEnd) {rest : Text} (hterm : terminator ∈ rest)
    (hwords : visibleWords rest = visibleWords (s.rest ++ e.text)) :
    expand (keyword ++ rest) = .ok ⟨s.oneLine, s.tree.leaves.map Leaf.path⟩ := by
  have hline : ImportWatch.oneLine rest = s.body.text ++ [terminator] := by
    rw [ImportWatch.oneLine, hwords, ← ImportWatch.oneLine, oneLine_eq_tidy, ← s.laid_rest e, laid]
  have hslash : '/' ∉ s.body.text := fun h => (s.ne_slash_ne_terminator _ h).1 rfl
  have hextra : terminator ∉ s.body.text := fun h => (s.ne_slash_ne_terminator _ h).2 rfl
  have hbody : statementBody (keyword ++ rest) = .ok s.body.text :=
    statementBody_eq_ok_iff.2 ⟨rest, rfl, hterm, hline, hslash, hextra, s.isAllBlank_body⟩
  have hlength : s.body.visits.length ≤ stepLimit := by
    have hbudget := s.budget
    rw [body, Nested.visits_chars (unmarked_separatorText _), List.length_map,
      s.tree.length_visits_nested]
    omega
  have hdenoted : s.body.denoted.map ModulePath.read =
      (s.tree.leaves.map Leaf.path).map Except.ok := by
    rw [body, Nested.denoted_chars (unmarked_separatorText _), s.tree.denoted_nested,
      List.map_map, List.map_map, List.map_map]
    exact List.map_congr_left fun l _ => read_leaf s.root.isSome l
  have hnone : firstRejection? s.body.denoted = none := by
    rw [firstRejection?, List.findSome?_eq_none_iff]
    intro t ht
    have hread : ModulePath.read t ∈ (s.tree.leaves.map Leaf.path).map Except.ok :=
      hdenoted ▸ List.mem_map_of_mem ht
    obtain ⟨path, _, hpath⟩ := List.mem_map.1 hread
    rw [← hpath]
  obtain ⟨paths, hpaths, hexpand⟩ := (expandsAs_of_statementBody hbody).accepted hlength hnone
  have hok : paths = s.tree.leaves.map Leaf.path := by
    have hinj : Function.Injective (Except.ok : ModulePath → Except Rejection ModulePath) :=
      fun p q h => by cases h; rfl
    exact List.map_injective_iff.2 hinj (hpaths.trans hdenoted)
  rw [hexpand, hok, oneLine]

end UseStatement

end ImportWatch
