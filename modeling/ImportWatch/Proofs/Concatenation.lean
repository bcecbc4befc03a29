import ImportWatch.Proofs.ReaderSteps

/-!
# ImportWatch.Proofs.Concatenation

Reading texts behind one another.

Where the first text ends with a line, its lines and those of the second one
are the lines of the whole (`lines_append`), and all that the reader carries
over the seam is the draft that the first text leaves open.

* `readLines_down`: what is read does not depend on how many lines stand
  before it, but for the numbers of its lines;
* `ofSource_append_eq`: a text is read behind what the text before it leaves
  open (`readText`);
* `readLines_terminator`: a terminator on a line of its own ends a draft as the
  end of the text does;
* `ofSource_concatenation` puts them together.
-/

namespace ImportWatch

open Text

/-! ## lines of texts behind one another -/

/-- True for the texts behind which a line starts. -/
def EndsLine (s : Text) : Prop := s = [] ∨ s.getLast? = some '\n'

theorem lines_append {s : Text} (h : EndsLine s) (t : Text) :
    lines (s ++ t) = lines s ++ lines t := by
  rcases h with rfl | h
  · rfl
  · obtain ⟨p, rfl⟩ := List.getLast?_eq_some_iff.1 h
    have hseam (u : Text) : lines (p ++ '\n' :: u) =
        (p.splitOn '\n').map dropCarriageReturn ++ lines u := by
      rw [lines, List.splitOn_append_cons_self, linesOfPieces_append _ (List.splitOn_ne_nil _ _),
        lines]
    rw [List.append_assoc, List.singleton_append, hseam, hseam, lines_nil, List.append_nil]

/-- A text is made of whole lines and of what stands behind the last line feed. -/
theorem exists_last_line (s : Text) : ∃ p l, s = p ++ l ∧ EndsLine p ∧ '\n' ∉ l := by
  by_cases h : '\n' ∈ s.reverse
  · obtain ⟨l, t, hs, hl⟩ := List.eq_append_cons_of_mem h
    refine ⟨t.reverse ++ ['\n'], l.reverse, ?_, .inr (by simp), by simpa using hl⟩
    have := congrArg List.reverse hs
    simpa using this
  · exact ⟨[], s, rfl, .inl rfl, by simpa using h⟩

/-- A line feed behind a last line that has none ends no other line. -/
theorem lines_concat_newline {s : Text} (hne : s ≠ []) (hline : s.getLast? ≠ some '\n')
    (hcr : s.getLast? ≠ some '\r') : lines (s ++ ['\n']) = lines s := by
  obtain ⟨p, l, rfl, hp, hl⟩ := exists_last_line s
  have hlne : l ≠ [] := by
    rintro rfl
    rw [List.append_nil] at hne hline
    exact hp.elim hne hline
  have hlast : l.getLast? ≠ some '\r' := by
    rwa [List.getLast?_append_of_ne_nil p hlne] at hcr
  rw [List.append_assoc, lines_append hp, lines_append hp, lines_line hl, lines_nil,
    lines_end hl hlne, dropCarriageReturn, if_neg hlast]

/-! ## statements further down -/

/-- The statement, `k` lines further down. -/
def Statement.down (k : Nat) (s : Statement) : Statement := { s with line := s.line + k }

/-- The draft, `k` lines further down. -/
def Draft.down (k : Nat) (d : Draft) : Draft := { d with line := d.line + k }

theorem readPart_down (k n : Nat) (d : Draft) (part : Text) :
    readPart (n + k) (d.down k) part =
      ((readPart n d part).1.map (Statement.down k), (readPart n d part).2.map (Draft.down k)) := by
  induction part using cutLine.induct generalizing d with
  | case1 part hopen =>
      rw [readPart_open hopen, readPart_open hopen]
      rfl
  | case2 part ended rest hsplit hs _ _ _ ih =>
      have hnext : (⟨n + k, []⟩ : Draft) = Draft.down k ⟨n, []⟩ := rfl
      rw [readPart_cut hsplit hs, readPart_cut hsplit hs, hnext, ih]
      rfl
  | case3 part ended rest hsplit hs =>
      have hs' : startsStatement (trimStart rest) = false := by simpa using hs
      rw [readPart_close hsplit hs', readPart_close hsplit hs']
      rfl

/-- What is read does not depend on where it stands, but for the numbers of its lines. -/
theorem readLines_down (k n : Nat) (left : Option Draft) (ls : List Text) :
    readLines (left.map (Draft.down k)) (n + k) ls =
      (readLines left n ls).map (Statement.down k) := by
  induction ls generalizing left n with
  | nil => cases left <;> rfl
  | cons line ls ih =>
      have hread (d : Draft) : (readPart (n + k) (d.down k) line).1 ++
            readLines (readPart (n + k) (d.down k) line).2 (n + k + 1) ls =
          ((readPart n d line).1 ++ readLines (readPart n d line).2 (n + 1) ls).map
            (Statement.down k) := by
        rw [readPart_down, List.map_append, ← ih, Nat.add_right_comm]
      cases left with
      | some d =>
          have := hread { d with text := d.text ++ ['\n'] }
          rw [readLines_behind, ← this]
          exact readLines_behind
      | none =>
          cases hs : startsStatement line with
          | true =>
              have := hread ⟨n, []⟩
              rw [readLines_starting_line hs, ← this]
              exact readLines_starting_line hs
          | false =>
              rw [readLines_other hs, ← ih, Nat.add_right_comm]
              exact readLines_other hs

/-! ## what a text leaves open -/

/-- A text is read behind what the text before it leaves open. -/
theorem ofSource_append_eq {s : Text} (h : EndsLine s) (t : Text) :
    Statement.ofSource (s ++ t) =
      (readText s).1 ++ readLines (readText s).2 (1 + (lines s).length) (lines t) := by
  rw [Statement.ofSource, lines_append h, readLines_append, readText]

/-- A text whose statements are all finished leaves nothing open. -/
theorem ofSource_of_finished {s : Text} (h : ∀ st ∈ Statement.ofSource s, st.unfinished = false) :
    (readText s).2 = none ∧ Statement.ofSource s = (readText s).1 := by
  have hread := ofSource_eq_readText s
  cases hleft : (readText s).2 with
  | none => exact ⟨rfl, by rw [hread, hleft]; exact List.append_nil _⟩
  | some d =>
      rw [hleft] at hread
      have hmem : d.abandon ∈ Statement.ofSource s := by rw [hread]; simp
      cases h _ hmem

/-- A text whose last statement is unfinished leaves a draft open. -/
theorem exists_draft_of_unfinished {s : Text} {st : Statement}
    (hlast : (Statement.ofSource s).getLast? = some st) (h : st.unfinished = true) :
    ∃ d, (readText s).2 = some d ∧ Statement.ofSource s = (readText s).1 ++ [d.abandon] := by
  have hread := ofSource_eq_readText s
  cases hleft : (readText s).2 with
  | some d => exact ⟨d, rfl, by rw [hread, hleft]; rfl⟩
  | none =>
      rw [hread, hleft, Option.map_none, Option.toList_none, List.append_nil] at hlast
      have hfin := finished_of_mem_readText (List.mem_of_getLast? hlast)
      rw [h] at hfin
      cases hfin

/-! ## the terminator that is added -/

/-- A text with a terminator on a line of its own behind it. -/
def withTerminator (s : Text) : Text :=
  if s.getLast? = some '\n' then s ++ [terminator] else s ++ ['\n', terminator]

theorem lines_withTerminator {s : Text} (hne : s ≠ []) (hcr : s.getLast? ≠ some '\r') :
    lines (withTerminator s) = lines s ++ [[terminator]] := by
  rw [withTerminator]
  split
  · rename_i hline
    exact lines_append (.inr hline) [terminator]
  · rename_i hline
    have hseam : s ++ ['\n', terminator] = s ++ ['\n'] ++ [terminator] := by simp
    rw [hseam, lines_append (.inr (by simp)), lines_concat_newline hne hline hcr]
    rfl

/-- The statement with its end found in the text. -/
def Statement.completed (s : Statement) : Statement := { s with unfinished := false }

/-- A terminator on the next line ends a draft as the end of the text does. -/
theorem readLines_terminator (n : Nat) (d : Draft) :
    readLines (some d) n [[terminator]] = [d.abandon.completed] := by
  have hclose := readPart_close (n := n) (d := { d with text := d.text ++ ['\n'] })
    (splitTerminator?_terminator []) rfl
  rw [readLines_behind, hclose, List.append_assoc]
  rfl

theorem map_completed_of_finished {sts : List Statement} (h : ∀ s ∈ sts, s.unfinished = false) :
    sts.map Statement.completed = sts := by
  refine (List.map_congr_left fun s hs => ?_).trans (List.map_id sts)
  rw [Statement.completed, ← h s hs]
  rfl

/-- **Concatenation**: behind whole lines that leave nothing open a text is read as it is by
itself, behind others nothing changes but the statement that they leave open, and that one is
read as if a terminator on a line of its own ended it. -/
theorem ofSource_concatenation :
    (∀ s t, EndsLine s → (∀ st ∈ Statement.ofSource s, st.unfinished = false) →
      Statement.ofSource (s ++ t) = Statement.ofSource s ++
        (Statement.ofSource t).map (Statement.down (lines s).length)) ∧
    (∀ s t st, EndsLine s → (Statement.ofSource s).getLast? = some st → st.unfinished = true →
      (Statement.ofSource s).dropLast <+: Statement.ofSource (s ++ t)) ∧
    (∀ s st, (Statement.ofSource s).getLast? = some st → st.unfinished = true →
      s.getLast? ≠ some '\r' →
      Statement.ofSource (withTerminator s) =
        (Statement.ofSource s).map Statement.completed) := by
  refine ⟨fun s t hs hfin => ?_, fun s t st hs hlast hst => ?_, fun s st hlast hst hcr => ?_⟩
  · obtain ⟨hnone, hread⟩ := ofSource_of_finished hfin
    rw [ofSource_append_eq hs, hnone, hread]
    exact congrArg _ (readLines_down (lines s).length 1 none (lines t))
  · obtain ⟨d, _, hread⟩ := exists_draft_of_unfinished hlast hst
    rw [ofSource_append_eq hs, hread, List.dropLast_concat]
    exact List.prefix_append _ _
  · obtain ⟨d, hleft, hread⟩ := exists_draft_of_unfinished hlast hst
    have hne : s ≠ [] := by
      rintro rfl
      cases hlast
    have hdone := map_completed_of_finished fun st hst => finished_of_mem_readText (s := s) hst
    rw [Statement.ofSource, lines_withTerminator hne hcr, readLines_append, hread,
      List.map_append, hdone]
    have hopen : (readOn none 1 (lines s)).2 = some d := hleft
    rw [hopen, readLines_terminator]
    rfl

theorem ofSource_concatenation_seams :
    let whole := "mod m;\nuse a; use b;\n".toList
    let broken := "use a; use b::\x7b\n".toList
    let left : Statement := ⟨1, "use b::\x7b\n;".toList, true⟩
    (EndsLine whole ∧ (∀ st ∈ Statement.ofSource whole, st.unfinished = false) ∧
      Statement.ofSource (whole ++ broken) = Statement.ofSource whole ++
        (Statement.ofSource broken).map (Statement.down (lines whole).length)) ∧
    (EndsLine broken ∧ (Statement.ofSource broken).getLast? = some left ∧ left.unfinished = true ∧
      (Statement.ofSource broken).dropLast <+: Statement.ofSource (broken ++ whole)) ∧
    (broken.getLast? ≠ some '\r' ∧
      Statement.ofSource (withTerminator broken) =
        (Statement.ofSource broken).map Statement.completed) := by
  intro whole broken left
  have hwhole : EndsLine whole := .inr (by decide)
  have hbroken : EndsLine broken := .inr (by decide)
  have hfin : ∀ st ∈ Statement.ofSource whole, st.unfinished = false := by decide +kernel
  have hleft : (Statement.ofSource broken).getLast? = some left := by decide +kernel
  have hcr : broken.getLast? ≠ some '\r' := by decide
  exact ⟨⟨hwhole, hfin, ofSource_concatenation.1 whole broken hwhole hfin⟩,
    ⟨hbroken, hleft, rfl, ofSource_concatenation.2.1 broken whole left hbroken hleft rfl⟩,
    ⟨hcr, ofSource_concatenation.2.2 broken left hleft rfl hcr⟩⟩

end ImportWatch
