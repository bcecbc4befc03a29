import ImportWatch.Proofs.ReaderSteps
import ImportWatch.Proofs.UseTree

/-!
# ImportWatch.Proofs.LineReader

Reading statements from the middle of a text.

* `readFrom` goes on reading where a draft stands, also in the middle of a line:
  `readLines_starting` and `readLines_continuing` lead from lines to it;
* `readFrom_bare`, `readFrom_line`, `readFrom_next`, `readFrom_stop` and
  `readFrom_end` say what it does with the next piece of the text;
* `readFrom_unended`: a text without a visible terminator goes into the draft,
  and only carriage returns at the ends of its lines are lost.
-/

namespace ImportWatch

open Text

/-! ## lines -/

theorem dropCarriageReturn_append (q : Text) {l : Text} (h : l ≠ []) :
    dropCarriageReturn (q ++ l) = q ++ dropCarriageReturn l := by
  have hlast : (q ++ l).getLast? = l.getLast? := by
    rw [List.getLast?_append]
    obtain ⟨c, hc⟩ :=
      Option.ne_none_iff_exists'.1 fun hnone => h (List.getLast?_eq_none_iff.1 hnone)
    rw [hc]
    rfl
  rw [dropCarriageReturn, dropCarriageReturn, hlast]
  split
  · exact List.dropLast_append_of_ne_nil h
  · rfl

/-- The words of a text are those of its first line and those of the others. -/
theorem visibleWords_line {l : Text} (h : '\n' ∉ l) (s : Text) :
    visibleWords (l ++ '\n' :: s) = words (uncommented l) ++ visibleWords s := by
  rw [visibleWords, lines_line h, List.flatMap_cons, words_uncommented_dropCarriageReturn,
    visibleWords]

/-! ## bare texts -/

theorem cutLine_bare {p : Text} (h : Bare p) (s : Text) :
    cutLine (p ++ s) = (p ++ (cutLine s).1, (cutLine s).2) := by
  have hsplit := splitTerminator?_bare h s
  rw [cutLine, cutLine]
  grind

theorem isTerminated_dropCarriageReturn (l : Text) :
    isTerminated (dropCarriageReturn l) = isTerminated l := by
  rw [dropCarriageReturn]
  split
  · rename_i hlast
    obtain ⟨s, rfl⟩ := List.getLast?_eq_some_iff.1 hlast
    rw [List.dropLast_concat, Bool.eq_iff_iff, isTerminated_iff, isTerminated_iff]
    cases uncommented_concat (c := '\r') (by decide) s with
    | inl hs => rw [hs]
    | inr hs =>
        have hne : terminator ≠ '\r' := by decide
        rw [hs]
        simp [hne]
  · rfl

/-! ## reading on from a draft -/

/-- Reads a text, which starts within line `n`, behind a draft. -/
def readFrom (n : Nat) (d : Draft) (s : Text) : List Statement :=
  match lines s with
  | [] => []
  | line :: rest => (readPart n d line).1 ++ readLines (readPart n d line).2 (n + 1) rest

theorem readFrom_of_lines {s line : Text} {rest : List Text} (h : lines s = line :: rest) (n : Nat)
    (d : Draft) :
    readFrom n d s = (readPart n d line).1 ++ readLines (readPart n d line).2 (n + 1) rest := by
  rw [readFrom, h]

/-- What stands in front of a text belongs to its first line. -/
theorem exists_lines_cons {s : Text} (h : s ≠ []) :
    ∃ line rest, lines s = line :: rest ∧
      ∀ q, '\n' ∉ q → (q.getLast? ≠ some '\r' ∨ s.head? ≠ some '\n') →
        lines (q ++ s) = (q ++ line) :: rest := by
  rcases exists_first_line s with hs | ⟨l, t, hl, rfl⟩
  · refine ⟨s, [], lines_end hs h, fun q hq _ => lines_end ?_ ?_⟩
    · simp [hq, hs]
    · simp [h]
  · refine ⟨dropCarriageReturn l, lines t, lines_line hl t, fun q hq hcr => ?_⟩
    have hql : '\n' ∉ q ++ l := by simp [hq, hl]
    rw [← List.append_assoc, lines_line hql]
    cases l with
    | nil =>
        have hlast : q.getLast? ≠ some '\r' := hcr.resolve_right fun hne => hne rfl
        rw [List.append_nil, dropCarriageReturn, if_neg hlast]
        exact congrArg (· :: lines t) (List.append_nil q).symm
    | cons c l => rw [dropCarriageReturn_append q (List.cons_ne_nil c l)]

theorem readPart_bare {q : Text} (hq : Bare q) (n : Nat) (d : Draft) (line : Text) :
    readPart n d (q ++ line) = readPart n { d with text := d.text ++ q } line := by
  rw [readPart, readPart, cutLine_bare hq]
  cases (cutLine line).2 with
  | nil => simp only [closeParts, isTerminated_bare hq, List.append_assoc]
  | cons part parts => simp only [closeParts, List.append_assoc]

/-- A bare text goes into the draft. -/
theorem readFrom_bare {q : Text} (hq : Bare q) {s : Text} (hs : s ≠ [])
    (hcr : q.getLast? ≠ some '\r' ∨ s.head? ≠ some '\n') (n : Nat) (d : Draft) :
    readFrom n d (q ++ s) = readFrom n { d with text := d.text ++ q } s := by
  obtain ⟨line, rest, hlines, hbehind⟩ := exists_lines_cons hs
  have hq' := hbehind q hq.newline_notMem hcr
  rw [readFrom_of_lines hq', readFrom_of_lines hlines, readPart_bare hq]

theorem readLines_continuing (n : Nat) (d : Draft) {s : Text} (h : s ≠ []) :
    readLines (some d) n (lines s) = readFrom n { d with text := d.text ++ ['\n'] } s := by
  obtain ⟨line, rest, hlines, _⟩ := exists_lines_cons h
  rw [readFrom_of_lines hlines, hlines, readLines_behind]

theorem exists_lines_keyword {s : Text} (h : s ≠ []) :
    ∃ line rest, lines (keyword ++ s) = (keyword ++ line) :: rest := by
  obtain ⟨line, rest, _, hbehind⟩ := exists_lines_cons h
  exact ⟨line, rest, hbehind keyword bare_keyword.newline_notMem (.inl (by decide))⟩

theorem readLines_starting (n : Nat) {s : Text} (h : s ≠ []) :
    readLines none n (lines (keyword ++ s)) = readFrom n ⟨n, []⟩ (keyword ++ s) := by
  obtain ⟨line, rest, hlines⟩ := exists_lines_keyword h
  rw [readFrom_of_lines hlines, hlines, readLines_starting_line (startsStatement_keyword line)]

theorem startsStatement_dropCarriageReturn {line : Text} (h : startsStatement line = false) :
    startsStatement (dropCarriageReturn line) = false := by
  rw [dropCarriageReturn]
  split
  · apply Bool.eq_false_iff.2
    intro hstart
    have hprefix := (List.isPrefixOf_iff_prefix.1 hstart).trans (List.dropLast_prefix line)
    have hline : startsStatement line = true := List.isPrefixOf_iff_prefix.2 hprefix
    rw [h] at hline
    cases hline
  · exact h

/-! ## the next piece -/

/-- A line without a terminator goes into the draft. -/
theorem readFrom_line {l : Text} (hl : '\n' ∉ l) (ht : isTerminated l = false) {s : Text}
    (hs : s ≠ []) (n : Nat) (d : Draft) :
    readFrom n d (l ++ '\n' :: s) =
      readFrom (n + 1) { d with text := d.text ++ (dropCarriageReturn l ++ ['\n']) } s := by
  have ht' : isTerminated (dropCarriageReturn l) = false := by
    rw [isTerminated_dropCarriageReturn, ht]
  rw [readFrom_of_lines (lines_line hl s), readPart_of_not_terminated ht', List.nil_append,
    readLines_continuing _ _ hs, List.append_assoc]

theorem Blanks.trimStart_append (b : Blanks) {s : Text} (h : trimStart s = s) :
    trimStart (b.text ++ s) = s := by
  rw [trimStart, List.dropWhile_append_of_pos b.blank]
  exact h

/-- A terminator ends a draft, and another statement may start on its line. -/
theorem readFrom_next (b : Blanks) {s : Text} (hs : s ≠ []) (n : Nat) (d : Draft) :
    readFrom n d (terminator :: (b.text ++ (keyword ++ s))) =
      ⟨d.line, d.text ++ [terminator], false⟩ :: readFrom n ⟨n, []⟩ (keyword ++ s) := by
  obtain ⟨line, rest, hlines, hbehind⟩ := exists_lines_cons (s := keyword ++ s) (by simp [keyword])
  obtain ⟨line', rest', hlines'⟩ := exists_lines_keyword hs
  obtain ⟨rfl, rfl⟩ := List.cons.inj (hlines.symm.trans hlines')
  have hnot : '\n' ∉ terminator :: b.text := by
    have := b.newline_notMem
    simp [terminator, this]
  have hline := hbehind (terminator :: b.text) hnot (.inr (by simp [keyword]))
  have htrim : trimStart (b.text ++ (keyword ++ line')) = keyword ++ line' :=
    b.trimStart_append (trimStart_cons_of_not_isBlank rfl _)
  have hsplit := splitTerminator?_terminator (b.text ++ (keyword ++ line'))
  have hnext : startsStatement (trimStart (b.text ++ (keyword ++ line'))) = true := by
    rw [htrim, startsStatement_keyword]
  rw [← List.cons_append, readFrom_of_lines hline, readFrom_of_lines hlines, List.cons_append,
    readPart_cut hsplit hnext, htrim, List.cons_append]

theorem LineEnd.newline_notMem (e : LineEnd) : '\n' ∉ terminator :: e.text := by
  have hblanks := e.blanks.newline_notMem
  unfold LineEnd.text LineEnd.commentText
  cases e.comment with
  | none => simp [terminator, hblanks]
  | some words =>
      have hwords := words.2
      simp [terminator, hblanks, hwords]

theorem LineEnd.trimStart_text (e : LineEnd) : startsStatement (trimStart e.text) = false := by
  have htrim : trimStart e.text = e.commentText := by
    refine e.blanks.trimStart_append ?_
    unfold LineEnd.commentText
    cases e.comment with
    | none => rfl
    | some words => exact trimStart_cons_of_not_isBlank rfl _
  rw [htrim, LineEnd.commentText]
  cases e.comment with
  | none => rfl
  | some words => rfl

theorem readPart_stop (e : LineEnd) (n : Nat) (d : Draft) :
    readPart n d (terminator :: e.text) =
      ([⟨d.line, d.text ++ terminator :: e.text, false⟩], none) :=
  readPart_close (splitTerminator?_terminator e.text) e.trimStart_text

/-- Without its carriage return the end of a line is another one. -/
theorem LineEnd.exists_dropCarriageReturn (e : LineEnd) :
    ∃ e' : LineEnd, dropCarriageReturn (terminator :: e.text) = terminator :: e'.text := by
  obtain ⟨⟨b, hblank, hline⟩, comment⟩ := e
  cases comment with
  | none =>
      by_cases hlast : (terminator :: b).getLast? = some '\r'
      · have hne : b ≠ [] := by
          rintro rfl
          cases hlast
        have hblank' : ∀ c ∈ b.dropLast, isBlank c = true :=
          fun c hc => hblank c (List.dropLast_subset b hc)
        have hline' : '\n' ∉ b.dropLast := fun hc => hline (List.dropLast_subset b hc)
        refine ⟨⟨⟨b.dropLast, hblank', hline'⟩, none⟩, ?_⟩
        simp only [LineEnd.text, LineEnd.commentText, List.append_nil]
        rw [dropCarriageReturn, if_pos hlast, List.dropLast_cons_of_ne_nil hne]
      · refine ⟨⟨⟨b, hblank, hline⟩, none⟩, ?_⟩
        simp only [LineEnd.text, LineEnd.commentText, List.append_nil]
        rw [dropCarriageReturn, if_neg hlast]
  | some words =>
      obtain ⟨words, hwords⟩ := words
      cases words with
      | nil =>
          refine ⟨⟨⟨b, hblank, hline⟩, some ⟨[], hwords⟩⟩, ?_⟩
          have hlast : (terminator :: (b ++ ['/', '/'])).getLast? ≠ some '\r' := by
            rw [← List.cons_append, List.getLast?_append]
            show some '/' ≠ some '\r'
            decide
          exact if_neg hlast
      | cons c words =>
          have hdrop := dropCarriageReturn_append (terminator :: (b ++ ['/', '/']))
            (List.cons_ne_nil c words)
          refine ⟨⟨⟨b, hblank, hline⟩, some ⟨_, newline_notMem_dropCarriageReturn hwords⟩⟩, ?_⟩
          simpa [LineEnd.text, LineEnd.commentText] using hdrop

/-- A terminator at the end of a line ends a draft. -/
theorem readFrom_stop (e : LineEnd) (s : Text) (n : Nat) (d : Draft) :
    ∃ e' : LineEnd, readFrom n d (terminator :: (e.text ++ '\n' :: s)) =
      ⟨d.line, d.text ++ terminator :: e'.text, false⟩ :: readLines none (n + 1) (lines s) := by
  obtain ⟨e', he'⟩ := e.exists_dropCarriageReturn
  have hlines := lines_line e.newline_notMem s
  rw [he', List.cons_append] at hlines
  refine ⟨e', ?_⟩
  rw [readFrom_of_lines hlines, readPart_stop]
  rfl

theorem readFrom_end (e : LineEnd) (n : Nat) (d : Draft) :
    readFrom n d (terminator :: e.text) = [⟨d.line, d.text ++ terminator :: e.text, false⟩] := by
  have hlines := lines_end e.newline_notMem (List.cons_ne_nil terminator e.text)
  rw [readFrom_of_lines hlines, readPart_stop]
  rfl

/-! ## texts without a visible terminator -/

/-- A text of lines without terminators outside of their comments, and a bare one behind them. -/
inductive Unended : Text → Prop
  | bare {p : Text} (h : Bare p) : Unended p
  | line {l s : Text} (hl : '\n' ∉ l) (ht : isTerminated l = false) (hs : Unended s) :
      Unended (l ++ '\n' :: s)

theorem Unended.append {u v : Text} (hu : Unended u) (hv : Unended v) : Unended (u ++ v) := by
  induction hu with
  | bare hp =>
      rename_i p
      cases hv with
      | bare hq =>
          have hpq : Bare (p ++ _) := fun c hc => (List.mem_append.1 hc).elim (hp c) (hq c)
          exact .bare hpq
      | line hl ht hs =>
          rw [← List.append_assoc]
          have hnot := hp.newline_notMem
          exact .line (by simp [hnot, hl]) (by rw [isTerminated_bare hp, ht]) hs
  | line hl ht _ ih =>
      rw [List.append_assoc, List.cons_append]
      exact .line hl ht ih

/-- True for texts that have the same words in front of any text. -/
def SameWords (a b : Text) : Prop := ∀ s, visibleWords (a ++ s) = visibleWords (b ++ s)

theorem SameWords.line {l a b : Text} (hl : '\n' ∉ l) (h : SameWords a b) :
    SameWords (dropCarriageReturn l ++ '\n' :: a) (l ++ '\n' :: b) := by
  intro s
  rw [List.append_assoc, List.cons_append, List.append_assoc, List.cons_append,
    visibleWords_line hl, visibleWords_line (newline_notMem_dropCarriageReturn hl),
    words_uncommented_dropCarriageReturn, h s]

/-- A text without a visible terminator goes into the draft, with the same words. -/
theorem readFrom_unended {u : Text} (hu : Unended u) (s : Text) (n : Nat) (d : Draft) :
    ∃ v, SameWords v u ∧ readFrom n d (u ++ terminator :: s) =
      readFrom (n + u.count '\n') { d with text := d.text ++ v } (terminator :: s) := by
  induction hu generalizing n d with
  | bare hp =>
      rename_i p
      refine ⟨p, fun _ => rfl, ?_⟩
      have hhead : (terminator :: s).head? ≠ some '\n' := by
        intro h
        cases h
      have hcount : p.count '\n' = 0 := List.count_eq_zero.2 hp.newline_notMem
      rw [readFrom_bare hp (List.cons_ne_nil terminator s) (.inr hhead), hcount, Nat.add_zero]
  | line hl ht hs ih =>
      rename_i l u
      -- the line goes into the draft, and the others follow it
      obtain ⟨v, hv, hread⟩ :=
        ih (n + 1) { d with text := d.text ++ (dropCarriageReturn l ++ ['\n']) }
      refine ⟨dropCarriageReturn l ++ '\n' :: v, hv.line hl, ?_⟩
      have hcount : (l ++ '\n' :: u).count '\n' = u.count '\n' + 1 := by
        rw [List.count_append, List.count_eq_zero.2 hl, List.count_cons_self, Nat.zero_add]
      have hne : u ++ terminator :: s ≠ [] := by simp
      rw [List.append_assoc, List.cons_append, readFrom_line hl ht hne, hread, hcount]
      simp only [List.append_assoc, List.singleton_append, Nat.add_assoc, Nat.add_comm 1]

end ImportWatch
