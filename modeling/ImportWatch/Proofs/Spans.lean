import ImportWatch.Proofs.Delimited
import Mathlib.Data.List.Chain
import Mathlib.Data.List.Forall2
import Mathlib.Data.List.GetD

/-!
# ImportWatch.Proofs.Spans

Where the statements of a source stand.

A statement stands on a span of the source, from one position to another.  It
starts where a line starts, or on the line on which the statement before it
was cut off, and what stands between the two is blank.

* `Span.pieces` are the parts of lines that a span covers, and
  `Statement.StandsOn` relates a statement to its span;
* `Covers` says how the spans of the statements behind a position follow each
  other; `Covers.skip` passes over a line and `Covers.cons` adds the span of
  the statement in front;
* `Draft.AwaitsFrom` and `Draft.OpenFrom` say on which lines a draft stands;
  what one part of a line preserves (`exists_covers_of_readPart`), the lines
  of a source do (`readable`);
* `reassembled_ofSource`: the statements of a source have such spans.
-/

namespace ImportWatch

open Text

/-! ## positions -/

/-- A place in the lines of a source. -/
structure Position where
  /-- The number of the line; the first line is 1. -/
  line : Nat
  /-- The number of characters in front of it on the line. -/
  column : Nat
  deriving DecidableEq, Repr

instance : LE Position where
  le p q := p.line < q.line ∨ p.line = q.line ∧ p.column ≤ q.column

theorem Position.le_iff {p q : Position} :
    p ≤ q ↔ p.line < q.line ∨ p.line = q.line ∧ p.column ≤ q.column :=
  Iff.rfl

theorem Position.le_refl (p : Position) : p ≤ p := Position.le_iff.2 (.inr ⟨rfl, le_rfl⟩)

theorem Position.le_trans {p q r : Position} (hpq : p ≤ q) (hqr : q ≤ r) : p ≤ r := by
  rw [Position.le_iff] at *
  omega

/-- The line with a number. -/
def lineAt (ls : List Text) (n : Nat) : Text := ls.getD (n - 1) []

/-- True for the positions on one of the lines. -/
structure Position.Within (ls : List Text) (p : Position) : Prop where
  one_le : 1 ≤ p.line
  le_length : p.line ≤ ls.length
  column_le : p.column ≤ (lineAt ls p.line).length

/-- The lines from a position on; the first one is cut on the left. -/
def linesFrom (ls : List Text) (p : Position) : List Text :=
  (lineAt ls p.line).drop p.column :: ls.drop p.line

/-- The lines up to a position; the last one is cut on the right. -/
def linesUpTo (ls : List Text) (p : Position) : List Text :=
  ls.take (p.line - 1) ++ [(lineAt ls p.line).take p.column]

section

variable {before after : List Text} {line : Text} {p : Position}

@[simp]
theorem lineAt_append_cons : lineAt (before ++ line :: after) (before.length + 1) = line := by
  simp [lineAt]

@[simp]
theorem linesFrom_append_cons (k : Nat) :
    linesFrom (before ++ line :: after) ⟨before.length + 1, k⟩ = line.drop k :: after := by
  simp [linesFrom]

@[simp]
theorem linesUpTo_append_cons (k : Nat) :
    linesUpTo (before ++ line :: after) ⟨before.length + 1, k⟩ = before ++ [line.take k] := by
  simp [linesUpTo]

theorem within_append_cons {k : Nat} (hk : k ≤ line.length) :
    Position.Within (before ++ line :: after) ⟨before.length + 1, k⟩ :=
  ⟨by simp, by simp, by simpa using hk⟩

theorem Position.Within.lineAt_append (h : p.Within before) :
    lineAt (before ++ after) p.line = lineAt before p.line := by
  have := h.one_le
  have := h.le_length
  rw [lineAt, lineAt, List.getD_append _ _ _ _ (by omega)]

theorem Position.Within.append (h : p.Within before) : p.Within (before ++ after) where
  one_le := h.one_le
  le_length := h.le_length.trans (by simp)
  column_le := by
    rw [h.lineAt_append]
    exact h.column_le

/-- Lines that are added behind are lines from the position on. -/
theorem Position.Within.linesFrom_append (h : p.Within before) :
    linesFrom (before ++ after) p = linesFrom before p ++ after := by
  rw [linesFrom, linesFrom, h.lineAt_append, List.drop_append_of_le_length h.le_length,
    List.cons_append]

end

/-! ## spans -/

/-- A stretch of a source. -/
structure Span where
  start : Position
  /-- The place behind the last character. -/
  stop : Position
  deriving DecidableEq, Repr

/-- The parts of lines that a span covers. -/
def Span.pieces (ls : List Text) (e : Span) : List Text := linesFrom (linesUpTo ls e.stop) e.start

/-- True for the spans that leave a part of their last line behind. -/
def Span.IsCut (ls : List Text) (e : Span) : Prop := e.stop.column < (lineAt ls e.stop.line).length

/-- How a statement stands on a span of the lines. -/
structure Statement.StandsOn (ls : List Text) (s : Statement) (e : Span) : Prop where
  line : s.line = e.start.line
  start : e.start.Within ls
  stop : e.stop.Within ls
  le : e.start ≤ e.stop
  /-- The text is the parts of lines, and the terminator that an unfinished statement gets. -/
  text : s.text = List.intercalate ['\n'] (e.pieces ls) ++
    if s.unfinished then ['\n', terminator] else []
  /-- A cut last line is cut behind its first terminator outside of its comment. -/
  cut : e.IsCut ls → ∃ l, (e.pieces ls).getLast? = some l ∧ splitTerminator? l = some (l, [])
  /-- No line from the start on has such a terminator if and only if it is unfinished. -/
  unfinished_iff : s.unfinished = true ↔ ∀ l ∈ linesFrom ls e.start, isTerminated l = false
  reaches : s.unfinished = true → e.stop.line = ls.length

/-- How a span stands behind the one before it. -/
structure Span.Follows (ls : List Text) (e f : Span) : Prop where
  /-- Where a line was cut the next span starts on it, with nothing but blanks in between. -/
  cut : e.IsCut ls → f.start.line = e.stop.line ∧
    isAllBlank (((lineAt ls f.start.line).take f.start.column).drop e.stop.column) = true
  /-- Only a line that was cut on the right is cut on the left. -/
  uncut : f.start.column ≠ 0 → e.IsCut ls

/-- How the spans of the statements behind a position cover the lines. -/
structure Covers (ls : List Text) (q : Position) (sts : List Statement) (es : List Span) :
    Prop where
  stands : List.Forall₂ (Statement.StandsOn ls) sts es
  behind : ∀ e ∈ es, q ≤ e.start
  follows : es.IsChain (Span.Follows ls)
  uncut : ∀ e ∈ es.getLast?, ¬e.IsCut ls
  ordered : es.Pairwise fun e f => e.stop ≤ f.start
  /-- Each line that begins with the keyword does so inside of a span. -/
  found : ∀ m ≤ ls.length, q ≤ ⟨m, 0⟩ → startsStatement (lineAt ls m) = true →
    ∃ e ∈ es, e.start ≤ ⟨m, 0⟩ ∧ ⟨m, 0⟩ ≤ e.stop

section

variable {ls : List Text} {sts : List Statement} {es : List Span}

theorem covers_nil : Covers ls ⟨ls.length + 1, 0⟩ [] [] where
  stands := .nil
  behind _ h := absurd h List.not_mem_nil
  follows := .nil
  uncut _ h := by cases h
  ordered := .nil
  found m hm hle _ := by
    simp only [Position.le_iff] at hle
    omega

theorem Covers.exists_standsOn {q : Position} {s : Statement} (h : Covers ls q sts es)
    (hs : s ∈ sts) : ∃ e ∈ es, s.StandsOn ls e := by
  obtain ⟨i, hi, rfl⟩ := List.getElem_of_mem hs
  have hi' : i < es.length := h.stands.length_eq ▸ hi
  exact ⟨es[i], List.getElem_mem hi', h.stands.get hi hi'⟩

/-- A line that starts no statement is in no span. -/
theorem Covers.skip {n : Nat} (h : Covers ls ⟨n + 1, 0⟩ sts es)
    (hs : startsStatement (lineAt ls n) = false) : Covers ls ⟨n, 0⟩ sts es where
  stands := h.stands
  behind e he := Position.le_trans (Position.le_iff.2 (.inl n.lt_succ_self)) (h.behind e he)
  follows := h.follows
  uncut := h.uncut
  ordered := h.ordered
  found m hm hle hstarts := by
    refine h.found m hm ?_ hstarts
    have hne : m ≠ n := by
      rintro rfl
      rw [hs] at hstarts
      cases hstarts
    simp only [Position.le_iff] at hle ⊢
    omega

/-- The span of the statement in front of the others. -/
theorem Covers.cons {q : Position} {s : Statement} {e : Span} (h : Covers ls q sts es)
    (hstands : s.StandsOn ls e) (hle : e.stop ≤ q) (hskip : q ≤ ⟨e.stop.line + 1, 0⟩)
    (hfollows : ∀ f ∈ es.head?, e.Follows ls f) (hend : e.IsCut ls → es ≠ []) :
    Covers ls e.start (s :: sts) (e :: es) where
  stands := .cons hstands h.stands
  behind := by
    refine List.forall_mem_cons.2 ⟨Position.le_refl _, fun f hf => ?_⟩
    exact Position.le_trans hstands.le (Position.le_trans hle (h.behind f hf))
  follows := h.follows.cons hfollows
  uncut := by
    cases es with
    | nil =>
        rintro f ⟨⟩ hcut
        exact hend hcut rfl
    | cons f es =>
        rw [List.getLast?_cons_cons]
        exact h.uncut
  ordered := .cons (fun f hf => Position.le_trans hle (h.behind f hf)) h.ordered
  found m hm hstart hstarts := by
    by_cases hstop : m ≤ e.stop.line
    · refine ⟨e, List.mem_cons_self, hstart, Position.le_iff.2 ?_⟩
      simp only
      omega
    · have hq : q ≤ ⟨m, 0⟩ :=
        Position.le_trans hskip (Position.le_iff.2 (by simp only; omega))
      obtain ⟨f, hf, hspan⟩ := h.found m hm hq hstarts
      exact ⟨f, List.mem_cons_of_mem e hf, hspan⟩

end

/-! ## the lines of a draft -/

/-- A draft that is left open behind the lines `before`, from a position on. -/
structure Draft.OpenFrom (before : List Text) (p : Position) (d : Draft) : Prop where
  running : d.Running
  within : p.Within before
  number : d.line = p.line
  lines : linesFrom before p = d.text.splitOn '\n'

/-- A draft in front of the part of a line from column `k` on; it holds the lines `done`. -/
structure Draft.AwaitsFrom (before : List Text) (line : Text) (k : Nat) (p : Position)
    (done : List Text) (d : Draft) : Prop where
  awaits : d.Awaits (line.drop k) done
  within : p.Within (before ++ [line])
  le : p ≤ ⟨before.length + 1, k⟩
  number : d.line = p.line
  lines : ∀ j, k ≤ j → linesFrom (before ++ [line.take j]) p = done ++ [(line.take j).drop k]

section

variable {before after done : List Text} {line : Text} {k j : Nat} {p : Position} {d : Draft}

theorem Draft.awaitsFrom_start (hs : startsStatement (line.drop k) = true) (hline : '\n' ∉ line)
    (hk : k ≤ line.length) :
    (⟨before.length + 1, []⟩ : Draft).AwaitsFrom before line k ⟨before.length + 1, k⟩ [] where
  awaits := Draft.awaits_start hs fun hmem => hline (List.drop_subset k line hmem)
  within := within_append_cons hk
  le := Position.le_refl _
  number := rfl
  lines _ _ := linesFrom_append_cons k

theorem Draft.OpenFrom.awaitsFrom (h : d.OpenFrom before p) (hline : '\n' ∉ line) :
    ({ d with text := d.text ++ ['\n'] } : Draft).AwaitsFrom before line 0 p
      (d.text.splitOn '\n') where
  awaits := h.running.awaits hline
  within := h.within.append
  le := Position.le_iff.2 (.inl (Nat.lt_succ_of_le h.within.le_length))
  number := h.number
  lines j _ := by rw [h.within.linesFrom_append, h.lines, List.drop_zero]

namespace Draft.AwaitsFrom

variable (h : d.AwaitsFrom before line k p done)

include h

theorem linesFrom_eq : linesFrom (before ++ line :: after) p = done ++ line.drop k :: after := by
  have hlines := h.lines (max k line.length) (le_max_left _ _)
  rw [List.take_of_length_le (le_max_right _ _)] at hlines
  rw [List.append_cons, h.within.linesFrom_append, hlines, List.append_assoc,
    List.singleton_append]

theorem pieces_eq (hj : k ≤ j) :
    Span.pieces (before ++ line :: after) ⟨p, ⟨before.length + 1, j⟩⟩ =
      done ++ [(line.take j).drop k] := by
  rw [Span.pieces, linesUpTo_append_cons, h.lines j hj]

theorem text_append {t : Text} (ht : '\n' ∉ t) :
    d.text ++ t = List.intercalate ['\n'] (done ++ [t]) := by
  rw [← h.awaits.splits t ht, List.intercalate_splitOn]

theorem openFrom (hopen : splitTerminator? (line.drop k) = none) :
    ({ d with text := d.text ++ line.drop k } : Draft).OpenFrom (before ++ [line]) p where
  running := by
    refine (delimited_of_readPart (before.length + 1) h.awaits).2 _ ?_
    rw [readPart_open hopen]
    rfl
  within := h.within
  number := h.number
  lines := by rw [h.linesFrom_eq, h.awaits.splits _ h.awaits.newline_notMem]

/-- The statement that a terminator ends; it has the line up to column `j`. -/
theorem standsOn (after : List Text) {ended rest : Text}
    (hsplit : splitTerminator? (line.drop k) = some (ended, rest)) (hk : k ≤ j)
    (hj : j ≤ line.length)
    (hcut : j < line.length → (line.take j).drop k = ended) :
    (⟨d.line, d.text ++ (line.take j).drop k, false⟩ : Statement).StandsOn
      (before ++ line :: after) ⟨p, ⟨before.length + 1, j⟩⟩ where
  line := h.number
  start := by
    rw [List.append_cons]
    exact h.within.append
  stop := within_append_cons hj
  le := Position.le_trans h.le (Position.le_iff.2 (.inr ⟨rfl, hk⟩))
  text := by
    have hpart : '\n' ∉ (line.take j).drop k := fun hmem => h.awaits.newline_notMem <|
      ((List.take_sublist j line).drop k).subset hmem
    rw [h.pieces_eq hk, ← h.text_append hpart]
    simp
  cut hlt := by
    have hended := splitTerminator?_ended hsplit []
    rw [List.append_nil] at hended
    refine ⟨ended, ?_, hended⟩
    rw [h.pieces_eq hk, List.getLast?_concat, hcut (by simpa [Span.IsCut] using hlt)]
  unfinished_iff := by
    refine iff_of_false Bool.false_ne_true fun hall => ?_
    have hterm := hall (line.drop k) (by rw [h.linesFrom_eq]; simp)
    rw [isTerminated, hsplit] at hterm
    cases hterm
  reaches hunfinished := by cases hunfinished

end Draft.AwaitsFrom

/-- The place behind the last character of the lines. -/
def endOf (ls : List Text) : Position := ⟨ls.length, (lineAt ls ls.length).length⟩

theorem linesUpTo_endOf {ls : List Text} (h : ls ≠ []) : linesUpTo ls (endOf ls) = ls := by
  have hlast : lineAt ls ls.length = ls.getLast h := by
    rw [lineAt, List.getD_eq_getElem _ _ (by have := List.length_pos_iff.2 h; omega),
      List.getLast_eq_getElem]
  rw [linesUpTo, endOf, List.take_length, hlast, ← List.dropLast_eq_take,
    List.dropLast_append_getLast]

theorem Position.Within.le_endOf {ls : List Text} (h : p.Within ls) : p ≤ endOf ls := by
  rcases h.le_length.lt_or_eq with hlt | heq
  · exact .inl hlt
  · refine .inr ⟨heq, ?_⟩
    rw [endOf, ← heq]
    exact h.column_le

/-- The statement that a draft becomes where the source ends. -/
theorem Draft.OpenFrom.standsOn (h : d.OpenFrom before p) :
    d.abandon.StandsOn before ⟨p, endOf before⟩ where
  line := h.number
  start := h.within
  stop := ⟨h.within.one_le.trans h.within.le_length, le_rfl, le_rfl⟩
  le := h.within.le_endOf
  text := by
    have hne : before ≠ [] := by
      rintro rfl
      exact absurd (h.within.one_le.trans h.within.le_length) (by decide)
    rw [Span.pieces, linesUpTo_endOf hne, h.lines, List.intercalate_splitOn]
    rfl
  cut hlt := absurd hlt (lt_irrefl _)
  unfinished_iff := by
    refine iff_of_true rfl fun l hl => h.running.running l ?_
    rwa [← h.lines]
  reaches _ := rfl

end

/-! ## the lines of a source -/

/-- How the lines `after` are read behind the lines `before`. -/
structure Readable (before after : List Text) : Prop where
  /-- With no draft left open the next statement starts where a line starts. -/
  closed : ∃ es, Covers (before ++ after) ⟨before.length + 1, 0⟩
    (readLines none (before.length + 1) after) es ∧ ∀ e ∈ es.head?, e.start.column = 0
  /-- A draft that is left open is the start of the next statement. -/
  opened : ∀ p d, Draft.OpenFrom before p d → ∃ e es, e.start = p ∧
    Covers (before ++ after) p (readLines (some d) (before.length + 1) after) (e :: es)

section

variable {before after done : List Text} {line : Text} {k : Nat} {p : Position} {d : Draft}

/-- Where a line is cut, the next statement starts behind the blanks. -/
theorem exists_column_of_cut {ended rest : Text} (hk : k ≤ line.length)
    (hsplit : splitTerminator? (line.drop k) = some (ended, rest)) :
    ∃ k', k + ended.length ≤ k' ∧ k' ≤ line.length ∧ line.drop k' = trimStart rest ∧
      (line.take (k + ended.length)).drop k = ended ∧
      isAllBlank ((line.take k').drop (k + ended.length)) = true := by
  obtain ⟨first, hfirst⟩ : ∃ first, first = line.take k := ⟨_, rfl⟩
  obtain ⟨gap, hgap⟩ : ∃ gap, gap = rest.takeWhile isBlank := ⟨_, rfl⟩
  have hlength : first.length = k := by rw [hfirst, List.length_take_of_le hk]
  have hline : line = first ++ ended ++ gap ++ trimStart rest := by
    rw [List.append_assoc, List.append_assoc, hgap, trimStart, List.takeWhile_append_dropWhile,
      ← (append_of_splitTerminator? hsplit).1, hfirst, List.take_append_drop]
  have hblank : isAllBlank gap = true := by
    rw [isAllBlank, hgap, List.all_takeWhile]
  refine ⟨(first ++ ended ++ gap).length, ?_, ?_, ?_, ?_, ?_⟩
  · simp [hlength]
  · simp [hline]
  · rw [hline, List.drop_left]
  · rw [← hlength, ← List.length_append, hline, List.append_assoc _ gap, List.take_left,
      List.drop_left]
  · rw [← hlength, ← List.length_append, hline, List.take_left, List.drop_left]
    exact hblank

/-- What the reader makes of one part of a line, and of the lines behind it. -/
theorem exists_covers_of_readPart (hnext : Readable (before ++ [line]) after)
    (hline : '\n' ∉ line) (hk : k ≤ line.length) (h : d.AwaitsFrom before line k p done) :
    ∃ e es, e.start = p ∧ Covers (before ++ line :: after) p
      ((readPart (before.length + 1) d (line.drop k)).1 ++
        readLines (readPart (before.length + 1) d (line.drop k)).2 (before.length + 2) after)
      (e :: es) := by
  have hls : before ++ line :: after = before ++ [line] ++ after := List.append_cons ..
  have hlength : (before ++ [line]).length + 1 = before.length + 2 := by simp
  -- along the cuts of the line; each one starts a draft that awaits what is left of the line
  induction hpart : line.drop k using cutLine.induct generalizing k p done d with
  | case1 part hopen =>
      subst hpart
      rw [readPart_open hopen, hls, List.nil_append, ← hlength]
      exact hnext.opened p _ (h.openFrom hopen)
  | case2 part ended rest hsplit hs _ _ _ ih =>
      subst hpart
      obtain ⟨k', hle, hk', hrest, hended, hblank⟩ := exists_column_of_cut hk hsplit
      have hstart : startsStatement (line.drop k') = true := by rwa [hrest]
      have hlt : k' < line.length := by
        refine Nat.lt_of_not_le fun hge => ?_
        rw [List.drop_of_length_le hge] at hstart
        cases hstart
      obtain ⟨e, es, he, hcovers⟩ := ih hk' (Draft.awaitsFrom_start hstart hline hk') hrest
      have hstands := h.standsOn after hsplit (Nat.le_add_right k ended.length)
        (hle.trans hk') fun _ => hended
      rw [hended] at hstands
      rw [readPart_cut hsplit hs, List.cons_append]
      refine ⟨_, e :: es, rfl, hcovers.cons hstands ?_ ?_ ?_ fun _ => List.cons_ne_nil e es⟩
      · exact .inr ⟨rfl, hle⟩
      · exact .inl (Nat.lt_succ_self _)
      · rintro f ⟨⟩
        refine ⟨fun _ => ?_, fun _ => ?_⟩
        · rw [he, lineAt_append_cons]
          exact ⟨rfl, hblank⟩
        · rw [Span.IsCut, lineAt_append_cons]
          exact hle.trans_lt hlt
  | case3 part ended rest hsplit hs =>
      subst hpart
      have hs' : startsStatement (trimStart rest) = false := by simpa using hs
      obtain ⟨es, hcovers, hhead⟩ := hnext.closed
      have hstands := h.standsOn after hsplit hk le_rfl
        fun hlt => absurd hlt (lt_irrefl _)
      have huncut : ¬Span.IsCut (before ++ line :: after)
          ⟨p, ⟨before.length + 1, line.length⟩⟩ := by simp [Span.IsCut]
      rw [List.take_length] at hstands
      rw [readPart_close hsplit hs', List.singleton_append]
      rw [← hls, hlength] at hcovers
      refine ⟨_, es, rfl, hcovers.cons hstands ?_ ?_ ?_ fun hcut => absurd hcut huncut⟩
      · exact .inl (Nat.lt_succ_self _)
      · exact Position.le_refl _
      · exact fun f hf => ⟨fun hcut => absurd hcut huncut, fun hne => absurd (hhead f hf) hne⟩

/-- What the reader makes of one line more. -/
theorem Readable.cons (h : Readable (before ++ [line]) after) (hline : '\n' ∉ line) :
    Readable before (line :: after) := by
  have hls : before ++ [line] ++ after = before ++ line :: after := (List.append_cons ..).symm
  have hlength : (before ++ [line]).length + 1 = before.length + 2 := by simp
  constructor
  · cases hs : startsStatement line with
    | true =>
        have hstart : (⟨before.length + 1, []⟩ : Draft).AwaitsFrom before line 0
            ⟨before.length + 1, 0⟩ [] := Draft.awaitsFrom_start hs hline (Nat.zero_le _)
        obtain ⟨e, es, he, hcovers⟩ := exists_covers_of_readPart h hline (Nat.zero_le _) hstart
        rw [readLines_starting_line hs]
        refine ⟨e :: es, he ▸ hcovers, ?_⟩
        rintro f ⟨⟩
        rw [he]
    | false =>
        obtain ⟨es, hcovers, hhead⟩ := h.closed
        rw [hls, hlength] at hcovers
        rw [readLines_other hs]
        exact ⟨es, hcovers.skip (by rwa [lineAt_append_cons]), hhead⟩
  · intro p d hopen
    rw [readLines_behind]
    exact exists_covers_of_readPart h hline (Nat.zero_le _) (hopen.awaitsFrom hline)

/-- Where the lines end a draft becomes the last statement. -/
theorem readable_nil (ls : List Text) : Readable ls [] := by
  constructor <;> rw [List.append_nil]
  · exact ⟨[], covers_nil, fun e he => by cases he⟩
  · intro p d hopen
    have huncut : ¬Span.IsCut ls ⟨p, endOf ls⟩ := lt_irrefl _
    refine ⟨⟨p, endOf ls⟩, [], rfl, covers_nil.cons hopen.standsOn ?_ ?_ ?_ ?_⟩
    · exact .inl (Nat.lt_succ_self _)
    · exact Position.le_refl _
    · exact fun f hf => by cases hf
    · exact fun hcut => absurd hcut huncut

/-- What the reader makes of the lines of a source. -/
theorem readable (before after : List Text) (h : ∀ l ∈ after, '\n' ∉ l) :
    Readable before after := by
  induction after generalizing before with
  | nil => exact readable_nil before
  | cons line after ih =>
      obtain ⟨hline, hafter⟩ := List.forall_mem_cons.1 h
      exact (ih (before ++ [line]) hafter).cons hline

end

/-! ## the statements of a source -/

/-- How statements are put together from the lines of a source. -/
structure Reassembled (ls : List Text) (sts : List Statement) (es : List Span) : Prop
    extends Covers ls ⟨1, 0⟩ sts es where
  delimited : ∀ s ∈ sts, s.Delimited
  /-- The first line of the first statement is not cut. -/
  whole : ∀ e ∈ es.head?, e.start.column = 0
  finished : ∀ s ∈ sts.dropLast, s.unfinished = false

/-- A statement starts on a line of its source. -/
theorem line_of_mem_ofSource {source : Text} {s : Statement} (h : s ∈ Statement.ofSource source) :
    1 ≤ s.line ∧ s.line ≤ (lines source).length := by
  have hlines : ∀ l ∈ lines source, '\n' ∉ l := fun _ => newline_notMem_of_mem_lines
  obtain ⟨es, hcovers, _⟩ := (readable [] (lines source) hlines).closed
  obtain ⟨e, _, hspan⟩ := hcovers.exists_standsOn h
  rw [hspan.line]
  exact ⟨hspan.start.one_le, hspan.start.le_length⟩

/-- Only the last statement of a source is unfinished. -/
theorem finished_of_mem_dropLast_ofSource {source : Text} {s : Statement}
    (h : s ∈ (Statement.ofSource source).dropLast) : s.unfinished = false := by
  rw [ofSource_eq_readText] at h
  cases hleft : (readText source).2 with
  | none =>
      rw [hleft, Option.map_none, Option.toList_none, List.append_nil] at h
      exact finished_of_mem_readText (List.dropLast_subset _ h)
  | some d =>
      rw [hleft, Option.map_some, Option.toList_some, List.dropLast_concat] at h
      exact finished_of_mem_readText h

/-- The statements of a source are put together from its lines, and nothing that starts a
statement is left out. -/
theorem reassembled_ofSource (source : Text) :
    ∃ es, Reassembled (lines source) (Statement.ofSource source) es := by
  have hlines : ∀ l ∈ lines source, '\n' ∉ l := fun _ => newline_notMem_of_mem_lines
  obtain ⟨es, hcovers, hhead⟩ := (readable [] (lines source) hlines).closed
  exact ⟨es, hcovers, fun _ => delimited_of_mem_ofSource, hhead,
    fun _ => finished_of_mem_dropLast_ofSource⟩

example :
    let source := "use a;  use b::\nc; d".toList
    Statement.ofSource source =
        [⟨1, "use a;".toList, false⟩, ⟨1, "use b::\nc; d".toList, false⟩] ∧
      [⟨⟨1, 0⟩, ⟨1, 6⟩⟩, ⟨⟨1, 8⟩, ⟨2, 4⟩⟩].map (Span.pieces (lines source)) =
        [["use a;".toList], ["use b::".toList, "c; d".toList]] := by
  decide +kernel

end ImportWatch
