import ImportWatch.Proofs.OneLine
import ImportWatch.Statement

/-!
# ImportWatch.Proofs.ReaderSteps

The reader of statements, step by step.

* `readPart` reads the rest of a line behind a draft; the three things that it
  can do are `readPart_open`, `readPart_close` and `readPart_cut`;
* `readLines_starting_line`, `readLines_other` and `readLines_behind` say what
  is done with the next line;
* `readOn` are the statements that some lines end, with the draft that they
  leave open; `readLines_append` says that nothing else of these lines matters
  for the lines behind them;
* `readText` is the same for a whole text, and `ofSource_eq_readText` says that
  only its last statement can be unfinished.
-/

namespace ImportWatch

open Text

/-! ## lines -/

theorem lines_line {l : Text} (h : '\n' ∉ l) (s : Text) :
    lines (l ++ '\n' :: s) = dropCarriageReturn l :: lines s := by
  obtain ⟨p, ps, hps⟩ := List.exists_cons_of_ne_nil (List.splitOn_ne_nil '\n' s)
  rw [lines, lines, splitOn_newline_append h, hps, linesOfPieces]

theorem lines_end {l : Text} (h : '\n' ∉ l) (hne : l ≠ []) : lines l = [l] := by
  rw [lines, List.splitOn_eq_singleton h, linesOfPieces, if_neg (by simpa using hne)]

/-- A text is a single line, or its first line ends in a line feed. -/
theorem exists_first_line (s : Text) : '\n' ∉ s ∨ ∃ l t, '\n' ∉ l ∧ s = l ++ '\n' :: t := by
  by_cases h : '\n' ∈ s
  · obtain ⟨l, t, hs, hl⟩ := List.eq_append_cons_of_mem h
    exact .inr ⟨l, t, hl, hs⟩
  · exact .inl h

theorem newline_notMem_dropCarriageReturn {l : Text} (h : '\n' ∉ l) :
    '\n' ∉ dropCarriageReturn l := by
  rw [dropCarriageReturn]
  split
  · exact fun hmem => h (List.dropLast_subset l hmem)
  · exact h

/-- No line holds a line feed. -/
theorem newline_notMem_of_mem_lines {s l : Text} (h : l ∈ lines s) : '\n' ∉ l := by
  induction hn : s.length using Nat.strongRecOn generalizing s with
  | ind n ih =>
      rcases exists_first_line s with hs | ⟨first, rest, hfirst, rfl⟩
      · by_cases hne : s = []
        · subst hne
          cases h
        · rw [lines_end hs hne, List.mem_singleton] at h
          exact h ▸ hs
      · rw [lines_line hfirst, List.mem_cons] at h
        rcases h with rfl | h
        · exact newline_notMem_dropCarriageReturn hfirst
        · exact ih rest.length (by simp at hn; omega) h rfl

/-! ## marks of statements -/

/-- True for a part of a line without any mark of a comment or a terminator. -/
def Bare (p : Text) : Prop := ∀ c ∈ p, c ≠ '/' ∧ c ≠ terminator ∧ c ≠ '\n'

theorem Bare.newline_notMem {p : Text} (h : Bare p) : '\n' ∉ p := fun hmem => (h _ hmem).2.2 rfl

theorem splitTerminator?_bare {p : Text} (h : Bare p) (s : Text) :
    splitTerminator? (p ++ s) =
      (splitTerminator? s).map fun (ended, rest) => (p ++ ended, rest) := by
  induction p with
  | nil => cases hs : splitTerminator? s <;> simp [hs]
  | cons c p ih =>
      obtain ⟨⟨hslash, hterm, _⟩, hp⟩ := List.forall_mem_cons.1 h
      rw [List.cons_append, splitTerminator?, if_neg hterm, ih hp, Option.map_map]
      · rfl
      · rintro t rfl
        exact absurd rfl hslash

theorem isTerminated_bare {p : Text} (h : Bare p) (s : Text) :
    isTerminated (p ++ s) = isTerminated s := by
  rw [isTerminated, splitTerminator?_bare h, Option.isSome_map, isTerminated]

theorem bare_keyword : Bare keyword := by
  intro c hc
  simp only [keyword, List.mem_cons, List.not_mem_nil, or_false] at hc
  rcases hc with rfl | rfl | rfl | rfl <;> decide

theorem startsStatement_keyword (s : Text) : startsStatement (keyword ++ s) = true :=
  List.isPrefixOf_iff_prefix.2 (List.prefix_append keyword s)

theorem splitTerminator?_terminator (s : Text) :
    splitTerminator? (terminator :: s) = some ([terminator], s) := by
  rw [splitTerminator?, if_pos rfl]
  rintro t h
  cases h

/-! ## one part of a line -/

/-- Reads the rest of line `n` behind a draft. -/
def readPart (n : Nat) (d : Draft) (line : Text) : List Statement × Option Draft :=
  closeParts n { d with text := d.text ++ (cutLine line).1 } (cutLine line).1 (cutLine line).2

theorem cutLine_of_open {part : Text} (h : splitTerminator? part = none) :
    cutLine part = (part, []) := by
  rw [cutLine]
  split
  · rfl
  · simp_all

theorem cutLine_of_close {part ended rest : Text} (h : splitTerminator? part = some (ended, rest))
    (hs : startsStatement (trimStart rest) = false) : cutLine part = (part, []) := by
  rw [cutLine]
  split
  · rfl
  · rename_i heq
    rw [h] at heq
    cases heq
    rw [hs, if_neg (by decide)]

theorem cutLine_of_cut {part ended rest : Text} (h : splitTerminator? part = some (ended, rest))
    (hs : startsStatement (trimStart rest) = true) :
    cutLine part = (ended, (cutLine (trimStart rest)).1 :: (cutLine (trimStart rest)).2) := by
  rw [cutLine]
  split
  · simp_all
  · rename_i heq
    rw [h] at heq
    cases heq
    rw [hs, if_pos rfl]

variable {part ended rest : Text} {n : Nat} {d : Draft}

/-- Without a terminator the part goes into the draft. -/
theorem readPart_open (h : splitTerminator? part = none) :
    readPart n d part = ([], some { d with text := d.text ++ part }) := by
  have hterm : isTerminated part = false := by rw [isTerminated, h]; rfl
  rw [readPart, cutLine_of_open h, closeParts, hterm, if_neg (by decide)]

theorem readPart_of_not_terminated (h : isTerminated part = false) :
    readPart n d part = ([], some { d with text := d.text ++ part }) :=
  readPart_open (Option.isNone_iff_eq_none.1 (by simpa [isTerminated] using h))

/-- With a terminator the part ends the draft. -/
theorem readPart_close (h : splitTerminator? part = some (ended, rest))
    (hs : startsStatement (trimStart rest) = false) :
    readPart n d part = ([⟨d.line, d.text ++ part, false⟩], none) := by
  have hterm : isTerminated part = true := by rw [isTerminated, h]; rfl
  rw [readPart, cutLine_of_close h hs, closeParts, hterm, if_pos rfl]
  rfl

/-- Where another statement follows the terminator, the part is cut behind it. -/
theorem readPart_cut (h : splitTerminator? part = some (ended, rest))
    (hs : startsStatement (trimStart rest) = true) :
    readPart n d part =
      (⟨d.line, d.text ++ ended, false⟩ :: (readPart n ⟨n, []⟩ (trimStart rest)).1,
        (readPart n ⟨n, []⟩ (trimStart rest)).2) := by
  rw [readPart, cutLine_of_cut h hs, closeParts]
  rfl

/-! ## the next line -/

variable {line : Text} {ls : List Text}

/-- The lines behind line `n` are read behind what the line leaves open. -/
theorem readLines_behind : readLines (some d) n (line :: ls) =
    (readPart n { d with text := d.text ++ ['\n'] } line).1 ++
      readLines (readPart n { d with text := d.text ++ ['\n'] } line).2 (n + 1) ls := by
  rw [readLines, readLine, readPart]
  simp only [Draft.extend, List.append_assoc, List.singleton_append]

theorem readLines_starting_line (h : startsStatement line = true) :
    readLines none n (line :: ls) =
      (readPart n ⟨n, []⟩ line).1 ++ readLines (readPart n ⟨n, []⟩ line).2 (n + 1) ls := by
  rw [readLines, readLine, readPart]
  simp only [h, if_true, List.nil_append]

/-- A line that starts no statement is passed over. -/
theorem readLines_other (h : startsStatement line = false) :
    readLines none n (line :: ls) = readLines none (n + 1) ls := by
  rw [readLines, readLine]
  simp only [h, Bool.false_eq_true, if_false, List.nil_append]

/-! ## a run of lines -/

/-- The statements that some lines end, and the draft that they leave open. -/
def readOn (left : Option Draft) (n : Nat) : List Text → List Statement × Option Draft
  | [] => ([], left)
  | line :: ls =>
    let (done, left) := readLine left n line
    let (more, left) := readOn left (n + 1) ls
    (done ++ more, left)

theorem readLines_cons (left : Option Draft) :
    readLines left n (line :: ls) =
      (readLine left n line).1 ++ readLines (readLine left n line).2 (n + 1) ls :=
  rfl

theorem readOn_cons (left : Option Draft) :
    readOn left n (line :: ls) =
      ((readLine left n line).1 ++ (readOn (readLine left n line).2 (n + 1) ls).1,
        (readOn (readLine left n line).2 (n + 1) ls).2) :=
  rfl

/-- Lines are read behind what the lines before them leave open. -/
theorem readLines_append (left : Option Draft) (n : Nat) (ls ms : List Text) :
    readLines left n (ls ++ ms) =
      (readOn left n ls).1 ++ readLines (readOn left n ls).2 (n + ls.length) ms := by
  induction ls generalizing left n with
  | nil => rfl
  | cons line ls ih =>
      have hlength : n + (line :: ls).length = n + 1 + ls.length := by
        rw [List.length_cons]
        omega
      rw [List.cons_append, readLines_cons, readOn_cons, ih, hlength, List.append_assoc]

/-- A draft that is left open at the end becomes the last statement. -/
theorem readLines_eq_readOn (left : Option Draft) (n : Nat) (ls : List Text) :
    readLines left n ls =
      (readOn left n ls).1 ++ ((readOn left n ls).2.map Draft.abandon).toList := by
  have := readLines_append left n ls []
  rwa [List.append_nil] at this

theorem finished_of_mem_readPart {s : Statement} (h : s ∈ (readPart n d part).1) :
    s.unfinished = false := by
  induction part using cutLine.induct generalizing d with
  | case1 part hopen =>
      rw [readPart_open hopen] at h
      cases h
  | case2 part ended rest hsplit hs _ _ _ ih =>
      rw [readPart_cut hsplit hs, List.mem_cons] at h
      rcases h with rfl | h
      · rfl
      · exact ih h
  | case3 part ended rest hsplit hs =>
      rw [readPart_close hsplit (by simpa using hs), List.mem_singleton] at h
      rw [h]

theorem readLine_eq_readPart (left : Option Draft) (n : Nat) (line : Text) :
    readLine left n line = ([], none) ∨ ∃ d part, readLine left n line = readPart n d part := by
  cases left with
  | none =>
      cases hs : startsStatement line with
      | false => exact .inl (by simp [readLine, hs])
      | true => exact .inr ⟨⟨n, []⟩, line, by simp [readLine, readPart, hs]⟩
  | some d =>
      refine .inr ⟨{ d with text := d.text ++ ['\n'] }, line, ?_⟩
      simp [readLine, readPart, Draft.extend]

/-- Only a statement that the text leaves open is unfinished. -/
theorem finished_of_mem_readOn {left : Option Draft} {s : Statement}
    (h : s ∈ (readOn left n ls).1) : s.unfinished = false := by
  induction ls generalizing left n with
  | nil => cases h
  | cons line ls ih =>
      rw [readOn_cons, List.mem_append] at h
      rcases h with h | h
      · rcases readLine_eq_readPart left n line with hnone | ⟨d, part, hpart⟩
        · rw [hnone] at h
          cases h
        · rw [hpart] at h
          exact finished_of_mem_readPart h
      · exact ih h

/-! ## a whole text -/

/-- The statements that a text ends, and the draft that it leaves open. -/
def readText (s : Text) : List Statement × Option Draft := readOn none 1 (lines s)

theorem ofSource_eq_readText (s : Text) :
    Statement.ofSource s = (readText s).1 ++ ((readText s).2.map Draft.abandon).toList :=
  readLines_eq_readOn none 1 (lines s)

theorem finished_of_mem_readText {s : Text} {st : Statement} (h : st ∈ (readText s).1) :
    st.unfinished = false :=
  finished_of_mem_readOn h

end ImportWatch
