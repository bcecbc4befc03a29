import ImportWatch.Text.Blank

/-!
# ImportWatch.Text.Pieces

Words and lines of texts, and putting pieces together again.

* `words` are the non-empty pieces between blanks; everything about them
  follows from `words_append_cons`;
* `lines` are the pieces between line feeds, read the way text files are: a
  carriage return before the line feed belongs to the line end, and a final
  line feed does not start another line;
* `unlines` puts a line feed behind each of some lines.
-/

namespace ImportWatch.Text

/-! ## words -/

/-- The non-empty pieces of a text between its blanks. -/
def words (s : Text) : List Text := (s.splitOnP isBlank).filter fun w => !w.isEmpty

@[simp] theorem words_nil : words [] = [] := rfl

/-- A blank separates the words before it from the words after it. -/
theorem words_append_cons (s t : Text) {c : Char} (h : isBlank c = true) :
    words (s ++ c :: t) = words s ++ words t := by
  rw [words, List.splitOnP_append_cons s t h, List.filter_append, words, words]

/-! ## lines -/

/-- A text of lines, each with a line feed at its end. -/
def unlines (ls : List Text) : Text := ls.flatMap fun l => l ++ ['\n']

/-- A line without the carriage return that belongs to its line end. -/
def dropCarriageReturn (line : Text) : Text :=
  if line.getLast? = some '\r' then line.dropLast else line

/-- The lines among the pieces between line feeds: the last piece has no line
end, so it keeps a carriage return, and it is a line only when not empty. -/
def linesOfPieces : List Text → List Text
  | [] => []
  | [p] => if p.isEmpty then [] else [p]
  | p :: q :: ps => dropCarriageReturn p :: linesOfPieces (q :: ps)

/-- The lines of a text. -/
def lines (s : Text) : List Text := linesOfPieces (s.splitOn '\n')

@[simp] theorem lines_nil : lines [] = [] := rfl

theorem linesOfPieces_append (ps : List Text) {qs : List Text} (h : qs ≠ []) :
    linesOfPieces (ps ++ qs) = ps.map dropCarriageReturn ++ linesOfPieces qs := by
  induction ps with
  | nil => rfl
  | cons p ps ih =>
      cases hr : ps ++ qs with
      | nil => simp [h] at hr
      | cons r rs => simp [hr, linesOfPieces, ← ih]

/-! ## pieces with separators between them -/

theorem mem_modifyHead {α : Type} {f : α → α} {a : α} {as : List α}
    (h : a ∈ List.modifyHead f as) : a ∈ as ∨ ∃ b ∈ as, a = f b := by
  cases as with
  | nil => simp at h
  | cons b bs =>
      rcases List.mem_cons.1 h with rfl | h
      · exact .inr ⟨b, List.mem_cons_self, rfl⟩
      · exact .inl (List.mem_cons_of_mem b h)

theorem intercalate_append_cons (separator : Text) {ps : List Text} (h : ps ≠ []) (q : Text)
    (qs : List Text) : separator.intercalate (ps ++ q :: qs) =
      separator.intercalate ps ++ (separator ++ separator.intercalate (q :: qs)) := by
  induction ps with
  | nil => exact absurd rfl h
  | cons p ps ih =>
      cases ps with
      | nil => simp [List.intercalate_cons_cons]
      | cons r rs =>
          have := ih (by simp)
          simp only [List.cons_append, List.intercalate_cons_cons] at this ⊢
          simp [this]

/-- What stands in a text of pieces is a separator or stands in a piece. -/
theorem mem_intercalate {separator : Text} {c : Char} {ps : List Text}
    (h : c ∈ separator.intercalate ps) : c ∈ separator ∨ ∃ p ∈ ps, c ∈ p := by
  induction ps with
  | nil => cases h
  | cons p ps ih =>
      cases ps with
      | nil => exact .inr ⟨p, List.mem_singleton_self p, by simpa using h⟩
      | cons q qs =>
          rw [List.intercalate_cons_cons, List.append_assoc, List.mem_append, List.mem_append] at h
          rcases h with h | h | h
          · exact .inr ⟨p, List.mem_cons_self, h⟩
          · exact .inl h
          · exact (ih h).imp_right fun ⟨r, hr, hc⟩ => ⟨r, List.mem_cons_of_mem p hr, hc⟩

theorem intercalate_concat_append (separator : Text) (ps : List Text) (a b : Text) :
    separator.intercalate (ps ++ [a ++ b]) = separator.intercalate (ps ++ [a]) ++ b := by
  cases ps with
  | nil => simp
  | cons p ps =>
      rw [intercalate_append_cons _ (List.cons_ne_nil p ps),
        intercalate_append_cons _ (List.cons_ne_nil p ps)]
      simp

/-- A piece is no longer than the text that it is a piece of. -/
theorem length_le_intercalate (separator : Text) {p : Text} {ps : List Text} (h : p ∈ ps) :
    p.length ≤ (separator.intercalate ps).length := by
  induction ps with
  | nil => simp at h
  | cons q qs ih =>
      cases qs with
      | nil => simp_all
      | cons r rs =>
          simp only [List.intercalate_cons_cons, List.length_append] at ih ⊢
          rcases List.mem_cons.1 h with rfl | h
          · omega
          · have := ih h
            omega

end ImportWatch.Text
