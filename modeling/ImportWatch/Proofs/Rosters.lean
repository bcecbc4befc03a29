import ImportWatch.Proofs.PathPieces
import ImportWatch.Proofs.ReaderSteps
import ImportWatch.Proofs.UseTree
import ImportWatch.Roster

/-!
# ImportWatch.Proofs.Rosters

Reading a ranked list of packages undoes writing one.

* `Roster.Sheet` is a list as it may be written: a header, and rows whose first
  cells hold names or nothing, in quotes and in blanks, with or without further
  cells, each line with one of two line ends;
* `Roster.nameOfRow_text` reads one row, `Roster.names_text` all of them;
* `Roster.top_text_eq_iff`: the first names are read, or the shortage is told,
  exactly when there is room for as many names as are asked for.
-/

namespace ImportWatch.Roster

open Text

/-! ## lists as they are written -/

/-- A name that a list can hold. -/
structure Name where
  text : Text
  ne_nil : text ≠ []
  /-- It neither starts nor ends with a blank or a double quote. -/
  edges : ∀ c, text.head? = some c ∨ text.getLast? = some c → isBlank c = false ∧ c ≠ '"'
  comma_notMem : ',' ∉ text
  newline_notMem : '\n' ∉ text

/-- A row behind the header. -/
structure Row where
  before : Blanks
  /-- The number of double quotes in front of the name. -/
  opening : Nat
  /-- The name in the first cell, which may be empty. -/
  name : Option Name
  /-- The number of double quotes behind the name. -/
  closing : Nat
  after : Blanks
  /-- What stands behind the first comma, if there is one. -/
  more : Option { cells : Text // '\n' ∉ cells }

/-- A line end: a line feed, with or without a carriage return. -/
inductive LineBreak where
  | feed
  | returnFeed

/-- What stands in a line break before its line feed. -/
def LineBreak.lead : LineBreak → Text
  | feed => []
  | returnFeed => ['\r']

namespace Row

/-- The text of the name of a row; empty without a name. -/
def nameText (r : Row) : Text :=
  match r.name with
  | none => []
  | some n => n.text

/-- The first cell without the blanks around it. -/
def quoted (r : Row) : Text :=
  List.replicate r.opening '"' ++ (r.nameText ++ List.replicate r.closing '"')

/-- The first cell. -/
def cell (r : Row) : Text := r.before.text ++ (r.quoted ++ r.after.text)

/-- What stands behind the first cell. -/
def moreText (r : Row) : Text :=
  match r.more with
  | none => []
  | some cells => ',' :: cells.1

/-- A row as it is written. -/
def text (r : Row) : Text := r.cell ++ r.moreText

end Row

/-- A list as it is written. -/
structure Sheet where
  header : { line : Text // '\n' ∉ line }
  headerBreak : LineBreak
  rows : List (Row × LineBreak)
  /-- A last row without a line break, if there is one. -/
  last : Option Row

/-- Rows with their line breaks as they are written, and a last one without. -/
def rowsText (rows : List (Row × LineBreak)) (last : Option Row) : Text :=
  match rows with
  | [] => last.elim [] Row.text
  | (r, b) :: rows => r.text ++ (b.lead ++ '\n' :: rowsText rows last)

namespace Sheet

/-- The text of a list. -/
def text (s : Sheet) : Text :=
  s.header.1 ++ (s.headerBreak.lead ++ '\n' :: rowsText s.rows s.last)

/-- The names in a list, in order. -/
def names (s : Sheet) : List Name := (s.rows.map Prod.fst ++ s.last.toList).filterMap Row.name

/-- The first names of a list if it holds as many as are asked for, and otherwise how many
are asked for and how many there are. -/
def firstNames (s : Sheet) (asked : Nat) : Except Shortage (List Text) :=
  if asked ≤ s.names.length then .ok ((s.names.map Name.text).take asked)
  else .error (.tooFew asked s.names.length)

end Sheet

/-! ## one row -/

theorem newline_notMem_lead (b : LineBreak) : '\n' ∉ b.lead := by
  cases b <;> simp [LineBreak.lead]

theorem comma_notMem_of_isAllBlank (b : Blanks) : ',' ∉ b.text := fun h => by
  cases b.blank ',' h

namespace Row

variable (r : Row)

theorem notMem_nameText : ',' ∉ r.nameText ∧ '\n' ∉ r.nameText := by
  rw [nameText]
  cases r.name with
  | none => simp
  | some n => exact ⟨n.comma_notMem, n.newline_notMem⟩

theorem newline_notMem_text : '\n' ∉ r.text := by
  have hmore : '\n' ∉ r.moreText := by
    rw [moreText]
    cases r.more with
    | none => simp
    | some cells => simpa using cells.2
  simp [text, cell, quoted, r.before.newline_notMem, r.after.newline_notMem, r.notMem_nameText.2,
    hmore]

/-- The first cell ends where the further ones start. -/
theorem takeWhile_text : r.text.takeWhile (· != ',') = r.cell := by
  have hcell : ∀ c ∈ r.cell, (c != ',') = true := by
    have hnot : ',' ∉ r.cell := by
      simp [cell, quoted, comma_notMem_of_isAllBlank, r.notMem_nameText.1]
    intro c hc
    rw [bne_iff_ne]
    rintro rfl
    exact hnot hc
  rw [text, List.takeWhile_append_of_pos hcell, moreText]
  cases r.more <;> simp

/-- What stands in quotes has no blanks at its ends. -/
theorem trim_quoted : trim r.quoted = r.quoted := by
  have hquotes (n : Nat) : trim (List.replicate n '"') = List.replicate n '"' := by
    cases n with
    | zero => rfl
    | succ n =>
        refine (IsTrim.of_not_isBlank (by simp) fun c hc => ?_).trim_eq
        rw [List.eq_of_mem_replicate hc]
        rfl
  rw [quoted, nameText]
  cases r.name with
  | none => simpa [List.replicate_append_replicate] using hquotes (r.opening + r.closing)
  | some n =>
      obtain ⟨c, s, hs⟩ := List.exists_cons_of_ne_nil n.ne_nil
      obtain ⟨t, d, ht⟩ := (List.eq_nil_or_concat' n.text).resolve_left n.ne_nil
      have hc := (n.edges c (.inl (by rw [hs]; rfl))).1
      have hd := (n.edges d (.inr (by rw [ht]; simp))).1
      have hquote : isBlank '"' = false := rfl
      refine IsTrim.trim_eq ⟨?_, ?_⟩
      · cases hopen : r.opening with
        | zero => exact ⟨c, s ++ List.replicate r.closing '"', by simp [hs], hc⟩
        | succ k =>
            exact ⟨'"', List.replicate k '"' ++ (n.text ++ List.replicate r.closing '"'), rfl,
              hquote⟩
      · cases hclose : r.closing with
        | zero => exact ⟨List.replicate r.opening '"' ++ t, d, by simp [ht], hd⟩
        | succ k =>
            refine ⟨List.replicate r.opening '"' ++ (n.text ++ List.replicate k '"'), '"', ?_,
              hquote⟩
            simp [List.replicate_succ']

end Row

theorem dropWhile_quotes (n : Nat) {s : Text} (h : ∀ c ∈ s.head?, c ≠ '"') :
    (List.replicate n '"' ++ s).dropWhile (· == '"') = s := by
  rw [List.dropWhile_append_of_pos fun c hc => by simp [List.eq_of_mem_replicate hc]]
  cases s with
  | nil => rfl
  | cons c s =>
      have hc : c ≠ '"' := h c rfl
      simp [hc]

theorem Row.trimQuotes_quoted (r : Row) : trimQuotes r.quoted = r.nameText := by
  rw [trimQuotes, quoted, nameText]
  cases r.name with
  | none =>
      have hall : List.replicate r.opening '"' ++ ([] ++ List.replicate r.closing '"') =
          List.replicate (r.opening + r.closing) '"' ++ [] := by
        simp [List.replicate_append_replicate]
      rw [hall, dropWhile_quotes _ (by simp)]
      rfl
  | some n =>
      have hstart : ∀ c ∈ (n.text ++ List.replicate r.closing '"').head?, c ≠ '"' := by
        rw [List.head?_append_of_ne_nil _ n.ne_nil]
        exact fun c hc => (n.edges c (.inl hc)).2
      have hend : ∀ c ∈ n.text.reverse.head?, c ≠ '"' := by
        rw [List.head?_reverse]
        exact fun c hc => (n.edges c (.inr hc)).2
      rw [dropWhile_quotes _ hstart, List.reverse_append, List.reverse_replicate,
        dropWhile_quotes _ hend, List.reverse_reverse]

/-- The name is read from its row. -/
theorem nameOfRow_text (r : Row) : nameOfRow r.text = r.nameText := by
  have hbefore : isAllBlank r.before.text = true := List.all_eq_true.2 r.before.blank
  have hafter : isAllBlank r.after.text = true := List.all_eq_true.2 r.after.blank
  rw [nameOfRow, r.takeWhile_text, Row.cell, trim_blanks_append hbefore,
    trim_append_blanks hafter, r.trim_quoted, r.trimQuotes_quoted]

/-- A carriage return at the end of a row makes no difference to its name. -/
theorem nameOfRow_return (s : Text) : nameOfRow (s ++ ['\r']) = nameOfRow s := by
  rw [nameOfRow, nameOfRow, List.takeWhile_append]
  split
  · rename_i hall
    have hs := (List.takeWhile_prefix (· != ',')).eq_of_length hall
    have hreturn : ['\r'].takeWhile (· != ',') = ['\r'] := rfl
    rw [hreturn, trim_concat_of_isBlank rfl, hs]
  · rfl

theorem nameOfRow_dropCarriageReturn (s : Text) :
    nameOfRow (dropCarriageReturn s) = nameOfRow s := by
  rw [dropCarriageReturn]
  split
  · rename_i hlast
    obtain ⟨t, rfl⟩ := List.getLast?_eq_some_iff.1 hlast
    rw [List.dropLast_concat, nameOfRow_return]
  · rfl

theorem nameOfRow_line (r : Row) (b : LineBreak) :
    nameOfRow (dropCarriageReturn (r.text ++ b.lead)) = r.nameText := by
  rw [nameOfRow_dropCarriageReturn]
  cases b with
  | feed => rw [LineBreak.lead, List.append_nil, nameOfRow_text]
  | returnFeed => rw [LineBreak.lead, nameOfRow_return, nameOfRow_text]

/-! ## all rows -/

/-- A row without a name is skipped. -/
theorem filter_nameText (r : Row) (ns : List Text) :
    (r.nameText :: ns).filter (fun n => !n.isEmpty) =
      (r.name.toList.map Name.text) ++ ns.filter fun n => !n.isEmpty := by
  rw [Row.nameText]
  cases r.name with
  | none => simp
  | some n => simp [n.ne_nil]

/-- A text without line breaks is a single row, or no row and no name. -/
theorem names_of_single {s : Text} (h : '\n' ∉ s) :
    ((lines s).map nameOfRow).filter (fun n => !n.isEmpty) =
      [nameOfRow s].filter fun n => !n.isEmpty := by
  cases s with
  | nil => rfl
  | cons c s => rw [lines_end h (List.cons_ne_nil c s), List.map_singleton]

theorem names_rowsText (rows : List (Row × LineBreak)) (last : Option Row) :
    ((lines (rowsText rows last)).map nameOfRow).filter (fun n => !n.isEmpty) =
      ((rows.map Prod.fst ++ last.toList).filterMap Row.name).map Name.text := by
  induction rows with
  | nil =>
      cases last with
      | none => rfl
      | some r =>
          have hrow : rowsText [] (some r) = r.text := rfl
          rw [hrow, names_of_single r.newline_notMem_text, nameOfRow_text, filter_nameText]
          cases hr : r.name <;> simp [hr]
  | cons row rows ih =>
      obtain ⟨r, b⟩ := row
      have hline : '\n' ∉ r.text ++ b.lead := by
        simp [r.newline_notMem_text, newline_notMem_lead]
      rw [rowsText, ← List.append_assoc, lines_line hline, List.map_cons, nameOfRow_line,
        filter_nameText, ih]
      cases hr : r.name <;> simp [hr]

/-- All names are read from a list, and nothing else is. -/
theorem names_text (s : Sheet) : Roster.names s.text = s.names.map Name.text := by
  have hheader : '\n' ∉ s.header.1 ++ s.headerBreak.lead := by
    simp [s.header.2, newline_notMem_lead]
  rw [Roster.names, Sheet.text, ← List.append_assoc, lines_line hheader, List.drop_one,
    List.tail_cons, names_rowsText, Sheet.names]

/-- What is read of a list that there is room for. -/
theorem top_text_of_le_room (s : Sheet) {asked : Nat} (h : asked ≤ room) :
    top asked s.text = s.firstNames asked := by
  rw [top, if_neg (Nat.not_lt.2 h), names_text, Sheet.firstNames]
  by_cases hasked : asked ≤ s.names.length
  · simp [hasked]
  · have hall : (s.names.map Name.text).take asked = s.names.map Name.text :=
      List.take_of_length_le (by simp; omega)
    have hfew : s.names.length < asked := Nat.not_le.1 hasked
    simp [hall, hasked, hfew]

/-- **Ranked lists**: of a list that was written the first names are read, as many as are asked
for, or it is told how many names it has, exactly when there is room for the number that is asked
for; without room nothing is read, whatever the list holds. -/
theorem top_text_eq_iff (s : Sheet) (asked : Nat) :
    (top asked s.text = s.firstNames asked ↔ asked ≤ room) ∧
      (room < asked → top asked s.text = .error (.noRoom asked)) := by
  have hnone : room < asked → top asked s.text = .error (.noRoom asked) := by
    intro h
    rw [top, if_pos h]
  refine ⟨⟨fun h => Nat.le_of_not_lt fun hroom => ?_, top_text_of_le_room s⟩, hnone⟩
  rw [hnone hroom, Sheet.firstNames] at h
  split at h <;> cases h

theorem top_text_eq_iff_quoted :
    let blank : Blanks := ⟨[' '], by simp, by decide⟩
    let bare : Blanks := ⟨[], by simp, by decide⟩
    let syn : Name := ⟨"syn".toList, by decide, by rintro c (h | h) <;> cases h <;> decide,
      by decide, by decide⟩
    let rand : Name := ⟨"rand".toList, by decide, by rintro c (h | h) <;> cases h <;> decide,
      by decide, by decide⟩
    let s : Sheet := ⟨⟨"name,downloads".toList, by decide⟩, .feed,
      [(⟨bare, 0, some syn, 0, bare, some ⟨"1000".toList, by decide⟩⟩, .returnFeed),
        (⟨bare, 1, none, 1, blank, none⟩, .feed)],
      some ⟨blank, 2, some rand, 1, blank, none⟩⟩
    s.text = "name,downloads\nsyn,1000\r\n\"\" \n \"\"rand\" ".toList ∧ 2 ≤ room ∧
      top 2 s.text = s.firstNames 2 ∧ s.firstNames 2 = .ok ["syn".toList, "rand".toList] := by
  intro blank bare syn rand s
  have hroom : 2 ≤ room := by decide
  exact ⟨by decide, hroom, (top_text_eq_iff s 2).1.2 hroom, by decide⟩

/-- The greatest number that can be asked for is never answered with a shortage. -/
theorem top_text_greatest :
    let bare : Blanks := ⟨[], by simp, by decide⟩
    let syn : Name := ⟨"syn".toList, by decide, by rintro c (h | h) <;> cases h <;> decide,
      by decide, by decide⟩
    let s : Sheet := ⟨⟨"name,downloads".toList, by decide⟩, .feed,
      [(⟨bare, 0, some syn, 0, bare, some ⟨"1000".toList, by decide⟩⟩, .feed)], none⟩
    s.firstNames 18446744073709551615 = .error (.tooFew 18446744073709551615 1) ∧
      top 18446744073709551615 s.text = .error (.noRoom 18446744073709551615) :=
  ⟨by decide, by decide⟩

end ImportWatch.Roster
