import ImportWatch.Corpus
import ImportWatch.Proofs.Reproduction
import ImportWatch.Report.Table

/-!
# ImportWatch.Proofs.Rows

Reading a table of findings.

* `Report.splitCells` cuts a row between its cells; no cell holds a comma, so
  it finds the cells that the row was made of (`Report.splitCells_row`);
* `Report.restored` puts back what a cell has lost, so a row and its losses
  tell the values of all fields (`Report.zipWith_restored_row`);
* `Finding.IsScanned` are the findings that a scan can come to; none of their
  fields but those that name packages, patterns and files can break a line;
* `Report.table_decodable`: a table is read row by row and cell by cell.
-/

namespace ImportWatch

open Text

/-! ## texts without some characters -/

theorem subset_intercalate (separator : Text) {p : Text} {ps : List Text} (h : p ∈ ps) :
    p ⊆ separator.intercalate ps := by
  induction ps with
  | nil => cases h
  | cons q qs ih =>
      cases qs with
      | nil =>
          rw [List.mem_singleton.1 h]
          simp
      | cons r rs =>
          rw [List.intercalate_cons_cons]
          rcases List.mem_cons.1 h with rfl | h
          · exact fun c hc => List.mem_append_left _ (List.mem_append_left _ hc)
          · exact fun c hc => List.mem_append_right _ (ih h hc)

/-- Lines are found in the text that is made of them. -/
theorem splitOn_unlines {ls : List Text} (h : ∀ l ∈ ls, '\n' ∉ l) :
    (unlines ls).splitOn '\n' = ls ++ [[]] := by
  induction ls with
  | nil => rfl
  | cons l ls ih =>
      obtain ⟨hl, hls⟩ := List.forall_mem_cons.1 h
      have hcons : unlines (l :: ls) = l ++ '\n' :: unlines ls := by simp [unlines]
      rw [hcons, splitOn_newline_append hl, ih hls, List.cons_append]

namespace PathText

theorem subset_of_mem_pieces {path p : Text} (h : p ∈ pieces path) : p ⊆ path := by
  have hsub := subset_intercalate ['/'] h
  rwa [pieces, List.intercalate_splitOn] at hsub

theorem subset_of_mem_namedFromEnd {path p : Text} (h : p ∈ namedFromEnd path) : p ⊆ path := by
  have hrest : (splitLead path).2 ⊆ path := by
    intro c hc
    rw [← append_splitLead path]
    exact List.mem_append_right _ hc
  rw [namedFromEnd] at h
  have hpiece : p ∈ pieces (splitLead path).2 :=
    List.mem_reverse.1 ((List.dropWhile_sublist isInert).subset h)
  exact fun c hc => hrest (subset_of_mem_pieces hpiece hc)

/-- A parent is written with characters of its path. -/
theorem mem_of_mem_parent? {path parent : Text} (h : parent? path = some parent) {c : Char}
    (hc : c ∈ parent) : c = '/' ∨ c ∈ path := by
  unfold parent? at h
  split at h
  · split at h
    · cases h
      cases hc
    · cases h
  · rename_i piece before hnamed
    cases h
    rcases List.mem_append.1 hc with hc | hc
    · rw [← append_splitLead path]
      exact .inr (List.mem_append_left _ hc)
    · rcases mem_intercalate hc with hc | ⟨p, hp, hc⟩
      · exact .inl (List.mem_singleton.1 hc)
      · have hbefore : p ∈ before :=
          (List.dropWhile_sublist isInert).subset (List.mem_reverse.1 hp)
        have hpiece : p ∈ namedFromEnd path := hnamed ▸ List.mem_cons_of_mem _ hbefore
        exact .inr (subset_of_mem_namedFromEnd hpiece hc)

theorem subset_of_fileName? {path name : Text} (h : fileName? path = some name) : name ⊆ path := by
  unfold fileName? at h
  split at h
  · cases h
  · rename_i piece before hnamed
    split at h
    · cases h
    · cases h
      exact subset_of_mem_namedFromEnd (hnamed ▸ List.mem_cons_self)

end PathText

/-! ## findings of scans -/

namespace Finding

/-- True for the findings that some source adds to some package. -/
def IsScanned (f : Finding) : Prop := ∃ package c, f ∈ Survey.newFindings package c

variable {f : Finding}

theorem IsScanned.newline_notMem_statement (h : f.IsScanned) : '\n' ∉ f.statement := by
  obtain ⟨package, c, hf⟩ := h
  rw [Survey.newFindings_eq] at hf
  obtain ⟨s, hs, hf⟩ := List.mem_flatMap.1 hf
  exact (Statement.isReproducible_of_mem_findings hs hf).2.2.newline_notMem

theorem newline_notMem_directory (h : '\n' ∉ f.file) : '\n' ∉ f.directory := by
  rw [directory]
  cases hparent : PathText.parent? f.file with
  | none => exact List.not_mem_nil
  | some parent =>
      intro hmem
      rcases PathText.mem_of_mem_parent? hparent hmem with hslash | hmem
      · exact absurd hslash (by decide)
      · exact h hmem

theorem newline_notMem_fileName (h : '\n' ∉ f.file) : '\n' ∉ f.fileName := by
  rw [fileName]
  cases hname : PathText.fileName? f.file with
  | none => exact List.not_mem_nil
  | some name => exact fun hmem => h (PathText.subset_of_fileName? hname hmem)

theorem isScanned_of_mem_takeAll {package : Text} {cs : List Intake}
    (h : f ∈ ((Survey.start package).takeAll cs).findings) : f.IsScanned := by
  rw [((Survey.isReproducible_start package).takeAll cs).findings_eq] at h
  obtain ⟨c, _, hf⟩ := List.mem_flatMap.1 h
  exact ⟨package, c, hf⟩

theorem isScanned_of_mem_ofFiles {watch : Watchlist} {package : Text} {files : List (Text × Text)}
    (h : f ∈ (Survey.ofFiles watch package files).findings) : f.IsScanned := by
  rw [Survey.ofFiles, Survey.addFiles_findings] at h
  obtain ⟨⟨file, source⟩, _, hf⟩ := List.mem_flatMap.1 h
  exact ⟨package, ⟨watch, file, source⟩, by rwa [Survey.newFindings_eq]⟩

theorem isScanned_of_mem_scanPackages {d : Disk} {scope : Scope} {places : Places}
    {packages : List Text} (h : f ∈ (scanPackages d scope places packages).findings) :
    f.IsScanned := by
  obtain ⟨r, hr, hf⟩ := List.mem_flatMap.1 h
  obtain ⟨package, _, rfl⟩ := List.mem_map.1 hr
  rw [scanPackage, scanFolder] at hf
  cases hfiles : d.sources? scope.extensions (places.root package) with
  | none =>
      rw [hfiles] at hf
      cases hf
  | some files =>
      rw [hfiles] at hf
      exact isScanned_of_mem_ofFiles hf

end Finding

namespace Report

/-! ## rows -/

/-- The pieces of a row between its separators, found from the left. -/
def splitCells : Text → List Text
  | [] => [[]]
  | ',' :: ' ' :: s => [] :: splitCells s
  | c :: s => List.modifyHead (c :: ·) (splitCells s)

theorem splitCells_of_notMem {cell : Text} (h : ',' ∉ cell) : splitCells cell = [cell] := by
  induction cell with
  | nil => rfl
  | cons c cell ih =>
      rw [List.mem_cons, not_or] at h
      rw [splitCells, ih h.2]
      · rfl
      · rintro _ rfl
        exact absurd rfl h.1

theorem splitCells_append {cell : Text} (h : ',' ∉ cell) (rest : Text) :
    splitCells (cell ++ ',' :: ' ' :: rest) = cell :: splitCells rest := by
  induction cell with
  | nil => rfl
  | cons c cell ih =>
      rw [List.mem_cons, not_or] at h
      rw [List.cons_append, splitCells, ih h.2]
      · rfl
      · rintro _ rfl
        exact absurd rfl h.1

theorem splitCells_intercalate {cells : List Text} (h : ∀ cell ∈ cells, ',' ∉ cell)
    (hne : cells ≠ []) : splitCells (List.intercalate [',', ' '] cells) = cells := by
  induction cells with
  | nil => exact absurd rfl hne
  | cons cell cells ih =>
      obtain ⟨hcell, hcells⟩ := List.forall_mem_cons.1 h
      cases cells with
      | nil => rw [List.intercalate_singleton, splitCells_of_notMem hcell]
      | cons next cells =>
          rw [List.intercalate_cons_cons, List.append_assoc]
          exact (splitCells_append hcell _).trans
            (congrArg (cell :: ·) (ih hcells (List.cons_ne_nil next cells)))

theorem comma_notMem_withoutCommas (value : Text) : ',' ∉ withoutCommas value := by
  simp [withoutCommas]

/-- The cells of a row are the values without their commas. -/
theorem splitCells_row (f : Finding) :
    splitCells (row f) = (cells f).map fun cell => withoutCommas cell.2 := by
  refine splitCells_intercalate (fun cell hcell => ?_) (List.cons_ne_nil _ _)
  obtain ⟨c, _, rfl⟩ := List.mem_map.1 hcell
  exact comma_notMem_withoutCommas c.2

/-! ## losses -/

/-- The names of the fields of a row. -/
def fieldNames : List Text :=
  ["crate".toList, "pattern".toList, "directory".toList, "file".toList, "statement".toList]

/-- The values of the fields of a row. -/
def fieldValues (f : Finding) : List Text :=
  [f.package, f.pattern, f.directory, f.fileName, f.statement]

theorem cells_eq_zip (f : Finding) : cells f = fieldNames.zip (fieldValues f) := rfl

/-- There is a loss for each field whose value holds a comma. -/
theorem losses_eq_filterMap (f : Finding) :
    losses f = (fieldNames.zip (fieldValues f)).filterMap fun (name, value) =>
      if ',' ∈ value then some (.lossy f.package name value) else none := by
  rw [losses, cells_eq_zip, ← List.filterMap_eq_map, List.filterMap_filter]
  refine congrArg (List.filterMap · _) (funext fun cell => ?_)
  simp

/-- The value of a field, given the losses of its row and its cell. -/
def restored (losses : List Notice) (field cell : Text) : Text :=
  match losses with
  | [] => cell
  | .lossy _ name value :: rest => if name = field then value else restored rest field cell
  | _ :: rest => restored rest field cell

/-- What the losses of some fields do not name is as it is in its cell. -/
theorem restored_of_notMem (package field cell : Text) {cs : List (Text × Text)}
    (h : field ∉ cs.map Prod.fst) :
    restored (cs.map fun c => .lossy package c.1 c.2) field cell = cell := by
  induction cs with
  | nil => rfl
  | cons c cs ih =>
      rw [List.map_cons, List.mem_cons, not_or] at h
      rw [List.map_cons, restored, if_neg (Ne.symm h.1), ih h.2]

theorem withoutCommas_of_notMem {value : Text} (h : ',' ∉ value) : withoutCommas value = value := by
  rw [withoutCommas, List.filter_eq_self]
  intro c hc
  simpa using fun heq : c = ',' => h (heq ▸ hc)

/-- Fields with different names are restored from their cells and losses. -/
theorem restored_withoutCommas (package : Text) {cs : List (Text × Text)}
    (hnodup : (cs.map Prod.fst).Nodup) {c : Text × Text} (hc : c ∈ cs) :
    restored ((cs.filter fun c => c.2.contains ',').map fun c => .lossy package c.1 c.2) c.1
      (withoutCommas c.2) = c.2 := by
  induction cs with
  | nil => cases hc
  | cons d cs ih =>
      rw [List.map_cons, List.nodup_cons] at hnodup
      by_cases hd : ',' ∈ d.2
      · rw [List.filter_cons_of_pos (by simpa using hd), List.map_cons, restored]
        rcases List.mem_cons.1 hc with rfl | hc
        · rw [if_pos rfl]
        · have hne : d.1 ≠ c.1 := fun heq => hnodup.1 (heq ▸ List.mem_map_of_mem hc)
          rw [if_neg hne, ih hnodup.2 hc]
      · rw [List.filter_cons_of_neg (by simpa using hd)]
        rcases List.mem_cons.1 hc with rfl | hc
        · have hnot : c.1 ∉ (cs.filter fun c => c.2.contains ',').map Prod.fst := fun hmem =>
            hnodup.1 ((List.filter_sublist.map Prod.fst).subset hmem)
          rw [restored_of_notMem package c.1 _ hnot, withoutCommas_of_notMem hd]
        · exact ih hnodup.2 hc

/-- The values of a row are restored from its cells and its losses. -/
theorem zipWith_restored_row (f : Finding) :
    List.zipWith (restored (losses f)) fieldNames (splitCells (row f)) = fieldValues f := by
  have hnames : ((cells f).map Prod.fst).Nodup := by
    have hfst : (cells f).map Prod.fst = fieldNames := rfl
    rw [hfst]
    decide
  have hcell : ∀ c ∈ cells f, restored (losses f) c.1 (withoutCommas c.2) = c.2 := fun c hc =>
    restored_withoutCommas f.package hnames hc
  calc
    _ = (cells f).map fun c => restored (losses f) c.1 (withoutCommas c.2) := by
      rw [splitCells_row]
      rfl
    _ = (cells f).map Prod.snd := List.map_congr_left hcell
    _ = fieldValues f := rfl

/-! ## tables -/

theorem newline_notMem_row {f : Finding} (h : ∀ value ∈ fieldValues f, '\n' ∉ value) :
    '\n' ∉ row f := by
  intro hmem
  rcases mem_intercalate hmem with hmem | ⟨cell, hcell, hmem⟩
  · exact absurd hmem (by decide)
  · obtain ⟨c, hc, rfl⟩ := List.mem_map.1 hcell
    rw [cells_eq_zip] at hc
    exact h c.2 (List.of_mem_zip hc).2 (List.mem_of_mem_filter hmem)

/-- The lines of a table are its header and its rows. -/
theorem splitOn_table {fs : List Finding} (hscanned : ∀ f ∈ fs, f.IsScanned)
    (hnames : ∀ f ∈ fs, '\n' ∉ f.package ∧ '\n' ∉ f.pattern ∧ '\n' ∉ f.file) :
    (table fs).splitOn '\n' = tableHeader :: fs.map row ++ [[]] := by
  refine splitOn_unlines (List.forall_mem_cons.2 ⟨by decide, fun line hline => ?_⟩)
  obtain ⟨f, hf, rfl⟩ := List.mem_map.1 hline
  obtain ⟨hpackage, hpattern, hfile⟩ := hnames f hf
  refine newline_notMem_row fun value hvalue => ?_
  simp only [fieldValues, List.mem_cons, List.not_mem_nil, or_false] at hvalue
  rcases hvalue with rfl | rfl | rfl | rfl | rfl
  · exact hpackage
  · exact hpattern
  · exact Finding.newline_notMem_directory hfile
  · exact Finding.newline_notMem_fileName hfile
  · exact (hscanned f hf).newline_notMem_statement

/-- **Tables**: a row is cut into five cells, which are the values of its fields without their
commas, and has one loss for each value that holds a comma, so that cells and losses together tell
all values; the lines of a table of scanned findings are its header and a row for each of them,
unless a package, a pattern or a file has a line feed in its name; for no statement has one, with
whatever sources and packages a finding was scanned. -/
theorem table_decodable :
    (∀ f : Finding,
      splitCells (row f) = (fieldValues f).map (List.filter (· != ',')) ∧
        (losses f = (fieldNames.zip (fieldValues f)).filterMap fun (name, value) =>
          if ',' ∈ value then some (.lossy f.package name value) else none) ∧
        List.zipWith (restored (losses f)) fieldNames (splitCells (row f)) = fieldValues f) ∧
      (∀ fs : List Finding, (∀ f ∈ fs, f.IsScanned) →
        (∀ f ∈ fs, '\n' ∉ f.package ∧ '\n' ∉ f.pattern ∧ '\n' ∉ f.file) →
          (table fs).splitOn '\n' = tableHeader :: fs.map row ++ [[]] ∧
            tableLosses fs = fs.flatMap losses) ∧
      (∀ f : Finding, f.IsScanned → '\n' ∉ f.statement) ∧
      (∀ package cs, ∀ f ∈ ((Survey.start package).takeAll cs).findings, f.IsScanned) ∧
      ∀ d scope places packages, ∀ f ∈ (scanPackages d scope places packages).findings,
        f.IsScanned := by
  refine ⟨fun f => ⟨?_, losses_eq_filterMap f, zipWith_restored_row f⟩, ?_, ?_, ?_, ?_⟩
  · rw [splitCells_row]
    rfl
  · exact fun fs hscanned hnames => ⟨splitOn_table hscanned hnames, rfl⟩
  · exact fun f h => h.newline_notMem_statement
  · exact fun package cs f h => Finding.isScanned_of_mem_takeAll h
  · exact fun d scope places packages f h => Finding.isScanned_of_mem_scanPackages h

theorem table_decodable_spread :
    let c : Intake := ⟨.ofTexts ["std".toList], "a,b/l.rs".toList,
      "use std::\x7b\n fs, net\x7d;".toList⟩
    let fs := Survey.newFindings ['p'] c
    ((∀ f ∈ fs, f.IsScanned) ∧ ∀ f ∈ fs, '\n' ∉ f.package ∧ '\n' ∉ f.pattern ∧ '\n' ∉ f.file) ∧
      (table fs).splitOn '\n' = [tableHeader, "p, std, ab, l.rs, use std::\x7bfs net\x7d;".toList,
        "p, std, ab, l.rs, use std::\x7bfs net\x7d;".toList, []] := by
  intro c fs
  have hscanned : ∀ f ∈ fs, f.IsScanned := fun f hf => ⟨['p'], c, hf⟩
  have hnames : ∀ f ∈ fs, '\n' ∉ f.package ∧ '\n' ∉ f.pattern ∧ '\n' ∉ f.file := by
    decide +kernel
  refine ⟨⟨hscanned, hnames⟩, ?_⟩
  rw [(table_decodable.2.1 fs hscanned hnames).1]
  decide +kernel

end Report

end ImportWatch
