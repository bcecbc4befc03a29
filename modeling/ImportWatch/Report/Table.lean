import ImportWatch.Notice

/-!
# ImportWatch.Report.Table

The table of findings, with comma separated cells.

Cells are not quoted: a cell loses its commas, and each loss is a notice that
keeps the full value.

* `row` and `losses` are for one finding, `table` and `tableLosses` for many.
-/

namespace ImportWatch.Report

open Text

/-- The names of the columns, on the first line of a table. -/
def tableHeader : Text := "crate, pattern of interest, directory, file, use line".toList

/-- The values of the cells of a row, each with the name of its field. -/
def cells (f : Finding) : List (Text × Text) :=
  [("crate".toList, f.package), ("pattern".toList, f.pattern),
    ("directory".toList, f.directory), ("file".toList, f.fileName),
    ("statement".toList, f.statement)]

/-- A text without its commas. -/
def withoutCommas (value : Text) : Text := value.filter (· != ',')

/-- The row of a finding. -/
def row (f : Finding) : Text :=
  List.intercalate [',', ' '] ((cells f).map fun cell => withoutCommas cell.2)

/-- A notice for each cell of a row that loses commas. -/
def losses (f : Finding) : List Notice :=
  ((cells f).filter fun cell => cell.2.contains ',').map fun cell =>
    .lossy f.package cell.1 cell.2

/-- The header and the rows of some findings. -/
def table (fs : List Finding) : Text := unlines (tableHeader :: fs.map row)

/-- The notices for all commas that a table loses. -/
def tableLosses (fs : List Finding) : List Notice := fs.flatMap losses

end ImportWatch.Report
