import ImportWatch.Proofs.Colours
import ImportWatch.Proofs.JsonReader
import ImportWatch.Proofs.Rows
import ImportWatch.Report.Terminal
import Mathlib.Algebra.BigOperators.Group.List.Basic
import Mathlib.Algebra.Ring.Nat
import Mathlib.Data.List.Basic

/-!
# ImportWatch.Proofs.Summaries

The reports of an outcome, compared with each other.

* `Counts.IsRanking` is the order of counters by number and then by name;
  `Counts.isRanking_ranked` and `Counts.IsRanking.eq_ranked` say that `ranked`
  is in this order and that nothing else is;
* `sum_kindCounts`: the numbers of the kinds of notices add up;
* `Report.Story` are the numbers that the reports share, and
  `Report.Story.IsOf` says what they are of an outcome;
* `Report.Story.IsTold` says what stands in each report: the lines of the plain
  summary and of the overview, what a terminal shows of the overview, what is
  read in the machine-readable summary, and the rows of the table;
* `Report.reports_tell_story`: the reports of every outcome tell one story.
-/

namespace ImportWatch

open Text

/-! ## counters in order -/

namespace Counts

/-- True when an entry is listed before another one: its number is larger, or it is the same and the
name is smaller. -/
def Precedes (a b : Text × Nat) : Prop := b.2 < a.2 ∨ b.2 = a.2 ∧ a.1 < b.1

/-- True for the entries of some counters by number, largest first, and then by name. -/
structure IsRanking (c : Counts) (es : List (Text × Nat)) : Prop where
  perm : es.Perm c.entries
  ordered : es.Pairwise Precedes

theorem rankedBefore_iff {a b : Text × Nat} :
    rankedBefore a b = true ↔ b.2 < a.2 ∨ b.2 = a.2 ∧ ¬b.1 < a.1 := by
  simp [rankedBefore]

theorem rankedBefore_trans (a b c : Text × Nat) (hab : rankedBefore a b = true)
    (hbc : rankedBefore b c = true) : rankedBefore a c = true := by
  rw [rankedBefore_iff] at *
  rcases hab with hab | ⟨hab, hnames⟩ <;> rcases hbc with hbc | ⟨hbc, hnames'⟩
  · exact .inl (Nat.lt_trans hbc hab)
  · exact .inl (hbc ▸ hab)
  · exact .inl (hab ▸ hbc)
  · exact .inr ⟨hbc.trans hab, List.le_trans hnames hnames'⟩

theorem rankedBefore_total (a b : Text × Nat) : (rankedBefore a b || rankedBefore b a) = true := by
  rw [Bool.or_eq_true, rankedBefore_iff, rankedBefore_iff]
  rcases Nat.lt_trichotomy a.2 b.2 with h | h | h
  · exact .inr (.inl h)
  · rcases List.le_total a.1 b.1 with hname | hname
    · exact .inl (.inr ⟨h.symm, hname⟩)
    · exact .inr (.inr ⟨h, hname⟩)
  · exact .inl (.inl h)

/-- No two entries have the same name. -/
theorem pairwise_names_ne (c : Counts) : c.entries.Pairwise fun a b => a.1 ≠ b.1 := by
  refine c.ascend.imp ?_
  intro a b hlt heq
  rw [heq] at hlt
  exact List.lt_irrefl _ hlt

theorem isRanking_ranked (c : Counts) : c.IsRanking c.ranked := by
  have hperm : c.ranked.Perm c.entries := List.mergeSort_perm _ _
  have hordered : c.ranked.Pairwise fun a b => rankedBefore a b = true :=
    List.pairwise_mergeSort rankedBefore_trans rankedBefore_total _
  have hnames : c.ranked.Pairwise fun a b => a.1 ≠ b.1 :=
    hperm.symm.pairwise c.pairwise_names_ne fun h => h.symm
  refine ⟨hperm, (hordered.and hnames).imp ?_⟩
  rintro a b ⟨hle, hne⟩
  rcases rankedBefore_iff.1 hle with h | ⟨h, hname⟩
  · exact .inl h
  · exact .inr ⟨h, Decidable.byContradiction fun hnot => hne (List.le_antisymm hname hnot)⟩

theorem not_precedes_of_precedes {a b : Text × Nat} (hab : Precedes a b) : ¬Precedes b a := by
  rintro (hba | ⟨heq, hba⟩) <;> rcases hab with hab | ⟨heq', hab⟩
  · omega
  · omega
  · omega
  · exact List.lt_irrefl _ (List.lt_trans hab hba)

/-- There is no other order of the entries by number and name. -/
theorem IsRanking.eq_ranked {c : Counts} {es : List (Text × Nat)} (h : c.IsRanking es) :
    es = c.ranked := by
  have hranked := isRanking_ranked c
  refine List.Perm.eq_of_pairwise ?_ h.ordered hranked.ordered (h.perm.trans hranked.perm.symm)
  exact fun a b _ _ hab hba => absurd hba (not_precedes_of_precedes hab)

theorem total_eq_sum (c : Counts) : c.total = (c.entries.map Prod.snd).sum := by
  rw [total]
  induction c.entries with
  | nil => rfl
  | cons e es ih => rw [List.foldr_cons, List.map_cons, List.sum_cons, ih]

theorem IsRanking.sum_eq_total {c : Counts} {es : List (Text × Nat)} (h : c.IsRanking es) :
    (es.map Prod.snd).sum = c.total := by
  rw [total_eq_sum, (h.perm.map Prod.snd).sum_eq]

end Counts

/-! ## counters at zero -/

/-- Entries at zero add nothing. -/
theorem sum_filter_ne_zero {α : Type} (es : List (α × Nat)) :
    ((es.filter fun e => e.2 != 0).map Prod.snd).sum = (es.map Prod.snd).sum := by
  induction es with
  | nil => rfl
  | cons e es ih => by_cases h : e.2 = 0 <;> simp [h, ih]

/-! ## notices by kind -/

theorem kindCount_append (ns ms : List Notice) (kind : NoticeKind) :
    kindCount (ns ++ ms) kind = kindCount ns kind + kindCount ms kind :=
  List.countP_append

theorem mem_kindCounts_iff {ns : List Notice} {kind : NoticeKind} {n : Nat} :
    (kind, n) ∈ kindCounts ns ↔ n = kindCount ns kind ∧ n ≠ 0 := by
  simp only [kindCounts, List.mem_filter, List.mem_map, Prod.mk.injEq, bne_iff_ne]
  constructor
  · rintro ⟨⟨k, _, rfl, rfl⟩, hne⟩
    exact ⟨rfl, hne⟩
  · rintro ⟨rfl, hne⟩
    exact ⟨⟨kind, kind.mem_all, rfl, rfl⟩, hne⟩

/-- Every notice is of one kind. -/
theorem sum_kindCounts (ns : List Notice) : ((kindCounts ns).map Prod.snd).sum = ns.length := by
  rw [kindCounts, sum_filter_ne_zero]
  induction ns with
  | nil => rfl
  | cons n ns ih =>
      rw [List.length_cons, ← ih]
      cases n <;> simp [NoticeKind.all, kindCount, Notice.kind] <;> omega

theorem kindCounts_eq_nil_iff {ns : List Notice} : kindCounts ns = [] ↔ ns = [] := by
  constructor
  · intro h
    have hsum := sum_kindCounts ns
    rw [h] at hsum
    exact List.eq_nil_of_length_eq_zero hsum.symm
  · rintro rfl
    rfl

/-- The kinds are listed in their order, each at most once. -/
theorem map_fst_kindCounts_sublist (ns : List Notice) :
    ((kindCounts ns).map Prod.fst).Sublist NoticeKind.all := by
  have hall : (NoticeKind.all.map fun k => (k, kindCount ns k)).map Prod.fst = NoticeKind.all := rfl
  rw [kindCounts, ← hall]
  exact List.filter_sublist.map Prod.fst

namespace Report

/-! ## packages with and without findings -/

/-- Every package has findings or has none. -/
theorem length_affected_add_unaffectedCount (o : Outcome) :
    (affected o).length + unaffectedCount o = o.packageCounts.entries.length := by
  have hranked : o.packageCounts.ranked.length = o.packageCounts.entries.length :=
    o.packageCounts.isRanking_ranked.perm.length_eq
  have hzero : (fun e : Text × Nat => e.2 == 0) = fun e => decide ¬((e.2 != 0) = true) := by
    funext e
    cases e.2 <;> rfl
  rw [← hranked, affected, unaffectedCount, ← List.countP_eq_length_filter, hzero,
    ← List.length_eq_countP_add_countP]

/-- Counting packages and taking the difference come to the same. -/
theorem cleanCount_eq_unaffectedCount (o : Outcome) : cleanCount o = unaffectedCount o := by
  rw [cleanCount, ← length_affected_add_unaffectedCount, Nat.add_sub_cancel_left]

theorem affected_perm (o : Outcome) :
    (affected o).Perm (o.packageCounts.entries.filter fun e => e.2 != 0) :=
  o.packageCounts.isRanking_ranked.perm.filter _

theorem pairwise_affected (o : Outcome) : (affected o).Pairwise Counts.Precedes :=
  o.packageCounts.isRanking_ranked.ordered.filter _

/-- Packages that are not listed add nothing. -/
theorem sum_affected (o : Outcome) : ((affected o).map Prod.snd).sum = o.packageCounts.total := by
  rw [affected, sum_filter_ne_zero, o.packageCounts.isRanking_ranked.sum_eq_total]

/-! ## what the reports tell -/

/-- What the reports of an outcome tell about its findings. -/
structure Story where
  total : Nat
  /-- All patterns. -/
  patterns : List (Text × Nat)
  /-- The packages with findings. -/
  packages : List (Text × Nat)
  /-- How many packages have no findings. -/
  clean : Nat
  /-- The packages that the overview names. -/
  named : List (Text × Nat)
  /-- How many packages with findings it does not name, if there are some. -/
  more : Option Nat
  kinds : List (NoticeKind × Nat)

/-- True for what has to be told about an outcome. -/
structure Story.IsOf (s : Story) (o : Outcome) : Prop where
  total : s.total = o.findings.length
  patterns : o.patternCounts.IsRanking s.patterns
  packages : s.packages.Perm (o.packageCounts.entries.filter fun e => e.2 != 0)
  ordered : s.packages.Pairwise Counts.Precedes
  clean : s.packages.length + s.clean = o.packageCounts.entries.length
  named : s.named <+: s.packages
  length_named : s.named.length = min 10 s.packages.length
  more : ∀ k, s.more = some k ↔ 10 < s.packages.length ∧ s.named.length + k = s.packages.length
  kinds : ∀ kind n, (kind, n) ∈ s.kinds ↔ n = kindCount o.notices kind ∧ n ≠ 0
  kinds_sublist : (s.kinds.map Prod.fst).Sublist NoticeKind.all
  sum_kinds : (s.kinds.map Prod.snd).sum = o.notices.length

/-- The story of an outcome, as the reports come to it. -/
def Story.ofOutcome (o : Outcome) : Story where
  total := o.findings.length
  patterns := o.patternCounts.ranked
  packages := affected o
  clean := unaffectedCount o
  named := (affected o).take namedPackages
  more :=
    if namedPackages < (affected o).length then some ((affected o).length - namedPackages) else none
  kinds := o.kindCounts

theorem Story.isOf_ofOutcome (o : Outcome) : (ofOutcome o).IsOf o where
  total := rfl
  patterns := o.patternCounts.isRanking_ranked
  packages := affected_perm o
  ordered := pairwise_affected o
  clean := length_affected_add_unaffectedCount o
  named := List.take_prefix _ _
  length_named := List.length_take
  more k := by
    by_cases hmany : namedPackages < (affected o).length
    · have hnamed : ((affected o).take namedPackages).length = namedPackages :=
        List.length_take_of_le (Nat.le_of_lt hmany)
      simp only [ofOutcome, if_pos hmany, hnamed, Option.some.injEq]
      rw [namedPackages] at *
      omega
    · simp only [ofOutcome, if_neg hmany, reduceCtorEq, false_iff]
      exact fun h => hmany h.1
  kinds _ _ := mem_kindCounts_iff
  kinds_sublist := map_fst_kindCounts_sublist o.notices
  sum_kinds := sum_kindCounts o.notices

/-! ## the texts of a story -/

namespace Story

/-- The lines of the plain summary. -/
def summaryLines (s : Story) : List Text :=
  ["===== Patterns =====".toList, "Total instances of each import pattern:".toList] ++
    s.patterns.map (fun e => e.1 ++ ": ".toList ++ Nat.toDigits 10 e.2) ++
    ["===== Crate Summary =====".toList, "Number of dangerous imports by crate:".toList] ++
    s.packages.map (fun e => e.1 ++ ": ".toList ++ Nat.toDigits 10 e.2) ++
    ["===== Crate Totals =====".toList,
      Nat.toDigits 10 s.packages.length ++ " crates with 1 or more dangerous imports".toList,
      Nat.toDigits 10 s.clean ++ " crates with 0 dangerous imports".toList]

/-! In the lines of the overview `paint` puts a text into a style. -/

section

variable (paint : Style → Text → Text)

/-- The lines that tell the number of findings. -/
def headline (s : Story) : List Text :=
  if s.total = 0 then [paint .boldGreen "✓".toList ++ " No watched imports found".toList]
  else
    [paint .boldYellow "⚠".toList ++ " Found ".toList ++
      paint .boldYellow (Nat.toDigits 10 s.total) ++ " watched imports".toList, []]

/-- The line of a pattern. -/
def patternLine (e : Text × Nat) : Text :=
  "  ".toList ++ paint .blue e.1 ++
    ' ' :: paint (if e.2 = 0 then .dimmed else .red) (Nat.toDigits 10 e.2)

/-- The line of a package that is named. -/
def packageLine (e : Text × Nat) : Text :=
  "  ".toList ++ paint .brightWhite e.1 ++ ' ' :: paint .red (Nat.toDigits 10 e.2)

/-- The line for the packages with findings that are not named. -/
def moreLine (k : Nat) : Text :=
  "  ".toList ++ paint .dimmed ("... and ".toList ++ Nat.toDigits 10 k ++ " more".toList)

/-- The line that counts the packages. -/
def packagesLine (s : Story) : Text :=
  "  ".toList ++ paint .yellow (Nat.toDigits 10 s.packages.length) ++
    " with watched imports, ".toList ++ paint .green (Nat.toDigits 10 s.clean) ++
    " without".toList

/-- The line of a package that could not be scanned. -/
def failureLine (f : Failure) : Text :=
  "  ".toList ++ paint .red "✗".toList ++ ' ' :: f.package ++ ": ".toList ++
    paint .dimmed f.reason

/-- The lines that count the notices by kind. -/
def noticeLines (s : Story) : List Text :=
  if s.kinds = [] then []
  else
    [paint .dimmed (List.replicate 60 '─'), paint .bold "Diagnostics".toList] ++
      s.kinds.map fun e => "  ".toList ++ e.1.title ++ ": ".toList ++
        paint .yellow (Nat.toDigits 10 e.2)

/-- The lines of the overview, with the packages that could not be scanned. -/
def overviewLines (failures : List Failure) (s : Story) : List Text :=
  s.headline paint ++ [paint .bold "Patterns".toList] ++ s.patterns.map (patternLine paint) ++
    [[], paint .bold "Packages".toList] ++
    (s.named.map (packageLine paint) ++ s.more.toList.map (moreLine paint) ++
      [s.packagesLine paint]) ++
    failures.map (failureLine paint) ++ s.noticeLines paint

end

end Story

theorem overviewLines_eq (color : Bool) (o : Outcome) :
    overviewLines color o = (Story.ofOutcome o).overviewLines (paint color) o.failures := by
  have hnotices : noticeLines color o = (Story.ofOutcome o).noticeLines (paint color) := by
    simp only [noticeLines, Story.noticeLines, Story.ofOutcome, Outcome.kindCounts,
      kindCounts_eq_nil_iff, List.isEmpty_iff]
    rfl
  have hpackages : packageLines color o =
      (Story.ofOutcome o).named.map (Story.packageLine (paint color)) ++
        (Story.ofOutcome o).more.toList.map (Story.moreLine (paint color)) ++
        [(Story.ofOutcome o).packagesLine (paint color)] := by
    rw [packageLines, cleanCount_eq_unaffectedCount]
    by_cases hmany : namedPackages < (affected o).length
    · simp only [Story.ofOutcome, if_pos hmany]
      rfl
    · simp only [Story.ofOutcome, if_neg hmany]
      rfl
  rw [overviewLines, hnotices, hpackages]
  rfl

/-! ## what is shown with and without colours -/

theorem escape_notMem_toDigits (n : Nat) : '\x1b' ∉ Nat.toDigits 10 n := fun h =>
  absurd (Nat.isDigit_of_mem_toDigits (by decide) (by decide) h) (by decide)

/-- True for an outcome in whose texts no escape character stands, as far as the overview shows
them. -/
structure HasNoEscape (o : Outcome) : Prop where
  patterns : ∀ e ∈ o.patternCounts.entries, '\x1b' ∉ e.1
  packages : ∀ e ∈ o.packageCounts.entries, '\x1b' ∉ e.1
  failures : ∀ f ∈ o.failures, '\x1b' ∉ f.package ∧ '\x1b' ∉ f.reason

namespace Story

open Style (Shows shows_self shows_paint)

/-- A text as it is written without colours. -/
abbrev unpainted : Style → Text → Text := fun _ t => t

theorem shows_digits (style : Style) (n : Nat) :
    Shows (paint true style (Nat.toDigits 10 n)) (Nat.toDigits 10 n) :=
  shows_paint style (escape_notMem_toDigits n)

theorem shows_blanks : Shows "  ".toList "  ".toList := shows_self (by decide)

theorem shows_blank_cons {t plain : Text} (h : Shows t plain) :
    Shows (' ' :: t) (' ' :: plain) := by
  have hblank : Shows [' '] [' '] := shows_self (by decide)
  exact hblank.append h

theorem shows_headline (s : Story) :
    List.Forall₂ Shows (s.headline (paint true)) (s.headline unpainted) := by
  rw [headline, headline]
  split
  · exact .cons ((shows_paint _ (by decide)).append (shows_self (by decide))) .nil
  · have hfound := (shows_paint .boldYellow (show '\x1b' ∉ "⚠".toList by decide)).append
      (shows_self (show '\x1b' ∉ " Found ".toList by decide))
    exact .cons ((hfound.append (shows_digits _ _)).append (shows_self (by decide)))
      (.cons (shows_self (by decide)) .nil)

theorem shows_patternLine {e : Text × Nat} (h : '\x1b' ∉ e.1) :
    Shows (patternLine (paint true) e) (patternLine unpainted e) :=
  (shows_blanks.append (shows_paint _ h)).append (shows_blank_cons (shows_digits _ _))

theorem shows_packageLine {e : Text × Nat} (h : '\x1b' ∉ e.1) :
    Shows (packageLine (paint true) e) (packageLine unpainted e) :=
  (shows_blanks.append (shows_paint _ h)).append (shows_blank_cons (shows_digits _ _))

theorem shows_moreLine (k : Nat) : Shows (moreLine (paint true) k) (moreLine unpainted k) := by
  refine shows_blanks.append (shows_paint _ ?_)
  simp only [List.mem_append, not_or]
  exact ⟨⟨by decide, escape_notMem_toDigits k⟩, by decide⟩

theorem shows_packagesLine (s : Story) :
    Shows (s.packagesLine (paint true)) (s.packagesLine unpainted) :=
  (((shows_blanks.append (shows_digits _ _)).append (shows_self (by decide))).append
    (shows_digits _ _)).append (shows_self (by decide))

theorem shows_failureLine {f : Failure} (h : '\x1b' ∉ f.package ∧ '\x1b' ∉ f.reason) :
    Shows (failureLine (paint true) f) (failureLine unpainted f) :=
  (((shows_blanks.append (shows_paint _ (by decide))).append
    (shows_blank_cons (shows_self h.1))).append (shows_self (by decide))).append
      (shows_paint _ h.2)

theorem shows_noticeLines (s : Story) :
    List.Forall₂ Shows (s.noticeLines (paint true)) (s.noticeLines unpainted) := by
  rw [noticeLines, noticeLines]
  split
  · exact .nil
  · refine .cons (shows_paint _ (by decide)) (.cons (shows_paint _ (by decide)) ?_)
    refine forall₂_map_of_forall_mem fun e _ => ?_
    have htitle : '\x1b' ∉ e.1.title := by cases e.1 <;> decide
    exact ((shows_blanks.append (shows_self htitle)).append (shows_self (by decide))).append
      (shows_digits _ _)

theorem shows_overviewLines {s : Story} {failures : List Failure}
    (hpatterns : ∀ e ∈ s.patterns, '\x1b' ∉ e.1) (hnamed : ∀ e ∈ s.named, '\x1b' ∉ e.1)
    (hfailures : ∀ f ∈ failures, '\x1b' ∉ f.package ∧ '\x1b' ∉ f.reason) :
    List.Forall₂ Shows (s.overviewLines (paint true) failures)
      (s.overviewLines unpainted failures) := by
  have hpatternLines := forall₂_map_of_forall_mem fun e he => shows_patternLine (hpatterns e he)
  have hpackageLines := forall₂_map_of_forall_mem fun e he => shows_packageLine (hnamed e he)
  have hmoreLines := forall₂_map_of_forall_mem fun k (_ : k ∈ s.more.toList) => shows_moreLine k
  have hfailureLines := forall₂_map_of_forall_mem fun f hf => shows_failureLine (hfailures f hf)
  have htitle : Shows (paint true .bold "Patterns".toList) "Patterns".toList :=
    shows_paint _ (by decide)
  have htitle' : Shows (paint true .bold "Packages".toList) "Packages".toList :=
    shows_paint _ (by decide)
  refine List.rel_append (List.rel_append (List.rel_append (List.rel_append (List.rel_append
    (List.rel_append s.shows_headline (.cons htitle .nil)) hpatternLines)
    (.cons (shows_self (by decide)) (.cons htitle' .nil)))
    (List.rel_append (List.rel_append hpackageLines hmoreLines) ?_)) hfailureLines)
    s.shows_noticeLines
  exact .cons s.shows_packagesLine .nil

end Story

theorem shown_overview {o : Outcome} (h : HasNoEscape o) :
    Style.shown (overview true o) = overview false o := by
  have hpatterns : ∀ e ∈ (Story.ofOutcome o).patterns, '\x1b' ∉ e.1 := fun e he =>
    h.patterns e (o.patternCounts.isRanking_ranked.perm.subset he)
  have hnamed : ∀ e ∈ (Story.ofOutcome o).named, '\x1b' ∉ e.1 := fun e he =>
    h.packages e (List.mem_of_mem_filter ((affected_perm o).subset (List.mem_of_mem_take he)))
  have hlines := Story.shows_overviewLines hpatterns hnamed h.failures
  have hplain : paint false = Story.unpainted := rfl
  rw [overview, overview, overviewLines_eq, overviewLines_eq, hplain]
  exact (Style.shows_unlines hlines).shown_eq

/-! ## the rows of a table -/

theorem count_comma_row (f : Finding) : (row f).count ',' = 4 := by
  have hcell (value : Text) : (withoutCommas value).count ',' = 0 :=
    List.count_eq_zero.2 (comma_notMem_withoutCommas value)
  simp only [row, cells, List.map_cons, List.map_nil, List.intercalate_cons_cons,
    List.intercalate_singleton, List.count_append, hcell]
  rfl

/-- Every line of a table has four commas, whatever its fields hold. -/
theorem count_comma_table (fs : List Finding) : (table fs).count ',' = 4 * (fs.length + 1) := by
  have hrows : (unlines (fs.map row)).count ',' = 4 * fs.length := by
    induction fs with
    | nil => rfl
    | cons f fs ih =>
        have hcons : unlines ((f :: fs).map row) = row f ++ ['\n'] ++ unlines (fs.map row) := rfl
        rw [hcons, List.count_append, List.count_append, count_comma_row, ih, List.length_cons]
        have hbreak : ['\n'].count ',' = 0 := by decide
        omega
  have htable : table fs = tableHeader ++ ['\n'] ++ unlines (fs.map row) := rfl
  have hheader : (tableHeader ++ ['\n']).count ',' = 4 := by decide
  rw [htable, List.count_append, hheader, hrows]
  omega

/-- A table of fields without line feeds has a line for its header and one for each finding; what
is behind the last line feed is empty. -/
theorem length_splitOn_table {fs : List Finding}
    (h : ∀ f ∈ fs, ∀ value ∈ fieldValues f, '\n' ∉ value) :
    ((table fs).splitOn '\n').length = fs.length + 2 := by
  have hlines : ∀ l ∈ tableHeader :: fs.map row, '\n' ∉ l := by
    refine List.forall_mem_cons.2 ⟨by decide, fun l hl => ?_⟩
    obtain ⟨f, hf, rfl⟩ := List.mem_map.1 hl
    exact newline_notMem_row (h f hf)
  rw [table, splitOn_unlines hlines, List.length_append, List.length_cons, List.length_map,
    List.length_singleton]

/-! ## the story -/

/-- True when the reports of an outcome tell a story. -/
structure Story.IsTold (s : Story) (o : Outcome) : Prop where
  summary : summary o = s.summaryLines.flatMap fun l => l ++ "\n".toList
  overview : ∀ color, overview color o =
    (s.overviewLines (paint color) o.failures).flatMap fun l => l ++ "\n".toList
  /-- Without colours nothing is added to the texts. -/
  plain : Report.overview false o =
    (s.overviewLines (fun _ t => t) o.failures).flatMap fun l => l ++ "\n".toList
  /-- Colours change nothing that is shown. -/
  shown : HasNoEscape o → Style.shown (Report.overview true o) = Report.overview false o
  json : Json.read? (jsonSummary o) = some (.object [
    ("total_matches".toList, .number s.total),
    ("files_scanned".toList, .number o.filesRead),
    ("packages".toList, .numbers o.packageCounts.entries),
    ("patterns".toList, .numbers o.patternCounts.entries),
    ("failed_packages".toList, .array (o.failures.map fun f =>
      .object [("package".toList, .string f.package), ("error".toList, .string f.reason)])),
    ("diagnostics".toList, .numbers (s.kinds.map fun e => (e.1.key, e.2)))])
  table : table o.findings =
    ("crate, pattern of interest, directory, file, use line".toList ::
      o.findings.map fun f => List.intercalate ", ".toList
        ((fieldValues f).map (List.filter (· != ',')))).flatMap fun l => l ++ "\n".toList
  /-- The commas of a table are those between its cells. -/
  rows : (Report.table o.findings).count ',' = 4 * (s.total + 1)
  /-- There is a line for the header and one for each row, and nothing behind the last line feed. -/
  lines : (∀ f ∈ o.findings, ∀ value ∈ fieldValues f, '\n' ∉ value) →
    ((Report.table o.findings).splitOn '\n').length = s.total + 2
  /-- Where additions are checked, the sums of the listed numbers are the total, which fits. -/
  checked : o.checkTotals? = some (.ok ()) ↔ (s.packages.map Prod.snd).sum = s.total ∧
    (s.patterns.map Prod.snd).sum = s.total ∧ s.total < wordSize
  /-- Where additions wrap around, the sums are the total in machine words. -/
  wrapped : o.checkTotals = .ok () ↔
    (s.packages.map Prod.snd).sum % wordSize = s.total % wordSize ∧
      (s.patterns.map Prod.snd).sum % wordSize = s.total % wordSize
  /-- Where they could wrap around but do not, the sums are the total. -/
  fits : (s.packages.map Prod.snd).sum < wordSize → (s.patterns.map Prod.snd).sum < wordSize →
    s.total < wordSize → (o.checkTotals = .ok () ↔
      (s.packages.map Prod.snd).sum = s.total ∧ (s.patterns.map Prod.snd).sum = s.total)

theorem Story.sum_packages_ofOutcome (o : Outcome) :
    ((ofOutcome o).packages.map Prod.snd).sum = o.packageCounts.total :=
  sum_affected o

theorem Story.sum_patterns_ofOutcome (o : Outcome) :
    ((ofOutcome o).patterns.map Prod.snd).sum = o.patternCounts.total :=
  o.patternCounts.isRanking_ranked.sum_eq_total

theorem Story.isTold_ofOutcome (o : Outcome) : (ofOutcome o).IsTold o where
  summary := rfl
  overview color := by
    rw [Report.overview, overviewLines_eq]
    rfl
  plain := by
    rw [Report.overview, overviewLines_eq]
    rfl
  shown := shown_overview
  json := read?_render (Digest.ofOutcome o)
  table := rfl
  rows := count_comma_table o.findings
  lines := length_splitOn_table
  checked := by
    rw [sum_packages_ofOutcome, sum_patterns_ofOutcome]
    exact o.checkTotals?_eq_ok_iff
  wrapped := by
    rw [sum_packages_ofOutcome, sum_patterns_ofOutcome]
    exact o.checkTotals_eq_ok_iff
  fits hpackages hpatterns htotal := by
    rw [sum_packages_ofOutcome] at hpackages ⊢
    rw [sum_patterns_ofOutcome] at hpatterns ⊢
    have hfindings : o.findings.length % wordSize = (ofOutcome o).total := Nat.mod_eq_of_lt htotal
    rw [o.checkTotals_eq_ok_iff, hfindings, Nat.mod_eq_of_lt hpackages,
      Nat.mod_eq_of_lt hpatterns]

/-- **The reports tell one story**: there is one way to list counters by number and name, and for
every outcome there are a total, a list of patterns and one of packages in this order, a number of
packages without findings and numbers for the kinds of notices, which the plain summary, the
overview on the terminal and the machine-readable summary all tell.  The total is the number of rows
of the table, and an outcome passes its check exactly when the numbers of the listed packages and
those of the listed patterns add up to the total, as far as machine words can tell. -/
theorem reports_tell_story :
    (∀ (c : Counts) (es : List (Text × Nat)), c.IsRanking es ↔ es = c.ranked) ∧
      (NoticeKind.all.map NoticeKind.title = ["MalformedStatement".toList, "TruncatedInput".toList,
          "AmbiguousMatch".toList, "SanitizationLoss".toList] ∧
        NoticeKind.all.map NoticeKind.key = ["malformed_statement".toList,
          "truncated_input".toList, "ambiguous_match".toList, "sanitization_loss".toList]) ∧
      ∀ o : Outcome, ∃ s : Story, s.IsOf o ∧ s.IsTold o :=
  ⟨fun c _ => ⟨Counts.IsRanking.eq_ranked, fun h => h ▸ c.isRanking_ranked⟩, ⟨rfl, rfl⟩,
    fun o => ⟨.ofOutcome o, Story.isOf_ofOutcome o, Story.isTold_ofOutcome o⟩⟩

theorem reports_tell_story_coloured :
    let f : Finding := ⟨['p'], "std::fs".toList, "p/l.rs".toList, 1,
      "use std::\x7bfs, io\x7d;".toList, ⟨["std".toList, "fs".toList]⟩⟩
    let o : Outcome := ⟨[f], .ofList [(['p'], 1), (['q'], 0)], .ofList [("std::fs".toList, 1)],
      [.lossy ['q'] ['r'] ['s']], [⟨['q'], "gone".toList⟩], 1⟩
    (HasNoEscape o ∧ ∀ f ∈ o.findings, ∀ value ∈ fieldValues f, '\n' ∉ value) ∧
      Style.shown (overview true o) = overview false o ∧
      ((table o.findings).splitOn '\n').length = 3 ∧ (table o.findings).count ',' = 8 ∧
      (Json.read? (jsonSummary o)).bind (Json.member? "total_matches".toList) =
        some (.number 1) := by
  intro f o
  have hescape : HasNoEscape o := ⟨by decide, by decide, by decide⟩
  have hbreak : ∀ f ∈ o.findings, ∀ value ∈ fieldValues f, '\n' ∉ value := by decide
  obtain ⟨s, hof, htold⟩ := reports_tell_story.2.2 o
  have htotal : s.total = 1 := hof.total
  refine ⟨⟨hescape, hbreak⟩, htold.shown hescape, ?_, ?_, ?_⟩
  · rw [htold.lines hbreak, htotal]
  · rw [htold.rows, htotal]
  · rw [htold.json, htotal]
    rfl

end Report

end ImportWatch
