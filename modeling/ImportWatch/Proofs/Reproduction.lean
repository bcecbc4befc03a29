import ImportWatch.Proofs.Additions
import ImportWatch.Proofs.CanonicalForm
import ImportWatch.Proofs.Spans

/-!
# ImportWatch.Proofs.Reproduction

What a survey stores is enough to find the same things again.

* `newline_notMem_statement`: the statement of an expansion, which is all that
  is stored of its text, stands on one line;
* `Finding.IsReproducible` and `Notice.IsReproducible` say what can be
  computed again from a finding and from a notice, and `Finding.StemsFrom`
  what ties a finding to the source that was taken in;
* `Statement.isReproducible_of_mem_findings` and
  `Statement.isReproducible_of_mem_notices` are about one statement;
  `Survey.IsReproducible.takeIn` is the step to one source more;
* `Survey.isReproducible_takeAll`: all surveys of any sources with any
  watchlists are reproducible.
-/

namespace ImportWatch

open Text

/-! ## the statement of an expansion -/

/-- The statement of an expansion stands on one line. -/
theorem newline_notMem_statement {text : Text} {e : Imports} (h : expand text = .ok e) :
    '\n' ∉ e.statement := by
  obtain ⟨body, hbody, hstatement, _⟩ := expand_eq_ok_iff.1 h
  obtain ⟨rest, _, _, hline, _⟩ := statementBody_eq_ok_iff.1 hbody
  rw [hstatement, statementOfBody, ← hline, oneLine_eq_tidy, List.mem_append]
  rintro (hmem | hmem)
  · exact absurd hmem (by decide)
  · exact absurd (eq_space_of_mem_tidy isBlank_newline hmem) (by decide)

/-! ## what can be found again -/

/-- One source as it is taken into a survey, with the watchlist in force. -/
structure Intake where
  watch : Watchlist
  file : Text
  source : Text
  deriving DecidableEq, Repr

/-- The survey with one source more. -/
def Survey.takeIn (v : Survey) (c : Intake) : Survey := v.addSource c.watch c.file c.source

/-- The survey with some sources more, each with a watchlist of its own. -/
def Survey.takeAll (v : Survey) (cs : List Intake) : Survey := cs.foldl Survey.takeIn v

/-- True for the text of the first pattern whose segments a path starts with. -/
def Watchlist.Labels (watch : Watchlist) (label : Text) (path : ModulePath) : Prop :=
  ∃ before chosen after, watch.patterns = before ++ chosen :: after ∧ label = chosen.text ∧
    chosen.segments <+: path.segments ∧ ∀ w ∈ before, ¬w.segments <+: path.segments

/-- What ties a finding to the source that it was found in. -/
structure Finding.StemsFrom (f : Finding) (c : Intake) : Prop where
  file : f.file = c.file
  one_le_line : 1 ≤ f.line
  line_le : f.line ≤ (lines c.source).length
  label : c.watch.Labels f.pattern f.path

/-- What can be computed again from a finding. -/
structure Finding.IsReproducible (f : Finding) : Prop where
  expands : ∃ e, expand f.statement = .ok e ∧ e.statement = f.statement ∧ f.path ∈ e.paths
  newline_notMem : '\n' ∉ f.statement
  path : f.path.IsExpanded

/-- What can be computed again from a notice, given all findings. -/
def Notice.IsReproducible (findings : List Finding) : Notice → Prop
  | malformed _ _ statement reason => expand statement = .error reason
  | unfinished _ _ statement => ['\n', terminator] <:+ statement
  | ambiguous file line statement path chosen _ =>
    ∃ f ∈ findings, f.file = file ∧ f.line = line ∧ f.statement = statement ∧ f.path = path ∧
      f.pattern = chosen
  | lossy .. => False

theorem Notice.IsReproducible.mono {fs gs : List Finding} {n : Notice}
    (h : n.IsReproducible fs) (hsub : fs ⊆ gs) : n.IsReproducible gs := by
  cases n with
  | malformed | unfinished => exact h
  | ambiguous =>
      obtain ⟨f, hf, hplace⟩ := h
      exact ⟨f, hsub hf, hplace⟩
  | lossy => exact h

/-! ## one statement -/

theorem Watchlist.labels_of_covering {watch : Watchlist} {path : ModulePath} {chosen : Pattern}
    {others : List Pattern} (h : watch.covering path = chosen :: others) :
    watch.Labels chosen.text path := by
  obtain ⟨before, after, hpatterns, hbefore, hchosen, _⟩ := List.filter_eq_cons_iff.1 h
  refine ⟨before, chosen, after, hpatterns, rfl, (path.startsWith_iff _).1 hchosen, fun w hw => ?_⟩
  exact fun hlead => hbefore w hw ((path.startsWith_iff _).2 hlead)

theorem Watchlist.isReproducible_of_mem_ambiguities {watch : Watchlist} (package : Text)
    {file : Text} {line : Nat} {statement : Text} {path : ModulePath} {n : Notice}
    (h : n ∈ watch.ambiguities file line statement path) :
    n.IsReproducible (watch.findings package file line statement path) := by
  rw [ambiguities] at h
  split at h
  · cases h
  · cases h
  · rename_i chosen others _ hcover
    obtain rfl := List.mem_singleton.1 h
    refine ⟨⟨package, chosen.text, file, line, statement, path⟩, ?_, rfl, rfl, rfl, rfl, rfl⟩
    rw [findings, hcover]
    exact List.mem_singleton_self _

namespace Statement

variable {s : Statement}

theorem isReproducible_of_mem_findings {package : Text} {c : Intake}
    (hs : s ∈ Statement.ofSource c.source) {f : Finding}
    (h : f ∈ s.findings c.watch package c.file) :
    f.package = package ∧ f.StemsFrom c ∧ f.IsReproducible := by
  obtain ⟨e, hexpand, path, hpath, hf⟩ := exists_path_of_mem_findings h
  obtain ⟨chosen, others, hcover, rfl⟩ := Watchlist.exists_covering_of_mem_findings hf
  obtain ⟨hone, hle⟩ := line_of_mem_ofSource hs
  refine ⟨rfl, ⟨rfl, hone, hle, Watchlist.labels_of_covering hcover⟩, ?_⟩
  exact ⟨⟨e, expand_statement hexpand, rfl, hpath⟩, newline_notMem_statement hexpand,
    isExpanded_of_expand hexpand hpath⟩

theorem isReproducible_of_mem_endNotices (hs : s.Delimited) {file : Text} {n : Notice}
    (h : n ∈ s.endNotices file) (findings : List Finding) : n.IsReproducible findings := by
  rw [endNotices] at h
  split at h
  · rename_i hunfinished
    obtain rfl := List.mem_singleton.1 h
    exact hs.added hunfinished
  · cases h

theorem isReproducible_of_mem_notices (hs : s.Delimited) (package : Text) {watch : Watchlist}
    {file : Text} {n : Notice} (h : n ∈ s.notices watch file) :
    n.IsReproducible (s.findings watch package file) := by
  rw [notices, List.mem_append] at h
  rcases h with h | h
  · exact isReproducible_of_mem_endNotices hs h _
  · rw [findings]
    cases hexpand : expand s.text with
    | error reason =>
        rw [hexpand] at h
        obtain rfl := List.mem_singleton.1 h
        exact hexpand
    | ok e =>
        rw [hexpand] at h
        obtain ⟨path, hpath, hn⟩ := List.mem_flatMap.1 h
        refine (Watchlist.isReproducible_of_mem_ambiguities package hn).mono fun f hf => ?_
        exact List.mem_flatMap.2 ⟨path, hpath, hf⟩

end Statement

/-! ## any sources -/

namespace Survey

/-- What a source adds to the findings of a package. -/
def newFindings (package : Text) (c : Intake) : List Finding :=
  ((start package).takeIn c).findings

/-- What ties a survey of a package to the sources that were taken in. -/
structure IsReproducible (package : Text) (cs : List Intake) (v : Survey) : Prop where
  package_eq : v.package = package
  /-- The findings are those of the sources, one source after another. -/
  findings_eq : v.findings = cs.flatMap (newFindings package)
  /-- Each of them is tied to the source that added it, and can be found again. -/
  findings : ∀ c ∈ cs, ∀ f ∈ newFindings package c,
    f.package = package ∧ f.StemsFrom c ∧ f.IsReproducible
  notices : ∀ n ∈ v.notices, n.IsReproducible v.findings

variable {package : Text} {cs : List Intake} {v : Survey}

theorem newFindings_eq (package : Text) (c : Intake) :
    newFindings package c =
      (Statement.ofSource c.source).flatMap (Statement.findings c.watch package c.file) := by
  rw [newFindings, takeIn, addSource_eq_extend]
  exact List.nil_append _

theorem isReproducible_start (package : Text) : (start package).IsReproducible package [] where
  package_eq := rfl
  findings_eq := rfl
  findings _ hc := absurd hc List.not_mem_nil
  notices _ hn := absurd hn List.not_mem_nil

/-- A survey stays reproducible when a source is taken in. -/
theorem IsReproducible.takeIn (h : v.IsReproducible package cs) (c : Intake) :
    (v.takeIn c).IsReproducible package (cs ++ [c]) := by
  have hfindings : (v.takeIn c).findings = v.findings ++ newFindings package c := by
    rw [newFindings_eq, Survey.takeIn, addSource_eq_extend, h.package_eq]
    rfl
  have hnotices : (v.takeIn c).notices = v.notices ++
      (Statement.ofSource c.source).flatMap (Statement.notices c.watch c.file) := by
    rw [Survey.takeIn, addSource_eq_extend]
    rfl
  constructor
  · rw [Survey.takeIn, addSource_eq_extend]
    exact h.package_eq
  · rw [hfindings, h.findings_eq, List.flatMap_append, List.flatMap_singleton]
  · intro c' hc' f hf
    rcases List.mem_append.1 hc' with hc' | hc'
    · exact h.findings c' hc' f hf
    · rw [List.mem_singleton.1 hc', newFindings_eq] at hf
      obtain ⟨s, hs, hf⟩ := List.mem_flatMap.1 hf
      rw [List.mem_singleton.1 hc']
      exact Statement.isReproducible_of_mem_findings hs hf
  · intro n hn
    rw [hnotices, List.mem_append] at hn
    rw [hfindings]
    rcases hn with hn | hn
    · exact (h.notices n hn).mono (List.subset_append_left _ _)
    · obtain ⟨s, hs, hn⟩ := List.mem_flatMap.1 hn
      have hadded :=
        Statement.isReproducible_of_mem_notices (delimited_of_mem_ofSource hs) package hn
      refine hadded.mono fun f hf => List.mem_append_right _ ?_
      rw [newFindings_eq]
      exact List.mem_flatMap.2 ⟨s, hs, hf⟩

theorem IsReproducible.takeAll (h : v.IsReproducible package cs) (more : List Intake) :
    (v.takeAll more).IsReproducible package (cs ++ more) := by
  induction more generalizing v cs with
  | nil =>
      rw [List.append_nil]
      exact h
  | cons c more ih =>
      have hnext := ih (h.takeIn c)
      rwa [List.append_assoc, List.singleton_append] at hnext

/-- **Reproduction**: whatever sources a survey takes in, and with whatever watchlists, its
findings and notices can be found again from what it stores of them. -/
theorem isReproducible_takeAll (package : Text) (cs : List Intake) :
    ((start package).takeAll cs).IsReproducible package cs :=
  (isReproducible_start package).takeAll cs

end Survey

end ImportWatch
