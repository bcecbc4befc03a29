import ImportWatch.Proofs.Additions
import Mathlib.Data.List.Basic

/-!
# ImportWatch.Proofs.Labels

What the order of a watchlist decides, and what its contents decide.

A source names its paths whatever is watched; a watchlist only decides which of
them are findings and how they are labelled.  So everything is said about the
sightings of some files, which are the same for all watchlists.

* `Sighting` is a path where a statement stands for it, and `sightings` are
  those of some files;
* `Watchlist.finding?` and `Watchlist.ambiguity?` are what a watchlist makes of
  a sighting; `Survey.findings_ofFiles`, `Survey.filter_isOwn_notices` and
  `Survey.filter_isAmbiguous_notices` put a survey together from them;
* `Survey.ofFiles_of_watchlist` compares the surveys of the same files with
  different watchlists.
-/

namespace ImportWatch

open Text

/-! ## watchlists -/

namespace Watchlist

/-- The patterns of the left watchlist come before those of the right one. -/
instance : Append Watchlist := ⟨fun w v => ⟨w.patterns ++ v.patterns⟩⟩

/-- True when some pattern of a watchlist covers a path. -/
def covers (w : Watchlist) (p : ModulePath) : Bool := w.patterns.any fun pattern => pattern.covers p

@[simp] theorem patterns_append (w v : Watchlist) : (w ++ v).patterns = w.patterns ++ v.patterns :=
  rfl

@[simp] theorem covering_append (w v : Watchlist) (p : ModulePath) :
    (w ++ v).covering p = w.covering p ++ v.covering p := by
  simp [covering]

theorem covering_eq_nil_iff (w : Watchlist) (p : ModulePath) :
    w.covering p = [] ↔ w.covers p = false := by
  simp [covering, covers, List.filter_eq_nil_iff]

theorem covers_of_covering (w : Watchlist) {p : ModulePath} {chosen : Pattern}
    {others : List Pattern} (h : w.covering p = chosen :: others) : w.covers p = true := by
  rw [← Bool.not_eq_false, ← covering_eq_nil_iff, h]
  exact List.cons_ne_nil _ _

/-- Which paths are covered does not depend on the order of the patterns. -/
theorem covers_of_perm {w v : Watchlist} (h : v.patterns.Perm w.patterns) (p : ModulePath) :
    v.covers p = w.covers p := by
  simp only [covers, h.any_eq]

end Watchlist

/-! ## sightings -/

/-- A path where a statement of a file stands for it. -/
structure Sighting where
  file : Text
  line : Nat
  statement : Text
  path : ModulePath
  deriving DecidableEq, Repr

/-- The paths of a statement, in order; a rejected statement has none. -/
def Statement.sightings (file : Text) (s : Statement) : List Sighting :=
  match expand s.text with
  | .error _ => []
  | .ok e => e.paths.map fun path => ⟨file, s.line, e.statement, path⟩

/-- What is noticed about a statement whatever is watched. -/
def Statement.ownNotices (file : Text) (s : Statement) : List Notice :=
  s.endNotices file ++
    match expand s.text with
    | .error reason => [.malformed file s.line s.text reason]
    | .ok _ => []

/-- The paths of some files, file by file and statement by statement. -/
def sightings (files : List (Text × Text)) : List Sighting :=
  files.flatMap fun (file, source) =>
    (Statement.ofSource source).flatMap (Statement.sightings file)

namespace Watchlist

/-- The finding that a watchlist makes of a sighting, if it covers the path. -/
def finding? (w : Watchlist) (package : Text) (g : Sighting) : Option Finding :=
  match w.covering g.path with
  | [] => none
  | chosen :: _ => some ⟨package, chosen.text, g.file, g.line, g.statement, g.path⟩

/-- The notice that stands beside a finding, if several patterns cover its path. -/
def ambiguity? (w : Watchlist) (f : Finding) : Option Notice :=
  match w.covering f.path with
  | [] | [_] => none
  | chosen :: others =>
    some (.ambiguous f.file f.line f.statement f.path chosen.text (others.map Pattern.text))

theorem findings_eq_toList (w : Watchlist) (package : Text) (g : Sighting) :
    w.findings package g.file g.line g.statement g.path = (w.finding? package g).toList := by
  rw [findings, finding?]
  cases w.covering g.path <;> rfl

theorem ambiguities_eq_filterMap (w : Watchlist) (package : Text) (g : Sighting) :
    w.ambiguities g.file g.line g.statement g.path =
      (w.findings package g.file g.line g.statement g.path).filterMap w.ambiguity? := by
  rw [ambiguities, findings]
  cases h : w.covering g.path with
  | nil => rfl
  | cons chosen others => cases others <;> simp [ambiguity?, h]

/-- A notice stands beside a finding exactly when two or more patterns cover its path, and then
it tells all of them in the order of the watchlist. -/
theorem ambiguity?_eq_some_iff (w : Watchlist) (f : Finding) (n : Notice) :
    w.ambiguity? f = some n ↔ 2 ≤ (w.covering f.path).length ∧
      ∃ chosen others, n = .ambiguous f.file f.line f.statement f.path chosen others ∧
        chosen :: others = (w.covering f.path).map Pattern.text := by
  rw [ambiguity?]
  cases w.covering f.path with
  | nil => simp
  | cons chosen others => cases others <;> simp [eq_comm]

end Watchlist

/-! ## the findings and notices of some files -/

theorem Statement.findings_eq_filterMap (w : Watchlist) (package file : Text) (s : Statement) :
    s.findings w package file = (s.sightings file).filterMap (w.finding? package) := by
  rw [findings, sightings]
  cases expand s.text with
  | error reason => rfl
  | ok e =>
      rw [List.filterMap_map, List.filterMap_eq_flatMap_toList]
      simp only [Function.comp_apply, ← Watchlist.findings_eq_toList]

theorem Statement.notices_eq_append (w : Watchlist) (package file : Text) (s : Statement) :
    s.notices w file =
      s.ownNotices file ++ (s.findings w package file).filterMap w.ambiguity? := by
  rw [notices, ownNotices, findings, List.append_assoc]
  cases expand s.text with
  | error reason => rfl
  | ok e =>
      rw [List.filterMap_flatMap]
      exact congrArg _ (congrArg (e.paths.flatMap ·) (funext fun path =>
        w.ambiguities_eq_filterMap package ⟨file, s.line, e.statement, path⟩))

/-- True for the notices that the watchlist has no part in. -/
def Notice.isOwn (n : Notice) : Bool := n.kind = .malformed ∨ n.kind = .unfinished

/-- True for the notices about paths that several patterns cover. -/
def Notice.isAmbiguous (n : Notice) : Bool := n.kind = .ambiguous

theorem Statement.filter_ownNotices (file : Text) (s : Statement) :
    (s.ownNotices file).filter Notice.isOwn = s.ownNotices file ∧
      (s.ownNotices file).filter Notice.isAmbiguous = [] := by
  rw [ownNotices, endNotices]
  cases s.unfinished <;> cases expand s.text <;> exact ⟨rfl, rfl⟩

theorem Watchlist.filter_ambiguities (w : Watchlist) (fs : List Finding) :
    (fs.filterMap w.ambiguity?).filter Notice.isOwn = [] ∧
      (fs.filterMap w.ambiguity?).filter Notice.isAmbiguous = fs.filterMap w.ambiguity? := by
  have hkind : ∀ n ∈ fs.filterMap w.ambiguity?, n.kind = .ambiguous := by
    intro n hn
    obtain ⟨f, _, hf⟩ := List.mem_filterMap.1 hn
    obtain ⟨_, _, _, rfl, _⟩ := (w.ambiguity?_eq_some_iff f n).1 hf
    rfl
  constructor
  · rw [List.filter_eq_nil_iff]
    intro n hn
    simp [Notice.isOwn, hkind n hn]
  · rw [List.filter_eq_self]
    intro n hn
    simp [Notice.isAmbiguous, hkind n hn]

namespace Survey

theorem findings_ofFiles (w : Watchlist) (package : Text) (files : List (Text × Text)) :
    (ofFiles w package files).findings = (sightings files).filterMap (w.finding? package) := by
  simp only [ofFiles, addFiles_findings, sightings, List.filterMap_flatMap,
    ← Statement.findings_eq_filterMap]
  exact List.nil_append _

/-- The notices of some files that the watchlist has no part in. -/
theorem filter_isOwn_notices (w : Watchlist) (package : Text) (files : List (Text × Text)) :
    (ofFiles w package files).notices.filter Notice.isOwn =
      files.flatMap fun (file, source) =>
        (Statement.ofSource source).flatMap (Statement.ownNotices file) := by
  have hnone : (start package).notices = [] := rfl
  simp only [ofFiles, addFiles_notices, hnone, List.nil_append, List.filter_flatMap,
    Statement.notices_eq_append w package, List.filter_append, Statement.filter_ownNotices,
    Watchlist.filter_ambiguities, List.append_nil]

/-- The notices about ambiguous paths stand beside their findings, in the same order. -/
theorem filter_isAmbiguous_notices (w : Watchlist) (package : Text) (files : List (Text × Text)) :
    (ofFiles w package files).notices.filter Notice.isAmbiguous =
      (ofFiles w package files).findings.filterMap w.ambiguity? := by
  have hnotices : (start package).notices = [] := rfl
  have hfindings : (start package).findings = [] := rfl
  simp only [ofFiles, addFiles_notices, addFiles_findings, hnotices, hfindings, List.nil_append,
    List.filter_flatMap, List.filterMap_flatMap, Statement.notices_eq_append w package,
    List.filter_append, Statement.filter_ownNotices, Watchlist.filter_ambiguities]
  rfl

end Survey

/-! ## two watchlists -/

/-- A finding without its label. -/
def Finding.unlabelled (f : Finding) : Finding := { f with pattern := [] }

namespace Watchlist

/-- What is found does not depend on the order of the patterns. -/
theorem unlabelled_finding? (w : Watchlist) (package : Text) (g : Sighting) :
    (w.finding? package g).map Finding.unlabelled =
      if w.covers g.path then some ⟨package, [], g.file, g.line, g.statement, g.path⟩
      else none := by
  rw [finding?]
  cases h : w.covering g.path with
  | nil => simp [(w.covering_eq_nil_iff g.path).1 h]
  | cons chosen others => simp [w.covers_of_covering h, Finding.unlabelled]

/-- The left watchlist labels what it covers, and the right one the rest. -/
theorem finding?_append (w v : Watchlist) (package : Text) (g : Sighting) :
    (w ++ v).finding? package g =
      if w.covers g.path then w.finding? package g else v.finding? package g := by
  simp only [finding?, covering_append]
  cases h : w.covering g.path with
  | nil => simp [(w.covering_eq_nil_iff g.path).1 h]
  | cons chosen others => simp [w.covers_of_covering h]

/-- A finding is about the path of its sighting, and the first pattern that covers it labels it. -/
theorem of_finding?_eq_some {w : Watchlist} {package : Text} {g : Sighting} {f : Finding}
    (h : w.finding? package g = some f) :
    f.path = g.path ∧ ∃ chosen others, w.covering f.path = chosen :: others ∧
      f.pattern = chosen.text := by
  rw [finding?] at h
  cases hcover : w.covering g.path with
  | nil => simp [hcover] at h
  | cons chosen others =>
      simp only [hcover, Option.some.injEq] at h
      subst h
      exact ⟨rfl, chosen, others, hcover, rfl⟩

end Watchlist

namespace Survey

variable (w : Watchlist) (package : Text) (files : List (Text × Text))

theorem findings_of_perm {v : Watchlist} (h : v.patterns.Perm w.patterns) :
    (ofFiles v package files).findings.map Finding.unlabelled =
      (ofFiles w package files).findings.map Finding.unlabelled := by
  simp only [findings_ofFiles, List.map_filterMap, Watchlist.unlabelled_finding?,
    Watchlist.covers_of_perm h]

/-- More patterns behind those of a watchlist leave its findings as they are. -/
theorem filter_findings_append (v : Watchlist) :
    (ofFiles (w ++ v) package files).findings.filter (fun f => w.covers f.path) =
      (ofFiles w package files).findings := by
  rw [findings_ofFiles, findings_ofFiles, List.filter_filterMap]
  refine congrArg (List.filterMap · (sightings files)) (funext fun g => ?_)
  rw [Watchlist.finding?_append]
  cases hcovers : w.covers g.path with
  | true =>
      cases hf : w.finding? package g with
      | none => rfl
      | some f => simp [(Watchlist.of_finding?_eq_some hf).1, hcovers, Option.filter]
  | false =>
      have hnone : w.finding? package g = none := by
        rw [Watchlist.finding?, (w.covering_eq_nil_iff g.path).2 hcovers]
      cases hf : v.finding? package g with
      | none => simp [hnone]
      | some f => simp [(Watchlist.of_finding?_eq_some hf).1, hcovers, hnone, Option.filter]

theorem pattern_of_not_covered (v : Watchlist) {f : Finding}
    (hf : f ∈ (ofFiles (w ++ v) package files).findings) (hcovers : w.covers f.path = false) :
    ∃ pattern ∈ v.patterns, pattern.covers f.path = true ∧ f.pattern = pattern.text := by
  rw [findings_ofFiles] at hf
  obtain ⟨g, _, hg⟩ := List.mem_filterMap.1 hf
  obtain ⟨_, chosen, others, hcover, hpattern⟩ := Watchlist.of_finding?_eq_some hg
  rw [Watchlist.covering_append, (w.covering_eq_nil_iff _).2 hcovers, List.nil_append] at hcover
  have hchosen : chosen ∈ v.covering f.path := by simp [hcover]
  exact ⟨chosen, (List.mem_filter.1 hchosen).1, (List.mem_filter.1 hchosen).2, hpattern⟩

/-- The notices beside a finding: there is one exactly when two or more patterns cover its path,
and then it tells all of them, the label of the finding first. -/
theorem ambiguity?_of_mem_findings {f : Finding} (hf : f ∈ (ofFiles w package files).findings)
    (n : Notice) :
    w.ambiguity? f = some n ↔ 2 ≤ (w.covering f.path).length ∧
      ∃ others, n = .ambiguous f.file f.line f.statement f.path f.pattern others ∧
        f.pattern :: others = (w.covering f.path).map Pattern.text := by
  rw [findings_ofFiles] at hf
  obtain ⟨g, _, hg⟩ := List.mem_filterMap.1 hf
  obtain ⟨_, chosen, others, hcover, hpattern⟩ := Watchlist.of_finding?_eq_some hg
  rw [Watchlist.ambiguity?_eq_some_iff, hcover, hpattern]
  simp

/-- **Labels by order, findings by content**: what is found does not depend on the order of the
watchlist; more patterns behind it neither label its findings anew nor take one away; the notices
about the statements themselves do not depend on it at all; and beside the findings whose paths
several patterns cover, and only beside those, stands a notice with all these patterns in order. -/
theorem ofFiles_of_watchlist :
    (∀ v : Watchlist, v.patterns.Perm w.patterns →
      (ofFiles v package files).findings.map Finding.unlabelled =
        (ofFiles w package files).findings.map Finding.unlabelled) ∧
      (∀ v : Watchlist,
        (ofFiles (w ++ v) package files).findings.filter (fun f => w.covers f.path) =
            (ofFiles w package files).findings ∧
          ∀ f ∈ (ofFiles (w ++ v) package files).findings, w.covers f.path = false →
            ∃ pattern ∈ v.patterns, pattern.covers f.path = true ∧ f.pattern = pattern.text) ∧
      (∀ v : Watchlist,
        (ofFiles v package files).notices.filter Notice.isOwn =
          (ofFiles w package files).notices.filter Notice.isOwn) ∧
      (ofFiles w package files).notices.filter Notice.isAmbiguous =
          (ofFiles w package files).findings.filterMap w.ambiguity? ∧
        ∀ f ∈ (ofFiles w package files).findings, ∀ n,
          w.ambiguity? f = some n ↔ 2 ≤ (w.covering f.path).length ∧
            ∃ others, n = .ambiguous f.file f.line f.statement f.path f.pattern others ∧
              f.pattern :: others = (w.covering f.path).map Pattern.text := by
  refine ⟨fun v h => findings_of_perm w package files h, fun v => ⟨?_, ?_⟩, fun v => ?_,
    filter_isAmbiguous_notices w package files, ?_⟩
  · exact filter_findings_append w package files v
  · exact fun f hf => pattern_of_not_covered w package files v hf
  · rw [filter_isOwn_notices, filter_isOwn_notices]
  · exact fun f hf => ambiguity?_of_mem_findings w package files hf

theorem ofFiles_of_watchlist_overlapping :
    let w : Watchlist := .ofTexts ["std::fs".toList, "std".toList]
    let reversed : Watchlist := .ofTexts ["std".toList, "std::fs".toList]
    let more : Watchlist := .ofTexts ["core".toList]
    let files := [("a.rs".toList, "use std::fs; use core::mem;".toList)]
    let f : Finding := ⟨"p".toList, "std::fs".toList, "a.rs".toList, 1, "use std::fs;".toList,
      ⟨["std".toList, "fs".toList]⟩⟩
    let g : Finding := ⟨"p".toList, "core".toList, "a.rs".toList, 1, "use core::mem;".toList,
      ⟨["core".toList, "mem".toList]⟩⟩
    (reversed.patterns.Perm w.patterns ∧
        (ofFiles reversed "p".toList files).findings.map Finding.unlabelled =
          (ofFiles w "p".toList files).findings.map Finding.unlabelled) ∧
      (g ∈ (ofFiles (w ++ more) "p".toList files).findings ∧ w.covers g.path = false ∧
        ∃ pattern ∈ more.patterns, pattern.covers g.path = true ∧ g.pattern = pattern.text) ∧
      f ∈ (ofFiles w "p".toList files).findings ∧
        w.ambiguity? f = some (.ambiguous "a.rs".toList 1 "use std::fs;".toList
          ⟨["std".toList, "fs".toList]⟩ "std::fs".toList ["std".toList]) := by
  intro w reversed more files f g
  obtain ⟨hperm, hmore, _, _, hlabels⟩ := ofFiles_of_watchlist w "p".toList files
  have hreversed : reversed.patterns.Perm w.patterns := by decide
  have hg : g ∈ (ofFiles (w ++ more) "p".toList files).findings := by decide +kernel
  have hf : f ∈ (ofFiles w "p".toList files).findings := by decide +kernel
  refine ⟨⟨hreversed, hperm reversed hreversed⟩, ⟨hg, by decide, ?_⟩, hf, ?_⟩
  · exact (hmore more).2 g hg (by decide)
  · exact (hlabels f hf _).2 ⟨by decide, ["std".toList], rfl, by decide⟩

end Survey

end ImportWatch
