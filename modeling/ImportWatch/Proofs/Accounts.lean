import ImportWatch.Proofs.Labels
import Mathlib.Data.List.Forall2

/-!
# ImportWatch.Proofs.Accounts

What a file adds to a survey, statement by statement.

A file is taken in as if it were the first one, and what it adds is put behind
what is there (`Survey.addSource_eq_append`); so files may be taken in apart
(`Survey.ofFiles_append`).

* `Statement.Account` says what a statement comes to: it is rejected and adds
  its rejection, or it is accepted and adds a finding for each path that is
  covered and a notice for each path that several patterns cover;
* `Survey.IsAccountOf` puts the accounts of some statements together, in order;
* `Survey.addSource_accounted`: what a file adds is the account of its
  statements.
-/

namespace ImportWatch

/-! ## surveys behind one another -/

namespace Survey

/-- What is in the right survey comes behind what is in the left one, which keeps its package. -/
instance : Append Survey where
  append v w :=
    ⟨v.package, v.findings ++ w.findings, v.notices ++ w.notices, v.filesRead + w.filesRead⟩

theorem append_def (v w : Survey) : v ++ w =
    ⟨v.package, v.findings ++ w.findings, v.notices ++ w.notices, v.filesRead + w.filesRead⟩ :=
  rfl

theorem append_assoc (u v w : Survey) : u ++ v ++ w = u ++ (v ++ w) := by
  simp only [append_def, List.append_assoc, Nat.add_assoc]

theorem append_start (v : Survey) (package : Text) : v ++ start package = v := by
  simp only [append_def, start, List.append_nil, Nat.add_zero]

/-- A file adds to a survey what it comes to as the first file of the package. -/
theorem addSource_eq_append (watch : Watchlist) (file source : Text) (v : Survey) :
    v.addSource watch file source = v ++ (start v.package).addSource watch file source := by
  simp only [addSource_eq_extend, append_def, extend, start, List.nil_append, Nat.zero_add]

theorem addFiles_eq_append (watch : Watchlist) (v : Survey) (files : List (Text × Text)) :
    v.addFiles watch files = v ++ ofFiles watch v.package files := by
  rw [ofFiles]
  induction files generalizing v with
  | nil => exact (append_start v v.package).symm
  | cons first files ih =>
      obtain ⟨file, source⟩ := first
      have hpackage (u : Survey) : (u.addSource watch file source).package = u.package := by
        rw [addSource_eq_append, append_def]
      rw [addFiles_cons, addFiles_cons, ih, ih ((start v.package).addSource watch file source),
        hpackage, hpackage, ← append_assoc, ← addSource_eq_append]
      rfl

/-- The files of two lists may be taken in apart. -/
theorem ofFiles_append (watch : Watchlist) (package : Text) (files more : List (Text × Text)) :
    ofFiles watch package (files ++ more) =
      ofFiles watch package files ++ ofFiles watch package more := by
  have hpackage : (ofFiles watch package files).package = package := addFiles_package _ _ _
  rw [ofFiles, addFiles_append, ← ofFiles, addFiles_eq_append, hpackage]

end Survey

/-! ## one statement -/

/-- What elements of a list add is related to those of them that add something. -/
theorem forall₂_filter_flatMap {α β : Type} {r : α → β → Prop} {p : α → Bool} {f : α → List β}
    (h : ∀ a, if p a then ∃ b, f a = [b] ∧ r a b else f a = []) (as : List α) :
    List.Forall₂ r (as.filter p) (as.flatMap f) := by
  induction as with
  | nil => exact .nil
  | cons a as ih =>
      have ha := h a
      rw [List.flatMap_cons]
      cases hp : p a with
      | true =>
          rw [if_pos hp] at ha
          obtain ⟨b, hf, hr⟩ := ha
          rw [List.filter_cons_of_pos hp, hf]
          exact .cons hr ih
      | false =>
          rw [if_neg (by simp [hp])] at ha
          rw [List.filter_cons_of_neg (by simp [hp]), ha]
          exact ih

namespace Watchlist

variable (watch : Watchlist) (package file : Text) (line : Nat) (statement : Text)
  (path : ModulePath)

/-- True for the finding that a path comes to where a statement stands for it. -/
def IsFinding (f : Finding) : Prop :=
  ∃ chosen others, watch.covering path = chosen :: others ∧
    f = ⟨package, chosen.text, file, line, statement, path⟩

/-- True for the notice that tells which patterns cover a path where a statement stands for it. -/
def IsAmbiguity (n : Notice) : Prop :=
  ∃ chosen others, watch.covering path = chosen :: others ∧
    n = .ambiguous file line statement path chosen.text (others.map Pattern.text)

/-- A path comes to one finding if it is covered. -/
theorem isFinding_findings :
    if watch.covers path then
      ∃ f, watch.findings package file line statement path = [f] ∧
        watch.IsFinding package file line statement path f
    else watch.findings package file line statement path = [] := by
  rw [findings]
  cases hcover : watch.covering path with
  | nil => simp [(watch.covering_eq_nil_iff path).1 hcover]
  | cons chosen others =>
      simp only [watch.covers_of_covering hcover, if_true]
      exact ⟨_, rfl, chosen, others, hcover, rfl⟩

/-- A path comes to one notice if several patterns cover it. -/
theorem isAmbiguity_ambiguities :
    if decide (2 ≤ (watch.covering path).length) then
      ∃ n, watch.ambiguities file line statement path = [n] ∧
        watch.IsAmbiguity file line statement path n
    else watch.ambiguities file line statement path = [] := by
  rw [ambiguities]
  cases hcover : watch.covering path with
  | nil => simp
  | cons chosen others =>
      cases others with
      | nil => simp
      | cons other others =>
          simp only [List.length_cons, Nat.le_add_left, decide_true, if_true]
          exact ⟨_, rfl, chosen, other :: others, hcover, rfl⟩

end Watchlist

namespace Statement

/-- True for what a statement comes to: the findings and the notices that it adds, in order. -/
inductive Account (watch : Watchlist) (package file : Text) (s : Statement) :
    List Finding → List Notice → Prop where
  /-- A rejected statement adds its rejection and no finding. -/
  | rejected (reason : Rejection) (expands : expand s.text = .error reason) :
      Account watch package file s []
        (s.endNotices file ++ [.malformed file s.line s.text reason])
  /-- An accepted statement adds one finding for each occurrence of a path that is covered and one
  notice for each occurrence of a path that several patterns cover. -/
  | accepted (e : Imports) (fs : List Finding) (ns : List Notice)
      (expands : expand s.text = .ok e)
      (finds : List.Forall₂ (watch.IsFinding package file s.line e.statement)
        (e.paths.filter watch.covers) fs)
      (notices : List.Forall₂ (watch.IsAmbiguity file s.line e.statement)
        (e.paths.filter fun path => 2 ≤ (watch.covering path).length) ns) :
      Account watch package file s fs (s.endNotices file ++ ns)

/-- What a statement adds to a survey is its account. -/
theorem account_findings_notices (watch : Watchlist) (package file : Text) (s : Statement) :
    s.Account watch package file (s.findings watch package file) (s.notices watch file) := by
  rw [findings, notices]
  cases hexpand : expand s.text with
  | error reason => exact .rejected reason hexpand
  | ok e =>
      refine .accepted e _ _ hexpand ?_ ?_
      · exact forall₂_filter_flatMap (watch.isFinding_findings package file s.line e.statement) _
      · exact forall₂_filter_flatMap (watch.isAmbiguity_ambiguities file s.line e.statement) _

/-! ## the statements of a file -/

/-- The notice that tells of a rejected statement. -/
def rejection? (file : Text) (s : Statement) : Option Notice :=
  match expand s.text with
  | .error reason => some (.malformed file s.line s.text reason)
  | .ok _ => none

variable (watch : Watchlist) (file : Text)

theorem filter_kind_endNotices (s : Statement) (kind : NoticeKind) :
    (s.endNotices file).filter (fun n => n.kind = kind) =
      if kind = .unfinished then s.endNotices file else [] := by
  rw [endNotices]
  cases s.unfinished <;> cases kind <;> rfl

theorem filter_kind_ambiguities (e : Imports) (line : Nat) {kind : NoticeKind}
    (h : kind ≠ .ambiguous) :
    (e.paths.flatMap (watch.ambiguities file line e.statement)).filter (fun n => n.kind = kind) =
      [] := by
  rw [List.filter_eq_nil_iff]
  intro n hn
  obtain ⟨path, _, hn⟩ := List.mem_flatMap.1 hn
  simpa [Watchlist.kind_of_mem_ambiguities hn] using h.symm

/-- A statement is told of as unfinished when it is, and once. -/
theorem filter_unfinished_notices (s : Statement) :
    (s.notices watch file).filter (fun n => n.kind = .unfinished) = s.endNotices file := by
  rw [notices, List.filter_append, filter_kind_endNotices]
  cases expand s.text with
  | error reason => exact List.append_nil _
  | ok e =>
      rw [filter_kind_ambiguities watch file e s.line (by decide), if_pos rfl, List.append_nil]

/-- A statement is told of as malformed when it is rejected, and once. -/
theorem filter_malformed_notices (s : Statement) :
    (s.notices watch file).filter (fun n => n.kind = .malformed) = (s.rejection? file).toList := by
  rw [notices, List.filter_append, filter_kind_endNotices, rejection?]
  cases expand s.text with
  | error reason => rfl
  | ok e => rw [filter_kind_ambiguities watch file e s.line (by decide)]; rfl

theorem flatMap_endNotices (ss : List Statement) :
    ss.flatMap (endNotices file) =
      (ss.filter unfinished).map fun s => .unfinished file s.line s.text := by
  induction ss with
  | nil => rfl
  | cons s ss ih =>
      rw [List.flatMap_cons, ih, endNotices]
      cases hend : s.unfinished <;> simp [hend]

end Statement

namespace Survey

/-- True for a survey that some statements of a file come to. -/
structure IsAccountOf (v : Survey) (watch : Watchlist) (file : Text) (ss : List Statement) :
    Prop where
  /-- The accounts of the statements are put behind one another. -/
  accounts : ∃ blocks : List (List Finding × List Notice),
    List.Forall₂ (fun s block => s.Account watch v.package file block.1 block.2) ss blocks ∧
      v.findings = blocks.flatMap Prod.fst ∧ v.notices = blocks.flatMap Prod.snd
  /-- There is one notice for each statement that the file left open. -/
  unfinished : v.notices.filter (fun n => n.kind = .unfinished) =
    (ss.filter Statement.unfinished).map fun s => .unfinished file s.line s.text
  /-- There is one notice for each statement that is rejected. -/
  malformed : v.notices.filter (fun n => n.kind = .malformed) =
    ss.filterMap (Statement.rejection? file)

/-- A file comes to the account of its statements. -/
theorem isAccountOf_addSource (watch : Watchlist) (package file source : Text) :
    ((start package).addSource watch file source).IsAccountOf watch file
      (Statement.ofSource source) := by
  have hadded : (start package).addSource watch file source =
      ⟨package, (Statement.ofSource source).flatMap (Statement.findings watch package file),
        (Statement.ofSource source).flatMap (Statement.notices watch file), 1⟩ := by
    rw [addSource_eq_extend]
    rfl
  rw [hadded]
  constructor
  · refine ⟨(Statement.ofSource source).map fun s =>
      (s.findings watch package file, s.notices watch file), ?_, ?_, ?_⟩
    · rw [List.forall₂_map_right_iff, List.forall₂_same]
      exact fun s _ => s.account_findings_notices watch package file
    · rw [List.flatMap_map]
    · rw [List.flatMap_map]
  · simp only [List.filter_flatMap, Statement.filter_unfinished_notices,
      Statement.flatMap_endNotices]
  · simp only [List.filter_flatMap, Statement.filter_malformed_notices,
      List.filterMap_eq_flatMap_toList]

/-- **A file in a survey**: whatever a survey holds, a file leaves it as it is and puts behind it
what the file comes to as the first one of the package, which is the account of its statements; so
the files of two lists may be taken in apart. -/
theorem addSource_accounted (watch : Watchlist) (file source : Text) (v : Survey) :
    let added := (start v.package).addSource watch file source
    ((v.addSource watch file source).package = v.package ∧
        (v.addSource watch file source).findings = v.findings ++ added.findings ∧
        (v.addSource watch file source).notices = v.notices ++ added.notices ∧
        (v.addSource watch file source).filesRead = v.filesRead + 1) ∧
      added.IsAccountOf watch file (Statement.ofSource source) ∧
      ∀ (package : Text) (files more : List (Text × Text)),
        ofFiles watch package (files ++ more) =
          ofFiles watch package files ++ ofFiles watch package more := by
  intro added
  refine ⟨?_, isAccountOf_addSource watch v.package file source, ofFiles_append watch⟩
  rw [addSource_eq_append]
  exact ⟨rfl, rfl, rfl, congrArg (v.filesRead + ·) (by rw [addSource_eq_extend]; rfl)⟩

example : (start ['p']).addSource .standard "a.rs".toList "use std::fs; use a::\x7b\n".toList =
    ⟨['p'], [⟨['p'], "std::fs".toList, "a.rs".toList, 1, "use std::fs;".toList,
        ⟨["std".toList, "fs".toList]⟩⟩],
      [.unfinished "a.rs".toList 1 "use a::\x7b\n;".toList,
        .malformed "a.rs".toList 1 "use a::\x7b\n;".toList (.unclosedBrace "a::\x7b".toList)],
      1⟩ := by
  decide +kernel

end Survey

end ImportWatch
