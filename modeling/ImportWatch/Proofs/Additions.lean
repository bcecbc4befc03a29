import ImportWatch.Survey

/-!
# ImportWatch.Proofs.Additions

What a path, a statement and a file add to a survey.

A survey only grows: each of its steps puts some findings and some notices
behind those that it has.  What a step adds depends on the package and not on
anything else that the survey holds, so what a source adds is put together
from what its statements add, and that from what their paths add.
-/

namespace ImportWatch

namespace Survey

/-- The survey with more findings and more notices. -/
def extend (v : Survey) (findings : List Finding) (notices : List Notice) : Survey :=
  { v with findings := v.findings ++ findings, notices := v.notices ++ notices }

theorem extend_nil (v : Survey) : v.extend [] [] = v := by
  rw [extend, List.append_nil, List.append_nil]

theorem extend_extend (v : Survey) (fs gs : List Finding) (ns ms : List Notice) :
    (v.extend fs ns).extend gs ms = v.extend (fs ++ gs) (ns ++ ms) := by
  simp only [extend, List.append_assoc]

theorem note_eq_extend (v : Survey) (n : Notice) : v.note n = v.extend [] [n] := by
  rw [note, extend, List.append_nil]

theorem record_eq_extend (v : Survey) (f : Finding) : v.record f = v.extend [f] [] := by
  rw [record, extend, List.append_nil]

/-- Steps that each extend a survey of the package extend it by all that they add. -/
theorem foldl_eq_extend {α : Type} {step : Survey → α → Survey} {package : Text}
    {findings : α → List Finding} {notices : α → List Notice}
    (hstep : ∀ v a, v.package = package → step v a = v.extend (findings a) (notices a))
    (as : List α) {v : Survey} (hv : v.package = package) :
    as.foldl step v = v.extend (as.flatMap findings) (as.flatMap notices) := by
  induction as generalizing v with
  | nil =>
      rw [List.foldl_nil, List.flatMap_nil, List.flatMap_nil, extend_nil]
  | cons a as ih =>
      have hv' : (v.extend (findings a) (notices a)).package = package := hv
      rw [List.foldl_cons, hstep v a hv, ih hv', extend_extend, List.flatMap_cons,
        List.flatMap_cons]

end Survey

/-! ## one path -/

/-- What a path adds to the findings of a package. -/
def Watchlist.findings (watch : Watchlist) (package file : Text) (line : Nat) (statement : Text)
    (path : ModulePath) : List Finding :=
  match watch.covering path with
  | [] => []
  | chosen :: _ => [⟨package, chosen.text, file, line, statement, path⟩]

/-- What a path adds to the notices. -/
def Watchlist.ambiguities (watch : Watchlist) (file : Text) (line : Nat) (statement : Text)
    (path : ModulePath) : List Notice :=
  match watch.covering path with
  | [] | [_] => []
  | chosen :: others =>
    [.ambiguous file line statement path chosen.text (others.map Pattern.text)]

theorem Survey.addPath_eq_extend (watch : Watchlist) (file : Text) (line : Nat) (statement : Text)
    (v : Survey) (path : ModulePath) :
    addPath watch file line statement v path =
      v.extend (watch.findings v.package file line statement path)
        (watch.ambiguities file line statement path) := by
  rw [addPath, Watchlist.label?, Watchlist.findings, Watchlist.ambiguities]
  cases watch.covering path with
  | nil => exact v.extend_nil.symm
  | cons chosen others =>
      cases others with
      | nil => exact v.record_eq_extend _
      | cons other others =>
          simp only [Label.isAmbiguous, List.isEmpty_cons, Bool.not_false, if_true]
          rw [note_eq_extend, record_eq_extend, extend_extend]
          rfl

/-- The first pattern that covers a path is the label of the finding. -/
theorem Watchlist.exists_covering_of_mem_findings {watch : Watchlist} {package file : Text}
    {line : Nat} {statement : Text} {path : ModulePath} {f : Finding}
    (h : f ∈ watch.findings package file line statement path) :
    ∃ chosen others, watch.covering path = chosen :: others ∧
      f = ⟨package, chosen.text, file, line, statement, path⟩ := by
  rw [findings] at h
  cases hcover : watch.covering path with
  | nil =>
      rw [hcover] at h
      cases h
  | cons chosen others =>
      rw [hcover, List.mem_singleton] at h
      exact ⟨chosen, others, rfl, h⟩

/-- A finding is about the package, and some pattern of the watchlist labels it. -/
theorem Watchlist.of_mem_findings {watch : Watchlist} {package file : Text} {line : Nat}
    {statement : Text} {path : ModulePath} {f : Finding}
    (h : f ∈ watch.findings package file line statement path) :
    f.package = package ∧ f.pattern ∈ watch.texts := by
  obtain ⟨chosen, others, hcover, rfl⟩ := exists_covering_of_mem_findings h
  have hmem : chosen ∈ watch.covering path := by rw [hcover]; exact List.mem_cons_self
  exact ⟨rfl, List.mem_map_of_mem (List.mem_filter.1 hmem).1⟩

theorem Watchlist.kind_of_mem_ambiguities {watch : Watchlist} {file : Text} {line : Nat}
    {statement : Text} {path : ModulePath} {x : Notice}
    (h : x ∈ watch.ambiguities file line statement path) : x.kind = .ambiguous := by
  unfold ambiguities at h
  split at h
  · cases h
  · cases h
  · rw [List.mem_singleton.1 h]
    rfl

/-! ## one statement -/

namespace Statement

/-- What a statement adds to the findings of a package. -/
def findings (watch : Watchlist) (package file : Text) (s : Statement) : List Finding :=
  match expand s.text with
  | .error _ => []
  | .ok e => e.paths.flatMap (watch.findings package file s.line e.statement)

/-- What is noticed about a statement before it is expanded. -/
def endNotices (file : Text) (s : Statement) : List Notice :=
  if s.unfinished then [.unfinished file s.line s.text] else []

/-- What a statement adds to the notices. -/
def notices (watch : Watchlist) (file : Text) (s : Statement) : List Notice :=
  s.endNotices file ++
    match expand s.text with
    | .error reason => [.malformed file s.line s.text reason]
    | .ok e => e.paths.flatMap (watch.ambiguities file s.line e.statement)

end Statement

theorem Survey.addStatement_eq_extend (watch : Watchlist) (file : Text) (v : Survey)
    (s : Statement) :
    v.addStatement watch file s =
      v.extend (s.findings watch v.package file) (s.notices watch file) := by
  have hend : (if s.unfinished then v.note (.unfinished file s.line s.text) else v) =
      v.extend [] (s.endNotices file) := by
    rw [Statement.endNotices]
    cases s.unfinished with
    | true => exact note_eq_extend v _
    | false => exact v.extend_nil.symm
  rw [addStatement, hend, Statement.findings, Statement.notices]
  cases expand s.text with
  | error reason =>
      simp only [note_eq_extend, extend_extend, List.nil_append]
  | ok e =>
      have hpath (u : Survey) (path : ModulePath) (hu : u.package = v.package) :
          addPath watch file s.line e.statement u path =
            u.extend (watch.findings v.package file s.line e.statement path)
              (watch.ambiguities file s.line e.statement path) := by
        rw [addPath_eq_extend, hu]
      have hv : (v.extend [] (s.endNotices file)).package = v.package := rfl
      simp only [foldl_eq_extend hpath e.paths hv, extend_extend, List.nil_append]

/-- A finding is one of the paths that a statement stands for. -/
theorem Statement.exists_path_of_mem_findings {watch : Watchlist} {package file : Text}
    {s : Statement} {f : Finding} (h : f ∈ s.findings watch package file) :
    ∃ e, expand s.text = .ok e ∧
      ∃ path ∈ e.paths, f ∈ watch.findings package file s.line e.statement path := by
  rw [findings] at h
  cases hexpand : expand s.text with
  | error reason =>
      rw [hexpand] at h
      cases h
  | ok e =>
      rw [hexpand] at h
      exact ⟨e, rfl, List.mem_flatMap.1 h⟩

theorem Statement.of_mem_findings {watch : Watchlist} {package file : Text} {s : Statement}
    {f : Finding} (h : f ∈ s.findings watch package file) :
    f.package = package ∧ f.pattern ∈ watch.texts := by
  obtain ⟨_, _, _, _, h⟩ := exists_path_of_mem_findings h
  exact Watchlist.of_mem_findings h

/-! ## files -/

namespace Survey

theorem addSource_eq_extend (watch : Watchlist) (file source : Text) (v : Survey) :
    v.addSource watch file source =
      { v.extend ((Statement.ofSource source).flatMap (Statement.findings watch v.package file))
          ((Statement.ofSource source).flatMap (Statement.notices watch file)) with
        filesRead := v.filesRead + 1 } := by
  have hstep (u : Survey) (s : Statement) (hu : u.package = v.package) :
      u.addStatement watch file s =
        u.extend (s.findings watch v.package file) (s.notices watch file) := by
    rw [addStatement_eq_extend, hu]
  simp only [addSource, foldl_eq_extend hstep _ rfl]
  rfl

theorem addFiles_cons (watch : Watchlist) (v : Survey) (file source : Text)
    (files : List (Text × Text)) :
    v.addFiles watch ((file, source) :: files) =
      (v.addSource watch file source).addFiles watch files :=
  rfl

theorem addFiles_package (watch : Watchlist) (v : Survey) (files : List (Text × Text)) :
    (v.addFiles watch files).package = v.package := by
  induction files generalizing v with
  | nil => rfl
  | cons first files ih =>
      obtain ⟨file, source⟩ := first
      rw [addFiles_cons, ih, addSource_eq_extend]
      rfl

theorem addFiles_findings (watch : Watchlist) (v : Survey) (files : List (Text × Text)) :
    (v.addFiles watch files).findings = v.findings ++ files.flatMap fun (file, source) =>
      (Statement.ofSource source).flatMap (Statement.findings watch v.package file) := by
  induction files generalizing v with
  | nil => exact (List.append_nil _).symm
  | cons first files ih =>
      obtain ⟨file, source⟩ := first
      rw [addFiles_cons, ih, addSource_eq_extend, List.flatMap_cons, ← List.append_assoc]
      rfl

theorem addFiles_notices (watch : Watchlist) (v : Survey) (files : List (Text × Text)) :
    (v.addFiles watch files).notices = v.notices ++ files.flatMap fun (file, source) =>
      (Statement.ofSource source).flatMap (Statement.notices watch file) := by
  induction files generalizing v with
  | nil => exact (List.append_nil _).symm
  | cons first files ih =>
      obtain ⟨file, source⟩ := first
      rw [addFiles_cons, ih, addSource_eq_extend, List.flatMap_cons, ← List.append_assoc]
      rfl

/-- Every finding of a package is about the package, and some pattern labels it. -/
theorem of_mem_ofFiles_findings {watch : Watchlist} {package : Text} {files : List (Text × Text)}
    {f : Finding} (h : f ∈ (ofFiles watch package files).findings) :
    f.package = package ∧ f.pattern ∈ watch.texts := by
  rw [ofFiles, addFiles_findings] at h
  obtain ⟨file, _, h⟩ := List.mem_flatMap.1 h
  obtain ⟨s, _, h⟩ := List.mem_flatMap.1 h
  exact Statement.of_mem_findings h

end Survey

end ImportWatch
