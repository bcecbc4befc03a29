import ImportWatch.Proofs.Additions
import ImportWatch.Proofs.CrossProduct
import ImportWatch.Proofs.OneLine

/-!
# ImportWatch.Proofs.StrayBraces

Statements whose braces are not balanced.

A stray brace is noticed when a text that still holds it is taken up, so the
statement is rejected as soon as what stands before the brace denotes any text
at all.  Where a group without alternatives lets every text in front of the
stray brace vanish, the statement is accepted and stands for no path
(`Overlooked`); `expand_of_not_balanced` says that this is the only case in
which such a statement is not rejected.
-/

namespace ImportWatch

open Text

/-- A statement in which what stands before the first stray brace denotes
nothing, as is found out within the steps that may be taken. -/
def Overlooked (text : Text) : Prop :=
  ∃ (t : Nested) (stray : Text), statementBody text = .ok (t.text ++ stray) ∧ Stray stray ∧
    t.denoted = [] ∧ t.visits.length ≤ stepLimit

theorem Balanced.concat_terminator {s : Text} (h : Balanced s) : Balanced (s ++ [terminator]) := by
  obtain ⟨t, rfl⟩ := exists_nested h
  have := (t.append (.char terminator (by decide) .nil)).balanced_text
  simpa [Nested.text] using this

section

variable {stray : Text}

theorem resolve_append_stray (h : Stray stray) (steps : Nat) (t : Nested) :
    resolve steps [t.text ++ stray] =
      readVisits (fun u => (Braced.first? (u.text ++ stray)).bind fun _ => .ok ⟨[]⟩) steps
        t.visits := by
  have hleaf (u : Nested) (hu : u.isPlain = true) (steps : Nat) (pending : List Text) :
      resolve (steps + 1) ((u.text ++ stray) :: pending) = do
        let p ← (Braced.first? (u.text ++ stray)).bind fun _ => .ok ⟨[]⟩
        return p :: (← resolve steps pending) := by
    obtain ⟨e, he⟩ := first?_of_stray hu h
    rw [resolve_of_rejection steps pending he, he]
    rfl
  have := resolve_visits stray hleaf steps [t]
  rwa [List.map_singleton, List.flatMap_singleton] at this

theorem filter_visits_eq_nil_iff (t : Nested) :
    t.visits.filter Nested.isPlain = [] ↔ t.denoted = [] := by
  rw [← Nested.leaves_visits, List.map_eq_nil_iff]

/-- Behind what denotes nothing a stray brace is never taken up by itself. -/
theorem resolve_stray_eq_ok (h : Stray stray) {steps : Nat} {t : Nested} (hnone : t.denoted = [])
    (hlen : t.visits.length ≤ steps) : resolve steps [t.text ++ stray] = .ok [] := by
  rw [resolve_append_stray h, readVisits, List.take_of_length_le hlen,
    (filter_visits_eq_nil_iff t).2 hnone, List.mapM_nil]
  simp [hlen]
  rfl

theorem resolve_stray_eq_error (h : Stray stray) {steps : Nat} {t : Nested}
    (hsome : t.denoted = [] → steps < t.visits.length) :
    ∃ e, resolve steps [t.text ++ stray] = .error e := by
  rw [resolve_append_stray h, readVisits]
  cases hleaves : (t.visits.take steps).filter Nested.isPlain with
  | nil =>
      have hlen : steps < t.visits.length := by
        by_cases hnone : t.denoted = []
        · exact hsome hnone
        · refine Nat.lt_of_not_le fun hle => hnone ?_
          rwa [List.take_of_length_le hle, filter_visits_eq_nil_iff] at hleaves
      refine ⟨.tooManySteps stepLimit, ?_⟩
      rw [List.mapM_nil]
      simp [Nat.not_le.2 hlen]
      rfl
  | cons u us =>
      have hplain : u.isPlain = true :=
        (List.mem_filter.1 (hleaves ▸ List.mem_cons_self : u ∈ _)).2
      obtain ⟨e, he⟩ := first?_of_stray hplain h
      refine ⟨e, ?_⟩
      rw [List.mapM_cons, he]
      rfl

end

/-- An overlooked statement stands for no path. -/
theorem expand_of_overlooked {text : Text} (h : Overlooked text) :
    ∃ statement, expand text = .ok ⟨statement, []⟩ := by
  obtain ⟨t, stray, hbody, hstray, hnone, hlen⟩ := h
  refine ⟨statementOfBody (t.text ++ stray), ?_⟩
  rw [expand, hbody]
  simp only [resolve_stray_eq_ok hstray hnone hlen]
  rfl

/-- Unbalanced braces are found in every other statement. -/
theorem expand_of_not_overlooked {text : Text}
    (hun : ¬ Balanced (oneLine (text.drop keyword.length))) (h : ¬ Overlooked text) :
    ∃ reason, expand text = .error reason := by
  rw [expand]
  cases hbody : statementBody text with
  | error e => exact ⟨e, rfl⟩
  | ok body =>
      obtain ⟨rest, rfl, _, hline, _⟩ := statementBody_eq_ok_iff.1 hbody
      rw [List.drop_left, hline] at hun
      obtain ⟨t, stray, rfl, hstray | hstray⟩ := exists_nested_append body
      · rw [hstray, List.append_nil] at hun
        exact absurd t.balanced_text.concat_terminator hun
      · have hsome : t.denoted = [] → stepLimit < t.visits.length := by
          intro hnone
          refine Nat.lt_of_not_le fun hlen => h ?_
          exact ⟨t, stray, hbody, hstray, hnone, hlen⟩
        obtain ⟨e, he⟩ := resolve_stray_eq_error hstray hsome
        exact ⟨e, by simp only [he]; rfl⟩

/-- **Unbalanced braces**: a text whose braces are not balanced stands for no path, and
it is rejected unless it is overlooked; as a statement of a file it is reported as
malformed in the one case and adds nothing in the other. -/
theorem expand_of_not_balanced {text : Text}
    (hun : ¬ Balanced (oneLine (text.drop keyword.length))) :
    ((∃ reason, expand text = .error reason) ↔ ¬ Overlooked text) ∧
      (∀ e, expand text = .ok e → e.paths = []) ∧
      ∀ (watch : Watchlist) (file : Text) (v : Survey) (s : Statement), s.text = text →
        (¬ Overlooked text → ∃ reason, v.addStatement watch file s =
          v.extend [] (s.endNotices file ++ [.malformed file s.line text reason])) ∧
        (Overlooked text → v.addStatement watch file s = v.extend [] (s.endNotices file)) := by
  by_cases h : Overlooked text
  · obtain ⟨statement, hexpand⟩ := expand_of_overlooked h
    have hiff : (∃ reason, expand text = .error reason) ↔ ¬ Overlooked text := by
      simp [hexpand, h]
    have hpaths : ∀ e, expand text = .ok e → e.paths = [] := by
      intro e he
      rw [hexpand] at he
      cases he
      rfl
    have hadded (watch : Watchlist) (file : Text) (v : Survey) (s : Statement)
        (hs : s.text = text) :
        v.addStatement watch file s = v.extend [] (s.endNotices file) := by
      rw [Survey.addStatement_eq_extend, Statement.findings, Statement.notices, hs, hexpand]
      simp only [List.flatMap_nil, List.append_nil]
    exact ⟨hiff, hpaths, fun watch file v s hs =>
      ⟨fun hnot => absurd h hnot, fun _ => hadded watch file v s hs⟩⟩
  · obtain ⟨reason, hexpand⟩ := expand_of_not_overlooked hun h
    have hiff : (∃ reason, expand text = .error reason) ↔ ¬ Overlooked text := by
      simp [hexpand, h]
    have hpaths : ∀ e, expand text = .ok e → e.paths = [] := by
      intro e he
      rw [hexpand] at he
      cases he
    have hadded (watch : Watchlist) (file : Text) (v : Survey) (s : Statement)
        (hs : s.text = text) :
        v.addStatement watch file s =
          v.extend [] (s.endNotices file ++ [.malformed file s.line text reason]) := by
      rw [Survey.addStatement_eq_extend, Statement.findings, Statement.notices, hs, hexpand]
    exact ⟨hiff, hpaths, fun watch file v s hs =>
      ⟨fun _ => ⟨reason, hadded watch file v s hs⟩, fun hover => absurd hover h⟩⟩

theorem expand_of_not_balanced_closing :
    ¬ Balanced (oneLine "a::\x7bb\x7d\x7d;".toList) ∧
      ((∃ reason, expand "use a::\x7bb\x7d\x7d;".toList = .error reason) ↔
        ¬ Overlooked "use a::\x7bb\x7d\x7d;".toList) :=
  ⟨by decide, (expand_of_not_balanced (by decide)).1⟩

/-- The closing brace behind an empty group is overlooked. -/
theorem expand_empty_group_closing :
    ¬ Balanced (oneLine "\x7b\x7d\x7d;".toList) ∧
      expand "use \x7b\x7d\x7d;".toList = .ok ⟨"use \x7b\x7d\x7d;".toList, []⟩ :=
  ⟨by decide, by decide⟩

end ImportWatch
