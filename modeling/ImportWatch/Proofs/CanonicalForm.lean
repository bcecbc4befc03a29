import ImportWatch.Proofs.LineForm
import ImportWatch.Proofs.PathParts

/-!
# ImportWatch.Proofs.CanonicalForm

The statement of an expansion is the canonical form of the text that was expanded.

* `IsCanonicalBody` says which bodies a statement may have on one line, by the characters that
  stand beside each other, and `IsCanonical` are the statements with such a body;
* `statementBody_statementOfBody_iff`: these are the bodies that are found again in their
  statement, and there are no others (`IsCanonicalBody.of_statementBody`);
* `canonical_statement`: the statement of an expansion is canonical and has the same expansion,
  and the canonical texts are the ones that are their own statement.
-/

namespace ImportWatch

open Text

/-! ## canonical bodies -/

/-- True for what may stand between the keyword and the terminator on one line. -/
structure IsCanonicalBody (body : Text) : Prop where
  ne_nil : body ≠ []
  start : ∀ c ∈ body.head?, isBlank c = false
  neighbours : (body ++ [terminator]).IsChain Neighbours
  slash : '/' ∉ body
  stop : terminator ∉ body

/-- The first character on a line is not blank. -/
theorem isBlank_head_tidy (gap : Bool) (s : Text) :
    ∀ c ∈ (tidy none gap s).head?, isBlank c = false := by
  induction s generalizing gap with
  | nil => simp [tidy]
  | cons d s ih =>
      cases hd : isBlank d with
      | true =>
          rw [tidy_blank _ _ hd]
          exact ih true
      | false =>
          rw [tidy_plain _ _ hd, joint_none]
          simpa using hd

/-- Every body that is found in a text is canonical. -/
theorem IsCanonicalBody.of_statementBody {text body : Text} (h : statementBody text = .ok body) :
    IsCanonicalBody body := by
  obtain ⟨rest, _, _, hline, hslash, hstop, hblank⟩ := statementBody_eq_ok_iff.1 h
  have hne : body ≠ [] := by
    rintro rfl
    cases hblank
  rw [oneLine_eq_tidy] at hline
  have hhead := isBlank_head_tidy false (visible rest)
  rw [hline, List.head?_append_of_ne_nil _ hne] at hhead
  exact ⟨hne, hhead, hline ▸ isChain_tidy (visible rest), hslash, hstop⟩

/-- A body is found in its own statement exactly when it is canonical. -/
theorem statementBody_statementOfBody_iff {body : Text} :
    statementBody (statementOfBody body) = .ok body ↔ IsCanonicalBody body := by
  refine ⟨.of_statementBody, fun h => ?_⟩
  obtain ⟨c, s, hbody⟩ := List.exists_cons_of_ne_nil h.ne_nil
  have hc : isBlank c = false := h.start c (by rw [hbody]; rfl)
  have hvisible : visible (body ++ [terminator]) = body ++ [terminator] :=
    visible_of_notMem (by simpa [terminator] using h.slash)
  have hstart : ∀ d ∈ (body ++ [terminator]).head?, isBlank d = false := by
    rw [List.head?_append_of_ne_nil _ h.ne_nil]
    exact h.start
  have hend : ∀ d ∈ (body ++ [terminator]).getLast?, isBlank d = false := by
    rw [List.getLast?_concat]
    intro d hd
    cases hd
    rfl
  have hline : oneLine (body ++ [terminator]) = body ++ [terminator] := by
    rw [oneLine_eq_tidy, hvisible, tidy_of_isChain h.neighbours hstart hend]
  have hblank : isAllBlank body = false :=
    List.all_eq_false.2 ⟨c, hbody ▸ List.mem_cons_self, by simp [hc]⟩
  exact statementBody_eq_ok_iff.2
    ⟨body ++ [terminator], rfl, List.mem_concat_self, hline, h.slash, h.stop, hblank⟩

/-! ## canonical statements -/

/-- True for a statement with a canonical body. -/
def IsCanonical (text : Text) : Prop := ∃ body, text = statementOfBody body ∧ IsCanonicalBody body

section

variable {text : Text} {e : Imports}

/-- The statement of an expansion is expanded to the same paths. -/
theorem expand_statement (h : expand text = .ok e) : expand e.statement = .ok e := by
  obtain ⟨body, hbody, hstatement, hresolve⟩ := expand_eq_ok_iff.1 h
  refine expand_eq_ok_iff.2 ⟨body, ?_, hstatement, hresolve⟩
  rw [hstatement, statementBody_statementOfBody_iff]
  exact .of_statementBody hbody

theorem isCanonical_statement (h : expand text = .ok e) : IsCanonical e.statement := by
  obtain ⟨body, hbody, hstatement, _⟩ := expand_eq_ok_iff.1 h
  exact ⟨body, hstatement, .of_statementBody hbody⟩

/-- A canonical text is its own statement. -/
theorem statement_of_isCanonical (h : expand text = .ok e) (hcanonical : IsCanonical text) :
    e.statement = text := by
  obtain ⟨body, rfl, hbody⟩ := hcanonical
  obtain ⟨body', hbody', hstatement, _⟩ := expand_eq_ok_iff.1 h
  rw [statementBody_statementOfBody_iff.2 hbody] at hbody'
  cases hbody'
  exact hstatement

/-- **Canonical form**: the statement of an expansion has the same expansion, the same statement
and the same paths, and it is the text itself exactly when the text was canonical. -/
theorem canonical_statement (h : expand text = .ok e) :
    expand e.statement = .ok e ∧ IsCanonical e.statement ∧
      (e.statement = text ↔ IsCanonical text) := by
  refine ⟨expand_statement h, isCanonical_statement h, fun hsame => ?_, statement_of_isCanonical h⟩
  exact hsame ▸ isCanonical_statement h

end

theorem canonical_statement_spread :
    let text := "use  a ::\n  \x7bb , // one; two\n  c as d , \x7d ;".toList
    let e : Imports := ⟨"use a::\x7bb, c as d,\x7d;".toList, [⟨["a".toList, "b".toList]⟩,
      ⟨["a".toList, "c".toList]⟩]⟩
    expand text = .ok e ∧ expand e.statement = .ok e ∧ ¬IsCanonical text := by
  intro text e
  have h : expand text = .ok e := by decide
  have hne : e.statement ≠ text := by decide
  have hcanonical := canonical_statement h
  exact ⟨h, hcanonical.1, fun hform => hne (hcanonical.2.2.2 hform)⟩

end ImportWatch
