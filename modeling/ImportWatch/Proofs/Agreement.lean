import ImportWatch.Proofs.Delimited

/-!
# ImportWatch.Proofs.Agreement

The reader and the expansion agree on where a statement begins and ends.

The reader looks for terminators line by line while it puts a statement
together; the expansion looks for them again once the statement stands on one
line without its comments.

* `Statement.Delimited.exists_oneLine_eq`: on one line, a statement is cut by
  its first visible terminator into what the lines before hold and what stands
  behind the terminator on the last line;
* `expand_eq_error_iff`: which rejections the shape of a statement decides;
* `expand_of_mem_ofSource`: no statement lacks its keyword or its terminator,
  and text behind the terminator is reported exactly where there is some.
-/

namespace ImportWatch

open Text

/-! ## the visible text of a statement -/

theorem visible_keyword_append (rest : Text) :
    visible (keyword ++ rest) = keyword ++ visible rest := by
  simp only [keyword, List.cons_append, List.nil_append, visible_cons (by decide : 'u' ≠ '/'),
    visible_cons (by decide : 's' ≠ '/'), visible_cons (by decide : 'e' ≠ '/'),
    visible_cons (by decide : ' ' ≠ '/')]

namespace Statement.Delimited

variable {s : Statement}

/-- What stands behind the first visible terminator of a statement stands on its last line. -/
theorem exists_visible_eq (h : s.Delimited) :
    ∃ w, terminator ∉ w ∧
      visible s.text = w ++ terminator :: uncommented (behindTerminator (lastLine s.text)) := by
  obtain ⟨done, hsplits⟩ : ∃ done, s.text.splitOn '\n' = done ++ [lastLine s.text] := by
    refine ⟨(s.text.splitOn '\n').dropLast, ?_⟩
    have hne := List.splitOn_ne_nil '\n' s.text
    rw [lastLine, List.getLastD_eq_getLast?, List.getLast?_eq_some_getLast hne]
    exact (List.dropLast_append_getLast hne).symm
  obtain ⟨ended, rest, hsplit⟩ : ∃ ended rest,
      splitTerminator? (lastLine s.text) = some (ended, rest) := by
    have hstops := h.stops
    rw [isTerminated, Option.isSome_iff_exists] at hstops
    exact ⟨_, _, hstops.choose_spec⟩
  obtain ⟨e, he, _, hlast⟩ := uncommented_of_splitTerminator? hsplit
  have hrunning := h.running
  rw [hsplits, List.dropLast_concat] at hrunning
  refine ⟨List.intercalate ['\n'] (done.map uncommented ++ [e]), fun hmem => ?_, ?_⟩
  · rcases mem_intercalate hmem with hc | ⟨p, hp, hc⟩
    · cases List.mem_singleton.1 hc
    · rcases List.mem_append.1 hp with hp | hp
      · obtain ⟨l, hl, rfl⟩ := List.mem_map.1 hp
        have hterm := (isTerminated_iff l).2 hc
        rw [hrunning l hl] at hterm
        cases hterm
      · exact he (List.mem_singleton.1 hp ▸ hc)
  · rw [visible, hsplits, List.map_append, List.map_singleton, hlast,
      behindTerminator_of_split hsplit, intercalate_concat_append]

/-- A statement is its keyword and, behind it, a text with a visible terminator. -/
theorem exists_text_eq (h : s.Delimited) :
    ∃ rest u, s.text = keyword ++ rest ∧ terminator ∈ rest ∧ terminator ∉ u ∧
      visible rest = u ++ terminator :: uncommented (behindTerminator (lastLine s.text)) := by
  obtain ⟨rest, hrest⟩ := List.isPrefixOf_iff_prefix.1 h.starts
  obtain ⟨w, hw, hvisible⟩ := h.exists_visible_eq
  have hkeyword : visible s.text = keyword ++ visible rest := by
    rw [← hrest, visible_keyword_append]
  have hnot : terminator ∉ keyword := by decide
  -- the terminator stands behind the keyword, so the keyword is part of what stands before it
  obtain ⟨u, rfl⟩ : ∃ u, w = keyword ++ u := by
    rw [hkeyword] at hvisible
    rcases List.append_eq_append_iff.1 hvisible with ⟨u, hu, _⟩ | ⟨u, hu, hbehind⟩
    · exact ⟨u, hu⟩
    · cases u with
      | nil => exact ⟨[], by simpa using hu.symm⟩
      | cons c u =>
          obtain ⟨rfl, _⟩ := List.cons.inj hbehind
          exact absurd (hu ▸ List.mem_append_right w List.mem_cons_self) hnot
  rw [hkeyword, List.append_assoc, List.append_cancel_left_eq] at hvisible
  refine ⟨rest, u, hrest.symm, ?_, fun hu => hw (List.mem_append_right _ hu), hvisible⟩
  have hterm : terminator ∈ visible rest := by simp [hvisible]
  exact (visible_sublist rest).subset hterm

/-- On one line, what stands behind the first terminator of a statement is what stands behind
it on its last line. -/
theorem exists_oneLine_eq (h : s.Delimited) :
    ∃ rest u, s.text = keyword ++ rest ∧ terminator ∈ rest ∧ terminator ∉ u ∧
      ('/' ∉ visible s.text → '/' ∉ oneLine rest) ∧
      oneLine rest = u ++ terminator ::
        tidy (some terminator) false (uncommented (behindTerminator (lastLine s.text))) := by
  obtain ⟨rest, u, htext, hterm, hu, hvisible⟩ := h.exists_text_eq
  refine ⟨rest, tidy none false u, htext, hterm, ?_, fun hslash hmem => hslash ?_, ?_⟩
  · rwa [mem_tidy_iff rfl]
  · rw [oneLine_eq_tidy, mem_tidy_iff rfl] at hmem
    rw [htext, visible_keyword_append]
    exact List.mem_append_right _ hmem
  · rw [oneLine_eq_tidy, hvisible, tidy_append_closer rfl rfl]

end Statement.Delimited

/-! ## the rejections of a statement -/

/-- True for the rejections that the shape of a statement decides, before a path is expanded. -/
def Rejection.isOfShape : Rejection → Bool
  | missingKeyword | missingTerminator | straySlash | trailingText | extraTerminator | noPath =>
    true
  | emptySegment _ | unclosedBrace _ | unmatchedBrace _ | tooManySteps _ => false

theorem isOfShape_of_first? {item : Text} {e : Rejection} (h : Braced.first? item = .error e) :
    e.isOfShape = false := by
  rw [Braced.first?] at h
  split at h
  · cases h
  · split at h
    · cases h
      rfl
    · split at h
      · cases h
        rfl
      · cases h

theorem isOfShape_of_read {item : Text} {e : Rejection} (h : ModulePath.read item = .error e) :
    e.isOfShape = false := by
  simp only [ModulePath.read] at h
  split at h
  · cases h
    rfl
  · cases h

/-- The expansion of groups gives other rejections. -/
theorem isOfShape_of_resolve {steps : Nat} {pending : List Text} {e : Rejection}
    (h : resolve steps pending = .error e) : e.isOfShape = false := by
  fun_induction resolve steps pending with
  | case1 => cases h
  | case2 =>
      cases h
      rfl
  | case3 steps item pending e' hfirst =>
      cases h
      exact isOfShape_of_first? hfirst
  | case4 steps item pending g hfirst ih => exact ih h
  | case5 steps item pending hfirst e' hread =>
      cases h
      exact isOfShape_of_read hread
  | case6 steps item pending hfirst p hread ih =>
      cases hrest : resolve steps pending with
      | error e' =>
          rw [hrest] at h
          cases h
          exact ih hrest
      | ok ps =>
          rw [hrest] at h
          cases h

/-- A rejection that the shape decides is a rejection of the shape. -/
theorem expand_eq_error_iff {text : Text} {e : Rejection} (he : e.isOfShape = true) :
    expand text = .error e ↔ statementBody text = .error e := by
  rw [expand]
  cases hbody : statementBody text with
  | error e' => simp only [Except.error.injEq]
  | ok body =>
      refine ⟨fun h => ?_, fun h => by cases h⟩
      cases hresolve : resolve stepLimit [body] with
      | error e' =>
          simp only [hresolve] at h
          cases h
          have hnot := isOfShape_of_resolve hresolve
          rw [he] at hnot
          cases hnot
      | ok paths =>
          simp only [hresolve] at h
          cases h

/-- What the shape of a statement says, once its keyword and a terminator are found. -/
theorem statementBody_keyword {rest : Text} (h : terminator ∈ rest) :
    statementBody (keyword ++ rest) =
      if '/' ∈ oneLine rest then .error .straySlash
      else if (oneLine rest).getLast? ≠ some terminator then .error .trailingText
      else if terminator ∈ (oneLine rest).dropLast then .error .extraTerminator
      else if isAllBlank (oneLine rest).dropLast then .error .noPath
      else .ok (oneLine rest).dropLast := by
  have hkeyword : keyword.isPrefixOf? (keyword ++ rest) = some rest :=
    List.isPrefixOf?_eq_some_iff_append_eq.2 rfl
  rw [statementBody, hkeyword]
  simp only [h, not_true_eq_false, if_false]

/-! ## where both look for the end -/

/-- Text behind the first terminator is reported, where there is some, as such or as another
terminator. -/
theorem reports_end_iff {rest u v : Text} (hterm : terminator ∈ rest)
    (hline : oneLine rest = u ++ terminator :: v) (hu : terminator ∉ u)
    (hslash : '/' ∉ oneLine rest) :
    (expand (keyword ++ rest) = .error .trailingText ∨
      expand (keyword ++ rest) = .error .extraTerminator) ↔ v ≠ [] := by
  rw [expand_eq_error_iff rfl, expand_eq_error_iff rfl, statementBody_keyword hterm, if_neg hslash,
    hline]
  by_cases hv : v = []
  · subst hv
    have hlast : (u ++ [terminator]).getLast? = some terminator := by simp
    have hdrop : (u ++ [terminator]).dropLast = u := List.dropLast_concat
    rw [if_neg (by simp), hdrop, if_neg hu]
    split <;> simp
  · have hdrop : (u ++ terminator :: v).dropLast = u ++ terminator :: v.dropLast := by
      rw [List.dropLast_append_of_ne_nil (List.cons_ne_nil _ _), List.dropLast_cons_of_ne_nil hv]
    have hmem : terminator ∈ (u ++ terminator :: v).dropLast := by simp [hdrop]
    rw [if_pos hmem]
    split <;> simp [hv]

/-- A slash outside of comments is what is reported first. -/
theorem expand_of_slash {rest : Text} (hterm : terminator ∈ rest) (hslash : '/' ∈ oneLine rest) :
    expand (keyword ++ rest) = .error .straySlash := by
  rw [expand_eq_error_iff rfl, statementBody_keyword hterm, if_pos hslash]

theorem expand_keyword_ne {rest : Text} (hterm : terminator ∈ rest) :
    expand (keyword ++ rest) ≠ .error .missingKeyword ∧
      expand (keyword ++ rest) ≠ .error .missingTerminator := by
  rw [ne_eq, ne_eq, expand_eq_error_iff rfl, expand_eq_error_iff rfl, statementBody_keyword hterm]
  -- none of the later checks answers one of the two
  constructor <;> (repeat' split) <;> simp

/-- The last line of an unfinished statement is the terminator that was added. -/
theorem Statement.Delimited.behindTerminator_of_unfinished {s : Statement} (h : s.Delimited)
    (hs : s.unfinished = true) : behindTerminator (lastLine s.text) = [] := by
  obtain ⟨t, ht⟩ := h.added hs
  have hnot : '\n' ∉ [terminator] := by decide
  have hsplits : s.text.splitOn '\n' = t.splitOn '\n' ++ [[terminator]] := by
    rw [← ht, List.splitOn_append_cons_self, List.splitOn_eq_singleton hnot]
  rw [lastLine_of_splitOn hsplits]
  exact behindTerminator_of_split (splitTerminator?_terminator [])

/-- **Agreement**: no statement of a source lacks its keyword or its terminator; behind the
terminator of an unfinished one nothing is found, and behind that of another one without visible
slashes just what stands there on its last line, outside of a comment. -/
theorem expand_of_mem_ofSource {source : Text} {s : Statement}
    (hs : s ∈ Statement.ofSource source) :
    expand s.text ≠ .error .missingKeyword ∧ expand s.text ≠ .error .missingTerminator ∧
      (s.unfinished = true →
        expand s.text ≠ .error .trailingText ∧ expand s.text ≠ .error .extraTerminator) ∧
      (s.unfinished = false → '/' ∉ visible s.text →
        ((expand s.text = .error .trailingText ∨ expand s.text = .error .extraTerminator) ↔
          ∃ c ∈ uncommented (behindTerminator (lastLine s.text)), isBlank c = false)) := by
  have hd := delimited_of_mem_ofSource hs
  obtain ⟨rest, u, htext, hterm, hu, hvisible, hline⟩ := hd.exists_oneLine_eq
  obtain ⟨hkeyword, hterminator⟩ := expand_keyword_ne hterm
  rw [← htext] at hkeyword hterminator
  refine ⟨hkeyword, hterminator, fun hunfinished => ?_, fun _ hslash => ?_⟩
  · by_cases hslash : '/' ∈ oneLine rest
    · rw [htext, expand_of_slash hterm hslash]
      simp
    · rw [hd.behindTerminator_of_unfinished hunfinished] at hline
      have hends := reports_end_iff hterm hline hu hslash
      rw [← htext] at hends
      simpa [uncommented, tidy] using hends
  · rw [htext, reports_end_iff hterm hline hu (hvisible hslash), ← htext, ne_eq, tidy_eq_nil_iff]
    simp [isAllBlank]

theorem expand_of_mem_ofSource_trailing :
    let source := "use a; b // c\nuse d".toList
    let first : Statement := ⟨1, "use a; b // c".toList, false⟩
    let second : Statement := ⟨2, "use d\n;".toList, true⟩
    first ∈ Statement.ofSource source ∧ '/' ∉ visible first.text ∧
      ((expand first.text = .error .trailingText ∨ expand first.text = .error .extraTerminator) ↔
        ∃ c ∈ uncommented (behindTerminator (lastLine first.text)), isBlank c = false) ∧
      second ∈ Statement.ofSource source ∧
      expand second.text ≠ .error .trailingText ∧ expand second.text ≠ .error .extraTerminator := by
  intro source first second
  have hfirst : first ∈ Statement.ofSource source := by decide +kernel
  have hsecond : second ∈ Statement.ofSource source := by decide +kernel
  have hslash : '/' ∉ visible first.text := by decide
  exact ⟨hfirst, hslash, (expand_of_mem_ofSource hfirst).2.2.2 rfl hslash, hsecond,
    (expand_of_mem_ofSource hsecond).2.2.1 rfl⟩

end ImportWatch
