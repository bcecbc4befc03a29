import ImportWatch.Proofs.CanonicalForm

/-!
# ImportWatch.Proofs.Flattening

What is written when a text is written on one line.

* `EndsAtComment` says what a line is without its comment, and
  `endsAtComment_uncommented` that the model cuts it there;
* `filter_oneLine`: apart from blanks, exactly what stands outside of comments
  is written, in order;
* `not_isInfix_tidy`: no comment mark comes about when blanks are dropped;
* `isFlattened_oneLine` puts this together with the characters that may stand
  beside each other.
-/

namespace ImportWatch

open Text

/-! ## comments -/

/-- The mark that starts a line comment. -/
def commentMark : Text := ['/', '/']

/-- True for the part of a line in front of its first comment mark. -/
def EndsAtComment (line part : Text) : Prop :=
  (part = line ∧ ¬ commentMark <:+: line) ∨
    ∃ comment, line = part ++ (commentMark ++ comment) ∧ ¬ commentMark <:+: part ++ ['/']

theorem not_isInfix_cons_iff {c : Char} {s : Text} :
    ¬ commentMark <:+: c :: s ↔ ¬ commentMark <:+: s ∧ (c = '/' → s.head? ≠ some '/') := by
  have hhead : commentMark <+: c :: s ↔ c = '/' ∧ s.head? = some '/' := by
    cases s <;> simp [commentMark, eq_comm]
  rw [List.infix_cons_iff, hhead]
  grind

theorem endsAtComment_uncommented (line : Text) : EndsAtComment line (uncommented line) := by
  fun_induction uncommented line with
  | case1 => exact .inl ⟨rfl, by simp [commentMark]⟩
  | case2 s => exact .inr ⟨s, rfl, by decide⟩
  | case3 c s hmark ih =>
      have hc : c = '/' → s.head? ≠ some '/' := by
        intro hc hs
        obtain ⟨t, rfl⟩ := List.head?_eq_some_iff.1 hs
        exact hmark t hc rfl
      cases ih with
      | inl ih =>
          rw [ih.1]
          exact .inl ⟨rfl, not_isInfix_cons_iff.2 ⟨ih.2, hc⟩⟩
      | inr ih =>
          obtain ⟨comment, hs, hpart⟩ := ih
          have hpart' : c = '/' → (uncommented s ++ ['/']).head? ≠ some '/' := by
            intro h
            have hs' := hc h
            rw [hs] at hs'
            simpa [commentMark] using hs'
          refine .inr ⟨comment, by rw [List.cons_append, ← hs], ?_⟩
          exact not_isInfix_cons_iff.2 ⟨hpart, hpart'⟩

theorem EndsAtComment.not_isInfix {line part : Text} (h : EndsAtComment line part) :
    ¬ commentMark <:+: part := by
  cases h with
  | inl h => exact h.1 ▸ h.2
  | inr h =>
      obtain ⟨_, _, hpart⟩ := h
      exact fun hmark => hpart (hmark.trans (List.prefix_append part ['/']).isInfix)

/-- Two lines have no comment mark across their end. -/
theorem not_isInfix_append_newline {s t : Text} (hs : ¬ commentMark <:+: s)
    (ht : ¬ commentMark <:+: t) : ¬ commentMark <:+: s ++ '\n' :: t := by
  induction s with
  | nil => exact not_isInfix_cons_iff.2 ⟨ht, by simp⟩
  | cons c s ih =>
      obtain ⟨hs, hc⟩ := not_isInfix_cons_iff.1 hs
      refine not_isInfix_cons_iff.2 ⟨ih hs, ?_⟩
      cases s with
      | nil => simp
      | cons d s => simpa using hc

/-- Outside of comments there is no comment mark. -/
theorem not_isInfix_visible (s : Text) : ¬ commentMark <:+: visible s := by
  rw [visible]
  induction s.splitOn '\n' with
  | nil => simp [commentMark]
  | cons p ps ih =>
      have hp := (endsAtComment_uncommented p).not_isInfix
      cases ps with
      | nil => simpa using hp
      | cons q qs =>
          rw [List.map_cons, List.map_cons, List.intercalate_cons_cons, List.append_assoc]
          exact not_isInfix_append_newline hp ih

/-! ## comment marks on one line -/

/-- Behind a slash a slash is written only where one stands. -/
theorem head?_tidy_slash {gap : Bool} {s : Text} (h : gap = true ∨ s.head? ≠ some '/') :
    (tidy (some '/') gap s).head? ≠ some '/' := by
  induction s generalizing gap with
  | nil => simp [tidy]
  | cons c s ih =>
      cases hc : isBlank c with
      | true =>
          rw [tidy_blank _ _ hc]
          exact ih (.inl rfl)
      | false =>
          rw [tidy_plain _ _ hc]
          cases gap with
          | false => simpa using h
          | true =>
              cases hclose : closesGapBefore c with
              | false => simp [joint, hclose, closesGapAfter]
              | true =>
                  rw [joint_of_closer hclose]
                  rintro ⟨rfl⟩
                  cases hclose

/-- No comment mark comes about when a text is written on one line. -/
theorem not_isInfix_tidy {s : Text} (h : ¬ commentMark <:+: s) (last : Option Char) (gap : Bool) :
    ¬ commentMark <:+: tidy last gap s := by
  induction s generalizing last gap with
  | nil => simp [tidy, commentMark]
  | cons c s ih =>
      obtain ⟨hs, hnext⟩ := not_isInfix_cons_iff.1 h
      cases hc : isBlank c with
      | true =>
          rw [tidy_blank _ _ hc]
          exact ih hs last true
      | false =>
          have hrest : ¬ commentMark <:+: c :: tidy (some c) false s := by
            refine not_isInfix_cons_iff.2 ⟨ih hs (some c) false, ?_⟩
            rintro rfl
            exact head?_tidy_slash (.inr (hnext rfl))
          rw [tidy_plain _ _ hc, joint]
          split
          · exact not_isInfix_cons_iff.2 ⟨hrest, by simp⟩
          · exact hrest

/-! ## blanks at the ends -/

/-- The last character on a line is not blank. -/
theorem isBlank_getLast_tidy (last : Option Char) (gap : Bool) (s : Text) :
    ∀ c ∈ (tidy last gap s).getLast?, isBlank c = false := by
  induction s generalizing last gap with
  | nil => simp [tidy]
  | cons d s ih =>
      cases hd : isBlank d with
      | true =>
          rw [tidy_blank _ _ hd]
          exact ih last true
      | false =>
          have hrest := ih (some d) false
          rw [tidy_plain _ _ hd, List.getLast?_append_of_ne_nil _ (List.cons_ne_nil d _)]
          cases htidy : tidy (some d) false s with
          | nil => simpa using hd
          | cons e t =>
              rw [htidy] at hrest
              rwa [List.getLast?_cons_cons]

/-! ## what is kept -/

/-- The words of a text are all that is not blank in it. -/
theorem flatten_words (s : Text) : (words s).flatten = s.filter fun c => !isBlank c := by
  rw [words, List.flatten_filter_not_isEmpty]
  induction s with
  | nil => rfl
  | cons c s ih =>
      obtain ⟨p, ps, hps⟩ := List.exists_cons_of_ne_nil (List.splitOnP_ne_nil isBlank s)
      rw [hps] at ih
      rw [List.splitOnP_cons_eq_if_modifyHead, hps]
      cases hc : isBlank c with
      | true => simp [hc, ← ih]
      | false => simp [hc, ← ih]

/-- Apart from blanks, what stands outside of comments is written, and nothing else. -/
theorem filter_oneLine (text : Text) :
    (oneLine text).filter (fun c => !isBlank c) =
      ((lines text).flatMap uncommented).filter fun c => !isBlank c := by
  have hwords : (visibleWords text).flatten =
      ((lines text).flatMap uncommented).filter fun c => !isBlank c := by
    rw [visibleWords, List.flatten_eq_flatMap, List.flatMap_assoc, List.filter_flatMap]
    simp only [← List.flatten_eq_flatMap, flatten_words]
  rw [oneLine_eq_tidy, filter_tidy, ← flatten_words, ← visibleWords_eq, hwords]

/-! ## flattened texts -/

/-- What a text is when it is written on one line. -/
structure IsFlattened (text line : Text) : Prop where
  /-- The only blanks are spaces, and they stand single and not at the ends. -/
  space : ∀ c ∈ line, isBlank c = true → c = ' '
  start : line.head? ≠ some ' '
  stop : line.getLast? ≠ some ' '
  single : ¬ [' ', ' '] <:+: line
  opener : ∀ c, c = '{' ∨ c = ':' → ¬ [c, ' '] <:+: line
  closer : ∀ c, c = '}' ∨ c = ',' ∨ c = ':' ∨ c = ';' → ¬ [' ', c] <:+: line
  comment : ¬ ['/', '/'] <:+: line
  /-- Nothing else of the lines is lost in front of their comments, and nothing is added. -/
  characters : ∃ parts, List.Forall₂ EndsAtComment (lines text) parts ∧
    line.filter (fun c => !isBlank c) = parts.flatten.filter fun c => !isBlank c

/-- **Flattening**: a text on one line has a normal form, and it keeps each character that is
neither blank nor in a comment. -/
theorem isFlattened_oneLine (text : Text) : IsFlattened text (oneLine text) := by
  have hpair := isChain_iff_forall_pair.1 (isChain_tidy (visible text))
  have hstart := isBlank_head_tidy false (visible text)
  have hstop := isBlank_getLast_tidy none false (visible text)
  have hcomment := not_isInfix_tidy (not_isInfix_visible text) none false
  have hspace {c : Char} (hc : isBlank c = true) (h : c ∈ tidy none false (visible text)) :
      c = ' ' := eq_space_of_mem_tidy hc h
  rw [← oneLine_eq_tidy] at hpair hstart hstop hcomment hspace
  constructor
  · exact fun c hc hblank => hspace hblank hc
  · intro h
    cases hstart ' ' h
  · intro h
    cases hstop ' ' h
  · intro h
    cases ((hpair _ _ h).behind rfl).2.1
  · intro c hc h
    have hclosed := ((hpair _ _ h).behind rfl).2.2
    rcases hc with rfl | rfl <;> cases hclosed
  · intro c hc h
    have hclosed := ((hpair _ _ h).before rfl).2.2
    rcases hc with rfl | rfl | rfl | rfl <;> cases hclosed
  · exact hcomment
  · refine ⟨(lines text).map uncommented, ?_, ?_⟩
    · rw [List.forall₂_map_right_iff, List.forall₂_same]
      exact fun line _ => endsAtComment_uncommented line
    · rw [filter_oneLine, List.flatMap_def]

example : oneLine " use a ::\x7b b , // c\n\td \x7d ;".toList = "use a::\x7bb, d\x7d;".toList := by
  decide

end ImportWatch
