import ImportWatch.Proofs.Agreement
import ImportWatch.Proofs.ReaderSteps
import ImportWatch.Proofs.TreeLayout
import Mathlib.Logic.Relation

/-!
# ImportWatch.Proofs.Respacing

Statements with more blanks and line comments put into them.

* `IsLoose` are the places of a text where blanks make no difference, and `OutsideComments` those
  that no line comment stands before on their line;
* `EndsComments` are the texts up to such a place, and `EndsComments.visible_append` says that what
  is put behind them makes no difference to what is visible of them;
* `oneLine_insert_iff`: a gap outside of comments leaves no trace on one line at the loose places,
  and it does at all the others;
* `Loosens` puts one gap into a statement, and `expand_of_loosens` says that its expansion stays
  the same, accepted or rejected, whatever number of gaps is put into it.
-/

namespace ImportWatch

open Text

/-! ## places -/

/-- True for a place that no line comment starts before on its line. -/
def OutsideComments (before after : Text) : Prop :=
  ∀ u v, before ++ after = u ++ '/' :: '/' :: v → u.length < before.length →
    '\n' ∈ before.drop u.length

/-- True for a text that blanks may follow: it ends in one or in a mark that no space follows. -/
def EndsLoose (before : Text) : Prop :=
  ∃ c ∈ before.getLast?, isBlank c = true ∨ c = '{' ∨ c = ':'

/-- True for a text that blanks may precede: it is empty, or it starts with one or with a mark that
no space precedes. -/
def StartsLoose (after : Text) : Prop :=
  after = [] ∨
    ∃ c ∈ after.head?, isBlank c = true ∨ c = '}' ∨ c = ',' ∨ c = terminator ∨ c = ':'

/-- True for a place where blanks make no difference. -/
def IsLoose (before after : Text) : Prop := EndsLoose before ∨ StartsLoose after

theorem OutsideComments.of_append {u before after : Text}
    (h : OutsideComments (u ++ before) after) : OutsideComments before after := by
  intro v w hvw hlength
  have hmem := h (u ++ v) w (by rw [List.append_assoc, hvw, List.append_assoc])
    (by simpa using hlength)
  rwa [List.length_append, ← List.drop_drop, List.drop_left] at hmem

theorem OutsideComments.of_slash_notMem {before : Text} (h : '/' ∉ before) (after : Text) :
    OutsideComments before after := by
  intro u v huv hlength
  have hslash : (before ++ after)[u.length]? = some '/' := by
    rw [huv, List.getElem?_append_right (Nat.le_refl _), Nat.sub_self]
    rfl
  rw [List.getElem?_append_left hlength] at hslash
  exact absurd (List.mem_of_getElem? hslash) h

/-! ## what stands before a place -/

/-- True for a text that ends all of its line comments before another text follows it. -/
inductive EndsComments (after : Text) : Text → Prop
  | nil : EndsComments after []
  | char {c : Char} {s : Text} (hc : c ≠ '/') (hs : EndsComments after s) :
      EndsComments after (c :: s)
  | slash {s : Text} (hslash : (s ++ after).head? ≠ some '/') (hs : EndsComments after s) :
      EndsComments after ('/' :: s)
  | comment {words s : Text} (hwords : '\n' ∉ words) (hs : EndsComments after s) :
      EndsComments after ('/' :: '/' :: (words ++ '\n' :: s))

theorem endsComments_of_outsideComments {before after : Text} (h : OutsideComments before after) :
    EndsComments after before := by
  induction hn : before.length using Nat.strongRecOn generalizing before with
  | ind n ih =>
      cases before with
      | nil => exact .nil
      | cons c s =>
          have hrest : EndsComments after s :=
            ih s.length (by simp at hn; omega) (.of_append (u := [c]) h) rfl
          by_cases hc : c = '/'
          · subst hc
            by_cases hslash : (s ++ after).head? = some '/'
            · -- a comment starts here, and it ends where the text that is passed has a line feed
              obtain ⟨v, hv⟩ := List.head?_eq_some_iff.1 hslash
              have hmem := h [] v (by rw [List.cons_append, hv, List.nil_append]) (by simp)
              cases s with
              | nil => simp at hmem
              | cons d s =>
                  obtain ⟨rfl, _⟩ := List.cons.inj hv
                  have hline : '\n' ∈ s := by simpa using hmem
                  obtain ⟨words, t, rfl, hwords⟩ := List.eq_append_cons_of_mem hline
                  have hcut : '/' :: '/' :: (words ++ '\n' :: t) =
                      ('/' :: '/' :: (words ++ ['\n'])) ++ t := by simp
                  refine .comment hwords (ih t.length ?_ (.of_append (hcut ▸ h)) rfl)
                  simp at hn
                  omega
            · exact .slash hslash hrest
          · exact .char hc hrest

theorem uncommented_slash {s : Text} (h : s.head? ≠ some '/') :
    uncommented ('/' :: s) = '/' :: uncommented s := by
  rw [uncommented]
  rintro t _ rfl
  exact h rfl

theorem head?_ne_of_append {s t : Text} {c : Char} (h : (s ++ t).head? ≠ some c) :
    s.head? ≠ some c := by
  intro hs
  rw [List.head?_append, hs] at h
  exact h rfl

/-- A slash that no other one follows is no comment. -/
theorem visible_slash {s : Text} (h : s.head? ≠ some '/') :
    visible ('/' :: s) = '/' :: visible s := by
  rcases exists_first_line s with hs | ⟨l, t, hl, rfl⟩
  · have hs' : '\n' ∉ '/' :: s := by simpa using hs
    rw [visible_of_newline_notMem hs, visible_of_newline_notMem hs', uncommented_slash h]
  · have hl' : '\n' ∉ '/' :: l := by simpa using hl
    have hline := visible_line hl' t
    rw [uncommented_slash (head?_ne_of_append h), List.cons_append, List.cons_append] at hline
    rw [hline, visible_line hl]

namespace EndsComments

variable {before after : Text}

/-- What stands before the place is visible as it was, unless a comment starts right behind it. -/
theorem visible_append (h : EndsComments after before) {x : Text}
    (hx : x.head? = some '/' → after.head? = some '/') :
    visible (before ++ x) = visible before ++ visible x := by
  have hnil : visible [] = [] := rfl
  induction h with
  | nil => rw [hnil, List.nil_append, List.nil_append]
  | char hc _ ih => rw [List.cons_append, visible_cons hc, visible_cons hc, ih, List.cons_append]
  | @slash s hslash _ ih =>
      have hbehind : (s ++ x).head? ≠ some '/' := by
        cases s with
        | nil => exact fun hhead => hslash (hx hhead)
        | cons d s => simpa using hslash
      rw [List.cons_append, visible_slash hbehind, visible_slash (head?_ne_of_append hslash), ih,
        List.cons_append]
  | comment hwords _ ih =>
      rw [List.cons_append, List.cons_append, List.append_assoc, List.cons_append,
        visible_comment hwords, visible_comment hwords, ih, List.cons_append]

/-- The last character before the place is visible. -/
theorem getLast?_visible (h : EndsComments after before) :
    (visible before).getLast? = before.getLast? := by
  induction h with
  | nil => rfl
  | char hc _ ih => rw [visible_cons hc, List.getLast?_cons, List.getLast?_cons, ih]
  | slash hslash _ ih =>
      rw [visible_slash (head?_ne_of_append hslash), List.getLast?_cons, List.getLast?_cons, ih]
  | comment hwords _ ih =>
      rw [visible_comment hwords, List.getLast?_cons, ih]
      simp [List.getLast?_cons, List.getLast?_append]

end EndsComments

/-! ## gaps at loose places -/

/-- Behind a mark that no space follows, blanks make no difference. -/
theorem tidy_of_closesGapAfter {c : Char} (h : closesGapAfter c = true) (gap : Bool) (s : Text) :
    tidy (some c) gap s = tidy (some c) false s := by
  cases s with
  | nil => rfl
  | cons d s =>
      cases hd : isBlank d with
      | true => rw [tidy_blank _ _ hd, tidy_blank _ _ hd]
      | false =>
          rw [tidy_plain _ _ hd, tidy_plain _ _ hd, joint_of_closesGapAfter h,
            joint_of_closesGapAfter h]

theorem closesGapAfter_iff {c : Char} : closesGapAfter c = true ↔ c = '{' ∨ c = ':' := by
  simp [closesGapAfter]

theorem closesGapBefore_iff {c : Char} :
    closesGapBefore c = true ↔ c = '}' ∨ c = ',' ∨ c = terminator ∨ c = ':' := by
  grind [closesGapBefore]

/-- Between other characters a space is written for blanks. -/
theorem tidy_gap_ne {c d : Char} (hc : closesGapAfter c = false) (hd : isBlank d = false)
    (hcloses : closesGapBefore d = false) (s : Text) :
    tidy (some c) true (d :: s) ≠ tidy (some c) false (d :: s) := by
  have hspace : joint (some c) true d = [' '] := by simp [joint, hc, hcloses]
  rw [tidy_plain _ _ hd, tidy_plain _ _ hd, hspace, joint_false]
  intro h
  obtain ⟨rfl, _⟩ := List.cons.inj h
  cases hd

theorem StartsLoose.visible {after : Text} (h : StartsLoose after) :
    StartsLoose (visible after) := by
  rcases h with rfl | ⟨c, hc, hmark⟩
  · exact .inl rfl
  · obtain ⟨s, rfl⟩ := List.head?_eq_some_iff.1 hc
    have hslash : c ≠ '/' := by
      rintro rfl
      revert hmark
      decide
    rw [visible_cons hslash]
    exact .inr ⟨c, rfl, hmark⟩

theorem StartsLoose.tidy_eq {s : Text} (h : StartsLoose s) (last : Option Char) (gap : Bool) :
    tidy last true s = tidy last gap s := by
  rcases h with rfl | ⟨c, hc, hblank | hmark⟩
  · rfl
  · obtain ⟨t, rfl⟩ := List.head?_eq_some_iff.1 hc
    rw [tidy_blank _ _ hblank, tidy_blank _ _ hblank]
  · obtain ⟨t, rfl⟩ := List.head?_eq_some_iff.1 hc
    have hcloses := closesGapBefore_iff.2 hmark
    cases hblank : isBlank c with
    | true => rw [tidy_blank _ _ hblank, tidy_blank _ _ hblank]
    | false =>
        rw [tidy_plain _ _ hblank, tidy_plain _ _ hblank, joint_of_closer hcloses,
          joint_of_closer hcloses]

/-- Blanks behind a text make no difference to what is written behind it exactly when it or what
follows is loose. -/
theorem tidy_remembered_iff (before s : Text) :
    tidy (remembered none false before).1 true s =
        tidy (remembered none false before).1 (remembered none false before).2 s ↔
      before = [] ∨ EndsLoose before ∨ StartsLoose s := by
  by_cases hnil : before = []
  · subst hnil
    simp [remembered, tidy_none true s]
  obtain ⟨c, hlast⟩ := Option.ne_none_iff_exists'.1 (mt List.getLast?_eq_none_iff.1 hnil)
  obtain ⟨hblank, hplain⟩ := remembered_of_getLast? hlast none false
  cases hc : isBlank c with
  | true =>
      have hends : EndsLoose before := ⟨c, hlast, .inl hc⟩
      simp [hblank hc, hends]
  | false =>
      have hends : EndsLoose before ↔ closesGapAfter c = true := by
        simp [EndsLoose, hlast, hc, closesGapAfter_iff]
      rw [hplain hc]
      constructor
      · intro h
        by_contra hnot
        obtain ⟨hopen, hstarts⟩ := not_or.1 (not_or.1 hnot).2
        cases s with
        | nil => exact hstarts (.inl rfl)
        | cons d s =>
            have hd : isBlank d = false := by
              by_contra hd
              exact hstarts (.inr ⟨d, rfl, .inl (by simpa using hd)⟩)
            have hcloses : closesGapBefore d = false := by
              by_contra hcloses
              exact hstarts (.inr ⟨d, rfl, .inr (closesGapBefore_iff.1 (by simpa using hcloses))⟩)
            exact tidy_gap_ne (by simpa [hends] using hopen) hd hcloses s h
      · rintro (h | h | h)
        · exact absurd h hnil
        · exact tidy_of_closesGapAfter (hends.1 h) true s
        · exact h.tidy_eq (some c) false

/-- A gap leaves no trace on one line exactly when it is put at the start or at a loose place. -/
theorem oneLine_insert_iff {before after : Text} {c : Char} (hc : isBlank c = true) (g : Gap)
    (houtside : OutsideComments before after) :
    oneLine (before ++ c :: (g.text ++ after)) = oneLine (before ++ after) ↔
      before = [] ∨ EndsLoose before ∨ StartsLoose (visible after) := by
  have hends := endsComments_of_outsideComments houtside
  have hstart : (c :: (g.text ++ after)).head? = some '/' → after.head? = some '/' := by
    intro hslash
    obtain rfl : c = '/' := by simpa using hslash
    cases hc
  have hgap (last : Option Char) (gap : Bool) :
      laid last gap (c :: (g.text ++ after)) = tidy last true (visible after) := by
    rw [laid_blank hc, laid_gap, Bool.true_or, laid]
  have hline (x : Text) (hx : x.head? = some '/' → after.head? = some '/') :
      oneLine (before ++ x) = tidy none false (visible before) ++
        laid (remembered none false (visible before)).1 (remembered none false (visible before)).2
          x := by
    rw [oneLine_eq_tidy, hends.visible_append hx, tidy_append, laid]
  have hsame : visible before = [] ↔ before = [] := by
    rw [← List.getLast?_eq_none_iff, hends.getLast?_visible, List.getLast?_eq_none_iff]
  have hbefore : EndsLoose (visible before) ↔ EndsLoose before := by
    rw [EndsLoose, EndsLoose, hends.getLast?_visible]
  rw [hline _ hstart, hline after id, hgap, List.append_cancel_left_eq, laid, tidy_remembered_iff,
    hsame, hbefore]

/-! ## statements -/

/-- A gap put into a statement behind its keyword, outside of comments and at a loose place.  The
gap is a blank, and blanks and line comments behind it. -/
inductive Loosens : Text → Text → Prop
  | insert (before after : Text) (c : Char) (g : Gap) (hkeyword : keyword <+: before)
      (hstop : terminator ∈ before ++ after) (houtside : OutsideComments before after)
      (hloose : IsLoose before after) (hc : isBlank c = true) :
      Loosens (before ++ after) (before ++ c :: (g.text ++ after))

/-- Of a statement nothing matters but how it is written on one line. -/
theorem expand_congr {rest rest' : Text} (h : terminator ∈ rest) (h' : terminator ∈ rest')
    (hline : oneLine rest = oneLine rest') :
    expand (keyword ++ rest) = expand (keyword ++ rest') := by
  rw [expand, expand, statementBody_keyword h, statementBody_keyword h', hline]

/-- One gap makes no difference to the expansion. -/
theorem Loosens.expand_eq {text text' : Text} (h : Loosens text text') :
    expand text' = expand text := by
  cases h with
  | insert before after c g hkeyword hstop houtside hloose hc =>
      obtain ⟨before, rfl⟩ := hkeyword
      have hinner : before = [] ∨ EndsLoose before ∨ StartsLoose (visible after) := by
        by_cases hne : before = []
        · exact .inl hne
        · rw [IsLoose, EndsLoose, List.getLast?_append_of_ne_nil _ hne] at hloose
          exact .inr (hloose.imp_right StartsLoose.visible)
      have hrest : terminator ∈ before ++ after := by
        rw [List.append_assoc, List.mem_append] at hstop
        exact hstop.resolve_left (by decide)
      have hrest' : terminator ∈ before ++ c :: (g.text ++ after) := by
        simp only [List.mem_append, List.mem_cons] at hrest ⊢
        exact hrest.imp id fun hafter => .inr (.inr hafter)
      rw [List.append_assoc, List.append_assoc]
      exact expand_congr hrest' hrest ((oneLine_insert_iff hc g houtside.of_append).2 hinner)

/-- **Layout**: the expansion of a statement, be it paths or a rejection, stays the same however
many gaps are put into the statement. -/
theorem expand_of_loosens {text text' : Text} (h : Relation.ReflTransGen Loosens text text') :
    expand text' = expand text := by
  induction h with
  | refl => rfl
  | tail _ hstep ih => rw [hstep.expand_eq, ih]

theorem expand_of_loosens_spread :
    let text := "use a::\x7bb\x7d;".toList
    let text' := "use a:\n:\x7b // one; two\n  b\x7d;".toList
    Relation.ReflTransGen Loosens text text' ∧ expand text' = expand text ∧
      expand text = .ok ⟨text, [⟨["a".toList, "b".toList]⟩]⟩ := by
  intro text text'
  have hcomment : Loosens text "use a::\x7b // one; two\n  b\x7d;".toList :=
    .insert "use a::\x7b".toList "b\x7d;".toList ' '
      [.comment " one; two".toList (by decide), .blank ' ' rfl, .blank ' ' rfl] (by decide)
      (by decide) (.of_slash_notMem (by decide) _) (.inl ⟨'{', rfl, by decide⟩) rfl
  have hcolons : Loosens "use a::\x7b // one; two\n  b\x7d;".toList text' :=
    .insert "use a:".toList ":\x7b // one; two\n  b\x7d;".toList '\n' [] (by decide) (by decide)
      (.of_slash_notMem (by decide) _) (.inl ⟨':', rfl, by decide⟩) rfl
  have hsteps := (Relation.ReflTransGen.single hcomment).tail hcolons
  exact ⟨hsteps, expand_of_loosens hsteps, by decide⟩

end ImportWatch
