import ImportWatch.Expansion
import Mathlib.Data.List.Basic

/-!
# ImportWatch.Proofs.OneLine

How a text is written on one line, character by character.

* `visible` is a text without its line comments, and the words outside of
  comments are its words (`visibleWords_eq`);
* `tidy` writes a text on one line in a single pass; it remembers the last
  character written and whether blanks were passed since;
* `oneLine_eq_tidy`: the two together are `oneLine`;
* `filter_tidy` says what is kept;
* `remembered` is all that matters of a text for what is written behind it
  (`tidy_append`), and `tidy_append_closer` says where a line may be cut in two;
* `statementBody_eq_ok_iff` says which texts have the shape of a statement.
-/

namespace ImportWatch

open Text

/-! ## comments -/

/-- A text without its line comments. -/
def visible (s : Text) : Text := List.intercalate ['\n'] ((s.splitOn '\n').map uncommented)

theorem uncommented_cons {c : Char} (h : c ≠ '/') (s : Text) :
    uncommented (c :: s) = c :: uncommented s := by
  rw [uncommented]
  intro t hc
  exact absurd hc h

/-- A character at the end of a line either belongs to its comment or not. -/
theorem uncommented_concat {c : Char} (h : c ≠ '/') (s : Text) :
    uncommented (s ++ [c]) = uncommented s ∨ uncommented (s ++ [c]) = uncommented s ++ [c] := by
  fun_induction uncommented s with
  | case1 => exact .inr (uncommented_cons h [])
  | case2 s => exact .inl rfl
  | case3 d s hd ih =>
      have hcons : uncommented (d :: s ++ [c]) = d :: uncommented (s ++ [c]) := by
        rw [List.cons_append, uncommented]
        rintro t rfl ht
        cases s with
        | nil => simp_all
        | cons e s => exact hd s rfl (by simp_all)
      rw [hcons]
      exact ih.imp (congrArg (d :: ·)) (congrArg (d :: ·))

theorem isPrefix_uncommented (s : Text) : uncommented s <+: s := by
  fun_induction uncommented s with
  | case1 => exact List.prefix_rfl
  | case2 s => exact List.nil_prefix
  | case3 c s _ ih => exact List.cons_prefix_cons.2 ⟨rfl, ih⟩

theorem visible_sublist (s : Text) : (visible s).Sublist s := by
  have hpieces (ps : List Text) : (List.intercalate ['\n'] (ps.map uncommented)).Sublist
      (List.intercalate ['\n'] ps) := by
    induction ps with
    | nil => exact List.Sublist.refl _
    | cons p ps ih =>
        cases ps with
        | nil => simpa using (isPrefix_uncommented p).sublist
        | cons q qs =>
            simp only [List.map_cons, List.intercalate_cons_cons] at ih ⊢
            exact ((isPrefix_uncommented p).sublist.append_right ['\n']).append ih
  have h := hpieces (s.splitOn '\n')
  rwa [List.intercalate_splitOn] at h

theorem visible_cons {c : Char} (h : c ≠ '/') (s : Text) : visible (c :: s) = c :: visible s := by
  have hne := List.splitOn_ne_nil '\n' s
  obtain ⟨p, ps, hps⟩ := List.exists_cons_of_ne_nil hne
  rw [visible, visible, List.splitOn_cons_eq_if_modifyHead, hps]
  by_cases hc : c = '\n'
  · simp [hc, uncommented, List.intercalate_cons_cons]
  · rw [if_neg (by simpa using hc), List.modifyHead_cons, List.map_cons, List.map_cons,
      uncommented_cons h]
    cases ps with
    | nil => simp
    | cons q qs => simp [List.intercalate_cons_cons]

theorem splitOn_newline_append {s : Text} (h : '\n' ∉ s) (t : Text) :
    (s ++ '\n' :: t).splitOn '\n' = s :: t.splitOn '\n' := by
  rw [List.splitOn_append_cons_self_of_not_mem h]

theorem visible_of_newline_notMem {s : Text} (h : '\n' ∉ s) : visible s = uncommented s := by
  rw [visible, List.splitOn_eq_singleton h]
  simp

/-- The comment of the first line says nothing about the lines behind it. -/
theorem visible_line {l : Text} (h : '\n' ∉ l) (s : Text) :
    visible (l ++ '\n' :: s) = uncommented l ++ '\n' :: visible s := by
  obtain ⟨p, ps, hps⟩ := List.exists_cons_of_ne_nil (List.splitOn_ne_nil '\n' s)
  rw [visible, visible, splitOn_newline_append h, hps]
  simp [List.intercalate_cons_cons]

theorem visible_comment {s : Text} (h : '\n' ∉ s) (t : Text) :
    visible ('/' :: '/' :: (s ++ '\n' :: t)) = '\n' :: visible t := by
  have hs : '\n' ∉ '/' :: '/' :: s := by simpa using h
  have hline := visible_line hs t
  rwa [List.cons_append, List.cons_append, uncommented, List.nil_append] at hline

theorem visible_comment_end {s : Text} (h : '\n' ∉ s) : visible ('/' :: '/' :: s) = [] := by
  have hs : '\n' ∉ '/' :: '/' :: s := by simpa using h
  rw [visible_of_newline_notMem hs, uncommented]

theorem visible_of_notMem {s : Text} (h : '/' ∉ s) : visible s = s := by
  induction s with
  | nil => rfl
  | cons c s ih =>
      obtain ⟨hc, hs⟩ := not_or.1 (mt List.mem_cons.2 h)
      rw [visible_cons (Ne.symm hc), ih hs]

theorem words_append_blank (s : Text) {c : Char} (h : isBlank c = true) :
    words (s ++ [c]) = words s := by
  rw [words_append_cons s [] h, words_nil, List.append_nil]

theorem words_uncommented_dropCarriageReturn (line : Text) :
    words (uncommented (dropCarriageReturn line)) = words (uncommented line) := by
  rw [dropCarriageReturn]
  split
  · rename_i h
    obtain ⟨s, rfl⟩ := List.getLast?_eq_some_iff.1 h
    rw [List.dropLast_concat]
    cases uncommented_concat (c := '\r') (by decide) s with
    | inl hs => rw [hs]
    | inr hs => rw [hs, words_append_blank _ rfl]
  · rfl

theorem words_intercalate_newline (ls : List Text) :
    words (List.intercalate ['\n'] ls) = ls.flatMap words := by
  induction ls with
  | nil => rfl
  | cons l ls ih =>
      cases ls with
      | nil => simp
      | cons m ms =>
          rw [List.intercalate_cons_cons, List.append_assoc, List.singleton_append,
            words_append_cons l _ isBlank_newline, ih]
          rfl

theorem flatMap_linesOfPieces (ps : List Text) :
    (linesOfPieces ps).flatMap (fun l => words (uncommented l)) =
      ps.flatMap fun l => words (uncommented l) := by
  induction ps with
  | nil => rfl
  | cons p ps ih =>
      cases ps with
      | nil => cases p <;> simp [linesOfPieces, uncommented]
      | cons q qs =>
          rw [linesOfPieces, List.flatMap_cons, ih, words_uncommented_dropCarriageReturn]
          rfl

theorem visibleWords_eq (s : Text) : visibleWords s = words (visible s) := by
  rw [visibleWords, lines, flatMap_linesOfPieces, visible, words_intercalate_newline,
    List.flatMap_map]

/-! ## gaps -/

/-- The space, if any, that stands before `c` when blanks were passed since the
last character was written. -/
def joint (last : Option Char) (gap : Bool) (c : Char) : Text :=
  if gap && last.any (fun d => !closesGapAfter d) && !closesGapBefore c then [' '] else []

/-- A text on one line, given the last character that was written before it and
whether blanks were passed since. -/
def tidy : (last : Option Char) → (gap : Bool) → Text → Text
  | _, _, [] => []
  | last, gap, c :: s =>
    if isBlank c then tidy last true s else joint last gap c ++ c :: tidy (some c) false s

theorem tidy_blank (last : Option Char) (gap : Bool) {c : Char} (h : isBlank c = true) (s : Text) :
    tidy last gap (c :: s) = tidy last true s := by
  rw [tidy, if_pos h]

theorem tidy_plain (last : Option Char) (gap : Bool) {c : Char} (h : isBlank c = false) (s : Text) :
    tidy last gap (c :: s) = joint last gap c ++ c :: tidy (some c) false s := by
  rw [tidy, if_neg (by simp [h])]

@[simp] theorem joint_none (gap : Bool) (c : Char) : joint none gap c = [] := by
  simp [joint]

@[simp] theorem joint_false (last : Option Char) (c : Char) : joint last false c = [] := by
  simp [joint]

theorem joint_of_closer {c : Char} (h : closesGapBefore c = true) (last : Option Char)
    (gap : Bool) : joint last gap c = [] := by
  rw [joint, h, Bool.not_true, Bool.and_false]
  rfl

theorem tidy_none (gap : Bool) (s : Text) : tidy none gap s = tidy none false s := by
  cases s with
  | nil => rfl
  | cons c s => simp [tidy]

theorem joint_eq_of_adjoins {w : Text} {d : Char} (h : w.getLast? = some d) (c : Char) (s : Text) :
    (if adjoins w (c :: s) then [] else [' ']) = joint (some d) true c := by
  cases hd : closesGapAfter d <;> cases hc : closesGapBefore c <;> simp [adjoins, joint, h, hd, hc]

theorem words_cons_blank {c : Char} (h : isBlank c = true) (s : Text) :
    words (c :: s) = words s := by
  simpa using words_append_cons [] s h

theorem words_of_plain {w : Text} (hne : w ≠ []) (h : ∀ c ∈ w, isBlank c = false) :
    words w = [w] := by
  rw [words, List.splitOnP_eq_singleton h]
  simp [hne]

theorem exists_words_cons {c : Char} (h : isBlank c = false) (s : Text) :
    ∃ w ws, words (c :: s) = (c :: w) :: ws := by
  obtain ⟨p, ps, hps⟩ := List.exists_cons_of_ne_nil (List.splitOnP_ne_nil isBlank s)
  refine ⟨p, ps.filter fun w => !w.isEmpty, ?_⟩
  rw [words, List.splitOnP_cons_eq_if_modifyHead, if_neg (by simp [h]), hps]
  simp

/-- What is written behind a word: with a gap the next word follows, without
one the word goes on. -/
theorem append_tidy (s : Text) :
    (∀ (w : Text) (d : Char), w.getLast? = some d →
      w ++ tidy (some d) true s = glue (w :: words s)) ∧
    (∀ (w : Text) (d : Char), w.getLast? = some d → (∀ c ∈ w, isBlank c = false) →
      w ++ tidy (some d) false s = glue (words (w ++ s))) := by
  induction s with
  | nil =>
      refine ⟨fun w d _ => by simp [tidy, glue], fun w d hd hw => ?_⟩
      have hne : w ≠ [] := by
        rintro rfl
        simp at hd
      rw [List.append_nil, words_of_plain hne hw, tidy, List.append_nil, glue]
  | cons c s ih =>
      obtain ⟨ihgap, ihword⟩ := ih
      cases hc : isBlank c with
      | true =>
          constructor
          · intro w d hd
            rw [tidy_blank _ _ hc, words_cons_blank hc, ihgap w d hd]
          · intro w d hd hw
            have hne : w ≠ [] := by
              rintro rfl
              simp at hd
            rw [tidy_blank _ _ hc, words_append_cons w s hc, words_of_plain hne hw, ihgap w d hd,
              List.singleton_append]
      | false =>
          constructor
          · intro w d hd
            obtain ⟨v, vs, hv⟩ := exists_words_cons hc s
            have hnext := ihword [c] c rfl (by simpa using hc)
            rw [List.singleton_append, List.singleton_append, hv] at hnext
            rw [tidy_plain _ _ hc, hnext, hv, glue, joint_eq_of_adjoins hd]
          · intro w d hd hw
            have hwc : ∀ e ∈ w ++ [c], isBlank e = false := by
              intro e he
              cases List.mem_append.1 he with
              | inl he => exact hw e he
              | inr he =>
                  rw [List.mem_singleton.1 he]
                  exact hc
            have hnext := ihword (w ++ [c]) c (by simp) hwc
            rw [tidy_plain _ _ hc, joint_false, List.nil_append]
            simpa using hnext

theorem glue_words (s : Text) : glue (words s) = tidy none false s := by
  induction s with
  | nil => rfl
  | cons c s ih =>
      cases hc : isBlank c with
      | true => rw [words_cons_blank hc, ih, tidy_blank _ _ hc, tidy_none true]
      | false =>
          have := (append_tidy s).2 [c] c rfl (by simpa using hc)
          rw [tidy_plain _ _ hc, joint_none, List.nil_append]
          simpa using this.symm

/-- Writing on one line is a single pass over the text without its comments. -/
theorem oneLine_eq_tidy (s : Text) : oneLine s = tidy none false (visible s) := by
  rw [oneLine, visibleWords_eq, glue_words]

/-! ## what is written and what is not -/

/-- Nothing but blanks is dropped and nothing but spaces is added. -/
theorem filter_tidy (last : Option Char) (gap : Bool) (s : Text) :
    (tidy last gap s).filter (fun c => !isBlank c) = s.filter fun c => !isBlank c := by
  induction s generalizing last gap with
  | nil => rfl
  | cons c s ih =>
      cases hc : isBlank c with
      | true => simp [tidy_blank last gap hc, ih, hc]
      | false =>
          have hjoint : (joint last gap c).filter (fun c => !isBlank c) = [] := by
            rw [joint]
            split <;> rfl
          simp [tidy_plain last gap hc, hjoint, ih, hc]

theorem mem_tidy_iff {c : Char} (hc : isBlank c = false) (last : Option Char) (gap : Bool)
    (s : Text) : c ∈ tidy last gap s ↔ c ∈ s := by
  have hfilter := filter_tidy last gap s
  have hmem (t : Text) : c ∈ t ↔ c ∈ t.filter fun c => !isBlank c := by simp [hc]
  rw [hmem, hfilter, ← hmem]

/-- The only blanks on one line are spaces. -/
theorem eq_space_of_mem_tidy {c : Char} (hc : isBlank c = true) {last : Option Char} {gap : Bool}
    {s : Text} (h : c ∈ tidy last gap s) : c = ' ' := by
  induction s generalizing last gap with
  | nil => cases h
  | cons d s ih =>
      cases hd : isBlank d with
      | true =>
          rw [tidy_blank last gap hd] at h
          exact ih h
      | false =>
          rw [tidy_plain last gap hd, List.mem_append, List.mem_cons] at h
          rcases h with h | rfl | h
          · rw [joint] at h
            split at h
            · exact List.mem_singleton.1 h
            · cases h
          · rw [hc] at hd
            cases hd
          · exact ih h

theorem tidy_of_isAllBlank {s : Text} (h : isAllBlank s = true) (last : Option Char) (gap : Bool) :
    tidy last gap s = [] := by
  induction s generalizing gap with
  | nil => rfl
  | cons c s ih =>
      rw [isAllBlank, List.all_cons, Bool.and_eq_true] at h
      rw [tidy_blank last gap h.1, ih h.2]

theorem tidy_eq_nil_iff (last : Option Char) (gap : Bool) (s : Text) :
    tidy last gap s = [] ↔ isAllBlank s = true := by
  refine ⟨fun h => ?_, fun h => tidy_of_isAllBlank h last gap⟩
  have hfilter := filter_tidy last gap s
  rw [h, List.filter_nil, eq_comm, List.filter_eq_nil_iff] at hfilter
  simpa [isAllBlank] using hfilter

/-! ## texts behind each other -/

/-- The last character that is written of a text and whether blanks are passed behind it, given
the same of what stands before the text. -/
def remembered (last : Option Char) (gap : Bool) (s : Text) : Option Char × Bool :=
  s.foldl (fun state c => if isBlank c then (state.1, true) else (some c, false)) (last, gap)

theorem remembered_cons_blank {c : Char} (h : isBlank c = true) (last : Option Char) (gap : Bool)
    (s : Text) : remembered last gap (c :: s) = remembered last true s := by
  rw [remembered, List.foldl_cons, if_pos h, remembered]

theorem remembered_cons_plain {c : Char} (h : isBlank c = false) (last : Option Char) (gap : Bool)
    (s : Text) : remembered last gap (c :: s) = remembered (some c) false s := by
  rw [remembered, List.foldl_cons, if_neg (by simp [h]), remembered]

/-- A text is written behind another one with what is remembered of that. -/
theorem tidy_append (last : Option Char) (gap : Bool) (s t : Text) :
    tidy last gap (s ++ t) =
      tidy last gap s ++ tidy (remembered last gap s).1 (remembered last gap s).2 t := by
  induction s generalizing last gap with
  | nil => rfl
  | cons c s ih =>
      cases hc : isBlank c with
      | true =>
          rw [List.cons_append, tidy_blank _ _ hc, tidy_blank _ _ hc, remembered_cons_blank hc, ih]
      | false =>
          rw [List.cons_append, tidy_plain _ _ hc, tidy_plain _ _ hc, remembered_cons_plain hc, ih,
            List.append_assoc, List.cons_append]

/-- Of a text with a last character, whether it is blank is remembered, and it itself if not. -/
theorem remembered_of_getLast? {s : Text} {c : Char} (h : s.getLast? = some c) (last : Option Char)
    (gap : Bool) :
    (isBlank c = true → (remembered last gap s).2 = true) ∧
      (isBlank c = false → remembered last gap s = (some c, false)) := by
  obtain ⟨t, rfl⟩ := List.getLast?_eq_some_iff.1 h
  rw [remembered, List.foldl_append, List.foldl_cons, List.foldl_nil]
  constructor
  · intro hc
    rw [if_pos hc]
  · intro hc
    rw [if_neg (by simp [hc])]

/-- A character that no space precedes cuts the line in two. -/
theorem tidy_append_closer {c : Char} (hblank : isBlank c = false) (hc : closesGapBefore c = true)
    (last : Option Char) (gap : Bool) (s t : Text) :
    tidy last gap (s ++ c :: t) = tidy last gap s ++ c :: tidy (some c) false t := by
  rw [tidy_append, tidy_plain _ _ hblank, joint_of_closer hc, List.nil_append]

/-! ## the shape of a statement -/

theorem statementBody_eq_ok_iff {text body : Text} :
    statementBody text = .ok body ↔
      ∃ rest, text = keyword ++ rest ∧ terminator ∈ rest ∧
        oneLine rest = body ++ [terminator] ∧ '/' ∉ body ∧ terminator ∉ body ∧
          isAllBlank body = false := by
  unfold statementBody
  cases hp : keyword.isPrefixOf? text with
  | none =>
      simp only [reduceCtorEq, false_iff]
      rintro ⟨rest, rfl, _⟩
      have := List.isPrefixOf?_eq_some_iff_append_eq.2 (rfl : keyword ++ rest = keyword ++ rest)
      rw [hp] at this
      cases this
  | some rest =>
      obtain rfl := List.isPrefixOf?_eq_some_iff_append_eq.1 hp
      constructor
      · intro h
        by_cases hterm : terminator ∈ rest
        · by_cases hslash : '/' ∈ oneLine rest
          · simp [hterm, hslash] at h
          · by_cases hend : (oneLine rest).getLast? = some terminator
            · obtain ⟨s, hs⟩ := List.getLast?_eq_some_iff.1 hend
              have hslash' : '/' ∉ s := fun hmem => hslash (hs ▸ List.mem_append_left _ hmem)
              have hne : '/' ≠ terminator := by decide
              by_cases hextra : terminator ∈ s
              · simp [hterm, hs, hslash', hne, hextra] at h
              · cases hblank : isAllBlank s with
                | true => simp [hterm, hs, hslash', hne, hextra, hblank] at h
                | false =>
                    obtain rfl : s = body := by
                      simpa [hterm, hs, hslash', hne, hextra, hblank] using h
                    exact ⟨rest, rfl, hterm, hs, hslash', hextra, hblank⟩
            · simp [hterm, hslash, hend] at h
        · simp [hterm] at h
      · rintro ⟨rest', hrest, hterm, hline, hslash, hbody, hblank⟩
        obtain rfl := List.append_cancel_left hrest
        have hslash' : '/' ∉ body ++ [terminator] := by simpa [terminator] using hslash
        simp [hterm, hline, hslash', hbody, hblank]

end ImportWatch
