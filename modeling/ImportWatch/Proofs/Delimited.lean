import ImportWatch.Proofs.ReaderSteps

/-!
# ImportWatch.Proofs.Delimited

How the text of a statement begins and ends.

* `splitTerminator?_ended` and `uncommented_of_splitTerminator?` say what stands
  on the two sides of the first terminator of a line;
* `Statement.Delimited` is what all statements of a source have in common, and
  `Draft.Awaits` and `Draft.Running` are its counterparts for a draft in front
  of a part of a line and for one behind a line;
* what one part of a line preserves (`delimited_of_readPart`) some lines do
  (`delimited_of_mem_readLines`), and so a whole source
  (`delimited_of_mem_ofSource`).
-/

namespace ImportWatch

open Text

/-! ## terminators -/

/-- What stands behind the line feeds of a text. -/
def lastLine (s : Text) : Text := (s.splitOn '\n').getLastD []

/-- What stands behind the first terminator of a line that is outside of its comment. -/
def behindTerminator (line : Text) : Text := ((splitTerminator? line).map Prod.snd).getD []

theorem lastLine_of_splitOn {s l : Text} {done : List Text} (h : s.splitOn '\n' = done ++ [l]) :
    lastLine s = l := by
  rw [lastLine, h]
  simp

theorem behindTerminator_of_split {line ended rest : Text}
    (h : splitTerminator? line = some (ended, rest)) : behindTerminator line = rest := by
  rw [behindTerminator, h]
  rfl

/-- A line is cut at the same place whatever stands behind it. -/
theorem splitTerminator?_ended {line ended rest : Text}
    (h : splitTerminator? line = some (ended, rest)) (t : Text) :
    splitTerminator? (ended ++ t) = some (ended, t) := by
  fun_induction splitTerminator? line generalizing ended with
  | case1 => cases h
  | case2 => cases h
  | case3 s _ =>
      simp only [Option.some.injEq, Prod.mk.injEq] at h
      obtain ⟨rfl, rfl⟩ := h
      exact splitTerminator?_terminator t
  | case4 c s hcomment hc ih =>
      simp only [Option.map_eq_some_iff, Prod.exists, Prod.mk.injEq] at h
      obtain ⟨a, b, hab, rfl, rfl⟩ := h
      have hnext := ih hab
      rw [List.cons_append, splitTerminator?, if_neg hc, hnext]
      · rfl
      · rintro u rfl hu
        obtain ⟨rfl, hne⟩ := append_of_splitTerminator? hab
        obtain ⟨d, a, rfl⟩ := List.exists_cons_of_ne_nil hne
        simp only [List.cons_append, List.cons.injEq] at hu
        exact hcomment (a ++ b) rfl (by rw [hu.1]; rfl)

/-- Outside of its comment a line holds what is cut off and what is visible behind it. -/
theorem uncommented_of_splitTerminator? {line ended rest : Text}
    (h : splitTerminator? line = some (ended, rest)) :
    ∃ e, terminator ∉ e ∧ ended = e ++ [terminator] ∧
      uncommented line = e ++ terminator :: uncommented rest := by
  fun_induction splitTerminator? line generalizing ended with
  | case1 => cases h
  | case2 => cases h
  | case3 s hcomment =>
      simp only [Option.some.injEq, Prod.mk.injEq] at h
      obtain ⟨rfl, rfl⟩ := h
      exact ⟨[], List.not_mem_nil, rfl, uncommented_cons (by decide) s⟩
  | case4 c s hcomment hc ih =>
      simp only [Option.map_eq_some_iff, Prod.exists, Prod.mk.injEq] at h
      obtain ⟨a, b, hab, rfl, rfl⟩ := h
      obtain ⟨e, he, rfl, hvisible⟩ := ih hab
      refine ⟨c :: e, ?_, rfl, ?_⟩
      · simp [he, Ne.symm hc]
      · rw [uncommented, hvisible]
        · rfl
        · exact hcomment

theorem terminator_mem_of_split {line ended rest : Text}
    (h : splitTerminator? line = some (ended, rest)) : terminator ∈ ended := by
  obtain ⟨e, _, rfl, _⟩ := uncommented_of_splitTerminator? h
  exact List.mem_concat_self

/-- A text that starts a statement does so before its first terminator. -/
theorem startsStatement_of_append {s t : Text} (h : startsStatement (s ++ t) = true)
    (hs : terminator ∈ s) : startsStatement s = true := by
  have hkeyword : keyword <+: s ++ t := List.isPrefixOf_iff_prefix.1 h
  rcases List.prefix_or_prefix_of_prefix hkeyword (List.prefix_append s t) with hpre | hpre
  · exact List.isPrefixOf_iff_prefix.2 hpre
  · exact absurd (hpre.subset hs) (by decide)

/-! ## the text of a statement -/

/-- How the text of a statement begins and ends. -/
structure Statement.Delimited (s : Statement) : Prop where
  /-- It begins with the keyword. -/
  starts : startsStatement s.text = true
  /-- No line but the last one has a terminator outside of its comment. -/
  running : ∀ l ∈ (s.text.splitOn '\n').dropLast, isTerminated l = false
  /-- The last one has. -/
  stops : isTerminated (lastLine s.text) = true
  /-- No other statement follows the terminator. -/
  alone : startsStatement (trimStart (behindTerminator (lastLine s.text))) = false
  /-- The terminator of an unfinished statement stands by itself. -/
  added : s.unfinished = true → ['\n', terminator] <:+ s.text

/-- What a draft is in front of a part of a line, with the lines `done` in it. -/
structure Draft.Awaits (d : Draft) (part : Text) (done : List Text) : Prop where
  splits : ∀ t, '\n' ∉ t → (d.text ++ t).splitOn '\n' = done ++ [t]
  running : ∀ l ∈ done, isTerminated l = false
  starts : startsStatement (d.text ++ part) = true
  newline_notMem : '\n' ∉ part

/-- What a draft is that is left open behind a line. -/
structure Draft.Running (d : Draft) : Prop where
  starts : startsStatement d.text = true
  running : ∀ l ∈ d.text.splitOn '\n', isTerminated l = false

theorem Draft.awaits_start {n : Nat} {part : Text} (hs : startsStatement part = true)
    (hline : '\n' ∉ part) : (⟨n, []⟩ : Draft).Awaits part [] where
  splits _ ht := List.splitOn_eq_singleton ht
  running _ hl := absurd hl List.not_mem_nil
  starts := hs
  newline_notMem := hline

theorem Draft.Running.awaits {d : Draft} (h : d.Running) {line : Text} (hline : '\n' ∉ line) :
    ({ d with text := d.text ++ ['\n'] } : Draft).Awaits line (d.text.splitOn '\n') where
  splits t ht := by
    rw [List.append_assoc, List.singleton_append, List.splitOn_append_cons_self,
      List.splitOn_eq_singleton ht]
  running := h.running
  starts := by
    have hstarts := List.isPrefixOf_iff_prefix.1 h.starts
    rw [List.append_assoc]
    exact List.isPrefixOf_iff_prefix.2 (hstarts.trans (List.prefix_append _ _))
  newline_notMem := hline

/-- The statement that a draft becomes with the part of a line that ends it. -/
theorem Draft.Awaits.delimited {d : Draft} {part ended rest : Text} {done : List Text}
    (h : d.Awaits part done) (hsplit : splitTerminator? part = some (ended, rest))
    (hs : startsStatement (trimStart rest) = false) :
    (⟨d.line, d.text ++ part, false⟩ : Statement).Delimited where
  starts := h.starts
  running := by
    rw [h.splits part h.newline_notMem, List.dropLast_concat]
    exact h.running
  stops := by
    rw [lastLine_of_splitOn (h.splits part h.newline_notMem), isTerminated, hsplit]
    rfl
  alone := by
    rw [lastLine_of_splitOn (h.splits part h.newline_notMem), behindTerminator_of_split hsplit, hs]
  added := fun hadded => by cases hadded

/-- A draft awaits the part up to the terminator as well. -/
theorem Draft.Awaits.ended {d : Draft} {part ended rest : Text} {done : List Text}
    (h : d.Awaits part done) (hsplit : splitTerminator? part = some (ended, rest)) :
    d.Awaits ended done where
  splits := h.splits
  running := h.running
  starts := by
    have hstarts := h.starts
    rw [(append_of_splitTerminator? hsplit).1, ← List.append_assoc] at hstarts
    exact startsStatement_of_append hstarts
      (List.mem_append_right _ (terminator_mem_of_split hsplit))
  newline_notMem := fun hmem => h.newline_notMem
    ((append_of_splitTerminator? hsplit).1 ▸ List.mem_append_left _ hmem)

/-- What the reader makes of one part of a line. -/
theorem delimited_of_readPart (n : Nat) {d : Draft} {part : Text} {done : List Text}
    (h : d.Awaits part done) :
    (∀ s ∈ (readPart n d part).1, s.Delimited) ∧ ∀ d' ∈ (readPart n d part).2, d'.Running := by
  -- a cut ends the lines in the draft, so the draft behind it awaits its part with none
  induction part using cutLine.induct generalizing d done with
  | case1 part hopen =>
      have hterm : isTerminated part = false := by rw [isTerminated, hopen]; rfl
      have hrunning : ({ d with text := d.text ++ part } : Draft).Running := by
        refine ⟨h.starts, fun l hl => ?_⟩
        rw [h.splits part h.newline_notMem, List.mem_append, List.mem_singleton] at hl
        exact hl.elim (h.running l) fun hl => hl ▸ hterm
      rw [readPart_open hopen]
      refine ⟨fun s hs => absurd hs List.not_mem_nil, fun d' hd' => ?_⟩
      cases hd'
      exact hrunning
  | case2 part ended rest hsplit hs _ _ _ ih =>
      have hrest : '\n' ∉ trimStart rest := fun hmem => h.newline_notMem <| by
        rw [(append_of_splitTerminator? hsplit).1]
        exact List.mem_append_right _ ((List.dropWhile_sublist _).subset hmem)
      obtain ⟨hmore, hleft⟩ := ih (Draft.awaits_start (n := n) hs hrest)
      have hsplit' := splitTerminator?_ended hsplit []
      rw [List.append_nil] at hsplit'
      rw [readPart_cut hsplit hs]
      refine ⟨fun s hs => ?_, hleft⟩
      rcases List.mem_cons.1 hs with rfl | hs
      · exact (h.ended hsplit).delimited hsplit' rfl
      · exact hmore s hs
  | case3 part ended rest hsplit hs =>
      have hs' : startsStatement (trimStart rest) = false := by simpa using hs
      rw [readPart_close hsplit hs']
      refine ⟨fun s hs => ?_, fun d' hd' => by cases hd'⟩
      rw [List.mem_singleton.1 hs]
      exact h.delimited hsplit hs'

/-- The statement that a draft becomes where the text ends. -/
theorem Draft.Running.delimited {d : Draft} (h : d.Running) : d.abandon.Delimited := by
  have hsplit : splitTerminator? [terminator] = some ([terminator], []) :=
    splitTerminator?_terminator []
  have hline : '\n' ∉ [terminator] := by decide
  have hstop := (h.awaits hline).delimited hsplit rfl
  have htext : d.text ++ ['\n'] ++ [terminator] = d.text ++ ['\n', terminator] := by simp
  rw [htext] at hstop
  exact ⟨hstop.starts, hstop.running, hstop.stops, hstop.alone, fun _ => List.suffix_append _ _⟩

/-- What the reader makes of some lines. -/
theorem delimited_of_mem_readLines {left : Option Draft} {n : Nat} {ls : List Text}
    (hleft : ∀ d ∈ left, d.Running) (hls : ∀ l ∈ ls, '\n' ∉ l) {s : Statement}
    (h : s ∈ readLines left n ls) : s.Delimited := by
  induction ls generalizing left n with
  | nil =>
      obtain ⟨d, hd, rfl⟩ : ∃ d ∈ left, d.abandon = s := by
        simpa [readLines] using h
      exact (hleft d hd).delimited
  | cons line ls ih =>
      obtain ⟨hline, hls⟩ := List.forall_mem_cons.1 hls
      have hread {d : Draft} {done : List Text} (hd : d.Awaits line done)
          (hs : s ∈ (readPart n d line).1 ++ readLines (readPart n d line).2 (n + 1) ls) :
          s.Delimited := by
        obtain ⟨hdone, hopen⟩ := delimited_of_readPart n hd
        exact (List.mem_append.1 hs).elim (hdone s) (ih hopen hls)
      cases left with
      | some d =>
          rw [readLines_behind] at h
          exact hread ((hleft d rfl).awaits hline) h
      | none =>
          cases hs : startsStatement line with
          | true =>
              rw [readLines_starting_line hs] at h
              exact hread (Draft.awaits_start hs hline) h
          | false =>
              rw [readLines_other hs] at h
              exact ih hleft hls h

/-- Every statement of a source is delimited. -/
theorem delimited_of_mem_ofSource {source : Text} {s : Statement}
    (h : s ∈ Statement.ofSource source) : s.Delimited :=
  delimited_of_mem_readLines (fun _ hd => by cases hd) (fun _ => newline_notMem_of_mem_lines) h

end ImportWatch
