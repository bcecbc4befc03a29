import ImportWatch.Proofs.PathParts

/-!
# ImportWatch.Proofs.PathPieces

The pieces that a path is read from.

* `trimmedPieces` are the pieces between the separators of a path, without the blanks around
  them; blanks at the ends of the path make no difference to them;
* `writtenSegments_eq`: the segments that are written are these pieces, less an empty one at the
  start and less the rename in the last one;
* `ModulePath.read_of_pieces` reads a path from its pieces;
* `splitPath_intercalate` finds the pieces that a path was put together from.
-/

namespace ImportWatch

open Text

/-! ## blanks around a text -/

namespace Text

theorem trimEnd_concat_of_isBlank {c : Char} (h : isBlank c = true) (s : Text) :
    trimEnd (s ++ [c]) = trimEnd s := by
  simp [trimEnd, trimStart_cons_of_isBlank h]

theorem trim_cons_of_isBlank {c : Char} (h : isBlank c = true) (s : Text) :
    trim (c :: s) = trim s := by
  rw [trim, trimStart_cons_of_isBlank h, trim]

theorem trim_concat_of_isBlank {c : Char} (h : isBlank c = true) (s : Text) :
    trim (s ++ [c]) = trim s := by
  induction s with
  | nil => rw [List.nil_append, trim_cons_of_isBlank h]
  | cons d s ih =>
      cases hd : isBlank d with
      | true => rw [List.cons_append, trim_cons_of_isBlank hd, trim_cons_of_isBlank hd, ih]
      | false =>
          rw [trim, trim, List.cons_append, trimStart_cons_of_not_isBlank hd,
            trimStart_cons_of_not_isBlank hd, ← List.cons_append, trimEnd_concat_of_isBlank h]

/-- Blanks in front of a text make no difference to what is left of it when it is trimmed. -/
theorem trim_blanks_append {w : Text} (h : isAllBlank w = true) (s : Text) :
    trim (w ++ s) = trim s := by
  induction w with
  | nil => rfl
  | cons c w ih =>
      rw [isAllBlank, List.all_cons, Bool.and_eq_true] at h
      rw [List.cons_append, trim_cons_of_isBlank h.1, ih h.2]

/-- Neither do blanks behind it. -/
theorem trim_append_blanks {w : Text} (h : isAllBlank w = true) (s : Text) :
    trim (s ++ w) = trim s := by
  induction w generalizing s with
  | nil => rw [List.append_nil]
  | cons c w ih =>
      rw [isAllBlank, List.all_cons, Bool.and_eq_true] at h
      rw [List.append_cons, ih h.2, trim_concat_of_isBlank h.1]

theorem trimEnd_append_blanks {w : Text} (h : isAllBlank w = true) (s : Text) :
    trimEnd (s ++ w) = trimEnd s := by
  rw [trimEnd, List.reverse_append, trimStart, List.dropWhile_append_of_pos, trimEnd, trimStart]
  intro c hc
  exact List.all_eq_true.1 h c (List.mem_reverse.1 hc)

theorem trimEnd_trim (s : Text) : trimEnd (trim s) = trim s := by
  by_cases h : trim s = []
  · rw [h, trimEnd_nil]
  · exact (isTrim_trim h).trimEnd_eq

end Text

/-- A rename mark behind blanks is found where it stands. -/
theorem withoutRename_blanks_append {w : Text} (h : isAllBlank w = true) (s : Text) :
    withoutRename (w ++ (renameMark ++ s)) = w := by
  induction w with
  | nil => rfl
  | cons c w ih =>
      rw [isAllBlank, List.all_cons, Bool.and_eq_true] at h
      rw [List.cons_append, withoutRename, ih h.2]
      rintro t rfl ht
      -- a mark that starts here would have a letter where there is a blank
      cases w with
      | nil => cases ht
      | cons d w =>
          obtain ⟨rfl, _⟩ := List.cons.inj ht
          simp [isBlank] at h

/-! ## pieces -/

/-- The pieces of a path between its separators, without the blanks around them. -/
def trimmedPieces (s : Text) : List Text := (splitPath s).map trim

theorem trimmedPieces_ne_nil (s : Text) : trimmedPieces s ≠ [] := by
  simp [trimmedPieces, splitPath_ne_nil]

theorem splitPath_cons {c : Char} (h : c ≠ ':') (s : Text) :
    splitPath (c :: s) = (splitPath s).modifyHead (c :: ·) := by
  rw [splitPath]
  rintro _ rfl
  exact absurd rfl h

theorem splitPath_concat {c : Char} (h : c ≠ ':') (s : Text) :
    splitPath (s ++ [c]) = ModulePath.mapLast (· ++ [c]) (splitPath s) := by
  fun_induction splitPath s with
  | case1 =>
      rw [List.nil_append, splitPath_cons h]
      rfl
  | case2 s ih =>
      obtain ⟨p, ps, hps⟩ := List.exists_cons_of_ne_nil (splitPath_ne_nil s)
      rw [List.cons_append, List.cons_append, splitPath, ih, hps]
      rfl
  | case3 d s hd ih =>
      have hsplit : splitPath (d :: s ++ [c]) = (splitPath (s ++ [c])).modifyHead (d :: ·) := by
        rw [List.cons_append, splitPath]
        rintro t rfl ht
        cases s with
        | nil => exact h (List.cons.inj ht).1
        | cons e s =>
            obtain ⟨rfl, _⟩ := List.cons.inj ht
            exact hd s rfl rfl
      obtain ⟨p, ps, hps⟩ := List.exists_cons_of_ne_nil (splitPath_ne_nil s)
      rw [hsplit, ih, hps]
      cases ps <;> rfl

theorem ne_colon_of_isBlank {c : Char} (h : isBlank c = true) : c ≠ ':' := by
  rintro rfl
  cases h

theorem trimmedPieces_cons_of_isBlank {c : Char} (h : isBlank c = true) (s : Text) :
    trimmedPieces (c :: s) = trimmedPieces s := by
  obtain ⟨p, ps, hps⟩ := List.exists_cons_of_ne_nil (splitPath_ne_nil s)
  rw [trimmedPieces, trimmedPieces, splitPath_cons (ne_colon_of_isBlank h), hps,
    List.modifyHead_cons, List.map_cons, List.map_cons, trim_cons_of_isBlank h]

theorem trimmedPieces_concat_of_isBlank {c : Char} (h : isBlank c = true) (s : Text) :
    trimmedPieces (s ++ [c]) = trimmedPieces s := by
  obtain ⟨ps, p, hps⟩ := (List.eq_nil_or_concat' (splitPath s)).resolve_left (splitPath_ne_nil s)
  rw [trimmedPieces, trimmedPieces, splitPath_concat (ne_colon_of_isBlank h), hps,
    ModulePath.mapLast_append, List.map_append, List.map_append, List.map_singleton,
    List.map_singleton, trim_concat_of_isBlank h]

/-- The pieces of a path are those of what is left of it when it is trimmed. -/
theorem trimmedPieces_trim (s : Text) : trimmedPieces (trim s) = trimmedPieces s := by
  have hstart : trimmedPieces (trimStart s) = trimmedPieces s := by
    induction s with
    | nil => rfl
    | cons c s ih =>
        cases hc : isBlank c with
        | true => rw [trimStart_cons_of_isBlank hc, ih, trimmedPieces_cons_of_isBlank hc]
        | false => rw [trimStart_cons_of_not_isBlank hc]
  have hstop (t : Text) : trimmedPieces (trimEnd t) = trimmedPieces t := by
    induction hn : t.length generalizing t with
    | zero => rw [List.length_eq_zero_iff.1 hn, trimEnd_nil]
    | succ n ih =>
        obtain ⟨u, c, rfl⟩ := (List.eq_nil_or_concat' t).resolve_left (by rintro rfl; cases hn)
        cases hc : isBlank c with
        | true =>
            rw [trimEnd_concat_of_isBlank hc, trimmedPieces_concat_of_isBlank hc]
            exact ih u (by simpa using hn)
        | false => rw [trimEnd_append_cons_of_not_isBlank hc, trimEnd_nil]
  rw [trim, hstop, hstart]

/-- Some pieces without an empty one in front of others. -/
def dropEmptyLead : List Text → List Text
  | [] :: s :: ss => s :: ss
  | ss => ss

theorem dropEmptyLead_nil_cons {ss : List Text} (h : ss ≠ []) : dropEmptyLead ([] :: ss) = ss := by
  cases ss with
  | nil => exact absurd rfl h
  | cons s ss => rfl

theorem dropEmptyLead_of_head? {ss : List Text} (h : ss.head? ≠ some []) :
    dropEmptyLead ss = ss := by
  rw [dropEmptyLead]
  rintro _ _ rfl
  exact h rfl

theorem dropEmptyLead_of_notMem {ss : List Text} (h : [] ∉ ss) : dropEmptyLead ss = ss :=
  dropEmptyLead_of_head? fun hhead => h (List.mem_of_head? hhead)

/-- A separator at the start of a path stands behind an empty piece. -/
theorem trimmedPieces_withoutLeadingSeparator (s : Text) :
    trimmedPieces (withoutLeadingSeparator (trim s)) = dropEmptyLead (trimmedPieces s) := by
  rw [← trimmedPieces_trim s]
  unfold withoutLeadingSeparator
  split
  · rename_i t ht
    rw [ht]
    exact (dropEmptyLead_nil_cons (trimmedPieces_ne_nil t)).symm
  · rename_i hlead
    cases htrim : trim s with
    | nil => rfl
    | cons c t =>
        have hc : isBlank c = false := by
          have hne : trim s ≠ [] := htrim ▸ List.cons_ne_nil c t
          exact (isTrim_trim hne).isBlank_head c (by rw [htrim]; rfl)
        have hsplit : splitPath (c :: t) = (splitPath t).modifyHead (c :: ·) := by
          rw [splitPath]
          rintro u rfl rfl
          exact hlead u htrim
        obtain ⟨p, ps, hps⟩ := List.exists_cons_of_ne_nil (splitPath_ne_nil t)
        have hfirst : trim (c :: p) ≠ [] := by
          rw [trim, trimStart_cons_of_not_isBlank hc, trimEnd_cons]
          simp [hc]
        rw [trimmedPieces, hsplit, hps, List.modifyHead_cons, List.map_cons,
          dropEmptyLead_of_head? (by simpa using hfirst)]

namespace ModulePath

/-- The segments that are written are the pieces of the text, less an empty one at the start and
less the rename in the last one. -/
theorem writtenSegments_eq (text : Text) :
    writtenSegments text =
      mapLast (fun s => trimEnd (withoutRename s)) (dropEmptyLead (trimmedPieces text)) := by
  rw [← trimmedPieces_withoutLeadingSeparator]
  rfl

theorem length_mapLast (f : Text → Text) (ss : List Text) : (mapLast f ss).length = ss.length := by
  rcases List.eq_nil_or_concat' ss with rfl | ⟨ts, t, rfl⟩
  · rfl
  · rw [mapLast_append, List.length_append, List.length_append]
    rfl

/-- The last segment that is written has no rename. -/
theorem not_infix_of_mem_getLast? {text s : Text} (h : s ∈ (writtenSegments text).getLast?) :
    ¬renameMark <:+: s := by
  rw [writtenSegments_eq] at h
  rcases List.eq_nil_or_concat' (dropEmptyLead (trimmedPieces text)) with hnil | ⟨ms, t, hpieces⟩
  · rw [hnil] at h
    cases h
  · rw [hpieces, mapLast_append, List.getLast?_concat] at h
    cases h
    exact fun hmark => not_infix_withoutRename t (hmark.trans (isPrefix_trimEnd _).isInfix)

/-- A `self` that is not dropped from the end is all there is. -/
theorem eq_of_dropFinalSelf_eq {ss : List Text} (h : dropFinalSelf ss = ss)
    (hlast : ss.getLast? = some selfSegment) : ss = [selfSegment] := by
  obtain ⟨ts, rfl⟩ := List.getLast?_eq_some_iff.1 hlast
  rw [dropFinalSelf_append] at h
  split at h
  · simp at h
  · rename_i hself
    simpa using hself

/-- A path is read from its pieces; the last of them may have a rename. -/
theorem read_of_pieces {text : Text} {ms : List Text} {s : Text}
    (h : dropEmptyLead (trimmedPieces text) = ms ++ [s]) (hms : [] ∉ ms)
    (hs : trimEnd (withoutRename s) ≠ []) :
    read text = .ok ⟨dropFinalSelf (ms ++ [trimEnd (withoutRename s)])⟩ := by
  have hwritten : writtenSegments text = ms ++ [trimEnd (withoutRename s)] := by
    rw [writtenSegments_eq, h, mapLast_append]
  have hnonempty : (ms ++ [trimEnd (withoutRename s)]).any List.isEmpty = false := by
    rw [List.any_eq_false]
    intro t ht hempty
    obtain rfl := List.isEmpty_iff.1 hempty
    rcases List.mem_append.1 ht with ht | ht
    · exact hms ht
    · exact hs (List.mem_singleton.1 ht).symm
  simp only [read, hwritten, hnonempty]
  rfl

end ModulePath

/-! ## putting pieces together -/

/-- Pieces without separators are found again when separators were put between them. -/
theorem splitPath_intercalate {ms : List Text} {s : Text}
    (hms : ∀ m ∈ ms, ¬pathSeparator <:+: m ∧ m.getLast? ≠ some ':') (hs : ¬pathSeparator <:+: s) :
    splitPath (pathSeparator.intercalate (ms ++ [s])) = ms ++ [s] := by
  induction ms with
  | nil => simpa using splitPath_eq_singleton hs
  | cons m ms ih =>
      obtain ⟨hm, hms⟩ := List.forall_mem_cons.1 hms
      obtain ⟨t, ts, hts⟩ : ∃ t ts, ms ++ [s] = t :: ts := List.exists_cons_of_ne_nil (by simp)
      rw [List.cons_append, hts, List.intercalate_cons_cons, List.append_assoc,
        splitPath_append_separator hm.1 hm.2, ← hts, ih hms]

/-- In particular when they have no colons. -/
theorem splitPath_intercalate_of_notMem {ss : List Text} (hne : ss ≠ [])
    (h : ∀ s ∈ ss, ':' ∉ s) : splitPath (pathSeparator.intercalate ss) = ss := by
  obtain ⟨ms, s, rfl⟩ := (List.eq_nil_or_concat' ss).resolve_left hne
  refine splitPath_intercalate (fun m hm => ⟨?_, fun hlast => ?_⟩) ?_
  · exact not_infix_of_colon_notMem (h m (List.mem_append_left [s] hm))
  · exact h m (List.mem_append_left [s] hm) (List.mem_of_getLast? hlast)
  · exact not_infix_of_colon_notMem (h s List.mem_concat_self)

end ImportWatch
