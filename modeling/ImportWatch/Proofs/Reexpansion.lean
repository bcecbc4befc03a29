import ImportWatch.Proofs.LineForm
import ImportWatch.Proofs.PathPieces
import Mathlib.Algebra.Ring.Nat

/-!
# ImportWatch.Proofs.Reexpansion

Expanding the text of a path that came out of an expansion.

A path that is written out and read again goes through the rules for blanks, separators, renames
and `self` a second time, and each of them may apply to what the first pass left or put together.

* `Beside` are the pairs of characters that may stand beside each other while groups are
  expanded; `Braced.isChain_of_mem_choices` is the step, `isChain_of_expand` the run;
* `ModulePath.IsSettled` are the paths to which none of the rules applies any more;
* `ModulePath.read_text` reads the text of a settled path, and
  `ModulePath.IsSettled.of_read` says that no other text is read as it was written;
* `expand_path_eq_iff`: a path of a statement stands for itself exactly when it is settled.
-/

namespace ImportWatch

open Text

/-! ## texts that groups are expanded in -/

/-- Two characters that may stand beside each other while groups are expanded: a blank is a
single space with no comma behind it. -/
structure Beside (c d : Char) : Prop where
  behind : isBlank d = true → d = ' ' ∧ isBlank c = false
  before : isBlank c = true → c = ' ' ∧ isBlank d = false ∧ d ≠ ','

theorem Neighbours.beside {c d : Char} (h : Neighbours c d) : Beside c d := by
  refine ⟨fun hd => ⟨(h.behind hd).1, (h.behind hd).2.1⟩, fun hc => ?_⟩
  obtain ⟨hspace, hd, hclose⟩ := h.before hc
  refine ⟨hspace, hd, ?_⟩
  rintro rfl
  cases hclose

/-- No piece between commas starts with a comma behind its blanks. -/
theorem comma_notMem_head_splitCommas {depth : Nat} {s p : Text} {ps : List Text}
    (h : splitCommas depth s = p :: ps) :
    (depth = 0 → ',' ∉ (trimStart p).head?) ∧ ∀ q ∈ ps, ',' ∉ (trimStart q).head? := by
  fun_induction splitCommas depth s generalizing p ps with
  | case1 =>
      cases h
      simp
  | case2 depth s ih | case3 depth s _ ih =>
      obtain ⟨q, qs, hqs⟩ := List.exists_cons_of_ne_nil (splitCommas_ne_nil _ s)
      rw [hqs, List.modifyHead_cons] at h
      cases h
      refine ⟨fun _ => ?_, (ih hqs).2⟩
      rw [trimStart_cons_of_not_isBlank rfl]
      simp
  | case4 depth c s _ _ hcomma ih =>
      obtain ⟨q, qs, hqs⟩ := List.exists_cons_of_ne_nil (splitCommas_ne_nil 0 s)
      rw [hqs] at h
      cases h
      exact ⟨by simp, List.forall_mem_cons.2 ⟨(ih hqs).1 rfl, (ih hqs).2⟩⟩
  | case5 depth c s _ _ hcomma ih =>
      obtain ⟨q, qs, hqs⟩ := List.exists_cons_of_ne_nil (splitCommas_ne_nil depth s)
      rw [hqs, List.modifyHead_cons] at h
      cases h
      refine ⟨fun hdepth => ?_, (ih hqs).2⟩
      cases hc : isBlank c with
      | true =>
          rw [trimStart_cons_of_isBlank hc]
          exact (ih hqs).1 hdepth
      | false =>
          rw [trimStart_cons_of_not_isBlank hc]
          simpa [eq_comm, hdepth] using hcomma

theorem head?_trim (s : Text) (h : trim s ≠ []) : (trim s).head? = (trimStart s).head? := by
  obtain ⟨t, ht⟩ := isPrefix_trimEnd (trimStart s)
  rw [← ht]
  exact (List.head?_append_of_ne_nil _ h).symm

/-- An alternative is trim and does not start with a comma. -/
theorem isTrim_of_mem_alternatives {inside a : Text} (h : a ∈ alternatives inside) :
    IsTrim a ∧ ',' ∉ a.head? := by
  obtain ⟨hmem, hne⟩ := List.mem_filter.1 h
  obtain ⟨p, hp, rfl⟩ := List.mem_map.1 hmem
  have hne : trim p ≠ [] := by simpa using hne
  obtain ⟨q, qs, hqs⟩ := List.exists_cons_of_ne_nil (splitCommas_ne_nil 0 inside)
  have hpieces := comma_notMem_head_splitCommas hqs
  refine ⟨isTrim_trim hne, ?_⟩
  rw [head?_trim p hne]
  cases List.mem_cons.1 (hqs ▸ hp) with
  | inl hfirst => exact hfirst ▸ hpieces.1 rfl
  | inr hrest => exact hpieces.2 p hrest

/-- Filling in an alternative keeps what may stand beside each other. -/
theorem Braced.isChain_of_mem_choices {item : Text} {g : Braced}
    (h : first? item = .ok (some g)) (hitem : item.IsChain Beside) :
    ∀ t ∈ g.choices, t.IsChain Beside := by
  obtain ⟨c, rfl⟩ := eq_of_first?_eq_some h
  intro t ht
  obtain ⟨a, ha, rfl⟩ := List.mem_map.1 ht
  obtain ⟨htrim, hcomma⟩ := isTrim_of_mem_alternatives ha
  obtain ⟨hbefore, hgroup, hopen⟩ := List.isChain_append.1 hitem
  obtain ⟨hinside, hrest, _⟩ := List.isChain_append.1 hgroup.tail
  have hafter := hrest.tail
  have hchain : a.IsChain Beside := List.IsChain.infix hinside (isInfix_of_mem_alternatives ha)
  rw [fill, List.isChain_append, List.isChain_append]
  refine ⟨⟨hbefore, hchain, ?_⟩, hafter, ?_⟩
  · intro d hd e he
    have hblank := htrim.isBlank_head e he
    refine ⟨by simp [hblank], fun hspace => ⟨?_, hblank, ?_⟩⟩
    · exact ((hopen d hd c rfl).before hspace).1
    · rintro rfl
      exact hcomma he
  · intro d hd e he
    rw [List.getLast?_append_of_ne_nil _ htrim.ne_nil] at hd
    have hblank := htrim.isBlank_getLast d hd
    refine ⟨fun hspace => ⟨?_, hblank⟩, by simp [hblank]⟩
    exact ((List.isChain_cons.1 hrest).1 e he).behind hspace |>.1

/-! ## segments of paths -/

/-- The segments of an expanded path are trim, and its text could be a part of a line but for
blanks and colons beside each other. -/
theorem isChain_of_expand {text : Text} {e : Imports} (h : expand text = .ok e) {p : ModulePath}
    (hp : p ∈ e.paths) : ∀ s ∈ p.segments, IsTrim s ∧ s.IsChain Beside := by
  obtain ⟨body, hbody, _, hresolve⟩ := expand_eq_ok_iff.1 h
  obtain ⟨rest, _, _, hline, _⟩ := statementBody_eq_ok_iff.1 hbody
  have hstart : body.IsChain Beside := by
    have hchain := isChain_tidy (visible rest)
    rw [← oneLine_eq_tidy, hline] at hchain
    exact hchain.left_of_append.imp fun _ _ => Neighbours.beside
  obtain ⟨item, hread, _, hitem⟩ :=
    exists_item_of_mem_resolve Braced.isChain_of_mem_choices hresolve (by simpa using hstart) hp
  intro s hs
  obtain ⟨htrim, hpart⟩ := (ModulePath.segments_of_read hread).2 s hs
  have hchain : s.IsChain Beside := List.IsChain.infix hitem hpart.isInfix
  exact ⟨htrim, hchain⟩

/-! ## the text of a path -/

theorem IsTrim.intercalate {ss : List Text} (hne : ss ≠ []) (h : ∀ s ∈ ss, IsTrim s) :
    IsTrim (pathSeparator.intercalate ss) := by
  induction ss with
  | nil => exact absurd rfl hne
  | cons s ss ih =>
      obtain ⟨hs, hss⟩ := List.forall_mem_cons.1 h
      cases ss with
      | nil => simpa using hs
      | cons t ts =>
          rw [List.intercalate_cons_cons, List.append_assoc]
          exact hs.append (ih (List.cons_ne_nil t ts) hss) pathSeparator

/-- What may stand beside each other while groups are expanded may do so on one line, but for
blanks beside colons. -/
theorem isChain_of_isChain_beside {s : Text} (h : s.IsChain Beside) (hbefore : ¬[' ', ':'] <:+: s)
    (hbehind : ¬[':', ' '] <:+: s) (hchars : ∀ c ∈ s, c ≠ '{' ∧ c ≠ '}' ∧ c ≠ terminator) :
    s.IsChain Neighbours := by
  rw [isChain_iff_forall_pair] at h ⊢
  intro c d hcd
  have hbeside := h c d hcd
  obtain ⟨hc, hd⟩ : c ∈ s ∧ d ∈ s := by simpa using hcd.subset
  constructor
  · intro hblank
    obtain ⟨rfl, hplain⟩ := hbeside.behind hblank
    have hcolon : c ≠ ':' := by
      rintro rfl
      exact hbehind hcd
    exact ⟨rfl, hplain, by simp [closesGapAfter, hcolon, (hchars c hc).1]⟩
  · intro hblank
    obtain ⟨rfl, hplain, hcomma⟩ := hbeside.before hblank
    have hcolon : d ≠ ':' := by
      rintro rfl
      exact hbefore hcd
    obtain ⟨_, hclose, hterm⟩ := hchars d hd
    exact ⟨rfl, hplain, by simp [closesGapBefore, hcolon, hcomma, hclose, hterm]⟩

/-- No blank stands beside the separators of a path. -/
theorem isChain_intercalate {ss : List Text} (h : ∀ s ∈ ss, IsTrim s ∧ s.IsChain Neighbours) :
    (pathSeparator.intercalate ss).IsChain Neighbours := by
  induction ss with
  | nil => exact .nil
  | cons s ss ih =>
      obtain ⟨⟨hs, hchain⟩, hss⟩ := List.forall_mem_cons.1 h
      cases ss with
      | nil => simpa using hchain
      | cons t ts =>
          have htrim : IsTrim (pathSeparator.intercalate (t :: ts)) :=
            .intercalate (List.cons_ne_nil t ts) fun s hs => (hss s hs).1
          have hrest : (':' :: pathSeparator.intercalate (t :: ts)).IsChain Neighbours :=
            List.isChain_cons.2
              ⟨fun c hc => neighbours_of_not_isBlank rfl (htrim.isBlank_head c hc), ih hss⟩
          rw [List.intercalate_cons_cons, List.append_assoc]
          refine List.isChain_append.2 ⟨hchain, ?_, fun c hc d hd => ?_⟩
          · exact .cons_cons (neighbours_of_not_isBlank rfl rfl) hrest
          · cases hd
            exact neighbours_of_not_isBlank (hs.isBlank_getLast c hc) rfl

namespace ModulePath

/-- True for the paths that no rule of reading applies to again: no blank stands beside a colon,
no segment runs into the separator behind it, and no rename and no `self` are left at the end. -/
structure IsSettled (p : ModulePath) : Prop where
  spaces : ∀ s ∈ p.segments, ¬[' ', ':'] <:+: s ∧ ¬[':', ' '] <:+: s
  colons : ∀ s ∈ p.segments.dropLast, s.getLast? ≠ some ':'
  rename : ∀ s ∈ p.segments.getLast?, ¬renameMark <:+: s
  self : p.segments.getLast? = some selfSegment → p.segments = [selfSegment]

section

variable {p : ModulePath}

/-- Paths of plain names are settled, unless a `self` is left at the end. -/
theorem IsSettled.of_plain (h : ∀ s ∈ p.segments, ' ' ∉ s ∧ ':' ∉ s)
    (hself : p.segments.getLast? = some selfSegment → p.segments = [selfSegment]) :
    p.IsSettled where
  spaces s hs := ⟨fun hcolon => (h s hs).1 (hcolon.subset List.mem_cons_self),
    fun hcolon => (h s hs).2 (hcolon.subset List.mem_cons_self)⟩
  colons s hs hlast := (h s (List.dropLast_subset _ hs)).2 (List.mem_of_getLast? hlast)
  rename s hs hmark := (h s (List.mem_of_getLast? hs)).1 (hmark.subset List.mem_cons_self)
  self := hself

/-- The text of an expanded path can stand on one line when no blank stands beside a colon. -/
theorem isChain_text (h : ∀ s ∈ p.segments, ¬[' ', ':'] <:+: s ∧ ¬[':', ' '] <:+: s)
    (hsegments : ∀ s ∈ p.segments, IsTrim s ∧ s.IsChain Beside)
    (hexpanded : p.IsExpanded) : p.text.IsChain Neighbours := by
  refine isChain_intercalate fun s hs => ⟨(hsegments s hs).1, ?_⟩
  refine isChain_of_isChain_beside (hsegments s hs).2 (h s hs).1 (h s hs).2 fun c hc => ?_
  obtain ⟨hopen, hclose, hterm, _⟩ := hexpanded.chars s hs c hc
  exact ⟨hopen, hclose, hterm⟩

/-- A settled path is read from its text. -/
theorem read_text (h : p.IsSettled) (htrim : ∀ s ∈ p.segments, IsTrim s)
    (hexpanded : p.IsExpanded) : read p.text = .ok p := by
  obtain ⟨ms, s, hms⟩ := (List.eq_nil_or_concat' p.segments).resolve_left hexpanded.segments_ne
  obtain ⟨segments⟩ := p
  obtain rfl : segments = ms ++ [s] := hms
  have hsplit : splitPath (text ⟨ms ++ [s]⟩) = ms ++ [s] := by
    refine splitPath_intercalate (fun m hm => ⟨?_, ?_⟩) ?_
    · exact hexpanded.separator m (List.mem_append_left [s] hm)
    · exact h.colons m (by simpa using hm)
    · exact hexpanded.separator s List.mem_concat_self
  have hmap : (ms ++ [s]).map trim = ms ++ [s] := by
    conv_rhs => rw [← List.map_id (ms ++ [s])]
    exact List.map_congr_left fun t ht => (htrim t ht).trim_eq
  have hnonempty : [] ∉ ms ++ [s] := fun hempty => hexpanded.segment_ne [] hempty rfl
  have hpieces : dropEmptyLead (trimmedPieces (text ⟨ms ++ [s]⟩)) = ms ++ [s] := by
    rw [trimmedPieces, hsplit, hmap, dropEmptyLead_of_notMem hnonempty]
  have hlast : trimEnd (withoutRename s) = s := by
    rw [withoutRename_eq_self (h.rename s (by simp))]
    exact (htrim s List.mem_concat_self).trimEnd_eq
  have hmodules : [] ∉ ms := fun hempty => hnonempty (List.mem_append_left [s] hempty)
  have hname : trimEnd (withoutRename s) ≠ [] := by
    rw [hlast]
    exact hexpanded.segment_ne s List.mem_concat_self
  have hself : ¬(s = selfSegment ∧ ms ≠ []) := by
    rintro ⟨rfl, hms⟩
    exact hms (by simpa using h.self (by simp))
  rw [read_of_pieces hpieces hmodules hname, hlast, dropFinalSelf_append, if_neg hself]

end

end ModulePath

/-! ## reading the text of a path -/

/-- The length of some segments, each with a separator. -/
def joinedLength (ss : List Text) : Nat := (ss.map fun s => s.length + 2).sum

@[simp] theorem joinedLength_nil : joinedLength [] = 0 := rfl

@[simp] theorem joinedLength_cons (s : Text) (ss : List Text) :
    joinedLength (s :: ss) = s.length + 2 + joinedLength ss := by
  simp [joinedLength]

@[simp] theorem joinedLength_append (ss ts : List Text) :
    joinedLength (ss ++ ts) = joinedLength ss + joinedLength ts := by
  simp [joinedLength]

theorem length_intercalate {ss : List Text} (h : ss ≠ []) :
    (pathSeparator.intercalate ss).length + 2 = joinedLength ss := by
  induction ss with
  | nil => exact absurd rfl h
  | cons s ss ih =>
      cases ss with
      | nil => simp
      | cons t ts =>
          have := ih (List.cons_ne_nil t ts)
          rw [List.intercalate_cons_cons, joinedLength_cons, ← this]
          simp [pathSeparator]
          omega

theorem joinedLength_map_trim_le (ss : List Text) :
    joinedLength (ss.map trim) ≤ joinedLength ss := by
  induction ss with
  | nil => simp
  | cons s ss ih =>
      have := (trim_sublist s).length_le
      simp
      omega

/-- Texts that trimming does not make shorter are left as they are. -/
theorem map_trim_eq {ss : List Text} (h : joinedLength ss ≤ joinedLength (ss.map trim)) :
    ss.map trim = ss := by
  induction ss with
  | nil => rfl
  | cons s ss ih =>
      have hle := joinedLength_map_trim_le ss
      have hlen := (trim_sublist s).length_le
      simp only [List.map_cons, joinedLength_cons] at h
      rw [List.map_cons, ih (by omega), (trim_sublist s).eq_of_length (by omega)]

namespace ModulePath

/-- Reading a path from its own text, nothing is trimmed or dropped: no segment is shorter than
the piece that it was read from, and no piece is left over. -/
theorem pieces_of_read {p : ModulePath} (h : read p.text = .ok p) :
    writtenSegments p.text = p.segments ∧
      splitPath (withoutLeadingSeparator (trim p.text)) = p.segments := by
  have hne := (segments_of_read h).1
  have hsegments := (segments_eq_of_read h).1.symm
  have hlong : joinedLength (splitPath (withoutLeadingSeparator (trim p.text))) ≤
      joinedLength p.segments := by
    have hlead :=
      (isSuffix_withoutLeadingSeparator (trim p.text)).sublist.trans (trim_sublist p.text)
    rw [← length_intercalate (splitPath_ne_nil _), ← length_intercalate hne, intercalate_splitPath]
    exact Nat.add_le_add_right hlead.length_le 2
  obtain ⟨ms, s, hpieces⟩ := (List.eq_nil_or_concat'
    (splitPath (withoutLeadingSeparator (trim p.text)))).resolve_left (splitPath_ne_nil _)
  have hwritten : writtenSegments p.text = ms.map trim ++ [trimEnd (withoutRename (trim s))] := by
    rw [writtenSegments, hpieces, List.map_append, List.map_singleton, mapLast_append]
  have hmodules := joinedLength_map_trim_le ms
  have hlast : (trimEnd (withoutRename (trim s))).Sublist s :=
    ((isPrefix_trimEnd _).trans (isPrefix_withoutRename _)).sublist.trans (trim_sublist s)
  have hlength := hlast.length_le
  rw [hwritten, dropFinalSelf_append] at hsegments
  rw [hpieces, joinedLength_append, joinedLength_cons, joinedLength_nil] at hlong
  split at hsegments
  · rw [← hsegments] at hlong
    omega
  · rw [← hsegments, joinedLength_append, joinedLength_cons, joinedLength_nil] at hlong
    have hsame : ms.map trim ++ [trimEnd (withoutRename (trim s))] = ms ++ [s] := by
      rw [map_trim_eq (by omega), hlast.eq_of_length (by omega)]
    rw [hpieces, hwritten, hsegments]
    exact ⟨rfl, hsame.symm.trans hsegments⟩

/-- A path that is read from its own text is settled when no blank stands beside a colon in it. -/
theorem IsSettled.of_read {p : ModulePath} (h : read p.text = .ok p)
    (hspaces : ∀ s ∈ p.segments, ¬[' ', ':'] <:+: s ∧ ¬[':', ' '] <:+: s) : p.IsSettled := by
  obtain ⟨hwritten, hpieces⟩ := pieces_of_read h
  have hself : dropFinalSelf p.segments = p.segments := by
    rw [← hwritten, ← (segments_eq_of_read h).1, hwritten]
  refine ⟨hspaces, fun m hm => ?_, fun s hs => ?_, eq_of_dropFinalSelf_eq hself⟩
  · rw [← hpieces] at hm
    exact colon_notMem_getLast_splitPath hm
  · rw [← hwritten] at hs
    exact not_infix_of_mem_getLast? hs

end ModulePath

/-! ## expanding the text of a path -/

section

variable {text : Text} {e : Imports} {p : ModulePath}

/-- What stands in the text of an expanded path. -/
theorem ModulePath.IsExpanded.of_mem_text (h : p.IsExpanded) {c : Char} (hc : c ∈ p.text) :
    isBrace c = false ∧ c ≠ terminator ∧ c ≠ '/' := by
  rcases mem_intercalate hc with hc | ⟨s, hs, hc⟩
  · obtain rfl : c = ':' := by simpa [pathSeparator] using hc
    decide
  · obtain ⟨hopen, hclose, hterm, hslash⟩ := h.chars s hs c hc
    exact ⟨by simp [isBrace, hopen, hclose], hterm, hslash⟩

/-- The text of an expanded path is the body of a statement when it is written on one line. -/
theorem statementBody_path (hexpanded : p.IsExpanded) (htrim : IsTrim p.text) :
    statementBody (statementOfBody p.text) = .ok (tidy none false p.text) := by
  have hslash : '/' ∉ p.text := fun hc => (hexpanded.of_mem_text hc).2.2 rfl
  have hterm : terminator ∉ p.text := fun hc => (hexpanded.of_mem_text hc).2.1 rfl
  have hline : oneLine (p.text ++ [terminator]) = tidy none false p.text ++ [terminator] := by
    have hvisible : '/' ∉ p.text ++ [terminator] := by simpa [terminator] using hslash
    rw [oneLine_eq_tidy, visible_of_notMem hvisible, tidy_append_closer rfl rfl]
    rfl
  have hblank : isAllBlank (tidy none false p.text) = false := by
    obtain ⟨c, t, htext, hc⟩ := htrim.start
    have hfirst : c ∈ tidy none false p.text :=
      (mem_tidy_iff hc none false p.text).2 (htext ▸ List.mem_cons_self)
    exact List.all_eq_false.2 ⟨c, hfirst, by simp [hc]⟩
  refine statementBody_eq_ok_iff.2
    ⟨p.text ++ [terminator], rfl, List.mem_concat_self, hline, ?_, ?_, hblank⟩
  · rwa [mem_tidy_iff rfl]
  · rwa [mem_tidy_iff rfl]

/-- The statement with the text of an expanded path is read as one path, from that text on one
line. -/
theorem expand_statementOfBody (hexpanded : p.IsExpanded) (htrim : IsTrim p.text) :
    expand (statementOfBody p.text) = (ModulePath.read (tidy none false p.text)).map
      fun q => ⟨statementOfBody (tidy none false p.text), [q]⟩ := by
  have hplain : Braced.first? (tidy none false p.text) = .ok none := by
    refine Braced.first?_eq_none_iff.2 fun c hc => ?_
    cases hspace : isBlank c with
    | true =>
        rw [eq_space_of_mem_tidy hspace hc]
        rfl
    | false => exact (hexpanded.of_mem_text ((mem_tidy_iff hspace none false p.text).1 hc)).1
  have hresolve : resolve stepLimit [tidy none false p.text] =
      (ModulePath.read (tidy none false p.text)).map ([·]) := by
    rw [show stepLimit = 4095 + 1 from rfl, resolve_of_path 4095 [] hplain, resolve_nil]
    cases ModulePath.read (tidy none false p.text) <;> rfl
  rw [expand, statementBody_path hexpanded htrim]
  simp only [hresolve]
  cases ModulePath.read (tidy none false p.text) <;> rfl

/-- **Expanding again**: the text of a path that a statement stands for is a statement for this
path, and for nothing else, exactly when the path is settled. -/
theorem expand_path_eq_iff (h : expand text = .ok e) (hp : p ∈ e.paths) :
    (∃ again, expand (statementOfBody p.text) = .ok again ∧ again.paths = [p]) ↔ p.IsSettled := by
  have hexpanded := isExpanded_of_expand h hp
  have hsegments := isChain_of_expand h hp
  have htrim : ∀ s ∈ p.segments, IsTrim s := fun s hs => (hsegments s hs).1
  have hwhole : IsTrim p.text := .intercalate hexpanded.segments_ne htrim
  have hline (hspaces : ∀ s ∈ p.segments, ¬[' ', ':'] <:+: s ∧ ¬[':', ' '] <:+: s) :
      tidy none false p.text = p.text :=
    tidy_of_isChain (ModulePath.isChain_text hspaces hsegments hexpanded) hwhole.isBlank_head
      hwhole.isBlank_getLast
  rw [expand_statementOfBody hexpanded hwhole]
  constructor
  · rintro ⟨again, hagain, hpaths⟩
    have hread : ModulePath.read (tidy none false p.text) = .ok p := by
      cases hread : ModulePath.read (tidy none false p.text) with
      | error reason => simp [hread, Except.map] at hagain
      | ok q =>
          rw [hread] at hagain
          cases hagain
          rw [List.singleton_inj.1 hpaths]
    -- what was read came from one line, where no blank stands beside a colon
    have hspaces : ∀ s ∈ p.segments, ¬[' ', ':'] <:+: s ∧ ¬[':', ' '] <:+: s := by
      intro s hs
      have hpart := ((ModulePath.segments_of_read hread).2 s hs).2.isInfix
      have hneighbours : s.IsChain Neighbours := List.IsChain.infix (isChain_tidy p.text) hpart
      have hchain := isChain_iff_forall_pair.1 hneighbours
      exact ⟨fun hcolon => absurd ((hchain _ _ hcolon).before rfl).2.2 (by decide),
        fun hcolon => absurd ((hchain _ _ hcolon).behind rfl).2.2 (by decide)⟩
    rw [hline hspaces] at hread
    exact .of_read hread hspaces
  · intro hsettled
    rw [hline hsettled.spaces, ModulePath.read_text hsettled htrim hexpanded]
    exact ⟨_, rfl, rfl⟩

end

theorem expand_path_eq_iff_renamed :
    let text := "use std::\x7bfs::File, io as disk\x7d;".toList
    let file : ModulePath := ⟨["std".toList, "fs".toList, "File".toList]⟩
    let disk : ModulePath := ⟨["std".toList, "io".toList]⟩
    expand text = .ok ⟨text, [file, disk]⟩ ∧
      ∃ again, expand (statementOfBody disk.text) = .ok again ∧ again.paths = [disk] := by
  intro text file disk
  have h : expand text = .ok ⟨text, [file, disk]⟩ := by decide
  exact ⟨h, (expand_path_eq_iff h (List.mem_cons_of_mem file List.mem_cons_self)).2
    (.of_plain (by decide) (by decide))⟩

/-- Of two `self` at the end each expansion drops one. -/
theorem expand_path_selfs :
    let text := "use a::self::self;".toList
    let once : ModulePath := ⟨["a".toList, "self".toList]⟩
    let twice : ModulePath := ⟨["a".toList]⟩
    expand text = .ok ⟨text, [once]⟩ ∧
      expand (statementOfBody once.text) = .ok ⟨"use a::self;".toList, [twice]⟩ ∧ once ≠ twice := by
  decide

/-- A rename in front of a final `self` is dropped by the second expansion only. -/
example : expand "use a as b::self;".toList =
      .ok ⟨"use a as b::self;".toList, [⟨["a as b".toList]⟩]⟩ ∧
    expand "use a as b;".toList = .ok ⟨"use a as b;".toList, [⟨["a".toList]⟩]⟩ := by
  decide

/-- Three colons are a separator in front of a colon, whichever way they were put together. -/
example : expand "use a\x7b:\x7d \x7b::b\x7d;".toList =
      .ok ⟨"use a\x7b:\x7d \x7b::b\x7d;".toList, [⟨["a:".toList, "b".toList]⟩]⟩ ∧
    expand "use a:::b;".toList = .ok ⟨"use a:::b;".toList, [⟨["a".toList, ":b".toList]⟩]⟩ := by
  decide

end ImportWatch
