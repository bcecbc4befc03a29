import ImportWatch.Proofs.OneLine
import Mathlib.Data.List.TakeWhile

/-!
# ImportWatch.Proofs.PathParts

What the paths of a statement are made of.

* `IsPart` are the parts of a text without a separator; what splitting leaves
  is made of them (`isPart_of_mem_splitPath`), and what is cut from a part is
  one as well;
* `segments_of_read`: the segments of a path are trim parts of the text that it
  is read from;
* `exists_item_of_mem_resolve`: that text has no braces, and it has what the
  groups of a statement keep when they are expanded;
* `isExpanded_of_expand`: no path of a statement is expanded by half.
-/

namespace ImportWatch

open Text

/-! ## parts of a path -/

/-- True for what stands in a text and has no separator in it. -/
structure IsPart (s p : Text) : Prop where
  isInfix : p <:+: s
  separator : ¬pathSeparator <:+: p

theorem IsPart.sub {s p q : Text} (h : IsPart s p) (hq : q <:+: p) : IsPart s q :=
  ⟨hq.trans h.isInfix, fun hsep => h.separator (hsep.trans hq)⟩

theorem IsPart.extend {s t p : Text} (h : IsPart s p) (hs : s <:+: t) : IsPart t p :=
  ⟨h.isInfix.trans hs, h.separator⟩

/-- The pieces of a path with separators between them are the path. -/
theorem intercalate_splitPath (s : Text) : pathSeparator.intercalate (splitPath s) = s := by
  fun_induction splitPath s with
  | case1 => rfl
  | case2 s ih =>
      obtain ⟨p, ps, hps⟩ := List.exists_cons_of_ne_nil (splitPath_ne_nil s)
      rw [hps] at ih ⊢
      rw [List.intercalate_cons_cons, ih]
      rfl
  | case3 c s _ ih =>
      obtain ⟨p, ps, hps⟩ := List.exists_cons_of_ne_nil (splitPath_ne_nil s)
      rw [hps] at ih ⊢
      rw [← ih]
      cases ps <;> rfl

/-- A colon at the end of a piece is a part of no separator. -/
theorem colon_notMem_getLast_splitPath {s p : Text} (h : p ∈ (splitPath s).dropLast) :
    p.getLast? ≠ some ':' := by
  fun_induction splitPath s generalizing p with
  | case1 => cases h
  | case2 s ih =>
      rw [List.dropLast_cons_of_ne_nil (splitPath_ne_nil s)] at h
      rcases List.mem_cons.1 h with rfl | h
      · simp
      · exact ih h
  | case3 c s hc ih =>
      obtain ⟨q, qs, hqs⟩ := List.exists_cons_of_ne_nil (splitPath_ne_nil s)
      cases qs with
      | nil =>
          rw [hqs] at h
          cases h
      | cons r rs =>
          rw [hqs] at h ih
          rcases List.mem_cons.1 h with rfl | h
          · cases q with
            | nil =>
                -- then a separator follows, and one colon more would belong to it
                have hjoin := intercalate_splitPath s
                rw [hqs, List.intercalate_cons_cons] at hjoin
                rintro hcolon
                obtain rfl : c = ':' := by simpa using hcolon
                exact hc _ rfl hjoin.symm
            | cons d q => simpa using ih List.mem_cons_self
          · exact ih (List.mem_cons_of_mem q h)

/-- The first piece of a path starts it. -/
theorem isPrefix_of_splitPath {s p : Text} {ps : List Text} (h : splitPath s = p :: ps) :
    p <+: s := by
  fun_induction splitPath s generalizing p ps with
  | case1 =>
      cases h
      exact List.prefix_rfl
  | case2 =>
      cases h
      exact List.nil_prefix
  | case3 c s _ ih =>
      obtain ⟨q, qs, hqs⟩ := List.exists_cons_of_ne_nil (splitPath_ne_nil s)
      rw [hqs, List.modifyHead_cons] at h
      cases h
      exact List.cons_prefix_cons.2 ⟨rfl, ih hqs⟩

/-- The pieces of a path have no separator in them. -/
theorem isPart_of_mem_splitPath {s p : Text} (h : p ∈ splitPath s) : IsPart s p := by
  have hnil : ¬pathSeparator <:+: [] := by decide
  fun_induction splitPath s generalizing p with
  | case1 =>
      rw [List.mem_singleton.1 h]
      exact IsPart.mk List.nil_infix hnil
  | case2 s ih =>
      rcases List.mem_cons.1 h with rfl | h
      · exact IsPart.mk List.nil_infix hnil
      · exact (ih h).extend (List.suffix_append pathSeparator s).isInfix
  | case3 c s hc ih =>
      have hsuffix : s <:+: c :: s := (List.suffix_cons c s).isInfix
      obtain ⟨q, qs, hqs⟩ := List.exists_cons_of_ne_nil (splitPath_ne_nil s)
      rw [hqs, List.modifyHead_cons, List.mem_cons] at h
      rcases h with rfl | h
      · have hq := isPrefix_of_splitPath hqs
        have hpart : IsPart s q := ih (hqs ▸ List.mem_cons_self)
        refine ⟨(List.cons_prefix_cons.2 ⟨rfl, hq⟩).isInfix, fun hsep => ?_⟩
        -- a separator in it would stand at its start, and so at the start of the path
        rcases List.infix_cons_iff.1 hsep with hpre | hsep
        · obtain ⟨rfl, hcolon⟩ := List.cons_prefix_cons.1 hpre
          obtain ⟨t, rfl⟩ := hcolon.trans hq
          exact hc t rfl rfl
        · exact hpart.separator hsep
      · exact (ih (hqs ▸ List.mem_cons_of_mem q h)).extend hsuffix

theorem isPrefix_withoutRename (s : Text) : withoutRename s <+: s := by
  fun_induction withoutRename s with
  | case1 => exact List.prefix_rfl
  | case2 => exact List.nil_prefix
  | case3 c s _ ih => exact List.cons_prefix_cons.2 ⟨rfl, ih⟩

/-- The text before the first rename mark has none. -/
theorem not_infix_withoutRename (s : Text) : ¬renameMark <:+: withoutRename s := by
  fun_induction withoutRename s with
  | case1 | case2 => decide
  | case3 c s hc ih =>
      intro h
      rcases List.infix_cons_iff.1 h with hpre | h
      · obtain ⟨rfl, hmark⟩ := List.cons_prefix_cons.1 hpre
        obtain ⟨t, rfl⟩ := hmark.trans (isPrefix_withoutRename s)
        exact hc t rfl rfl
      · exact ih h

theorem isSuffix_withoutLeadingSeparator (s : Text) : withoutLeadingSeparator s <:+ s := by
  unfold withoutLeadingSeparator
  split
  · exact List.suffix_append pathSeparator _
  · exact List.suffix_rfl

namespace ModulePath

theorem writtenSegments_ne_nil (text : Text) : writtenSegments text ≠ [] := by
  rw [writtenSegments]
  obtain ⟨p, ps, hps⟩ :=
    List.exists_cons_of_ne_nil (splitPath_ne_nil (withoutLeadingSeparator (trim text)))
  rw [hps, List.map_cons]
  cases ps with
  | nil => exact List.cons_ne_nil _ _
  | cons q qs => exact List.cons_ne_nil _ _

theorem mem_mapLast {f : Text → Text} {s : Text} {ss : List Text} (h : s ∈ mapLast f ss) :
    s ∈ ss ∨ ∃ t ∈ ss, s = f t := by
  rcases List.eq_nil_or_concat' ss with rfl | ⟨ts, t, rfl⟩
  · cases h
  · rw [mapLast_append, List.mem_append, List.mem_singleton] at h
    exact h.imp (List.mem_append_left [t]) fun h => ⟨t, List.mem_concat_self, h⟩

theorem isPart_of_mem_writtenSegments {text s : Text} (h : s ∈ writtenSegments text) :
    IsPart text s := by
  have hpiece {t : Text}
      (ht : t ∈ (splitPath (withoutLeadingSeparator (trim text))).map trim) : IsPart text t := by
    obtain ⟨p, hp, rfl⟩ := List.mem_map.1 ht
    have hlead := (isSuffix_withoutLeadingSeparator (trim text)).isInfix
    exact ((isPart_of_mem_splitPath hp).extend (hlead.trans (isInfix_trim text))).sub
      (isInfix_trim p)
  rcases mem_mapLast h with h | ⟨t, ht, rfl⟩
  · exact hpiece h
  · exact (hpiece ht).sub ((isPrefix_trimEnd _).trans (isPrefix_withoutRename t)).isInfix

theorem dropFinalSelf_sublist (ss : List Text) : (dropFinalSelf ss).Sublist ss := by
  rcases List.eq_nil_or_concat' ss with rfl | ⟨ts, t, rfl⟩
  · exact List.Sublist.refl _
  · rw [dropFinalSelf_append]
    split
    · exact List.sublist_append_left ts [t]
    · exact List.Sublist.refl _

theorem dropFinalSelf_ne_nil {ss : List Text} (h : ss ≠ []) : dropFinalSelf ss ≠ [] := by
  obtain ⟨ts, t, rfl⟩ := (List.eq_nil_or_concat' ss).resolve_left h
  rw [dropFinalSelf_append]
  split
  · rename_i hself
    exact hself.2
  · exact List.append_ne_nil_of_right_ne_nil ts (List.cons_ne_nil t [])

/-- The segments that are written are trim. -/
theorem isTrim_of_mem_writtenSegments {text s : Text} (h : s ∈ writtenSegments text)
    (hne : s ≠ []) : IsTrim s := by
  rcases mem_mapLast h with h | ⟨t, ht, rfl⟩
  · obtain ⟨p, _, rfl⟩ := List.mem_map.1 h
    exact isTrim_trim hne
  · obtain ⟨p, _, rfl⟩ := List.mem_map.1 ht
    have hp : trim p ≠ [] := by
      intro hp
      rw [hp] at hne
      exact hne rfl
    exact (isTrim_trim hp).trimEnd_of_isPrefix (isPrefix_withoutRename (trim p)) hne

/-- The segments of a path that is read are those that are written, without a final `self`. -/
theorem segments_eq_of_read {text : Text} {p : ModulePath} (h : read text = .ok p) :
    p.segments = dropFinalSelf (writtenSegments text) ∧ [] ∉ writtenSegments text := by
  rw [read] at h
  split at h
  · cases h
  · rename_i hempty
    cases h
    exact ⟨rfl, fun hmem => hempty (List.any_eq_true.2 ⟨[], hmem, rfl⟩)⟩

/-- A path that is read has segments, and they are trim parts of its text. -/
theorem segments_of_read {text : Text} {p : ModulePath} (h : read text = .ok p) :
    p.segments ≠ [] ∧ ∀ s ∈ p.segments, IsTrim s ∧ IsPart text s := by
  obtain ⟨hsegments, hempty⟩ := segments_eq_of_read h
  rw [hsegments]
  refine ⟨dropFinalSelf_ne_nil (writtenSegments_ne_nil text), fun s hs => ?_⟩
  have hmem := (dropFinalSelf_sublist _).subset hs
  have hne : s ≠ [] := fun hnil => hempty (hnil ▸ hmem)
  exact ⟨isTrim_of_mem_writtenSegments hmem hne, isPart_of_mem_writtenSegments hmem⟩

end ModulePath

/-! ## texts that are left to be expanded -/

theorem splitCommas_ne_nil (depth : Nat) (s : Text) : splitCommas depth s ≠ [] := by
  fun_induction splitCommas depth s with
  | case1 => simp
  | case2 depth s ih | case3 depth s _ ih | case5 depth c s _ _ _ ih =>
      simpa [List.modifyHead_eq_nil_iff] using ih
  | case4 => simp

/-- The first piece at the commas of a text starts it. -/
theorem isPrefix_of_splitCommas {depth : Nat} {s p : Text} {ps : List Text}
    (h : splitCommas depth s = p :: ps) : p <+: s := by
  fun_induction splitCommas depth s generalizing p ps with
  | case1 =>
      cases h
      exact List.prefix_rfl
  | case2 depth s ih | case3 depth s _ ih | case5 depth c s _ _ _ ih =>
      obtain ⟨q, qs, hqs⟩ := List.exists_cons_of_ne_nil (splitCommas_ne_nil _ s)
      rw [hqs, List.modifyHead_cons] at h
      cases h
      exact List.cons_prefix_cons.2 ⟨rfl, ih hqs⟩
  | case4 =>
      cases h
      exact List.nil_prefix

theorem isInfix_of_mem_splitCommas {depth : Nat} {s p : Text} (h : p ∈ splitCommas depth s) :
    p <:+: s := by
  fun_induction splitCommas depth s generalizing p with
  | case1 =>
      cases List.mem_singleton.1 h
      exact List.nil_infix
  | case2 depth s ih | case3 depth s _ ih | case5 depth c s _ _ _ ih =>
      obtain ⟨q, qs, hqs⟩ := List.exists_cons_of_ne_nil (splitCommas_ne_nil _ s)
      rw [hqs, List.modifyHead_cons, List.mem_cons] at h
      rcases h with rfl | h
      · exact (List.cons_prefix_cons.2 ⟨rfl, isPrefix_of_splitCommas hqs⟩).isInfix
      · exact (ih (hqs ▸ List.mem_cons_of_mem q h)).trans (List.suffix_cons _ s).isInfix
  | case4 depth c s _ _ _ ih =>
      rcases List.mem_cons.1 h with rfl | h
      · exact List.nil_infix
      · exact (ih h).trans (List.suffix_cons _ s).isInfix

theorem isInfix_of_mem_alternatives {inside a : Text} (h : a ∈ alternatives inside) :
    a <:+: inside := by
  obtain ⟨p, hp, rfl⟩ := List.mem_map.1 (List.mem_filter.1 h).1
  exact (isInfix_trim p).trans (isInfix_of_mem_splitCommas hp)

namespace Braced

/-- A text has no group when it has no braces. -/
theorem first?_eq_none_iff {item : Text} :
    first? item = .ok none ↔ ∀ c ∈ item, isBrace c = false := by
  have hplain : (∀ c ∈ item, isBrace c = false) ↔ item.dropWhile (fun c => !isBrace c) = [] := by
    simp [List.dropWhile_eq_nil_iff]
  rw [hplain, first?]
  constructor
  · intro h
    split at h
    · assumption
    · split at h
      · cases h
      · split at h <;> cases h
  · intro h
    rw [h]

/-- The first group of a text is a part of it. -/
theorem eq_of_first?_eq_some {item : Text} {g : Braced} (h : first? item = .ok (some g)) :
    ∃ c, item = g.before ++ c :: (g.inside ++ '}' :: g.after) := by
  rw [first?] at h
  split at h
  · cases h
  · rename_i c rest hdrop
    split at h
    · cases h
    · split at h
      · cases h
      · rename_i inside after hsplit
        cases h
        refine ⟨c, ?_⟩
        rw [← append_of_splitClosing? hsplit, ← hdrop, List.takeWhile_append_dropWhile]

/-- Filling in an alternative adds nothing that was not in the text. -/
theorem subset_of_mem_choices {item : Text} {g : Braced} (h : first? item = .ok (some g))
    {t : Text} (ht : t ∈ g.choices) : t ⊆ item := by
  obtain ⟨c, rfl⟩ := eq_of_first?_eq_some h
  intro d hd
  obtain ⟨a, ha, rfl⟩ := List.mem_map.1 ht
  rw [fill, List.mem_append, List.mem_append] at hd
  simp only [List.mem_append, List.mem_cons]
  rcases hd with (hd | hd) | hd
  · exact .inl hd
  · exact .inr (.inr (.inl ((isInfix_of_mem_alternatives ha).subset hd)))
  · exact .inr (.inr (.inr (.inr hd)))

end Braced

/-- Each path is read from a text without braces, and what is true of the pending texts and is
kept when a group is replaced by its alternatives is true of that text. -/
theorem exists_item_of_mem_resolve {P : Text → Prop}
    (hstep : ∀ {item : Text} {g : Braced}, Braced.first? item = .ok (some g) → P item →
      ∀ t ∈ g.choices, P t)
    {steps : Nat} {pending : List Text} {ps : List ModulePath}
    (h : resolve steps pending = .ok ps) (hpending : ∀ t ∈ pending, P t) {p : ModulePath}
    (hp : p ∈ ps) :
    ∃ item, ModulePath.read item = .ok p ∧ (∀ c ∈ item, isBrace c = false) ∧ P item := by
  fun_induction resolve steps pending generalizing ps with
  | case1 =>
      cases h
      cases hp
  | case2 | case3 | case5 => cases h
  | case4 steps item pending g hfirst ih =>
      obtain ⟨hitem, hpending⟩ := List.forall_mem_cons.1 hpending
      exact ih h (List.forall_mem_append.2 ⟨hstep hfirst hitem, hpending⟩) hp
  | case6 steps item pending hfirst q hread ih =>
      obtain ⟨hitem, hpending⟩ := List.forall_mem_cons.1 hpending
      cases hrest : resolve steps pending with
      | error e =>
          rw [hrest] at h
          cases h
      | ok qs =>
          rw [hrest] at h
          cases h
          rcases List.mem_cons.1 hp with rfl | hp
          · exact ⟨item, hread, Braced.first?_eq_none_iff.1 hfirst, hitem⟩
          · exact ih hrest hpending hp

/-! ## the paths of a statement -/

theorem expand_eq_ok_iff {text : Text} {e : Imports} :
    expand text = .ok e ↔ ∃ body, statementBody text = .ok body ∧
      e.statement = statementOfBody body ∧ resolve stepLimit [body] = .ok e.paths := by
  rw [expand]
  cases statementBody text with
  | error reason => simp
  | ok body =>
      obtain ⟨statement, paths⟩ := e
      cases hresolve : resolve stepLimit [body] with
      | error reason => simp [hresolve, Except.map]
      | ok ps => simp [hresolve, Except.map, eq_comm]

/-- True for the paths with nothing left in them that is more than a name. -/
structure ModulePath.IsExpanded (p : ModulePath) : Prop where
  segments_ne : p.segments ≠ []
  segment_ne : ∀ s ∈ p.segments, s ≠ []
  separator : ∀ s ∈ p.segments, ¬pathSeparator <:+: s
  chars : ∀ s ∈ p.segments, ∀ c ∈ s, c ≠ '{' ∧ c ≠ '}' ∧ c ≠ terminator ∧ c ≠ '/'

/-- No path of a statement is expanded by half. -/
theorem isExpanded_of_expand {text : Text} {e : Imports} (h : expand text = .ok e)
    {p : ModulePath} (hp : p ∈ e.paths) : p.IsExpanded := by
  obtain ⟨body, hbody, _, hresolve⟩ := expand_eq_ok_iff.1 h
  obtain ⟨_, _, _, _, hslash, hterm, _⟩ := statementBody_eq_ok_iff.1 hbody
  have hkept {item : Text} {g : Braced} (hfirst : Braced.first? item = .ok (some g))
      (hitem : item ⊆ body) : ∀ t ∈ g.choices, t ⊆ body :=
    fun t ht => List.Subset.trans (Braced.subset_of_mem_choices hfirst ht) hitem
  obtain ⟨item, hread, hplain, hsub⟩ :=
    exists_item_of_mem_resolve hkept hresolve (by simp) hp
  obtain ⟨hne, hsegments⟩ := ModulePath.segments_of_read hread
  refine ⟨hne, fun s hs => (hsegments s hs).1.ne_nil, fun s hs => (hsegments s hs).2.separator, ?_⟩
  intro s hs c hc
  have hitem : c ∈ item := (hsegments s hs).2.isInfix.subset hc
  have hbrace := hplain c hitem
  simp only [isBrace, Bool.or_eq_false_iff, beq_eq_false_iff_ne] at hbrace
  refine ⟨hbrace.1, hbrace.2, ?_, ?_⟩
  · rintro rfl
    exact hterm (hsub hitem)
  · rintro rfl
    exact hslash (hsub hitem)

end ImportWatch
