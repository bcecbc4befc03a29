import ImportWatch.Proofs.PathPieces
import ImportWatch.Watchlist

/-!
# ImportWatch.Proofs.Patterns

Patterns that are written like paths.

A pattern is cut at its separators as a path is, but none of the other rules for paths applies to
it: a leading separator, a rename and a final `self` are kept as segments or parts of them.

* `covers_ofText_iff`: a pattern covers the paths that start with its pieces;
* `IsLiteral` are the texts that none of the other rules applies to;
  `IsLiteral.trimmedPieces_eq` and `IsLiteral.of_isPrefix` say that these are the paths whose
  pieces are their segments;
* `covers_iff_of_read`: exactly these patterns cover what is written in them and what is below it.
-/

namespace ImportWatch

open Text

namespace Pattern

/-- A pattern covers the paths that start with its pieces. -/
theorem covers_ofText_iff (text : Text) (q : ModulePath) :
    (ofText text).covers q = true ↔ trimmedPieces text <+: q.segments := by
  rw [covers, ModulePath.startsWith_iff, ← trimmedPieces_trim text]
  rfl

end Pattern

/-! ## leading separators -/

/-- Behind a leading separator the pieces start with an empty one. -/
theorem exists_trimmedPieces_of_isPrefix {text : Text} (h : pathSeparator <+: trim text) :
    ∃ ps, trimmedPieces text = [] :: ps := by
  obtain ⟨t, ht⟩ := h
  refine ⟨trimmedPieces t, ?_⟩
  rw [← trimmedPieces_trim text, ← ht]
  rfl

/-- Without a leading separator no piece is dropped. -/
theorem dropEmptyLead_trimmedPieces {text : Text} (h : ¬pathSeparator <+: trim text) :
    dropEmptyLead (trimmedPieces text) = trimmedPieces text := by
  have hlead : withoutLeadingSeparator (trim text) = trim text := by
    rw [withoutLeadingSeparator]
    intro t ht
    exact h ⟨t, ht.symm⟩
  rw [← trimmedPieces_withoutLeadingSeparator, hlead, trimmedPieces_trim]

theorem length_dropEmptyLead_le (ss : List Text) : (dropEmptyLead ss).length ≤ ss.length := by
  unfold dropEmptyLead
  split
  · simp
  · exact Nat.le_refl _

/-! ## literal texts -/

/-- True for the texts to which no rule for paths applies but that for separators: they have no
leading separator, no rename in the last piece and no final `self` behind other pieces. -/
structure IsLiteral (text : Text) : Prop where
  root : ¬pathSeparator <+: trim text
  rename : ∀ s ∈ (trimmedPieces text).getLast?, ¬renameMark <:+: s
  self : (trimmedPieces text).getLast? = some ModulePath.selfSegment →
    trimmedPieces text = [ModulePath.selfSegment]

section

variable {text : Text} {p : ModulePath}

/-- The pieces of a literal text are the segments of its path. -/
theorem IsLiteral.trimmedPieces_eq (hliteral : IsLiteral text) (h : ModulePath.read text = .ok p) :
    trimmedPieces text = p.segments := by
  obtain ⟨ms, s, hpieces⟩ :=
    (List.eq_nil_or_concat' (trimmedPieces text)).resolve_left (trimmedPieces_ne_nil text)
  have hlast : trimEnd (withoutRename s) = s := by
    have hs : s ∈ trimmedPieces text := hpieces ▸ List.mem_concat_self
    obtain ⟨t, _, rfl⟩ := List.mem_map.1 hs
    have hrename := hliteral.rename (trim t) (by rw [hpieces, List.getLast?_concat]; rfl)
    rw [withoutRename_eq_self hrename, trimEnd_trim]
  have hself : ¬(s = ModulePath.selfSegment ∧ ms ≠ []) := by
    rintro ⟨rfl, hms⟩
    have honly := hliteral.self (by rw [hpieces, List.getLast?_concat])
    rw [hpieces] at honly
    exact hms (by simpa using honly)
  rw [(ModulePath.segments_eq_of_read h).1, ModulePath.writtenSegments_eq,
    dropEmptyLead_trimmedPieces hliteral.root, hpieces, ModulePath.mapLast_append, hlast,
    ModulePath.dropFinalSelf_append, if_neg hself]

/-- A path that starts with the pieces of the text that it is read from was written literally. -/
theorem IsLiteral.of_isPrefix (h : ModulePath.read text = .ok p)
    (hlead : trimmedPieces text <+: p.segments) : IsLiteral text := by
  obtain ⟨hsegments, hnonempty⟩ := ModulePath.segments_eq_of_read h
  have hsublist := ModulePath.dropFinalSelf_sublist (ModulePath.writtenSegments text)
  have hwritten : (ModulePath.writtenSegments text).length ≤ (trimmedPieces text).length := by
    rw [ModulePath.writtenSegments_eq, ModulePath.length_mapLast]
    exact length_dropEmptyLead_le (trimmedPieces text)
  -- the segments are as many as the pieces, so nothing was dropped
  have hlength := hlead.length_le
  have hkept := hsublist.length_le
  rw [← hsegments] at hsublist hkept
  have hpieces : trimmedPieces text = p.segments := hlead.eq_of_length (by omega)
  have hall : p.segments = ModulePath.writtenSegments text := hsublist.eq_of_length (by omega)
  refine ⟨fun hroot => ?_, fun s hs => ?_, fun hself => ?_⟩
  · obtain ⟨ps, hps⟩ := exists_trimmedPieces_of_isPrefix hroot
    exact hnonempty (hall ▸ hpieces ▸ hps ▸ List.mem_cons_self)
  · rw [hpieces, hall] at hs
    exact ModulePath.not_infix_of_mem_getLast? hs
  · rw [hpieces, hall] at hself ⊢
    exact ModulePath.eq_of_dropFinalSelf_eq (hsegments.symm.trans hall) hself

/-- **Patterns that are written like paths**: a pattern covers the path that is read from its text
and all below it, and nothing else, exactly when the text is literal; no other pattern covers even
that path, and one with a leading separator covers no path at all. -/
theorem covers_iff_of_read (h : ModulePath.read text = .ok p) :
    ((∀ q, (Pattern.ofText text).covers q = true ↔ p.segments <+: q.segments) ↔ IsLiteral text) ∧
      ((Pattern.ofText text).covers p = true ↔ IsLiteral text) ∧
      (pathSeparator <+: trim text → ∀ written q, ModulePath.read written = .ok q →
        (Pattern.ofText text).covers q = false) := by
  have hself : (Pattern.ofText text).covers p = true → IsLiteral text := fun hcovers =>
    .of_isPrefix h ((Pattern.covers_ofText_iff text p).1 hcovers)
  have hall : IsLiteral text → ∀ q, (Pattern.ofText text).covers q = true ↔
      p.segments <+: q.segments := fun hliteral q => by
    rw [Pattern.covers_ofText_iff, hliteral.trimmedPieces_eq h]
  refine ⟨⟨fun hcovers => hself ((hcovers p).2 List.prefix_rfl), hall⟩,
    ⟨hself, fun hliteral => (hall hliteral p).2 List.prefix_rfl⟩, fun hroot written q hq => ?_⟩
  obtain ⟨ps, hps⟩ := exists_trimmedPieces_of_isPrefix hroot
  rw [← Bool.not_eq_true, Pattern.covers_ofText_iff, hps]
  intro hlead
  -- the empty piece would be a segment
  have hempty : [] ∈ q.segments := hlead.subset List.mem_cons_self
  exact ((ModulePath.segments_of_read hq).2 [] hempty).1.ne_nil rfl

end

theorem covers_iff_of_read_spaced :
    let text := " std :: fs ".toList
    let p : ModulePath := ⟨["std".toList, "fs".toList]⟩
    ModulePath.read text = .ok p ∧ IsLiteral text ∧
      ∀ q, (Pattern.ofText text).covers q = true ↔ p.segments <+: q.segments := by
  intro text p
  have h : ModulePath.read text = .ok p := by decide
  have hliteral : IsLiteral text := (covers_iff_of_read h).2.1.1 (by decide)
  exact ⟨h, hliteral, (covers_iff_of_read h).1.2 hliteral⟩

/-- A pattern with a leading separator covers neither the path read from it nor one below. -/
theorem covers_rooted_eq_false :
    let text := "::std::fs".toList
    let fs : ModulePath := ⟨["std".toList, "fs".toList]⟩
    let file : ModulePath := ⟨["std".toList, "fs".toList, "File".toList]⟩
    ModulePath.read text = .ok fs ∧ fs.segments <+: file.segments ∧
      (Pattern.ofText text).covers fs = false ∧ (Pattern.ofText text).covers file = false := by
  decide

/-- Nor does one with a final `self` or with a rename. -/
example : ∀ text ∈ ["std::fs::self".toList, "std::fs as files".toList],
    ModulePath.read text = .ok ⟨["std".toList, "fs".toList]⟩ ∧
      (Pattern.ofText text).covers ⟨["std".toList, "fs".toList]⟩ = false := by
  decide

end ImportWatch
