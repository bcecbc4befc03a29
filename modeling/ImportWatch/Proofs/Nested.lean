import ImportWatch.Expansion

/-!
# ImportWatch.Proofs.Nested

Texts with balanced braces, read as plain characters and groups.

* `Balanced` says by counting when the braces of a text are balanced, and
  `Nested` is how such a text is read: every balanced text reads as a nested
  text (`exists_nested`), and in one way only (`Nested.text_injective`);
* `exists_nested_append` reads any text up to its first stray brace;
* what is done to texts is done to nested texts: `splitClosing?_text` for the
  end of a group, `alternatives_text` for its alternatives, `first?_of_choices?`
  and `first?_of_isPlain` for the first group of a text.
-/

namespace ImportWatch

open Text

/-! ## balanced texts -/

/-- A text whose braces are balanced. -/
structure Balanced (s : Text) : Prop where
  /-- No prefix closes more braces than it opens. -/
  opened : ∀ p, p <+: s → p.count '}' ≤ p.count '{'
  /-- As many braces are closed as are opened. -/
  closed : s.count '}' = s.count '{'

/-- No prefix of a text closes more braces than it opens and `depth` others. -/
def ClosesAtMost (depth : Nat) (s : Text) : Prop :=
  ∀ p, p <+: s → p.count '}' ≤ p.count '{' + depth

theorem closesAtMost_nil (depth : Nat) : ClosesAtMost depth [] := by
  intro p hp
  rw [List.prefix_nil.1 hp]
  exact Nat.zero_le _

theorem closesAtMost_opening {depth : Nat} {s : Text} :
    ClosesAtMost depth ('{' :: s) ↔ ClosesAtMost (depth + 1) s := by
  constructor
  · intro h p hp
    have := h ('{' :: p) (List.cons_prefix_cons.2 ⟨rfl, hp⟩)
    simp at this
    omega
  · intro h p hp
    rcases List.prefix_cons_iff.1 hp with rfl | ⟨q, rfl, hq⟩
    · exact Nat.zero_le _
    · have := h q hq
      simp
      omega

theorem closesAtMost_closing {depth : Nat} {s : Text} :
    ClosesAtMost (depth + 1) ('}' :: s) ↔ ClosesAtMost depth s := by
  constructor
  · intro h p hp
    have := h ('}' :: p) (List.cons_prefix_cons.2 ⟨rfl, hp⟩)
    simp at this
    omega
  · intro h p hp
    rcases List.prefix_cons_iff.1 hp with rfl | ⟨q, rfl, hq⟩
    · exact Nat.zero_le _
    · have := h q hq
      simp
      omega

theorem not_closesAtMost_zero_closing (s : Text) : ¬ ClosesAtMost 0 ('}' :: s) := by
  intro h
  have := h ['}'] (List.prefix_append ['}'] s)
  simp at this

theorem closesAtMost_plain {depth : Nat} {c : Char} (h : isBrace c = false) {s : Text} :
    ClosesAtMost depth (c :: s) ↔ ClosesAtMost depth s := by
  simp only [isBrace, Bool.or_eq_false_iff, beq_eq_false_iff_ne] at h
  constructor
  · intro hc p hp
    have := hc (c :: p) (List.cons_prefix_cons.2 ⟨rfl, hp⟩)
    simpa [List.count_cons_of_ne, h.1, h.2] using this
  · intro hc p hp
    rcases List.prefix_cons_iff.1 hp with rfl | ⟨q, rfl, hq⟩
    · exact Nat.zero_le _
    · simpa [List.count_cons_of_ne, h.1, h.2] using hc q hq

theorem balanced_iff {s : Text} :
    Balanced s ↔ ClosesAtMost 0 s ∧ s.count '}' = s.count '{' :=
  ⟨fun h => ⟨h.opened, h.closed⟩, fun h => ⟨h.1, h.2⟩⟩

instance (s : Text) : Decidable (Balanced s) :=
  decidable_of_iff
    ((∀ n, n < s.length + 1 → (s.take n).count '}' ≤ (s.take n).count '{') ∧
      s.count '}' = s.count '{')
    ⟨fun h => ⟨fun p hp => by
        have := h.1 p.length (Nat.lt_succ_of_le hp.length_le)
        rwa [← List.prefix_iff_eq_take.1 hp] at this, h.2⟩,
      fun h => ⟨fun n _ => h.opened _ (List.take_prefix n s), h.closed⟩⟩

/-! ## nested texts -/

/-- A text with balanced braces, read as plain characters and groups. -/
inductive Nested where
  | nil
  | char (c : Char) (plain : isBrace c = false) (rest : Nested)
  | group (inside rest : Nested)
  deriving DecidableEq, Repr

namespace Nested

/-- The text that is read as a nested text. -/
def text : Nested → Text
  | nil => []
  | char c _ rest => c :: rest.text
  | group inside rest => '{' :: (inside.text ++ '}' :: rest.text)

/-- A nested text with another one behind it. -/
def append : Nested → Nested → Nested
  | nil, t => t
  | char c h rest, t => char c h (rest.append t)
  | group inside rest, t => group inside (rest.append t)

@[simp] theorem text_append (t u : Nested) : (t.append u).text = t.text ++ u.text := by
  induction t with
  | nil => rfl
  | char c h rest ih => simp [append, text, ih]
  | group inside rest _ ih => simp [append, text, ih]

@[simp] theorem append_nil (t : Nested) : t.append nil = t := by
  induction t with
  | nil => rfl
  | char c h rest ih => rw [append, ih]
  | group inside rest _ ih => rw [append, ih]

theorem closesAtMost_text_append {depth : Nat} (t : Nested) {s : Text}
    (h : ClosesAtMost depth s) : ClosesAtMost depth (t.text ++ s) := by
  induction t generalizing depth s with
  | nil => exact h
  | char c hc rest ih => exact (closesAtMost_plain hc).2 (ih h)
  | group inside rest ihi ihr =>
      rw [text, List.cons_append, List.append_assoc, closesAtMost_opening]
      exact ihi (closesAtMost_closing.2 (ihr h))

theorem count_text (t : Nested) : t.text.count '}' = t.text.count '{' := by
  induction t with
  | nil => rfl
  | char c h rest ih =>
      simp only [isBrace, Bool.or_eq_false_iff, beq_eq_false_iff_ne] at h
      simp [text, List.count_cons_of_ne, h.1, h.2, ih]
  | group inside rest ihi ihr =>
      simp [text, ihi, ihr]
      omega

theorem balanced_text (t : Nested) : Balanced t.text := by
  have := t.closesAtMost_text_append (closesAtMost_nil 0)
  rw [List.append_nil] at this
  exact balanced_iff.2 ⟨this, t.count_text⟩

end Nested

/-! ## the end of a group -/

/-- The closing brace is found behind any pieces that stand before it. -/
theorem splitClosing?_text (depth : Nat) (t : Nested) (s : Text) :
    splitClosing? depth (t.text ++ s) =
      (splitClosing? depth s).map fun (a, b) => (t.text ++ a, b) := by
  induction t generalizing depth s with
  | nil => cases h : splitClosing? depth s <;> simp [Nested.text, h]
  | char c h rest ih =>
      rw [Nested.text, List.cons_append, splitClosing?_plain depth h, ih, Option.map_map]
      rfl
  | group inside rest ihi ihr =>
      rw [Nested.text, List.cons_append, List.append_assoc, List.cons_append,
        splitClosing?_opening, ihi, splitClosing?_closing_succ, ihr]
      cases splitClosing? depth s <;> simp

theorem splitClosing?_text_closing (t : Nested) (s : Text) :
    splitClosing? 0 (t.text ++ '}' :: s) = some (t.text, s) := by
  rw [splitClosing?_text, splitClosing?_closing_zero]
  simp

/-- What stands before the closing brace closes as many braces as it opens and
the `depth` ones that were open. -/
theorem count_of_splitClosing? {depth : Nat} {s a b : Text}
    (h : splitClosing? depth s = some (a, b)) :
    ClosesAtMost depth a ∧ a.count '}' = a.count '{' + depth := by
  fun_induction splitClosing? depth s generalizing a with
  | case1 => simp at h
  | case2 depth s ih =>
      simp only [Option.map_eq_some_iff, Prod.exists, Prod.mk.injEq] at h
      obtain ⟨a', b', hab, rfl, rfl⟩ := h
      obtain ⟨hopen, hcount⟩ := ih hab
      refine ⟨closesAtMost_opening.2 hopen, ?_⟩
      simp [hcount]
      omega
  | case3 s hc =>
      simp only [Option.some.injEq, Prod.mk.injEq] at h
      obtain ⟨rfl, rfl⟩ := h
      exact ⟨closesAtMost_nil 0, rfl⟩
  | case4 s depth hc ih =>
      simp only [Option.map_eq_some_iff, Prod.exists, Prod.mk.injEq] at h
      obtain ⟨a', b', hab, rfl, rfl⟩ := h
      obtain ⟨hopen, hcount⟩ := ih hab
      refine ⟨closesAtMost_closing.2 hopen, ?_⟩
      simp [hcount]
      omega
  | case5 depth c s hc hd ih =>
      simp only [Option.map_eq_some_iff, Prod.exists, Prod.mk.injEq] at h
      obtain ⟨a', b', hab, rfl, rfl⟩ := h
      obtain ⟨hopen, hcount⟩ := ih hab
      have hplain : isBrace c = false := by simp [isBrace, hc, hd]
      refine ⟨(closesAtMost_plain hplain).2 hopen, ?_⟩
      simp [List.count_cons_of_ne, hc, hd, hcount]

theorem balanced_of_splitClosing? {s a b : Text} (h : splitClosing? 0 s = some (a, b)) :
    Balanced a :=
  balanced_iff.2 (count_of_splitClosing? h)

/-- Where no brace closes the open group, the text closes at most the braces
that it opens and the `depth` other ones. -/
theorem count_of_splitClosing?_eq_none {depth : Nat} {s : Text}
    (h : splitClosing? depth s = none) : s.count '}' ≤ s.count '{' + depth := by
  fun_induction splitClosing? depth s with
  | case1 => exact Nat.zero_le _
  | case2 depth s ih =>
      have := ih (Option.map_eq_none_iff.1 h)
      simp
      omega
  | case3 s hc => simp at h
  | case4 s depth hc ih =>
      have := ih (Option.map_eq_none_iff.1 h)
      simp
      omega
  | case5 depth c s hc hd ih =>
      have := ih (Option.map_eq_none_iff.1 h)
      simpa [List.count_cons_of_ne, hc, hd] using this

/-! ## reading texts as pieces -/

/-- Balanced texts read as nested texts. -/
theorem exists_nested {s : Text} (h : Balanced s) : ∃ t : Nested, t.text = s := by
  obtain ⟨hopen, hcount⟩ := balanced_iff.1 h
  clear h
  induction hn : s.length using Nat.strongRecOn generalizing s with
  | ind n ih =>
      subst hn
      cases s with
      | nil => exact ⟨.nil, rfl⟩
      | cons c s =>
          by_cases hc : c = '{'
          · subst hc
            cases hs : splitClosing? 0 s with
            | none =>
                have := count_of_splitClosing?_eq_none hs
                simp at hcount
                omega
            | some ab =>
                obtain ⟨a, b⟩ := ab
                obtain ⟨haopen, hacount⟩ := count_of_splitClosing? hs
                obtain rfl := append_of_splitClosing? hs
                obtain ⟨inside, rfl⟩ := ih a.length (by grind) haopen hacount rfl
                have hbopen : ClosesAtMost 0 b := by
                  intro p hp
                  have := hopen ('{' :: (inside.text ++ '}' :: p)) (by simpa using hp)
                  simp at this hacount
                  omega
                have hbcount : b.count '}' = b.count '{' := by
                  simp at hcount
                  omega
                obtain ⟨rest, rfl⟩ := ih b.length (by simp; omega) hbopen hbcount rfl
                exact ⟨.group inside rest, rfl⟩
          · by_cases hd : c = '}'
            · subst hd
              exact absurd hopen (not_closesAtMost_zero_closing s)
            · have hplain : isBrace c = false := by simp [isBrace, hc, hd]
              have hcount' : s.count '}' = s.count '{' := by
                simpa [List.count_cons_of_ne, hc, hd] using hcount
              obtain ⟨rest, rfl⟩ := ih s.length (by simp) ((closesAtMost_plain hplain).1 hopen)
                hcount' rfl
              exact ⟨.char c hplain rest, rfl⟩

theorem Nested.text_injective {t u : Nested} (h : t.text = u.text) : t = u := by
  induction t generalizing u with
  | nil => cases u <;> simp_all [text]
  | char c hc rest ih =>
      cases u with
      | nil => simp [text] at h
      | char d hd rest' =>
          simp only [text, List.cons.injEq] at h
          obtain ⟨rfl, h⟩ := h
          rw [ih h]
      | group inside rest' =>
          simp only [text, List.cons.injEq] at h
          simp [h.1, isBrace] at hc
  | group inside rest ihi ihr =>
      cases u with
      | nil => simp [text] at h
      | char d hd rest' =>
          simp only [text, List.cons.injEq] at h
          simp [← h.1, isBrace] at hd
      | group inside' rest' =>
          simp only [text, List.cons.injEq, true_and] at h
          have hs := splitClosing?_text_closing inside rest.text
          rw [h, splitClosing?_text_closing] at hs
          simp only [Option.some.injEq, Prod.mk.injEq] at hs
          rw [ihi hs.1.symm, ihr hs.2.symm]

/-- A text that starts with a brace without a partner. -/
inductive Stray : Text → Prop
  | closing (s : Text) : Stray ('}' :: s)
  | opening (s : Text) (h : ∀ a b, s = a ++ '}' :: b → ¬ Balanced a) : Stray ('{' :: s)

theorem splitClosing?_of_stray {s : Text} (h : Stray ('{' :: s)) : splitClosing? 0 s = none := by
  cases h with
  | opening _ h =>
      cases hs : splitClosing? 0 s with
      | none => rfl
      | some ab => exact absurd (balanced_of_splitClosing? hs) (h _ _ (append_of_splitClosing? hs))

/-- Any text reads as pieces up to its end or up to a stray brace. -/
theorem exists_nested_append (s : Text) :
    ∃ (t : Nested) (rest : Text), s = t.text ++ rest ∧ (rest = [] ∨ Stray rest) := by
  induction hn : s.length using Nat.strongRecOn generalizing s with
  | ind n ih =>
      subst hn
      cases s with
      | nil => exact ⟨.nil, [], rfl, .inl rfl⟩
      | cons c s =>
          by_cases hc : c = '{'
          · subst hc
            by_cases hs : ∃ a b, s = a ++ '}' :: b ∧ Balanced a
            · obtain ⟨a, b, rfl, ha⟩ := hs
              obtain ⟨inside, rfl⟩ := exists_nested ha
              obtain ⟨t, rest, rfl, hrest⟩ := ih b.length (by simp; omega) b rfl
              exact ⟨.group inside t, rest, by simp [Nested.text], hrest⟩
            · refine ⟨.nil, '{' :: s, rfl, .inr (.opening s ?_)⟩
              exact fun a b hab ha => hs ⟨a, b, hab, ha⟩
          · by_cases hd : c = '}'
            · subst hd
              exact ⟨.nil, '}' :: s, rfl, .inr (.closing s)⟩
            · obtain ⟨t, rest, rfl, hrest⟩ := ih s.length (by simp) s rfl
              exact ⟨.char c (by simp [isBrace, hc, hd]) t, rest, rfl, hrest⟩

/-! ## the alternatives of a group -/

namespace Nested

/-- The parts between the commas that stand outside of groups. -/
def splitCommas : Nested → List Nested
  | nil => [nil]
  | char c h rest =>
    if c = ',' then nil :: rest.splitCommas
    else List.modifyHead (char c h) rest.splitCommas
  | group inside rest => List.modifyHead (group inside) rest.splitCommas

/-- A nested text without the blanks that it starts with. -/
def trimStart : Nested → Nested
  | nil => nil
  | char c h rest => if isBlank c then rest.trimStart else char c h rest
  | group inside rest => group inside rest

/-- A nested text without the blanks that it ends with. -/
def trimEnd : Nested → Nested
  | nil => nil
  | char c h rest => if isBlank c ∧ rest.trimEnd = nil then nil else char c h rest.trimEnd
  | group inside rest => group inside rest.trimEnd

/-- A nested text without the blanks at both of its ends. -/
def trim (t : Nested) : Nested := t.trimStart.trimEnd

/-- The alternatives that stand in a group: the parts between its own commas,
trimmed, without the blank ones. -/
def alternatives (inside : Nested) : List Nested :=
  (inside.splitCommas.map trim).filter fun t => t ≠ nil

theorem text_eq_nil_iff (t : Nested) : t.text = [] ↔ t = nil := by
  cases t <;> simp [text]

theorem text_trimStart (t : Nested) : t.trimStart.text = Text.trimStart t.text := by
  induction t with
  | nil => rfl
  | char c h rest ih =>
      rw [trimStart, text]
      by_cases hc : isBlank c
      · rw [if_pos hc, ih, trimStart_cons_of_isBlank hc]
      · rw [if_neg hc, trimStart_cons_of_not_isBlank (by simpa using hc), text]
  | group inside rest _ _ => rw [trimStart, text, trimStart_cons_of_not_isBlank (by decide)]

theorem text_trimEnd (t : Nested) : t.trimEnd.text = Text.trimEnd t.text := by
  induction t with
  | nil => rfl
  | char c h rest ih =>
      rw [trimEnd, text, trimEnd_cons, ← ih]
      simp only [text_eq_nil_iff]
      by_cases hc : isBlank c = true ∧ rest.trimEnd = nil
      · rw [if_pos hc, if_pos hc, text]
      · rw [if_neg hc, if_neg hc, text]
  | group inside rest _ ih =>
      have hclose :=
        trimEnd_append_cons_of_not_isBlank (c := '}') rfl ('{' :: inside.text) rest.text
      rw [trimEnd, text, text, ih]
      exact hclose.symm

theorem text_trim (t : Nested) : t.trim.text = Text.trim t.text := by
  rw [trim, text_trimEnd, text_trimStart, Text.trim]

end Nested

/-- Commas behind an open group do not split. -/
theorem splitCommas_text_append (depth : Nat) (t : Nested) (s : Text) :
    splitCommas (depth + 1) (t.text ++ s) =
      List.modifyHead (t.text ++ ·) (splitCommas (depth + 1) s) := by
  induction t generalizing depth s with
  | nil => cases h : splitCommas (depth + 1) s <;> simp [Nested.text, h]
  | char c h rest ih =>
      simp only [isBrace, Bool.or_eq_false_iff, beq_eq_false_iff_ne] at h
      simp [Nested.text, splitCommas, h.1, h.2, ih, Function.comp_def]
  | group inside rest ihi ihr =>
      simp [Nested.text, splitCommas, ihi, ihr, Function.comp_def]

theorem splitCommas_text (t : Nested) :
    splitCommas 0 t.text = t.splitCommas.map Nested.text := by
  induction t with
  | nil => rfl
  | char c h rest ih =>
      have hbrace := h
      simp only [isBrace, Bool.or_eq_false_iff, beq_eq_false_iff_ne] at h
      rw [Nested.text, splitCommas, if_neg h.1, if_neg h.2, Nested.splitCommas, ih]
      by_cases hc : c = ','
      · simp [hc, Nested.text]
      · rw [if_neg (by simp [hc]), if_neg hc]
        cases rest.splitCommas <;> simp [Nested.text]
  | group inside rest _ ihr =>
      rw [Nested.text, splitCommas, if_pos rfl, splitCommas_text_append, splitCommas,
        if_neg (by decide), if_pos rfl, ihr, Nested.splitCommas]
      cases rest.splitCommas <;> simp [Nested.text]

/-- The alternatives in a text are those of the nested text that it reads as. -/
theorem alternatives_text (t : Nested) :
    alternatives t.text = t.alternatives.map Nested.text := by
  have hempty (u : Nested) : (!(trim u.text).isEmpty) = decide (u.trim ≠ .nil) := by
    rw [← Nested.text_trim]
    cases u.trim <;> simp [Nested.text]
  simp only [alternatives, Nested.alternatives, splitCommas_text, List.filter_map, List.map_map,
    Function.comp_def, hempty, Nested.text_trim]

/-! ## the first group -/

namespace Nested

/-- The texts with the first group replaced by each of its alternatives, if there is a group. -/
def choices? : Nested → Option (List Nested)
  | nil => none
  | char c h rest => rest.choices?.map (List.map (char c h))
  | group inside rest => some (inside.alternatives.map (·.append rest))

/-- True for the texts without groups. -/
def isPlain (t : Nested) : Bool := t.choices?.isNone

theorem isBrace_of_isPlain {t : Nested} (h : t.isPlain = true) :
    ∀ c ∈ t.text, isBrace c = false := by
  induction t with
  | nil => simp [text]
  | char c hc rest ih =>
      simp only [isPlain, choices?, Option.isNone_map] at h
      simpa [text, hc] using ih h
  | group inside rest _ _ => simp [isPlain, choices?] at h

end Nested

/-- The first group of a text is the first one of the nested text that it starts with. -/
theorem first?_of_choices? {t : Nested} {ts : List Nested} (h : t.choices? = some ts) (s : Text) :
    ∃ g, Braced.first? (t.text ++ s) = .ok (some g) ∧ g.choices = ts.map (·.text ++ s) := by
  induction t generalizing ts with
  | nil => simp [Nested.choices?] at h
  | char c hc rest ih =>
      simp only [Nested.choices?, Option.map_eq_some_iff] at h
      obtain ⟨us, hus, rfl⟩ := h
      obtain ⟨g, hg, hchoices⟩ := ih hus
      refine ⟨{ g with before := c :: g.before }, Braced.first?_plain hc hg, ?_⟩
      have hfill : Braced.fill { g with before := c :: g.before } = (c :: g.fill ·) := by
        funext a
        simp [Braced.fill]
      have hcons := congrArg (List.map (c :: ·)) hchoices
      rw [Braced.choices, List.map_map] at hcons
      rw [Braced.choices, hfill]
      simpa [Function.comp_def, Nested.text] using hcons
  | group inside rest _ _ =>
      simp only [Nested.choices?, Option.some.injEq] at h
      subst h
      refine ⟨⟨[], inside.text, rest.text ++ s⟩, ?_, ?_⟩
      · simp [Braced.first?, Nested.text, isBrace, splitClosing?_text_closing]
      · simp [Braced.choices, Braced.fill, alternatives_text, Function.comp_def]

theorem dropWhile_of_isPlain {t : Nested} (h : t.isPlain = true) (s : Text) :
    (t.text ++ s).dropWhile (fun c => !isBrace c) = s.dropWhile (fun c => !isBrace c) :=
  List.dropWhile_append_of_pos fun c hc => by simp [Nested.isBrace_of_isPlain h c hc]

/-- A text without braces has no group. -/
theorem first?_of_isPlain {t : Nested} (h : t.isPlain = true) :
    Braced.first? t.text = .ok none := by
  have hdrop := dropWhile_of_isPlain h []
  rw [List.append_nil, List.dropWhile_nil] at hdrop
  rw [Braced.first?, hdrop]

/-- A stray brace behind a text without braces is rejected. -/
theorem first?_of_stray {t : Nested} (h : t.isPlain = true) {s : Text} (hs : Stray s) :
    ∃ e, Braced.first? (t.text ++ s) = .error e := by
  have hdrop := dropWhile_of_isPlain h s
  cases hs with
  | closing s =>
      rw [List.dropWhile_cons_of_neg (by decide)] at hdrop
      refine ⟨.unmatchedBrace (t.text ++ '}' :: s), ?_⟩
      rw [Braced.first?, hdrop]
      rfl
  | opening s hopen =>
      have hnone := splitClosing?_of_stray (.opening s hopen)
      rw [List.dropWhile_cons_of_neg (by decide)] at hdrop
      refine ⟨.unclosedBrace (t.text ++ '{' :: s), ?_⟩
      rw [Braced.first?, hdrop]
      simp [hnone]

end ImportWatch
