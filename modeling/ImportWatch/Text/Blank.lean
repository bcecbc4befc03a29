/-!
# ImportWatch.Text.Blank

Texts as lists of characters, and the blank characters that are trimmed from
their ends.

* `isBlank` decides the Unicode property `White_Space`, not only ASCII blanks;
* `trimStart`, `trimEnd` and `trim` remove blanks from the ends of a text, and
  what is left is trim (`isTrim_trim`).
-/

namespace ImportWatch

/-- A text, character by character. -/
abbrev Text := List Char

namespace Text

/-- The twenty-five characters with the Unicode property `White_Space`. -/
def isBlank (c : Char) : Bool :=
  let n := c.toNat
  (0x09 ≤ n && n ≤ 0x0D) || n == 0x20 || n == 0x85 || n == 0xA0 || n == 0x1680 ||
    (0x2000 ≤ n && n ≤ 0x200A) || n == 0x2028 || n == 0x2029 || n == 0x202F ||
    n == 0x205F || n == 0x3000

/-- Drops the blanks that a text starts with. -/
def trimStart (s : Text) : Text := s.dropWhile isBlank

/-- Drops the blanks that a text ends with. -/
def trimEnd (s : Text) : Text := (trimStart s.reverse).reverse

/-- Drops the blanks at both ends of a text. -/
def trim (s : Text) : Text := trimEnd (trimStart s)

/-- True when a text holds nothing but blanks. -/
def isAllBlank (s : Text) : Bool := s.all isBlank

@[simp] theorem isBlank_space : isBlank ' ' = true := rfl

@[simp] theorem isBlank_newline : isBlank '\n' = true := rfl

@[simp] theorem trimStart_nil : trimStart [] = [] := rfl

theorem trimStart_cons_of_isBlank {c : Char} (h : isBlank c = true) (s : Text) :
    trimStart (c :: s) = trimStart s := by
  simp [trimStart, h]

theorem trimStart_cons_of_not_isBlank {c : Char} (h : isBlank c = false) (s : Text) :
    trimStart (c :: s) = c :: s := by
  simp [trimStart, h]

@[simp] theorem trimEnd_nil : trimEnd [] = [] := rfl

/-- A character is dropped from the end only when it is blank and all behind it is dropped. -/
theorem trimEnd_cons (c : Char) (s : Text) :
    trimEnd (c :: s) = if isBlank c = true ∧ trimEnd s = [] then [] else c :: trimEnd s := by
  simp only [trimEnd, trimStart, List.reverse_cons, List.dropWhile_append, List.isEmpty_iff]
  by_cases hs : s.reverse.dropWhile isBlank = []
  · by_cases hc : isBlank c = true <;> simp [hs, hc]
  · simp [hs]

/-- Trimming the end stops at the last character that is not blank. -/
theorem trimEnd_append_cons_of_not_isBlank {c : Char} (h : isBlank c = false) (s t : Text) :
    trimEnd (s ++ c :: t) = s ++ c :: trimEnd t := by
  simp only [trimEnd, trimStart, List.reverse_append, List.reverse_cons, List.append_assoc,
    List.dropWhile_append, List.isEmpty_iff]
  by_cases ht : t.reverse.dropWhile isBlank = [] <;> simp [ht, h]

theorem isPrefix_trimEnd (s : Text) : trimEnd s <+: s := by
  have := List.reverse_prefix.2 (List.dropWhile_suffix (l := s.reverse) isBlank)
  rwa [List.reverse_reverse] at this

theorem isInfix_trim (s : Text) : trim s <:+: s :=
  (isPrefix_trimEnd (trimStart s)).isInfix.trans (List.dropWhile_suffix _).isInfix

theorem trim_sublist (s : Text) : (trim s).Sublist s := (isInfix_trim s).sublist

theorem length_trimStart_le (s : Text) : (trimStart s).length ≤ s.length :=
  (List.dropWhile_sublist _).length_le

end Text

open Text

/-- A text that neither starts nor ends with a blank. -/
structure IsTrim (s : Text) : Prop where
  start : ∃ c t, s = c :: t ∧ isBlank c = false
  stop : ∃ t c, s = t ++ [c] ∧ isBlank c = false

namespace IsTrim

variable {s : Text}

theorem trimEnd_eq (h : IsTrim s) : trimEnd s = s := by
  obtain ⟨t, c, rfl, hc⟩ := h.stop
  rw [trimEnd_append_cons_of_not_isBlank hc, trimEnd_nil]

theorem trim_eq (h : IsTrim s) : trim s = s := by
  have hstart : trimStart s = s := by
    obtain ⟨c, t, rfl, hc⟩ := h.start
    exact trimStart_cons_of_not_isBlank hc t
  rw [trim, hstart, h.trimEnd_eq]

/-- A text without blanks is trim. -/
theorem of_not_isBlank (hne : s ≠ []) (h : ∀ c ∈ s, isBlank c = false) : IsTrim s := by
  constructor
  · obtain ⟨c, t, rfl⟩ := List.exists_cons_of_ne_nil hne
    exact ⟨c, t, rfl, h c List.mem_cons_self⟩
  · exact ⟨s.dropLast, s.getLast hne, (List.dropLast_concat_getLast hne).symm,
      h _ (List.getLast_mem hne)⟩

theorem ne_nil (h : IsTrim s) : s ≠ [] := by
  obtain ⟨c, t, rfl, _⟩ := h.start
  exact List.cons_ne_nil c t

theorem isBlank_head (h : IsTrim s) : ∀ c ∈ s.head?, isBlank c = false := by
  obtain ⟨c, t, rfl, hc⟩ := h.start
  simpa using hc

theorem isBlank_getLast (h : IsTrim s) : ∀ c ∈ s.getLast?, isBlank c = false := by
  obtain ⟨t, c, rfl, hc⟩ := h.stop
  simpa using hc

theorem append {t : Text} (hs : IsTrim s) (ht : IsTrim t) (u : Text) : IsTrim (s ++ (u ++ t)) := by
  obtain ⟨c, s', rfl, hc⟩ := hs.start
  obtain ⟨t', d, rfl, hd⟩ := ht.stop
  exact ⟨⟨c, _, rfl, hc⟩, ⟨c :: s' ++ (u ++ t'), d, by simp, hd⟩⟩

end IsTrim

theorem Text.trimStart_eq_cons {s t : Text} {c : Char} (h : trimStart s = c :: t) :
    isBlank c = false := by
  have := List.head?_dropWhile_not isBlank s
  rw [show s.dropWhile isBlank = c :: t from h] at this
  simpa using this

/-- What is left of a text that is trimmed is trim. -/
theorem Text.isTrim_trim {s : Text} (h : trim s ≠ []) : IsTrim (trim s) := by
  constructor
  · cases hs : trimStart s with
    | nil => simp [trim, hs] at h
    | cons c t =>
        have hc := trimStart_eq_cons hs
        exact ⟨c, trimEnd t, by simp [trim, hs, trimEnd_cons, hc], hc⟩
  · cases hs : trimStart (trimStart s).reverse with
    | nil => simp [trim, trimEnd, hs] at h
    | cons c t => exact ⟨t.reverse, c, by simp [trim, trimEnd, hs], trimStart_eq_cons hs⟩

/-- What is cut from a trim text at its start and trimmed is trim. -/
theorem IsTrim.trimEnd_of_isPrefix {s t : Text} (hs : IsTrim s) (ht : t <+: s)
    (hne : trimEnd t ≠ []) : IsTrim (trimEnd t) := by
  obtain ⟨c, s, rfl, hc⟩ := hs.start
  cases t with
  | nil => exact absurd rfl hne
  | cons d t =>
      obtain ⟨rfl, _⟩ := List.cons_prefix_cons.1 ht
      have htrim : trim (d :: t) = trimEnd (d :: t) := by
        rw [trim, trimStart_cons_of_not_isBlank hc]
      rw [← htrim] at hne ⊢
      exact isTrim_trim hne

end ImportWatch
