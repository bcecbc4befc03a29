import ImportWatch.Report.Json
import Mathlib.Data.List.Forall2

/-!
# ImportWatch.Proofs.JsonReader

Reading JSON, and what is read in a machine-readable summary.

The reader knows JSON and nothing of its writer: it takes blanks between any
two marks, all escapes of characters, and members in any order.  It refuses what
no summary has: truth values, `null`, numbers with a sign, a fraction or an
exponent, and escapes of surrogates.

* `Json` are the values, and `Json.read?` reads a text as one of them;
* `Json.IsRead` says that a reader finds a value in a text wherever the text
  stands; `isRead_number`, `isRead_quoted`, `isRead_array` and `isRead_object`
  say what is found in the texts that `Report.Json` writes;
* `Report.read?_render`: a machine-readable summary is read, and its
  members tell the digest.
-/

namespace ImportWatch

open Text

theorem forall₂_map_of_forall_mem {α β γ : Type} {R : β → γ → Prop} {as : List α} {f : α → β}
    {g : α → γ} (h : ∀ a ∈ as, R (f a) (g a)) : List.Forall₂ R (as.map f) (as.map g) := by
  rw [List.forall₂_map_left_iff, List.forall₂_map_right_iff]
  exact List.forall₂_same.2 h

/-- A JSON value; the members of an object stand in their order. -/
inductive Json where
  | number (n : Nat)
  | string (t : Text)
  | array (items : List Json)
  | object (members : List (Text × Json))

namespace Json

/-- An object with a number for each name. -/
def numbers (es : List (Text × Nat)) : Json := object (es.map fun e => (e.1, number e.2))

/-- The first member of an object with a name. -/
def member? (name : Text) : Json → Option Json
  | object members => members.lookup name
  | _ => none

/-! ## the reader -/

/-- What reads something at the start of a text: what is found, and the text behind it. -/
abbrev Reader (α : Type) := Text → Option (α × Text)

/-- True for the blanks between the marks of a JSON text. -/
def isSpace (c : Char) : Bool := c == ' ' || c == '\n' || c == '\r' || c == '\t'

/-- The text behind a mark, with or without blanks in front of the mark. -/
def mark? (mark : Char) (t : Text) : Option Text :=
  match t.dropWhile isSpace with
  | [] => none
  | c :: t => if c = mark then some t else none

/-- The value of a hexadecimal digit. -/
def hexValue? (c : Char) : Option Nat :=
  if '0'.toNat ≤ c.toNat ∧ c.toNat ≤ '9'.toNat then some (c.toNat - '0'.toNat)
  else if 'a'.toNat ≤ c.toNat ∧ c.toNat ≤ 'f'.toNat then some (c.toNat - 'a'.toNat + 10)
  else if 'A'.toNat ≤ c.toNat ∧ c.toNat ≤ 'F'.toNat then some (c.toNat - 'A'.toNat + 10)
  else none

/-- The character with a number of four hexadecimal digits; surrogates are no characters. -/
def numbered? (a b c d : Char) : Option Char := do
  let n := (((← hexValue? a) * 16 + (← hexValue? b)) * 16 + (← hexValue? c)) * 16 + (← hexValue? d)
  if n < 0xD800 ∨ 0xE000 ≤ n then some (Char.ofNat n) else none

/-- The character that a letter behind a backslash stands for. -/
def escape? (c : Char) : Option Char :=
  [('"', '"'), ('\\', '\\'), ('/', '/'), ('b', '\x08'), ('f', '\x0c'), ('n', '\n'), ('r', '\r'),
    ('t', '\t')].lookup c

/-- Reads a string behind its opening mark. -/
def string? : Reader Text
  | [] => none
  | '"' :: t => some ([], t)
  | '\\' :: 'u' :: a :: b :: c :: d :: t => do
    let first ← numbered? a b c d
    let (s, rest) ← string? t
    return (first :: s, rest)
  | '\\' :: c :: t => do
    let first ← escape? c
    let (s, rest) ← string? t
    return (first :: s, rest)
  | c :: t =>
    if c.toNat < 0x20 then none
    else do
      let (s, rest) ← string? t
      return (c :: s, rest)

/-- Reads a number; only zero starts with the digit zero. -/
def number? : Reader Nat := fun t =>
  match t.takeWhile Char.isDigit with
  | [] => none
  | '0' :: _ :: _ => none
  | digits => some (Nat.ofDigitChars 10 digits 0, t.dropWhile Char.isDigit)

/-- Reads items with commas between them, and the closing mark behind them. -/
def items? (closing : Char) (item : Reader α) : Nat → Reader (List α)
  | 0, _ => none
  | fuel + 1, t => do
    let (a, t) ← item t
    match mark? ',' t with
    | some t =>
      let (as, rest) ← items? closing item fuel t
      return (a :: as, rest)
    | none =>
      let rest ← mark? closing t
      return ([a], rest)

/-- Reads any number of items, each of which takes at least one character, up to a closing mark. -/
def listed? (closing : Char) (item : Reader α) : Reader (List α) := fun t =>
  match mark? closing t with
  | some rest => some ([], rest)
  | none => items? closing item t.length t

/-- Reads a member of an object: its name, a colon and its value. -/
def pair? (value : Reader Json) : Reader (Text × Json) := fun t => do
  let (name, t) ← string? (← mark? '"' t)
  let (v, rest) ← value (← mark? ':' t)
  return ((name, v), rest)

/-- Reads a value in which containers are nested less than `depth` times. -/
def value? : Nat → Reader Json
  | 0, _ => none
  | depth + 1, t =>
    match t.dropWhile isSpace with
    | '"' :: t => (string? t).map (Prod.map string id)
    | '[' :: t => (listed? ']' (value? depth) t).map (Prod.map array id)
    | '\x7b' :: t => (listed? '\x7d' (pair? (value? depth)) t).map (Prod.map object id)
    | t => (number? t).map (Prod.map number id)

/-- The value that a text is; every container takes at least one character. -/
def read? (t : Text) : Option Json :=
  match value? t.length t with
  | some (v, rest) => if rest.all isSpace then some v else none
  | none => none

/-- Blanks may stand between any two marks, and any character may be escaped. -/
example : read? " \x7b \"\\u0041\\/\":[ 1 ,\x7b\x7d]\x7d\n".toList =
    some (object [("A/".toList, array [number 1, object []])]) := by
  cbv

/-! ## what is found in a text -/

/-- True when a reader finds a value in a text wherever it stands: behind any blanks, and in front
of anything but another digit. -/
def IsRead (reader : Reader α) (t : Text) (a : α) : Prop :=
  ∀ blanks rest : Text, (∀ c ∈ blanks, isSpace c = true) → (∀ c ∈ rest.head?, c.isDigit = false) →
    reader (blanks ++ (t ++ rest)) = some (a, rest)

section

variable {blanks : Text} (hblanks : ∀ c ∈ blanks, isSpace c = true)

include hblanks

theorem dropWhile_isSpace {c : Char} (hc : isSpace c = false) (t : Text) :
    (blanks ++ c :: t).dropWhile isSpace = c :: t := by
  rw [List.dropWhile_append_of_pos hblanks, List.dropWhile_cons_of_neg (by simp [hc])]

theorem mark?_self {mark : Char} (hmark : isSpace mark = false) (t : Text) :
    mark? mark (blanks ++ mark :: t) = some t := by
  rw [mark?, dropWhile_isSpace hblanks hmark]
  exact if_pos rfl

theorem mark?_of_ne {mark c : Char} (hc : isSpace c = false) (hne : c ≠ mark) (t : Text) :
    mark? mark (blanks ++ c :: t) = none := by
  rw [mark?, dropWhile_isSpace hblanks hc]
  exact if_neg hne

end

theorem mark?_cons_self {mark : Char} (hmark : isSpace mark = false) (t : Text) :
    mark? mark (mark :: t) = some t :=
  mark?_self (List.forall_mem_nil _) hmark t

/-! ## strings -/

theorem hexValue?_hexDigit : ∀ n < 16, hexValue? (Report.hexDigit n) = some n := by
  decide

/-- A control character is found by its number. -/
theorem numbered?_control {c : Char} (h : c.toNat < 0x20) :
    numbered? '0' '0' (Report.hexDigit (c.toNat / 16)) (Report.hexDigit (c.toNat % 16)) =
      some c := by
  have hsum : ((0 * 16 + 0) * 16 + c.toNat / 16) * 16 + c.toNat % 16 = c.toNat := by omega
  have hzero : hexValue? '0' = some 0 := rfl
  simp only [numbered?, hzero, hexValue?_hexDigit _ (show c.toNat / 16 < 16 by omega),
    hexValue?_hexDigit _ (show c.toNat % 16 < 16 by omega), Option.bind_eq_bind, Option.bind_some,
    hsum]
  rw [if_pos (.inl (by omega)), Char.ofNat_toNat]

theorem string?_escape {letter c : Char} (h : escape? letter = some c) (t : Text) :
    string? ('\\' :: letter :: t) = (string? t).map (Prod.map (c :: ·) id) := by
  have hletter : letter ≠ 'u' := by
    rintro rfl
    cases h
  rw [string?, h]
  · cases string? t <;> rfl
  · exact fun _ _ _ _ _ hu => absurd hu hletter

/-- The first character of a string is found where it stands as it is or escaped. -/
theorem string?_escaped (c : Char) (t : Text) :
    string? (Report.escaped c ++ t) = (string? t).map (Prod.map (c :: ·) id) := by
  have hchar {d : Char} (h : c.toNat = d.toNat) : c = d := Char.toNat_inj.1 h
  rw [Report.escaped]
  split_ifs with hquote hslash hb ht hn hf hr hcontrol
  · subst hquote
    exact string?_escape rfl t
  · subst hslash
    exact string?_escape rfl t
  · obtain rfl : c = '\x08' := hchar hb
    exact string?_escape rfl t
  · obtain rfl : c = '\t' := hchar ht
    exact string?_escape rfl t
  · obtain rfl : c = '\n' := hchar hn
    exact string?_escape rfl t
  · obtain rfl : c = '\x0c' := hchar hf
    exact string?_escape rfl t
  · obtain rfl : c = '\r' := hchar hr
    exact string?_escape rfl t
  · simp only [List.cons_append, List.nil_append, string?, numbered?_control hcontrol]
    cases string? t <;> rfl
  · rw [List.singleton_append, string?, if_neg hcontrol]
    · cases string? t <;> rfl
    · exact hquote
    · exact fun _ _ _ _ _ hbackslash => absurd hbackslash hslash
    · exact fun _ _ hbackslash => absurd hbackslash hslash

/-- A string ends at its closing mark and nowhere before. -/
theorem string?_flatMap_escaped (s t : Text) :
    string? (s.flatMap Report.escaped ++ '"' :: t) = some (s, t) := by
  induction s with
  | nil => rfl
  | cons c s ih =>
      rw [List.flatMap_cons, List.append_assoc, string?_escaped, ih]
      rfl

/-! ## numbers -/

/-- A number of more than one digit does not start with the digit zero. -/
theorem toDigits_ne_zero_cons (n : Nat) (d : Char) (ds : Text) :
    Nat.toDigits 10 n ≠ '0' :: d :: ds := by
  induction n using Nat.strongRecOn generalizing d ds with
  | ind n ih =>
      intro h
      by_cases hn : n < 10
      · rw [Nat.toDigits_of_lt_base hn] at h
        exact List.cons_ne_nil d ds (List.cons.inj h).2.symm
      · rw [Nat.toDigits_of_base_le (by decide) (Nat.le_of_not_lt hn)] at h
        cases hlead : Nat.toDigits 10 (n / 10) with
        | nil => exact Nat.toDigits_ne_nil hlead
        | cons e es =>
            rw [hlead] at h
            obtain rfl : e = '0' := (List.cons.inj h).1
            cases es with
            | nil =>
                have hzero : Nat.ofDigitChars 10 (Nat.toDigits 10 (n / 10)) 0 = 0 := by
                  rw [hlead]
                  rfl
                rw [Nat.ofDigitChars_toDigits (by decide) (by decide)] at hzero
                omega
            | cons f es => exact ih (n / 10) (by omega) f es hlead

theorem number?_toDigits (n : Nat) {rest : Text} (h : ∀ c ∈ rest.head?, c.isDigit = false) :
    number? (Nat.toDigits 10 n ++ rest) = some (n, rest) := by
  have hdigits : ∀ c ∈ Nat.toDigits 10 n, c.isDigit = true := fun c hc =>
    Nat.isDigit_of_mem_toDigits (by decide) (by decide) hc
  have hrest : rest.takeWhile Char.isDigit = [] ∧ rest.dropWhile Char.isDigit = rest := by
    cases rest with
    | nil => exact ⟨rfl, rfl⟩
    | cons c rest => simp [h c rfl]
  have hvalue := Nat.ofDigitChars_toDigits (n := n) (show 1 < 10 by decide) (Nat.le_refl 10)
  rw [number?, List.takeWhile_append_of_pos hdigits, List.dropWhile_append_of_pos hdigits, hrest.1,
    hrest.2, List.append_nil]
  split
  · rename_i hnil
    exact absurd hnil Nat.toDigits_ne_nil
  · rename_i d ds hzero
    exact absurd hzero (toDigits_ne_zero_cons n d ds)
  · rw [hvalue]

/-! ## values -/

theorem mark?_eq_some_iff {mark : Char} {t rest : Text} :
    mark? mark t = some rest ↔ t.dropWhile isSpace = mark :: rest := by
  rw [mark?]
  cases t.dropWhile isSpace with
  | nil => simp
  | cons c t => simp

section

variable {t inside : Text} (depth : Nat)

theorem value?_quote (h : t.dropWhile isSpace = '"' :: inside) :
    value? (depth + 1) t = (string? inside).map (Prod.map string id) := by
  rw [value?, h]
  rfl

theorem value?_bracket (h : t.dropWhile isSpace = '[' :: inside) :
    value? (depth + 1) t = (listed? ']' (value? depth) inside).map (Prod.map array id) := by
  rw [value?, h]
  rfl

theorem value?_digit {d : Char} (h : t.dropWhile isSpace = d :: inside) (hd : d.isDigit = true) :
    value? (depth + 1) t = (number? (d :: inside)).map (Prod.map number id) := by
  have hmarks : d ≠ '"' ∧ d ≠ '[' ∧ d ≠ '\x7b' := by
    refine ⟨?_, ?_, ?_⟩ <;> (rintro rfl; cases hd)
  rw [value?, h]
  split
  · rename_i hquote
    exact absurd (List.cons.inj hquote).1 hmarks.1
  · rename_i hbracket
    exact absurd (List.cons.inj hbracket).1 hmarks.2.1
  · rename_i hbrace
    exact absurd (List.cons.inj hbrace).1 hmarks.2.2
  · rfl

theorem value?_brace (h : t.dropWhile isSpace = '\x7b' :: inside) :
    value? (depth + 1) t =
      (listed? '\x7d' (pair? (value? depth)) inside).map (Prod.map object id) := by
  rw [value?, h]
  rfl

end

theorem isRead_quoted (depth : Nat) (t : Text) :
    IsRead (value? (depth + 1)) (Report.quoted t) (string t) := by
  intro blanks rest hblanks _
  have htext : blanks ++ (Report.quoted t ++ rest) =
      blanks ++ '"' :: (t.flatMap Report.escaped ++ '"' :: rest) := by
    simp [Report.quoted]
  rw [htext, value?_quote depth (dropWhile_isSpace hblanks rfl _), string?_flatMap_escaped]
  rfl

theorem isRead_number (depth n : Nat) :
    IsRead (value? (depth + 1)) (Nat.toDigits 10 n) (number n) := by
  intro blanks rest hblanks hrest
  obtain ⟨d, ds, hdigits⟩ := List.exists_cons_of_ne_nil (Nat.toDigits_ne_nil (n := n) (b := 10))
  have hd : d.isDigit = true :=
    Nat.isDigit_of_mem_toDigits (by decide) (by decide) (hdigits ▸ List.mem_cons_self)
  have hspace : isSpace d = false := by
    rw [Bool.eq_false_iff]
    intro h
    simp only [isSpace, Bool.or_eq_true, beq_iff_eq] at h
    rcases h with ((rfl | rfl) | rfl) | rfl <;> cases hd
  have hskip := dropWhile_isSpace hblanks hspace (ds ++ rest)
  rw [hdigits, List.cons_append, value?_digit depth hskip hd, ← List.cons_append, ← hdigits,
    number?_toDigits n hrest]
  rfl

theorem isRead_pair {value : Reader Json} {t : Text} {v : Json} (h : IsRead value t v)
    (name : Text) :
    IsRead (pair? value) (Report.quoted name ++ ": ".toList ++ t) (name, v) := by
  intro blanks rest hblanks hrest
  have htext : blanks ++ (Report.quoted name ++ ": ".toList ++ t ++ rest) =
      blanks ++ '"' :: (name.flatMap Report.escaped ++ '"' :: ':' :: ([' '] ++ (t ++ rest))) := by
    simp [Report.quoted]
  have hcolon : mark? ':' (':' :: ([' '] ++ (t ++ rest))) = some ([' '] ++ (t ++ rest)) :=
    mark?_cons_self rfl _
  have hvalue := h [' '] rest (by simp [isSpace]) hrest
  rw [htext, pair?, mark?_self hblanks rfl]
  simp only [Option.bind_eq_bind, Option.bind_some, string?_flatMap_escaped, hcolon, hvalue]
  rfl

/-! ## containers -/

/-- The items of a container as they are written, each on a line of its own. -/
def itemLines (depth : Nat) (ts : List Text) : Text :=
  List.intercalate [',', '\n'] (ts.map fun t => Report.indentation depth ++ t)

theorem itemLines_cons_cons (depth : Nat) (t u : Text) (ts : List Text) :
    itemLines depth (t :: u :: ts) =
      Report.indentation depth ++ t ++ [',', '\n'] ++ itemLines depth (u :: ts) :=
  List.intercalate_cons_cons

theorem length_le_length_itemLines (depth : Nat) (ts : List Text) :
    ts.length ≤ (itemLines depth ts).length + 1 := by
  induction ts with
  | nil => exact Nat.zero_le _
  | cons t ts ih =>
      cases ts with
      | nil => exact Nat.le_add_left 1 _
      | cons u ts =>
          rw [itemLines_cons_cons, List.length_cons]
          simp only [List.length_append, List.length_cons, List.length_nil] at ih ⊢
          omega

theorem isSpace_indentation (depth : Nat) : ∀ c ∈ Report.indentation depth, isSpace c = true := by
  intro c hc
  rw [Report.indentation] at hc
  rw [List.eq_of_mem_replicate hc]
  rfl

section

variable {closing : Char} {item : Reader α} {ts : List Text} {as : List α}

/-- Items on lines of their own are found one after the other, up to what ends them. -/
theorem items?_itemLines {ending rest : Text} (hcomma : mark? ',' ending = none)
    (hclosing : mark? closing ending = some rest) (hending : ∀ c ∈ ending.head?, c.isDigit = false)
    (h : List.Forall₂ (IsRead item) ts as) (hne : ts ≠ []) (depth : Nat) {fuel : Nat}
    (hfuel : ts.length ≤ fuel) {blanks : Text} (hblanks : ∀ c ∈ blanks, isSpace c = true) :
    items? closing item fuel (blanks ++ (itemLines depth ts ++ ending)) = some (as, rest) := by
  induction h generalizing fuel blanks with
  | nil => exact absurd rfl hne
  | cons hitem hitems ih =>
      rename_i t a ts as
      obtain ⟨fuel, rfl⟩ : ∃ f, fuel = f + 1 :=
        ⟨fuel - 1, by rw [List.length_cons] at hfuel; omega⟩
      have hlead : ∀ c ∈ blanks ++ Report.indentation depth, isSpace c = true := fun c hc =>
        (List.mem_append.1 hc).elim (hblanks c) (isSpace_indentation depth c)
      cases hitems with
      | nil =>
          have hfound := hitem _ ending hlead hending
          have hlast : itemLines depth [t] = Report.indentation depth ++ t :=
            List.intercalate_singleton
          rw [List.append_assoc, ← List.append_assoc _ t] at hfound
          rw [hlast, items?, hfound]
          simp only [Option.bind_eq_bind, Option.bind_some, hcomma, hclosing]
          rfl
      | cons hnext hitems =>
          rename_i u b ts as
          have hbreak : ∀ c ∈ ['\n'], isSpace c = true := by simp [isSpace]
          have hmore := ih (List.cons_ne_nil u ts) (Nat.le_of_succ_le_succ hfuel) hbreak
          rw [itemLines_cons_cons]
          generalize itemLines depth (u :: ts) = more at hmore ⊢
          have htext : blanks ++ (Report.indentation depth ++ t ++ [',', '\n'] ++ more ++ ending) =
              blanks ++ Report.indentation depth ++ (t ++ ',' :: (['\n'] ++ (more ++ ending))) := by
            simp
          have hfound := hitem _ (',' :: (['\n'] ++ (more ++ ending))) hlead
            (fun c hc => by cases hc; rfl)
          have hmark : mark? ',' (',' :: (['\n'] ++ (more ++ ending))) =
              some (['\n'] ++ (more ++ ending)) := mark?_cons_self rfl _
          rw [htext, items?, hfound]
          simp only [Option.bind_eq_bind, Option.bind_some, hmark, hmore]
          rfl

variable (hspace : isSpace closing = false) (hcomma : closing ≠ ',')
  (hrefuse : ∀ t, (mark? closing t).isSome = true → item t = none)

include hrefuse

/-- Where items are found, the closing mark does not stand in front of them. -/
theorem listed?_of_items? {text rest : Text}
    (h : items? closing item text.length text = some (as, rest)) :
    listed? closing item text = some (as, rest) := by
  rw [listed?]
  cases hmark : mark? closing text with
  | none => exact h
  | some rest =>
      have hnone : item text = none := hrefuse text (by rw [hmark]; rfl)
      cases hlength : text.length with
      | zero =>
          rw [hlength] at h
          cases h
      | succ fuel =>
          rw [hlength, items?, hnone] at h
          cases h

include hspace hcomma

/-- The items of a container are found behind its opening mark. -/
theorem exists_listed?_container (opening : Char) (h : List.Forall₂ (IsRead item) ts as)
    (depth : Nat) :
    ∃ inside, Report.container opening closing depth ts = opening :: inside ∧
      ∀ rest, listed? closing item (inside ++ rest) = some (as, rest) := by
  cases ts with
  | nil =>
      cases h
      refine ⟨[closing], rfl, fun rest => ?_⟩
      rw [listed?, List.singleton_append, mark?_cons_self hspace]
  | cons t ts =>
      have hlead : ∀ c ∈ ['\n'], isSpace c = true := by simp [isSpace]
      have hbreak : ∀ c ∈ '\n' :: Report.indentation depth, isSpace c = true :=
        List.forall_mem_cons.2 ⟨rfl, isSpace_indentation depth⟩
      refine ⟨['\n'] ++ (itemLines (depth + 1) (t :: ts) ++
        ('\n' :: Report.indentation depth ++ [closing])),
        by simp [Report.container, itemLines], fun rest => ?_⟩
      have htext : ['\n'] ++ (itemLines (depth + 1) (t :: ts) ++
          ('\n' :: Report.indentation depth ++ [closing])) ++ rest =
          ['\n'] ++ (itemLines (depth + 1) (t :: ts) ++
            ('\n' :: Report.indentation depth ++ closing :: rest)) := by
        simp
      rw [htext]
      refine listed?_of_items? hrefuse (items?_itemLines (mark?_of_ne hbreak hspace hcomma rest)
        (mark?_self hbreak hspace rest) (fun c hc => by cases hc; rfl) h (List.cons_ne_nil t ts)
        (depth + 1) ?_ hlead)
      have hlines := length_le_length_itemLines (depth + 1) (t :: ts)
      rw [List.length_append, List.length_append, List.length_singleton]
      omega

end

/-- A value does not start with a mark that ends a container. -/
theorem value?_eq_none_of_mark (depth : Nat) (t : Text) (h : (mark? ']' t).isSome = true) :
    value? depth t = none := by
  obtain ⟨rest, hrest⟩ := Option.isSome_iff_exists.1 h
  rw [mark?_eq_some_iff] at hrest
  cases depth with
  | zero => rfl
  | succ depth =>
      rw [value?, hrest]
      rfl

theorem pair?_eq_none_of_mark (value : Reader Json) (t : Text)
    (h : (mark? '\x7d' t).isSome = true) : pair? value t = none := by
  obtain ⟨rest, hrest⟩ := Option.isSome_iff_exists.1 h
  rw [mark?_eq_some_iff] at hrest
  have hquote : mark? '"' t = none := by
    rw [mark?, hrest]
    rfl
  rw [pair?, hquote, Option.bind_eq_bind, Option.bind_none]

theorem isRead_array {depth : Nat} {ts : List Text} {vs : List Json}
    (h : List.Forall₂ (IsRead (value? depth)) ts vs) (k : Nat) :
    IsRead (value? (depth + 1)) (Report.array k ts) (array vs) := by
  intro blanks rest hblanks _
  obtain ⟨inside, hcontainer, hlisted⟩ :=
    exists_listed?_container rfl (by decide) (value?_eq_none_of_mark depth) '[' h k
  rw [Report.array, hcontainer, List.cons_append,
    value?_bracket depth (dropWhile_isSpace hblanks rfl _), hlisted]
  rfl

theorem isRead_object {depth : Nat} {ms : List (Text × Text)} {vs : List (Text × Json)}
    (h : List.Forall₂ (fun m v => m.1 = v.1 ∧ IsRead (value? depth) m.2 v.2) ms vs) (k : Nat) :
    IsRead (value? (depth + 1)) (Report.object k ms) (object vs) := by
  intro blanks rest hblanks _
  have hmembers : List.Forall₂ (IsRead (pair? (value? depth)))
      (ms.map fun (name, value) => Report.quoted name ++ ": ".toList ++ value) vs := by
    rw [List.forall₂_map_left_iff]
    refine h.imp ?_
    rintro ⟨name, t⟩ ⟨_, v⟩ ⟨rfl, hread⟩
    exact isRead_pair hread name
  obtain ⟨inside, hcontainer, hlisted⟩ := exists_listed?_container rfl (by decide)
    (pair?_eq_none_of_mark (value? depth)) '\x7b' hmembers k
  rw [Report.object, hcontainer, List.cons_append,
    value?_brace depth (dropWhile_isSpace hblanks rfl _), hlisted]
  rfl

theorem isRead_numbers (depth k : Nat) (es : List (Text × Nat)) :
    IsRead (value? (depth + 2)) (Report.numbers k es) (numbers es) := by
  exact isRead_object (forall₂_map_of_forall_mem fun e _ => ⟨rfl, isRead_number depth e.2⟩) k

/-- A text in which a value is found is that value, with blanks behind it. -/
theorem read?_of_isRead {t blanks : Text} {v : Json}
    (h : IsRead (value? (t ++ blanks).length) t v) (hblanks : ∀ c ∈ blanks, isSpace c = true) :
    read? (t ++ blanks) = some v := by
  have hhead : ∀ c ∈ blanks.head?, c.isDigit = false := by
    intro c hc
    have hspace := hblanks c (List.mem_of_mem_head? hc)
    simp only [isSpace, Bool.or_eq_true, beq_iff_eq] at hspace
    rcases hspace with ((rfl | rfl) | rfl) | rfl <;> rfl
  have hvalue := h [] blanks (List.forall_mem_nil _) hhead
  rw [List.nil_append] at hvalue
  rw [read?, hvalue]
  exact if_pos (List.all_eq_true.2 hblanks)

end Json

namespace Report

open Json (isRead_number isRead_quoted isRead_array isRead_object isRead_numbers read?_of_isRead)

theorem isRead_failure (depth : Nat) (f : Failure) :
    Json.IsRead (Json.value? (depth + 2))
      (object 2 [("package".toList, quoted f.package), ("error".toList, quoted f.reason)])
      (.object [("package".toList, .string f.package), ("error".toList, .string f.reason)]) :=
  isRead_object
    (.cons ⟨rfl, isRead_quoted depth f.package⟩ (.cons ⟨rfl, isRead_quoted depth f.reason⟩ .nil)) 2

theorem isRead_render (depth : Nat) (d : Digest) :
    Json.IsRead (Json.value? (depth + 4)) d.render
      (.object [
        ("total_matches".toList, .number d.total),
        ("files_scanned".toList, .number d.filesRead),
        ("packages".toList, .numbers d.packages),
        ("patterns".toList, .numbers d.patterns),
        ("failed_packages".toList, .array (d.failures.map fun f =>
          .object [("package".toList, .string f.package), ("error".toList, .string f.reason)])),
        ("diagnostics".toList, .numbers (d.kinds.map fun e => (e.1.key, e.2)))]) := by
  have hfailures : List.Forall₂ (Json.IsRead (Json.value? (depth + 2)))
      (d.failures.map fun f =>
        object 2 [("package".toList, quoted f.package), ("error".toList, quoted f.reason)])
      (d.failures.map fun f =>
        .object [("package".toList, .string f.package), ("error".toList, .string f.reason)]) :=
    forall₂_map_of_forall_mem fun f _ => isRead_failure depth f
  refine isRead_object ?_ 0
  exact .cons ⟨rfl, isRead_number (depth + 2) d.total⟩
    (.cons ⟨rfl, isRead_number (depth + 2) d.filesRead⟩
    (.cons ⟨rfl, isRead_numbers (depth + 1) 1 d.packages⟩
    (.cons ⟨rfl, isRead_numbers (depth + 1) 1 d.patterns⟩
    (.cons ⟨rfl, isRead_array hfailures 1⟩
    (.cons ⟨rfl, isRead_numbers (depth + 1) 1 _⟩ .nil)))))

/-- **Machine-readable summaries** are read as objects, and their members tell the digest. -/
theorem read?_render (d : Digest) :
    Json.read? (d.render ++ ['\n']) = some (.object [
      ("total_matches".toList, .number d.total),
      ("files_scanned".toList, .number d.filesRead),
      ("packages".toList, .numbers d.packages),
      ("patterns".toList, .numbers d.patterns),
      ("failed_packages".toList, .array (d.failures.map fun f =>
        .object [("package".toList, .string f.package), ("error".toList, .string f.reason)])),
      ("diagnostics".toList, .numbers (d.kinds.map fun e => (e.1.key, e.2)))]) := by
  have hdepth : (d.render ++ ['\n']).length = (d.render ++ ['\n']).length - 4 + 4 := by
    have hlength : 4 ≤ (d.render ++ ['\n']).length := by
      simp only [Digest.render, object, container, List.map_cons, List.isEmpty_cons,
        Bool.false_eq_true, if_false, List.length_append, List.length_cons]
      omega
    omega
  exact read?_of_isRead (hdepth ▸ isRead_render _ d) (by simp [Json.isSpace])

end Report

end ImportWatch
