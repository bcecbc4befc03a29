import ImportWatch.Proofs.Nested
import ImportWatch.Proofs.PathParts

/-!
# ImportWatch.Proofs.Groups

Where the first group of a text is found, how it is split, and why replacing
groups comes to an end.

* `Braced.first?_eq_some_iff`, `first?_eq_unmatched_iff` and
  `first?_eq_unclosed_iff` say when each answer is given; the one without a
  group is `Braced.first?_eq_none_iff`;
* `IsSplit` says what the pieces of a balanced text are, `isSplit_splitCommas`
  that they are found; `splitCommasExactly` splits without ever closing a group
  that is not open;
* `Braced.count_lt_of_mem_choices`: a choice has fewer groups than its text, so
  the steps of an expansion end (`wellFounded_stepsTo`, `exists_suffices`).
-/

namespace ImportWatch

open Text

/-! ## the end of a group -/

theorem splitClosing?_eq_some_iff {s inside after : Text} :
    splitClosing? 0 s = some (inside, after) ↔ s = inside ++ '}' :: after ∧ Balanced inside := by
  constructor
  · intro h
    exact ⟨append_of_splitClosing? h, balanced_of_splitClosing? h⟩
  · intro ⟨hs, hinside⟩
    obtain ⟨t, rfl⟩ := exists_nested hinside
    rw [hs, splitClosing?_text_closing]

theorem splitClosing?_eq_none_iff {s : Text} :
    splitClosing? 0 s = none ↔ ∀ inside after, s = inside ++ '}' :: after → ¬ Balanced inside := by
  rw [Option.eq_none_iff_forall_ne_some]
  simp only [ne_eq, Prod.forall, splitClosing?_eq_some_iff, not_and]

/-! ## the first brace -/

/-- True for texts without braces. -/
def IsBraceFree (s : Text) : Prop := ∀ c ∈ s, isBrace c = false

/-- A text with a brace has a first one. -/
theorem exists_first_brace {item : Text} (h : ¬ IsBraceFree item) :
    ∃ before rest, IsBraceFree before ∧
      (item = before ++ '{' :: rest ∨ item = before ++ '}' :: rest) := by
  induction item with
  | nil => simp [IsBraceFree] at h
  | cons c item ih =>
      cases hc : isBrace c with
      | true =>
          have hbrace : c = '{' ∨ c = '}' := by simpa [isBrace] using hc
          refine ⟨[], item, by simp [IsBraceFree], ?_⟩
          cases hbrace with
          | inl hc => exact .inl (by rw [hc]; rfl)
          | inr hc => exact .inr (by rw [hc]; rfl)
      | false =>
          obtain ⟨before, rest, hbefore, hitem⟩ := ih (by simpa [IsBraceFree, hc] using h)
          refine ⟨c :: before, rest, by simpa [IsBraceFree, hc] using hbefore, ?_⟩
          simpa using hitem

namespace Braced

variable {item before rest : Text}

theorem first?_closing (h : IsBraceFree before) :
    first? (before ++ '}' :: rest) = .error (.unmatchedBrace (before ++ '}' :: rest)) := by
  have hdrop : (before ++ '}' :: rest).dropWhile (fun c => !isBrace c) = '}' :: rest := by
    rw [List.dropWhile_append_of_pos (by simpa [IsBraceFree] using h)]
    rfl
  simp only [first?, hdrop, if_true]

theorem first?_opening (h : IsBraceFree before) :
    first? (before ++ '{' :: rest) =
      match splitClosing? 0 rest with
      | none => .error (.unclosedBrace (before ++ '{' :: rest))
      | some (inside, after) => .ok (some ⟨before, inside, after⟩) := by
  have hplain : ∀ c ∈ before, (!isBrace c) = true := by simpa [IsBraceFree] using h
  have hdrop : (before ++ '{' :: rest).dropWhile (fun c => !isBrace c) = '{' :: rest := by
    rw [List.dropWhile_append_of_pos hplain]
    rfl
  have htake : (before ++ '{' :: rest).takeWhile (fun c => !isBrace c) = before := by
    rw [List.takeWhile_append_of_pos hplain]
    simp [isBrace]
  cases hsplit : splitClosing? 0 rest <;> simp [first?, hdrop, htake, hsplit]

/-- The first group of a text is found where the text has one before any stray brace. -/
theorem first?_eq_some_iff {g : Braced} :
    first? item = .ok (some g) ↔
      item = g.before ++ '{' :: (g.inside ++ '}' :: g.after) ∧ IsBraceFree g.before ∧
        Balanced g.inside := by
  constructor
  · intro h
    have hbrace : ¬ IsBraceFree item := fun hfree => by simp [first?_eq_none_iff.2 hfree] at h
    obtain ⟨before, rest, hbefore, rfl | rfl⟩ := exists_first_brace hbrace
    · rw [first?_opening hbefore] at h
      cases hsplit : splitClosing? 0 rest with
      | none => simp [hsplit] at h
      | some ab =>
          obtain ⟨inside, after⟩ := ab
          obtain ⟨hrest, hinside⟩ := splitClosing?_eq_some_iff.1 hsplit
          obtain rfl : ⟨before, inside, after⟩ = g := by simpa [hsplit] using h
          exact ⟨by rw [hrest], hbefore, hinside⟩
    · rw [first?_closing hbefore] at h
      cases h
  · intro ⟨hitem, hbefore, hinside⟩
    rw [hitem, first?_opening hbefore, splitClosing?_eq_some_iff.2 ⟨rfl, hinside⟩]

/-- Any rejection names the text itself, and the first brace of the text has no partner. -/
theorem first?_eq_error_iff {e : Rejection} :
    first? item = .error e ↔ ∃ before rest, IsBraceFree before ∧
      ((item = before ++ '}' :: rest ∧ e = .unmatchedBrace item) ∨
        (item = before ++ '{' :: rest ∧ splitClosing? 0 rest = none ∧
          e = .unclosedBrace item)) := by
  constructor
  · intro h
    have hbrace : ¬ IsBraceFree item := fun hfree => by simp [first?_eq_none_iff.2 hfree] at h
    obtain ⟨before, rest, hbefore, rfl | rfl⟩ := exists_first_brace hbrace
    · rw [first?_opening hbefore] at h
      cases hsplit : splitClosing? 0 rest with
      | none =>
          refine ⟨before, rest, hbefore, .inr ⟨rfl, hsplit, ?_⟩⟩
          simpa [hsplit, eq_comm] using h
      | some ab => simp [hsplit] at h
    · rw [first?_closing hbefore] at h
      exact ⟨before, rest, hbefore, .inl ⟨rfl, by simpa [eq_comm] using h⟩⟩
  · intro ⟨before, rest, hbefore, h⟩
    cases h with
    | inl h => rw [h.2, h.1, first?_closing hbefore]
    | inr h => rw [h.2.2, h.1, first?_opening hbefore, h.2.1]

theorem first?_eq_unmatched_iff {t : Text} :
    first? item = .error (.unmatchedBrace t) ↔
      t = item ∧ ∃ before rest, IsBraceFree before ∧ item = before ++ '}' :: rest := by
  rw [first?_eq_error_iff]
  constructor
  · intro ⟨before, rest, hbefore, h⟩
    cases h with
    | inl h => exact ⟨by simpa using h.2, before, rest, hbefore, h.1⟩
    | inr h => simp at h
  · intro ⟨ht, before, rest, hbefore, hitem⟩
    exact ⟨before, rest, hbefore, .inl ⟨hitem, by rw [ht]⟩⟩

theorem first?_eq_unclosed_iff {t : Text} :
    first? item = .error (.unclosedBrace t) ↔
      t = item ∧ ∃ before rest, IsBraceFree before ∧ item = before ++ '{' :: rest ∧
        ∀ inside after, rest = inside ++ '}' :: after → ¬ Balanced inside := by
  rw [first?_eq_error_iff]
  constructor
  · intro ⟨before, rest, hbefore, h⟩
    cases h with
    | inl h => simp at h
    | inr h =>
        exact ⟨by simpa using h.2.2, before, rest, hbefore, h.1, splitClosing?_eq_none_iff.1 h.2.1⟩
  · intro ⟨ht, before, rest, hbefore, hitem, hrest⟩
    exact ⟨before, rest, hbefore, .inr ⟨hitem, splitClosing?_eq_none_iff.2 hrest, by rw [ht]⟩⟩

end Braced

/-- How the first group of a text is told from the other cases, of which there are three. -/
structure Braced.IsFound (item : Text) : Prop where
  /-- The text has a group before any stray brace. -/
  group : ∀ before inside after, first? item = .ok (some ⟨before, inside, after⟩) ↔
    item = before ++ '{' :: (inside ++ '}' :: after) ∧ IsBraceFree before ∧ Balanced inside
  none : first? item = .ok none ↔ IsBraceFree item
  /-- The first brace closes. -/
  unmatched : ∀ t, first? item = .error (.unmatchedBrace t) ↔
    t = item ∧ ∃ before rest, IsBraceFree before ∧ item = before ++ '}' :: rest
  /-- The first brace opens and is never closed. -/
  unclosed : ∀ t, first? item = .error (.unclosedBrace t) ↔
    t = item ∧ ∃ before rest, IsBraceFree before ∧ item = before ++ '{' :: rest ∧
      ∀ inside after, rest = inside ++ '}' :: after → ¬ Balanced inside
  rejected : ∀ e, first? item = .error e → e = .unmatchedBrace item ∨ e = .unclosedBrace item

theorem Braced.isFound_first? (item : Text) : IsFound item where
  group _ _ _ := first?_eq_some_iff
  none := first?_eq_none_iff
  unmatched _ := first?_eq_unmatched_iff
  unclosed _ := first?_eq_unclosed_iff
  rejected e h := by
    obtain ⟨_, _, _, h | h⟩ := first?_eq_error_iff.1 h
    · exact .inl h.2
    · exact .inr h.2.2

/-! ## the pieces of a group -/

/-- The pieces of a text at the commas that stand outside of groups; there is no answer when a
brace closes a group that is not open. -/
def splitCommasExactly : (depth : Nat) → Text → Option (List Text)
  | _, [] => some [[]]
  | depth, c :: s =>
    if c = '{' then (splitCommasExactly (depth + 1) s).map (List.modifyHead (c :: ·))
    else if c = '}' then
      match depth with
      | 0 => none
      | depth + 1 => (splitCommasExactly depth s).map (List.modifyHead (c :: ·))
    else if c = ',' ∧ depth = 0 then (splitCommasExactly 0 s).map ([] :: ·)
    else (splitCommasExactly depth s).map (List.modifyHead (c :: ·))

theorem splitCommasExactly_opening (depth : Nat) (s : Text) :
    splitCommasExactly depth ('{' :: s) =
      (splitCommasExactly (depth + 1) s).map (List.modifyHead ('{' :: ·)) := by
  cases depth <;> simp [splitCommasExactly]

theorem splitCommasExactly_closing (depth : Nat) (s : Text) :
    splitCommasExactly (depth + 1) ('}' :: s) =
      (splitCommasExactly depth s).map (List.modifyHead ('}' :: ·)) := by
  simp [splitCommasExactly]

theorem splitCommasExactly_plain (depth : Nat) {c : Char} (h : isBrace c = false) (s : Text) :
    splitCommasExactly depth (c :: s) =
      if c = ',' ∧ depth = 0 then (splitCommasExactly 0 s).map ([] :: ·)
      else (splitCommasExactly depth s).map (List.modifyHead (c :: ·)) := by
  simp only [isBrace, Bool.or_eq_false_iff, beq_eq_false_iff_ne] at h
  cases depth <;> simp [splitCommasExactly, h.1, h.2]

/-- Nothing but commas is lost between the pieces. -/
theorem intercalate_splitCommas (depth : Nat) (s : Text) :
    [','].intercalate (splitCommas depth s) = s := by
  fun_induction splitCommas depth s with
  | case1 => rfl
  | case2 depth s ih | case3 depth s _ ih | case5 depth c s _ _ _ ih =>
      obtain ⟨p, ps, hps⟩ := List.exists_cons_of_ne_nil (splitCommas_ne_nil _ s)
      rw [hps] at ih ⊢
      rw [← ih]
      cases ps <;> simp
  | case4 depth c s _ _ hc ih =>
      obtain ⟨p, ps, hps⟩ := List.exists_cons_of_ne_nil (splitCommas_ne_nil 0 s)
      rw [hps] at ih ⊢
      rw [List.intercalate_cons_cons, ih, hc.1]
      rfl

theorem balanced_of_mem_splitCommas {inside p : Text} (h : Balanced inside)
    (hp : p ∈ splitCommas 0 inside) : Balanced p := by
  obtain ⟨t, rfl⟩ := exists_nested h
  rw [splitCommas_text] at hp
  obtain ⟨u, _, rfl⟩ := List.mem_map.1 hp
  exact u.balanced_text

/-- True for a text whose commas all stand in groups, when `depth` groups are open at its start. -/
def HidesCommas (depth : Nat) (p : Text) : Prop :=
  ∀ a b, p = a ++ ',' :: b → a.count '}' < a.count '{' + depth

theorem hidesCommas_nil (depth : Nat) : HidesCommas depth [] := by
  intro a b h
  simp at h

/-- A character in front opens or closes a group, or it is no comma outside of groups. -/
theorem HidesCommas.cons {depth next : Nat} {c : Char} {p : Text} (h : HidesCommas next p)
    (hnext : [c].count '}' + next ≤ [c].count '{' + depth) (hcomma : c = ',' → 0 < depth) :
    HidesCommas depth (c :: p) := by
  intro a b hab
  cases a with
  | nil => simpa using hcomma (List.cons.inj hab).1
  | cons d a =>
      obtain ⟨rfl, hp⟩ := List.cons.inj hab
      have hrest := h a b hp
      rw [← List.singleton_append, List.count_append, List.count_append]
      omega

/-- In a text that closes only what is open, the first piece starts where the text starts, and
the others start outside of groups. -/
theorem hidesCommas_of_splitCommas {depth : Nat} {s p : Text} {ps : List Text}
    (hs : ClosesAtMost depth s) (h : splitCommas depth s = p :: ps) :
    HidesCommas depth p ∧ ∀ q ∈ ps, HidesCommas 0 q := by
  fun_induction splitCommas depth s generalizing p ps with
  | case1 depth =>
      cases h
      exact ⟨hidesCommas_nil depth, by simp⟩
  | case2 depth s ih =>
      obtain ⟨q, qs, hqs⟩ := List.exists_cons_of_ne_nil (splitCommas_ne_nil (depth + 1) s)
      rw [hqs, List.modifyHead_cons] at h
      cases h
      obtain ⟨hq, hrest⟩ := ih (closesAtMost_opening.1 hs) hqs
      have hdepth : 0 + (depth + 1) ≤ 1 + depth := by omega
      exact ⟨hq.cons hdepth (by simp), hrest⟩
  | case3 depth s _ ih =>
      cases depth with
      | zero => exact absurd hs (not_closesAtMost_zero_closing s)
      | succ depth =>
          obtain ⟨q, qs, hqs⟩ := List.exists_cons_of_ne_nil (splitCommas_ne_nil depth s)
          rw [Nat.add_sub_cancel] at ih h
          rw [hqs, List.modifyHead_cons] at h
          cases h
          obtain ⟨hq, hrest⟩ := ih (closesAtMost_closing.1 hs) hqs
          have hdepth : 1 + depth ≤ 0 + (depth + 1) := by omega
          exact ⟨hq.cons hdepth (by simp), hrest⟩
  | case4 depth c s hopen hclose hc ih =>
      cases h
      obtain ⟨hcomma, rfl⟩ := hc
      have hs' : ClosesAtMost 0 s := (closesAtMost_plain (by simp [isBrace, hcomma])).1 hs
      refine ⟨hidesCommas_nil 0, fun q hq => ?_⟩
      obtain ⟨r, rs, hrs⟩ := List.exists_cons_of_ne_nil (splitCommas_ne_nil 0 s)
      obtain ⟨hr, hrest⟩ := ih hs' hrs
      rw [hrs] at hq
      cases List.mem_cons.1 hq with
      | inl hq => exact hq ▸ hr
      | inr hq => exact hrest q hq
  | case5 depth c s hopen hclose hc ih =>
      have hplain : isBrace c = false := by simp [isBrace, hopen, hclose]
      obtain ⟨q, qs, hqs⟩ := List.exists_cons_of_ne_nil (splitCommas_ne_nil depth s)
      rw [hqs, List.modifyHead_cons] at h
      cases h
      obtain ⟨hq, hrest⟩ := ih ((closesAtMost_plain hplain).1 hs) hqs
      refine ⟨hq.cons (by simp [hopen, hclose]) fun hcomma => ?_, hrest⟩
      exact Nat.pos_of_ne_zero fun hzero => hc ⟨hcomma, hzero⟩

/-- Where no more groups are closed than are open, nothing is ever closed without a group. -/
theorem splitCommasExactly_eq_some {depth : Nat} {s : Text} (h : ClosesAtMost depth s) :
    splitCommasExactly depth s = some (splitCommas depth s) := by
  fun_induction splitCommas depth s with
  | case1 => rfl
  | case2 depth s ih =>
      rw [splitCommasExactly_opening, ih (closesAtMost_opening.1 h)]
      rfl
  | case3 depth s _ ih =>
      cases depth with
      | zero => exact absurd h (not_closesAtMost_zero_closing s)
      | succ depth =>
          rw [splitCommasExactly_closing]
          exact congrArg (Option.map _) (ih (closesAtMost_closing.1 h))
  | case4 depth c s hopen hclose hc ih =>
      have hplain : isBrace c = false := by simp [isBrace, hopen, hclose]
      have hs : ClosesAtMost 0 s := (closesAtMost_plain hplain).1 (hc.2 ▸ h)
      rw [splitCommasExactly_plain depth hplain, if_pos hc, ih hs]
      rfl
  | case5 depth c s hopen hclose hc ih =>
      have hplain : isBrace c = false := by simp [isBrace, hopen, hclose]
      rw [splitCommasExactly_plain depth hplain, if_neg hc, ih ((closesAtMost_plain hplain).1 h)]
      rfl

/-- What the pieces of a text at the commas outside of its groups are. -/
structure IsSplit (inside : Text) (pieces : List Text) : Prop where
  joined : [','].intercalate pieces = inside
  balanced : ∀ p ∈ pieces, Balanced p
  /-- In front of each comma in a piece more groups were opened than closed. -/
  hidesCommas : ∀ p ∈ pieces, ∀ a b, p = a ++ ',' :: b → a.count '}' < a.count '{'
  /-- No brace closes a group that is not open. -/
  exactly : splitCommasExactly 0 inside = some pieces

theorem isSplit_splitCommas {inside : Text} (h : Balanced inside) :
    IsSplit inside (splitCommas 0 inside) where
  joined := intercalate_splitCommas 0 inside
  balanced _ := balanced_of_mem_splitCommas h
  hidesCommas p hp := by
    obtain ⟨q, qs, hqs⟩ := List.exists_cons_of_ne_nil (splitCommas_ne_nil 0 inside)
    obtain ⟨hq, hrest⟩ := hidesCommas_of_splitCommas (balanced_iff.1 h).1 hqs
    rw [hqs] at hp
    cases List.mem_cons.1 hp with
    | inl hp => exact hp ▸ hq
    | inr hp => exact hrest p hp
  exactly := splitCommasExactly_eq_some (balanced_iff.1 h).1

/-! ## the end of the expansion -/

/-- A choice has fewer groups than the text that it comes from. -/
theorem Braced.count_lt_of_mem_choices {item : Text} {g : Braced} (h : first? item = .ok (some g))
    {t : Text} (ht : t ∈ g.choices) : t.count '{' < item.count '{' := by
  obtain ⟨a, ha, rfl⟩ := List.mem_map.1 ht
  have hinside := (isInfix_of_mem_alternatives ha).sublist.count_le '{'
  rw [(first?_eq_some_iff.1 h).1]
  simp [fill]
  omega

/-- One step of the expansion: the choices of the front text take its place, or it has no group
and is taken away. -/
inductive StepsTo : List Text → List Text → Prop
  | group {item : Text} {g : Braced} (pending : List Text) (h : Braced.first? item = .ok (some g)) :
    StepsTo (item :: pending) (g.choices ++ pending)
  | path {item : Text} (pending : List Text) (h : Braced.first? item = .ok none) :
    StepsTo (item :: pending) pending

/-- There is no endless run of steps from some texts if there is none without the front text: what
takes the place of a text has fewer groups, and the texts behind it wait. -/
theorem acc_stepsTo_cons (item : Text) {pending : List Text}
    (h : Acc (fun next pending => StepsTo pending next) pending) :
    Acc (fun next pending => StepsTo pending next) (item :: pending) := by
  induction hn : item.count '{' using Nat.strong_induction_on generalizing item pending with
  | _ n ih =>
      refine Acc.intro _ fun next hstep => ?_
      cases hstep with
      | @group _ g _ hfirst =>
          have hchoices : ∀ ts : List Text, ts ⊆ g.choices →
              Acc (fun next pending => StepsTo pending next) (ts ++ pending) := by
            intro ts hts
            induction ts with
            | nil => exact h
            | cons t ts ihts =>
                obtain ⟨ht, hts⟩ := List.cons_subset.1 hts
                exact ih _ (hn ▸ Braced.count_lt_of_mem_choices hfirst ht) t (ihts hts) rfl
          exact hchoices g.choices (List.Subset.refl _)
      | path _ hfirst => exact h

/-- There is no endless run of steps. -/
theorem wellFounded_stepsTo : WellFounded fun next pending => StepsTo pending next := by
  refine ⟨fun pending => ?_⟩
  induction pending with
  | nil => exact Acc.intro _ fun next hstep => nomatch hstep
  | cons item pending ih => exact acc_stepsTo_cons item ih

/-- True for a number of steps within which all pending texts are expanded or one is rejected, so
that it makes no difference whether more of them may be taken. -/
structure Suffices (steps : Nat) (pending : List Text) : Prop where
  unlimited : ∀ limit, resolve steps pending ≠ .error (.tooManySteps limit)
  more : ∀ n, steps ≤ n → resolve n pending = resolve steps pending

theorem suffices_of_rejection {item : Text} {e : Rejection} (pending : List Text)
    (h : Braced.first? item = .error e) : Suffices 1 (item :: pending) where
  unlimited limit := by
    rw [resolve_of_rejection 0 pending h]
    obtain ⟨_, _, _, he | he⟩ := Braced.first?_eq_error_iff.1 h
    · simp [he.2]
    · simp [he.2.2]
  more n hn := by
    obtain ⟨n, rfl⟩ := Nat.exists_eq_add_of_le' hn
    rw [resolve_of_rejection n pending h, resolve_of_rejection 0 pending h]

theorem Suffices.group {steps : Nat} {item : Text} {g : Braced} {pending : List Text}
    (hs : Suffices steps (g.choices ++ pending)) (h : Braced.first? item = .ok (some g)) :
    Suffices (steps + 1) (item :: pending) where
  unlimited limit := by
    rw [resolve_of_group steps pending h]
    exact hs.unlimited limit
  more n hn := by
    obtain ⟨n, rfl⟩ := Nat.exists_eq_add_of_le' (Nat.le_of_add_left_le hn)
    rw [resolve_of_group n pending h, resolve_of_group steps pending h, hs.more n (by omega)]

theorem read_ne_tooManySteps (item : Text) (limit : Nat) :
    ModulePath.read item ≠ .error (.tooManySteps limit) := by
  simp only [ModulePath.read]
  split <;> simp

theorem Suffices.path {steps : Nat} {item : Text} {pending : List Text}
    (hs : Suffices steps pending) (h : Braced.first? item = .ok none) :
    Suffices (steps + 1) (item :: pending) where
  unlimited limit := by
    rw [resolve_of_path steps pending h]
    have hread := read_ne_tooManySteps item limit
    have hrest := hs.unlimited limit
    cases hpath : ModulePath.read item with
    | error e =>
        rw [hpath] at hread
        exact fun h => hread (by cases h; rfl)
    | ok p =>
        cases hresolve : resolve steps pending with
        | error e =>
            rw [hresolve] at hrest
            exact fun h => hrest (by cases h; rfl)
        | ok ps => exact fun h => nomatch h
  more n hn := by
    obtain ⟨n, rfl⟩ := Nat.exists_eq_add_of_le' (Nat.le_of_add_left_le hn)
    rw [resolve_of_path n pending h, resolve_of_path steps pending h, hs.more n (by omega)]

/-- Without a limit on its steps an expansion ends as well. -/
theorem exists_suffices (pending : List Text) : ∃ steps, Suffices steps pending := by
  induction pending using wellFounded_stepsTo.induction with
  | _ pending ih =>
      cases pending with
      | nil => exact ⟨0, by simp, by simp⟩
      | cons item pending =>
          cases hfirst : Braced.first? item with
          | error e => exact ⟨1, suffices_of_rejection pending hfirst⟩
          | ok found =>
              cases found with
              | none =>
                  obtain ⟨steps, hs⟩ := ih pending (.path pending hfirst)
                  exact ⟨steps + 1, hs.path hfirst⟩
              | some g =>
                  obtain ⟨steps, hs⟩ := ih (g.choices ++ pending) (.group pending hfirst)
                  exact ⟨steps + 1, hs.group hfirst⟩

/-- **Groups**: the first group of a text is found where it is, and each other answer says
what is wrong with the first brace; a balanced text is split at its own commas; replacing a group
by its alternatives leaves fewer groups, so that there is no endless run of steps, and for any
texts some number of steps is enough. -/
theorem groups_decompose :
    (∀ item, Braced.IsFound item) ∧
      (∀ inside, Balanced inside → IsSplit inside (splitCommas 0 inside)) ∧
      (∀ item g, Braced.first? item = .ok (some g) →
        ∀ t ∈ g.choices, t.count '{' + 1 ≤ item.count '{') ∧
      (WellFounded fun next pending => StepsTo pending next) ∧
      ∀ pending, ∃ steps, Suffices steps pending :=
  ⟨Braced.isFound_first?, fun _ h => isSplit_splitCommas h,
    fun _ _ h _ ht => Braced.count_lt_of_mem_choices h ht, wellFounded_stepsTo, exists_suffices⟩

theorem groups_decompose_nested :
    let item := "a::\x7bb, c::\x7bd,e\x7d\x7d::f\x7d".toList
    let g : Braced := ⟨"a::".toList, "b, c::\x7bd,e\x7d".toList, "::f\x7d".toList⟩
    let choice := "a::c::\x7bd,e\x7d::f\x7d".toList
    Braced.first? item = .ok (some g) ∧ Balanced g.inside ∧ choice ∈ g.choices ∧
      splitCommasExactly 0 g.inside = some ["b".toList, " c::\x7bd,e\x7d".toList] ∧
      choice.count '{' + 1 ≤ item.count '{' := by
  intro item g choice
  have hfirst : Braced.first? item = .ok (some g) := by decide
  have hinside : Balanced g.inside := by decide
  have hchoice : choice ∈ g.choices := by decide
  exact ⟨hfirst, hinside, hchoice, (groups_decompose.2.1 g.inside hinside).exactly,
    groups_decompose.2.2.1 item g hfirst choice hchoice⟩

end ImportWatch
