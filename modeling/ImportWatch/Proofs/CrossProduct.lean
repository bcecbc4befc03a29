import ImportWatch.Proofs.Nested

/-!
# ImportWatch.Proofs.CrossProduct

The expansion of groups is the ordered cross product of their alternatives.

* `Nested.denoted` says recursively which texts a nested text stands for;
* `Nested.visits` lists the nodes of the tree of choices in preorder: the root
  is the text, and the children of a node are the texts with its first group
  replaced by each of its alternatives;
* `leaves_visits`: the nodes without groups are the denoted texts, in order;
* `resolve_visits`: the texts that are taken up by `resolve` are these nodes
  in this order, one for each step.
-/

namespace ImportWatch

open Text

namespace Nested

/-! ## parts of a nested text -/

theorem sublist_of_mem_splitCommas {t u : Nested} (h : u ∈ t.splitCommas) :
    u.text.Sublist t.text := by
  induction t generalizing u with
  | nil => simp_all [splitCommas]
  | char c hc rest ih =>
      rw [splitCommas] at h
      by_cases hcomma : c = ','
      · rw [if_pos hcomma] at h
        rcases List.mem_cons.1 h with rfl | h
        · exact List.nil_sublist _
        · exact (ih h).cons c
      · rw [if_neg hcomma] at h
        rcases mem_modifyHead h with h | ⟨v, hv, rfl⟩
        · exact (ih h).cons c
        · exact (ih hv).cons_cons c
  | group inside rest _ ih =>
      rcases mem_modifyHead h with h | ⟨v, hv, rfl⟩
      · have := (ih h).trans (List.sublist_append_right ('{' :: inside.text ++ ['}']) rest.text)
        simpa [text] using this
      · have := (List.Sublist.refl ('{' :: inside.text ++ ['}'])).append (ih hv)
        simpa [text] using this

theorem text_trim_sublist (t : Nested) : t.trim.text.Sublist t.text := by
  rw [text_trim]
  exact Text.trim_sublist t.text

/-- An alternative of a group is a part of what stands in the group. -/
theorem sublist_of_mem_alternatives {t u : Nested} (h : u ∈ t.alternatives) :
    u.text.Sublist t.text := by
  simp only [alternatives, List.mem_filter, List.mem_map] at h
  obtain ⟨⟨v, hv, rfl⟩, _⟩ := h
  exact v.text_trim_sublist.trans (sublist_of_mem_splitCommas hv)

/-- Replacing the first group leaves fewer groups. -/
theorem count_of_mem_choices {t u : Nested} {ts : List Nested} (h : t.choices? = some ts)
    (hu : u ∈ ts) : u.text.count '{' < t.text.count '{' := by
  induction t generalizing u ts with
  | nil => simp [choices?] at h
  | char c hc rest ih =>
      simp only [choices?, Option.map_eq_some_iff] at h
      obtain ⟨us, hus, rfl⟩ := h
      obtain ⟨v, hv, rfl⟩ := List.mem_map.1 hu
      have := ih hus hv
      simp only [text, List.count_cons]
      omega
  | group inside rest _ _ =>
      simp only [choices?, Option.some.injEq] at h
      subst h
      obtain ⟨a, ha, rfl⟩ := List.mem_map.1 hu
      have := (sublist_of_mem_alternatives ha).count_le '{'
      simp [text]
      omega

/-! ## denoted and tree of choices -/

/-- The texts that a nested text stands for: a group stands for what each of
its alternatives stands for, in order, and texts behind one another for all
that can be put together, where the choice on the left varies slowest. -/
def denoted : Nested → List Text
  | nil => [[]]
  | char c _ rest => rest.denoted.map (c :: ·)
  | group inside rest =>
    (inside.alternatives.attach.flatMap fun a => a.1.denoted).flatMap fun s =>
      rest.denoted.map (s ++ ·)
termination_by t => t.text.length
decreasing_by
  · simp [text]
  · simp only [text, List.length_cons, List.length_append]
    omega
  · have := (sublist_of_mem_alternatives a.2).length_le
    simp only [text, List.length_cons, List.length_append]
    omega

/-- The nodes of the tree of choices in preorder: the text itself, and then the
nodes below each of the texts with its first group replaced by an alternative. -/
def visits (t : Nested) : List Nested :=
  match _h : t.choices? with
  | none => [t]
  | some ts => t :: ts.attach.flatMap fun u => u.1.visits
termination_by t.text.count '{'
decreasing_by exact count_of_mem_choices _h u.2

@[simp] theorem denoted_nil : nil.denoted = [[]] := by rw [denoted]

@[simp] theorem denoted_char (c : Char) (h : isBrace c = false) (rest : Nested) :
    (char c h rest).denoted = rest.denoted.map (c :: ·) := by rw [denoted]

theorem denoted_group (inside rest : Nested) :
    (group inside rest).denoted =
      (inside.alternatives.flatMap denoted).flatMap fun s => rest.denoted.map (s ++ ·) := by
  rw [denoted, List.flatMap_subtype (g := denoted) fun _ _ => rfl, List.unattach_attach]

theorem visits_of_isPlain {t : Nested} (h : t.isPlain = true) : t.visits = [t] := by
  rw [visits]
  split
  · rfl
  · simp_all [isPlain]

theorem visits_of_choices? {t : Nested} {ts : List Nested} (h : t.choices? = some ts) :
    t.visits = t :: ts.flatMap visits := by
  rw [visits]
  split
  · simp_all
  · rename_i us hus
    obtain rfl : ts = us := by simpa [h] using hus
    rw [List.flatMap_subtype (g := visits) fun _ _ => rfl, List.unattach_attach]

theorem denoted_append (t u : Nested) :
    (t.append u).denoted = t.denoted.flatMap fun s => u.denoted.map (s ++ ·) := by
  induction t with
  | nil => simp [append]
  | char c h rest ih =>
      simp [append, ih, List.map_flatMap, List.flatMap_map, Function.comp_def]
  | group inside rest _ ih =>
      simp [append, denoted_group, ih, List.map_flatMap, List.flatMap_assoc, List.flatMap_map,
        Function.comp_def]

theorem denoted_of_isPlain {t : Nested} (h : t.isPlain = true) : t.denoted = [t.text] := by
  induction t with
  | nil => simp [text]
  | char c hc rest ih =>
      simp only [isPlain, choices?, Option.isNone_map] at h
      simp [ih h, text]
  | group inside rest _ _ => simp [isPlain, choices?] at h

theorem denoted_of_choices? {t : Nested} {ts : List Nested} (h : t.choices? = some ts) :
    t.denoted = ts.flatMap denoted := by
  induction t generalizing ts with
  | nil => simp [choices?] at h
  | char c hc rest ih =>
      simp only [choices?, Option.map_eq_some_iff] at h
      obtain ⟨us, hus, rfl⟩ := h
      rw [denoted_char, ih hus, List.map_flatMap, List.flatMap_map]
      simp
  | group inside rest _ _ =>
      simp only [choices?, Option.some.injEq] at h
      subst h
      simp [denoted_group, denoted_append, List.flatMap_map, List.flatMap_assoc]

/-- The nodes without groups are the denoted texts, in order. -/
theorem leaves_visits (t : Nested) : (t.visits.filter isPlain).map text = t.denoted := by
  induction hn : t.text.count '{' using Nat.strongRecOn generalizing t with
  | ind n ih =>
      subst hn
      cases h : t.choices? with
      | none =>
          have hplain : t.isPlain = true := by simp [isPlain, h]
          simp [visits_of_isPlain hplain, denoted_of_isPlain hplain, hplain]
      | some ts =>
          have hplain : t.isPlain = false := by simp [isPlain, h]
          have hbelow : ∀ u ∈ ts, (u.visits.filter isPlain).map text = u.denoted :=
            fun u hu => ih _ (count_of_mem_choices h hu) u rfl
          rw [visits_of_choices? h, denoted_of_choices? h,
            List.filter_cons_of_neg (by simp [hplain]), List.filter_flatMap, List.map_flatMap]
          rw [List.flatMap_def, List.flatMap_def, List.map_congr_left hbelow]

end Nested

/-! ## the steps of the expansion -/

/-- What comes of some nodes that are taken up in order, one for each step, when
the texts without groups are read by `leaf`. -/
def readVisits (leaf : Nested → Except Rejection ModulePath) (steps : Nat) (ts : List Nested) :
    Except Rejection (List ModulePath) := do
  let paths ← ((ts.take steps).filter Nested.isPlain).mapM leaf
  if ts.length ≤ steps then return paths else throw (.tooManySteps stepLimit)

section

variable {leaf : Nested → Except Rejection ModulePath}

@[simp] theorem readVisits_nil (steps : Nat) : readVisits leaf steps [] = .ok [] := by
  simp [readVisits, pure, Except.pure]
  rfl

theorem readVisits_zero_cons (t : Nested) (ts : List Nested) :
    readVisits leaf 0 (t :: ts) = .error (.tooManySteps stepLimit) := by
  simp [readVisits]
  rfl

theorem readVisits_of_isPlain (steps : Nat) {t : Nested} (h : t.isPlain = true)
    (ts : List Nested) :
    readVisits leaf (steps + 1) (t :: ts) = do
      let p ← leaf t
      return p :: (← readVisits leaf steps ts) := by
  simp only [readVisits, List.take_succ_cons, List.filter_cons_of_pos h, List.mapM_cons,
    List.length_cons, Nat.add_le_add_iff_right, bind_assoc, pure_bind]
  cases leaf t with
  | error e => rfl
  | ok p =>
      cases ((ts.take steps).filter Nested.isPlain).mapM leaf with
      | error e => rfl
      | ok paths =>
          by_cases hlen : ts.length ≤ steps
          · simp [hlen]
          · simp [hlen]
            rfl

theorem readVisits_of_not_isPlain (steps : Nat) {t : Nested} (h : t.isPlain = false)
    (ts : List Nested) : readVisits leaf (steps + 1) (t :: ts) = readVisits leaf steps ts := by
  simp [readVisits, h]

/-- The items that are taken up are the nodes of the trees of choices of the
pending texts, in preorder; behind every text stands the same text `s`. -/
theorem resolve_visits (s : Text)
    (hleaf : ∀ t : Nested, t.isPlain = true → ∀ steps pending,
      resolve (steps + 1) ((t.text ++ s) :: pending) = do
        let p ← leaf t
        return p :: (← resolve steps pending))
    (steps : Nat) (ts : List Nested) :
    resolve steps (ts.map (·.text ++ s)) = readVisits leaf steps (ts.flatMap Nested.visits) := by
  induction steps generalizing ts with
  | zero =>
      cases ts with
      | nil => simp
      | cons t ts =>
          rw [List.map_cons, resolve_zero_cons, List.flatMap_cons]
          cases h : t.choices? with
          | none =>
              have hplain : t.isPlain = true := by simp [Nested.isPlain, h]
              rw [Nested.visits_of_isPlain hplain, List.singleton_append, readVisits_zero_cons]
          | some us =>
              rw [Nested.visits_of_choices? h, List.cons_append, readVisits_zero_cons]
  | succ steps ih =>
      cases ts with
      | nil => simp
      | cons t ts =>
          cases h : t.choices? with
          | none =>
              have hplain : t.isPlain = true := by simp [Nested.isPlain, h]
              rw [List.map_cons, hleaf t hplain, List.flatMap_cons,
                Nested.visits_of_isPlain hplain, List.singleton_append,
                readVisits_of_isPlain steps hplain, ih]
          | some us =>
              have hplain : t.isPlain = false := by simp [Nested.isPlain, h]
              obtain ⟨g, hg, hchoices⟩ := first?_of_choices? h s
              rw [List.map_cons, resolve_of_group steps _ hg, hchoices, ← List.map_append, ih,
                List.flatMap_cons, Nested.visits_of_choices? h, List.cons_append,
                readVisits_of_not_isPlain steps hplain, List.flatMap_append]

end

/-! ## the expansion of a balanced text -/

/-- The rejection of the first of some texts that is no path, if there is one. -/
def firstRejection? (texts : List Text) : Option Rejection :=
  texts.findSome? fun s =>
    match ModulePath.read s with
    | .error e => some e
    | .ok _ => none

theorem mapM_read_of_firstRejection? {texts : List Text} {e : Rejection}
    (h : firstRejection? texts = some e) : texts.mapM ModulePath.read = .error e := by
  induction texts with
  | nil => simp [firstRejection?] at h
  | cons s texts ih =>
      rw [List.mapM_cons]
      cases hs : ModulePath.read s with
      | error e' =>
          obtain rfl : e' = e := by simpa [firstRejection?, hs] using h
          rfl
      | ok p =>
          rw [ih (by simpa [firstRejection?, hs] using h)]
          rfl

theorem exists_paths_of_firstRejection?_eq_none {texts : List Text}
    (h : firstRejection? texts = none) :
    ∃ paths, paths.map Except.ok = texts.map ModulePath.read ∧
      texts.mapM ModulePath.read = .ok paths := by
  induction texts with
  | nil => exact ⟨[], rfl, rfl⟩
  | cons s texts ih =>
      cases hs : ModulePath.read s with
      | error e => simp [firstRejection?, hs] at h
      | ok p =>
          obtain ⟨paths, hpaths, hread⟩ := ih (by simpa [firstRejection?, hs] using h)
          refine ⟨p :: paths, by simp [hs, hpaths], ?_⟩
          rw [List.mapM_cons, hs, hread]
          rfl

theorem resolve_text (steps : Nat) (t : Nested) :
    resolve steps [t.text] = readVisits (ModulePath.read ·.text) steps t.visits := by
  have hleaf (u : Nested) (hu : u.isPlain = true) (steps : Nat) (pending : List Text) :
      resolve (steps + 1) ((u.text ++ []) :: pending) = do
        let p ← ModulePath.read u.text
        return p :: (← resolve steps pending) := by
    rw [List.append_nil]
    exact resolve_of_path steps pending (first?_of_isPlain hu)
  have := resolve_visits [] hleaf steps [t]
  rwa [List.map_singleton, List.append_nil, List.flatMap_singleton] at this

/-- How a statement whose body reads as `t` is expanded: to the ordered cross
product of its alternatives as long as the tree of choices has no more nodes
than steps may be taken. -/
structure ExpandsAs (text : Text) (t : Nested) : Prop where
  /-- Each denoted text is a path: these are the paths, in order, duplicates kept. -/
  accepted : t.visits.length ≤ stepLimit → firstRejection? t.denoted = none →
    ∃ paths, paths.map Except.ok = t.denoted.map ModulePath.read ∧
      expand text = .ok ⟨statementOfBody t.text, paths⟩
  /-- Some denoted text is no path: the first one decides. -/
  rejected : t.visits.length ≤ stepLimit → ∀ e, firstRejection? t.denoted = some e →
    expand text = .error e
  /-- There are more nodes than steps: the first text that is no path decides if it is
  among the nodes that are taken up, and otherwise the statement takes too many steps. -/
  overrun : stepLimit < t.visits.length →
    expand text = .error
      ((firstRejection? (((t.visits.take stepLimit).filter Nested.isPlain).map Nested.text)).getD
        (.tooManySteps stepLimit))

theorem expandsAs_of_statementBody {text : Text} {t : Nested}
    (h : statementBody text = .ok t.text) : ExpandsAs text t := by
  have hexpand : expand text =
      (readVisits (ModulePath.read ·.text) stepLimit t.visits).map fun paths =>
        ⟨statementOfBody t.text, paths⟩ := by
    rw [expand, h, ← resolve_text]
  have hmap (us : List Nested) :
      us.mapM (ModulePath.read ·.text) = (us.map Nested.text).mapM ModulePath.read := by
    rw [List.mapM_map]
    rfl
  constructor
  · intro hlen hnone
    obtain ⟨paths, hpaths, hread⟩ := exists_paths_of_firstRejection?_eq_none hnone
    refine ⟨paths, hpaths, ?_⟩
    rw [hexpand, readVisits, hmap, List.take_of_length_le hlen, Nested.leaves_visits, hread]
    simp [hlen]
    rfl
  · intro hlen e he
    rw [hexpand, readVisits, hmap, List.take_of_length_le hlen, Nested.leaves_visits,
      mapM_read_of_firstRejection? he]
    rfl
  · intro hlen
    rw [hexpand, readVisits, hmap]
    generalize hread : ((t.visits.take stepLimit).filter Nested.isPlain).map Nested.text = read
    cases he : firstRejection? read with
    | some e =>
        rw [mapM_read_of_firstRejection? he]
        rfl
    | none =>
        obtain ⟨paths, _, hread⟩ := exists_paths_of_firstRejection?_eq_none he
        rw [hread]
        simp [Nat.not_le.2 hlen]
        rfl

/-- **Ordered cross product**: the body of a statement with balanced braces reads as a
nested text in exactly one way, and the statement is expanded as that says. -/
theorem expand_eq_crossProduct {text body : Text} (hbody : statementBody text = .ok body)
    (hb : Balanced body) :
    ∃ t : Nested, t.text = body ∧ (∀ u : Nested, u.text = body → u = t) ∧ ExpandsAs text t := by
  obtain ⟨t, rfl⟩ := exists_nested hb
  exact ⟨t, rfl, fun u hu => Nested.text_injective hu, expandsAs_of_statementBody hbody⟩

theorem expand_eq_crossProduct_siblings :
    statementBody "use ::a::{b, {c , {}}, }::{d,e as x};".toList =
        .ok "::a::{b, {c, {}},}::{d,e as x}".toList ∧
      Balanced "::a::{b, {c, {}},}::{d,e as x}".toList ∧
      ∃ t : Nested, t.text = "::a::{b, {c, {}},}::{d,e as x}".toList ∧
        (∀ u : Nested, u.text = "::a::{b, {c, {}},}::{d,e as x}".toList → u = t) ∧
        ExpandsAs "use ::a::{b, {c , {}}, }::{d,e as x};".toList t :=
  ⟨by rfl, by decide, expand_eq_crossProduct (by rfl) (by decide)⟩

end ImportWatch
