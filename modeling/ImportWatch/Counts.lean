import ImportWatch.Entries

/-!
# ImportWatch.Counts

Counters by name, kept in the order of the names.

* `add` is the only way to change a counter; a name that has none yet gets one;
* `get?_add` says what it does to every counter, and two collections with the
  same counters are equal (`ext_get?`);
* `total` is the sum of all counters; `wrappedTotal` and `checkedTotal?` are how
  the two kinds of builds add them in machine words (`wrappedTotal_eq`,
  `checkedTotal?_eq`);
* `ranked` lists the counters by number, largest first, and by name where the
  numbers are equal.
-/

namespace ImportWatch

/-- Adds to the counter of a name in a list that is ordered by names. -/
def addToEntries (name : Text) (n : Nat) : List (Text × Nat) → List (Text × Nat)
  | [] => [(name, n)]
  | (k, m) :: es =>
    if name < k then (name, n) :: (k, m) :: es
    else if name = k then (k, m + n) :: es
    else (k, m) :: addToEntries name n es

/-- Entries in strictly increasing order of their names. -/
def NamesAscend (es : List (Text × Nat)) : Prop := es.Pairwise fun a b => a.1 < b.1

theorem mem_addToEntries {name : Text} {n : Nat} {e : Text × Nat} {es : List (Text × Nat)}
    (h : e ∈ addToEntries name n es) : e.1 = name ∨ e ∈ es := by
  induction es with
  | nil => simp_all [addToEntries]
  | cons d es ih =>
      obtain ⟨k, m⟩ := d
      simp only [addToEntries] at h
      split at h
      · rcases List.mem_cons.1 h with rfl | h
        · exact .inl rfl
        · exact .inr h
      · split at h
        · rename_i hk
          rcases List.mem_cons.1 h with rfl | h
          · exact .inl hk.symm
          · exact .inr (List.mem_cons_of_mem _ h)
        · rcases List.mem_cons.1 h with rfl | h
          · exact .inr List.mem_cons_self
          · exact (ih h).imp_right (List.mem_cons_of_mem _)

/-- Adding keeps the order of the names. -/
theorem namesAscend_addToEntries (name : Text) (n : Nat) {es : List (Text × Nat)}
    (h : NamesAscend es) : NamesAscend (addToEntries name n es) := by
  induction es with
  | nil => simp [addToEntries, NamesAscend]
  | cons d es ih =>
      obtain ⟨k, m⟩ := d
      simp only [NamesAscend, List.pairwise_cons] at h
      simp only [addToEntries]
      split
      · rename_i hlt
        refine List.pairwise_cons.2 ⟨?_, List.pairwise_cons.2 h⟩
        intro e he
        rcases List.mem_cons.1 he with rfl | he
        · exact hlt
        · exact List.lt_trans hlt (h.1 e he)
      · split
        · exact List.pairwise_cons.2 h
        · rename_i hnlt hne
          refine List.pairwise_cons.2 ⟨?_, ih h.2⟩
          intro e he
          rcases mem_addToEntries he with hn | he
          · rw [hn]
            exact Decidable.byContradiction fun hkn =>
              hne (List.le_antisymm hkn hnlt)
          · exact h.1 e he

theorem lookup_eq_none_of_lt {name : Text} {es : List (Text × Nat)}
    (h : ∀ e ∈ es, name < e.1) : es.lookup name = none := by
  rw [List.lookup_eq_none_iff]
  intro e he
  rw [bne_iff_ne]
  rintro rfl
  exact List.lt_irrefl _ (h e he)

/-- Ordered entries are determined by what is looked up in them. -/
theorem entries_ext {es fs : List (Text × Nat)} (he : NamesAscend es) (hf : NamesAscend fs)
    (h : ∀ name, es.lookup name = fs.lookup name) : es = fs := by
  induction es generalizing fs with
  | nil =>
      cases fs with
      | nil => rfl
      | cons f fs =>
          have := h f.1
          rw [lookup_cons_eq_ite] at this
          simp at this
  | cons e es ih =>
      obtain ⟨k, m⟩ := e
      cases fs with
      | nil =>
          have := h k
          rw [lookup_cons_eq_ite] at this
          simp at this
      | cons f fs =>
          obtain ⟨j, n⟩ := f
          obtain ⟨hk, het⟩ := List.pairwise_cons.1 he
          obtain ⟨hj, hft⟩ := List.pairwise_cons.1 hf
          have hkj : ¬ k < j := by
            intro hlt
            have hnone : ((j, n) :: fs).lookup k = none := by
              refine lookup_eq_none_of_lt fun e he => ?_
              rcases List.mem_cons.1 he with rfl | he
              · exact hlt
              · exact List.lt_trans hlt (hj e he)
            have := h k
            rw [hnone, lookup_cons_eq_ite] at this
            simp at this
          have hjk : ¬ j < k := by
            intro hlt
            have hnone : ((k, m) :: es).lookup j = none := by
              refine lookup_eq_none_of_lt fun e he => ?_
              rcases List.mem_cons.1 he with rfl | he
              · exact hlt
              · exact List.lt_trans hlt (hk e he)
            have := h j
            rw [hnone, lookup_cons_eq_ite] at this
            simp at this
          obtain rfl : k = j := List.le_antisymm hjk hkj
          have hmn : m = n := by simpa [lookup_cons_eq_ite] using h k
          subst hmn
          refine congrArg _ (ih het hft fun name => ?_)
          by_cases hn : name = k
          · subst hn
            rw [lookup_eq_none_of_lt hk, lookup_eq_none_of_lt hj]
          · simpa [lookup_cons_eq_ite, hn] using h name

/-- The number of values of a machine word, which has 64 bits. -/
def wordSize : Nat := Nat.pow 2 64

/-- Counters by name. -/
structure Counts where
  entries : List (Text × Nat)
  ascend : NamesAscend entries

namespace Counts

/-- No counters. -/
def empty : Counts := ⟨[], List.Pairwise.nil⟩

/-- Adds to the counter of a name, which starts at zero. -/
def add (c : Counts) (name : Text) (n : Nat) : Counts :=
  ⟨addToEntries name n c.entries, namesAscend_addToEntries name n c.ascend⟩

/-- Counters at zero for some names. -/
def zeros (names : List Text) : Counts := names.foldl (fun c name => c.add name 0) empty

/-- The counters with the given numbers. -/
def ofList (es : List (Text × Nat)) : Counts := es.foldl (fun c e => c.add e.1 e.2) empty

/-- The names that have a counter, in order. -/
def names (c : Counts) : List Text := c.entries.map Prod.fst

/-- The counter of a name, if it has one. -/
def get? (c : Counts) (name : Text) : Option Nat := c.entries.lookup name

/-- The sum of all counters. -/
def total (c : Counts) : Nat := c.entries.foldr (fun e n => e.2 + n) 0

/-- The sum of all counters in machine words that wrap around. -/
def wrappedTotal (c : Counts) : Nat := c.entries.foldl (fun n e => (n + e.2) % wordSize) 0

/-- The sum of all counters in machine words, unless some addition overflows. -/
def checkedTotal? (c : Counts) : Option Nat :=
  c.entries.foldlM (fun n e => if n + e.2 < wordSize then some (n + e.2) else none) 0

/-- True when an entry is listed before another one: by number, largest first, then by name. -/
def rankedBefore (a b : Text × Nat) : Bool := b.2 < a.2 || (b.2 == a.2 && !decide (b.1 < a.1))

/-- The counters by number, largest first, and by name where the numbers are equal. -/
def ranked (c : Counts) : List (Text × Nat) := c.entries.mergeSort rankedBefore

instance : DecidableEq Counts := fun a b =>
  if h : a.entries = b.entries then
    isTrue (by cases a; cases b; simp_all)
  else isFalse fun e => h (e ▸ rfl)

/-! ## sums in machine words -/

theorem foldl_wrapped (es : List (Text × Nat)) (n : Nat) :
    es.foldl (fun n e => (n + e.2) % wordSize) (n % wordSize) =
      (n + es.foldr (fun e n => e.2 + n) 0) % wordSize := by
  induction es generalizing n with
  | nil => rfl
  | cons e es ih =>
      rw [List.foldl_cons, List.foldr_cons, Nat.mod_add_mod, ih, Nat.add_assoc]

/-- Wrapping at every addition comes to wrapping the sum. -/
theorem wrappedTotal_eq (c : Counts) : c.wrappedTotal = c.total % wordSize := by
  have h := foldl_wrapped c.entries 0
  rwa [Nat.zero_mod, Nat.zero_add] at h

theorem foldlM_checked (es : List (Text × Nat)) {n : Nat} (hn : n < wordSize) :
    es.foldlM (fun n e => if n + e.2 < wordSize then some (n + e.2) else none) n =
      if n + es.foldr (fun e n => e.2 + n) 0 < wordSize then
        some (n + es.foldr (fun e n => e.2 + n) 0)
      else none := by
  induction es generalizing n with
  | nil => exact (if_pos hn).symm
  | cons e es ih =>
      rw [List.foldlM_cons, List.foldr_cons, ← Nat.add_assoc]
      by_cases h : n + e.2 < wordSize
      · rw [if_pos h]
        exact ih h
      · -- the sum only grows, so it does not fit either
        rw [if_neg h, if_neg (by omega)]
        rfl

/-- Some addition overflows exactly when the sum does not fit. -/
theorem checkedTotal?_eq (c : Counts) :
    c.checkedTotal? = if c.total < wordSize then some c.total else none := by
  have h := foldlM_checked c.entries (show 0 < wordSize by decide)
  rwa [Nat.zero_add] at h

/-! ## counters one by one -/

theorem lookup_addToEntries (name other : Text) (n : Nat) {es : List (Text × Nat)}
    (h : NamesAscend es) :
    (addToEntries name n es).lookup other =
      if other = name then some ((es.lookup name).getD 0 + n) else es.lookup other := by
  induction es with
  | nil => simp [addToEntries, lookup_cons_eq_ite]
  | cons d es ih =>
      obtain ⟨k, m⟩ := d
      have hout : name < k → ((k, m) :: es).lookup name = none := by
        intro hlt
        refine lookup_eq_none_of_lt fun e he => ?_
        rcases List.mem_cons.1 he with rfl | he
        · exact hlt
        · exact List.lt_trans hlt ((List.pairwise_cons.1 h).1 e he)
      simp only [addToEntries]
      split
      · rename_i hlt
        rw [hout hlt, lookup_cons_eq_ite, Option.getD_none, Nat.zero_add]
      · split
        · rename_i hk
          subst hk
          simp only [lookup_cons_eq_ite]
          split <;> simp
        · rename_i hk
          simp only [lookup_cons_eq_ite, ih (List.pairwise_cons.1 h).2, hk, if_false]
          split
          · split <;> simp_all
          · rfl

/-- Adding changes the counter of one name. -/
theorem get?_add (c : Counts) (name other : Text) (n : Nat) :
    (c.add name n).get? other =
      if other = name then some ((c.get? name).getD 0 + n) else c.get? other :=
  lookup_addToEntries name other n c.ascend

/-- Collections with the same counters are equal. -/
theorem ext_get? {c d : Counts} (h : ∀ name, c.get? name = d.get? name) : c = d := by
  obtain ⟨es, he⟩ := c
  obtain ⟨fs, hf⟩ := d
  obtain rfl := entries_ext he hf h
  rfl

end Counts

end ImportWatch
