import ImportWatch.Text.Blank

/-!
# ImportWatch.Entries

Lists of entries with names, in which the first entry of a name counts.

* `lookup_cons_eq_ite` is look-up in a list that is not empty;
* `putEntry` replaces the entry of a name or adds one, and `lookup_putEntry`
  says that it changes the entry of that name only;
* `putEntry_eq_self` puts an entry that is there already.
-/

namespace ImportWatch

theorem lookup_cons_eq_ite (name k : Text) (a : α) (es : List (Text × α)) :
    ((k, a) :: es).lookup name = if name = k then some a else es.lookup name := by
  by_cases h : name = k
  · simp [h]
  · rw [List.lookup_cons, beq_false_of_ne h]
    simp [h]

/-- Replaces the entry of a name, or adds one behind the others. -/
def putEntry (name : Text) (a : α) : List (Text × α) → List (Text × α)
  | [] => [(name, a)]
  | e :: es => if e.1 = name then (name, a) :: es else e :: putEntry name a es

/-- Putting changes the entry of one name. -/
theorem lookup_putEntry (name other : Text) (a : α) (es : List (Text × α)) :
    (putEntry name a es).lookup other = if other = name then some a else es.lookup other := by
  induction es with
  | nil => simp [putEntry, lookup_cons_eq_ite]
  | cons e es ih =>
      obtain ⟨k, b⟩ := e
      simp only [putEntry]
      split
      · rename_i hk
        subst hk
        simp only [lookup_cons_eq_ite]
        split <;> rfl
      · rename_i hk
        simp only [lookup_cons_eq_ite, ih]
        split
        · rename_i ho
          subst ho
          simp [hk]
        · rfl

theorem putEntry_eq_self {name : Text} {a : α} {es : List (Text × α)}
    (h : es.lookup name = some a) : putEntry name a es = es := by
  induction es with
  | nil => cases h
  | cons e es ih =>
      obtain ⟨k, b⟩ := e
      rw [lookup_cons_eq_ite] at h
      by_cases hk : name = k
      · simp_all [putEntry]
      · rw [if_neg hk] at h
        rw [putEntry, if_neg (Ne.symm hk), ih h]

end ImportWatch
