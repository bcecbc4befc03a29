import ImportWatch.Proofs.OneLine
import Mathlib.Data.List.Chain

/-!
# ImportWatch.Proofs.LineForm

What a text on one line looks like, told by the characters that stand beside
each other.

* `Neighbours` are the pairs of characters that may stand beside each other on
  one line: a blank is a single space, and none stands where gaps are closed;
* `isChain_tidy`: only such pairs are written;
* `tidy_of_isChain`: a text with no other pairs is written as it is.
-/

namespace ImportWatch

open Text

/-- Two characters that may stand beside each other on one line. -/
structure Neighbours (c d : Char) : Prop where
  behind : isBlank d = true → d = ' ' ∧ isBlank c = false ∧ closesGapAfter c = false
  before : isBlank c = true → c = ' ' ∧ isBlank d = false ∧ closesGapBefore d = false

theorem neighbours_of_not_isBlank {c d : Char} (hc : isBlank c = false) (hd : isBlank d = false) :
    Neighbours c d :=
  ⟨by simp [hd], by simp [hc]⟩

/-- The characters of a text follow each other as a relation says when all pairs in it do. -/
theorem isChain_iff_forall_pair {α : Type} {r : α → α → Prop} {s : List α} :
    s.IsChain r ↔ ∀ c d, [c, d] <:+: s → r c d := by
  rw [List.isChain_iff_forall_rel_of_append_cons_cons]
  constructor
  · rintro h c d ⟨before, after, rfl⟩
    exact h (List.append_assoc before [c, d] after)
  · rintro h c d before after rfl
    exact h c d ⟨before, after, List.append_assoc before [c, d] after⟩

/-- What is written behind a character may stand there. -/
theorem isChain_cons_tidy {c : Char} (hc : isBlank c = false) (gap : Bool) (s : Text) :
    (c :: tidy (some c) gap s).IsChain Neighbours := by
  induction s generalizing c gap with
  | nil => exact .singleton c
  | cons d s ih =>
      cases hd : isBlank d with
      | true =>
          rw [tidy_blank _ _ hd]
          exact ih hc true
      | false =>
          rw [tidy_plain _ _ hd, joint]
          split
          · rename_i h
            simp only [Option.any_some, Bool.and_eq_true, Bool.not_eq_true'] at h
            refine .cons_cons ⟨fun _ => ⟨rfl, hc, h.1.2⟩, by simp [hc]⟩ ?_
            exact .cons_cons ⟨by simp [hd], fun _ => ⟨rfl, hd, h.2⟩⟩ (ih hd false)
          · exact .cons_cons (neighbours_of_not_isBlank hc hd) (ih hd false)

/-- Only neighbours stand beside each other on one line. -/
theorem isChain_tidy (s : Text) : (tidy none false s).IsChain Neighbours := by
  induction s with
  | nil => exact .nil
  | cons c s ih =>
      cases hc : isBlank c with
      | true =>
          rw [tidy_blank _ _ hc, tidy_none true]
          exact ih
      | false =>
          rw [tidy_plain _ _ hc, joint_none, List.nil_append]
          exact isChain_cons_tidy hc false s

/-- Neighbours that go on behind a character and do not end in a blank are written as they are. -/
theorem tidy_some_of_isChain {c : Char} {s : Text} (hc : isBlank c = false)
    (h : (c :: s).IsChain Neighbours) (hlast : ∀ d ∈ s.getLast?, isBlank d = false) :
    tidy (some c) false s = s := by
  induction s using List.twoStepInduction generalizing c with
  | nil => rfl
  | singleton d =>
      have hd : isBlank d = false := hlast d rfl
      rw [tidy_plain _ _ hd, joint_false]
      rfl
  | cons_cons d e s ih ihnext =>
      obtain ⟨hcd, hde⟩ := List.isChain_cons_cons.1 h
      cases hd : isBlank d with
      | false =>
          rw [tidy_plain _ _ hd, joint_false, ihnext e hd hde (by simpa using hlast)]
          rfl
      | true =>
          -- the blank is passed as a gap, and before the next character it is written again
          obtain ⟨rfl, _, hopen⟩ := hcd.behind hd
          obtain ⟨_, he, hclose⟩ := (List.isChain_cons_cons.1 hde).1.before hd
          have hjoint : joint (some c) true e = [' '] := by simp [joint, hopen, hclose]
          have hrest : ∀ d ∈ s.getLast?, isBlank d = false := by
            cases s with
            | nil => simp
            | cons f s => simpa using hlast
          rw [tidy_blank _ _ hd, tidy_plain _ _ he, hjoint,
            ih he (List.isChain_cons_cons.1 hde).2 hrest]
          rfl

/-- A text of neighbours with no blank at its ends is written as it is. -/
theorem tidy_of_isChain {s : Text} (h : s.IsChain Neighbours)
    (hhead : ∀ c ∈ s.head?, isBlank c = false) (hlast : ∀ c ∈ s.getLast?, isBlank c = false) :
    tidy none false s = s := by
  cases s with
  | nil => rfl
  | cons c s =>
      have hc : isBlank c = false := hhead c rfl
      have hrest : ∀ d ∈ s.getLast?, isBlank d = false := by
        cases s with
        | nil => simp
        | cons d s => simpa using hlast
      rw [tidy_plain _ _ hc, joint_none, tidy_some_of_isChain hc h hrest]
      rfl

end ImportWatch
