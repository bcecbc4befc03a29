import ImportWatch.Report.Style
import ImportWatch.Text.Pieces
import Mathlib.Data.List.Forall2

/-!
# ImportWatch.Proofs.Colours

What a terminal shows of a styled text.

* `Style.shown` leaves out the sequences that set styles;
* `Style.Shows` says that a text is shown as another one, whatever is printed
  behind it, so the parts of a text can be looked at one by one;
* `Style.shows_paint`: a style changes nothing that is shown.
-/

namespace ImportWatch.Report.Style

/-- What is shown of a text, outside of a sequence that sets a style or inside of one. -/
def shownFrom : Bool → Text → Text
  | _, [] => []
  | true, c :: t => shownFrom (c != 'm') t
  | false, c :: t => if c = '\x1b' then shownFrom true t else c :: shownFrom false t

/-- What a terminal shows of a text: a sequence that sets a style, from an escape character up to
the next `m`, is not shown. -/
def shown (t : Text) : Text := shownFrom false t

/-- True when a text is shown as another one, whatever comes behind it. -/
def Shows (t plain : Text) : Prop := ∀ behind, shown (t ++ behind) = plain ++ shown behind

theorem Shows.shown_eq {t plain : Text} (h : Shows t plain) : shown t = plain := by
  have hend := h []
  rwa [List.append_nil, show shown [] = [] from rfl, List.append_nil] at hend

theorem Shows.append {s t plain plain' : Text} (hs : Shows s plain) (ht : Shows t plain') :
    Shows (s ++ t) (plain ++ plain') := by
  intro behind
  rw [List.append_assoc, hs, ht, List.append_assoc]

/-- A text that sets no style is shown as it is. -/
theorem shows_self {t : Text} (h : '\x1b' ∉ t) : Shows t t := by
  intro behind
  induction t with
  | nil => rfl
  | cons c t ih =>
      rw [List.mem_cons, not_or] at h
      rw [List.cons_append, shown, shownFrom, if_neg (Ne.symm h.1)]
      exact congrArg (c :: ·) (ih h.2)

theorem shownFrom_true_append {code : Text} (h : 'm' ∉ code) (behind : Text) :
    shownFrom true (code ++ 'm' :: behind) = shown behind := by
  induction code with
  | nil => rfl
  | cons c code ih =>
      rw [List.mem_cons, not_or] at h
      rw [List.cons_append, shownFrom, bne_iff_ne.2 (Ne.symm h.1), ih h.2]

theorem shows_unlines {ls plains : List Text} (h : List.Forall₂ Shows ls plains) :
    Shows (Text.unlines ls) (Text.unlines plains) := by
  induction h with
  | nil => exact fun _ => rfl
  | cons hline _ ih => exact (hline.append (shows_self (by decide))).append ih

/-- The sequence that turns a style on is not shown. -/
theorem shows_opening (s : Style) : Shows s.opening [] := by
  intro behind
  have hcode : 'm' ∉ '[' :: s.code := by cases s <;> decide
  have htext : s.opening ++ behind = '\x1b' :: (('[' :: s.code) ++ 'm' :: behind) := by
    simp [opening]
  rw [htext]
  exact shownFrom_true_append hcode behind

theorem shows_reset : Shows reset [] := fun _ => rfl

/-- No style is turned on again in a text that turns none off. -/
theorem reopen_of_notMem (opening : Text) {t : Text} (h : '\x1b' ∉ t) : reopen opening t = t := by
  induction t with
  | nil => rfl
  | cons c t ih =>
      rw [List.mem_cons, not_or] at h
      rw [reopen, ih h.2]
      exact fun _ hc => absurd hc.symm h.1

/-- A styled text is shown as the text. -/
theorem shows_paint (s : Style) {t : Text} (h : '\x1b' ∉ t) : Shows (paint true s t) t := by
  have hpaint : paint true s t = s.opening ++ t ++ reset := by
    rw [paint, if_pos rfl, reopen_of_notMem s.opening h]
  have hshows := ((shows_opening s).append (shows_self h)).append shows_reset
  rwa [← hpaint, List.nil_append, List.append_nil] at hshows

end ImportWatch.Report.Style
