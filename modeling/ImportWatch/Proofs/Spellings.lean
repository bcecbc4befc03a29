import ImportWatch.Proofs.PathPieces

/-!
# ImportWatch.Proofs.Spellings

Paths with everything that they may be written with.

* A `Spelling` is a path as it is written: with blanks around its names, behind a leading
  separator, with a further `self` at its end and with a rename;
* `Spelling.path` is the path that is meant, and `Spelling.text` what is written;
* `Spelling.trimmedPieces_text`: of the pieces of a spelling nothing is left but the names, and of
  the last one its name and the rename;
* `Spelling.read_text`: whatever a path is written like, the path that is meant is read;
* `read_spelling`: the paths of plain names are read from all that they may be written as, their own
  text included.
-/

namespace ImportWatch

open Text

/-! ## names and blanks -/

/-- Blanks of any kind, line feeds among them. -/
structure Padding where
  text : Text
  blank : isAllBlank text = true

/-- No blanks. -/
def Padding.none : Padding := ⟨[], rfl⟩

/-- True for the characters that a plain name may hold. -/
def isNameChar (c : Char) : Bool := !isBlank c && c != ':'

/-- A name that may be a segment of a path. -/
structure PlainName where
  text : Text
  ne_nil : text ≠ []
  plain : text.all isNameChar = true

namespace PlainName

variable (n : PlainName)

/-- The name that stands for the module before it. -/
def self : PlainName where
  text := ModulePath.selfSegment
  ne_nil := List.cons_ne_nil _ _
  plain := rfl

theorem of_mem {c : Char} (h : c ∈ n.text) : isBlank c = false ∧ c ≠ ':' := by
  simpa [isNameChar] using List.all_eq_true.1 n.plain c h

theorem isTrim : IsTrim n.text := .of_not_isBlank n.ne_nil fun _ hc => (n.of_mem hc).1

theorem colon_notMem : ':' ∉ n.text := fun h => (n.of_mem h).2 rfl

theorem space_notMem : ' ' ∉ n.text := by
  intro h
  cases (n.of_mem h).1

end PlainName

theorem Padding.colon_notMem (w : Padding) : ':' ∉ w.text := fun hc =>
  ne_colon_of_isBlank (List.all_eq_true.1 w.blank ':' hc) rfl

/-- A name with the blanks around it. -/
structure Padded where
  before : Padding
  name : PlainName
  after : Padding

namespace Padded

/-- A name as it stands between separators. -/
def text (p : Padded) : Text := p.before.text ++ (p.name.text ++ p.after.text)

/-- A name without blanks around it. -/
def ofName (n : PlainName) : Padded := ⟨.none, n, .none⟩

@[simp] theorem name_ofName (n : PlainName) : (ofName n).name = n := rfl

@[simp] theorem text_ofName (n : PlainName) : (ofName n).text = n.text :=
  List.append_nil n.text

theorem trim_text (p : Padded) : trim p.text = p.name.text := by
  rw [text, trim_blanks_append p.before.blank, trim_append_blanks p.after.blank,
    p.name.isTrim.trim_eq]

theorem colon_notMem (p : Padded) : ':' ∉ p.text := by
  simp [text, p.before.colon_notMem, p.name.colon_notMem, p.after.colon_notMem]

end Padded

/-- A rename: the new name and the blanks around it. -/
structure Renaming where
  before : Padding
  newName : PlainName
  after : Padding

/-- A rename as it is written, up to the end of the new name. -/
def Renaming.text (r : Renaming) : Text := renameMark ++ (r.before.text ++ r.newName.text)

/-! ## spellings -/

/-- A path as it is written. -/
structure Spelling where
  /-- The blanks before a leading separator, if there is one. -/
  root : Option Padding
  modules : List Padded
  last : Padded
  /-- The last name is no `self`, unless it is the only one. -/
  last_ne_self : modules ≠ [] → last.name.text ≠ ModulePath.selfSegment
  /-- The blanks around a further `self`, if there is one. -/
  further : Option (Padding × Padding)
  rename : Option Renaming

namespace Spelling

variable (s : Spelling)

/-- The path that is meant. -/
def path : ModulePath := ⟨s.modules.map (·.name.text) ++ [s.last.name.text]⟩

/-- The names with a separator behind them. -/
def leads : List Padded := s.modules ++ (s.further.map fun _ => s.last).toList

/-- The names that are written before the last one. -/
def names : List Text := s.leads.map fun p => p.name.text

theorem nil_notMem_names : [] ∉ s.names := by
  intro hmem
  obtain ⟨p, _, hp⟩ := List.mem_map.1 hmem
  exact p.name.ne_nil hp

/-- The name that is written last. -/
def final : Padded :=
  match s.further with
  | none => s.last
  | some (before, after) => ⟨before, .self, after⟩

/-- What is written behind the last separator. -/
def finalText : Text :=
  match s.rename with
  | none => s.final.text
  | some r => s.final.text ++ (r.text ++ r.after.text)

/-- What is written behind the last separator, without the blanks around it. -/
def trimmedFinal : Text :=
  match s.rename with
  | none => s.final.name.text
  | some r => s.final.name.text ++ (s.final.after.text ++ r.text)

/-- What stands between the separators. -/
def pieces : List Text :=
  (s.root.map Padding.text).toList ++ (s.leads.map Padded.text ++ [s.finalText])

/-- What is written. -/
def text : Text := pathSeparator.intercalate s.pieces

/-- The path as it is written with nothing but its names. -/
def bare : Spelling where
  root := none
  modules := s.modules.map fun p => .ofName p.name
  last := .ofName s.last.name
  last_ne_self h := s.last_ne_self (by simpa using h)
  further := none
  rename := none

theorem path_bare : s.bare.path = s.path := by
  simp [path, bare]

/-- Written with nothing but its names, a path is written as its own text. -/
theorem text_bare : s.bare.text = s.path.text := by
  have hnames : (Padded.text ∘ fun p : Padded => Padded.ofName p.name) = fun p => p.name.text :=
    funext fun p => Padded.text_ofName p.name
  simp [text, pieces, leads, finalText, final, bare, path, ModulePath.text, hnames]

/-! ### the pieces of a spelling -/

theorem trim_finalText : trim s.finalText = s.trimmedFinal := by
  unfold finalText trimmedFinal
  cases s.rename with
  | none => exact s.final.trim_text
  | some r =>
      have htrim : IsTrim (s.final.name.text ++ (s.final.after.text ++ r.text)) := by
        have := s.final.name.isTrim.append r.newName.isTrim
          (s.final.after.text ++ (renameMark ++ r.before.text))
        simpa [Renaming.text] using this
      have hsplit : s.final.text ++ (r.text ++ r.after.text) = s.final.before.text ++
          ((s.final.name.text ++ (s.final.after.text ++ r.text)) ++ r.after.text) := by
        simp [Padded.text]
      simp only [hsplit, trim_blanks_append s.final.before.blank, trim_append_blanks r.after.blank,
        htrim.trim_eq]

theorem trimmedFinal_ne_nil : s.trimmedFinal ≠ [] := by
  unfold trimmedFinal
  cases s.rename with
  | none => exact s.final.name.ne_nil
  | some r => exact List.append_ne_nil_of_left_ne_nil s.final.name.ne_nil _

theorem colon_notMem_finalText : ':' ∉ s.finalText := by
  unfold finalText
  cases s.rename with
  | none => exact s.final.colon_notMem
  | some r =>
      simp [Renaming.text, renameMark, s.final.colon_notMem, r.before.colon_notMem,
        r.newName.colon_notMem, r.after.colon_notMem]

theorem colon_notMem_pieces : ∀ p ∈ s.pieces, ':' ∉ p := by
  intro p hp
  simp only [pieces, List.mem_append, Option.mem_toList, Option.map_eq_some_iff, List.mem_map,
    List.mem_singleton] at hp
  rcases hp with ⟨w, _, rfl⟩ | ⟨q, _, rfl⟩ | rfl
  · exact w.colon_notMem
  · exact q.colon_notMem
  · exact s.colon_notMem_finalText

/-- A leading separator leaves an empty piece in front, and of the other pieces their names are
left, the last one with its rename. -/
theorem trimmedPieces_text :
    dropEmptyLead (trimmedPieces s.text) = s.names ++ [s.trimmedFinal] := by
  have hnames : s.leads.map (trim ∘ Padded.text) = s.names :=
    List.map_congr_left fun p _ => p.trim_text
  have hnonempty : [] ∉ s.names ++ [s.trimmedFinal] := by
    simp [s.nil_notMem_names, Ne.symm s.trimmedFinal_ne_nil]
  have hpieces : splitPath s.text = s.pieces :=
    splitPath_intercalate_of_notMem (by simp [pieces]) s.colon_notMem_pieces
  rw [trimmedPieces, hpieces, pieces, List.map_append, List.map_append, List.map_map,
    List.map_singleton, hnames, s.trim_finalText]
  cases s.root with
  | none => exact dropEmptyLead_of_notMem hnonempty
  | some w =>
      have hw : trim w.text = [] := by
        rw [← List.append_nil w.text, trim_blanks_append w.blank]
        rfl
      have hne : s.names ++ [s.trimmedFinal] ≠ [] := by simp
      simpa [hw] using dropEmptyLead_nil_cons hne

/-- The rename is cut off behind the last name. -/
theorem trimEnd_withoutRename_trimmedFinal :
    trimEnd (withoutRename s.trimmedFinal) = s.final.name.text := by
  unfold trimmedFinal
  cases s.rename with
  | none =>
      have hplain : withoutRename s.final.name.text = s.final.name.text := by
        simpa [withoutRename] using withoutRename_of_not_mem s.final.name.space_notMem []
      rw [hplain, s.final.name.isTrim.trimEnd_eq]
  | some r =>
      rw [withoutRename_of_not_mem s.final.name.space_notMem, Renaming.text,
        withoutRename_blanks_append s.final.after.blank,
        trimEnd_append_blanks s.final.after.blank, s.final.name.isTrim.trimEnd_eq]

/-- A further `self` is dropped behind the last name, and no other name is. -/
theorem dropFinalSelf_names :
    ModulePath.dropFinalSelf (s.names ++ [s.final.name.text]) = s.path.segments := by
  rw [ModulePath.dropFinalSelf_append]
  unfold names leads final path
  cases s.further with
  | none =>
      have hlast : ¬(s.last.name.text = ModulePath.selfSegment ∧
          (s.modules ++ []).map (fun p : Padded => p.name.text) ≠ []) := by
        rintro ⟨hself, hmodules⟩
        exact s.last_ne_self (by simpa using hmodules) hself
      simpa using hlast
  | some blanks => simp [PlainName.self]

end Spelling

/-- Whatever a path is written like, the path that is meant is read. -/
theorem Spelling.read_text (s : Spelling) : ModulePath.read s.text = .ok s.path := by
  have hfinal := s.trimEnd_withoutRename_trimmedFinal
  have hne : trimEnd (withoutRename s.trimmedFinal) ≠ [] := hfinal ▸ s.final.name.ne_nil
  rw [ModulePath.read_of_pieces s.trimmedPieces_text s.nil_notMem_names hne, hfinal,
    s.dropFinalSelf_names]

/-! ## plain paths -/

/-- True for the paths of plain names that have no `self` at the end, unless it is all there is. -/
structure ModulePath.IsPlain (p : ModulePath) : Prop where
  ne_nil : p.segments ≠ []
  plain : ∀ s ∈ p.segments, s ≠ [] ∧ s.all isNameChar = true
  self : p.segments.getLast? = some selfSegment → p.segments = [selfSegment]

/-- Every plain path may be written. -/
theorem ModulePath.IsPlain.exists_spelling {p : ModulePath} (h : p.IsPlain) :
    ∃ s : Spelling, s.path = p := by
  obtain ⟨segments⟩ := p
  obtain ⟨ms, s, rfl⟩ := (List.eq_nil_or_concat' segments).resolve_left h.ne_nil
  have hs := h.plain s List.mem_concat_self
  have hms : ∀ m ∈ ms, m ≠ [] ∧ m.all isNameChar = true := fun m hm =>
    h.plain m (List.mem_append_left [s] hm)
  let name (m : Text) (hm : m ≠ [] ∧ m.all isNameChar = true) : PlainName := ⟨m, hm.1, hm.2⟩
  have hlast : ms.pmap (fun m hm => Padded.ofName (name m hm)) hms ≠ [] → s ≠ selfSegment := by
    rintro hne rfl
    have honly := h.self (by simp)
    exact hne (by simpa using honly)
  refine ⟨⟨none, ms.pmap (fun m hm => .ofName (name m hm)) hms, .ofName (name s hs), hlast, none,
    none⟩, ?_⟩
  simp [Spelling.path, List.map_pmap, name]

/-- **Spellings**: a plain path is read from its own text, and from all the other texts that it may
be written as. -/
theorem read_spelling {p : ModulePath} (h : p.IsPlain) :
    ModulePath.read p.text = .ok p ∧
      ∀ s : Spelling, s.path = p → ModulePath.read s.text = .ok p := by
  obtain ⟨s, rfl⟩ := h.exists_spelling
  refine ⟨?_, fun t ht => ht ▸ t.read_text⟩
  rw [← s.text_bare, s.bare.read_text, s.path_bare]

theorem read_spelling_decorated :
    let p : ModulePath := ⟨["std".toList, "fs".toList]⟩
    p.IsPlain ∧ ModulePath.read p.text = .ok p ∧
      ModulePath.read "\n :: std ::\n\tfs :: self  as  files ".toList = .ok p := by
  intro p
  have hplain : ∀ s ∈ p.segments, s ≠ [] ∧ s.all isNameChar = true := by
    simp only [p, List.forall_mem_cons]
    exact ⟨⟨by decide, rfl⟩, ⟨by decide, rfl⟩, List.forall_mem_nil _⟩
  have h : p.IsPlain := ⟨List.cons_ne_nil _ _, hplain, by decide⟩
  let blank (w : Text) (hw : isAllBlank w = true) : Padding := ⟨w, hw⟩
  let s : Spelling :=
    { root := some (blank "\n ".toList rfl)
      modules := [⟨blank " ".toList rfl, ⟨"std".toList, by decide, rfl⟩, blank " ".toList rfl⟩]
      last := ⟨blank "\n\t".toList rfl, ⟨"fs".toList, by decide, rfl⟩, blank " ".toList rfl⟩
      last_ne_self := by decide
      further := some (blank " ".toList rfl, blank " ".toList rfl)
      rename := some ⟨blank " ".toList rfl, ⟨"files".toList, by decide, rfl⟩,
        blank " ".toList rfl⟩ }
  have hread := read_spelling h
  exact ⟨h, hread.1, hread.2 s rfl⟩

end ImportWatch
