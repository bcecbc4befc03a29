import ImportWatch.Proofs.Locations

/-!
# ImportWatch.Proofs.Growth

Disks on which folders are made and files are written.

* `Disk.Grows` is what can be relied on after nodes were put at some locations:
  what was there is still there, and a node is the same unless something was
  put at its location or below;
* `Disk.Accepts` says what may be put where; `Disk.Accepts.grows` is one change,
  `Disk.Grows.trans` a run of them;
* `Disk.Way` is how a path leads to an entry; `Disk.write_eq_ok_iff` and
  `Disk.way_of_makeFolder` say when an entry is changed, and which;
* `Disk.grows_makeFolders` is about all folders that are made for a path.
-/

namespace ImportWatch.Disk

open PathText

variable {d d' d'' : Disk} {touched : Location → Prop}

/-- What can be relied on after nodes were put at the locations that are touched. -/
structure Grows (touched : Location → Prop) (d d' : Disk) : Prop where
  workplace : d'.workplace = d.workplace
  folder : ∀ {here : Location}, d.HasFolder here → d'.HasFolder here
  file : ∀ {here : Location} {c : Bytes}, d.node? here = some (.file c) →
    ∃ c', d'.node? here = some (.file c') ∧ (¬touched here → c' = c)
  unchanged : ∀ {here : Location}, (∀ there, touched there → ¬here <+: there) →
    d'.node? here = d.node? here

namespace Grows

theorem refl (touched : Location → Prop) (d : Disk) : Grows touched d d :=
  ⟨rfl, fun h => h, fun {_ c} h => ⟨c, h, fun _ => rfl⟩, fun _ => rfl⟩

theorem trans (h : Grows touched d d') (h' : Grows touched d' d'') : Grows touched d d'' where
  workplace := h'.workplace.trans h.workplace
  folder hfolder := h'.folder (h.folder hfolder)
  file hfile := by
    obtain ⟨c', hfile', hsame⟩ := h.file hfile
    obtain ⟨c'', hfile'', hsame'⟩ := h'.file hfile'
    exact ⟨c'', hfile'', fun hnot => (hsame' hnot).trans (hsame hnot)⟩
  unchanged hnot := (h'.unchanged hnot).trans (h.unchanged hnot)

theorem mono (h : Grows touched d d') {more : Location → Prop}
    (hmore : ∀ here, touched here → more here) : Grows more d d' where
  workplace := h.workplace
  folder := h.folder
  file hfile := (h.file hfile).imp fun _ => And.imp_right fun hsame hnot =>
    hsame fun htouched => hnot (hmore _ htouched)
  unchanged hnot := h.unchanged fun there htouched => hnot there (hmore there htouched)

theorem exists_node? (h : Grows touched d d') {here : Location}
    (hsome : (d.node? here).isSome = true) : (d'.node? here).isSome = true := by
  obtain ⟨n, hn⟩ := Option.isSome_iff_exists.1 hsome
  cases n with
  | file c =>
      obtain ⟨c', hfile, _⟩ := h.file hn
      simp [hfile]
  | folder es =>
      obtain ⟨es', hfolder⟩ := h.folder ⟨es, hn⟩
      simp [hfolder]

end Grows

/-! ## putting a node -/

theorem node?_put_self {here : Location} (h : d.HasFolder here) (name : Text) (n : Node) :
    (d.put (here ++ [name]) n).node? (here ++ [name]) = some n := by
  obtain ⟨es, hes⟩ := h
  rw [node?, Node.find?_append, put, Node.find?_put_append n (List.cons_ne_nil name []),
    show d.root.find? here = _ from hes]
  simp [Node.put, Node.find?, lookup_putEntry]

/-- True when a node may become the entry of a folder: a file where no folder stands, or an empty
folder where nothing stands. -/
structure Accepts (d : Disk) (here : Location) (name : Text) (n : Node) : Prop where
  folder : d.HasFolder here
  free : ¬d.HasFolder (here ++ [name])
  file : ∀ c, d.node? (here ++ [name]) = some (.file c) → ∃ c', n = .file c'
  leaf : ∀ rest, rest ≠ [] → n.find? rest = none

section

variable {here there : Location} {name : Text} {n : Node}

theorem accepts_file (h : d.HasFolder here) (hfree : ¬d.HasFolder (here ++ [name])) (c : Bytes) :
    d.Accepts here name (.file c) := by
  refine ⟨h, hfree, fun _ _ => ⟨c, rfl⟩, fun rest hne => ?_⟩
  cases rest with
  | nil => exact absurd rfl hne
  | cons next below => rfl

theorem accepts_empty (h : d.HasFolder here) (hnone : d.node? (here ++ [name]) = none) :
    d.Accepts here name .empty := by
  refine ⟨h, ?_, fun c hfile => ?_, fun rest hne => ?_⟩
  · rintro ⟨es, hes⟩
    rw [hes] at hnone
    cases hnone
  · rw [hnone] at hfile
    cases hfile
  · cases rest with
    | nil => exact absurd rfl hne
    | cons next below => rfl

namespace Accepts

/-- A node is the same unless something was put there or below. -/
theorem node?_beside (h : d.Accepts here name n) (hpre : ¬there <+: here ++ [name]) :
    (d.put (here ++ [name]) n).node? there = d.node? there := by
  by_cases hbelow : here ++ [name] <+: there
  · -- nothing was below the location, and nothing is
    obtain ⟨rest, rfl⟩ := hbelow
    have hne : rest ≠ [] := by
      rintro rfl
      exact hpre (by simp)
    have hput : ((d.put (here ++ [name]) n).node? (here ++ [name] ++ rest)) = none := by
      rw [node?, Node.find?_append]
      show ((d.put (here ++ [name]) n).node? (here ++ [name])).bind _ = none
      rw [node?_put_self h.folder, Option.bind_some, h.leaf rest hne]
    cases hnode : d.node? (here ++ [name] ++ rest) with
    | none => exact hput
    | some m => exact absurd (hasFolder_of_node? hne hnode) h.free
  · exact Node.find?_put_of_not_isPrefix n d.root hbelow hpre

theorem hasFolder (h : d.Accepts here name n) (hfolder : d.HasFolder there) :
    (d.put (here ++ [name]) n).HasFolder there := by
  by_cases hpre : there <+: here ++ [name]
  · obtain ⟨rest, hrest⟩ := hpre
    have hne : rest ≠ [] := by
      rintro rfl
      rw [List.append_nil] at hrest
      exact h.free (hrest ▸ hfolder)
    obtain ⟨es, hes⟩ := hfolder
    obtain ⟨es', hes'⟩ := Node.exists_put_folder n hne es
    refine ⟨es', ?_⟩
    rw [node?, put, ← hrest, Node.find?_put_append n hne, show d.root.find? there = _ from hes,
      Option.map_some, hes']
  · obtain ⟨es, hes⟩ := hfolder
    exact ⟨es, (h.node?_beside hpre).trans hes⟩

/-- A file is the same unless it is put itself, and then it is a file again. -/
theorem exists_file (h : d.Accepts here name n) {c : Bytes}
    (hfile : d.node? there = some (.file c)) :
    ∃ c', (d.put (here ++ [name]) n).node? there = some (.file c') ∧
      (¬there = here ++ [name] → c' = c) := by
  by_cases hpre : there <+: here ++ [name]
  · rcases List.prefix_concat_iff.1 hpre with rfl | hpre
    · obtain ⟨c', rfl⟩ := h.file c hfile
      exact ⟨c', node?_put_self h.folder name (.file c'), fun hnot => absurd rfl hnot⟩
    · obtain ⟨es, hes⟩ := h.folder.of_isPrefix hpre
      rw [hes] at hfile
      cases hfile
  · exact ⟨c, (h.node?_beside hpre).trans hfile, fun _ => rfl⟩

theorem grows (h : d.Accepts here name n) :
    Grows (· = here ++ [name]) d (d.put (here ++ [name]) n) where
  workplace := rfl
  folder := h.hasFolder
  file := h.exists_file
  unchanged hnot := h.node?_beside (hnot _ rfl)

end Accepts

end

/-! ## looking again -/

namespace Grows

theorem step (h : Grows touched d d') {here there : Location} {piece : Text}
    (hstep : d.step here piece = .ok there) : d'.step here piece = .ok there := by
  obtain ⟨hfolder, hthere, hname⟩ := step_eq_ok_iff.1 hstep
  exact step_eq_ok_iff.2 ⟨h.folder hfolder, hthere, fun hn => h.exists_node? (hname hn)⟩

theorem foldlM_step (h : Grows touched d d') {ps : List Text} {here there : Location}
    (hsteps : ps.foldlM d.step here = .ok there) : ps.foldlM d'.step here = .ok there := by
  induction ps generalizing here with
  | nil => exact hsteps
  | cons p ps ih =>
      rw [List.foldlM_cons, bind_eq_ok_iff] at hsteps ⊢
      obtain ⟨next, hstep, hrest⟩ := hsteps
      exact ⟨next, h.step hstep, ih hrest⟩

theorem origin (h : Grows touched d d') (path : Text) : d'.origin path = d.origin path := by
  rw [Disk.origin, Disk.origin, h.workplace]

theorem target (h : Grows touched d d') (path : Text) : d'.target path = d.target path := by
  rw [Disk.target, Disk.target, h.origin]

end Grows

theorem isFolder_iff {path : Text} :
    d.isFolder path = true ↔ ∃ here, d.locate path = .ok here ∧ d.HasFolder here := by
  rw [isFolder, folder?]
  cases d.locate path with
  | error e => simp
  | ok here =>
      cases hnode : d.node? here with
      | none => simp [HasFolder, hnode]
      | some n => cases n <;> simp [HasFolder, hnode]

theorem Grows.locate (h : Grows touched d d') {path : Text} {here : Location}
    (hlocate : d.locate path = .ok here) : d'.locate path = .ok here := by
  obtain ⟨hcheck, hsteps⟩ := locate_eq_ok_iff.1 hlocate
  refine locate_eq_ok_iff.2 ⟨hcheck, ?_⟩
  rw [h.origin]
  exact h.foldlM_step hsteps

theorem Grows.isFolder (h : Grows touched d d') {path : Text} (hfolder : d.isFolder path = true) :
    d'.isFolder path = true := by
  obtain ⟨here, hlocate, hhere⟩ := isFolder_iff.1 hfolder
  exact isFolder_iff.2 ⟨here, h.locate hlocate, h.folder hhere⟩

theorem read_eq_ok_iff {path : Text} {c : Bytes} :
    d.read path = .ok c ↔
      d.locate path = .ok (d.target path) ∧ d.node? (d.target path) = some (.file c) := by
  rw [read]
  cases hlocate : d.locate path with
  | error e => simp
  | ok here =>
      rw [← eq_target_of_locate hlocate]
      cases hnode : d.node? here with
      | none => simp [hnode]
      | some n => cases n <;> simp [hnode]

/-- A file that is not touched is read again. -/
theorem Grows.read (h : Grows touched d d') {path : Text} {c : Bytes}
    (hread : d.read path = .ok c) (hnot : ¬touched (d.target path)) : d'.read path = .ok c := by
  obtain ⟨hlocate, hfile⟩ := read_eq_ok_iff.1 hread
  obtain ⟨c', hfile', hsame⟩ := h.file hfile
  rw [read_eq_ok_iff, h.target]
  exact ⟨h.locate hlocate, hsame hnot ▸ hfile'⟩

/-- The folder at a clean path is the same when nothing is touched there or below. -/
theorem Grows.folder?_clean (h : Grows touched d d') (hwork : d.HasFolder d.workplace) {path : Text}
    (hnot : ∀ there, touched there → ¬d.target (clean path) <+: there) :
    d'.folder? (clean path) = d.folder? (clean path) := by
  cases hcheck : checkPath (clean path) with
  | error e =>
      have hnone (d : Disk) : d.folder? (clean path) = none := by
        rw [folder?, Disk.locate, hcheck]
        rfl
      rw [hnone, hnone]
  | ok u =>
      have hwork' : d'.HasFolder d'.workplace := h.workplace ▸ h.folder hwork
      rw [Disk.folder?_clean hwork' hcheck, Disk.folder?_clean hwork hcheck, h.target,
        h.unchanged hnot]

/-! ## the way to an entry -/

/-- The way of a path to an entry: the pieces `before` lead to the folder `here`, its entry `name`
is meant, and nothing but empty pieces follow. -/
structure Way (d : Disk) (path : Text) (before : List Text) (here : Location) (name : Text)
    (behind : List Text) : Prop where
  check : checkPath path = .ok ()
  pieces_eq : pieces path = before ++ name :: behind
  behind_eq : ∀ p ∈ behind, p = []
  leads : before.foldlM d.step (d.origin path) = .ok here
  folder : d.HasFolder here
  isName : isNoName name = false

section

variable {path : Text} {before behind : List Text} {here : Location} {name : Text}

theorem Grows.way (h : Grows touched d d') (hway : d.Way path before here name behind) :
    d'.Way path before here name behind :=
  { hway with
    leads := by
      rw [h.origin]
      exact h.foldlM_step hway.leads
    folder := h.folder hway.folder }

theorem Way.behind_isNoName (h : d.Way path before here name behind) :
    ∀ p ∈ behind, isNoName p = true := fun p hp => h.behind_eq p hp ▸ rfl

theorem foldl_goOn_empty {ps : List Text} (h : ∀ p ∈ ps, p = []) (here : Location) :
    ps.foldl goOn here = here := by
  induction ps with
  | nil => rfl
  | cons p ps ih =>
      obtain ⟨rfl, hps⟩ := List.forall_mem_cons.1 h
      exact ih hps

theorem Way.target (h : d.Way path before here name behind) : d.target path = here ++ [name] := by
  rw [Disk.target, h.pieces_eq, List.foldl_append, List.foldl_cons, ← eq_foldl_goOn h.leads,
    goOn_of_isName h.isName, foldl_goOn_empty h.behind_eq]

/-- An entry is located, with empty pieces behind its name only when it is a folder. -/
theorem Way.locate (h : d.Way path before here name behind)
    (hentry : d.HasFolder (here ++ [name]) ∨
      behind = [] ∧ (d.node? (here ++ [name])).isSome = true) :
    d.locate path = .ok (here ++ [name]) := by
  have hsome : (d.node? (here ++ [name])).isSome = true := by
    rcases hentry with ⟨es, hes⟩ | ⟨_, hsome⟩
    · simp [hes]
    · exact hsome
  have hstep : d.step here name = .ok (here ++ [name]) :=
    step_eq_ok_iff.2 ⟨h.folder, (goOn_of_isName h.isName here).symm, fun _ => hsome⟩
  have hbehind : behind.foldlM d.step (here ++ [name]) = .ok (here ++ [name]) := by
    rcases hentry with hfolder | ⟨rfl, _⟩
    · rw [(foldlM_step_ups h.behind_isNoName hfolder).1, foldl_goOn_empty h.behind_eq]
    · rfl
  rw [locate_eq_ok_iff, h.pieces_eq, List.foldlM_append, bind_eq_ok_iff]
  refine ⟨h.check, here, h.leads, ?_⟩
  rw [List.foldlM_cons, bind_eq_ok_iff]
  exact ⟨_, hstep, hbehind⟩

/-- What is located has an entry. -/
theorem Way.exists_node? (h : d.Way path before here name behind) {there : Location}
    (hlocate : d.locate path = .ok there) : (d.node? (here ++ [name])).isSome = true := by
  have hsteps := (locate_eq_ok_iff.1 hlocate).2
  rw [h.pieces_eq, List.foldlM_append, bind_eq_ok_iff] at hsteps
  obtain ⟨last, hleads, hrest⟩ := hsteps
  obtain rfl : here = last := Except.ok.inj (h.leads.symm.trans hleads)
  rw [List.foldlM_cons, bind_eq_ok_iff] at hrest
  obtain ⟨next, hstep, _⟩ := hrest
  exact (step_eq_ok_iff.1 hstep).2.2 h.isName

end

theorem locateFolder_eq_ok_iff {path : Text} {before : List Text} {here : Location} :
    d.locateFolder path before = .ok here ↔
      checkPath path = .ok () ∧ before.foldlM d.step (d.origin path) = .ok here ∧
        d.HasFolder here := by
  rw [locateFolder, bind_eq_ok_iff]
  constructor
  · rintro ⟨_, hcheck, h⟩
    obtain ⟨there, hsteps, hlast⟩ := bind_eq_ok_iff.1 h
    split at hlast
    · rename_i es hes
      cases hlast
      exact ⟨hcheck, hsteps, es, hes⟩
    · cases hlast
  · rintro ⟨hcheck, hsteps, es, hes⟩
    refine ⟨(), hcheck, bind_eq_ok_iff.2 ⟨here, hsteps, ?_⟩⟩
    simp only [hes]

/-- A file is written at the end of the way to it, unless there is a folder. -/
theorem write_eq_ok_iff {path : Text} {c : Bytes} :
    d.write path c = .ok d' ↔ ∃ before here name, d.Way path before here name [] ∧
      ¬d.HasFolder (here ++ [name]) ∧ d' = d.put (here ++ [name]) (.file c) := by
  rw [write, bind_eq_ok_iff]
  constructor
  · rintro ⟨here, hlocate, h⟩
    obtain ⟨hcheck, hsteps, hfolder⟩ := locateFolder_eq_ok_iff.1 hlocate
    obtain ⟨before, name, hpieces⟩ :=
      (List.eq_nil_or_concat' (pieces path)).resolve_left (List.splitOn_ne_nil '/' path)
    rw [hpieces, List.dropLast_concat] at hsteps
    simp only [hpieces, List.getLast?_concat, Option.getD_some] at h
    split at h
    · cases h
    · rename_i hname
      split at h
      · cases h
      · rename_i hfree
        have hway : d.Way path before here name [] :=
          ⟨hcheck, hpieces, by simp, hsteps, hfolder, by simpa using hname⟩
        exact ⟨before, here, name, hway, fun ⟨es, hes⟩ => hfree es hes, (Except.ok.inj h).symm⟩
  · rintro ⟨before, here, name, hway, hfree, rfl⟩
    refine ⟨here, locateFolder_eq_ok_iff.2 ⟨hway.check, ?_, hway.folder⟩, ?_⟩
    · rw [hway.pieces_eq, List.dropLast_concat]
      exact hway.leads
    · rw [hway.pieces_eq, List.getLast?_concat, Option.getD_some]
      simp only [hway.isName, Bool.false_eq_true, if_false]
      split
      · rename_i es hes
        exact absurd ⟨es, hes⟩ hfree
      · rfl

/-- A folder is made at the end of the way to it, where nothing is yet. -/
theorem way_of_makeFolder {path : Text} (h : d.makeFolder path = .ok d') :
    ∃ before here name behind, d.Way path before here name behind ∧
      d.node? (here ++ [name]) = none ∧ d' = d.put (here ++ [name]) .empty := by
  obtain ⟨here, hlocate, h⟩ := bind_eq_ok_iff.1 h
  obtain ⟨hcheck, hsteps, hfolder⟩ := locateFolder_eq_ok_iff.1 hlocate
  have hpieces := List.takeWhile_append_dropWhile (p := List.isEmpty) (l := (pieces path).reverse)
  have hbehind : ∀ p ∈ ((pieces path).reverse.takeWhile List.isEmpty).reverse, p = [] := by
    intro p hp
    have hall := List.all_takeWhile (p := List.isEmpty) (l := (pieces path).reverse)
    exact List.isEmpty_iff.1 (List.all_eq_true.1 hall p (List.mem_reverse.1 hp))
  cases hend : (pieces path).reverse.dropWhile List.isEmpty with
  | nil =>
      rw [hend] at h
      cases h
  | cons name before =>
      rw [hend] at hsteps hpieces
      simp only [hend, List.headD_cons] at h
      split at h
      · cases h
      · rename_i hname
        split at h
        · cases h
        · rename_i hnone
          refine ⟨before.reverse, here, name, _, ⟨hcheck, ?_, hbehind, hsteps, hfolder, ?_⟩, hnone,
            (Except.ok.inj h).symm⟩
          · simpa using (congrArg List.reverse hpieces).symm
          · simpa using hname

/-! ## files -/

theorem put_eq_self {here : Location} {n : Node} (h : d.node? here = some n) :
    d.put here n = d := by
  rw [put, Node.put_eq_self h]

section

variable {path : Text} {c : Bytes}

/-- A file changes nothing but itself. -/
theorem grows_write (h : d.write path c = .ok d') : Grows (· = d.target path) d d' := by
  obtain ⟨before, here, name, hway, hfree, rfl⟩ := write_eq_ok_iff.1 h
  exact (accepts_file hway.folder hfree c).grows.mono fun there hthere =>
    hthere.trans hway.target.symm

theorem write_eq_self_iff : d.write path c = .ok d ↔
    ∃ before here name, d.Way path before here name [] ∧
      d.node? (here ++ [name]) = some (.file c) := by
  rw [write_eq_ok_iff]
  constructor
  · rintro ⟨before, here, name, hway, _, hput⟩
    refine ⟨before, here, name, hway, ?_⟩
    rw [hput]
    exact node?_put_self hway.folder name (.file c)
  · rintro ⟨before, here, name, hway, hfile⟩
    refine ⟨before, here, name, hway, ?_, (put_eq_self hfile).symm⟩
    rintro ⟨es, hes⟩
    rw [hes] at hfile
    cases hfile

/-- Writing a file again changes nothing. -/
theorem write_again (h : d.write path c = .ok d') : d'.write path c = .ok d' := by
  have hgrows := grows_write h
  obtain ⟨before, here, name, hway, _, rfl⟩ := write_eq_ok_iff.1 h
  exact write_eq_self_iff.2
    ⟨before, here, name, hgrows.way hway, node?_put_self hway.folder name (.file c)⟩

/-- What was written is read. -/
theorem read_of_write (h : d.write path c = .ok d) : d.read path = .ok c := by
  obtain ⟨before, here, name, hway, hfile⟩ := write_eq_self_iff.1 h
  rw [read_eq_ok_iff, hway.target]
  exact ⟨hway.locate (.inr ⟨rfl, by simp [hfile]⟩), hfile⟩

theorem Grows.write (h : Grows touched d d') (hwrite : d.write path c = .ok d)
    (hnot : ¬touched (d.target path)) : d'.write path c = .ok d' := by
  obtain ⟨before, here, name, hway, hfile⟩ := write_eq_self_iff.1 hwrite
  obtain ⟨c', hfile', hsame⟩ := h.file hfile
  rw [hsame (hway.target ▸ hnot)] at hfile'
  exact write_eq_self_iff.2 ⟨before, here, name, h.way hway, hfile'⟩

end

/-- Writes some files, one after the other. -/
def writeAll (d : Disk) (files : List (Text × Bytes)) : Except DiskError Disk :=
  files.foldlM (fun d f => d.write f.1 f.2) d

theorem writeAll_cons_of_write {f : Text × Bytes} (h : d.write f.1 f.2 = .ok d')
    (files : List (Text × Bytes)) : d.writeAll (f :: files) = d'.writeAll files := by
  rw [writeAll, List.foldlM_cons, h]
  rfl

theorem writeAll_eq_self {files : List (Text × Bytes)}
    (h : ∀ f ∈ files, d.write f.1 f.2 = .ok d) : d.writeAll files = .ok d := by
  induction files with
  | nil => rfl
  | cons f files ih =>
      obtain ⟨hf, hfiles⟩ := List.forall_mem_cons.1 h
      rw [writeAll_cons_of_write hf, ih hfiles]

/-- Of files at different locations none changes another one. -/
theorem grows_writeAll {files : List (Text × Bytes)} (h : d.writeAll files = .ok d')
    (hnodup : (files.map fun f => d.target f.1).Nodup) :
    Grows (· ∈ files.map fun f => d.target f.1) d d' ∧
      ∀ f ∈ files, d'.write f.1 f.2 = .ok d' := by
  induction files generalizing d with
  | nil =>
      cases h
      exact ⟨.refl _ _, by simp⟩
  | cons f files ih =>
      obtain ⟨next, hf, hrest⟩ := bind_eq_ok_iff.1 h
      have hfirst := grows_write hf
      rw [List.map_cons, List.nodup_cons] at hnodup
      have htargets : (files.map fun f => next.target f.1) = files.map fun f => d.target f.1 :=
        List.map_congr_left fun f _ => hfirst.target f.1
      obtain ⟨hgrows, hagain⟩ := ih hrest (htargets ▸ hnodup.2)
      rw [htargets] at hgrows
      have hnot : ¬next.target f.1 ∈ files.map fun f => d.target f.1 := hfirst.target f.1 ▸ hnodup.1
      refine ⟨?_, List.forall_mem_cons.2 ⟨hgrows.write (write_again hf) hnot, hagain⟩⟩
      exact (hfirst.mono fun here hhere => hhere ▸ List.mem_cons_self).trans
        (hgrows.mono fun here hhere => List.mem_cons_of_mem _ hhere)

/-! ## folders that are made -/

/-- True for the locations where a folder was made. -/
def MadeAt (d d' : Disk) (here : Location) : Prop := d.node? here = none ∧ d'.HasFolder here

theorem Grows.trans_madeAt (h : Grows (d.MadeAt d') d d') (h' : Grows (d'.MadeAt d'') d' d'') :
    Grows (d.MadeAt d'') d d'' := by
  refine (h.mono fun here hmade => ⟨hmade.1, h'.folder hmade.2⟩).trans
    (h'.mono fun here hmade => ⟨?_, hmade.2⟩)
  cases hnode : d.node? here with
  | none => rfl
  | some n =>
      have := h.exists_node? (Option.isSome_iff_exists.2 ⟨n, hnode⟩)
      rw [hmade.1] at this
      cases this

section

variable {path : Text}

theorem grows_makeFolder (h : d.makeFolder path = .ok d') :
    Grows (d.MadeAt d') d d' ∧ d'.isFolder path = true := by
  obtain ⟨before, here, name, behind, hway, hnone, rfl⟩ := way_of_makeFolder h
  have hfolder : (d.put (here ++ [name]) .empty).HasFolder (here ++ [name]) :=
    ⟨[], node?_put_self hway.folder name .empty⟩
  have hgrows := (accepts_empty hway.folder hnone).grows
  have hmade (there : Location) (hthere : there = here ++ [name]) :
      d.MadeAt (d.put (here ++ [name]) .empty) there := by
    rw [hthere]
    exact ⟨hnone, hfolder⟩
  exact ⟨hgrows.mono hmade, isFolder_iff.2
    ⟨here ++ [name], (hgrows.way hway).locate (.inl hfolder), hfolder⟩⟩

theorem grows_ensureFolder (h : d.ensureFolder path = .ok d') :
    Grows (d.MadeAt d') d d' ∧ d'.isFolder path = true := by
  rw [ensureFolder] at h
  split at h
  · rename_i made hmade
    cases h
    exact grows_makeFolder hmade
  · split at h
    · rename_i hfolder
      cases h
      exact ⟨.refl _ _, hfolder⟩
    · cases h

/-- Nothing is made where there is a folder already. -/
theorem ensureFolder_of_isFolder (h : d.isFolder path = true) : d.ensureFolder path = .ok d := by
  rw [ensureFolder]
  cases hmake : d.makeFolder path with
  | ok made =>
      obtain ⟨before, here, name, behind, hway, hnone, _⟩ := way_of_makeFolder hmake
      obtain ⟨there, hlocate, _⟩ := isFolder_iff.1 h
      have hsome := hway.exists_node? hlocate
      rw [hnone] at hsome
      cases hsome
  | error e => simp [h]

/-- Nothing but missing folders is made, also when the folder at the path cannot be made. -/
theorem grows_makeFolders_fst (d : Disk) (path : Text) :
    Grows (d.MadeAt (d.makeFolders path).1) d (d.makeFolders path).1 := by
  fun_induction makeFolders d path with
  | case1 | case3 | case7 => exact .refl _ _
  | case2 path _ made hmade => exact (grows_ensureFolder hmade).1
  | case4 path _ _ parent _ between e hparent ih =>
      rw [hparent] at ih
      exact ih
  | case5 path _ _ parent _ between hparent made hmade ih =>
      rw [hparent] at ih
      exact ih.trans_madeAt (grows_ensureFolder hmade).1
  | case6 path _ _ parent _ between hparent e hmade ih =>
      rw [hparent] at ih
      exact ih

/-- A folder is at the path in the end, and nothing but missing folders was made. -/
theorem grows_makeFolders (h : d.makeFolders path = (d', .ok ())) :
    Grows (d.MadeAt d') d d' ∧ (path ≠ [] → d'.isFolder path = true) := by
  have hgrows := grows_makeFolders_fst d path
  rw [h] at hgrows
  refine ⟨hgrows, fun hne => ?_⟩
  rw [makeFolders.eq_def, if_neg (by simpa using hne)] at h
  split at h
  · rename_i made hmade
    cases h
    exact (grows_ensureFolder hmade).2
  · split at h
    · cases h
    · split at h
      · cases h
      · split at h
        · rename_i made hmade
          cases h
          exact (grows_ensureFolder hmade).2
        · cases h
  · cases h

/-- Folders that were made once are not made again. -/
theorem makeFolders_again (h : d.makeFolders path = (d', .ok ())) (hgrows : Grows touched d' d'') :
    d''.makeFolders path = (d'', .ok ()) := by
  rw [makeFolders.eq_def]
  split
  · rfl
  · rename_i hne
    have hfolder := hgrows.isFolder ((grows_makeFolders h).2 (by simpa using hne))
    rw [ensureFolder_of_isFolder hfolder]

end

end ImportWatch.Disk
