import ImportWatch.Corpus
import ImportWatch.Proofs.ByteOrder
import ImportWatch.Proofs.Growth
import ImportWatch.Proofs.Reproduction

/-!
# ImportWatch.Proofs.SourceWalk

The walk through a folder comes by all of its sources, in order.

* `Node.IsTree` is true for what a file system can hold; `Node.mem_files_iff`
  says that all files of a tree are visited, and `Node.pairwise_files` in which
  order;
* `isSource_iff` says which names are those of sources;
* `Disk.locate_pathTo`: the path of a folder leads, with names behind it, to
  what stands below the folder;
* `Disk.IsWalk` puts this together, and `Survey.IsOfWalk` says what a survey has
  of a walk; `scanFolder_of_isTree` is about scanning.
-/

namespace ImportWatch

open PathText

/-! ## trees of files -/

/-- True for the names that an entry of a folder can have. -/
def IsEntryName (name : Text) : Prop :=
  Disk.isNoName name = false ∧ '/' ∉ name ∧ '\x00' ∉ name

instance (name : Text) : Decidable (IsEntryName name) := inferInstanceAs (Decidable (_ ∧ _))

/-- The first entry of a name is the only one where no name stands twice. -/
theorem lookup_eq_some_iff {α : Type} {es : List (Text × α)} (h : (es.map Prod.fst).Nodup)
    {name : Text} {a : α} : es.lookup name = some a ↔ (name, a) ∈ es := by
  induction es with
  | nil => simp
  | cons e es ih =>
      obtain ⟨k, b⟩ := e
      rw [List.map_cons, List.nodup_cons] at h
      obtain ⟨hk, hes⟩ := h
      rw [lookup_cons_eq_ite, List.mem_cons]
      split
      · rename_i hname
        subst hname
        have hnot : (name, a) ∉ es := fun hmem => hk (List.mem_map.2 ⟨_, hmem, rfl⟩)
        simp [hnot, eq_comm]
      · rename_i hname
        simp [hname, ih hes]

theorem not_lt_trans {s t u : Text} (h : ¬ t < s) (h' : ¬ u < t) : ¬ u < s :=
  List.not_lt.2 (List.le_trans (List.not_lt.1 h) (List.not_lt.1 h'))

theorem lt_of_not_lt_of_ne {s t : Text} (h : ¬ t < s) (hne : s ≠ t) : s < t :=
  (List.le_iff_lt_or_eq.1 (List.not_lt.1 h)).resolve_right hne

/-- Sorting by names of which none stands twice puts each one before larger ones. -/
theorem pairwise_mergeSort_fst {α : Type} {es : List (Text × α)} (h : (es.map Prod.fst).Nodup) :
    (es.mergeSort fun a b => !decide (b.1 < a.1)).Pairwise fun a b => a.1 < b.1 := by
  have hle (a b : Text × α) : (!decide (b.1 < a.1)) = true ↔ ¬ b.1 < a.1 := by
    rw [Bool.not_eq_true', decide_eq_false_iff_not]
  have hsorted : (es.mergeSort fun a b => !decide (b.1 < a.1)).Pairwise fun a b =>
      (!decide (b.1 < a.1)) = true := by
    refine List.pairwise_mergeSort (fun a b c hab hbc => ?_) (fun a b => ?_) es
    · exact (hle a c).2 (not_lt_trans ((hle a b).1 hab) ((hle b c).1 hbc))
    · rw [Bool.or_eq_true, hle, hle]
      exact Decidable.not_and_iff_not_or_not.1 fun ⟨hba, hab⟩ => List.lt_asymm hba hab
  have hne : (es.mergeSort fun a b => !decide (b.1 < a.1)).Pairwise fun a b => a.1 ≠ b.1 :=
    List.pairwise_map.1 (((List.mergeSort_perm es _).map Prod.fst).nodup_iff.2 h)
  exact (hsorted.and hne).imp fun hboth => lt_of_not_lt_of_ne ((hle _ _).1 hboth.1) hboth.2

namespace Node

/-- True for the nodes in whose folders no name stands twice, and all names are those of entries. -/
inductive IsTree : Node → Prop where
  | file (c : Bytes) : IsTree (.file c)
  | folder {es : List (Text × Node)} (nodup : (es.map Prod.fst).Nodup)
      (names : ∀ e ∈ es, IsEntryName e.1) (nodes : ∀ e ∈ es, IsTree e.2) : IsTree (.folder es)

variable {n m : Node} {l : Location} {c : Bytes}

/-- What is found in a tree is a tree, and the names on the way are those of entries. -/
theorem IsTree.of_find? (h : n.IsTree) (hfind : n.find? l = some m) :
    m.IsTree ∧ ∀ name ∈ l, IsEntryName name := by
  induction l generalizing n with
  | nil =>
      cases hfind
      exact ⟨h, by simp⟩
  | cons name l ih =>
      cases h with
      | file c => cases hfind
      | folder nodup names nodes =>
          obtain ⟨k, hlookup, hk⟩ := Option.bind_eq_some_iff.1 hfind
          have hmem := (lookup_eq_some_iff nodup).1 hlookup
          obtain ⟨htree, hnames⟩ := ih (nodes _ hmem) hk
          exact ⟨htree, List.forall_mem_cons.2 ⟨names _ hmem, hnames⟩⟩

theorem mem_files_folder {es : List (Text × Node)} :
    (l, c) ∈ (folder es).files ↔
      ∃ name m rest, (name, m) ∈ es ∧ (rest, c) ∈ m.files ∧ l = name :: rest := by
  rw [files, filesByEntry_eq_map, List.mem_flatMap]
  constructor
  · rintro ⟨e, he, hf⟩
    obtain ⟨⟨name, m⟩, hmem, rfl⟩ := List.mem_map.1 (List.mem_mergeSort.1 he)
    obtain ⟨⟨rest, c'⟩, hrest, heq⟩ := List.mem_map.1 hf
    cases heq
    exact ⟨name, m, rest, hmem, hrest, rfl⟩
  · rintro ⟨name, m, rest, hmem, hrest, rfl⟩
    exact ⟨(name, m.files), List.mem_mergeSort.2 (List.mem_map.2 ⟨_, hmem, rfl⟩),
      List.mem_map.2 ⟨_, hrest, rfl⟩⟩

/-- All files of a tree are visited, and nothing else is. -/
theorem mem_files_iff (h : n.IsTree) : (l, c) ∈ n.files ↔ n.find? l = some (.file c) := by
  induction h generalizing l with
  | file c' =>
      cases l with
      | nil => simp [files, find?, eq_comm]
      | cons name l => simp [files, find?]
  | folder nodup names nodes ih =>
      rw [mem_files_folder]
      cases l with
      | nil => simp [find?]
      | cons name l =>
          rw [find?, Option.bind_eq_some_iff]
          constructor
          · rintro ⟨_, m, _, hmem, hfile, heq⟩
            cases heq
            exact ⟨m, (lookup_eq_some_iff nodup).2 hmem, (ih _ hmem).1 hfile⟩
          · rintro ⟨m, hlookup, hfile⟩
            have hmem := (lookup_eq_some_iff nodup).1 hlookup
            exact ⟨name, m, l, hmem, (ih _ hmem).2 hfile, rfl⟩

/-- The files of a tree are visited in the order of the first names in which their locations
differ. -/
theorem pairwise_files (h : n.IsTree) : n.files.Pairwise fun f g => f.1 < g.1 := by
  induction h with
  | file c => exact List.pairwise_singleton _ _
  | @folder es nodup names nodes ih =>
      have hnames : (filesByEntry es).map Prod.fst = es.map Prod.fst := by
        simp [filesByEntry_eq_map]
      rw [files, List.pairwise_flatMap]
      constructor
      · intro e he
        rw [List.mem_mergeSort, filesByEntry_eq_map] at he
        obtain ⟨e', he', rfl⟩ := List.mem_map.1 he
        exact List.pairwise_map.2 ((ih e' he').imp fun hlt =>
          List.cons_lt_cons_iff.2 (.inr ⟨rfl, hlt⟩))
      · refine (pairwise_mergeSort_fst (hnames ▸ nodup)).imp fun hlt f hf g hg => ?_
        obtain ⟨f', _, rfl⟩ := List.mem_map.1 hf
        obtain ⟨g', _, rfl⟩ := List.mem_map.1 hg
        exact List.cons_lt_cons_iff.2 (.inl hlt)

end Node

/-! ## names of sources -/

/-- True for a stem, a dot and one of the given extensions. -/
def IsSourceName (extensions : List Text) (name : Text) : Prop :=
  ∃ stem ext, name = stem ++ '.' :: ext ∧ stem ≠ [] ∧ '.' ∉ ext ∧ ext ∈ extensions

theorem extension?_eq_some_iff {name ext : Text} :
    extension? name = some ext ↔ ∃ stem, name = stem ++ '.' :: ext ∧ stem ≠ [] ∧ '.' ∉ ext := by
  have hsplit := List.takeWhile_append_dropWhile (p := (· != '.')) (l := name.reverse)
  constructor
  · intro h
    rw [extension?] at h
    split at h
    · rename_i d s rest hdrop
      cases h
      have hd : d = '.' := by
        have hhead := List.head?_dropWhile_not (· != '.') name.reverse
        rw [hdrop] at hhead
        simpa using hhead
      refine ⟨(s :: rest).reverse, ?_, by simp, fun hmem => ?_⟩
      · rw [hdrop, hd] at hsplit
        simpa using (congrArg List.reverse hsplit).symm
      · simpa using List.mem_takeWhile_imp (List.mem_reverse.1 hmem)
    · cases h
  · rintro ⟨stem, rfl, hstem, hext⟩
    have hall : ∀ c ∈ ext.reverse, (c != '.') = true := by
      intro c hc
      have hne : c ≠ '.' := fun heq => hext (heq ▸ List.mem_reverse.1 hc)
      simpa using hne
    have hrev : (stem ++ '.' :: ext).reverse = ext.reverse ++ '.' :: stem.reverse := by simp
    obtain ⟨s, rest, hs⟩ := List.exists_cons_of_ne_nil (mt List.reverse_eq_nil_iff.1 hstem)
    rw [extension?, hrev, List.dropWhile_append_of_pos hall, List.takeWhile_append_of_pos hall, hs]
    simp

theorem isSource_iff {extensions : List Text} {l : Location} :
    isSource extensions l = true ↔
      ∃ before name, l = before ++ [name] ∧ IsSourceName extensions name := by
  rcases List.eq_nil_or_concat' l with rfl | ⟨before, name, rfl⟩
  · simp [isSource]
  · rw [isSource, List.getLast?_concat, Option.bind_some, Option.any_eq_true]
    simp only [extension?_eq_some_iff, List.contains_eq_mem, decide_eq_true_eq]
    constructor
    · rintro ⟨ext, ⟨stem, hname, hstem, hext⟩, hmem⟩
      exact ⟨before, name, rfl, stem, ext, hname, hstem, hext, hmem⟩
    · rintro ⟨before', name', heq, stem, ext, hname, hstem, hext, hmem⟩
      obtain ⟨-, rfl⟩ := List.append_singleton_inj.1 heq
      exact ⟨ext, ⟨stem, hname, hstem, hext⟩, hmem⟩

/-! ## paths of sources -/

/-- The path that continues the path of a folder by some names. -/
def pathTo (root : Text) (l : Location) : Text := l.foldl join root

theorem isAbsolute_of_slash_notMem {name : Text} (h : '/' ∉ name) : isAbsolute name = false := by
  cases name with
  | nil => rfl
  | cons c s =>
      have hc : c ≠ '/' := fun hc => h (hc ▸ List.mem_cons_self)
      simpa [isAbsolute] using hc

/-- A slash stands before a name that continues a path, which may have ended with it. -/
theorem exists_join_eq {root name : Text} (hne : root ≠ []) (hslash : '/' ∉ name) :
    ∃ lead, join root name = lead ++ '/' :: name ∧ (root = lead ∨ root = lead ++ ['/']) := by
  obtain ⟨lead, c, rfl⟩ := (List.eq_nil_or_concat' root).resolve_left hne
  rw [join, isAbsolute_of_slash_notMem hslash]
  by_cases hc : c = '/'
  · exact ⟨lead, by simp [hc], .inr (by rw [hc])⟩
  · exact ⟨lead ++ [c], by simp [hc], .inl rfl⟩

namespace Disk

variable {d : Disk} {root : Text} {here : Location}

theorem folder?_eq_some_iff {es : List (Text × Node)} :
    d.folder? root = some es ↔
      ∃ here, d.locate root = .ok here ∧ d.node? here = some (.folder es) := by
  rw [folder?]
  cases d.locate root with
  | error e => simp
  | ok here =>
      cases hnode : d.node? here with
      | none => simp [hnode]
      | some n => cases n <;> simp [hnode]

theorem checkPath_eq_ok_iff {path : Text} :
    checkPath path = .ok () ↔ '\x00' ∉ path ∧ path ≠ [] := by
  rw [checkPath]
  by_cases hnul : '\x00' ∈ path
  · simp [hnul]
  · cases path <;> simp_all

/-- A name behind the path of a folder leads to the entry of that name. -/
theorem locate_join (hroot : d.locate root = .ok here) {name : Text} (hname : IsEntryName name)
    {n : Node} (hnode : d.node? (here ++ [name]) = some n) :
    d.locate (join root name) = .ok (here ++ [name]) := by
  obtain ⟨hname, hslash, hnul⟩ := hname
  obtain ⟨hcheck, hsteps⟩ := locate_eq_ok_iff.1 hroot
  have hstep : d.step here name = .ok (here ++ [name]) :=
    step_eq_ok_iff.2 ⟨hasFolder_of_node? (List.cons_ne_nil name []) hnode,
      (goOn_of_isName hname here).symm, fun _ => by simp [hnode]⟩
  have hne : root ≠ [] := by
    rintro rfl
    cases hcheck
  obtain ⟨lead, hjoin, hlead⟩ := exists_join_eq hne hslash
  have horigin : d.origin (join root name) = d.origin root := by
    have habsolute : isAbsolute (lead ++ '/' :: name) = isAbsolute root := by
      rcases hlead with rfl | rfl
      · cases root with
        | nil => exact absurd rfl hne
        | cons c s => rfl
      · cases lead <;> rfl
    rw [hjoin, origin, origin, habsolute]
  have hway : (pieces lead).foldlM d.step (d.origin root) = .ok here := by
    rcases hlead with rfl | rfl
    · exact hsteps
    · -- the piece behind the slash is empty
      rw [pieces, List.splitOn_append_cons_self, List.splitOn_nil, List.foldlM_append,
        bind_eq_ok_iff] at hsteps
      obtain ⟨there, hthere, hlast⟩ := hsteps
      rw [eq_foldl_goOn hlast]
      exact hthere
  refine locate_eq_ok_iff.2 ⟨?_, ?_⟩
  · rw [checkPath_eq_ok_iff] at hcheck ⊢
    rw [hjoin]
    rcases hlead with rfl | rfl <;> simp_all
  · rw [horigin, hjoin, pieces, List.splitOn_append_cons_self, List.splitOn_eq_singleton hslash,
      List.foldlM_append, bind_eq_ok_iff]
    exact ⟨here, hway, bind_eq_ok_iff.2 ⟨_, hstep, rfl⟩⟩

/-- Names behind the path of a folder lead to what stands below it. -/
theorem locate_pathTo (hroot : d.locate root = .ok here) {l : Location}
    (hnames : ∀ name ∈ l, IsEntryName name) {n : Node} (hnode : d.node? (here ++ l) = some n) :
    d.locate (pathTo root l) = .ok (here ++ l) := by
  induction l generalizing root here with
  | nil => simpa [pathTo] using hroot
  | cons name l ih =>
      obtain ⟨hname, hnames⟩ := List.forall_mem_cons.1 hnames
      have hrest : d.node? (here ++ [name] ++ l) = some n := by
        rwa [List.append_assoc, List.singleton_append]
      obtain ⟨m, hm⟩ : ∃ m, d.node? (here ++ [name]) = some m := by
        rw [node?, Node.find?_append] at hrest
        exact (Option.bind_eq_some_iff.1 hrest).imp fun _ => And.left
      simpa [pathTo] using ih (locate_join hroot hname hm) hnames hrest

/-- What a walk through the folder at a path comes by: all sources below the folder, each once,
with their locations and contents. -/
structure IsWalk (d : Disk) (extensions : List Text) (root : Text) (es : List (Text × Node))
    (walk : List (Location × Bytes)) : Prop where
  mem_iff : ∀ l c, (l, c) ∈ walk ↔ (Node.folder es).find? l = some (.file c) ∧
    ∃ before name, l = before ++ [name] ∧ IsSourceName extensions name
  /-- Locations are compared name by name, and names byte by byte. -/
  ascending : walk.Pairwise fun f g => f.1.map Utf8.encode < g.1.map Utf8.encode
  nodup : (walk.map fun f => pathTo root f.1).Nodup
  read : ∀ f ∈ walk, d.read (pathTo root f.1) = .ok f.2

theorem isWalk_filter_files (h : d.root.IsTree) {es : List (Text × Node)}
    (hfolder : d.folder? root = some es) (extensions : List Text) :
    d.IsWalk extensions root es
      ((Node.folder es).files.filter fun f => isSource extensions f.1) := by
  obtain ⟨here, hlocate, hnode⟩ := folder?_eq_some_iff.1 hfolder
  obtain ⟨htree, -⟩ := h.of_find? hnode
  have hwalk : ∀ f ∈ (Node.folder es).files,
      d.locate (pathTo root f.1) = .ok (here ++ f.1) ∧
        d.node? (here ++ f.1) = some (.file f.2) := by
    intro f hf
    have hfind := (Node.mem_files_iff htree).1 hf
    have hfile : d.node? (here ++ f.1) = some (.file f.2) := by
      rw [node?, Node.find?_append, show d.root.find? here = _ from hnode]
      exact hfind
    exact ⟨locate_pathTo hlocate (htree.of_find? hfind).2 hfile, hfile⟩
  have hascending := (Node.pairwise_files htree).filter fun f => isSource extensions f.1
  constructor
  · intro l c
    rw [List.mem_filter, Node.mem_files_iff htree, isSource_iff]
  · exact hascending.imp fun hlt => List.map_lt (fun _ _ => Utf8.encode_lt_encode) hlt
  · -- paths that are the same would lead to the same location
    refine List.pairwise_map.2 (hascending.imp_of_mem fun {f g} hf hg hlt heq => ?_)
    have hf := (hwalk f (List.mem_filter.1 hf).1).1
    have hg := (hwalk g (List.mem_filter.1 hg).1).1
    rw [heq, hg] at hf
    rw [List.append_cancel_left (Except.ok.inj hf)] at hlt
    exact List.lt_irrefl _ hlt
  · intro f hf
    obtain ⟨hpath, hfile⟩ := hwalk f (List.mem_filter.1 hf).1
    rw [read, hpath]
    simp only [hfile]

/-- Names are compared one by one: `a/x.rs` comes before `a.rs`, which is the smaller text. -/
example : ["a".toList, "x.rs".toList].map Utf8.encode < ["a.rs".toList].map Utf8.encode := by decide

end Disk

/-! ## surveys of walks -/

namespace Survey

theorem takeAll_filesRead (v : Survey) (cs : List Intake) :
    (v.takeAll cs).filesRead = v.filesRead + cs.length := by
  induction cs generalizing v with
  | nil => rfl
  | cons c cs ih =>
      rw [takeAll, List.foldl_cons, ← takeAll, ih, takeIn, addSource_eq_extend, List.length_cons]
      exact Nat.add_right_comm _ _ _

/-- A file as it is taken in when a walk comes by it. -/
def intake (watch : Watchlist) (root : Text) (f : Location × Bytes) : Intake :=
  ⟨watch, pathTo root f.1, Utf8.decodeLossy f.2⟩

/-- What a survey has of the files of a walk. -/
structure IsOfWalk (watch : Watchlist) (package root : Text) (walk : List (Location × Bytes))
    (v : Survey) : Prop where
  filesRead : v.filesRead = walk.length
  /-- The findings are in the order of the files. -/
  findings : v.findings = walk.flatMap fun f => newFindings package (intake watch root f)
  file : ∀ f ∈ walk, ∀ g ∈ newFindings package (intake watch root f), g.file = pathTo root f.1

theorem isOfWalk_ofFiles (watch : Watchlist) (package root : Text)
    (walk : List (Location × Bytes)) :
    (ofFiles watch package
      (walk.map fun f => (pathTo root f.1, Utf8.decodeLossy f.2))).IsOfWalk
        watch package root walk := by
  have hfiles : ofFiles watch package
      (walk.map fun f => (pathTo root f.1, Utf8.decodeLossy f.2)) =
        (start package).takeAll (walk.map (intake watch root)) := by
    rw [ofFiles, addFiles, takeAll, List.foldl_map, List.foldl_map]
    rfl
  have h := isReproducible_takeAll package (walk.map (intake watch root))
  rw [hfiles]
  constructor
  · simp [takeAll_filesRead, start]
  · rw [h.findings_eq, List.flatMap_map]
  · intro f hf g hg
    exact (h.findings _ (List.mem_map_of_mem hf) g hg).2.1.file

end Survey

/-- **The source walk**: without the folder nothing is scanned; a folder whose path is a dash is
not looked into; in any other one all sources are found, in the order of their locations, and the
findings are in the order of the sources. -/
theorem scanFolder_of_isTree {d : Disk} (h : d.root.IsTree) (scope : Scope) (package root : Text) :
    (d.folder? root = none → d.sources? scope.extensions root = none ∧
      scanFolder d scope package root = .error ⟨package, root⟩) ∧
    ∀ es, d.folder? root = some es →
      (isDash root = true → d.sources? scope.extensions root = some [] ∧
        scanFolder d scope package root = .ok (.start package)) ∧
      (isDash root = false → ∃ walk, d.IsWalk scope.extensions root es walk ∧
        d.sources? scope.extensions root = some (walk.map fun f => (pathTo root f.1, f.2)) ∧
        ∃ v, scanFolder d scope package root = .ok v ∧
          v.IsOfWalk scope.watch package root walk) := by
  refine ⟨fun hnone => ?_, fun es hfolder => ⟨fun hdash => ?_, fun hdash => ?_⟩⟩
  · have hsources : d.sources? scope.extensions root = none := by rw [Disk.sources?, hnone]; rfl
    exact ⟨hsources, by rw [scanFolder, hsources]⟩
  · have hsources : d.sources? scope.extensions root = some [] := by
      simp [Disk.sources?, hfolder, hdash]
    refine ⟨hsources, ?_⟩
    rw [scanFolder, hsources]
    rfl
  · have hsources : d.sources? scope.extensions root =
        some (((Node.folder es).files.filter fun f => isSource scope.extensions f.1).map
          fun f => (pathTo root f.1, f.2)) := by
      simp [Disk.sources?, hfolder, hdash, pathTo]
    refine ⟨_, Disk.isWalk_filter_files h hfolder scope.extensions, hsources, _, ?_,
      Survey.isOfWalk_ofFiles scope.watch package root _⟩
    rw [scanFolder, hsources]
    simp only [List.map_map]
    rfl

/-- A folder that holds a folder with one source. -/
def nestedSource (folder name : Text) (content : Bytes) : Disk :=
  ⟨.folder [(folder, .folder [(name, .file content)])], []⟩

theorem isTree_nestedSource {folder name : Text} (hfolder : IsEntryName folder)
    (hname : IsEntryName name) (content : Bytes) :
    (nestedSource folder name content).root.IsTree := by
  have hinner : (Node.folder [(name, .file content)]).IsTree :=
    .folder (by simp) (by simpa using hname) (by simpa using .file content)
  exact .folder (by simp) (by simpa using hfolder) (by simpa using hinner)

theorem scanFolder_of_isTree_nested :
    let d := nestedSource "src".toList "z.rs".toList (Utf8.encode "use std::os;".toList)
    let es := [("z.rs".toList, Node.file (Utf8.encode "use std::os;".toList))]
    let scope : Scope := ⟨.ofTexts ["std::os".toList], ["rs".toList]⟩
    d.root.IsTree ∧ d.folder? "src".toList = some es ∧ isDash "src".toList = false ∧
      ∃ walk, d.IsWalk scope.extensions "src".toList es walk ∧
        d.sources? scope.extensions "src".toList =
          some (walk.map fun f => (pathTo "src".toList f.1, f.2)) ∧
        ∃ v, scanFolder d scope ['g'] "src".toList = .ok v ∧
          v.IsOfWalk scope.watch ['g'] "src".toList walk := by
  intro d es scope
  have htree : d.root.IsTree := isTree_nestedSource (by decide) (by decide) _
  have hfolder : d.folder? "src".toList = some es := rfl
  have hdash : isDash "src".toList = false := by decide
  exact ⟨htree, hfolder, hdash,
    ((scanFolder_of_isTree htree scope ['g'] "src".toList).2 es hfolder).2 hdash⟩

/-- The source in a folder that is named like the standard input is not found. -/
theorem sources_dash_eq_nil :
    let content := Utf8.encode "use std::os;".toList
    let d := nestedSource "-".toList "z.rs".toList content
    d.root.IsTree ∧ ∃ es, d.folder? "-".toList = some es ∧
      (Node.folder es).find? ["z.rs".toList] = some (.file content) ∧
      IsSourceName ["rs".toList] "z.rs".toList ∧ d.sources? ["rs".toList] "-".toList = some [] := by
  intro content d
  have htree : d.root.IsTree := isTree_nestedSource (by decide) (by decide) content
  have hname : IsSourceName ["rs".toList] "z.rs".toList :=
    ⟨['z'], "rs".toList, rfl, by decide, by decide, by decide⟩
  exact ⟨htree, _, rfl, rfl, hname, rfl⟩

end ImportWatch
