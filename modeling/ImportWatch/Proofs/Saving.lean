import ImportWatch.Proofs.Decoding
import ImportWatch.Proofs.Growth
import ImportWatch.Proofs.Summaries
import ImportWatch.Report.Save
import Mathlib.Data.List.Nodup

/-!
# ImportWatch.Proofs.Saving

What saving reports leaves behind, on success and on every failure.

* `Disk.file?` looks for a file at a location; `Disk.file?_makeFolders` and
  `Disk.file?_write` say which files are different after a change, and
  `Disk.file?_writeAll` after a run of them;
* `Report.reports` are the reports of an outcome with their paths, and no two of
  them are the same file (`Report.nodup_targets`);
* `Report.Saved.Ended` says how far saving has come: reports are completed in
  order up to the first one that cannot be written;
* `Report.Saved.Leaves` says what is left then: the completed reports are on the
  disk, every other file is as it was, and the outcome has the losses of the
  table if the table was completed;
* `Disk.json?` reads a file as a JSON value;
* `Report.save_leaves` is about saving.
-/

namespace ImportWatch

open PathText

/-! ## paths of reports -/

theorem isAbsolute_append {suffix : Text} (h : '/' ∉ suffix) (path : Text) :
    isAbsolute (path ++ suffix) = isAbsolute path := by
  cases path with
  | nil =>
      cases suffix with
      | nil => rfl
      | cons c suffix =>
          have hc : c ≠ '/' := fun hc => h (hc ▸ List.mem_cons_self)
          simp [isAbsolute, hc]
  | cons c path => rfl

theorem join_append {suffix : Text} (h : '/' ∉ suffix) (left right : Text) :
    join left (right ++ suffix) = join left right ++ suffix := by
  rw [join, join, isAbsolute_append h]
  split
  · rfl
  · split <;> simp

/-- What is written behind a path belongs to its last piece. -/
theorem exists_pieces_append (path : Text) : ∃ before last, ∀ suffix : Text, '/' ∉ suffix →
    pieces (path ++ suffix) = before ++ [last ++ suffix] := by
  induction path with
  | nil => exact ⟨[], [], fun suffix h => List.splitOn_eq_singleton h⟩
  | cons c path ih =>
      obtain ⟨before, last, ih⟩ := ih
      by_cases hc : c = '/'
      · refine ⟨[] :: before, last, fun suffix h => ?_⟩
        rw [hc, List.cons_append, pieces_root, ih suffix h, List.cons_append]
      · have hcons (s : Text) : pieces (c :: s) = (pieces s).modifyHead (c :: ·) := by
          rw [pieces, List.splitOn_cons_eq_if_modifyHead, if_neg (by simpa using hc), pieces]
        cases before with
        | nil =>
            exact ⟨[], c :: last, fun suffix h => by
              rw [List.cons_append, hcons, ih suffix h]; rfl⟩
        | cons p before =>
            exact ⟨(c :: p) :: before, last, fun suffix h => by
              rw [List.cons_append, hcons, ih suffix h]; rfl⟩

/-- Paths that differ in what is written behind them lead to different entries of one folder. -/
theorem Disk.exists_target_append (d : Disk) (path : Text) : ∃ here name, ∀ suffix : Text,
    '/' ∉ suffix → 2 < suffix.length → d.target (path ++ suffix) = here ++ [name ++ suffix] := by
  obtain ⟨before, last, hpieces⟩ := exists_pieces_append path
  refine ⟨before.foldl goOn (d.origin path), last, fun suffix hslash hlong => ?_⟩
  have horigin : d.origin (path ++ suffix) = d.origin path := by
    rw [origin, origin, isAbsolute_append hslash]
  have hname : isNoName (last ++ suffix) = false := by
    have hlength : 2 < (last ++ suffix).length := by
      rw [List.length_append]
      omega
    have hne {p : Text} (hp : p.length ≤ 2) : last ++ suffix ≠ p := by
      rintro rfl
      omega
    simp [isNoName, isInert, hne (p := []) (by decide), hne (p := ['.']) (by decide),
      hne (p := above) (by decide)]
  rw [Disk.target, hpieces suffix hslash, horigin, List.foldl_append, List.foldl_cons,
    List.foldl_nil, goOn_of_isName hname]

namespace Disk

variable {d d' : Disk}

/-! ## files -/

/-- The contents of the file at a location, if there is one. -/
def file? (d : Disk) (here : Location) : Option Bytes :=
  match d.node? here with
  | some (.file c) => some c
  | _ => none

/-- The JSON value in the file at a path, if the file can be read and holds one. -/
def json? (d : Disk) (path : Text) : Option Json :=
  ((d.read path).toOption.bind Utf8.decode?).bind Json.read?

theorem file?_eq_some_iff {here : Location} {c : Bytes} :
    d.file? here = some c ↔ d.node? here = some (.file c) := by
  rw [file?]
  cases d.node? here with
  | none => simp
  | some n => cases n <;> simp

theorem HasFolder.file?_eq_none {here : Location} (h : d.HasFolder here) : d.file? here = none := by
  obtain ⟨es, hes⟩ := h
  rw [file?, hes]

theorem file?_congr {here : Location} (h : d'.node? here = d.node? here) :
    d'.file? here = d.file? here := by
  rw [file?, file?, h]

/-- Folders that were made are no files, and no files were there. -/
theorem Grows.file?_of_madeAt (h : Grows (d.MadeAt d') d d') (here : Location) :
    d'.file? here = d.file? here := by
  by_cases hmade : ∃ there, d.MadeAt d' there ∧ here <+: there
  · obtain ⟨there, hthere, hpre⟩ := hmade
    have hfolder : d'.HasFolder here := hthere.2.of_isPrefix hpre
    rw [hfolder.file?_eq_none, eq_comm, Option.eq_none_iff_forall_not_mem]
    intro c hc
    obtain ⟨c', hfile, _⟩ := h.file (file?_eq_some_iff.1 hc)
    have hsome := hfolder.file?_eq_none.symm.trans (file?_eq_some_iff.2 hfile)
    cases hsome
  · exact file?_congr (h.unchanged fun there hthere hpre => hmade ⟨there, hthere, hpre⟩)

/-- Making folders changes no file, whether it succeeds or not. -/
theorem file?_makeFolders (d : Disk) (path : Text) (here : Location) :
    (d.makeFolders path).1.file? here = d.file? here :=
  (grows_makeFolders_fst d path).file?_of_madeAt here

/-- Writing changes the file that is written and no other one. -/
theorem file?_write {path : Text} {c : Bytes} (h : d.write path c = .ok d') (here : Location) :
    d'.file? here = if here = d.target path then some c else d.file? here := by
  have hgrows := grows_write h
  obtain ⟨before, folder, name, hway, _, rfl⟩ := write_eq_ok_iff.1 h
  rw [hway.target] at hgrows ⊢
  split
  · rename_i hhere
    rw [hhere, file?_eq_some_iff]
    exact node?_put_self hway.folder name (.file c)
  · rename_i hhere
    by_cases hpre : here <+: folder ++ [name]
    · -- what is above the file is a folder before and after
      have hfolder : d.HasFolder here :=
        hway.folder.of_isPrefix ((List.prefix_concat_iff.1 hpre).resolve_left hhere)
      rw [hfolder.file?_eq_none, (hgrows.folder hfolder).file?_eq_none]
    · exact file?_congr (hgrows.unchanged fun there hthere => hthere ▸ hpre)

/-- Of a run of writes nothing is different but the files that are written. -/
theorem file?_writeAll {files : List (Text × Bytes)} (h : d.writeAll files = .ok d')
    {here : Location} (hnot : ∀ f ∈ files, here ≠ d.target f.1) : d'.file? here = d.file? here := by
  induction files generalizing d with
  | nil =>
      cases h
      rfl
  | cons f files ih =>
      obtain ⟨next, hf, hrest⟩ := bind_eq_ok_iff.1 h
      obtain ⟨hfirst, hnot⟩ := List.forall_mem_cons.1 hnot
      have htarget (path : Text) : next.target path = d.target path := (grows_write hf).target path
      rw [ih hrest fun g hg => htarget g.1 ▸ hnot g hg, file?_write hf, if_neg hfirst]

end Disk

namespace Report

variable {d made : Disk} {o : Outcome} {folder stem : Text} {json : Bool}
  {completed : List (Text × Bytes)}

/-- The reports of an outcome, each with its path. -/
def reports (o : Outcome) (folder stem : Text) (json : Bool) : List (Text × Bytes) :=
  [(tablePath folder stem, Utf8.encode (table o.findings)),
      (summaryPath folder stem, Utf8.encode (summary (o.addNotices (tableLosses o.findings))))] ++
    if json then
      [(jsonPath folder stem, Utf8.encode (jsonSummary (o.addNotices (tableLosses o.findings))))]
    else []

/-- No two reports are the same file. -/
theorem nodup_targets (d : Disk) (o : Outcome) (folder stem : Text) (json : Bool) :
    ((reports o folder stem json).map fun f => d.target f.1).Nodup := by
  obtain ⟨here, name, htarget⟩ := d.exists_target_append (join folder stem)
  have hpath {suffix : Text} (hslash : '/' ∉ suffix) (hlong : 2 < suffix.length) :
      d.target (join folder (stem ++ suffix)) = here ++ [name ++ suffix] := by
    rw [join_append hslash, htarget suffix hslash hlong]
  have htable : d.target (tablePath folder stem) = _ := hpath (by decide) (by decide)
  have hsummary : d.target (summaryPath folder stem) = _ := hpath (by decide) (by decide)
  have hjson : d.target (jsonPath folder stem) = _ := hpath (by decide) (by decide)
  cases json <;> simp [reports, htable, hsummary, hjson]

theorem writeReport_of_write {path text : Text} {after : Disk}
    (h : d.write path (Utf8.encode text) = .ok after) (next : Disk → Saved) :
    writeReport d o path text next = next after := by
  rw [writeReport, h]

/-! ## how saving ends -/

/-- How saving has ended, with the reports that were completed by then. -/
inductive Saved.Ended (saved : Saved) (d : Disk) (o : Outcome) (folder stem : Text) (json : Bool) :
    List (Text × Bytes) → Prop where
  /-- The folder could not be made. -/
  | noFolder (e : DiskError) (refused : (d.makeFolders folder).2 = .error e)
      (result : saved.result = .error ⟨folder, e⟩) : Ended saved d o folder stem json []
  /-- A report could not be written. -/
  | noReport (completed : List (Text × Bytes)) (f : Text × Bytes) (later : List (Text × Bytes))
      (e : DiskError) (made : (d.makeFolders folder).2 = .ok ())
      (inOrder : reports o folder stem json = completed ++ f :: later)
      (refused : saved.disk.write f.1 f.2 = .error e)
      (result : saved.result = .error ⟨f.1, e⟩) : Ended saved d o folder stem json completed
  /-- All reports were written. -/
  | done (made : (d.makeFolders folder).2 = .ok ())
      (result : saved.result = .ok ((reports o folder stem json).map Prod.fst)) :
      Ended saved d o folder stem json (reports o folder stem json)

/-- The outcome after some of its reports were completed, the table being the first of them. -/
def outcomeAfter (o : Outcome) (completed : List (Text × Bytes)) : Outcome :=
  o.addNotices (if completed.isEmpty then [] else tableLosses o.findings)

theorem outcomeAfter_nil (o : Outcome) : outcomeAfter o [] = o := by
  simp [outcomeAfter, Outcome.addNotices]

/-- A report is refused and ends the saving, or it is written and the saving goes on. -/
theorem writeReport_cases (d : Disk) (o : Outcome) (path text : Text) (next : Disk → Saved) :
    (∃ e, d.write path (Utf8.encode text) = .error e ∧
        writeReport d o path text next = ⟨d, o, .error ⟨path, e⟩⟩) ∨
      ∃ after, d.write path (Utf8.encode text) = .ok after ∧
        writeReport d o path text next = next after := by
  cases hwrite : d.write path (Utf8.encode text) with
  | error e => exact .inl ⟨e, rfl, by rw [writeReport, hwrite]⟩
  | ok after => exact .inr ⟨after, rfl, writeReport_of_write hwrite next⟩

/-- Saving makes the folder and writes the reports in order, up to the first that is refused. -/
theorem exists_ended (d : Disk) (o : Outcome) (folder stem : Text) (json : Bool) :
    ∃ completed, (save d o folder stem json).Ended d o folder stem json completed ∧
      (d.makeFolders folder).1.writeAll completed = .ok (save d o folder stem json).disk ∧
      (save d o folder stem json).outcome = outcomeAfter o completed := by
  obtain ⟨made, result, hmake⟩ : ∃ made result, d.makeFolders folder = (made, result) :=
    ⟨_, _, rfl⟩
  have hfst : (d.makeFolders folder).1 = made := congrArg Prod.fst hmake
  have hsnd : (d.makeFolders folder).2 = result := congrArg Prod.snd hmake
  rw [save, hmake]
  cases result with
  | error e => exact ⟨[], .noFolder e hsnd rfl, rfl, (outcomeAfter_nil o).symm⟩
  | ok u =>
  dsimp only
  obtain ⟨e, htable, hsave⟩ | ⟨tabled, htable, hsave⟩ := writeReport_cases made o
    (tablePath folder stem) (table o.findings) _
  · rw [hsave]
    exact ⟨[], .noReport [] _ _ e hsnd rfl htable rfl, rfl, (outcomeAfter_nil o).symm⟩
  rw [hsave]
  obtain ⟨e, hsummary, hsave⟩ | ⟨summed, hsummary, hsave⟩ := writeReport_cases tabled
    (o.addNotices (tableLosses o.findings)) (summaryPath folder stem)
    (summary (o.addNotices (tableLosses o.findings))) _
  · rw [hsave]
    exact ⟨[_], .noReport [_] _ _ e hsnd rfl hsummary rfl, Disk.writeAll_cons_of_write htable [],
      rfl⟩
  rw [hsave]
  -- the two reports that are always written
  have hboth (fs : List (Text × Bytes)) : made.writeAll
      ((tablePath folder stem, Utf8.encode (table o.findings)) ::
        (summaryPath folder stem,
          Utf8.encode (summary (o.addNotices (tableLosses o.findings)))) :: fs) =
            summed.writeAll fs := by
    rw [Disk.writeAll_cons_of_write htable, Disk.writeAll_cons_of_write hsummary]
  cases json with
  | false => exact ⟨_, .done hsnd rfl, hboth [], rfl⟩
  | true =>
      simp only [if_true]
      obtain ⟨e, hjson, hsave⟩ | ⟨digested, hjson, hsave⟩ := writeReport_cases summed
        (o.addNotices (tableLosses o.findings)) (jsonPath folder stem)
        (jsonSummary (o.addNotices (tableLosses o.findings))) _
      · rw [hsave]
        exact ⟨[_, _], .noReport [_, _] _ _ e hsnd rfl hjson rfl, hboth [], rfl⟩
      · rw [hsave]
        exact ⟨_, .done hsnd rfl, (hboth _).trans (Disk.writeAll_cons_of_write hjson []), rfl⟩

/-! ## what is left then -/

/-- True for what is left on the disk and of the outcome when some reports were completed. -/
structure Saved.Leaves (saved : Saved) (d : Disk) (o : Outcome) (folder stem : Text) (json : Bool)
    (completed : List (Text × Bytes)) : Prop where
  findings : saved.outcome.findings = o.findings
  packageCounts : saved.outcome.packageCounts = o.packageCounts
  patternCounts : saved.outcome.patternCounts = o.patternCounts
  failures : saved.outcome.failures = o.failures
  filesRead : saved.outcome.filesRead = o.filesRead
  /-- The losses of the table are added once, if the table was completed. -/
  notices : saved.outcome.notices =
    o.notices ++ if completed = [] then [] else tableLosses o.findings
  /-- The reports are completed in order. -/
  inOrder : completed <+: reports o folder stem json
  /-- The completed reports can be read. -/
  read : ∀ f ∈ completed, saved.disk.read f.1 = .ok f.2
  /-- The other reports are what they were. -/
  pending : ∀ f ∈ reports o folder stem json, f ∉ completed →
    saved.disk.file? (d.target f.1) = d.file? (d.target f.1)
  /-- Every other file is what it was, and no file is new. -/
  others : ∀ here, (∀ f ∈ completed, here ≠ d.target f.1) → saved.disk.file? here = d.file? here
  /-- No folder is gone. -/
  folders : ∀ here, d.HasFolder here → saved.disk.HasFolder here

/-- Saving that succeeds has completed all reports. -/
theorem Saved.Ended.of_result_ok {saved : Saved} {written : List Text}
    (h : saved.Ended d o folder stem json completed) (hresult : saved.result = .ok written) :
    (d.makeFolders folder).2 = .ok () ∧ completed = reports o folder stem json ∧
      written = completed.map Prod.fst := by
  cases h with
  | noFolder e refused result =>
      rw [result] at hresult
      cases hresult
  | noReport completed f later e made inOrder refused result =>
      rw [result] at hresult
      cases hresult
  | done made result => exact ⟨made, rfl, Except.ok.inj (hresult.symm.trans result)⟩

theorem Saved.Ended.inOrder {saved : Saved} (h : saved.Ended d o folder stem json completed) :
    completed <+: reports o folder stem json := by
  cases h with
  | noFolder e refused result => exact List.nil_prefix
  | noReport completed f later e made inOrder refused result =>
      exact inOrder ▸ List.prefix_append completed (f :: later)
  | done made result => exact List.prefix_rfl

theorem leaves_of_writeAll {saved : Saved} (horder : completed <+: reports o folder stem json)
    (hwrite : (d.makeFolders folder).1.writeAll completed = .ok saved.disk)
    (houtcome : saved.outcome = outcomeAfter o completed) :
    saved.Leaves d o folder stem json completed := by
  have hmade := Disk.grows_makeFolders_fst d folder
  have htarget (path : Text) : (d.makeFolders folder).1.target path = d.target path :=
    hmade.target path
  have hnodup := nodup_targets d o folder stem json
  have hothers (here : Location) (hnot : ∀ f ∈ completed, here ≠ d.target f.1) :
      saved.disk.file? here = d.file? here := by
    rw [Disk.file?_writeAll hwrite fun f hf => htarget f.1 ▸ hnot f hf, Disk.file?_makeFolders]
  have hapart : (completed.map fun f => (d.makeFolders folder).1.target f.1).Nodup := by
    simp only [htarget]
    exact (horder.sublist.map _).nodup hnodup
  obtain ⟨hwritten, hagain⟩ := Disk.grows_writeAll hwrite hapart
  obtain ⟨disk, outcome, result⟩ := saved
  obtain rfl : outcome = outcomeAfter o completed := houtcome
  exact {
    findings := rfl
    packageCounts := rfl
    patternCounts := rfl
    failures := rfl
    filesRead := rfl
    notices := by cases completed <;> rfl
    inOrder := horder
    read := fun f hf => Disk.read_of_write (hagain f hf)
    pending := fun f hf hnot => hothers _ fun g hg heq =>
      -- reports at the same location are the same report
      hnot (List.inj_on_of_nodup_map hnodup hf (horder.subset hg) heq ▸ hg)
    others := hothers
    folders := fun here hfolder => hwritten.folder (hmade.folder hfolder) }

/-! ## the notices of the outcome that is left -/

theorem kindCount_tableLosses (fs : List Finding) (kind : NoticeKind) :
    kindCount (tableLosses fs) kind = if kind = .lossy then (tableLosses fs).length else 0 := by
  have hkind : ∀ n ∈ tableLosses fs, n.kind = .lossy := by
    intro n hn
    obtain ⟨f, _, hn⟩ := List.mem_flatMap.1 hn
    obtain ⟨cell, _, rfl⟩ := List.mem_map.1 hn
    rfl
  split
  · rename_i h
    exact List.countP_eq_length.2 fun n hn => by rw [hkind n hn, h]; rfl
  · rename_i h
    exact List.countP_eq_zero.2 fun n hn hk => h (by rw [← hkind n hn, eq_of_beq hk])

/-- The numbers of notices that a machine-readable summary tells, by the names of their kinds. -/
theorem map_key_kindCounts (ns : List Notice) :
    (kindCounts ns).map (fun e => (e.1.key, e.2)) =
      [("malformed_statement".toList, kindCount ns .malformed),
        ("truncated_input".toList, kindCount ns .unfinished),
        ("ambiguous_match".toList, kindCount ns .ambiguous),
        ("sanitization_loss".toList, kindCount ns .lossy)].filter fun e => e.2 != 0 := by
  have hnamed : (fun e : NoticeKind × Nat => e.2 != 0) =
      (fun e : Text × Nat => e.2 != 0) ∘ fun e => (e.1.key, e.2) := rfl
  rw [kindCounts, hnamed, ← List.filter_map, List.map_map]
  rfl

/-- When all reports are completed, the last one tells what is left of the outcome. -/
theorem json?_jsonPath {saved : Saved} {written : List Text}
    (hended : saved.Ended d o folder stem true completed)
    (hread : ∀ f ∈ completed, saved.disk.read f.1 = .ok f.2)
    (houtcome : saved.outcome = outcomeAfter o completed) (h : saved.result = .ok written) :
    saved.disk.json? (jsonPath folder stem) = Json.read? (jsonSummary saved.outcome) ∧
      saved.outcome.notices = o.notices ++ tableLosses o.findings := by
  obtain ⟨_, rfl, _⟩ := hended.of_result_ok h
  have hlast : (jsonPath folder stem,
      Utf8.encode (jsonSummary (o.addNotices (tableLosses o.findings)))) ∈
        reports o folder stem true :=
    List.mem_append_right _ (List.mem_singleton_self _)
  rw [Disk.json?, hread _ hlast, houtcome, Except.toOption, Option.bind_some,
    Utf8.decode?_encode, Option.bind_some]
  exact ⟨rfl, rfl⟩

/-- **What saving leaves behind**: it makes the folder and completes the reports in order up to the
first that cannot be written; completed reports can be read, no other file is different, and nothing
of the outcome is different but its notices, which have got the losses of the table if the table was
completed.  The machine-readable summary, if it is completed, tells how many notices of each kind
are left; these are the former ones, and the losses. -/
theorem save_leaves (d : Disk) (o : Outcome) (folder stem : Text) (json : Bool) :
    let saved := save d o folder stem json
    (∃ completed, saved.Ended d o folder stem json completed ∧
        saved.Leaves d o folder stem json completed) ∧
      ∀ written, saved.result = .ok written → json = true →
        (∃ value, saved.disk.json? (jsonPath folder stem) = some value ∧
          value.member? "diagnostics".toList = some (.numbers
            ([("malformed_statement".toList, kindCount saved.outcome.notices .malformed),
              ("truncated_input".toList, kindCount saved.outcome.notices .unfinished),
              ("ambiguous_match".toList, kindCount saved.outcome.notices .ambiguous),
              ("sanitization_loss".toList, kindCount saved.outcome.notices .lossy)].filter
                fun e => e.2 != 0))) ∧
          ∀ kind, kindCount saved.outcome.notices kind = kindCount o.notices kind +
            if kind = .lossy then (tableLosses o.findings).length else 0 := by
  intro saved
  obtain ⟨completed, hended, hwrite, houtcome⟩ := exists_ended d o folder stem json
  have hleaves := leaves_of_writeAll hended.inOrder hwrite houtcome
  refine ⟨⟨completed, hended, hleaves⟩, ?_⟩
  rintro written hresult rfl
  obtain ⟨hjson, hnotices⟩ := json?_jsonPath hended hleaves.read houtcome hresult
  refine ⟨⟨_, hjson.trans (read?_render (Digest.ofOutcome saved.outcome)), ?_⟩, fun kind => ?_⟩
  · rw [← map_key_kindCounts]
    rfl
  · rw [hnotices, kindCount_append, kindCount_tableLosses]

theorem save_leaves_lossy :
    let d : Disk := ⟨.folder [(['l'], .file [])], []⟩
    let f : Finding := ⟨['p'], "std::fs".toList, "p/src/l.rs".toList, 1,
      "use std::\x7bfs, io\x7d;".toList, ⟨["std".toList, "fs".toList]⟩⟩
    let o : Outcome := ⟨[f], .zeros [['p']], .zeros [], [.lossy ['q'] ['r'] ['s']], [], 1⟩
    let saved := save d o "out".toList "top".toList true
    let written := ["out/top_all.csv".toList, "out/top_summary.txt".toList,
      "out/top_summary.json".toList]
    (saved.result = .ok written ∧ true = true) ∧
      ∃ value, saved.disk.json? "out/top_summary.json".toList = some value ∧
        value.member? "diagnostics".toList =
          some (.numbers [("sanitization_loss".toList, 2)]) := by
  intro d f o saved written
  have hsave : saved.result = .ok written := by decide +kernel
  obtain ⟨⟨value, hjson, hmember⟩, hcounts⟩ :=
    (save_leaves d o "out".toList "top".toList true).2 written hsave rfl
  refine ⟨⟨hsave, rfl⟩, value, hjson, ?_⟩
  have hnumbers : ∀ kind, kindCount saved.outcome.notices kind =
      if kind = .lossy then 2 else 0 := by
    intro kind
    rw [hcounts kind]
    cases kind <;> decide +kernel
  simp only [saved] at hnumbers
  rw [hmember, hnumbers, hnumbers, hnumbers, hnumbers]
  rfl

end Report

end ImportWatch
