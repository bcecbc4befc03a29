import ImportWatch.Proofs.Saving
import ImportWatch.Run

/-!
# ImportWatch.Proofs.Reruns

Carrying out a scan again when its reports are there already.

* Saving that succeeds makes the folder and writes all reports
  (`Report.exists_of_save`, `Report.save_eq`);
* `Report.save_again`: saving the same outcome again leaves the same disk;
* `Options.run_of_grows`: a scan comes to the same where nothing is touched
  that it reads;
* `Options.run_again` is the two together.
-/

namespace ImportWatch

open PathText

namespace Report

variable {d made : Disk} {o : Outcome} {folder stem : Text} {json : Bool}

/-! ## saving again -/

/-- The reports are written into a folder that was made. -/
theorem save_eq {after : Disk} (hmake : d.makeFolders folder = (made, .ok ()))
    (hwrite : made.writeAll (reports o folder stem json) = .ok after) :
    save d o folder stem json = ⟨after, o.addNotices (tableLosses o.findings),
      .ok ((reports o folder stem json).map Prod.fst)⟩ := by
  obtain ⟨tabled, htable, hwrite⟩ := bind_eq_ok_iff.1 hwrite
  obtain ⟨summed, hsummary, hwrite⟩ := bind_eq_ok_iff.1 hwrite
  rw [save, hmake]
  simp only [writeReport_of_write htable, writeReport_of_write hsummary]
  cases json with
  | false =>
      cases hwrite
      rfl
  | true =>
      obtain ⟨digested, hjson, hwrite⟩ := bind_eq_ok_iff.1 hwrite
      cases hwrite
      simp only [writeReport_of_write hjson, if_true]
      rfl

theorem exists_of_save {written : List Text}
    (h : (save d o folder stem json).result = .ok written) :
    ∃ made, d.makeFolders folder = (made, .ok ()) ∧
      made.writeAll (reports o folder stem json) = .ok (save d o folder stem json).disk := by
  obtain ⟨completed, hended, hwrite, _⟩ := exists_ended d o folder stem json
  obtain ⟨hmade, rfl, _⟩ := hended.of_result_ok h
  exact ⟨(d.makeFolders folder).1, Prod.ext rfl hmade, hwrite⟩

/-- True for the locations that are touched when reports are saved: those of the reports, and those
of the folders that are made for them. -/
def Saved.Touches (saved : Saved) (d : Disk) (here : Location) : Prop :=
  (∃ written, saved.result = .ok written ∧ ∃ path ∈ written, here = d.target path) ∨
    d.MadeAt saved.disk here

/-- Saving changes nothing but what it touches, and the same reports can be saved again and read. -/
theorem save_again {written : List Text} (h : (save d o folder stem json).result = .ok written) :
    Disk.Grows ((save d o folder stem json).Touches d) d (save d o folder stem json).disk ∧
      save (save d o folder stem json).disk o folder stem json = save d o folder stem json ∧
      ∀ path ∈ written, ∃ c, (save d o folder stem json).disk.read path = .ok c := by
  obtain ⟨made, hmake, hwrite⟩ := exists_of_save h
  have hsave := save_eq hmake hwrite
  obtain ⟨hmade, _⟩ := Disk.grows_makeFolders hmake
  obtain ⟨hfiles, hagain⟩ := Disk.grows_writeAll hwrite (nodup_targets made o folder stem json)
  have hresult : (save d o folder stem json).result =
      .ok ((reports o folder stem json).map Prod.fst) := congrArg Saved.result hsave
  refine ⟨(hmade.mono fun here hhere => ?_).trans (hfiles.mono fun here hhere => ?_), ?_, ?_⟩
  · exact .inr ⟨hhere.1, hfiles.folder hhere.2⟩
  · obtain ⟨f, hf, rfl⟩ := List.mem_map.1 hhere
    exact .inl ⟨_, hresult, f.1, List.mem_map_of_mem hf, hmade.target f.1⟩
  · rw [save_eq (Disk.makeFolders_again hmake hfiles) (Disk.writeAll_eq_self hagain), ← hsave]
  · obtain rfl := Except.ok.inj (hresult.symm.trans h)
    intro path hpath
    obtain ⟨f, hf, rfl⟩ := List.mem_map.1 hpath
    exact ⟨f.2, Disk.read_of_write (hagain f hf)⟩

end Report

/-! ## scanning again -/

namespace Options

variable {d d' : Disk} {o : Options} {outcome : Outcome} {touched : Location → Prop}

/-- The packages are the same when the list of them is not touched. -/
theorem resolvePackages_of_grows (h : Disk.Grows touched d d') {names : List Text}
    (hnames : o.resolvePackages d = .ok names)
    (hlist : ∀ file ∈ o.packageList, (∃ c, d.read file = .ok c) → ¬touched (d.target file)) :
    o.resolvePackages d' = .ok names := by
  cases hfile : o.packageList with
  | none => simpa [resolvePackages, hfile] using hnames
  | some file =>
      cases hread : d.read file with
      | error e => simp [resolvePackages, hfile, Roster.read, hread, Except.mapError] at hnames
      | ok c =>
          have hread' : d'.read file = .ok c := h.read hread (hlist file hfile ⟨c, hread⟩)
          simpa [resolvePackages, hfile, Roster.read, hread, hread'] using hnames

/-- A scan comes to the same when nothing is touched in the folders of sources. -/
theorem run_of_grows (h : Disk.Grows touched d d') (hwork : d.HasFolder d.workplace)
    (hrun : o.run d = .ok outcome)
    (hlist : ∀ file ∈ o.packageList, (∃ c, d.read file = .ok c) → ¬touched (d.target file))
    (hroots : ∀ names, o.resolvePackages d = .ok names → ∀ package ∈ names, ∀ there,
      touched there → ¬d.target (o.places.root package) <+: there) :
    o.run d' = .ok outcome := by
  cases hnames : o.resolvePackages d with
  | error e => simp [run, hnames, Except.map] at hrun
  | ok names =>
      have hpackage : ∀ package ∈ names,
          scanPackage d' o.scope o.places package = scanPackage d o.scope o.places package := by
        intro package hpackage
        have hfolder := h.folder?_clean hwork (hroots names hnames package hpackage)
        rw [scanPackage, scanPackage, scanFolder, scanFolder, Disk.sources?, Disk.sources?,
          Places.root, hfolder]
      rw [run, hnames] at hrun
      rw [run, resolvePackages_of_grows h hnames hlist, ← hrun]
      simp only [Except.map, scanPackages, List.map_congr_left hpackage]

/-- **Running again**: when a scan and the saving of its reports succeed on a disk with a working
folder, and nothing that is touched by saving is a folder of sources, lies in one or is the list of
packages, then the same scan on the disk with the reports comes to the same outcome, and saving it
again succeeds and leaves that disk as it is, with all reports on it. -/
theorem run_again (hwork : d.HasFolder d.workplace) (hrun : o.run d = .ok outcome)
    {written : List Text}
    (hsave : (Report.save d outcome o.outputDir o.reportStem o.json).result = .ok written)
    (hroots : ∀ names, o.resolvePackages d = .ok names → ∀ package ∈ names, ∀ there,
      (Report.save d outcome o.outputDir o.reportStem o.json).Touches d there →
        ¬d.target (o.places.root package) <+: there)
    (hlist : ∀ file ∈ o.packageList, ∀ path ∈ written, d.target path ≠ d.target file) :
    let saved := Report.save d outcome o.outputDir o.reportStem o.json
    o.run saved.disk = .ok outcome ∧
      Report.save saved.disk outcome o.outputDir o.reportStem o.json = saved ∧
      ∀ path ∈ written, ∃ c, saved.disk.read path = .ok c := by
  intro saved
  obtain ⟨hgrows, hagain⟩ := Report.save_again hsave
  refine ⟨run_of_grows hgrows hwork hrun ?_ hroots, hagain⟩
  rintro file hfile ⟨c, hread⟩ (⟨paths, hpaths, path, hpath, htarget⟩ | hmade)
  · obtain rfl := Except.ok.inj (hpaths.symm.trans hsave)
    exact hlist file hfile path hpath htarget.symm
  · -- no folder was made where the list is a file
    have hnone := hmade.1
    rw [(Disk.read_eq_ok_iff.1 hread).2] at hnone
    cases hnone

theorem run_again_listed :
    let source : Node := .file (Utf8.encode "use std::fs;".toList)
    let d : Disk := ⟨.folder [("l.csv".toList, .file (Utf8.encode "name\np\n".toList)),
      (['p'], .folder [(['s'], .folder [("l.rs".toList, source)])])], []⟩
    let o : Options := ⟨['.'], [], some "l.csv".toList, 1, ['s'], ["std::fs".toList], [],
      "out/new".toList, none, true, 0⟩
    let outcome := scanPackages d o.scope o.places [['p']]
    let saved := Report.save d outcome o.outputDir o.reportStem o.json
    let written := ["out/new/top1_all.csv".toList, "out/new/top1_summary.txt".toList,
      "out/new/top1_summary.json".toList]
    (o.run d = .ok outcome ∧ saved.result = .ok written) ∧
      o.run saved.disk = .ok outcome ∧
        Report.save saved.disk outcome o.outputDir o.reportStem o.json = saved ∧
          ∀ path ∈ written, ∃ c, saved.disk.read path = .ok c := by
  intro source d o outcome saved written
  have hnames : o.resolvePackages d = .ok [['p']] := by decide +kernel
  have hrun : o.run d = .ok outcome := by rw [run, hnames]; rfl
  have hsave : saved.result = .ok written := by decide +kernel
  have hwork : d.HasFolder d.workplace := ⟨_, rfl⟩
  have hroots : ∀ names, o.resolvePackages d = .ok names → ∀ package ∈ names, ∀ there,
      saved.Touches d there → ¬d.target (o.places.root package) <+: there := by
    intro names hresolved package hpackage there htouched hbelow
    rw [hnames] at hresolved
    cases hresolved
    obtain rfl := List.mem_singleton.1 hpackage
    have hroot : d.target (o.places.root ['p']) = [['p'], ['s']] := by decide +kernel
    rw [hroot] at hbelow
    rcases htouched with ⟨paths, hpaths, path, hpath, rfl⟩ | ⟨hnone, es, hes⟩
    · obtain rfl := Except.ok.inj (hpaths.symm.trans hsave)
      have hapart : ∀ path ∈ written, ¬[['p'], ['s']] <+: d.target path := by decide +kernel
      exact hapart path hpath hbelow
    · obtain ⟨rest, rfl⟩ := hbelow
      have hsame : saved.disk.node? [['p'], ['s']] = d.node? [['p'], ['s']] := by
        with_unfolding_all rfl
      rw [Disk.node?, Node.find?_append] at hnone hes
      rw [show saved.disk.root.find? [['p'], ['s']] = _ from hsame] at hes
      exact absurd (hnone.symm.trans hes) (by simp)
  have hlist : ∀ file ∈ o.packageList, ∀ path ∈ written, d.target path ≠ d.target file := by
    decide +kernel
  exact ⟨⟨hrun, hsave⟩, run_again hwork hrun hsave hroots hlist⟩

end Options

end ImportWatch
