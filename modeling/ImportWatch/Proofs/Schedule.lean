import ImportWatch.Program
import ImportWatch.Proofs.Tallies
import Mathlib.Logic.Relation

/-!
# ImportWatch.Proofs.Schedule

Counting while packages are scanned at the same time.

The workers share the totals.  Each package makes its increments one after the
other, and between two of them any other package may make some of its own, so
a run is any sequence of steps, each of which takes the next increment of some
package (`Crew.Step`).  Increments commute; so whatever the totals and the
increments that are left come to (`Crew.settled`) stays the same from step to
step, and in the end the totals are those of a scan in order.
-/

namespace ImportWatch

/-- The shared totals, and the increments that each package is still to make. -/
structure Crew where
  totals : Totals
  pending : List (List Increment)

namespace Crew

/-- The packages before their first increments. -/
def start (d : Disk) (scope : Scope) (places : Places) (packages : List Text) : Crew :=
  ⟨Totals.start packages scope.watch,
    packages.map fun package => (scanPackage d scope places package).increments⟩

/-- Some package makes its next increment. -/
inductive Step : Crew → Crew → Prop where
  | increment (t : Totals) (before after : List (List Increment)) (i : Increment)
      (is : List Increment) :
      Step ⟨t, before ++ (i :: is) :: after⟩ ⟨t.apply i, before ++ is :: after⟩

/-- Any number of steps. -/
abbrev Runs : Crew → Crew → Prop := Relation.ReflTransGen Step

/-- True when no package has an increment left. -/
def Finished (c : Crew) : Prop := ∀ is ∈ c.pending, is = []

/-- The totals that are reached when the packages make what is left one after the other. -/
def settled (c : Crew) : Totals := c.totals.applyAll c.pending.flatten

end Crew

namespace Totals

theorem apply_comm (t : Totals) (i j : Increment) : (t.apply i).apply j = (t.apply j).apply i := by
  cases i with
  | package a m =>
      cases j with
      | package b n =>
          unfold apply
          simp only [Counts.add_comm t.packages a b]
      | pattern b => rfl
  | pattern a =>
      cases j with
      | package b n => rfl
      | pattern b =>
          unfold apply
          simp only [Counts.add_comm t.patterns a b]

/-- An increment may be made before some others instead of behind them. -/
theorem apply_applyAll (t : Totals) (i : Increment) (is : List Increment) :
    (t.applyAll is).apply i = (t.apply i).applyAll is := by
  induction is generalizing t with
  | nil => rfl
  | cons j is ih =>
      show ((t.apply j).applyAll is).apply i = ((t.apply i).apply j).applyAll is
      rw [ih, apply_comm]

end Totals

namespace Crew

/-! ## steps and runs -/

/-- A step changes nothing in what the crew will come to. -/
theorem settled_of_step {c c' : Crew} (h : Step c c') : c'.settled = c.settled := by
  cases h with
  | increment t before after i is =>
      show (t.apply i).applyAll (before ++ is :: after).flatten =
        t.applyAll (before ++ (i :: is) :: after).flatten
      -- the increment moves behind those of the packages before its own
      simp only [List.flatten_append, List.flatten_cons, Totals.applyAll_append]
      rw [← Totals.apply_applyAll]
      rfl

theorem settled_of_runs {c c' : Crew} (h : Runs c c') : c'.settled = c.settled := by
  induction h with
  | refl => rfl
  | tail _ hstep ih => rw [settled_of_step hstep, ih]

theorem settled_of_finished {c : Crew} (h : c.Finished) : c.settled = c.totals := by
  have hnone : c.pending.flatten = [] := List.flatten_eq_nil_iff.2 h
  rw [settled, hnone]
  rfl

/-- The number of increments that are left. -/
def left (c : Crew) : Nat := c.pending.flatten.length

theorem left_of_step {c c' : Crew} (h : Step c c') : c'.left + 1 = c.left := by
  cases h with
  | increment t before after i is =>
      unfold left
      simp only [List.flatten_append, List.flatten_cons, List.length_append, List.length_cons]
      omega

theorem exists_step_of_not_finished {c : Crew} (h : ¬ c.Finished) : ∃ c', Step c c' := by
  obtain ⟨t, pending⟩ := c
  unfold Finished at h
  push Not at h
  obtain ⟨is, hmem, hne⟩ := h
  obtain ⟨before, after, rfl⟩ := List.append_of_mem hmem
  cases is with
  | nil => exact absurd rfl hne
  | cons i is => exact ⟨_, .increment t before after i is⟩

/-- However a run has started, it can be finished. -/
theorem exists_finished (c : Crew) : ∃ c', Runs c c' ∧ c'.Finished := by
  induction hn : c.left generalizing c with
  | zero =>
      refine ⟨c, .refl, fun is his => ?_⟩
      exact List.flatten_eq_nil_iff.1 (List.length_eq_zero_iff.1 hn) is his
  | succ n ih =>
      by_cases hfinished : c.Finished
      · exact ⟨c, .refl, hfinished⟩
      · obtain ⟨c', hstep⟩ := exists_step_of_not_finished hfinished
        have hleft : c'.left = n := by
          have := left_of_step hstep
          omega
        obtain ⟨c'', hruns, hdone⟩ := ih c' hleft
        exact ⟨c'', .head hstep hruns, hdone⟩

/-- In the end the totals are those of a scan in order. -/
theorem totals_of_finished {d : Disk} {scope : Scope} {places : Places} {packages : List Text}
    {c : Crew} (hruns : Runs (start d scope places packages) c) (hdone : c.Finished) :
    Outcome.ofResults c.totals (packages.map (scanPackage d scope places)) =
      scanPackages d scope places packages := by
  rw [← settled_of_finished hdone, settled_of_runs hruns]
  have hpending : (start d scope places packages).pending.flatten =
      (packages.map (scanPackage d scope places)).flatMap PackageResult.increments := by
    rw [List.flatMap_map, List.flatMap_def]
    rfl
  rw [settled, hpending]
  rfl

end Crew

/-! ## the counters of an outcome -/

/-- True for an outcome whose counters agree with its findings in every respect. -/
structure Outcome.Agrees (o : Outcome) (packages : List Text) (watch : Watchlist) : Prop where
  packageNames : ∀ name, name ∈ o.packageCounts.names ↔ name ∈ packages
  packageCounts : o.packageCounts.Tallies packages Finding.package o.findings
  patternNames : ∀ name, name ∈ o.patternCounts.names ↔ name ∈ watch.texts
  patternCounts : o.patternCounts.Tallies watch.texts Finding.pattern o.findings
  packageTotal : o.packageCounts.total = o.findings.length
  patternTotal : o.patternCounts.total = o.findings.length
  checked : o.checkTotals = .ok ()

theorem mem_of_mem_scanPackages {d : Disk} {scope : Scope} {places : Places} {packages : List Text}
    {f : Finding} (h : f ∈ (scanPackages d scope places packages).findings) :
    f.package ∈ packages ∧ f.pattern ∈ scope.watch.texts := by
  obtain ⟨r, hr, hf⟩ := List.mem_flatMap.1 h
  obtain ⟨package, hpackage, rfl⟩ := List.mem_map.1 hr
  cases hv : scanPackage d scope places package with
  | error e =>
      rw [hv] at hf
      cases hf
  | ok v =>
      rw [hv] at hf
      obtain ⟨hmem, hall⟩ := scanPackage_isAbout d scope places hpackage v hv
      obtain ⟨hfp, hft⟩ := hall f hf
      rw [hfp]
      exact ⟨hmem, hft⟩

theorem agrees_scanPackages (d : Disk) (scope : Scope) (places : Places) (packages : List Text) :
    (scanPackages d scope places packages).Agrees packages scope.watch := by
  obtain ⟨hpackages, hpatterns⟩ := tally_scanPackages d scope places packages
  have hptotal := hpackages.total_eq fun f hf => (mem_of_mem_scanPackages hf).1
  have hwtotal := hpatterns.total_eq fun f hf => (mem_of_mem_scanPackages hf).2
  refine ⟨hpackages.mem_names, hpackages, hpatterns.mem_names, hpatterns, hptotal, hwtotal, ?_⟩
  rw [Outcome.checkTotals_eq_ok_iff, hptotal, hwtotal]
  exact ⟨rfl, rfl⟩

theorem checkTotals_of_run {d : Disk} {options : Options} {o : Outcome}
    (h : options.run d = .ok o) : o.checkTotals = .ok () := by
  unfold Options.run at h
  cases hpackages : options.resolvePackages d with
  | error e =>
      rw [hpackages] at h
      cases h
  | ok packages =>
      rw [hpackages] at h
      cases h
      exact (agrees_scanPackages d options.scope options.places packages).checked

theorem scanAndSave_ne_counts (d : Disk) (options : Options) (m : CountMismatch) :
    (scanAndSave d options).2 ≠ .error (.counts m) := by
  unfold scanAndSave
  cases hrun : options.run d with
  | error e => simp
  | ok o =>
      simp only [checkTotals_of_run hrun]
      split <;> simp

/-- **Counters under any schedule**: in whatever order the packages make their increments,
they come to an end, and then the counters agree with the findings and are those of a scan
in order; so no scan and no run of the program ends in a mismatch of the counters. -/
theorem agrees_of_schedule (d : Disk) (scope : Scope) (places : Places) (packages : List Text) :
    (∀ c, (Crew.start d scope places packages).Runs c → ∃ c', c.Runs c' ∧ c'.Finished) ∧
      (∀ c, (Crew.start d scope places packages).Runs c → c.Finished →
        let o := Outcome.ofResults c.totals (packages.map (scanPackage d scope places))
        o.Agrees packages scope.watch ∧ o = scanPackages d scope places packages) ∧
      (∀ (options : Options) (o : Outcome), options.run d = .ok o → o.checkTotals = .ok ()) ∧
      ∀ (options : Options) (m : CountMismatch),
        (scanAndSave d options).2 ≠ .error (.counts m) := by
  refine ⟨fun c _ => c.exists_finished, ?_, fun _ _ => checkTotals_of_run, scanAndSave_ne_counts d⟩
  intro c hruns hdone
  have ho := Crew.totals_of_finished hruns hdone
  simp only [ho, and_true]
  exact agrees_scanPackages d scope places packages

end ImportWatch
