import ImportWatch.Proofs.Schedule
import Mathlib.Algebra.Ring.Nat

/-!
# ImportWatch.Proofs.Isolation

Packages that have nothing to do with each other.

What is found in a package depends on that package alone, so the scan of two
lists of packages, one behind the other, comes to what the two scans come to;
the counters are added up.

* `Counts.IsSum` is the sum of two collections of counters, and
  `Counts.Tallies.isSum` finds it in counters that agree with their findings;
* `Outcome.IsJoined` puts two outcomes together, `isJoined_scanPackages` is
  about two lists of packages;
* `Outcome.Ignores` says that a package which failed has left no trace but its
  failure and a counter at zero;
* `scanPackages_isolated` is about both.
-/

namespace ImportWatch

/-! ## sums of counters -/

namespace Counts

/-- True for counters that are the sums of those of two collections; a counter that is missing
counts as zero. -/
structure IsSum (c a b : Counts) : Prop where
  names : ∀ name, name ∈ c.names ↔ name ∈ a.names ∨ name ∈ b.names
  counters : ∀ name, (c.get? name).getD 0 = (a.get? name).getD 0 + (b.get? name).getD 0

theorem Tallies.getD_eq {c : Counts} {keys : List Text} {key : Finding → Text} {fs : List Finding}
    (hc : c.Tallies keys key fs) (hfs : ∀ f ∈ fs, key f ∈ keys) (name : Text) :
    (c.get? name).getD 0 = fs.countP fun f => key f = name := by
  rw [hc]
  by_cases hname : name ∈ keys
  · simp [hname]
  · have hnone : fs.countP (fun f => key f = name) = 0 := by
      rw [List.countP_eq_zero]
      intro f hf h
      exact hname (of_decide_eq_true h ▸ hfs f hf)
    simp [hname, hnone]

/-- Counters that agree with some findings and then others are the sums of those that agree with
either. -/
theorem Tallies.isSum {c a b : Counts} {js ks ls : List Text} {key : Finding → Text}
    {fs gs : List Finding} (hc : c.Tallies js key (fs ++ gs)) (ha : a.Tallies ks key fs)
    (hb : b.Tallies ls key gs) (hkeys : ∀ name, name ∈ js ↔ name ∈ ks ∨ name ∈ ls)
    (hfs : ∀ f ∈ fs, key f ∈ ks) (hgs : ∀ f ∈ gs, key f ∈ ls) : c.IsSum a b := by
  have hall : ∀ f ∈ fs ++ gs, key f ∈ js := by
    intro f hf
    rw [hkeys]
    exact (List.mem_append.1 hf).imp (hfs f) (hgs f)
  constructor
  · intro name
    rw [hc.mem_names, ha.mem_names, hb.mem_names, hkeys]
  · intro name
    rw [hc.getD_eq hall, ha.getD_eq hfs, hb.getD_eq hgs, List.countP_append]

end Counts

/-! ## failures -/

/-- The failure of a package whose folder of sources is missing. -/
def Places.failure (places : Places) (package : Text) : Failure :=
  ⟨package, (MissingSources.mk package (places.root package)).chain.message⟩

theorem scanPackage_of_missing {d : Disk} (scope : Scope) {places : Places} {package : Text}
    (h : d.isFolder (places.root package) = false) :
    scanPackage d scope places package = .error ⟨package, places.root package⟩ := by
  rw [Disk.isFolder, Option.isSome_eq_false_iff, Option.isNone_iff_eq_none] at h
  rw [scanPackage, scanFolder, Disk.sources?, h]
  rfl

theorem failure?_scanPackage (d : Disk) (scope : Scope) (places : Places) (package : Text) :
    (scanPackage d scope places package).failure? =
      if d.isFolder (places.root package) then none else some (places.failure package) := by
  cases h : d.isFolder (places.root package) with
  | false =>
      rw [scanPackage_of_missing scope h]
      rfl
  | true =>
      rw [Disk.isFolder, Option.isSome_iff_exists] at h
      obtain ⟨es, hes⟩ := h
      rw [scanPackage, scanFolder, Disk.sources?, hes]
      rfl

/-! ## two outcomes put together -/

/-- True for an outcome that is put together from one and another. -/
structure Outcome.IsJoined (o a b : Outcome) : Prop where
  findings : o.findings = a.findings ++ b.findings
  notices : o.notices = a.notices ++ b.notices
  failures : o.failures = a.failures ++ b.failures
  filesRead : o.filesRead = a.filesRead + b.filesRead
  /-- All three count by the same patterns. -/
  patternNames : ∀ name, (name ∈ o.patternCounts.names ↔ name ∈ a.patternCounts.names) ∧
    (name ∈ o.patternCounts.names ↔ name ∈ b.patternCounts.names)
  patternCounts : o.patternCounts.IsSum a.patternCounts b.patternCounts
  packageCounts : o.packageCounts.IsSum a.packageCounts b.packageCounts

section

variable (d : Disk) (scope : Scope) (places : Places)

theorem findings_scanPackages (packages : List Text) :
    (scanPackages d scope places packages).findings =
      packages.flatMap fun package => (scanPackage d scope places package).findings :=
  List.flatMap_map ..

theorem notices_scanPackages (packages : List Text) :
    (scanPackages d scope places packages).notices =
      packages.flatMap fun package => (scanPackage d scope places package).notices :=
  List.flatMap_map ..

/-- The packages that fail are those whose folders of sources are missing. -/
theorem failures_scanPackages (packages : List Text) :
    (scanPackages d scope places packages).failures =
      (packages.filter fun package => !d.isFolder (places.root package)).map places.failure := by
  have hmap : (scanPackages d scope places packages).failures =
      packages.filterMap fun package => (scanPackage d scope places package).failure? :=
    List.filterMap_map ..
  simp only [hmap, failure?_scanPackage]
  clear hmap
  induction packages with
  | nil => rfl
  | cons package packages ih =>
      cases hfolder : d.isFolder (places.root package) <;> simp [hfolder, ih]

theorem filesRead_scanPackages (packages : List Text) :
    (scanPackages d scope places packages).filesRead =
      (packages.map fun package => (scanPackage d scope places package).filesRead).sum := by
  induction packages with
  | nil => rfl
  | cons package packages ih =>
      rw [List.map_cons, List.sum_cons, ← ih]
      rfl

/-- The outcome for two lists of packages is put together from those for either. -/
theorem isJoined_scanPackages (ps qs : List Text) :
    (scanPackages d scope places (ps ++ qs)).IsJoined (scanPackages d scope places ps)
      (scanPackages d scope places qs) := by
  have hfindings : (scanPackages d scope places (ps ++ qs)).findings =
      (scanPackages d scope places ps).findings ++ (scanPackages d scope places qs).findings := by
    simp only [findings_scanPackages, List.flatMap_append]
  have hall := agrees_scanPackages d scope places (ps ++ qs)
  have hps := agrees_scanPackages d scope places ps
  have hqs := agrees_scanPackages d scope places qs
  refine ⟨hfindings, ?_, ?_, ?_, fun name => ?_, ?_, ?_⟩
  · simp only [notices_scanPackages, List.flatMap_append]
  · simp only [failures_scanPackages, List.filter_append, List.map_append]
  · simp only [filesRead_scanPackages, List.map_append, List.sum_append]
  · rw [hall.patternNames, hps.patternNames, hqs.patternNames]
    exact ⟨Iff.rfl, Iff.rfl⟩
  · refine (hfindings ▸ hall.patternCounts).isSum hps.patternCounts hqs.patternCounts ?_ ?_ ?_
    · exact fun name => (or_self_iff).symm
    · exact fun f hf => (mem_of_mem_scanPackages hf).2
    · exact fun f hf => (mem_of_mem_scanPackages hf).2
  · refine (hfindings ▸ hall.packageCounts).isSum hps.packageCounts hqs.packageCounts ?_ ?_ ?_
    · exact fun name => List.mem_append
    · exact fun f hf => (mem_of_mem_scanPackages hf).1
    · exact fun f hf => (mem_of_mem_scanPackages hf).1

end

/-! ## packages without sources -/

/-- True for an outcome in which some occurrences of a package have failed, and that is for the
rest what it is without them. -/
structure Outcome.Ignores (o without : Outcome) (failure : Failure) (occurrences : Nat) : Prop where
  findings : o.findings = without.findings
  notices : o.notices = without.notices
  filesRead : o.filesRead = without.filesRead
  patternCounts : o.patternCounts = without.patternCounts
  /-- There is one failure for each occurrence. -/
  failed : o.failures.filter (fun f => f.package = failure.package) =
    List.replicate occurrences failure
  otherFailures : o.failures.filter (fun f => f.package ≠ failure.package) = without.failures
  /-- The package has a counter if it occurs at all. -/
  counter : o.packageCounts.get? failure.package = if 0 < occurrences then some 0 else none
  otherCounters : ∀ name, name ≠ failure.package →
    o.packageCounts.get? name = without.packageCounts.get? name

theorem flatMap_filter_ne {α : Type} {f : Text → List α} {m : Text} (h : f m = [])
    (ps : List Text) : (ps.filter (· ≠ m)).flatMap f = ps.flatMap f := by
  induction ps with
  | nil => rfl
  | cons p ps ih =>
      by_cases hp : p = m
      · simp_all
      · simp_all

theorem sum_filter_ne {f : Text → Nat} {m : Text} (h : f m = 0) (ps : List Text) :
    ((ps.filter (· ≠ m)).map f).sum = (ps.map f).sum := by
  induction ps with
  | nil => rfl
  | cons p ps ih =>
      by_cases hp : p = m
      · simp_all
      · simp_all

/-- Each occurrence of a package without sources fails. -/
theorem filter_failures_eq_replicate (d : Disk) (scope : Scope) {places : Places} {m : Text}
    (h : d.isFolder (places.root m) = false) (ps : List Text) :
    (scanPackages d scope places ps).failures.filter (fun f => f.package = m) =
      List.replicate (ps.count m) (places.failure m) := by
  have hmissing : ∀ p ∈ ps, (decide (p = m) && !d.isFolder (places.root p)) = (p == m) := by
    intro p _
    by_cases hp : p = m <;> simp [hp, h]
  rw [failures_scanPackages, List.filter_map, List.filter_filter]
  calc
    _ = (ps.filter (· == m)).map places.failure := congrArg _ (List.filter_congr hmissing)
    _ = _ := by rw [List.filter_beq, List.map_replicate]

theorem filter_failures_filter_ne (d : Disk) (scope : Scope) (places : Places) (m : Text)
    (ps : List Text) :
    (scanPackages d scope places ps).failures.filter (fun f => f.package ≠ m) =
      (scanPackages d scope places (ps.filter (· ≠ m))).failures := by
  rw [failures_scanPackages, failures_scanPackages, List.filter_map, List.filter_filter,
    List.filter_filter]
  refine congrArg _ (List.filter_congr fun p _ => ?_)
  exact Bool.and_comm ..

/-- A package without sources adds its failures and a counter at zero. -/
theorem ignores_scanPackages (d : Disk) (scope : Scope) {places : Places} {m : Text}
    (h : d.isFolder (places.root m) = false) (ps : List Text) :
    (scanPackages d scope places ps).Ignores (scanPackages d scope places (ps.filter (· ≠ m)))
      (places.failure m) (ps.count m) := by
  have herror := scanPackage_of_missing scope h
  have hfindings : (scanPackages d scope places ps).findings =
      (scanPackages d scope places (ps.filter (· ≠ m))).findings := by
    rw [findings_scanPackages, findings_scanPackages, flatMap_filter_ne (by rw [herror]; rfl)]
  have hall := agrees_scanPackages d scope places ps
  have hrest := agrees_scanPackages d scope places (ps.filter (· ≠ m))
  refine ⟨hfindings, ?_, ?_, ?_, ?_, ?_, ?_, fun name hname => ?_⟩
  · rw [notices_scanPackages, notices_scanPackages, flatMap_filter_ne (by rw [herror]; rfl)]
  · rw [filesRead_scanPackages, filesRead_scanPackages, sum_filter_ne (by rw [herror]; rfl)]
  · exact (hfindings ▸ hall.patternCounts).eq hrest.patternCounts
  · exact filter_failures_eq_replicate d scope h ps
  · exact filter_failures_filter_ne d scope places m ps
  · -- none of the findings is about the package, for they are all found in the others
    have hnone : ((scanPackages d scope places ps).findings.countP fun f => f.package = m) = 0 := by
      rw [List.countP_eq_zero, hfindings]
      intro f hf
      have hother := (mem_of_mem_scanPackages hf).1
      simp_all
    show (scanPackages d scope places ps).packageCounts.get? m = _
    rw [hall.packageCounts, hnone]
    simp [List.count_pos_iff]
  · rw [hall.packageCounts, hrest.packageCounts, hfindings]
    simp [show name ≠ m from hname]

/-- **Packages in isolation**: the scan of two lists of packages comes to what the scans of
either come to; and a package whose folder of sources is missing adds one failure for each time
that it is asked for and a counter at zero, wherever it stands, and nothing else. -/
theorem scanPackages_isolated (d : Disk) (scope : Scope) (places : Places) :
    (∀ ps qs : List Text, (scanPackages d scope places (ps ++ qs)).IsJoined
        (scanPackages d scope places ps) (scanPackages d scope places qs)) ∧
      ∀ (ps : List Text) (m : Text), d.isFolder (places.root m) = false →
        (scanPackages d scope places ps).Ignores (scanPackages d scope places (ps.filter (· ≠ m)))
          (places.failure m) (ps.count m) :=
  ⟨isJoined_scanPackages d scope places, fun ps _ h => ignores_scanPackages d scope h ps⟩

theorem scanPackages_isolated_missing :
    let source : Node := .file (Utf8.encode "use std::fs;".toList)
    let d : Disk := ⟨.folder [(['a'], .folder [(['s'], .folder [("l.rs".toList, source)])])], []⟩
    let scope : Scope := ⟨.ofTexts ["std::fs".toList], [['r', 's']]⟩
    let places : Places := ⟨['.'], ['s']⟩
    d.isFolder (places.root ['b']) = false ∧
      (scanPackages d scope places [['b'], ['a'], ['b']]).Ignores
        (scanPackages d scope places [['a']]) (places.failure ['b']) 2 := by
  intro source d scope places
  have hmissing : d.isFolder (places.root ['b']) = false := by decide
  exact ⟨hmissing, (scanPackages_isolated d scope places).2 [['b'], ['a'], ['b']] ['b'] hmissing⟩

end ImportWatch
