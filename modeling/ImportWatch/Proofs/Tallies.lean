import ImportWatch.Corpus
import ImportWatch.Proofs.Additions
import Mathlib.Data.List.Induction

/-!
# ImportWatch.Proofs.Tallies

Counters that agree with the findings that they count.

Counters tally findings by a key when there is one for each of the keys that
were asked for and for nothing else, and each is the number of findings with
that key (`Counts.Tallies`).

* `Counts.Tallies.add` is the step: findings with one key, and their number
  added to the counter of that key;
* `Counts.Tallies.total_eq` adds the counters up;
* `Totals.applyAll_increments` follows the increments of the packages one
  package after the other.
-/

namespace ImportWatch

namespace Counts

/-! ## counters after some additions -/

theorem get?_zeros (names : List Text) (name : Text) :
    (zeros names).get? name = if name ∈ names then some 0 else none := by
  have hfold (c : Counts) (hc : ∀ n, c.get? n = some 0 ∨ c.get? n = none) :
      (names.foldl (fun c name => c.add name 0) c).get? name =
        if name ∈ names then some 0 else c.get? name := by
    induction names generalizing c with
    | nil => rfl
    | cons first names ih =>
        have hadd (n : Text) : (c.add first 0).get? n = if n = first then some 0 else c.get? n := by
          rw [get?_add]
          cases hc first with
          | inl h => rw [h]; rfl
          | inr h => rw [h]; rfl
        have hstep (n : Text) :
            (c.add first 0).get? n = some 0 ∨ (c.add first 0).get? n = none := by
          rw [hadd]
          by_cases hn : n = first
          · rw [if_pos hn]
            exact .inl rfl
          · rw [if_neg hn]
            exact hc n
        rw [List.foldl_cons, ih _ hstep, hadd]
        by_cases hn : name = first <;> simp [hn]
  exact hfold empty fun _ => .inr rfl

theorem mem_names_iff (c : Counts) (name : Text) : name ∈ c.names ↔ (c.get? name).isSome := by
  obtain ⟨es, h⟩ := c
  show name ∈ es.map Prod.fst ↔ (es.lookup name).isSome
  clear h
  induction es with
  | nil => simp
  | cons e es ih =>
      obtain ⟨k, m⟩ := e
      rw [lookup_cons_eq_ite, List.map_cons, List.mem_cons, ih]
      by_cases hk : name = k <;> simp [hk]

theorem sum_addToEntries (name : Text) (n : Nat) (es : List (Text × Nat)) :
    (addToEntries name n es).foldr (fun e n => e.2 + n) 0 =
      es.foldr (fun e n => e.2 + n) 0 + n := by
  induction es with
  | nil => exact Nat.add_comm n 0
  | cons e es ih =>
      obtain ⟨k, m⟩ := e
      rw [addToEntries]
      split
      · rw [List.foldr_cons, Nat.add_comm]
      · split
        · rw [List.foldr_cons, List.foldr_cons]
          omega
        · rw [List.foldr_cons, List.foldr_cons, ih]
          omega

theorem total_add (c : Counts) (name : Text) (n : Nat) : (c.add name n).total = c.total + n :=
  sum_addToEntries name n c.entries

theorem total_zeros (names : List Text) : (zeros names).total = 0 := by
  have hfold (c : Counts) : (names.foldl (fun c name => c.add name 0) c).total = c.total := by
    induction names generalizing c with
    | nil => rfl
    | cons first names ih => rw [List.foldl_cons, ih, total_add, Nat.add_zero]
  exact hfold empty

/-- Two additions may be made in either order. -/
theorem add_comm (c : Counts) (a b : Text) (m n : Nat) :
    (c.add a m).add b n = (c.add b n).add a m := by
  apply ext_get?
  intro name
  simp only [get?_add]
  by_cases hab : a = b
  · subst hab
    by_cases hname : name = a
    · simp [hname, Nat.add_right_comm]
    · simp [hname]
  · by_cases hname : name = a
    · subst hname
      simp [hab]
    · by_cases hb : name = b
      · subst hb
        simp [hname]
      · simp [hname, hb]

/-! ## agreement with findings -/

/-- True for a counter for each of some keys and no other, that is the number of findings
with that key. -/
def Tallies (c : Counts) (keys : List Text) (key : Finding → Text) (fs : List Finding) : Prop :=
  ∀ name, c.get? name = if name ∈ keys then some (fs.countP fun f => key f = name) else none

variable {c : Counts} {keys : List Text} {key : Finding → Text} {fs : List Finding}

theorem tallies_zeros (keys : List Text) (key : Finding → Text) :
    (zeros keys).Tallies keys key [] :=
  get?_zeros keys

theorem countP_of_key {name other : Text} (h : ∀ f ∈ fs, key f = name) :
    (fs.countP fun f => key f = other) = if other = name then fs.length else 0 := by
  by_cases ho : other = name
  · rw [if_pos ho, List.countP_eq_length]
    intro f hf
    simp [h f hf, ho]
  · rw [if_neg ho, List.countP_eq_zero]
    intro f hf
    simp [h f hf, Ne.symm ho]

/-- Findings with one key are counted when their number is added to the counter of that key. -/
theorem Tallies.add (hc : c.Tallies keys key fs) {name : Text} (hname : name ∈ keys)
    {more : List Finding} (hmore : ∀ f ∈ more, key f = name) :
    (c.add name more.length).Tallies keys key (fs ++ more) := by
  intro other
  rw [get?_add, hc, hc, List.countP_append, countP_of_key hmore]
  by_cases ho : other = name
  · subst ho
    simp [hname]
  · simp [ho]

theorem Tallies.add_one (hc : c.Tallies keys key fs) {f : Finding} (hf : key f ∈ keys) :
    (c.add (key f) 1).Tallies keys key (fs ++ [f]) := by
  have hone : ∀ g ∈ [f], key g = key f := by
    intro g hg
    rw [List.mem_singleton.1 hg]
  exact hc.add hf hone

/-- Counters that tally the same findings are equal. -/
theorem Tallies.eq {d : Counts} (hc : c.Tallies keys key fs) (hd : d.Tallies keys key fs) : c = d :=
  ext_get? fun name => (hc name).trans (hd name).symm

theorem exists_tallies (h : ∀ f ∈ fs, key f ∈ keys) :
    ∃ d : Counts, d.Tallies keys key fs ∧ d.total = fs.length := by
  -- counters that are built up finding by finding have their sum by construction
  induction fs using List.reverseRecOn with
  | nil => exact ⟨zeros keys, tallies_zeros keys key, total_zeros keys⟩
  | append_singleton fs f ih =>
      obtain ⟨d, hd, htotal⟩ := ih fun g hg => h g (List.mem_append_left _ hg)
      have hf : key f ∈ keys := h f List.mem_concat_self
      refine ⟨d.add (key f) 1, hd.add_one hf, ?_⟩
      rw [total_add, htotal, List.length_append, List.length_singleton]

/-- The counters add up to the number of the findings that they tally. -/
theorem Tallies.total_eq (hc : c.Tallies keys key fs) (h : ∀ f ∈ fs, key f ∈ keys) :
    c.total = fs.length := by
  obtain ⟨d, hd, htotal⟩ := exists_tallies h
  rw [hc.eq hd, htotal]

theorem Tallies.mem_names (hc : c.Tallies keys key fs) (name : Text) :
    name ∈ c.names ↔ name ∈ keys := by
  rw [mem_names_iff, hc]
  by_cases h : name ∈ keys <;> simp [h]

end Counts

/-! ## the increments of packages -/

/-- True for totals that agree with the findings in some packages. -/
def Totals.Tally (t : Totals) (packages : List Text) (watch : Watchlist) (fs : List Finding) :
    Prop :=
  t.packages.Tallies packages Finding.package fs ∧ t.patterns.Tallies watch.texts Finding.pattern fs

/-- True for a result that is about one of some packages. -/
def PackageResult.IsAbout (r : PackageResult) (packages : List Text) (watch : Watchlist) : Prop :=
  ∀ v, r = .ok v → v.package ∈ packages ∧
    ∀ f ∈ v.findings, f.package = v.package ∧ f.pattern ∈ watch.texts

section

variable {packages : List Text} {watch : Watchlist} {fs : List Finding}

theorem Totals.tally_start (packages : List Text) (watch : Watchlist) :
    (Totals.start packages watch).Tally packages watch [] :=
  ⟨Counts.tallies_zeros _ _, Counts.tallies_zeros _ _⟩

theorem Totals.applyAll_patterns_packages (t : Totals) (gs : List Finding) :
    (t.applyAll (gs.map fun f => .pattern f.pattern)).packages = t.packages := by
  induction gs generalizing t with
  | nil => rfl
  | cons g gs ih => exact ih _

theorem Totals.applyAll_patterns {t : Totals}
    (ht : t.patterns.Tallies watch.texts Finding.pattern fs) {gs : List Finding}
    (hgs : ∀ f ∈ gs, f.pattern ∈ watch.texts) :
    (t.applyAll (gs.map fun f => .pattern f.pattern)).patterns.Tallies watch.texts Finding.pattern
      (fs ++ gs) := by
  induction gs generalizing t fs with
  | nil =>
      rw [List.append_nil]
      exact ht
  | cons g gs ih =>
      obtain ⟨hg, hgs⟩ := List.forall_mem_cons.1 hgs
      rw [List.append_cons]
      exact ih (ht.add_one hg) hgs

/-- The increments of a package make the totals agree with its findings too. -/
theorem Totals.Tally.applyAll_increments {t : Totals} (ht : t.Tally packages watch fs)
    {r : PackageResult} (hr : r.IsAbout packages watch) :
    (t.applyAll r.increments).Tally packages watch (fs ++ r.findings) := by
  cases r with
  | error e =>
      rw [PackageResult.findings, List.append_nil]
      exact ht
  | ok v =>
      obtain ⟨hpackage, hfindings⟩ := hr v rfl
      rw [PackageResult.findings, PackageResult.increments, Survey.increments]
      rw [Totals.applyAll, List.foldl_cons, ← Totals.applyAll]
      constructor
      · rw [Totals.applyAll_patterns_packages]
        exact ht.1.add hpackage fun f hf => (hfindings f hf).1
      · -- the counter of the package is none of those by pattern
        have hpatterns : (t.apply (.package v.package v.findings.length)).patterns.Tallies
            watch.texts Finding.pattern fs := ht.2
        exact Totals.applyAll_patterns hpatterns fun f hf => (hfindings f hf).2

theorem Totals.Tally.applyAll_flatMap {t : Totals} (ht : t.Tally packages watch fs)
    {results : List PackageResult} (h : ∀ r ∈ results, r.IsAbout packages watch) :
    (t.applyAll (results.flatMap PackageResult.increments)).Tally packages watch
      (fs ++ results.flatMap PackageResult.findings) := by
  induction results generalizing t fs with
  | nil =>
      rw [List.flatMap_nil, List.flatMap_nil, List.append_nil]
      exact ht
  | cons r results ih =>
      obtain ⟨hr, h⟩ := List.forall_mem_cons.1 h
      rw [List.flatMap_cons, List.flatMap_cons, Totals.applyAll_append, ← List.append_assoc]
      exact ih (ht.applyAll_increments hr) h

end

/-- What a scan answers is about the package that was asked for. -/
theorem scanPackage_isAbout (d : Disk) (scope : Scope) (places : Places) {package : Text}
    {packages : List Text} (h : package ∈ packages) :
    (scanPackage d scope places package).IsAbout packages scope.watch := by
  intro v hv
  rw [scanPackage, scanFolder] at hv
  cases hfiles : d.sources? scope.extensions (places.root package) with
  | none =>
      rw [hfiles] at hv
      cases hv
  | some files =>
      rw [hfiles] at hv
      cases hv
      have hpackage : (Survey.ofFiles scope.watch package
          (files.map fun f => (f.1, Utf8.decodeLossy f.2))).package = package :=
        Survey.addFiles_package scope.watch (Survey.start package) _
      rw [hpackage]
      exact ⟨h, fun f hf => Survey.of_mem_ofFiles_findings hf⟩

/-- The counters of a scan agree with its findings. -/
theorem tally_scanPackages (d : Disk) (scope : Scope) (places : Places) (packages : List Text) :
    let o := scanPackages d scope places packages
    Totals.Tally ⟨o.packageCounts, o.patternCounts⟩ packages scope.watch o.findings := by
  have habout : ∀ r ∈ packages.map (scanPackage d scope places),
      PackageResult.IsAbout r packages scope.watch := by
    intro r hr
    obtain ⟨package, hpackage, rfl⟩ := List.mem_map.1 hr
    exact scanPackage_isAbout d scope places hpackage
  exact (Totals.tally_start packages scope.watch).applyAll_flatMap habout

end ImportWatch
