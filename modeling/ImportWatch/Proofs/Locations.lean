import ImportWatch.Disk
import Mathlib.Data.List.Basic

/-!
# ImportWatch.Proofs.Locations

Nodes at locations, and the locations that paths lead to.

* `Node.find?_append` looks from a folder on the way; `Node.find?_put_append`,
  `Node.find?_put_of_not_isPrefix` and `Node.put_eq_self` say what is found
  after a node was put somewhere;
* `Disk.target` is where a path leads when all folders on the way are there;
  `Disk.eq_target_of_locate` says that nothing else is located;
* `Disk.folder?_clean`: the folder at a clean path is the one at its target, so
  nothing on the way matters.
-/

namespace ImportWatch

open PathText

/-- A step after another one succeeds when both do. -/
theorem bind_eq_ok_iff {α β ε : Type} {x : Except ε α} {f : α → Except ε β} {b : β} :
    x >>= f = .ok b ↔ ∃ a, x = .ok a ∧ f a = .ok b := by
  cases x with
  | error e => exact ⟨(nomatch ·), fun ⟨_, h, _⟩ => nomatch h⟩
  | ok a => exact ⟨fun h => ⟨a, rfl, h⟩, fun ⟨_, h, hf⟩ => Except.ok.inj h ▸ hf⟩

/-! ## nodes below a node -/

namespace Node

/-- The entries of a folder. -/
def entries? : Node → Option (List (Text × Node))
  | .file _ => none
  | .folder es => some es

theorem find?_append (here there : Location) (n : Node) :
    n.find? (here ++ there) = (n.find? here).bind (find? there) := by
  induction here generalizing n with
  | nil => rfl
  | cons name here ih =>
      cases n with
      | file c => rfl
      | folder es =>
          rw [List.cons_append, find?, find?, Option.bind_assoc]
          exact congrArg _ (funext ih)

/-- Above a location where something is put, the same is put further down. -/
theorem find?_put_append (new : Node) {rest : Location} (h : rest ≠ []) (here : Location)
    (n : Node) : (put new (here ++ rest) n).find? here = (n.find? here).map (put new rest) := by
  induction here generalizing n with
  | nil => rfl
  | cons name here ih =>
      obtain ⟨next, below, hnext⟩ := List.exists_cons_of_ne_nil
        (List.append_ne_nil_of_right_ne_nil here h)
      cases n with
      | file c => rfl
      | folder es =>
          rw [List.cons_append, hnext, put, ← hnext]
          cases hes : es.lookup name with
          | none => simp [find?, hes]
          | some m => simp [find?, hes, lookup_putEntry, ih]

/-- A folder stays one when something is put below it. -/
theorem exists_put_folder (new : Node) {rest : Location} (h : rest ≠ [])
    (es : List (Text × Node)) : ∃ es', put new rest (.folder es) = .folder es' := by
  obtain ⟨name, below, rfl⟩ := List.exists_cons_of_ne_nil h
  cases below with
  | nil => exact ⟨_, rfl⟩
  | cons next below =>
      rw [put]
      cases es.lookup name <;> exact ⟨_, rfl⟩

/-- Nothing changes beside a location where something is put. -/
theorem find?_put_of_not_isPrefix (new : Node) {here there : Location} (n : Node)
    (hbelow : ¬there <+: here) (habove : ¬here <+: there) :
    (put new there n).find? here = n.find? here := by
  induction here generalizing there n with
  | nil => exact absurd List.nil_prefix habove
  | cons name here ih =>
      cases there with
      | nil => exact absurd List.nil_prefix hbelow
      | cons other there =>
          cases n with
          | file c => rfl
          | folder es =>
              cases there with
              | nil =>
                  have hname : name ≠ other := by
                    rintro rfl
                    exact hbelow (List.prefix_append [name] here)
                  rw [put, find?, find?, lookup_putEntry, if_neg hname]
              | cons next there =>
                  rw [put]
                  cases hes : es.lookup other with
                  | none => rfl
                  | some m =>
                      by_cases hname : name = other
                      · subst hname
                        have hrest := ih m (fun h => hbelow (List.cons_prefix_cons.2 ⟨rfl, h⟩))
                          fun h => habove (List.cons_prefix_cons.2 ⟨rfl, h⟩)
                        simp [find?, hes, lookup_putEntry, hrest]
                      · simp [find?, lookup_putEntry, hname]

/-- Putting a node where it is already changes nothing. -/
theorem put_eq_self {here : Location} {n m : Node} (h : n.find? here = some m) :
    put m here n = n := by
  induction here generalizing n with
  | nil => exact (Option.some.inj h).symm
  | cons name here ih =>
      cases n with
      | file c => rfl
      | folder es =>
          rw [find?] at h
          obtain ⟨k, hk, hm⟩ := Option.bind_eq_some_iff.1 h
          cases here with
          | nil =>
              cases hm
              rw [put, putEntry_eq_self hk]
          | cons next here => simp only [put, hk, ih hm, putEntry_eq_self hk]

end Node

namespace Disk

variable {d : Disk}

/-! ## folders -/

/-- True for the locations of folders. -/
def HasFolder (d : Disk) (here : Location) : Prop := ∃ es, d.node? here = some (.folder es)

theorem node?_append_singleton {here : Location} {es : List (Text × Node)}
    (h : d.node? here = some (.folder es)) (name : Text) :
    d.node? (here ++ [name]) = es.lookup name := by
  rw [node?, Node.find?_append, show d.root.find? here = _ from h, Option.bind_some, Node.find?]
  cases es.lookup name <;> rfl

/-- What has something below it is a folder. -/
theorem hasFolder_of_node? {here there : Location} (hne : there ≠ []) {n : Node}
    (h : d.node? (here ++ there) = some n) : d.HasFolder here := by
  obtain ⟨name, rest, rfl⟩ := List.exists_cons_of_ne_nil hne
  rw [node?, Node.find?_append] at h
  obtain ⟨m, hm, hn⟩ := Option.bind_eq_some_iff.1 h
  cases m with
  | file c => cases hn
  | folder es => exact ⟨es, hm⟩

theorem HasFolder.of_isPrefix {here there : Location} (h : d.HasFolder there)
    (hpre : here <+: there) : d.HasFolder here := by
  obtain ⟨rest, rfl⟩ := hpre
  obtain ⟨es, hes⟩ := h
  cases rest with
  | nil => exact ⟨es, by simpa using hes⟩
  | cons name rest => exact hasFolder_of_node? (List.cons_ne_nil name rest) hes

/-! ## following paths -/

/-- Goes on from a location by one piece of a path, whatever stands there. -/
def goOn (here : Location) (piece : Text) : Location :=
  if isInert piece then here else if piece = above then here.dropLast else here ++ [piece]

/-- The location that a path leads to when all folders on the way are there. -/
def target (d : Disk) (path : Text) : Location := (pieces path).foldl goOn (d.origin path)

theorem goOn_of_isName {piece : Text} (h : isNoName piece = false) (here : Location) :
    goOn here piece = here ++ [piece] := by
  simp_all [isNoName, goOn]

/-- From a folder the way goes on, unless a name is missing in it. -/
theorem step_eq_ok_iff {here there : Location} {piece : Text} :
    d.step here piece = .ok there ↔
      d.HasFolder here ∧ there = goOn here piece ∧
        (isNoName piece = false → (d.node? (here ++ [piece])).isSome) := by
  cases hnode : d.node? here with
  | none => simp [step, HasFolder, hnode]
  | some n =>
      cases n with
      | file c => simp [step, HasFolder, hnode]
      | folder es =>
          have hfolder : d.HasFolder here := ⟨es, hnode⟩
          rw [node?_append_singleton hnode, step, hnode]
          simp only [hfolder, true_and, goOn, isNoName]
          by_cases hinert : isInert piece = true
          · simpa [hinert] using eq_comm
          · by_cases habove : piece = above
            · subst habove
              simpa [show isInert above = false from rfl] using eq_comm
            · by_cases hsome : (es.lookup piece).isSome = true
              · simpa [hinert, habove, hsome] using eq_comm
              · simp [hinert, habove, hsome]

theorem eq_foldl_goOn {ps : List Text} {here there : Location}
    (h : ps.foldlM d.step here = .ok there) : there = ps.foldl goOn here := by
  induction ps generalizing here with
  | nil => exact (Except.ok.inj h).symm
  | cons p ps ih =>
      rw [List.foldlM_cons, bind_eq_ok_iff] at h
      obtain ⟨next, hstep, hrest⟩ := h
      rw [List.foldl_cons, ← (step_eq_ok_iff.1 hstep).2.1]
      exact ih hrest

theorem locate_eq_ok_iff {path : Text} {here : Location} :
    d.locate path = .ok here ↔
      checkPath path = .ok () ∧ (pieces path).foldlM d.step (d.origin path) = .ok here := by
  rw [locate, bind_eq_ok_iff]
  exact ⟨fun ⟨_, hcheck, hsteps⟩ => ⟨hcheck, hsteps⟩, fun ⟨hcheck, hsteps⟩ => ⟨_, hcheck, hsteps⟩⟩

theorem eq_target_of_locate {path : Text} {here : Location} (h : d.locate path = .ok here) :
    here = d.target path := eq_foldl_goOn (locate_eq_ok_iff.1 h).2

end Disk

/-! ## clean paths -/

theorem pieces_root (path : Text) : pieces ('/' :: path) = [] :: pieces path := by
  simp [pieces, List.splitOn_cons_eq_if_modifyHead]

theorem slash_notMem_of_mem_pieces {path p : Text} (h : p ∈ pieces path) : '/' ∉ p := by
  rw [pieces] at h
  induction path generalizing p with
  | nil =>
      rw [List.splitOn_nil, List.mem_singleton] at h
      simp [h]
  | cons c path ih =>
      rw [List.splitOn_cons_eq_if_modifyHead] at h
      split at h
      · rcases List.mem_cons.1 h with rfl | h
        · exact List.not_mem_nil
        · exact ih h
      · rename_i hc
        rcases Text.mem_modifyHead h with h | ⟨q, hq, rfl⟩
        · exact ih h
        · rw [List.mem_cons, not_or]
          exact ⟨fun h => hc (by simp [← h]), ih hq⟩

/-- The names on the stack of a path that is being cleaned stand on those of folders above. -/
def Stacked (names : List Text) : Prop :=
  ∃ (downs : List Text) (ups : Nat), names = downs ++ List.replicate ups above ∧
    ∀ n ∈ downs, Disk.isNoName n = false

theorem Stacked.push {names : List Text} (h : Stacked names) (rooted : Bool) (piece : Text) :
    Stacked (cleanStep rooted names piece) := by
  obtain ⟨downs, ups, rfl, hdowns⟩ := h
  rw [cleanStep.eq_def]
  split
  · exact ⟨downs, ups, rfl, hdowns⟩
  · rename_i hinert
    split
    · cases downs with
      | nil =>
          cases ups with
          | zero =>
              cases rooted with
              | true => exact ⟨[], 0, rfl, hdowns⟩
              | false => exact ⟨[], 1, rfl, hdowns⟩
          | succ ups => exact ⟨[], ups + 2, rfl, hdowns⟩
      | cons name downs =>
          obtain ⟨hname, hdowns⟩ := List.forall_mem_cons.1 hdowns
          have hne : name ≠ above := by
            rintro rfl
            cases hname
          simp only [List.cons_append, if_neg hne]
          exact ⟨downs, ups, rfl, hdowns⟩
    · rename_i hup
      refine ⟨piece :: downs, ups, rfl, List.forall_mem_cons.2 ⟨?_, hdowns⟩⟩
      simp [Disk.isNoName, hinert, hup]

theorem stacked_foldl_cleanStep (rooted : Bool) (ps : List Text) :
    Stacked (ps.foldl (cleanStep rooted) []) := by
  have hrun : ∀ names, Stacked names → Stacked (ps.foldl (cleanStep rooted) names) := by
    induction ps with
    | nil => exact fun _ h => h
    | cons p ps ih => exact fun names h => ih _ (h.push rooted p)
  exact hrun [] ⟨[], 0, rfl, by simp⟩

theorem mem_of_mem_foldl_cleanStep {rooted : Bool} {ps names : List Text} {n : Text}
    (h : n ∈ ps.foldl (cleanStep rooted) names) : n ∈ ps ∨ n ∈ names ∨ n = above := by
  induction ps generalizing names with
  | nil => exact .inr (.inl h)
  | cons p ps ih =>
      rcases ih h with h | h | h
      · exact .inl (List.mem_cons_of_mem p h)
      · rw [cleanStep.eq_def] at h
        grind
      · exact .inr (.inr h)

/-- In a clean path no folder above is named behind another name. -/
theorem exists_pieces_clean (path : Text) : ∃ ups downs, pieces (clean path) = ups ++ downs ∧
    (∀ p ∈ ups, Disk.isNoName p = true) ∧ ∀ p ∈ downs, Disk.isNoName p = false := by
  obtain ⟨downs, k, hnames, hdowns⟩ :=
    stacked_foldl_cleanStep (isAbsolute path) (pieces path)
  have hslash : ∀ n ∈ (downs ++ List.replicate k above).reverse, '/' ∉ n := by
    intro n hn
    rw [← hnames, List.mem_reverse] at hn
    rcases mem_of_mem_foldl_cleanStep hn with hn | hn | rfl
    · exact slash_notMem_of_mem_pieces hn
    · cases hn
    · decide
  have hups : ∀ p ∈ List.replicate k above, Disk.isNoName p = true := fun p hp =>
    List.eq_of_mem_replicate hp ▸ rfl
  have hdowns : ∀ p ∈ downs.reverse, Disk.isNoName p = false := fun p hp =>
    hdowns p (List.mem_reverse.1 hp)
  have hsplit (hne : (downs ++ List.replicate k above).reverse ≠ []) :
      pieces (List.intercalate ['/'] (downs ++ List.replicate k above).reverse) =
        List.replicate k above ++ downs.reverse := by
    rw [pieces, List.splitOn_intercalate '/' hslash hne, List.reverse_append,
      List.reverse_replicate]
  rw [clean, hnames]
  by_cases hne : (downs ++ List.replicate k above).reverse = []
  · rw [hne]
    split
    · exact ⟨[[], []], [], rfl, by decide, by simp⟩
    · exact ⟨[['.']], [], rfl, by decide, by simp⟩
  · split
    · refine ⟨[] :: List.replicate k above, downs.reverse, ?_, ?_, hdowns⟩
      · rw [pieces_root, hsplit hne, List.cons_append]
      · exact List.forall_mem_cons.2 ⟨rfl, hups⟩
    · rw [if_neg (mt List.isEmpty_iff.1 hne)]
      exact ⟨List.replicate k above, downs.reverse, hsplit hne, hups, hdowns⟩

namespace Disk

variable {d : Disk}

/-- Pieces that are no names lead from a folder to a folder above it. -/
theorem foldlM_step_ups {ups : List Text} (hups : ∀ p ∈ ups, isNoName p = true) {here : Location}
    (h : d.HasFolder here) :
    ups.foldlM d.step here = .ok (ups.foldl goOn here) ∧ d.HasFolder (ups.foldl goOn here) := by
  induction ups generalizing here with
  | nil => exact ⟨rfl, h⟩
  | cons p ups ih =>
      obtain ⟨hp, hups⟩ := List.forall_mem_cons.1 hups
      have hstep : d.step here p = .ok (goOn here p) :=
        step_eq_ok_iff.2 ⟨h, rfl, fun hname => by simp [hp] at hname⟩
      have hnext : d.HasFolder (goOn here p) := by
        refine h.of_isPrefix ?_
        rw [goOn]
        split
        · exact List.prefix_rfl
        · rename_i hinert
          have habove : p = above := by simpa [isNoName, hinert] using hp
          rw [if_pos habove]
          exact List.dropLast_prefix here
      obtain ⟨hsteps, hlast⟩ := ih hups hnext
      rw [List.foldlM_cons, bind_eq_ok_iff]
      exact ⟨⟨_, hstep, hsteps⟩, hlast⟩

theorem foldl_goOn_downs {downs : List Text} (hdowns : ∀ p ∈ downs, isNoName p = false)
    (here : Location) : downs.foldl goOn here = here ++ downs := by
  induction downs generalizing here with
  | nil => simp
  | cons p downs ih =>
      obtain ⟨hp, hdowns⟩ := List.forall_mem_cons.1 hdowns
      rw [List.foldl_cons, goOn_of_isName hp, ih hdowns, List.append_assoc, List.singleton_append]

/-- Names lead to what stands at the location that they make. -/
theorem foldlM_step_downs {downs : List Text} (hdowns : ∀ p ∈ downs, isNoName p = false)
    {here : Location} {n : Node} (h : d.node? (here ++ downs) = some n) :
    downs.foldlM d.step here = .ok (here ++ downs) := by
  induction downs generalizing here with
  | nil =>
      rw [List.append_nil]
      rfl
  | cons p downs ih =>
      obtain ⟨hp, hdowns⟩ := List.forall_mem_cons.1 hdowns
      have hrest : d.node? (here ++ [p] ++ downs) = some n := by
        rwa [List.append_assoc, List.singleton_append]
      have hnext : (d.node? (here ++ [p])).isSome = true := by
        rw [node?, Node.find?_append] at hrest
        exact Option.isSome_iff_exists.2 ((Option.bind_eq_some_iff.1 hrest).imp fun _ => And.left)
      have hfolder : d.HasFolder here := hasFolder_of_node? (List.cons_ne_nil p downs) h
      have hstep : d.step here p = .ok (here ++ [p]) :=
        step_eq_ok_iff.2 ⟨hfolder, (goOn_of_isName hp here).symm, fun _ => hnext⟩
      rw [List.foldlM_cons, bind_eq_ok_iff]
      exact ⟨_, hstep, by simpa using ih hdowns hrest⟩

/-- The folder at a clean path is the one at its target. -/
theorem folder?_clean (hwork : d.HasFolder d.workplace) {path : Text}
    (hcheck : checkPath (clean path) = .ok ()) :
    d.folder? (clean path) = (d.node? (d.target (clean path))).bind Node.entries? := by
  obtain ⟨ups, downs, hpieces, hups, hdowns⟩ := exists_pieces_clean path
  have horigin : d.HasFolder (d.origin (clean path)) := by
    rw [origin]
    split
    · exact hwork.of_isPrefix List.nil_prefix
    · exact hwork
  obtain ⟨hstep, _⟩ := foldlM_step_ups hups horigin
  have htarget : d.target (clean path) = ups.foldl goOn (d.origin (clean path)) ++ downs := by
    rw [target, hpieces, List.foldl_append, foldl_goOn_downs hdowns]
  rw [folder?]
  cases hnode : d.node? (d.target (clean path)) with
  | none =>
      cases hlocate : d.locate (clean path) with
      | error e => rfl
      | ok here =>
          rw [eq_target_of_locate hlocate]
          simp only [hnode]
          rfl
  | some n =>
      have hlocate : d.locate (clean path) = .ok (d.target (clean path)) := by
        rw [htarget] at hnode
        refine locate_eq_ok_iff.2 ⟨hcheck, ?_⟩
        rw [hpieces, htarget, List.foldlM_append, bind_eq_ok_iff]
        exact ⟨_, hstep, foldlM_step_downs hdowns hnode⟩
      rw [hlocate]
      simp only [hnode]
      cases n <;> rfl

end Disk

end ImportWatch
