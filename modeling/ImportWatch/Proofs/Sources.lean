import ImportWatch.Proofs.Additions
import ImportWatch.Proofs.LineReader
import ImportWatch.Proofs.TreeLayout
import Mathlib.Data.List.Forall2

/-!
# ImportWatch.Proofs.Sources

Source texts that are written from use-trees, and what a scan finds in them.

* `Run` is a series of statements, each of which starts on the line that the
  one before it ends on; `Block` is a run or a line of its own that starts no
  statement, and `sourceText` writes blocks behind one another;
* `placed` lists the statements of a source with the lines that they start on;
* `readLines_sourceText`: exactly these statements are read, and each of them
  is expanded to its imports;
* `Watchlist.leads` are the watched prefixes of a path, and
  `UseStatement.findings` and `UseStatement.ambiguities` what the imports of a
  statement call for;
* `addSource_sourceText`: a scan records every import of a watched module.
-/

namespace ImportWatch

open Text

/-! ## sources -/

/-- Statements that share lines: each one starts behind the terminator of the one before it. -/
inductive Run where
  | last (s : UseStatement) (stop : LineEnd)
  | next (s : UseStatement) (blanks : Blanks) (rest : Run)

namespace Run

/-- A run as it is written. -/
def text : Run → Text
  | last s stop => s.text ++ stop.text
  | next s blanks rest => s.text ++ (blanks.text ++ rest.text)

/-- The statements of a run that starts on line `n`, each with the line that it starts on. -/
def placed (n : Nat) : Run → List (Nat × UseStatement)
  | last s _ => [(n, s)]
  | next s _ rest => (n, s) :: placed (n + s.text.count '\n') rest

end Run

/-- A part of a source between line feeds. -/
inductive Block where
  /-- A line that starts no statement. -/
  | other (line : Text) (h : '\n' ∉ line) (hs : startsStatement line = false)
  | run (r : Run)

namespace Block

/-- A block as it is written. -/
def text : Block → Text
  | other line _ _ => line
  | run r => r.text

/-- The statements of a block that starts on line `n`. -/
def placed (n : Nat) : Block → List (Nat × UseStatement)
  | other .. => []
  | run r => r.placed n

end Block

/-- The text of some blocks, with line feeds between them. -/
def sourceText (bs : List Block) : Text := List.intercalate ['\n'] (bs.map Block.text)

/-- The statements of some blocks, the first of which starts on line `n`. -/
def placed (n : Nat) : List Block → List (Nat × UseStatement)
  | [] => []
  | b :: bs => b.placed n ++ placed (n + b.text.count '\n' + 1) bs

/-! ## statements have no visible terminator before their end -/

theorem Unended.cons {c : Char} (hc : c ≠ '/' ∧ c ≠ terminator ∧ c ≠ '\n') {u : Text}
    (hu : Unended u) : Unended (c :: u) := by
  have hbare : Bare [c] := by
    intro d hd
    rw [List.mem_singleton.1 hd]
    exact hc
  exact (Unended.bare hbare).append hu

theorem unended_nil : Unended [] := .bare fun _ h => by cases h

theorem Filler.unended_text (f : Filler) : Unended f.text := by
  cases f with
  | blank c h =>
      by_cases hc : c = '\n'
      · subst hc
        exact .line List.not_mem_nil rfl unended_nil
      · refine Unended.cons ⟨?_, ?_, hc⟩ unended_nil
        · rintro rfl
          cases h
        · rintro rfl
          cases h
  | comment words h =>
      have hline : '\n' ∉ '/' :: '/' :: words := by simpa using h
      exact .line hline rfl unended_nil

theorem Gap.unended_text (g : Gap) : Unended g.text := by
  induction g with
  | nil => exact unended_nil
  | cons f g ih =>
      rw [Gap.text, List.flatMap_cons]
      exact f.unended_text.append ih

theorem Segment.unended_text (n : Segment) : Unended n.text := by
  refine .bare fun c hc => ?_
  obtain ⟨hblank, _, _, _, _, hterm, hslash⟩ := isSegmentChar_iff.1 (n.plain c hc)
  refine ⟨hslash, hterm, ?_⟩
  rintro rfl
  cases hblank

mutual
theorem UseTree.unended_text : (t : UseTree) → Unended t.text
  | .leaf name => name.unended_text
  | .renamed name before _ after _ newName => by
      have hnew := (Gap.unended_text after).append newName.unended_text
      have has : Unended ('a' :: 's' :: (after.text ++ newName.text)) :=
        Unended.cons (by decide) (Unended.cons (by decide) hnew)
      exact name.unended_text.append ((Gap.unended_text before).append has)
  | .under name before after rest => by
      have hrest := (Gap.unended_text after).append rest.unended_text
      have hcolons : Unended (':' :: ':' :: (after.text ++ rest.text)) :=
        Unended.cons (by decide) (Unended.cons (by decide) hrest)
      exact name.unended_text.append ((Gap.unended_text before).append hcolons)
  | .group contents => by
      have hclose : Unended ['}'] := Unended.cons (by decide) unended_nil
      exact Unended.cons (by decide) (contents.unended_text.append hclose)

theorem Contents.unended_text : (c : Contents) → Unended c.text
  | .blank gap => Gap.unended_text gap
  | .last before tree after =>
      (Gap.unended_text before).append (tree.unended_text.append (Gap.unended_text after))
  | .skip gap rest =>
      (Gap.unended_text gap).append (Unended.cons (by decide) rest.unended_text)
  | .cons before tree after rest =>
      (Gap.unended_text before).append (tree.unended_text.append
        ((Gap.unended_text after).append (Unended.cons (by decide) rest.unended_text)))
end

namespace UseStatement

/-- What is written between the keyword and the terminator. -/
def inner (s : UseStatement) : Text :=
  s.lead.text ++ (s.rootText ++ (s.tree.text ++ s.trail.text))

variable (s : UseStatement)

theorem rest_eq_inner : s.rest = s.inner ++ [terminator] := by
  simp only [rest, inner, List.append_assoc]

theorem unended_inner : Unended s.inner := by
  have hroot : Unended s.rootText := by
    unfold rootText
    cases s.root with
    | none => exact unended_nil
    | some gap =>
        exact Unended.cons (by decide) (Unended.cons (by decide) (Gap.unended_text gap))
  exact (Gap.unended_text s.lead).append
    (hroot.append (s.tree.unended_text.append (Gap.unended_text s.trail)))

theorem count_newline_text : s.text.count '\n' = s.inner.count '\n' := by
  have hkeyword : keyword.count '\n' = 0 := by decide
  have hterm : [terminator].count '\n' = 0 := by decide
  rw [text, rest_eq_inner, List.count_append, List.count_append, hkeyword, hterm]
  omega

/-- A statement goes into a draft up to its terminator. -/
theorem readFrom_text (after : Text) (n : Nat) :
    ∃ v, SameWords v s.inner ∧ readFrom n ⟨n, []⟩ (s.text ++ after) =
      readFrom (n + s.text.count '\n') ⟨n, keyword ++ v⟩ (terminator :: after) := by
  have htext : s.text ++ after = keyword ++ (s.inner ++ terminator :: after) := by
    rw [text, rest_eq_inner]
    simp
  have hne : s.inner ++ terminator :: after ≠ [] := by simp
  have hlast : keyword.getLast? ≠ some '\r' := by decide
  obtain ⟨v, hv, hread⟩ := readFrom_unended s.unended_inner after n ⟨n, keyword⟩
  refine ⟨v, hv, ?_⟩
  rw [htext, readFrom_bare bare_keyword hne (.inl hlast), count_newline_text]
  exact hread

end UseStatement

/-! ## reading the statements -/

/-- True for a statement that is read from a use-tree on some line. -/
structure Reads (st : Statement) (p : Nat × UseStatement) : Prop where
  line : st.line = p.1
  finished : st.unfinished = false
  expanded : expand st.text = .ok ⟨p.2.oneLine, p.2.tree.leaves.map Leaf.path⟩

theorem Reads.of_sameWords {s : UseStatement} {v : Text} (hv : SameWords v s.inner) (e : LineEnd)
    (n : Nat) : Reads ⟨n, keyword ++ v ++ terminator :: e.text, false⟩ (n, s) := by
  refine ⟨rfl, rfl, ?_⟩
  have hterm : terminator ∈ v ++ terminator :: e.text := by simp
  have hwords : visibleWords (v ++ terminator :: e.text) = visibleWords (s.rest ++ e.text) := by
    rw [hv, s.rest_eq_inner, List.append_assoc, List.singleton_append]
  show expand (keyword ++ v ++ terminator :: e.text) = _
  rw [List.append_assoc]
  exact s.expand_eq e hterm hwords

/-- The end of a line with nothing in it. -/
def LineEnd.empty : LineEnd := ⟨⟨[], List.forall_mem_nil _, List.not_mem_nil⟩, none⟩

/-- What is written behind a block: nothing, or a line feed and the blocks that follow. -/
def behindText : Option Text → Text
  | none => []
  | some s => '\n' :: s

/-- What is read from the lines behind a block. -/
def readBehind (n : Nat) : Option Text → List Statement
  | none => []
  | some s => readLines none n (lines s)

theorem UseStatement.exists_text (s : UseStatement) : ∃ t, t ≠ [] ∧ s.text = keyword ++ t := by
  refine ⟨s.rest, ?_, rfl⟩
  rw [s.rest_eq_inner]
  exact List.concat_ne_nil terminator s.inner

theorem Run.exists_text (r : Run) : ∃ t, t ≠ [] ∧ r.text = keyword ++ t := by
  have happend (s : UseStatement) (t : Text) : ∃ u, u ≠ [] ∧ s.text ++ t = keyword ++ u := by
    obtain ⟨u, hu, hs⟩ := s.exists_text
    exact ⟨u ++ t, by simp [hu], by rw [hs, List.append_assoc]⟩
  cases r with
  | last s stop => exact happend s stop.text
  | next s blanks rest => exact happend s (blanks.text ++ rest.text)

/-- The statements of a run are read, and then what stands behind it. -/
theorem Run.readFrom_text (r : Run) (behind : Option Text) (n : Nat) :
    ∃ sts, List.Forall₂ Reads sts (r.placed n) ∧
      readFrom n ⟨n, []⟩ (r.text ++ behindText behind) =
        sts ++ readBehind (n + r.text.count '\n' + 1) behind := by
  induction r generalizing n with
  | last s stop =>
      obtain ⟨v, hv, hread⟩ := s.readFrom_text (stop.text ++ behindText behind) n
      have hcount : (Run.last s stop).text.count '\n' = s.text.count '\n' := by
        have hstop := List.count_eq_zero.2 stop.newline_notMem
        rw [List.count_cons_of_ne (by decide)] at hstop
        rw [text, List.count_append, hstop, Nat.add_zero]
      rw [hcount, text, List.append_assoc, hread]
      cases behind with
      | none =>
          refine ⟨[_], .cons (Reads.of_sameWords hv stop n) .nil, ?_⟩
          rw [behindText, List.append_nil, readFrom_end]
          rfl
      | some rest =>
          obtain ⟨e, he⟩ := readFrom_stop stop rest (n + s.text.count '\n') ⟨n, keyword ++ v⟩
          exact ⟨[_], .cons (Reads.of_sameWords hv e n) .nil, he⟩
  | next s blanks rest ih =>
      obtain ⟨v, hv, hread⟩ := s.readFrom_text (blanks.text ++ (rest.text ++ behindText behind)) n
      obtain ⟨sts, hsts, hrest⟩ := ih (n + s.text.count '\n')
      obtain ⟨t, ht, hkeyword⟩ := rest.exists_text
      have hne : t ++ behindText behind ≠ [] := by simp [ht]
      -- the next statement starts on the line on which the terminator stands
      have hnext := readFrom_next blanks hne (n + s.text.count '\n') ⟨n, keyword ++ v⟩
      rw [← List.append_assoc keyword, ← hkeyword, hrest] at hnext
      have hcount : (Run.next s blanks rest).text.count '\n' =
          s.text.count '\n' + rest.text.count '\n' := by
        have hblanks := List.count_eq_zero.2 blanks.newline_notMem
        rw [text, List.count_append, List.count_append, hblanks, Nat.zero_add]
      refine ⟨_ :: sts, .cons (Reads.of_sameWords hv .empty n) hsts, ?_⟩
      rw [text, List.append_assoc, List.append_assoc, hread, hnext, ← text, hcount, ← Nat.add_assoc]
      rfl

/-- The statements of a block are read, and then what stands behind it. -/
theorem Block.readLines_text (b : Block) (behind : Option Text) (n : Nat) :
    ∃ sts, List.Forall₂ Reads sts (b.placed n) ∧
      readLines none n (lines (b.text ++ behindText behind)) =
        sts ++ readBehind (n + b.text.count '\n' + 1) behind := by
  cases b with
  | other line h hs =>
      have hcount : line.count '\n' = 0 := List.count_eq_zero.2 h
      refine ⟨[], .nil, ?_⟩
      rw [text, hcount, List.nil_append, Nat.add_zero]
      cases behind with
      | none =>
          rw [behindText, List.append_nil]
          by_cases hne : line = []
          · rw [hne]
            rfl
          · rw [lines_end h hne, readLines_other hs]
            rfl
      | some rest =>
          have hdrop := startsStatement_dropCarriageReturn hs
          rw [behindText, lines_line h, readLines_other hdrop]
          rfl
  | run r =>
      obtain ⟨t, ht, hkeyword⟩ := r.exists_text
      have hne : t ++ behindText behind ≠ [] := by simp [ht]
      have hstart := readLines_starting n hne
      rw [← List.append_assoc, ← hkeyword] at hstart
      rw [text, hstart]
      exact r.readFrom_text behind n

/-- Exactly the statements that a source is written from are read. -/
theorem readLines_sourceText (bs : List Block) (n : Nat) :
    List.Forall₂ Reads (readLines none n (lines (sourceText bs))) (placed n bs) := by
  induction bs generalizing n with
  | nil => exact .nil
  | cons b bs ih =>
      have hbehind : ∃ behind, sourceText (b :: bs) = b.text ++ behindText behind ∧
          List.Forall₂ Reads (readBehind (n + b.text.count '\n' + 1) behind)
            (placed (n + b.text.count '\n' + 1) bs) := by
        cases bs with
        | nil => exact ⟨none, by simp [sourceText, behindText], .nil⟩
        | cons c cs =>
            refine ⟨some (sourceText (c :: cs)), ?_, ih _⟩
            rw [sourceText, List.map_cons, List.map_cons, List.intercalate_cons_cons,
              List.append_assoc]
            rfl
      obtain ⟨behind, htext, hrest⟩ := hbehind
      obtain ⟨sts, hsts, hread⟩ := b.readLines_text behind n
      rw [htext, hread, placed]
      exact List.rel_append hsts hrest

/-! ## what a scan finds -/

/-- The watched prefixes of a path, in the order of the watchlist. -/
def Watchlist.leads (watch : Watchlist) (path : ModulePath) : List Pattern :=
  watch.patterns.filter fun w => w.segments <+: path.segments

theorem Watchlist.covering_eq_leads (watch : Watchlist) (path : ModulePath) :
    watch.covering path = watch.leads path :=
  List.filter_congr fun w _ => by
    rw [Bool.eq_iff_iff, decide_eq_true_iff]
    exact path.startsWith_iff w.segments

/-- The findings that the imports of a statement call for, from left to right: one for each import
whose path has a watched prefix, labelled by the first of its prefixes. -/
def UseStatement.findings (watch : Watchlist) (package file : Text) (line : Nat)
    (s : UseStatement) : List Finding :=
  s.tree.leaves.flatMap fun l =>
    match watch.leads l.path with
    | [] => []
    | chosen :: _ => [⟨package, chosen.text, file, line, s.oneLine, l.path⟩]

/-- The notices that the imports of a statement call for: one for each import whose path has
several watched prefixes. -/
def UseStatement.ambiguities (watch : Watchlist) (file : Text) (line : Nat) (s : UseStatement) :
    List Notice :=
  s.tree.leaves.flatMap fun l =>
    match watch.leads l.path with
    | [] | [_] => []
    | chosen :: others =>
      [.ambiguous file line s.oneLine l.path chosen.text (others.map Pattern.text)]

theorem UseStatement.findings_eq (watch : Watchlist) (package file : Text) (line : Nat)
    (s : UseStatement) : s.findings watch package file line =
      s.tree.leaves.flatMap fun l => watch.findings package file line s.oneLine l.path := by
  refine congrArg (List.flatMap · s.tree.leaves) (funext fun l => ?_)
  cases h : watch.leads l.path <;>
    simp only [Watchlist.findings, Watchlist.covering_eq_leads, h]

theorem UseStatement.ambiguities_eq (watch : Watchlist) (file : Text) (line : Nat)
    (s : UseStatement) : s.ambiguities watch file line =
      s.tree.leaves.flatMap fun l => watch.ambiguities file line s.oneLine l.path := by
  refine congrArg (List.flatMap · s.tree.leaves) (funext fun l => ?_)
  rcases h : watch.leads l.path with _ | ⟨chosen, _ | ⟨other, others⟩⟩ <;>
    simp only [Watchlist.ambiguities, Watchlist.covering_eq_leads, h]

theorem Reads.findings_eq {st : Statement} {p : Nat × UseStatement} (h : Reads st p)
    (watch : Watchlist) (package file : Text) :
    st.findings watch package file = p.2.findings watch package file p.1 := by
  rw [Statement.findings, h.expanded, UseStatement.findings_eq, h.line]
  exact List.flatMap_map ..

theorem Reads.notices_eq {st : Statement} {p : Nat × UseStatement} (h : Reads st p)
    (watch : Watchlist) (file : Text) :
    st.notices watch file = p.2.ambiguities watch file p.1 := by
  rw [Statement.notices, Statement.endNotices, h.finished, h.expanded, UseStatement.ambiguities_eq,
    h.line, if_neg (by decide), List.nil_append]
  exact List.flatMap_map ..

theorem flatMap_eq_of_reads {α : Type} {sts : List Statement} {ps : List (Nat × UseStatement)}
    (h : List.Forall₂ Reads sts ps) {f : Statement → List α} {g : Nat × UseStatement → List α}
    (hfg : ∀ st p, Reads st p → f st = g p) : sts.flatMap f = ps.flatMap g := by
  induction h with
  | nil => rfl
  | cons hread _ ih => rw [List.flatMap_cons, List.flatMap_cons, hfg _ _ hread, ih]

/-- **Every import is recorded**: a scan of a source that is written from use-trees adds one
finding for each import of a watched module, in the order of the source, and it reports no
statement as malformed or unfinished. -/
theorem addSource_sourceText (watch : Watchlist) (file : Text) (v : Survey) (bs : List Block) :
    (v.addSource watch file (sourceText bs)).findings = v.findings ++
        (placed 1 bs).flatMap (fun (line, s) => s.findings watch v.package file line) ∧
      ∃ ns, (v.addSource watch file (sourceText bs)).notices = v.notices ++ ns ∧
        ns = (placed 1 bs).flatMap (fun (line, s) => s.ambiguities watch file line) ∧
        ∀ x ∈ ns, x.kind ≠ .malformed ∧ x.kind ≠ .unfinished := by
  have hreads : List.Forall₂ Reads (Statement.ofSource (sourceText bs)) (placed 1 bs) :=
    readLines_sourceText bs 1
  have hfindings := flatMap_eq_of_reads hreads fun st p h => h.findings_eq watch v.package file
  have hnotices := flatMap_eq_of_reads hreads fun st p h => h.notices_eq watch file
  rw [Survey.addSource_eq_extend]
  refine ⟨congrArg (v.findings ++ ·) hfindings, _, congrArg (v.notices ++ ·) hnotices, rfl, ?_⟩
  intro x hx
  obtain ⟨p, _, hx⟩ := List.mem_flatMap.1 hx
  simp only [UseStatement.ambiguities_eq] at hx
  obtain ⟨l, _, hx⟩ := List.mem_flatMap.1 hx
  have hkind := Watchlist.kind_of_mem_ambiguities hx
  rw [hkind]
  decide

example :
    let segment (s : Text) (hne : s ≠ []) (h : s.all isSegmentChar = true) : Segment :=
      ⟨s, hne, List.all_eq_true.1 h⟩
    let blanks (s : Text) (h : s.all isBlank = true) (hline : '\n' ∉ s) : Blanks :=
      ⟨s, List.all_eq_true.1 h, hline⟩
    let space : Gap := [.blank ' ' rfl]
    let comment : Filler := .comment " files".toList (by decide)
    let files : UseTree := .leaf (segment ['f', 's'] (by decide) rfl)
    let net : UseTree := .renamed (segment ['n', 'e', 't'] (by decide) rfl) space (by simp [space])
      space (by simp [space]) (segment ['n'] (by decide) rfl)
    let group : UseTree := .under (segment ['s', 't', 'd'] (by decide) rfl) [] []
      (.group (.cons [] files [] (.last (comment :: space) net [])))
    sourceText [.other "mod a;".toList (by decide) rfl,
        .run (.next ⟨[], none, group, [], by decide⟩ (blanks [] rfl (by decide))
          (.last ⟨[], some [], files, space, by decide⟩ ⟨blanks [' '] rfl (by decide), none⟩))] =
      "mod a;\nuse std::\x7bfs,// files\n net as n\x7d;use ::fs ; ".toList := by
  rfl

end ImportWatch
