import Loon.Proofs.DefinitionOrder
import Loon.Proofs.Reading.Frame
import Loon.Proofs.Reading.Registry
import Loon.Proofs.Visibility

namespace Loon

def Statement.AreComplete (statements : List Statement) : Prop :=
  statements.foldl leavesOpen false = false

instance (statements : List Statement) : Decidable (Statement.AreComplete statements) :=
  inferInstanceAs (Decidable (_ = _))

namespace Document

variable {d d' other other' : Document}

theorem Alike.apart_iff (hd : d.Alike d') (hother : other.Alike other') :
    d.Apart other ↔ d'.Apart other' := by
  rw [Apart, Apart, hd.names, hother.names]

theorem Alike.append (hd : d.Alike d') (hother : other.Alike other') :
    (d.append other).Alike (d'.append other') :=
  ⟨hd.labels.append hother.labels, hd.hidden.append hother.hidden⟩

theorem Apart.adopt (h : d.Apart other) (hdistinct : other.Distinct) :
    d.adopt other = d.append other := by
  rw [adopt_of_apart h.symm, Mapping.ofList_of_distinct hdistinct.labels,
    Mapping.ofList_of_distinct hdistinct.hidden]
  rfl

end Document

namespace Draft

variable {importer : Importer} {source : Source} {d d' : Draft} {s s' : Session} {line : Line}
variable {lines : List Line}

theorem isSome_current_step (h : d.step importer source s line = (.ok d', s')) :
    d'.current.isSome = Statement.leavesOpen d.current.isSome line.statement := by
  cases step_eq_ok.1 h with
  | openLabel hstatement => simp [hstatement, Statement.leavesOpen]
  | closeLabel hstatement => simp [hstatement, Statement.leavesOpen]
  | openSpace hstatement hlabel => simp [hstatement, hlabel, Statement.leavesOpen]
  | closeSpace hstatement hlabel => simp [hstatement, hlabel, Statement.leavesOpen]
  | imports hstatement =>
    obtain ⟨document, current⟩ := d
    cases current <;> simp [hstatement, takeIn, Statement.leavesOpen]
  | writes hwrites hput =>
    obtain ⟨label, label', hlabel, _, rfl⟩ := put_eq_ok.1 hput
    generalize line.statement = statement at hwrites ⊢
    cases hwrites <;> simp [hlabel, Statement.leavesOpen]

theorem isSome_current_run (h : d.run importer source lines s = (none, d', s')) :
    d'.current.isSome =
      (lines.map Line.statement).foldl Statement.leavesOpen d.current.isSome := by
  induction lines generalizing d s with
  | nil =>
    cases h
    rfl
  | cons line lines ih =>
    obtain ⟨d₁, s₁, hstep, hrest⟩ := run_cons_eq_none.1 h
    rw [ih hrest, isSome_current_step hstep]
    rfl

end Draft

namespace FileTree

variable {t : FileTree} {fileName target before blocks after : String}

variable (t fileName) in
/-- Whole labels without imports that are read by themselves, to names that what is before them
does not bind. -/
structure Movable (before blocks : String) : Prop where
  whole : Source.IsWhole before
  complete : Statement.AreComplete (statementsOf before)
  noImports : ∀ target, .importFile target ∉ statementsOf blocks
  reads : ∃ d, (t.readDocument blocks fileName).1 = .ok d
  apart : (t.documentOf fileName before).Apart (t.documentOf fileName blocks)

variable (t fileName) in
/-- A file with some content that a target names in a source, other than the source itself. -/
structure Offers (target content : String) : Prop where
  line : Line.Says ("@" ++ target) (.importFile target)
  found : ∃ l, t.findTarget (Path.ofText (t.absolute fileName)) target = .ok l ∧
    (t.canonical (t.absolute fileName)).isAt l = false ∧ t.read l = .ok content

section Runs

variable {source : Source} {lines : List Line} {D : Document} {s s' : Session}

theorem statements_of_alike {lines' : List Line} (h : List.Forall₂ Line.Alike lines lines') :
    lines.map Line.statement = lines'.map Line.statement := by
  induction h with
  | nil => rfl
  | cons hline _ ih => rw [List.map_cons, List.map_cons, hline.statement, ih]

theorem noImports_of_alike (hnone : ∀ target, .importFile target ∉ statementsOf blocks)
    (hlines : List.Forall₂ Line.Alike (t.linesOf fileName blocks) lines) :
    ∀ line ∈ lines, ∀ target, line.statement ≠ .importFile target := by
  intro line hline target hstatement
  have hmem : line.statement ∈ lines.map Line.statement := List.mem_map_of_mem hline
  rw [← statements_of_alike hlines, hstatement] at hmem
  exact hnone target hmem

theorem Movable.run_before (h : t.Movable fileName before blocks) {d : Draft}
    (hname : source.name = t.absolute fileName)
    (hlines : List.Forall₂ Line.Alike (t.linesOf fileName before) lines)
    (hrun : Draft.run (t.importer [t.canonical (t.absolute fileName)]) source lines .empty s =
      (none, d, s')) :
    ∃ D, d = ⟨D, none⟩ ∧ D.names = (t.documentOf fileName before).names := by
  obtain ⟨D, current⟩ := d
  have hopen := Draft.isSome_current_run hrun
  rw [← statements_of_alike hlines] at hopen
  obtain rfl : current = none := Option.not_isSome_iff_eq_none.1 (by
    rw [hopen]
    exact Bool.eq_false_iff.1 h.complete)
  obtain ⟨E, s₁, hreads, hE⟩ := alike_run ⟨t.absolute fileName, before⟩ hname
    (Line.forall₂_alike_symm hlines) Document.alike_empty hrun .empty
  refine ⟨D, rfl, ?_⟩
  rw [documentOf, readDocument_eq_ok.2 ⟨s₁, hreads⟩]
  exact hE.names

theorem Movable.run_blocks (h : t.Movable fileName before blocks)
    (hname : source.name = t.absolute fileName)
    (hlines : List.Forall₂ Line.Alike (t.linesOf fileName blocks) lines)
    (hD : D.names = (t.documentOf fileName before).names) (s : Session) :
    ∃ d s₁, D.Apart d ∧
      Draft.run (t.importer [t.canonical (t.absolute fileName)]) source lines .empty s =
        (none, ⟨d, none⟩, s₁) ∧
      Draft.run (t.importer [t.canonical (t.absolute fileName)]) source lines ⟨D, none⟩ s =
        (none, ⟨D.append d, none⟩, s₁) := by
  obtain ⟨E, hE⟩ := h.reads
  obtain ⟨s₀, hreads⟩ := readDocument_eq_ok.1 hE
  obtain ⟨d, s₁, hrun, hEd⟩ := alike_run source hname.symm hlines Document.alike_empty hreads s
  have hdocument : t.documentOf fileName blocks = E := by
    rw [documentOf, hE]
    rfl
  have hapart : D.Apart d := by
    have := h.apart
    rwa [Document.Apart, ← hD, hdocument, hEd.names] at this
  -- They look up no names but their own, so it makes no difference that others are before them.
  have hframe := Draft.run_frame (noImports_of_alike h.noImports hlines) hrun hapart
  rw [D.append_empty] at hframe
  exact ⟨d, s₁, hapart, hrun, hframe⟩

theorem Movable.import_blocks (h : t.Movable fileName before blocks)
    (hoffers : t.Offers fileName target blocks) {place : Place} {d : Document} {s₁ : Session}
    (hname : place.source.name = t.absolute fileName)
    (hlines : List.Forall₂ Line.Alike (t.linesOf fileName blocks) lines)
    (hrun : Draft.run (t.importer [t.canonical (t.absolute fileName)]) source lines .empty s =
      (none, ⟨d, none⟩, s₁)) (hs : Mapping.Alike s.spaces s'.spaces) :
    ∃ d' s₁', t.importer [t.canonical (t.absolute fileName)] target place s' = (.ok d', s₁') ∧
      d.Alike d' ∧ Mapping.Alike s₁.spaces s₁'.spaces := by
  obtain ⟨l, hfind, hother, hread⟩ := hoffers.found
  rw [← hname] at hfind
  let chain := [t.canonical (t.absolute fileName)]
  let file := sourceAt l blocks
  let s₂ := s'.note [.importStarted (Path.ofLocation l).text]
  -- The file has another name and a longer chain, which only imports would depend on.
  have hend : Draft.EndAlike (Draft.run (t.importer chain) source lines .empty s)
      (Draft.run (t.importer (chain ++ [Path.ofLocation l])) file file.lines .empty s₂) :=
    Draft.alike_empty.run_endAlike
      (Draft.importsEndAlike_of_noImports (noImports_of_alike h.noImports hlines))
      (Line.forall₂_alike_symm hlines) hs
  rw [hrun] at hend
  generalize hfile : Draft.run (t.importer (chain ++ [Path.ofLocation l])) file file.lines .empty s₂ = x
    at hend
  obtain ⟨e, ⟨d', current⟩, s₁'⟩ := x
  obtain ⟨herror, ⟨hd, hcurrent⟩, hspaces⟩ := hend
  cases herror
  cases hcurrent
  have hnew : chain.any (·.isAt l) = false := by simpa [chain] using hother
  exact ⟨d', _, importer_of_reads hfind hnew hread hfile, hd, hspaces⟩

theorem Movable.endAlike_blocks (h : t.Movable fileName before blocks)
    (hoffers : t.Offers fileName target blocks) {source' : Source} {line : Line} {D' : Document}
    (hname : source.name = t.absolute fileName) (hname' : source'.name = t.absolute fileName)
    (hlines : List.Forall₂ Line.Alike (t.linesOf fileName blocks) lines)
    (hline : line.statement = .importFile target)
    (hnames : D.names = (t.documentOf fileName before).names) (hD : D.Alike D')
    (hs : Mapping.Alike s.spaces s'.spaces) :
    Draft.EndAlike
      (Draft.run (t.importer [t.canonical (t.absolute fileName)]) source lines ⟨D, none⟩ s)
      (Draft.run (t.importer [t.canonical (t.absolute fileName)]) source' [line] ⟨D', none⟩ s') := by
  obtain ⟨d, s₁, hapart, halone, hinline⟩ := h.run_blocks hname hlines hnames s
  have hplace : Source.name (Place.source ⟨source', line.span⟩) = t.absolute fileName := hname'
  obtain ⟨d', s₁', himport, hd, hspaces⟩ := h.import_blocks hoffers hplace hlines halone hs
  have hadopt : D'.adopt d' = D'.append d' :=
    ((hD.apart_iff hd).1 hapart).adopt (t.importer_distinct _ (Prod.ext_iff.1 himport).1)
  have hstep := Draft.step_eq_ok.2 (.imports (d := ⟨D', none⟩) hline himport)
  rw [hinline, Draft.run_cons_eq_none.2 ⟨_, _, hstep, rfl⟩]
  refine ⟨.none, ⟨?_, .none⟩, hspaces⟩
  change (D.append d).Alike (D'.adopt d')
  rw [hadopt]
  exact hD.append hd

end Runs

theorem exists_lines_of_parts (name : String) {middle : String} (hbefore : Source.IsWhole before)
    (hmiddle : Source.IsWhole middle ∨ after = "") :
    ∃ first inner last, Source.lines ⟨name, before ++ middle ++ after⟩ = first ++ (inner ++ last) ∧
      first.map Line.content = (Source.lines ⟨name, before⟩).map Line.content ∧
      inner.map Line.content = (Source.lines ⟨name, middle⟩).map Line.content ∧
      last.map Line.content = (Source.lines ⟨name, after⟩).map Line.content := by
  have hstarts : Source.IsWhole before ∨ middle ++ after = "" := .inl hbefore
  have hlines := Source.map_content_append name hstarts
  rw [List.map_append, List.map_eq_append_iff, ← String.append_assoc] at hlines
  obtain ⟨first, rest, hlines, hfirst, hrest⟩ := hlines
  rw [Source.map_content_append name hmiddle, List.map_append, List.map_eq_append_iff] at hrest
  obtain ⟨inner, last, rfl, hinner, hlast⟩ := hrest
  exact ⟨first, inner, last, hlines, hfirst, hinner, hlast⟩

theorem Movable.endAlike_readDocument (h : t.Movable fileName before blocks)
    (hoffers : t.Offers fileName target blocks) (hends : Source.IsWhole blocks ∨ after = "") :
    Importer.EndAlike (t.readDocument (before ++ blocks ++ after) fileName)
      (t.readDocument (before ++ ("@" ++ target ++ "\n") ++ after) fileName) := by
  have himport : Source.IsWhole ("@" ++ target ++ "\n") ∨ after = "" := .inl (.inr ⟨_, rfl⟩)
  have hempty : Mapping.Alike Session.empty.spaces Session.empty.spaces := .nil
  obtain ⟨first, inner, last, hlines, hfirst, hinner, hlast⟩ :=
    exists_lines_of_parts (t.absolute fileName) h.whole hends
  obtain ⟨first', inner', last', hlines', hfirst', hinner', hlast'⟩ :=
    exists_lines_of_parts (t.absolute fileName) h.whole himport
  rw [hoffers.line.map_content] at hinner'
  obtain ⟨line, nothing, rfl, hline, hnothing⟩ := List.map_eq_cons_iff.1 hinner'
  obtain rfl := List.map_eq_nil_iff.1 hnothing
  refine FileTree.endAlike_readDocument ?_
  rw [hlines, hlines']
  have hfirsts := Line.forall₂_alike_of_content (hfirst.trans hfirst'.symm)
  refine (Draft.alike_empty.run_endAlike (importsEndAlike _ _ _ _ _) hfirsts hempty).append ?_
  intro d s d' s' hrun _ hd hs
  obtain ⟨D, rfl, hnames⟩ :=
    h.run_before rfl (Line.forall₂_alike_of_content hfirst.symm) hrun
  obtain ⟨D', current'⟩ := d'
  obtain ⟨hD, hcurrent⟩ := hd
  cases hcurrent
  -- No label is open here, so the import joins what the labels join in its place.
  refine (h.endAlike_blocks hoffers rfl rfl (Line.forall₂_alike_of_content hinner.symm)
    (Prod.ext_iff.1 hline).1 hnames hD hs).append ?_
  intro d s d' s' _ _ hd hs
  have hlasts := Line.forall₂_alike_of_content (hlast.trans hlast'.symm)
  exact hd.run_endAlike (importsEndAlike _ _ _ _ _) hlasts hs

/-- Moving labels into a file of their own changes nothing: with an import in their place, the labels
are evaluated to the same, and the spaces that reading closes are the same but for where references
were written. -/
theorem labelsOf_moved (h : t.Movable fileName before blocks)
    (hoffers : t.Offers fileName target blocks) (hends : Source.IsWhole blocks ∨ after = "") :
    (∀ R, t.labelsOf (before ++ blocks ++ after) fileName = .ok R ↔
      t.labelsOf (before ++ ("@" ++ target ++ "\n") ++ after) fileName = .ok R) ∧
    Mapping.Alike (t.readDocument (before ++ blocks ++ after) fileName).2.spaces
      (t.readDocument (before ++ ("@" ++ target ++ "\n") ++ after) fileName).2.spaces := by
  obtain ⟨hresult, hspaces⟩ := h.endAlike_readDocument hoffers hends
  refine ⟨fun R => ?_, hspaces⟩
  rw [labelsOf, labelsOf]
  generalize (t.readDocument (before ++ blocks ++ after) fileName).1 = x,
    (t.readDocument (before ++ ("@" ++ target ++ "\n") ++ after) fileName).1 = y at hresult ⊢
  cases hresult with
  | ok hd => exact hd.resolvedLabels_eq_ok R
  | error _ => simp

theorem labelsOf_moved_redefined :
    let blocks := "(base)\nk = 1\nend\n(copy)\n:net\n-> base.k\nend:\n$base = [late.k]\nend\n" ++
      "%(base)\nend" ++ "\n"
    let t : FileTree := ⟨[], [(["b.loon"], .text blocks)]⟩
    let before := "(app)\nk = [copy.base]\nend" ++ "\n"
    let after := "(late)\nk = 2\n-> copy.net\nend\n"
    t.Movable "main.loon" before blocks ∧ t.Offers "main.loon" "b.loon" blocks ∧
      (∃ R, t.labelsOf (before ++ blocks ++ after) "main.loon" = .ok R ∧
        t.labelsOf (before ++ ("@" ++ "b.loon" ++ "\n") ++ after) "main.loon" = .ok R ∧
        Mapping.keys R = ["app", "copy", "late"]) ∧
      Mapping.Alike (t.readDocument (before ++ blocks ++ after) "main.loon").2.spaces
        (t.readDocument (before ++ ("@" ++ "b.loon" ++ "\n") ++ after) "main.loon").2.spaces := by
  intro blocks t before after
  have hnames : (t.documentOf "main.loon" before).names = ["app"] ∧
      (t.documentOf "main.loon" blocks).names = ["copy", "base"] := by decide +kernel
  have hblocks : statementsOf blocks = [.openLabel "base" false, .assign "k" "1", .closeLabel,
      .openLabel "copy" false, .openSpace "net", .inject "base.k" false, .closeSpace,
      .assign "$base" "[late.k]", .closeLabel, .openLabel "base" true, .closeLabel] := by
    decide +kernel
  have hmovable : t.Movable "main.loon" before blocks :=
    { whole := .inr ⟨_, rfl⟩
      complete := by decide +kernel
      noImports := by simp [hblocks]
      reads := by
        cases hread : (t.readDocument blocks "main.loon").1 with
        | ok d => exact ⟨d, rfl⟩
        | error e =>
          rw [documentOf, documentOf, hread] at hnames
          cases hnames.2
      apart := by simp [Document.Apart, hnames] }
  have hoffers : t.Offers "main.loon" "b.loon" blocks :=
    { line := ⟨by decide, by decide, by decide, by decide⟩
      found := ⟨["b.loon"], by decide +kernel, by decide +kernel, by decide +kernel⟩ }
  have hends : Source.IsWhole blocks ∨ after = "" := .inl (.inr ⟨_, rfl⟩)
  obtain ⟨hlabels, hspaces⟩ := labelsOf_moved hmovable hoffers hends
  have hkeys : (t.labelsOf (before ++ blocks ++ after) "main.loon").toOption.map Mapping.keys =
      some ["app", "copy", "late"] := by decide +kernel
  obtain ⟨R, hR, hkeys⟩ := Option.map_eq_some_iff.1 hkeys
  have hinline := toOption_eq_some.1 hR
  exact ⟨hmovable, hoffers, ⟨R, hinline, (hlabels R).1 hinline, hkeys⟩, hspaces⟩

end FileTree

end Loon
