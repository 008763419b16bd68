import Loon.Proofs.MovedBlocks
import Loon.Proofs.Resolution.Tucked

namespace Loon

namespace Source

theorem IsWhole.append {before after : String} (hbefore : IsWhole before) (hafter : IsWhole after) :
    IsWhole (before ++ after) := by
  rcases hafter with rfl | ⟨s, rfl⟩
  · rwa [String.append_empty]
  · exact .inr ⟨before ++ s, String.append_assoc.symm⟩

theorem map_statement_of_content {lines : List Line} {name part : String}
    (h : lines.map Line.content = (Source.lines ⟨name, part⟩).map Line.content) :
    lines.map Line.statement = statementsOf part := by
  rw [Line.map_content_lines, ← Line.map_content_lines ⟨"", part⟩] at h
  have hstatements := congrArg (List.map Prod.fst) h
  rwa [List.map_map, List.map_map] at hstatements

end Source

namespace FileTree

variable {t : FileTree} {fileName before line opening rest own target : String}

def namesOf (t : FileTree) (fileName part : String) : List String :=
  t.boundNames [t.canonical (t.absolute fileName)] (t.absolute fileName) (statementsOf part)

variable (t fileName) in
/-- An import directly in front of a visible label. Nothing else binds the name of the label or has it in
a reference, and nothing else binds a name that the import binds. -/
structure Nestable (before line opening rest own target : String) : Prop where
  whole : Source.IsWhole before ∧ Source.IsWhole line ∧ Source.IsWhole opening
  imports : statementsOf line = [.importFile target]
  opens : statementsOf opening = [.openLabel own false]
  once : own ∉ t.namesOf fileName before ∧ own ∉ t.namesOf fileName line ∧
    own ∉ t.namesOf fileName rest
  apart : ∀ name ∈ t.namesOf fileName line,
    name ∉ t.namesOf fileName before ∧ name ∉ t.namesOf fileName rest
  unnamed : ∀ source, t.Includes ⟨t.absolute fileName, before ++ (line ++ opening) ++ rest⟩ source →
    ∀ line ∈ source.lines, ∀ a ∈ line.statement.addresses, own ∉ a.segments

theorem Nestable.exists_lines (h : t.Nestable fileName before line opening rest own target) :
    ∃ first imports opens last,
      Source.lines ⟨t.absolute fileName, before ++ (line ++ opening) ++ rest⟩ =
        first ++ ([imports, opens] ++ last) ∧
      first.map Line.statement = statementsOf before ∧ imports.statement = .importFile target ∧
      opens.statement = .openLabel own false ∧ last.map Line.statement = statementsOf rest ∧
      List.Forall₂ Line.Alike (first ++ ([opens, imports] ++ last))
        (Source.lines ⟨t.absolute fileName, before ++ (opening ++ line) ++ rest⟩) ∧
      List.Forall₂ Line.Alike [imports] (t.linesOf fileName line) := by
  obtain ⟨hbefore, hline, hopening⟩ := h.whole
  let name := t.absolute fileName
  have hmiddle : Source.IsWhole (line ++ opening) ∨ rest = "" := .inl (hline.append hopening)
  obtain ⟨first, inner, last, hlines, hfirst, hinner, hlast⟩ :=
    exists_lines_of_parts name hbefore hmiddle
  rw [Source.map_content_append name (.inl hline), List.map_append, List.map_eq_append_iff] at hinner
  obtain ⟨imports, opens, rfl, himports, hopens⟩ := hinner
  have himport := Source.map_statement_of_content himports
  have hopen := Source.map_statement_of_content hopens
  rw [h.imports] at himport
  rw [h.opens] at hopen
  obtain ⟨imports, rfl, himported⟩ := List.map_eq_singleton_iff.1 himport
  obtain ⟨opens, rfl, hopened⟩ := List.map_eq_singleton_iff.1 hopen
  refine ⟨first, imports, opens, last, hlines, Source.map_statement_of_content hfirst, himported, hopened,
    Source.map_statement_of_content hlast, ?_, Line.forall₂_alike_of_content himports⟩
  refine Line.forall₂_alike_of_content (Eq.symm ?_)
  rw [Source.map_content_append name (.inl (hbefore.append (hopening.append hline))), List.map_append,
    Source.map_content_append name (.inl hbefore), List.map_append,
    Source.map_content_append name (.inl hopening), List.map_append, ← hfirst, ← hopens, ← himports,
    ← hlast]
  simp

theorem keys_documentOf_import {source : Source} {imports : Line} {other : Document} {s : Session}
    (hname : source.name = t.absolute fileName) (himports : imports.statement = .importFile target)
    (hlines : List.Forall₂ Line.Alike [imports] (t.linesOf fileName line))
    (hanswer : (t.importer [t.canonical (t.absolute fileName)] target ⟨source, imports.span⟩ s).1 =
      .ok other) :
    Mapping.keys (t.documentOf fileName line).labels = Mapping.keys other.labels := by
  have hstep := Draft.step_eq_ok.2 (.imports (d := .empty) himports (Prod.ext hanswer rfl))
  obtain ⟨E, s₁, hreads, hE⟩ := alike_run ⟨t.absolute fileName, line⟩ hname hlines
    Document.alike_empty (Draft.run_cons_eq_none.2 ⟨_, _, hstep, rfl⟩) .empty
  rw [documentOf, readDocument_eq_ok.2 ⟨s₁, hreads⟩]
  calc Mapping.keys E.labels
    _ = Mapping.keys (Document.empty.adopt other).labels := hE.labels.keys.symm
    _ = Mapping.keys (Mapping.ofList other.labels) := by rw [Document.labels_adopt]; rfl
    _ = Mapping.keys other.labels := by
      rw [Mapping.ofList_of_distinct (t.importer_distinct _ hanswer).labels]

theorem Nestable.exists_tucks (h : t.Nestable fileName before line opening rest own target) {D : Document}
    {s : Session} (hreads : t.Reads [t.canonical (t.absolute fileName)]
      ⟨t.absolute fileName, before ++ (line ++ opening) ++ rest⟩ .empty D s) :
    ∃ other E E', Mapping.keys (t.documentOf fileName line).labels = Mapping.keys other.labels ∧
      own ∉ Mapping.keys other.labels ∧ own ∈ Mapping.keys D.labels ∧ D.Tucks own other E ∧
      (t.readDocument (before ++ (opening ++ line) ++ rest) fileName).1 = .ok E' ∧ E.Alike E' := by
  obtain ⟨first, imports, opens, last, hlines, hfirst, himports, hopens, hlast, halike, hline⟩ :=
    h.exists_lines
  have honce := h.once
  have hapart := h.apart
  rw [namesOf, namesOf, namesOf, h.imports, ← hfirst, ← hlast] at honce hapart
  have hunnamed : ∀ line ∈ last, ∀ a ∈ line.statement.addresses, a.label ≠ own := by
    intro line hmem a ha heq
    refine h.unnamed _ .self line ?_ a ha (heq ▸ List.mem_cons_self ..)
    rw [hlines]
    exact List.mem_append_right _ (List.mem_append_right _ hmem)
  rw [Reads, hlines] at hreads
  obtain ⟨other, E, s₁, s₂, hanswer, hrun, htucks, hkey, hother⟩ :=
    tucks_of_run himports hopens honce hapart hunnamed hreads
  let source : Source := ⟨t.absolute fileName, before ++ (line ++ opening) ++ rest⟩
  let moved : Source := ⟨t.absolute fileName, before ++ (opening ++ line) ++ rest⟩
  have hname : source.name = moved.name := rfl
  obtain ⟨E', s₃, hmoved, hE⟩ := alike_run moved hname halike Document.alike_empty hrun .empty
  exact ⟨other, E, E', keys_documentOf_import rfl himports hline hanswer, hother, hkey, htucks,
    readDocument_eq_ok.2 ⟨s₃, hmoved⟩, hE⟩

theorem Nestable.spares (h : t.Nestable fileName before line opening rest own target) {D : Document}
    {s : Session} (hreads : t.Reads [t.canonical (t.absolute fileName)]
      ⟨t.absolute fileName, before ++ (line ++ opening) ++ rest⟩ .empty D s) :
    ∀ p ∈ D.placeholders, p.Spares own := by
  intro p hp
  obtain ⟨source, line, a, hincludes, hmem, ha, haddress⟩ := hreads.exists_address hp
  exact ⟨a, ha, h.unnamed source hincludes line hmem a haddress⟩

/-- An import that moves into the label behind it takes its visible labels out of the result, and in front
of what is in the label. All else stays as it was, and these labels keep their values. -/
theorem labelsOf_nested (h : t.Nestable fileName before line opening rest own target) {R : Mapping Value}
    (hR : t.labelsOf (before ++ (line ++ opening) ++ rest) fileName = .ok R)
    (hfree : ∀ v, Mapping.get? R own = some v → v.get? own = none) :
    let names := Mapping.keys (t.documentOf fileName line).labels
    let inner := Mapping.within names R
    Mapping.keys inner = names ∧ ∃ body, Mapping.get? R own = some (.mapping body) ∧
      t.labelsOf (before ++ (opening ++ line) ++ rest) fileName = .ok
        (Mapping.insert (Mapping.without names R) own (.mapping ((own, .mapping inner) :: body))) := by
  obtain ⟨D, hD, hR⟩ := labelsOf_eq_ok.1 hR
  obtain ⟨s, hreads⟩ := readDocument_eq_ok.1 hD
  obtain ⟨other, E, E', hnames, hother, hkey, htucks, hE', halike⟩ := h.exists_tucks hreads
  have hsound := (hreads.wellKeyed nofun).1
  have hdistinct := Reader.distinct_of_read (read_of_readDocument hD)
  obtain ⟨body, hbody, hE⟩ :=
    htucks.resolvedLabels hdistinct hsound (h.spares hreads) hother hkey hR hfree
  rw [hnames]
  intro names inner
  refine ⟨?_, body, hbody, labelsOf_eq_ok.2 ⟨E', hE', (halike.resolvedLabels_eq_ok _).1 hE⟩⟩
  calc Mapping.keys inner
    _ = Mapping.keys (Mapping.within names D.labels) :=
      Document.keys_of_resolveEach (Document.resolveEach_within names hR)
    _ = names := congrArg Mapping.keys htucks.taken

theorem labelsOf_nested_referring :
    let file := "(x)\nk = 1\nr = [base.n]\ns = [h.v]\nend\n%(h)\nv = 3\nend\n"
    let t : FileTree := ⟨[], [(["a.loon"], .text file)]⟩
    let before := "(base)\nn = 2\nk = [x.k]\nend" ++ "\n"
    let line := "@a.loon" ++ "\n"
    let opening := "(app)" ++ "\n"
    let rest := "y = [x.r]\nend\n"
    t.Nestable "main.loon" before line opening rest "app" "a.loon" ∧ ∃ R body inner,
      t.labelsOf (before ++ (line ++ opening) ++ rest) "main.loon" = .ok R ∧
      Mapping.keys R = ["base", "x", "app"] ∧
      (∀ v, Mapping.get? R "app" = some v → v.get? "app" = none) ∧
      Mapping.get? R "app" = some (.mapping body) ∧ Mapping.keys inner = ["x"] ∧
      t.labelsOf (before ++ (opening ++ line) ++ rest) "main.loon" = .ok
        (Mapping.insert (Mapping.without ["x"] R) "app" (.mapping (("app", .mapping inner) :: body))) := by
  intro file t before line opening rest
  let source : Source := ⟨t.absolute "main.loon", before ++ (line ++ opening) ++ rest⟩
  let imported : Source := ⟨"/a.loon", file⟩
  have hsource : source.lines.map Line.statement = [.openLabel "base" false, .assign "n" "2",
      .assign "k" "[x.k]", .closeLabel, .importFile "a.loon", .openLabel "app" false,
      .assign "y" "[x.r]", .closeLabel] := by decide +kernel
  have himported : imported.lines.map Line.statement = [.openLabel "x" false, .assign "k" "1",
      .assign "r" "[base.n]", .assign "s" "[h.v]", .closeLabel, .openLabel "h" true, .assign "v" "3",
      .closeLabel] := by decide +kernel
  have hunnamed : ∀ part ∈ [source, imported], ∀ statement ∈ part.lines.map Line.statement,
      ∀ a ∈ statement.addresses, "app" ∉ a.segments := by decide +kernel
  have hincludes : ∀ part, t.Includes source part → part ∈ [source, imported] := by
    intro part h
    cases h with
    | self => exact List.mem_cons_self ..
    | @imported _ _ _ target l content hline hstatement hfind hread hpart =>
      have hmem := List.mem_map_of_mem (f := Line.statement) hline
      rw [hstatement, hsource] at hmem
      obtain rfl : target = "a.loon" := by simpa using hmem
      have hfound : t.findTarget (Path.ofText source.name) "a.loon" = .ok ["a.loon"] := by decide +kernel
      cases hfind.symm.trans hfound
      have hfile : t.read ["a.loon"] = .ok file := by decide +kernel
      cases hread.symm.trans hfile
      cases hpart with
      | self => exact List.mem_cons_of_mem _ (List.mem_singleton_self _)
      | imported hline hstatement =>
        have hmem : _ ∈ imported.lines.map Line.statement := List.mem_map_of_mem hline
        rw [hstatement, himported] at hmem
        simp at hmem
  have hnamesOf : [before, line, rest].map (t.namesOf "main.loon") = [["base"], ["x", "h"], []] := by
    decide +kernel
  simp only [List.map_cons, List.map_nil, List.cons.injEq, and_true] at hnamesOf
  have hnestable : t.Nestable "main.loon" before line opening rest "app" "a.loon" :=
    { whole := ⟨.inr ⟨_, rfl⟩, .inr ⟨_, rfl⟩, .inr ⟨_, rfl⟩⟩
      imports := by decide +kernel
      opens := by decide +kernel
      once := by simp [hnamesOf]
      apart := by simp [hnamesOf]
      unnamed := fun part hpart line hline =>
        hunnamed part (hincludes part hpart) _ (List.mem_map_of_mem hline) }
  have hfound : ((t.labelsOf (before ++ (line ++ opening) ++ rest) "main.loon").toOption.bind fun R =>
      (Mapping.get? R "app").map fun v => (Mapping.keys R, (v.get? "app").isNone)) =
        some (["base", "x", "app"], true) := by decide +kernel
  have hnames : Mapping.keys (t.documentOf "main.loon" line).labels = ["x"] := by decide +kernel
  simp only [Option.bind_eq_some_iff, Option.map_eq_some_iff, toOption_eq_some, Prod.mk.injEq,
    Option.isNone_iff_eq_none] at hfound
  obtain ⟨R, hR, v, hv, hkeys, hnone⟩ := hfound
  have hfree : ∀ v, Mapping.get? R "app" = some v → v.get? "app" = none := by
    intro w hw
    cases hv.symm.trans hw
    exact hnone
  obtain ⟨hinner, body, hbody, hnested⟩ := labelsOf_nested hnestable hR hfree
  rw [hnames] at hinner hnested
  exact ⟨hnestable, R, body, _, hR, hkeys, hfree, hbody, hinner, hnested⟩

end FileTree

end Loon
