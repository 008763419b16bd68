import Loon.Proofs.Reading.Bindings
import Loon.Proofs.Reading.Gathered
import Loon.Proofs.Reading.Imports

namespace Loon

namespace Draft

section Lines

variable (importer : Importer) (source : Source)

def nested? (d : Draft) (s : Session) (line : Line) : Option Document :=
  match d.current, line.statement with
  | some label, .importFile target =>
    if label.space.isNone then (importer target ⟨source, line.span⟩ s).1.toOption else none
  | _, _ => none

def plainEntries? (d : Draft) (s : Session) (line : Line) : Option (Mapping Value) :=
  match line.statement with
  | .importFile _ => none
  | _ => d.ownEntries? importer source s line

def nestedDocuments (lines : List Line) (d : Draft) (s : Session) : List Document :=
  d.trace importer source (nested? importer source) lines s

def plainEntries (lines : List Line) (d : Draft) (s : Session) : Mapping Value :=
  (d.trace importer source (plainEntries? importer source) lines s).flatten

end Lines

variable {importer : Importer} {source : Source} {d d' : Draft} {s s' : Session} {line : Line}
variable {lines : List Line} {label : OpenLabel} {own : String}

theorem nestedDocuments_cons {d₁ : Draft} {s₁ : Session}
    (h : d.step importer source s line = (.ok d₁, s₁)) :
    d.nestedDocuments importer source (line :: lines) s =
      (d.nested? importer source s line).toList ++ d₁.nestedDocuments importer source lines s₁ :=
  trace_cons h

theorem plainEntries_cons {d₁ : Draft} {s₁ : Session}
    (h : d.step importer source s line = (.ok d₁, s₁)) :
    d.plainEntries importer source (line :: lines) s =
      (d.plainEntries? importer source s line).getD [] ++ d₁.plainEntries importer source lines s₁ := by
  rw [plainEntries, trace_cons h, List.flatten_append, ← plainEntries]
  cases d.plainEntries? importer source s line <;> simp

theorem ownEntries?_split (hlabel : d.current = some label) :
    (∃ other, d.nested? importer source s line = some other ∧
      d.plainEntries? importer source s line = none ∧
      d.ownEntries? importer source s line = some [(label.name, .mapping other.labels)]) ∨
    d.nested? importer source s line = none ∧
      (d.ownEntries? importer source s line).getD [] =
        (d.plainEntries? importer source s line).getD [] := by
  cases hstatement : line.statement with
  | importFile target =>
    cases hspace : label.space with
    | none =>
      cases himport : (importer target ⟨source, line.span⟩ s).1 with
      | ok other =>
        exact .inl ⟨other, by simp [nested?, hlabel, hstatement, hspace, himport, Except.toOption],
          by simp [plainEntries?, hstatement],
          by simp [ownEntries?, hlabel, hstatement, hspace, himport, Except.toOption]⟩
      | error e =>
        exact .inr ⟨by simp [nested?, hlabel, hstatement, hspace, himport, Except.toOption],
          by simp [plainEntries?, ownEntries?, hlabel, hstatement, hspace, himport, Except.toOption]⟩
    | some space =>
      exact .inr ⟨by simp [nested?, hlabel, hstatement, hspace],
        by simp [plainEntries?, ownEntries?, hlabel, hstatement, hspace]⟩
  | _ => exact .inr ⟨by simp [nested?, hlabel, hstatement], by simp [plainEntries?, hstatement]⟩

theorem get?_extend_ownEntries (hlines : ∀ line ∈ lines, line.statement ≠ .closeLabel)
    (hlabel : d.current = some label) (hname : label.name = own)
    (h : d.run importer source lines s = (none, d', s'))
    (hplain : own ∉ Mapping.keys (d.plainEntries importer source lines s)) {m : Mapping Value}
    {kept : Document} (hm : Mapping.get? m own = some (.mapping kept.labels)) :
    Mapping.get? (Mapping.extend m (d.ownEntries importer source lines s)) own =
      some (.mapping ((d.nestedDocuments importer source lines s).getLastD kept).labels) := by
  induction lines generalizing d s label m kept with
  | nil => exact hm
  | cons line lines ih =>
    rw [List.forall_mem_cons] at hlines
    obtain ⟨d₁, s₁, hstep, hrest⟩ := run_cons_eq_none.1 h
    obtain ⟨label₁, hlabel₁, hcontinues⟩ := step_own hlines.1 hlabel hstep
    have hname₁ : label₁.name = own := hcontinues.name.trans hname
    rw [plainEntries_cons hstep, Mapping.keys_append, List.mem_append, not_or] at hplain
    rw [ownEntries_cons hstep, nestedDocuments_cons hstep, Mapping.extend_append]
    rcases ownEntries?_split hlabel with ⟨other, hnested, -, hown⟩ | ⟨hnested, hown⟩
    · have hother : Mapping.get? (Mapping.insert m label.name (.mapping other.labels)) own =
          some (.mapping other.labels) := by
        rw [Mapping.get?_insert, if_pos hname]
      rw [hnested, hown, Option.toList_some, List.singleton_append, List.getLastD_cons]
      exact ih hlines.2 hlabel₁ hname₁ hrest hplain.2 hother
    · rw [hnested, hown]
      exact ih hlines.2 hlabel₁ hname₁ hrest hplain.2
        ((Mapping.get?_extend_of_notMem hplain.1 m).trans hm)

end Draft

namespace FileTree

variable {t : FileTree} {chain : List Path} {source : Source} {s : Session}

theorem find?_of_run {lines : List Line} {d d' : Draft} {s' : Session} {name : String}
    (hunbound : ∀ b ∈ d.bindings (t.importer chain) source lines s, b.value? name = none)
    (h : d.run (t.importer chain) source lines s = (none, d', s')) :
    d'.document.find? name = d.document.find? name := by
  have himports : ∀ b ∈ d.bindings (t.importer chain) source lines s, ∀ other ∈ b.imports,
      other.Distinct :=
    Draft.forall_imports_bindings (fun _ _ _ _ => t.importer_distinct chain) lines d s
  have hdocument := Draft.run_document (t.importer chain) source lines d s
  rw [h] at hdocument
  dsimp only at hdocument
  rw [hdocument, Document.find?_applyAll d.document himports hunbound]

/-- Of the files that are imported in a label, outside its spaces, the last gives the mapping under the
name of the label, unless another line after it writes there. So all labels of a file that is imported are
in it as long as no other file is imported after it; and then none is, but those that the last file has
itself. -/
theorem nested_imports_last {before first rest after : List Line} {opening line closing : Line}
    {own target : String} {hidden : Bool} {D : Document}
    (hread : ((Reader.ofSource source).read (t.importer chain) s).1 = .ok D)
    (hlines : source.lines = before ++ opening :: (first ++ line :: (rest ++ closing :: after)))
    (hopening : opening.statement = .openLabel own hidden)
    (hfirst : ∀ line ∈ first, line.statement ≠ .closeLabel)
    (hline : line.statement = .importFile target)
    (hrest : ∀ line ∈ rest, line.statement ≠ .closeLabel)
    (hclosing : closing.statement = .closeLabel) :
    ∃ d s₁ label other d₂ s₂ d₃ s₃ body,
      Draft.run (t.importer chain) source (before ++ opening :: first) .empty s = (none, d, s₁) ∧
      d.current = some label ∧ (t.importer chain target ⟨source, line.span⟩ s₁).1 = .ok other ∧
      d.step (t.importer chain) source s₁ line = (.ok d₂, s₂) ∧
      d₂.run (t.importer chain) source (rest ++ [closing]) s₂ = (none, d₃, s₃) ∧
      d₃.document.find? own = some (.mapping body) ∧
      (label.space = none → own ∉ Mapping.keys (d₂.plainEntries (t.importer chain) source rest s₂) →
        Mapping.get? body own = some (.mapping
          ((d₂.nestedDocuments (t.importer chain) source rest s₂).getLastD other).labels)) ∧
      ((∀ b ∈ d₃.bindings (t.importer chain) source after s₃, b.value? own = none) →
        D.find? own = some (.mapping body)) := by
  obtain ⟨s', hrun⟩ := Reader.read_eq_ok.1 hread
  have hsplit : source.lines =
      (before ++ opening :: first) ++ (line :: ((rest ++ [closing]) ++ after)) := by simp [hlines]
  rw [hsplit] at hrun
  obtain ⟨d, s₁, hstart, hrun⟩ := Draft.run_append_eq_none.1 hrun
  obtain ⟨d₂, s₂, hstep, hrun⟩ := Draft.run_cons_eq_none.1 hrun
  obtain ⟨d₃, s₃, hend, hafter⟩ := Draft.run_append_eq_none.1 hrun
  -- The label stays open from its first line to its last, and gathers what they write.
  obtain ⟨d₀, s₀, -, hopened⟩ := Draft.run_append_eq_none.1 hstart
  obtain ⟨_, _, hopen, hopened⟩ := Draft.run_cons_eq_none.1 hopened
  obtain ⟨-, -, rfl⟩ := Draft.step_openLabel hopening hopen
  obtain ⟨label, hlabel, hcontinues⟩ := Draft.run_own hfirst rfl hopened
  have hname : label.name = own := hcontinues.name
  have hne : line.statement ≠ .closeLabel := by simp [hline]
  obtain ⟨label₂, hlabel₂, hcontinues₂⟩ := Draft.step_own hne hlabel hstep
  have hname₂ : label₂.name = own := hcontinues₂.name.trans hname
  obtain ⟨d', _, hgathers, rfl⟩ := Draft.run_closing hrest hclosing hlabel₂ hend
  obtain ⟨other, himport, -⟩ := Draft.step_importFile hline hstep
  let gathered := d₂.ownEntries (t.importer chain) source rest s₂
  let body := Mapping.extend (BodyItem.fold label₂.items) gathered
  have hfind : (d'.document.define label₂.name label₂.hidden body).find? own = some (.mapping body) := by
    rw [Document.find?_define, if_pos hname₂]
  refine ⟨d, s₁, label, other, d₂, s₂, _, _, body, hstart, hlabel, himport, hstep, hend, hfind, ?_, ?_⟩
  · intro hspace hplain
    have hentries : (d.ownEntries? (t.importer chain) source s₁ line).getD [] =
        [(label.name, .mapping other.labels)] := by
      simp [Draft.ownEntries?, hlabel, hspace, hline, himport, Except.toOption]
    have hstored : Mapping.get? (BodyItem.fold label₂.items) own = some (.mapping other.labels) := by
      rw [hcontinues₂.items, hentries, Mapping.extend_cons, Mapping.extend_nil, Mapping.get?_insert,
        if_pos hname]
    exact Draft.get?_extend_ownEntries hrest hlabel₂ hname₂ hgathers hplain hstored
  · exact fun hunbound => (find?_of_run hunbound hafter).trans hfind

theorem nested_imports_last_of_two :
    let t : FileTree := ⟨[], [(["a.loon"], .text "(x)\nk = p\nend\n"),
      (["b.loon"], .text "(y)\nk = q\nend\n")]⟩
    let source : Source := ⟨"/main.loon", "(app)\n@a.loon\n@b.loon\nk = 1\nend\n"⟩
    ∃ D body nested, ((Reader.ofSource source).read (t.importer [t.canonical source.name]) .empty).1 =
        .ok D ∧ D.find? "app" = some (.mapping body) ∧
      Mapping.get? body "app" = some (.mapping nested) ∧ Mapping.keys nested = ["y"] := by
  intro t source
  let importer := t.importer [t.canonical source.name]
  let opening : Line := ⟨.openLabel "app" false, "(app)", 1, 0⟩
  let line : Line := ⟨.importFile "a.loon", "@a.loon", 2, 6⟩
  let rest : List Line := [⟨.importFile "b.loon", "@b.loon", 3, 14⟩, ⟨.assign "k" "1", "k = 1", 4, 22⟩]
  let closing : Line := ⟨.closeLabel, "end", 5, 28⟩
  let started := Draft.run importer source [opening] .empty .empty
  let taken := Draft.run importer source ([opening] ++ [line]) .empty .empty
  obtain ⟨hlines, hread, hopened, hplain, hnested⟩ :
      source.lines = [] ++ opening :: ([] ++ line :: (rest ++ closing :: [])) ∧
      ((Reader.ofSource source).read importer .empty).1.toOption.isSome ∧
      started.2.1.current.map (·.space.isNone) = some true ∧
      "app" ∉ Mapping.keys (taken.2.1.plainEntries importer source rest taken.2.2) ∧
      (taken.2.1.nestedDocuments importer source rest taken.2.2).map
        (fun other => Mapping.keys other.labels) = [["y"]] := by
    decide +kernel
  obtain ⟨D, hD⟩ := Option.isSome_iff_exists.1 hread
  have hD := toOption_eq_some.1 hD
  obtain ⟨d, s₁, label, other, d₂, s₂, d₃, s₃, body, hstart, hlabel, -, hstep, -, -, hbody, hfind⟩ :=
    nested_imports_last hD hlines rfl (List.forall_mem_nil _) rfl (by decide) rfl
  have htaken : taken = (none, d₂, s₂) :=
    Draft.run_append_eq_none.2 ⟨d, s₁, hstart, Draft.run_cons_eq_none.2 ⟨d₂, s₂, hstep, rfl⟩⟩
  have hstarted : started = (none, d, s₁) := hstart
  rw [hstarted, hlabel] at hopened
  rw [htaken] at hplain hnested
  have hspace : label.space = none := by simpa using hopened
  obtain ⟨kept, hdocuments, hkeys⟩ := List.map_eq_singleton_iff.1 hnested
  have hlast := hbody hspace hplain
  rw [hdocuments] at hlast
  exact ⟨D, body, kept.labels, hD, hfind (List.forall_mem_nil _), hlast, hkeys⟩

/-- An import drops the labels of the one before it, though it brings none of their names. -/
theorem nested_imports_dropped :
    let first := "(x)\nk = p\nend\n"
    let second := "(y)\nk = q\nend\n"
    let t : FileTree := ⟨[], [(["a.loon"], .text first), (["b.loon"], .text second)]⟩
    let text := "(app)\n@a.loon\n@b.loon\nend\n"
    ∃ A B D nested, (t.readDocument first "a.loon").1 = .ok A ∧ Mapping.keys A.labels = ["x"] ∧
      (t.readDocument second "b.loon").1 = .ok B ∧ Mapping.keys B.labels = ["y"] ∧
      (t.readDocument text "main.loon").1 = .ok D ∧
      D.lookup ⟨"app", none, some "app"⟩ = .ok (some (.mapping nested)) ∧
      Mapping.keys nested = ["y"] := by
  intro first second t text
  have hfound : ((t.readDocument first "a.loon").1.toOption.bind fun A =>
      (t.readDocument second "b.loon").1.toOption.bind fun B =>
        (t.readDocument text "main.loon").1.toOption.bind fun D =>
          (D.lookup ⟨"app", none, some "app"⟩).toOption.join.map fun v =>
            (Mapping.keys A.labels, Mapping.keys B.labels, v.mapping?.map Mapping.keys)) =
      some (["x"], ["y"], some ["y"]) := by
    decide +kernel
  simp only [Option.bind_eq_some_iff, Option.map_eq_some_iff, Option.join_eq_some_iff, toOption_eq_some,
    Prod.mk.injEq] at hfound
  obtain ⟨A, hA, B, hB, D, hD, v, hv, hkeysA, hkeysB, nested, hnested, hlast⟩ := hfound
  cases v <;> cases hnested
  exact ⟨A, B, D, _, hA, hkeysA, hB, hkeysB, hD, hv, hlast⟩

end FileTree

end Loon
