import Loon.Analysis
import Loon.Proofs.Reading.Alike
import Loon.Proofs.Reading.Parts
import Loon.Proofs.Resolution.Agreement

namespace Loon

theorem Outcome.eq_ok_iff {ε α : Type} {E : ε → ε → Prop} {x y : Except ε α} (h : Outcome E Eq x y)
    (a : α) : x = .ok a ↔ y = .ok a := by
  cases h with
  | ok hab => rw [hab]
  | error _ => simp

theorem Outcome.toOption_eq {ε α : Type} {E : ε → ε → Prop} {x y : Except ε α}
    (h : Outcome E Eq x y) : x.toOption = y.toOption := by
  cases h with
  | ok hab => rw [hab]
  | error _ => rfl

namespace Document

theorem Alike.names {d d' : Document} (h : d.Alike d') : d.names = d'.names := by
  rw [Document.names, Document.names, h.labels.keys, h.hidden.keys]

theorem alike_concat {ds ds' : List Document} (h : List.Forall₂ Alike ds ds') :
    (concat ds).Alike (concat ds') := by
  induction h with
  | nil => exact alike_empty
  | cons hd _ ih => exact ⟨hd.labels.append ih.labels, hd.hidden.append ih.hidden⟩

theorem Alike.resolvedLabels_eq_ok {d d' : Document} (h : d.Alike d') (R : Mapping Value) :
    d.resolvedLabels = .ok R ↔ d'.resolvedLabels = .ok R :=
  (outcome_resolveEach h.agrees h.labels).eq_ok_iff R

theorem apart_of_alike {ds ds' : List Document} (h : List.Forall₂ Alike ds ds')
    (hds' : ds'.Pairwise Apart) : ds.Pairwise Apart := by
  have hnames : ds.map Document.names = ds'.map Document.names := by
    induction h with
    | nil => rfl
    | cons hd _ ih =>
      rw [List.map_cons, List.map_cons, hd.names, ih (List.pairwise_cons.1 hds').2]
  have hpairwise := List.pairwise_map (R := fun a b => ∀ name ∈ a, name ∉ b) |>.2 hds'
  rw [← hnames, List.pairwise_map] at hpairwise
  exact hpairwise

theorem mem_names_concat {ds : List Document} {name : String} :
    name ∈ (concat ds).names ↔ ∃ d ∈ ds, name ∈ d.names := by
  induction ds with
  | nil => simp [concat, names]
  | cons d ds ih => rw [concat_cons, mem_names_append, ih, List.exists_mem_cons_iff]

theorem apart_concat {d : Document} {ds : List Document} (h : ∀ other ∈ ds, d.Apart other) :
    d.Apart (concat ds) := by
  intro name hd hds
  obtain ⟨other, hother, hname⟩ := mem_names_concat.1 hds
  exact h other hother name hd hname

theorem find?_concat {ds : List Document} {d : Document} {name : String} (hds : ds.Pairwise Apart)
    (hd : d ∈ ds) (hname : name ∈ d.names) : (concat ds).find? name = d.find? name := by
  induction ds with
  | nil => cases hd
  | cons first ds ih =>
    rw [List.pairwise_cons] at hds
    have happart := apart_concat hds.1
    rw [concat_cons, find?_append happart]
    rcases List.mem_cons.1 hd with rfl | hd
    · rw [find?_eq_none.2 (happart name hname)]
      cases d.find? name <;> rfl
    · rw [find?_eq_none.2 ((hds.1 d hd).symm name hname), ← ih hds.2 hd]
      rfl

theorem find?_concat_perm {ds ds' : List Document} (hds : ds.Pairwise Apart) (hperm : ds.Perm ds')
    (name : String) : (concat ds).find? name = (concat ds').find? name := by
  have hds' : ds'.Pairwise Apart := (hperm.pairwise_iff Apart.symm).1 hds
  by_cases hname : ∃ d ∈ ds, name ∈ d.names
  · obtain ⟨d, hd, hname⟩ := hname
    rw [find?_concat hds hd hname, find?_concat hds' (hperm.mem_iff.1 hd) hname]
  · have hnone : name ∉ (concat ds).names := fun h => hname (mem_names_concat.1 h)
    have hnone' : name ∉ (concat ds').names := fun h => by
      obtain ⟨d, hd, hmem⟩ := mem_names_concat.1 h
      exact hname ⟨d, hperm.mem_iff.2 hd, hmem⟩
    rw [find?_eq_none.2 hnone, find?_eq_none.2 hnone']

theorem shownEntry_of_outcome {d d' : Document}
    (h : ∀ v, Outcome Error.Alike Eq (d.resolve v) (d'.resolve v)) : d.shownEntry = d'.shownEntry := by
  funext entry
  rw [shownEntry, shownEntry, (h entry.2).toOption_eq]

theorem resolvedLabels_concat {ds : List Document} {R : Mapping Value} :
    (concat ds).resolvedLabels = .ok R ↔
      (∀ d ∈ ds, ∀ entry ∈ d.labels, ∃ w, (concat ds).resolve entry.2 = .ok w) ∧
        ds.flatMap (fun d => d.labels.map (concat ds).shownEntry) = R := by
  rw [resolvedLabels, resolveEach_eq_ok, concat]
  simp only [List.mem_flatMap, List.map_flatMap, forall_exists_index, and_imp]
  exact and_congr_left fun _ => ⟨fun h d hd entry hentry => h entry d hd hentry,
    fun h entry d hd hentry => h d hd entry hentry⟩

theorem resolvedLabels_concat_perm {ds ds' : List Document} (hds : ds.Pairwise Apart) (hperm : ds.Perm ds')
    {R : Mapping Value} (hR : (concat ds).resolvedLabels = .ok R) :
    ∃ R', (concat ds').resolvedLabels = .ok R' ∧ R.Perm R' := by
  have hresolve : ∀ v, Outcome Error.Alike Eq ((concat ds).resolve v) ((concat ds').resolve v) :=
    fun v => outcome_resolve (agrees_of_find?_eq (find?_concat_perm hds hperm)) (Value.Alike.refl v)
  obtain ⟨hsome, rfl⟩ := resolvedLabels_concat.1 hR
  refine ⟨_, resolvedLabels_concat.2 ⟨fun d hd entry hentry => ?_, rfl⟩, ?_⟩
  · obtain ⟨w, hw⟩ := hsome d (hperm.mem_iff.2 hd) entry hentry
    exact ⟨w, ((hresolve entry.2).eq_ok_iff w).1 hw⟩
  · rw [shownEntry_of_outcome hresolve]
    exact hperm.flatMap_right _

end Document

def statementsOf (text : String) : List Statement := (Source.lines ⟨"", text⟩).map Line.statement

namespace FileTree

variable (t : FileTree) (fileName : String)

def documentOf (part : String) : Document :=
  (t.readDocument part fileName).1.toOption.getD .empty

structure AreParts (parts : List String) : Prop where
  part : ∀ part ∈ parts, IsPart (statementsOf part)
  apart : (parts.map (t.documentOf fileName)).Pairwise Document.Apart

variable {t fileName}

theorem AreParts.perm {parts parts' : List String} (h : t.AreParts fileName parts)
    (hperm : parts.Perm parts') : t.AreParts fileName parts' where
  part part hpart := h.part part (hperm.mem_iff.2 hpart)
  apart := ((hperm.map _).pairwise_iff Document.Apart.symm).1 h.apart

theorem alike_run {chain : List Path} {source : Source} (source' : Source) {lines lines' : List Line}
    (hname : source.name = source'.name) (hlines : List.Forall₂ Line.Alike lines lines')
    {D D' : Document} (hD : D.Alike D') {E : Document} {s s₁ : Session}
    (h : Draft.run (t.importer chain) source lines ⟨D, none⟩ s = (none, ⟨E, none⟩, s₁))
    (s' : Session) :
    ∃ E' s₁', Draft.run (t.importer chain) source' lines' ⟨D', none⟩ s' = (none, ⟨E', none⟩, s₁') ∧
      E.Alike E' := by
  have hd : Draft.Alike ⟨D, none⟩ ⟨D', none⟩ := ⟨hD, .none⟩
  have hrun := hd.run (t.alike_importer chain) hname hlines s s'
  rw [h] at hrun
  generalize Draft.run (t.importer chain) source' lines' ⟨D', none⟩ s' = x at hrun ⊢
  obtain ⟨e, ⟨E', current⟩, s₁'⟩ := x
  obtain ⟨herror, hdocument, hcurrent⟩ := hrun
  cases herror
  cases hcurrent
  exact ⟨E', s₁', rfl, hdocument⟩

def linesOf (t : FileTree) (fileName part : String) : List Line :=
  Source.lines ⟨t.absolute fileName, part⟩

theorem readDocument_of_run {source : Source} {part : String} {P : Document} {s s' : Session}
    (hname : source.name = t.absolute fileName)
    (h : Draft.run (t.importer [t.canonical (t.absolute fileName)]) source
      (t.linesOf fileName part) .empty s = (none, ⟨P, none⟩, s')) :
    ∃ E, (t.readDocument part fileName).1 = .ok E ∧ P.Alike E := by
  obtain ⟨E, s₁, hrun, hP⟩ := alike_run ⟨t.absolute fileName, part⟩ hname
    (Line.forall₂_alike_refl _) Document.alike_empty h .empty
  exact ⟨E, readDocument_eq_ok.2 ⟨s₁, hrun⟩, hP⟩

section Parts

variable {parts : List String} (hparts : ∀ part ∈ parts, IsPart (statementsOf part))

include hparts in
theorem binds_of_run {source : Source} {D : Document} {d' : Draft} {s s' : Session}
    (hname : source.name = t.absolute fileName)
    (h : Draft.run (t.importer [t.canonical (t.absolute fileName)]) source
      (parts.flatMap (t.linesOf fileName)) ⟨D, none⟩ s = (none, d', s')) :
    ∃ bs : List Binding, d' = ⟨bs.foldl Binding.apply D, none⟩ ∧
      (∀ part ∈ parts, ∃ E, (t.readDocument part fileName).1 = .ok E) ∧
      List.Forall₂ Document.Alike (bs.map fun b => b.apply .empty)
        (parts.map (t.documentOf fileName)) := by
  induction parts generalizing D s with
  | nil =>
    cases h
    exact ⟨[], rfl, nofun, .nil⟩
  | cons part parts ih =>
    rw [List.forall_mem_cons] at hparts
    obtain ⟨d₁, s₁, hpart, hrest⟩ := Draft.run_append_eq_none.1 h
    obtain ⟨b, rfl, hb⟩ := Draft.exists_binding hparts.1 hpart
    -- The part binds the same when nothing is before it, and so it is read.
    obtain ⟨s₂, hempty⟩ := hb .empty
    obtain ⟨E, hE, hP⟩ := readDocument_of_run hname hempty
    obtain ⟨bs, rfl, hparts, hbs⟩ := ih hparts.2 hrest
    refine ⟨b :: bs, rfl, List.forall_mem_cons.2 ⟨⟨E, hE⟩, hparts⟩, .cons ?_ hbs⟩
    rw [documentOf, hE]
    exact hP

include hparts in
theorem exists_run (source : Source) (D : Document) (s : Session)
    (hname : source.name = t.absolute fileName)
    (h : ∀ part ∈ parts, ∃ E, (t.readDocument part fileName).1 = .ok E) :
    ∃ d' s', Draft.run (t.importer [t.canonical (t.absolute fileName)]) source
      (parts.flatMap (t.linesOf fileName)) ⟨D, none⟩ s = (none, d', s') := by
  induction parts generalizing D s with
  | nil => exact ⟨_, _, rfl⟩
  | cons part parts ih =>
    rw [List.forall_mem_cons] at hparts h
    obtain ⟨E, hE⟩ := h.1
    obtain ⟨s₁, hreads⟩ := readDocument_eq_ok.1 hE
    obtain ⟨E', s₂, hrun, _⟩ := alike_run source hname.symm (Line.forall₂_alike_refl _)
      Document.alike_empty hreads s
    obtain ⟨b, _, hb⟩ := Draft.exists_binding hparts.1 hrun
    obtain ⟨s₃, hpart⟩ := hb D
    obtain ⟨d', s', hrest⟩ := ih hparts.2 (b.apply D) s₃ h.2
    exact ⟨d', s', Draft.run_append_eq_none.2 ⟨_, _, hpart, hrest⟩⟩

theorem concat_of_run {source : Source} {d' : Draft} {s s' : Session}
    (hparts : t.AreParts fileName parts) (hname : source.name = t.absolute fileName)
    (h : Draft.run (t.importer [t.canonical (t.absolute fileName)]) source
      (parts.flatMap (t.linesOf fileName)) .empty s = (none, d', s')) :
    ∃ P : Document, d' = ⟨P, none⟩ ∧ P.Alike (.concat (parts.map (t.documentOf fileName))) ∧
      ∀ part ∈ parts, ∃ E, (t.readDocument part fileName).1 = .ok E := by
  obtain ⟨bs, rfl, hread, hbs⟩ := binds_of_run hparts.part hname h
  refine ⟨_, rfl, ?_, hread⟩
  rw [Binding.foldl_apply_of_apart (fun b _ => (b.apply .empty).apart_empty)
    (Document.apart_of_alike hbs hparts.apart)]
  exact Document.alike_concat hbs

end Parts

theorem labelsOf_eq_ok {text : String} {R : Mapping Value} :
    t.labelsOf text fileName = .ok R ↔
      ∃ d, (t.readDocument text fileName).1 = .ok d ∧ d.resolvedLabels = .ok R := by
  rw [labelsOf]
  cases (t.readDocument text fileName).1 <;> simp

variable (t fileName) in
theorem alike_lines_intercalate (parts : List String) :
    List.Forall₂ Line.Alike (Source.lines ⟨t.absolute fileName, "\n".intercalate parts⟩)
      (parts.flatMap (t.linesOf fileName)) := by
  refine Line.forall₂_alike_of_content ?_
  rw [Source.map_content_intercalate]
  rfl

theorem labelsOf_intercalate {parts : List String} (h : t.AreParts fileName parts)
    (R : Mapping Value) :
    t.labelsOf ("\n".intercalate parts) fileName = .ok R ↔
      (∀ part ∈ parts, ∃ E, (t.readDocument part fileName).1 = .ok E) ∧
        (Document.concat (parts.map (t.documentOf fileName))).resolvedLabels = .ok R := by
  have hlines := t.alike_lines_intercalate fileName parts
  rw [labelsOf_eq_ok]
  constructor
  · rintro ⟨d, hd, hR⟩
    obtain ⟨s₁, hreads⟩ := readDocument_eq_ok.1 hd
    obtain ⟨E, s₂, hrun, hE⟩ := alike_run _ rfl hlines Document.alike_empty hreads .empty
    obtain ⟨P, hP, hconcat, hread⟩ := concat_of_run h rfl hrun
    cases hP
    exact ⟨hread, (hconcat.resolvedLabels_eq_ok R).1 ((hE.resolvedLabels_eq_ok R).1 hR)⟩
  · rintro ⟨hread, hR⟩
    obtain ⟨d', s₁, hrun⟩ :=
      exists_run h.part ⟨t.absolute fileName, "\n".intercalate parts⟩ .empty .empty rfl hread
    obtain ⟨P, rfl, hconcat, _⟩ := concat_of_run h rfl hrun
    obtain ⟨d, s₂, hreads, hd⟩ := alike_run ⟨t.absolute fileName, "\n".intercalate parts⟩ rfl
      (Line.forall₂_alike_symm hlines) Document.alike_empty hrun .empty
    exact ⟨d, readDocument_eq_ok.2 ⟨s₂, hreads⟩,
      (hd.resolvedLabels_eq_ok R).1 ((hconcat.resolvedLabels_eq_ok R).2 hR)⟩

theorem keys_of_labelsOf_intercalate {parts : List String} (h : t.AreParts fileName parts)
    {R : Mapping Value} (hR : t.labelsOf ("\n".intercalate parts) fileName = .ok R) :
    Mapping.keys R = parts.flatMap fun part => Mapping.keys (t.documentOf fileName part).labels := by
  rw [Document.keys_of_resolveEach ((labelsOf_intercalate h R).1 hR).2]
  simp [Document.concat, Mapping.keys, List.flatMap_map, List.map_flatMap]

theorem exists_labelsOf_perm {parts parts' : List String} (h : t.AreParts fileName parts)
    (hperm : parts.Perm parts') {R : Mapping Value}
    (hR : t.labelsOf ("\n".intercalate parts) fileName = .ok R) :
    ∃ R', t.labelsOf ("\n".intercalate parts') fileName = .ok R' ∧ R.Perm R' := by
  obtain ⟨hread, hR⟩ := (labelsOf_intercalate h R).1 hR
  obtain ⟨R', hR', hRR⟩ := Document.resolvedLabels_concat_perm h.apart (hperm.map _) hR
  refine ⟨R', (labelsOf_intercalate (h.perm hperm) R').2 ⟨fun part hpart => ?_, hR'⟩, hRR⟩
  exact hread part (hperm.mem_iff.2 hpart)

/-- The order of parts with names of their own decides nothing but the order of the labels. -/
theorem labelsOf_perm {parts parts' : List String} (h : t.AreParts fileName parts)
    (hperm : parts.Perm parts') :
    ((∃ R, t.labelsOf ("\n".intercalate parts) fileName = .ok R) ↔
      ∃ R', t.labelsOf ("\n".intercalate parts') fileName = .ok R') ∧
    ∀ R R', t.labelsOf ("\n".intercalate parts) fileName = .ok R →
      t.labelsOf ("\n".intercalate parts') fileName = .ok R' → R.Perm R' ∧
      Mapping.keys R = parts.flatMap (fun part => Mapping.keys (t.documentOf fileName part).labels) ∧
      Mapping.keys R' =
        parts'.flatMap fun part => Mapping.keys (t.documentOf fileName part).labels := by
  refine ⟨⟨fun ⟨R, hR⟩ => ?_, fun ⟨R', hR'⟩ => ?_⟩, fun R R' hR hR' => ⟨?_, ?_, ?_⟩⟩
  · obtain ⟨R', hR', _⟩ := exists_labelsOf_perm h hperm hR
    exact ⟨R', hR'⟩
  · obtain ⟨R, hR, _⟩ := exists_labelsOf_perm (h.perm hperm) hperm.symm hR'
    exact ⟨R, hR⟩
  · obtain ⟨R'', hR'', hRR⟩ := exists_labelsOf_perm h hperm hR
    cases hR'.symm.trans hR''
    exact hRR
  · exact keys_of_labelsOf_intercalate h hR
  · exact keys_of_labelsOf_intercalate (h.perm hperm) hR'

theorem labelsOf_perm_forward :
    let t : FileTree := ⟨[], [(["base.loon"], .text "(base)\nport = 8080\nend\n")]⟩
    let copy := "(copy)\n[base]\nmode = [setting.mode]\nend\n"
    let setting := "%(setting)\nmode = fast\nend\n"
    let file := "@base.loon\n"
    ∃ R R', t.labelsOf ("\n".intercalate [copy, setting, file]) "main.loon" = .ok R ∧
      t.labelsOf ("\n".intercalate [file, setting, copy]) "main.loon" = .ok R' ∧
      Mapping.keys R = ["copy", "base"] ∧ Mapping.keys R' = ["base", "copy"] ∧ R.Perm R' := by
  intro t copy setting file
  have hcopy : statementsOf copy = .openLabel "copy" false ::
      ([.item "[base]", .assign "mode" "[setting.mode]"] ++ [.closeLabel]) := by decide +kernel
  have hsetting : statementsOf setting = .openLabel "setting" true ::
      ([.assign "mode" "fast"] ++ [.closeLabel]) := by decide +kernel
  have hfile : statementsOf file = [.importFile "base.loon"] := by decide +kernel
  have hnames : [copy, setting, file].map (fun part => (t.documentOf "main.loon" part).names) =
      [["copy"], ["setting"], ["base"]] := by decide +kernel
  have hparts : t.AreParts "main.loon" [copy, setting, file] := by
    refine ⟨?_, ?_⟩
    · simp only [List.forall_mem_cons, hcopy, hsetting, hfile]
      exact ⟨.block (by decide +kernel), .block (by decide +kernel), .imports, nofun⟩
    · simp only [List.map_cons, List.map_nil, List.cons.injEq] at hnames
      simp [Document.Apart, hnames]
  have hperm : [copy, setting, file].Perm [file, setting, copy] := List.reverse_perm _ |>.symm
  obtain ⟨hiff, horder⟩ := labelsOf_perm hparts hperm
  have hok : (t.labelsOf ("\n".intercalate [copy, setting, file]) "main.loon").toOption.isSome := by
    decide +kernel
  cases hR : t.labelsOf ("\n".intercalate [copy, setting, file]) "main.loon" with
  | error e =>
    rw [hR] at hok
    cases hok
  | ok R =>
    obtain ⟨R', hR'⟩ := hiff.1 ⟨R, hR⟩
    obtain ⟨hRR, hkeys, hkeys'⟩ := horder R R' hR hR'
    have hlabels : [copy, setting, file].map
        (fun part => Mapping.keys (t.documentOf "main.loon" part).labels) =
        [["copy"], [], ["base"]] := by decide +kernel
    simp only [List.map_cons, List.map_nil, List.cons.injEq] at hlabels
    refine ⟨R, R', rfl, hR', ?_, ?_, hRR⟩
    · rw [hkeys]
      simp [hlabels]
    · rw [hkeys']
      simp [hlabels]

end FileTree

end Loon
