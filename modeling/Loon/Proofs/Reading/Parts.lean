import Loon.Proofs.Reading.Bindings

namespace Loon

namespace Document

def names (d : Document) : List String := Mapping.keys d.labels ++ Mapping.keys d.hidden

def Apart (d other : Document) : Prop := ∀ name ∈ d.names, name ∉ other.names

theorem Apart.symm {d other : Document} (h : d.Apart other) : other.Apart d :=
  fun name hother hd => h name hd hother

theorem apart_empty (d : Document) : d.Apart empty := by
  simp [Apart, names, empty]

def append (d other : Document) : Document := ⟨d.labels ++ other.labels, d.hidden ++ other.hidden⟩

def concat (ds : List Document) : Document :=
  ⟨ds.flatMap Document.labels, ds.flatMap Document.hidden⟩

theorem concat_cons (d : Document) (ds : List Document) : concat (d :: ds) = d.append (concat ds) := rfl

theorem append_assoc (d other more : Document) :
    (d.append other).append more = d.append (other.append more) := by
  simp [append]

@[simp] theorem append_empty (d : Document) : d.append empty = d := by
  simp [append, empty]

theorem mem_names {d : Document} {name : String} :
    name ∈ d.names ↔ name ∈ Mapping.keys d.labels ∨ name ∈ Mapping.keys d.hidden := List.mem_append

theorem mem_names_append {d other : Document} {name : String} :
    name ∈ (d.append other).names ↔ name ∈ d.names ∨ name ∈ other.names := by
  simp only [mem_names, append, Mapping.keys_append, List.mem_append]
  tauto

theorem find?_eq_none {d : Document} {name : String} : d.find? name = none ↔ name ∉ d.names := by
  rw [mem_names, not_or, ← Mapping.get?_eq_none_iff, ← Mapping.get?_eq_none_iff, find?]
  cases Mapping.get? d.hidden name <;> simp

theorem find?_append {d other : Document} (h : d.Apart other) (name : String) :
    (d.append other).find? name = (d.find? name <|> other.find? name) := by
  rw [find?, append, Mapping.get?_append, Mapping.get?_append]
  by_cases hname : name ∈ d.names
  · have hother := h name hname
    rw [mem_names, not_or, ← Mapping.get?_eq_none_iff, ← Mapping.get?_eq_none_iff] at hother
    rw [find?, find?, hother.1, hother.2]
    cases Mapping.get? d.hidden name <;> cases Mapping.get? d.labels name <;> rfl
  · rw [mem_names, not_or, ← Mapping.get?_eq_none_iff, ← Mapping.get?_eq_none_iff] at hname
    rw [find?, find?, hname.1, hname.2]
    cases Mapping.get? other.hidden name <;> cases Mapping.get? other.labels name <;> rfl

theorem hidden_adoptLabels {d : Document} {labels : Mapping Value}
    (h : ∀ name ∈ Mapping.keys labels, name ∉ Mapping.keys d.hidden) :
    (labels.foldl (fun d entry => d.adoptLabel entry.1 entry.2) d).hidden = d.hidden := by
  induction labels generalizing d with
  | nil => rfl
  | cons entry labels ih =>
    rw [Mapping.keys_cons, List.forall_mem_cons] at h
    have hhidden : (d.adoptLabel entry.1 entry.2).hidden = d.hidden := by
      rw [adoptLabel]
      split
      · rfl
      · exact Mapping.erase_of_notMem h.1
    rw [List.foldl_cons, ih (by rw [hhidden]; exact h.2), hhidden]

theorem adopt_of_apart {d other : Document} (h : other.Apart d) :
    d.adopt other = ⟨d.labels ++ Mapping.ofList other.labels,
      d.hidden ++ Mapping.ofList other.hidden⟩ := by
  have hlabels : ∀ name ∈ Mapping.keys other.labels, name ∉ d.names := fun name hname =>
    h name (mem_names.2 (.inl hname))
  have hhidden : ∀ name ∈ Mapping.keys other.hidden, name ∉ d.names := fun name hname =>
    h name (mem_names.2 (.inr hname))
  simp only [mem_names, not_or] at hlabels hhidden
  rw [adopt, labels_adoptLabels, hidden_adoptLabels fun name hname => (hlabels name hname).2,
    Mapping.extend_of_disjoint fun name hname => (hlabels name hname).1,
    Mapping.extend_of_disjoint fun name hname => (hhidden name hname).2]

theorem define_of_notMem {d : Document} {name : String} (h : name ∉ d.names) (hidden : Bool)
    (body : Mapping Value) : d.define name hidden body = d.append (empty.define name hidden body) := by
  rw [mem_names, not_or] at h
  cases hidden with
  | false =>
    change (⟨Mapping.insert d.labels name _, Mapping.erase d.hidden name⟩ : Document) = _
    rw [Mapping.insert_of_notMem h.1, Mapping.erase_of_notMem h.2]
    simp [append, define, empty, Mapping.insert, Mapping.erase]
  | true =>
    change (⟨Mapping.erase d.labels name, Mapping.insert d.hidden name _⟩ : Document) = _
    rw [Mapping.insert_of_notMem h.2, Mapping.erase_of_notMem h.1]
    simp [append, define, empty, Mapping.insert, Mapping.erase]

theorem enclose_of_apart {d other : Document} (h : other.Apart d) :
    d.enclose other = ⟨d.labels, d.hidden ++ Mapping.ofList (other.labels ++ other.hidden)⟩ := by
  rw [enclose, ← Mapping.extend_append, Mapping.extend_of_disjoint]
  intro name hname
  rw [Mapping.keys_append] at hname
  exact fun hmem => h name hname (mem_names.2 (.inr hmem))

end Document

theorem Binding.apply_of_apart {d : Document} {b : Binding} (h : (b.apply .empty).Apart d) :
    b.apply d = d.append (b.apply .empty) := by
  have hkeys : ∀ {m : Mapping Value} {name}, name ∈ Mapping.keys (Mapping.ofList m) ↔
      name ∈ Mapping.keys m := by simp [Mapping.ofList, Mapping.mem_keys_extend]
  cases b with
  | label name hidden body =>
    refine Document.define_of_notMem (h name ?_) hidden body
    cases hidden <;> simp [apply, Document.define, Document.names, Document.empty, Mapping.insert]
  | adopted other =>
    have hnew : Document.empty.adopt other =
        ⟨Mapping.ofList other.labels, Mapping.ofList other.hidden⟩ :=
      Document.adopt_of_apart other.apart_empty
    simp only [apply, hnew] at h ⊢
    refine Document.adopt_of_apart fun name hname => h name ?_
    simpa [Document.mem_names, hkeys] using hname
  | enclosed other =>
    have hnew : Document.empty.enclose other =
        ⟨[], Mapping.ofList (other.labels ++ other.hidden)⟩ :=
      Document.enclose_of_apart other.apart_empty
    simp only [apply, hnew] at h ⊢
    rw [Document.enclose_of_apart fun name hname => h name ?_, Document.append, List.append_nil]
    simpa [Document.mem_names, hkeys] using hname

theorem Binding.foldl_apply_of_apart {bs : List Binding} {d : Document}
    (hd : ∀ b ∈ bs, (b.apply .empty).Apart d)
    (hbs : (bs.map fun b => b.apply .empty).Pairwise Document.Apart) :
    bs.foldl apply d = d.append (.concat (bs.map fun b => b.apply .empty)) := by
  induction bs generalizing d with
  | nil => exact d.append_empty.symm
  | cons b bs ih =>
    rw [List.forall_mem_cons] at hd
    rw [List.map_cons, List.pairwise_cons, List.forall_mem_map] at hbs
    rw [List.foldl_cons, apply_of_apart hd.1, ih _ hbs.2, List.map_cons, Document.concat_cons,
      Document.append_assoc]
    intro b' hb' name hname hmem
    rcases Document.mem_names_append.1 hmem with hmem | hmem
    · exact hd.2 b' hb' name hname hmem
    · exact hbs.1 b' hb' name hmem hname

/-- A complete label with nothing in it that looks other labels up, or a line that imports. -/
inductive IsPart : List Statement → Prop
  | block {name hidden body} :
      (∀ statement ∈ body, statement.isInner = true ∧ statement.isPlain = true) →
      IsPart (.openLabel name hidden :: (body ++ [.closeLabel]))
  | imports {target} : IsPart [.importFile target]

namespace Draft

variable {importer : Importer} {source : Source} {D : Document} {d' : Draft} {s s' : Session}

theorem put_replace {current : Option OpenLabel} {site : Site} {insertion : Insertion}
    (h : put ⟨D, current⟩ site insertion = .ok d') (E : Document) :
    d'.document = D ∧ put ⟨E, current⟩ site insertion = .ok ⟨E, d'.current⟩ := by
  obtain ⟨label, label', hlabel, hlabel', rfl⟩ := put_eq_ok.1 h
  exact ⟨rfl, put_eq_ok.2 ⟨label, label', hlabel, hlabel', rfl⟩⟩

theorem Writes.replace {current : Option OpenLabel} {site : Site} {statement : Statement}
    {insertion : Insertion} (hplain : statement.isPlain = true)
    (h : Writes ⟨D, current⟩ site statement insertion) (E : Document) :
    Writes ⟨E, current⟩ site statement insertion := by
  cases h with
  | pair hne hkey hv =>
    rw [Statement.isPlain, Option.isNone_iff_eq_none] at hplain
    rw [readKey, hplain] at hkey
    exact .pair hne (by rw [readKey, hplain, hkey]) hv
  | item hv => exact .item hv
  | value | copy => cases hplain

theorem step_replace {current : Option OpenLabel} {line : Line}
    (hinner : line.statement.isInner = true) (hplain : line.statement.isPlain = true)
    (h : step importer source ⟨D, current⟩ s line = (.ok d', s')) (E : Document) :
    d'.document = D ∧ step importer source ⟨E, current⟩ s line = (.ok ⟨E, d'.current⟩, s') := by
  simp only [step_eq_ok] at h ⊢
  cases h with
  | openLabel hstatement | closeLabel hstatement | imports hstatement =>
    simp [hstatement, Statement.isInner] at hinner
  | openSpace hstatement hlabel hnone hname => exact ⟨rfl, .openSpace hstatement hlabel hnone hname⟩
  | closeSpace hstatement hlabel hspace => exact ⟨rfl, .closeSpace hstatement hlabel hspace⟩
  | writes hwrites hput =>
    obtain ⟨hdocument, hput⟩ := put_replace hput E
    exact ⟨hdocument, .writes (hwrites.replace hplain E) hput⟩

theorem run_replace {current : Option OpenLabel} {lines : List Line}
    (hlines : ∀ line ∈ lines, line.statement.isInner = true ∧ line.statement.isPlain = true)
    (h : run importer source lines ⟨D, current⟩ s = (none, d', s')) (E : Document) :
    d'.document = D ∧ run importer source lines ⟨E, current⟩ s = (none, ⟨E, d'.current⟩, s') := by
  induction lines generalizing current s with
  | nil =>
    cases h
    exact ⟨rfl, rfl⟩
  | cons line lines ih =>
    rw [List.forall_mem_cons] at hlines
    obtain ⟨⟨D₁, current₁⟩, s₁, hstep, hrest⟩ := run_cons_eq_none.1 h
    obtain ⟨hdocument, hfirst⟩ := step_replace hlines.1.1 hlines.1.2 hstep E
    obtain rfl : D₁ = D := hdocument
    obtain ⟨hdocument, hrest⟩ := ih hlines.2 hrest
    exact ⟨hdocument, run_cons_eq_none.2 ⟨_, s₁, hfirst, hrest⟩⟩

def Binds (importer : Importer) (source : Source) (s : Session) (lines : List Line) (b : Binding) :
    Prop :=
  ∀ E, ∃ s', run importer source lines ⟨E, none⟩ s = (none, ⟨b.apply E, none⟩, s')

theorem binds_of_run_block {opening closing : Line} {inner : List Line} {name : String}
    {hidden : Bool} (hopening : opening.statement = .openLabel name hidden)
    (hinner : ∀ line ∈ inner, line.statement.isInner = true ∧ line.statement.isPlain = true)
    (hclosing : closing.statement = .closeLabel)
    (h : run importer source (opening :: (inner ++ [closing])) ⟨D, none⟩ s = (none, d', s')) :
    ∃ b : Binding, d' = ⟨b.apply D, none⟩ ∧
      Binds importer source s (opening :: (inner ++ [closing])) b := by
  obtain ⟨d₁, s₁, hopen, hrun⟩ := run_cons_eq_none.1 h
  simp only [step, hopening, Prod.mk.injEq] at hopen
  obtain ⟨_, hname, rfl⟩ := beginLabel_eq_ok.1 hopen.1
  obtain rfl := hopen.2
  obtain ⟨⟨D₂, current⟩, s₂, hgather, hrun⟩ := run_append_eq_none.1 hrun
  obtain ⟨d₃, s₃, hclose, hnil⟩ := run_cons_eq_none.1 hrun
  cases hnil
  obtain ⟨label, rfl, hspace, rfl⟩ := step_closeLabel hclosing hclose
  obtain rfl : D₂ = D := (run_replace hinner hgather D).1
  refine ⟨.label label.name label.hidden (BodyItem.fold label.items), rfl, fun E => ?_⟩
  have hopen : step importer source ⟨E, none⟩ s opening = (.ok ⟨E, _⟩, s) :=
    step_eq_ok.2 (.openLabel hopening rfl hname)
  have hend : step importer source ⟨E, some label⟩ s₂ closing = _ :=
    step_eq_ok.2 (.closeLabel hclosing rfl hspace)
  have hclose : run importer source [closing] ⟨E, some label⟩ s₂ = (none, _, _) :=
    run_cons_eq_none.2 ⟨_, _, hend, rfl⟩
  have hrest := run_append_eq_none.2 ⟨_, _, (run_replace hinner hgather E).2, hclose⟩
  exact ⟨_, run_cons_eq_none.2 ⟨_, _, hopen, hrest⟩⟩

theorem binds_of_run_import {target : String} {line : Line}
    (hline : line.statement = .importFile target)
    (h : run importer source [line] ⟨D, none⟩ s = (none, d', s')) :
    ∃ b : Binding, d' = ⟨b.apply D, none⟩ ∧ Binds importer source s [line] b := by
  obtain ⟨d₁, s₁, hstep, hnil⟩ := run_cons_eq_none.1 h
  cases hnil
  obtain ⟨other, himport, rfl⟩ := step_importFile hline hstep
  refine ⟨.adopted other, rfl, fun E => ?_⟩
  have hstep := (step_eq_ok (d := ⟨E, none⟩)).2 (.imports hline (Prod.ext himport rfl))
  exact ⟨_, run_cons_eq_none.2 ⟨_, _, hstep, rfl⟩⟩

theorem exists_binding {lines : List Line} (hpart : IsPart (lines.map Line.statement))
    (h : run importer source lines ⟨D, none⟩ s = (none, d', s')) :
    ∃ b : Binding, d' = ⟨b.apply D, none⟩ ∧ Binds importer source s lines b := by
  generalize hstatements : lines.map Line.statement = statements at hpart
  cases hpart with
  | block hbody =>
    obtain ⟨opening, rest, rfl, hopening, hrest⟩ := List.map_eq_cons_iff.1 hstatements
    obtain ⟨inner, last, rfl, rfl, hlast⟩ := List.map_eq_append_iff.1 hrest
    obtain ⟨closing, nothing, rfl, hclosing, hnothing⟩ := List.map_eq_cons_iff.1 hlast
    obtain rfl := List.map_eq_nil_iff.1 hnothing
    rw [List.forall_mem_map] at hbody
    exact binds_of_run_block hopening hbody hclosing h
  | imports =>
    obtain ⟨line, nothing, rfl, hline, hnothing⟩ := List.map_eq_cons_iff.1 hstatements
    obtain rfl := List.map_eq_nil_iff.1 hnothing
    exact binds_of_run_import hline h

end Draft

end Loon
