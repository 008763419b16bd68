import Loon.Proofs.Mapping
import Loon.Proofs.Reading.Steps

/-!
The names that references see while a source is read. A label that is closed binds its name, and
each import binds every name of the imported document. The last step to bind a name decides what it
stands for, unless the name is taken twice, by a visible and by a hidden label, when a visible label
of its name is imported outside a label: the hidden one then stays in front.
-/

namespace Loon

inductive Binding
  | label (name : String) (hidden : Bool) (body : Mapping Value)
  | adopted (other : Document)
  | enclosed (other : Document)

namespace Binding

def apply (d : Document) : Binding → Document
  | label name hidden body => d.define name hidden body
  | adopted other => d.adopt other
  | enclosed other => d.enclose other

def value? : Binding → String → Option Value
  | label own _ body, name => if own = name then some (.mapping body) else none
  | adopted other, name => other.find? name
  | enclosed other, name => other.find? name

def imports : Binding → List Document
  | label .. => []
  | adopted other => [other]
  | enclosed other => [other]

/-- A hidden label of the document stays in front of the visible one that the step binds. -/
def Masked (d : Document) : Binding → String → Prop
  | adopted other, name =>
    name ∈ Mapping.keys other.labels ∧ name ∉ Mapping.keys other.hidden ∧
      name ∈ Mapping.keys d.labels ∧ name ∈ Mapping.keys d.hidden
  | _, _ => False

instance (d : Document) : (b : Binding) → (name : String) → Decidable (b.Masked d name)
  | adopted _, _ => inferInstanceAs (Decidable (_ ∧ _ ∧ _ ∧ _))
  | label .., _ => inferInstanceAs (Decidable False)
  | enclosed _, _ => inferInstanceAs (Decidable False)

end Binding

namespace Document

structure Distinct (d : Document) : Prop where
  labels : Mapping.Distinct d.labels
  hidden : Mapping.Distinct d.hidden

theorem distinct_empty : empty.Distinct := ⟨Mapping.distinct_nil, Mapping.distinct_nil⟩

variable {d : Document}

theorem Distinct.define (h : d.Distinct) (name : String) (hidden : Bool) (body : Mapping Value) :
    (d.define name hidden body).Distinct := by
  cases hidden with
  | false => exact ⟨h.labels.insert name _, h.hidden.erase name⟩
  | true => exact ⟨h.labels.erase name, h.hidden.insert name _⟩

theorem Distinct.adoptLabel (h : d.Distinct) (name : String) (v : Value) :
    (d.adoptLabel name v).Distinct := by
  refine ⟨h.labels.insert name v, ?_⟩
  rw [Document.adoptLabel]
  split
  · exact h.hidden
  · exact h.hidden.erase name

theorem Distinct.adoptLabels (h : d.Distinct) (labels : Mapping Value) :
    (labels.foldl (fun d entry => d.adoptLabel entry.1 entry.2) d).Distinct := by
  induction labels generalizing d with
  | nil => exact h
  | cons entry labels ih => exact ih (h.adoptLabel entry.1 entry.2)

theorem Distinct.apply (h : d.Distinct) (b : Binding) : (b.apply d).Distinct := by
  cases b with
  | label name hidden body => exact h.define name hidden body
  | adopted other =>
    have := h.adoptLabels other.labels
    exact ⟨this.labels, this.hidden.extend _⟩
  | enclosed other => exact ⟨h.labels, (h.hidden.extend _).extend _⟩

theorem Distinct.applyAll (h : d.Distinct) (bs : List Binding) :
    (bs.foldl Binding.apply d).Distinct := by
  induction bs generalizing d with
  | nil => exact h
  | cons b bs ih => exact ih (h.apply b)

theorem lookup_label (d : Document) (name : String) :
    d.lookup ⟨name, none, none⟩ = (d.find? name).elim (.error name) fun v => .ok (some v) := by
  rw [lookup]
  cases d.find? name <;> rfl

theorem find?_define (d : Document) (own : String) (hidden : Bool) (body : Mapping Value)
    (name : String) :
    (d.define own hidden body).find? name =
      if own = name then some (.mapping body) else d.find? name := by
  cases hidden <;> rcases eq_or_ne own name with rfl | hne <;>
    simp [define, find?, Mapping.get?_insert, Mapping.get?_erase, *]

theorem find?_enclose (d : Document) {other : Document} (h : other.Distinct) (name : String) :
    (d.enclose other).find? name = (other.find? name <|> d.find? name) := by
  rw [enclose, find?, Mapping.get?_extend h.hidden, Mapping.get?_extend h.labels, find?, find?]
  cases Mapping.get? other.hidden name <;> cases Mapping.get? other.labels name <;> rfl

theorem labels_adoptLabels (d : Document) (labels : Mapping Value) :
    (labels.foldl (fun d entry => d.adoptLabel entry.1 entry.2) d).labels =
      Mapping.extend d.labels labels := by
  induction labels generalizing d with
  | nil => rfl
  | cons entry labels ih => exact ih _

theorem labels_adopt (d other : Document) :
    (d.adopt other).labels = Mapping.extend d.labels other.labels :=
  labels_adoptLabels d other.labels

theorem get?_hidden_adoptLabels {labels : Mapping Value} (h : Mapping.Distinct labels)
    (d : Document) (name : String) :
    Mapping.get? (labels.foldl (fun d entry => d.adoptLabel entry.1 entry.2) d).hidden name =
      if name ∈ Mapping.keys labels ∧ name ∉ Mapping.keys d.labels then none
      else Mapping.get? d.hidden name := by
  induction labels generalizing d with
  | nil => simp
  | cons entry labels ih =>
    obtain ⟨own, v⟩ := entry
    obtain ⟨hown, hrest⟩ := h.of_cons
    rw [List.foldl_cons, ih hrest]
    rcases eq_or_ne own name with rfl | hne
    · by_cases htaken : own ∈ Mapping.keys d.labels <;>
        simp_all [adoptLabel, Mapping.contains, Mapping.mem_keys_iff, Mapping.get?_erase]
    · by_cases htaken : Mapping.contains d.labels own = true <;>
        simp [adoptLabel, htaken, hne, hne.symm, Mapping.mem_keys_iff, Mapping.get?_insert,
          Mapping.get?_erase]

theorem find?_adopt (d : Document) {other : Document} (h : other.Distinct) (name : String) :
    (d.adopt other).find? name =
      if Binding.Masked d (.adopted other) name then d.find? name
      else other.find? name <|> d.find? name := by
  rw [adopt, find?, Mapping.get?_extend h.hidden, get?_hidden_adoptLabels h.labels,
    labels_adoptLabels, Mapping.get?_extend h.labels]
  simp only [Binding.Masked, find?, Mapping.mem_keys_iff]
  cases Mapping.get? other.hidden name <;> cases Mapping.get? other.labels name <;>
    cases Mapping.get? d.hidden name <;> cases Mapping.get? d.labels name <;> simp

theorem find?_apply (d : Document) {b : Binding} (h : ∀ other ∈ b.imports, other.Distinct)
    (name : String) :
    (b.apply d).find? name =
      if b.Masked d name then d.find? name else b.value? name <|> d.find? name := by
  cases b with
  | label own hidden body =>
    have hmasked : ¬ Binding.Masked d (.label own hidden body) name := id
    rw [Binding.apply, find?_define, if_neg hmasked, Binding.value?]
    split <;> rfl
  | adopted other => exact find?_adopt d (h other (List.mem_singleton_self _)) name
  | enclosed other =>
    have hmasked : ¬ Binding.Masked d (.enclosed other) name := id
    rw [Binding.apply, find?_enclose d (h other (List.mem_singleton_self _)), if_neg hmasked]
    rfl

theorem find?_applyAll (d : Document) {bs : List Binding} {name : String}
    (h : ∀ b ∈ bs, ∀ other ∈ b.imports, other.Distinct) (hname : ∀ b ∈ bs, b.value? name = none) :
    (bs.foldl Binding.apply d).find? name = d.find? name := by
  induction bs generalizing d with
  | nil => rfl
  | cons b bs ih =>
    rw [List.forall_mem_cons] at h hname
    rw [List.foldl_cons, ih _ h.2 hname.2, find?_apply d h.1, hname.1]
    split <;> rfl

end Document

namespace Draft

variable (importer : Importer) (source : Source)

def binding? (d : Draft) (s : Session) (line : Line) : Option Binding :=
  match line.statement with
  | .closeLabel =>
    d.current.map fun label => .label label.name label.hidden (BodyItem.fold label.items)
  | .importFile target =>
    match (importer target ⟨source, line.span⟩ s).1 with
    | .ok other => some (if d.current.isNone then .adopted other else .enclosed other)
    | .error _ => none
  | _ => none

def bindings : List Line → Draft → Session → List Binding :=
  trace importer source (binding? importer source)

variable {importer source} {d d' : Draft} {s s' : Session} {line : Line}

theorem document_of_put {site : Site} {insertion : Insertion}
    (h : d.put site insertion = .ok d') : d'.document = d.document := by
  obtain ⟨_, _, _, _, rfl⟩ := put_eq_ok.1 h
  rfl

theorem step_document (h : d.step importer source s line = (.ok d', s')) :
    d'.document = (d.binding? importer source s line).elim d.document (Binding.apply d.document) := by
  cases step_eq_ok.1 h with
  | openLabel hstatement => simp [binding?, hstatement]
  | openSpace hstatement => simp [binding?, hstatement]
  | closeSpace hstatement => simp [binding?, hstatement]
  | closeLabel hstatement hlabel => simp [binding?, hstatement, hlabel, Binding.apply]
  | imports hstatement himport =>
    rw [binding?, hstatement]
    dsimp only
    rw [himport, takeIn]
    cases d.current <;> rfl
  | writes hwrites hput =>
    rw [document_of_put hput, binding?]
    generalize line.statement = statement at hwrites
    cases hwrites <;> rfl

theorem run_document (importer : Importer) (source : Source) (lines : List Line) (d : Draft)
    (s : Session) :
    (d.run importer source lines s).2.1.document =
      (d.bindings importer source lines s).foldl Binding.apply d.document := by
  induction lines generalizing d s with
  | nil => rfl
  | cons line lines ih =>
    rw [run, bindings, trace]
    cases hstep : d.step importer source s line with
    | mk result s' =>
      cases result with
      | error e => rfl
      | ok d' =>
        dsimp only
        rw [ih, step_document hstep, List.foldl_append]
        cases d.binding? importer source s line <;> rfl

theorem forall_imports_binding? {P : Document → Prop}
    (h : ∀ target place s other, (importer target place s).1 = .ok other → P other)
    (d : Draft) (s : Session) (line : Line) :
    ∀ b ∈ d.binding? importer source s line, ∀ other ∈ b.imports, P other := by
  intro b hb other hother
  unfold binding? at hb
  split at hb
  · obtain ⟨_, _, rfl⟩ := Option.map_eq_some_iff.1 hb
    cases hother
  next target _ =>
    split at hb
    next document himport =>
      have hdocument := h target _ s document himport
      cases hb
      split at hother <;> cases hother with
      | head => exact hdocument
      | tail _ hnil => cases hnil
    · cases hb
  · cases hb

theorem forall_imports_bindings {P : Document → Prop}
    (h : ∀ target place s other, (importer target place s).1 = .ok other → P other)
    (lines : List Line) (d : Draft) (s : Session) :
    ∀ b ∈ d.bindings importer source lines s, ∀ other ∈ b.imports, P other :=
  forall_mem_trace (forall_imports_binding? h) lines d s

end Draft

theorem Reader.distinct_of_read {importer : Importer} {source : Source} {s : Session}
    {d : Document} (h : ((ofSource source).read importer s).1 = .ok d) : d.Distinct := by
  obtain ⟨s', hrun⟩ := read_eq_ok.1 h
  have hdocument := Draft.run_document importer source source.lines .empty s
  rw [hrun] at hdocument
  dsimp only at hdocument
  rw [hdocument]
  exact Document.distinct_empty.applyAll _

namespace FileTree

variable (t : FileTree) (chain : List Path)

theorem importer_distinct {target : String} {place : Place} {s : Session} {other : Document}
    (h : (t.importer chain target place s).1 = .ok other) : other.Distinct := by
  rw [importer] at h
  split at h
  · cases h
  · dsimp only at h
    split at h
    · cases h
    · split at h
      · cases h
      · split at h
        next hread =>
          cases h
          exact Reader.distinct_of_read (Prod.ext_iff.1 hread).1
        · cases h

/-- While a source is read, a name stands for what the last step to bind it says; where that step
is masked, for what it stood for before. A name that no step binds stands for nothing. -/
theorem lookup_run (source : Source) (lines : List Line) (s : Session) (name : String) :
    let bs := Draft.bindings (t.importer chain) source lines .empty s
    let d := (Draft.run (t.importer chain) source lines .empty s).2.1.document
    ((∀ b ∈ bs, b.value? name = none) → d.lookup ⟨name, none, none⟩ = .error name) ∧
    ∀ before b after v, bs = before ++ b :: after → b.value? name = some v →
      (∀ b ∈ after, b.value? name = none) →
      let earlier := before.foldl Binding.apply .empty
      d.lookup ⟨name, none, none⟩ =
        if b.Masked earlier name then earlier.lookup ⟨name, none, none⟩ else .ok (some v) := by
  intro bs d
  have himports : ∀ b ∈ bs, ∀ other ∈ b.imports, other.Distinct :=
    Draft.forall_imports_bindings (fun _ _ _ _ => t.importer_distinct chain) lines .empty s
  have hdocument : d = bs.foldl Binding.apply .empty := Draft.run_document _ source lines .empty s
  refine ⟨fun hunbound => ?_, fun before b after v hbs hv hafter => ?_⟩
  · have hfind : d.find? name = none := by
      rw [hdocument, Document.find?_applyAll .empty himports hunbound]
      rfl
    rw [Document.lookup_label, hfind]
    rfl
  · intro earlier
    rw [hbs] at himports hdocument
    rw [List.forall_mem_append, List.forall_mem_cons] at himports
    have hfind : d.find? name = if b.Masked earlier name then earlier.find? name else some v := by
      rw [hdocument, List.foldl_append, List.foldl_cons,
        Document.find?_applyAll _ himports.2.2 hafter, Document.find?_apply earlier himports.2.1, hv]
      rfl
    rw [Document.lookup_label, Document.lookup_label, hfind]
    by_cases hmasked : b.Masked earlier name
    · rw [if_pos hmasked, if_pos hmasked]
    · rw [if_neg hmasked, if_neg hmasked]
      rfl

theorem lookup_run_hidden :
    let lines : List Line := [⟨.openLabel "n" false, "(n)", 1, 0⟩, ⟨.closeLabel, "end", 2, 4⟩,
      ⟨.openLabel "n" true, "%(n)", 3, 8⟩, ⟨.assign "k" "a", "k = a", 4, 13⟩,
      ⟨.closeLabel, "end", 5, 19⟩]
    (Draft.run (importer ⟨[], []⟩ []) ⟨"main.loon", ""⟩ lines .empty .empty).2.1.document.lookup
      ⟨"n", none, none⟩ = .ok (some (.mapping [("k", .string "a")])) :=
  (lookup_run ⟨[], []⟩ [] ⟨"main.loon", ""⟩ _ .empty "n").2 [.label "n" false []]
    (.label "n" true [("k", .string "a")]) [] _ rfl rfl nofun

/-- A visible label that is imported over a visible and a hidden one of its name does not get the
name: references go on finding the hidden label. -/
theorem lookup_stale_hidden :
    let t : FileTree := ⟨[], [(["h.loon"], .text "%(n)\nk = b\nend\n"),
      (["v.loon"], .text "(n)\nk = c\nend\n")]⟩
    let source : Source := ⟨"/main.loon", "(n)\nk = a\nend\n@h.loon\n@v.loon\n"⟩
    let importer := t.importer [t.canonical source.name]
    let field (v : Option Value) := (v.bind fun v => v.get? "k").bind Value.string?
    let bs := Draft.bindings importer source source.lines .empty .empty
    let d := (Draft.run importer source source.lines .empty .empty).2.1.document
    field (bs.getLast?.bind fun b => b.value? "n") = some "c" ∧
      field (d.lookup ⟨"n", none, none⟩).toOption.join = some "b" := by
  dsimp only
  decide +kernel

end FileTree

end Loon
