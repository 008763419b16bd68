import Loon.Proofs.Mapping
import Loon.Proofs.Reading.Steps

namespace Loon

def BodyItem.entries : BodyItem → Mapping Value
  | entry key v => [(key, v)]
  | merge entries => entries
  | bare v => [(v.text, .null)]

theorem BodyItem.apply_eq_extend (m : Mapping Value) (item : BodyItem) :
    item.apply m = Mapping.extend m item.entries := by
  cases item <;> rfl

theorem BodyItem.fold_append_one (items : List BodyItem) (item : BodyItem) :
    fold (items ++ [item]) = Mapping.extend (fold items) item.entries := by
  rw [fold_append, apply_eq_extend]

def Insertion.entries : Insertion → Mapping Value
  | pair key v => [(key, v)]
  | merge entries => entries
  | item _ => []

namespace Space

def keyed? : Space → Option (Mapping Value)
  | empty => some []
  | mapping entries => some entries
  | list _ => none

/-- The space has gathered the entries, and is a list of them and of more if an item came after. -/
def Gathered (content : Space) (entries : Mapping Value) : Prop :=
  content.keyed? = some entries ∨ ∃ items, content = .list (entries.map single ++ items)

variable {content content' : Space} {m : Mapping Value} {key : String} {v : Value}

theorem Gathered.insert (h : content.Gathered m) (hinsert : content.insert key v = some content') :
    content' = .mapping (Mapping.insert m key v) := by
  rcases h with h | ⟨items, rfl⟩
  · cases content <;> cases h <;> cases hinsert <;> rfl
  · cases hinsert

theorem Gathered.push (h : content.Gathered m) (v : Value) : (content.push v).Gathered m := by
  rcases h with h | ⟨items, rfl⟩
  · cases content with
    | list => cases h
    | _ =>
      cases h
      exact .inr ⟨[v], rfl⟩
  · exact .inr ⟨items ++ [v], by rw [Space.push, List.append_assoc]⟩

theorem Gathered.value (h : content.Gathered m) (hm : m ≠ []) :
    (∃ items, content.value = .list (m.map single ++ items)) ∨ content.value = .mapping m := by
  rcases h with h | ⟨items, rfl⟩
  · cases content <;> cases h
    · exact absurd rfl hm
    · exact .inr rfl
  · exact .inl ⟨items, rfl⟩

theorem merge_singleton (content : Space) (key : String) (v : Value) :
    content.merge [(key, v)] = content.insert key v := by
  cases content <;> rfl

end Space

namespace Draft

variable {d d' : Draft} {site : Site} {insertion : Insertion}

def insertion? (d : Draft) (site : Site) : Statement → Option Insertion
  | .assign key token =>
    match d.readKey site key, readValue site token with
    | .ok key, .ok v => some (.pair key v)
    | _, _ => none
  | .item token => (readValue site token).toOption.map .item
  | .inject target valueOnly =>
    match (Address.parse target).map fun a => (a.name, d.document.lookup a) with
    | some (name, .ok (some v)) => some (if valueOnly then .item v else .merge [(name, v)])
    | _ => none
  | _ => none

theorem Writes.insertion?_eq {statement : Statement} (h : d.Writes site statement insertion) :
    d.insertion? site statement = some insertion := by
  cases h with
  | pair _ hkey hv => rw [insertion?, hkey, hv]
  | item hv => rw [insertion?, hv]; rfl
  | value ha hv => rw [insertion?, ha, Option.map_some, hv]; rfl
  | copy ha hv => rw [insertion?, ha, Option.map_some, hv]; rfl

theorem Space.Gathered.put {content content' : Space} {m : Mapping Value} {statement : Statement}
    (h : content.Gathered m) (hwrites : d.Writes site statement insertion)
    (hput : insertion.put content = .ok content') :
    content'.Gathered (Mapping.extend m insertion.entries) := by
  cases hwrites with
  | item | value =>
    cases hput
    exact h.push _
  | pair =>
    rw [Insertion.put] at hput
    split at hput
    next hinsert =>
      cases hput
      rw [h.insert hinsert]
      exact .inl rfl
    · cases hput
  | copy =>
    rw [Insertion.put, Space.merge_singleton] at hput
    split at hput
    next hinsert =>
      cases hput
      rw [h.insert hinsert]
      exact .inl rfl
    · cases hput

section Lines

variable (importer : Importer) (source : Source)

/-- What a line writes in the label that is open, outside its spaces. A space that is closed is written
as a whole, and so are the labels of a file that is taken in. -/
def ownEntries? (d : Draft) (s : Session) (line : Line) : Option (Mapping Value) :=
  match d.current with
  | none => none
  | some label =>
    match label.space, line.statement with
    | none, .importFile target =>
      (importer target ⟨source, line.span⟩ s).1.toOption.map fun other =>
        [(label.name, .mapping other.labels)]
    | none, statement =>
      (d.insertion? ⟨⟨source, line.span⟩, line.text⟩ statement).map (·.bodyItem.entries)
    | some space, .closeSpace => some [(space.name, space.content.value)]
    | some _, _ => none

def spaceEntries? (d : Draft) (_ : Session) (line : Line) : Option (Mapping Value) :=
  (d.insertion? ⟨⟨source, line.span⟩, line.text⟩ line.statement).map Insertion.entries

def ownEntries (lines : List Line) (d : Draft) (s : Session) : Mapping Value :=
  (d.trace importer source (ownEntries? importer source) lines s).flatten

def spaceEntries (lines : List Line) (d : Draft) (s : Session) : Mapping Value :=
  (d.trace importer source (spaceEntries? source) lines s).flatten

variable {importer source} {s s' : Session} {line : Line} {lines : List Line} {label : OpenLabel}

theorem ownEntries_cons {d₁ : Draft} {s₁ : Session} (h : d.step importer source s line = (.ok d₁, s₁)) :
    d.ownEntries importer source (line :: lines) s =
      (d.ownEntries? importer source s line).getD [] ++ d₁.ownEntries importer source lines s₁ := by
  rw [ownEntries, trace_cons h, List.flatten_append, ← ownEntries]
  cases d.ownEntries? importer source s line <;> simp

theorem spaceEntries_cons {d₁ : Draft} {s₁ : Session} (h : d.step importer source s line = (.ok d₁, s₁)) :
    d.spaceEntries importer source (line :: lines) s =
      (d.spaceEntries? source s line).getD [] ++ d₁.spaceEntries importer source lines s₁ := by
  rw [spaceEntries, trace_cons h, List.flatten_append, ← spaceEntries]
  cases d.spaceEntries? source s line <;> simp

theorem ownEntries?_writes (hlabel : d.current = some label) (hspace : label.space = none)
    (h : d.Writes ⟨⟨source, line.span⟩, line.text⟩ line.statement insertion) :
    d.ownEntries? importer source s line = some insertion.bodyItem.entries := by
  have hinsertion := h.insertion?_eq
  simp only [ownEntries?, hlabel, hspace]
  generalize line.statement = statement at h hinsertion
  cases h <;> simp only [hinsertion] <;> rfl

theorem ownEntries?_within {space : OpenSpace} (hlabel : d.current = some label)
    (hspace : label.space = some space)
    (h : d.Writes ⟨⟨source, line.span⟩, line.text⟩ line.statement insertion) :
    d.ownEntries? importer source s line = none := by
  simp only [ownEntries?, hlabel, hspace]
  generalize line.statement = statement at h
  cases h <;> rfl

structure Continues (label : OpenLabel) (entries : Mapping Value) (label' : OpenLabel) : Prop where
  name : label'.name = label.name
  hidden : label'.hidden = label.hidden
  items : BodyItem.fold label'.items = Mapping.extend (BodyItem.fold label.items) entries

theorem Continues.trans {label' label'' : OpenLabel} {entries more : Mapping Value}
    (h : Continues label entries label') (h' : Continues label' more label'') :
    Continues label (entries ++ more) label'' where
  name := h'.name.trans h.name
  hidden := h'.hidden.trans h.hidden
  items := by rw [h'.items, h.items, Mapping.extend_append]

theorem step_own (hline : line.statement ≠ .closeLabel) (hlabel : d.current = some label)
    (h : d.step importer source s line = (.ok d', s')) :
    ∃ label', d'.current = some label' ∧
      Continues label ((d.ownEntries? importer source s line).getD []) label' := by
  have hnone : d.current ≠ none := fun hnone => nomatch hlabel.symm.trans hnone
  cases step_eq_ok.1 h with
  | openLabel _ hno => exact absurd hno hnone
  | closeLabel hstatement => exact absurd hstatement hline
  | openSpace hstatement hl hspace =>
    cases hlabel.symm.trans hl
    exact ⟨_, rfl, rfl, rfl, by simp [ownEntries?, hlabel, hspace, hstatement, insertion?]⟩
  | closeSpace hstatement hl hspace =>
    cases hlabel.symm.trans hl
    refine ⟨_, rfl, rfl, rfl, ?_⟩
    rw [BodyItem.fold_append_one, ownEntries?, hlabel]
    simp only [hspace, hstatement]
    rfl
  | imports hstatement himport =>
    rw [takeIn, hlabel]
    refine ⟨_, rfl, ?_⟩
    rw [OpenLabel.enclose]
    cases hspace : label.space with
    | none =>
      refine ⟨rfl, rfl, ?_⟩
      rw [BodyItem.fold_append_one]
      simp [ownEntries?, hlabel, hspace, hstatement, himport, BodyItem.entries, Except.toOption]
    | some space => exact ⟨rfl, rfl, by simp [ownEntries?, hlabel, hspace, hstatement]⟩
  | writes hwrites hput =>
    obtain ⟨l, label', hl, hput, rfl⟩ := put_eq_ok.1 hput
    cases hlabel.symm.trans hl
    refine ⟨label', rfl, ?_⟩
    rcases OpenLabel.put_eq_ok.1 hput with ⟨hspace, rfl⟩ | ⟨space, content, hspace, _, rfl⟩
    · exact ⟨rfl, rfl, by rw [BodyItem.fold_append_one, ownEntries?_writes hlabel hspace hwrites]; rfl⟩
    · exact ⟨rfl, rfl, by rw [ownEntries?_within hlabel hspace hwrites]; rfl⟩

theorem run_own (hlines : ∀ line ∈ lines, line.statement ≠ .closeLabel) (hlabel : d.current = some label)
    (h : d.run importer source lines s = (none, d', s')) :
    ∃ label', d'.current = some label' ∧
      Continues label (d.ownEntries importer source lines s) label' := by
  induction lines generalizing d s label with
  | nil =>
    cases h
    exact ⟨label, hlabel, rfl, rfl, rfl⟩
  | cons line lines ih =>
    rw [List.forall_mem_cons] at hlines
    obtain ⟨d₁, s₁, hstep, hrest⟩ := run_cons_eq_none.1 h
    obtain ⟨label₁, hlabel₁, hfirst⟩ := step_own hlines.1 hlabel hstep
    obtain ⟨label₂, hlabel₂, hmore⟩ := ih hlines.2 hlabel₁ hrest
    refine ⟨label₂, hlabel₂, ?_⟩
    rw [ownEntries_cons hstep]
    exact hfirst.trans hmore

theorem run_closing {closing : Line} (hlines : ∀ line ∈ lines, line.statement ≠ .closeLabel)
    (hclosing : closing.statement = .closeLabel) (hlabel : d.current = some label)
    (h : d.run importer source (lines ++ [closing]) s = (none, d', s')) :
    ∃ d₁ s₁, d.run importer source lines s = (none, d₁, s₁) ∧
      d' = ⟨d₁.document.define label.name label.hidden
        (Mapping.extend (BodyItem.fold label.items) (d.ownEntries importer source lines s)), none⟩ := by
  obtain ⟨d₁, s₁, hrun, hclose⟩ := run_append_eq_none.1 h
  obtain ⟨_, _, hclose, hnil⟩ := run_cons_eq_none.1 hclose
  cases hnil
  obtain ⟨label', hlabel', hcontinues⟩ := run_own hlines hlabel hrun
  obtain ⟨_, hlabel₁, -, rfl⟩ := step_closeLabel hclosing hclose
  cases hlabel'.symm.trans hlabel₁
  exact ⟨d₁, s₁, hrun, by rw [hcontinues.name, hcontinues.hidden, hcontinues.items]⟩

def Fills (label : OpenLabel) (name : String) (entries : Mapping Value) (d : Draft) : Prop :=
  ∃ space, d.current = some { label with space := some space } ∧ space.name = name ∧
    space.content.Gathered entries

theorem step_fills {name : String} {entries : Mapping Value} (hline : line.statement ≠ .closeSpace)
    (hd : Fills label name entries d) (h : d.step importer source s line = (.ok d', s')) :
    Fills label name (Mapping.extend entries ((d.spaceEntries? source s line).getD [])) d' := by
  obtain ⟨space, hlabel, hname, hgathered⟩ := hd
  cases step_eq_ok.1 h with
  | openLabel _ hnone => cases hlabel.symm.trans hnone
  | closeSpace hstatement => exact absurd hstatement hline
  | openSpace _ hl hnone | closeLabel _ hl hnone =>
    cases hlabel.symm.trans hl
    cases hnone
  | @imports target other _ hstatement =>
    rw [takeIn, hlabel]
    refine ⟨{ space with content := space.content.push (.mapping other.labels) }, rfl, hname, ?_⟩
    rw [spaceEntries?, hstatement]
    exact hgathered.push _
  | writes hwrites hput =>
    obtain ⟨l, label', hl, hput, rfl⟩ := put_eq_ok.1 hput
    cases hlabel.symm.trans hl
    rcases OpenLabel.put_eq_ok.1 hput with ⟨hnone, _⟩ | ⟨_, content, hspace, hcontent, rfl⟩
    · cases hnone
    · cases hspace
      refine ⟨{ space with content }, rfl, hname, ?_⟩
      rw [spaceEntries?, hwrites.insertion?_eq]
      exact Space.Gathered.put hgathered hwrites hcontent

theorem ownEntries?_fills {name : String} {entries : Mapping Value}
    (hline : line.statement ≠ .closeSpace) (hd : Fills label name entries d) :
    d.ownEntries? importer source s line = none := by
  obtain ⟨space, hlabel, _⟩ := hd
  simp only [ownEntries?, hlabel]

variable (importer source) in
/-- Of these lines the first ones write some entries in the space that is open, and the next one closes
it. So in the label stands the value of the space, before what the other lines write there. -/
def ClosesSpace (d : Draft) (s : Session) (lines : List Line) (name : String) (entries : Mapping Value)
    (v : Value) (others : Mapping Value) : Prop :=
  ∃ inner closing outer, lines = inner ++ closing :: outer ∧
    (∀ line ∈ inner, line.statement ≠ .closeSpace) ∧ closing.statement = .closeSpace ∧
    d.spaceEntries importer source inner s = entries ∧
    d.ownEntries importer source lines s = (name, v) :: others

theorem ClosesSpace.cons {name : String} {entries more others : Mapping Value} {v : Value} {d₁ : Draft}
    {s₁ : Session} (hline : line.statement ≠ .closeSpace) (hd : Fills label name entries d)
    (hstep : d.step importer source s line = (.ok d₁, s₁))
    (h : d₁.ClosesSpace importer source s₁ lines name more v others) :
    d.ClosesSpace importer source s (line :: lines) name
      ((d.spaceEntries? source s line).getD [] ++ more) v others := by
  obtain ⟨inner, closing, outer, rfl, hinner, hclosing, rfl, hothers⟩ := h
  refine ⟨line :: inner, closing, outer, rfl, List.forall_mem_cons.2 ⟨hline, hinner⟩, hclosing,
    spaceEntries_cons hstep, ?_⟩
  rw [ownEntries_cons hstep, ownEntries?_fills hline hd, hothers]
  rfl

theorem run_closesSpace {name : String} {entries : Mapping Value} {label' : OpenLabel}
    (hd : Fills label name entries d) (h : d.run importer source lines s = (none, d', s'))
    (hlabel' : d'.current = some label') (hspace' : label'.space = none) :
    ∃ (content : Space) (more others : Mapping Value),
      d.ClosesSpace importer source s lines name more content.value others ∧
      content.Gathered (Mapping.extend entries more) := by
  induction lines generalizing d s entries with
  | nil =>
    cases h
    obtain ⟨space, hlabel, _⟩ := hd
    cases hlabel.symm.trans hlabel'
    cases hspace'
  | cons line lines ih =>
    obtain ⟨d₁, s₁, hstep, hrest⟩ := run_cons_eq_none.1 h
    by_cases hline : line.statement = .closeSpace
    · obtain ⟨space, hlabel, hname, hgathered⟩ := hd
      refine ⟨space.content, [], d₁.ownEntries importer source lines s₁,
        ⟨[], line, lines, rfl, nofun, hline, rfl, ?_⟩, hgathered⟩
      rw [ownEntries_cons hstep, ← hname]
      simp [ownEntries?, hlabel, hline]
    · obtain ⟨content, more, others, hcloses, hgathered⟩ := ih (step_fills hline hd hstep) hrest
      exact ⟨content, _, others, hcloses.cons hline hd hstep, by rwa [Mapping.extend_append]⟩

end Lines

end Draft

end Loon
