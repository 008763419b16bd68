import Loon.Proofs.Reading.Frame
import Loon.Proofs.Reading.Throughout
import Loon.Proofs.Visibility

namespace Loon

namespace Address

def segments (a : Address) : List String := a.label :: (a.space.toList ++ a.field.toList)

theorem name_mem_segments (a : Address) : a.name ∈ a.segments := by
  obtain ⟨label, _ | space, _ | field⟩ := a <;> simp [name, segments]

end Address

namespace Statement

def reference? (token : String) : Option Address :=
  match Value.ofToken token with
  | .placeholder p => Address.parse p.expr
  | _ => none

def alias? (key : String) : Option Address :=
  (Text.after ['$'] key.toList).bind fun expr => Address.parse (String.ofList (Text.trim expr))

def addresses : Statement → List Address
  | assign key token => (alias? key).toList ++ (reference? token).toList
  | item token => (reference? token).toList
  | inject target _ => (Address.parse target).toList
  | _ => []

end Statement

namespace Document

variable {d other : Document} {name : String}

theorem names_define_subset (d : Document) (own : String) (hidden : Bool) (body : Mapping Value) :
    (d.define own hidden body).names ⊆ own :: d.names := by
  intro name hname
  by_contra hnone
  rw [List.mem_cons, not_or, ← find?_eq_none] at hnone
  refine find?_eq_none.1 ?_ hname
  rw [find?_define, if_neg (Ne.symm hnone.1), hnone.2]

theorem names_adopt_subset (d : Document) (h : other.Distinct) :
    (d.adopt other).names ⊆ d.names ++ other.names := by
  intro name hname
  by_contra hnone
  rw [List.mem_append, not_or, ← find?_eq_none, ← find?_eq_none] at hnone
  refine find?_eq_none.1 ?_ hname
  rw [find?_adopt d h, hnone.1, hnone.2]
  split <;> rfl

theorem names_enclose_subset (d : Document) (h : other.Distinct) :
    (d.enclose other).names ⊆ d.names ++ other.names := by
  intro name hname
  by_contra hnone
  rw [List.mem_append, not_or, ← find?_eq_none, ← find?_eq_none] at hnone
  refine find?_eq_none.1 ?_ hname
  rw [find?_enclose d h, hnone.1, hnone.2]
  rfl

end Document

namespace OpenLabel

@[simp] theorem name_enclose (l : OpenLabel) (labels : Mapping Value) :
    (l.enclose labels).name = l.name := by
  rw [enclose]
  split <;> rfl

@[simp] theorem hidden_enclose (l : OpenLabel) (labels : Mapping Value) :
    (l.enclose labels).hidden = l.hidden := by
  rw [enclose]
  split <;> rfl

end OpenLabel

namespace Draft

def BindsOnly (names : List String) (d : Draft) : Prop :=
  d.document.names ⊆ names ∧ ∀ label ∈ d.current, label.name ∈ names

variable {importer : Importer} {source : Source} {d d' : Draft} {s s' : Session} {line : Line}
variable {names : List String}

theorem bindsOnly_empty : empty.BindsOnly names := ⟨List.nil_subset names, nofun⟩

theorem BindsOnly.step (hopen : ∀ name hidden, line.statement = .openLabel name hidden → name ∈ names)
    (himport : ∀ target other s', line.statement = .importFile target →
      importer target ⟨source, line.span⟩ s = (.ok other, s') → other.Distinct ∧ other.names ⊆ names)
    (hd : d.BindsOnly names) (h : d.step importer source s line = (.ok d', s')) :
    d'.BindsOnly names := by
  obtain ⟨hdocument, hcurrent⟩ := hd
  cases step_eq_ok.1 h with
  | openLabel hstatement =>
    refine ⟨hdocument, ?_⟩
    rintro _ ⟨⟩
    exact hopen _ _ hstatement
  | @openSpace _ label _ hlabel | @closeSpace label _ _ hlabel =>
    refine ⟨hdocument, ?_⟩
    rintro _ ⟨⟩
    exact hcurrent label hlabel
  | @closeLabel label _ hlabel =>
    refine ⟨?_, nofun⟩
    exact List.Subset.trans (Document.names_define_subset ..)
      (List.cons_subset.2 ⟨hcurrent label hlabel, hdocument⟩)
  | imports hstatement hanswer =>
    obtain ⟨hdistinct, hother⟩ := himport _ _ _ hstatement hanswer
    have hnames := List.append_subset.2 ⟨hdocument, hother⟩
    obtain ⟨D, current⟩ := d
    cases current with
    | none => exact ⟨List.Subset.trans (Document.names_adopt_subset D hdistinct) hnames, nofun⟩
    | some label =>
      refine ⟨List.Subset.trans (Document.names_enclose_subset D hdistinct) hnames, ?_⟩
      rintro _ ⟨⟩
      rw [OpenLabel.name_enclose]
      exact hcurrent label rfl
  | writes _ hput =>
    obtain ⟨label, label', hlabel, rfl, hname, _⟩ := keeps_label_of_put hput
    refine ⟨hdocument, ?_⟩
    rintro _ ⟨⟩
    rw [hname]
    exact hcurrent label hlabel

end Draft

namespace FileTree

variable (t : FileTree)

/-- The names that statements of a file bind while the files on a chain are being read, those of the files
that they import among them. -/
def boundNames (chain : List Path) (fileName : String) (statements : List Statement) : List String :=
  statements.flatMap fun statement =>
    Mapping.keys (Outline.definitionsOf (t.outlineAt chain fileName false statement))

variable {t} {chain : List Path} {source : Source} {s s' : Session} {d : Document}

theorem definitionsOf_outlineAt (fileName : String) (inLabel : Bool) (statement : Statement) :
    Outline.definitionsOf (t.outlineAt chain fileName inLabel statement) =
      Outline.definitionsOf (t.outlineAt chain fileName false statement) := by
  cases statement with
  | importFile target =>
    rw [outlineAt, outlineAt]
    split
    · rfl
    · split
      · rfl
      · split <;> rfl
  | openLabel => simp
  | closeLabel => simp
  | _ => rw [outlineAt_inner rfl, outlineAt_inner rfl]

theorem keys_definitionsOf_outline (fileName : String) (inLabel : Bool) (statements : List Statement) :
    Mapping.keys (Outline.definitionsOf (t.outline chain fileName inLabel statements)) =
      t.boundNames chain fileName statements := by
  induction statements generalizing inLabel with
  | nil => rfl
  | cons statement rest ih =>
    rw [outline_cons, Outline.definitionsOf_append, Mapping.keys_append, ih,
      definitionsOf_outlineAt, boundNames, boundNames, List.flatMap_cons]

theorem mem_boundNames_of_openLabel {fileName name : String} {hidden : Bool}
    {statements : List Statement} (h : .openLabel name hidden ∈ statements) :
    name ∈ t.boundNames chain fileName statements := by
  refine List.mem_flatMap.2 ⟨_, h, ?_⟩
  rw [outlineAt_openLabel]
  exact List.mem_singleton_self name

theorem boundNames_importFile {fileName target content : String} {l : Location}
    (hfind : t.findTarget (Path.ofText fileName) target = .ok l)
    (hnew : chain.any (·.isAt l) = false) (hread : t.read l = .ok content) :
    t.boundNames chain fileName [.importFile target] =
      t.boundNames (chain ++ [Path.ofLocation l]) (sourceAt l content).name
        ((sourceAt l content).lines.map Line.statement) := by
  rw [boundNames, List.flatMap_singleton, outlineAt_import hfind hnew hread,
    ← keys_definitionsOf_outline _ false]
  simp [Outline.definitionsOf, Outline.definitions, outlineOf]

theorem boundNames_subset {fileName : String} {statement : Statement} {statements : List Statement}
    (h : statement ∈ statements) :
    t.boundNames chain fileName [statement] ⊆ t.boundNames chain fileName statements := by
  intro name hname
  rw [boundNames, List.flatMap_singleton] at hname
  exact List.mem_flatMap.2 ⟨statement, h, hname⟩

theorem bindsOnly_of_run {lines : List Line} {names : List String} {d d' : Draft}
    (himporter : ∀ target span s other s',
      t.importer chain target ⟨source, span⟩ s = (.ok other, s') →
        other.names ⊆ t.boundNames chain source.name [.importFile target])
    (hnames : t.boundNames chain source.name (lines.map Line.statement) ⊆ names)
    (hd : d.BindsOnly names) (h : d.run (t.importer chain) source lines s = (none, d', s')) :
    d'.BindsOnly names := by
  refine Draft.run_keeps (P := fun d _ => d.BindsOnly names) (fun line hline d s₁ d' s₂ hd => ?_) hd h
  have hmem := List.mem_map_of_mem (f := Line.statement) hline
  refine hd.step (fun name hidden hstatement => ?_) fun target other s₃ hstatement himport => ?_
  · exact hnames (mem_boundNames_of_openLabel (hstatement ▸ hmem))
  · refine ⟨t.importer_distinct chain (Prod.ext_iff.1 himport).1, ?_⟩
    refine List.Subset.trans (himporter _ _ _ _ _ himport) (List.Subset.trans ?_ hnames)
    rw [← hstatement]
    exact boundNames_subset hmem

theorem names_subset_of_importer {target : String} {place : Place} {other : Document}
    (h : t.importer chain target place s = (.ok other, s')) :
    other.names ⊆ t.boundNames chain place.source.name [.importFile target] := by
  induction chain using t.chain_induction generalizing target place s other s' with
  | h chain ih =>
    obtain ⟨l, content, s₁, hfind, hnew, hread, hreads, _⟩ := reads_of_importer h
    rw [boundNames_importFile hfind hnew hread]
    refine (bindsOnly_of_run ?_ (List.Subset.refl _) Draft.bindsOnly_empty hreads).1
    exact fun target span s other s' h => ih l content hread hnew h

theorem bindsOnly_run {lines : List Line} {names : List String} {d d' : Draft}
    (hnames : t.boundNames chain source.name (lines.map Line.statement) ⊆ names)
    (hd : d.BindsOnly names) (h : d.run (t.importer chain) source lines s = (none, d', s')) :
    d'.BindsOnly names := by
  refine bindsOnly_of_run ?_ hnames hd h
  exact fun target span s other s' h => names_subset_of_importer h

theorem mem_addresses_of_token {statement : Statement} {token expr : String} {a : Address}
    (h : statement.token? = some token) (htoken : Value.ofToken token = .placeholder { expr })
    (ha : Address.parse expr = some a) : a ∈ statement.addresses := by
  have href : Statement.reference? token = some a := by
    rw [Statement.reference?, htoken]
    exact ha
  cases statement with
  | assign key token =>
    cases h
    rw [Statement.addresses, href]
    exact List.mem_append_right _ (List.mem_singleton_self a)
  | item token =>
    cases h
    rw [Statement.addresses, href]
    exact List.mem_singleton_self a
  | _ => cases h

/-- Every reference in a document that is read stands in a line of a source that was read for it. -/
theorem Reads.exists_address (h : t.Reads chain source s d s') {p : Placeholder}
    (hp : p ∈ d.placeholders) : ∃ source' line a, t.Includes source source' ∧ line ∈ source'.lines ∧
      Address.parse p.expr = some a ∧ a ∈ line.statement.addresses := by
  let Stands (p : Placeholder) : Prop := ∃ source' line a, t.Includes source source' ∧
    line ∈ source'.lines ∧ Address.parse p.expr = some a ∧ a ∈ line.statement.addresses
  have hQ : Value.OfUnmarked (Value.References Stands) := Value.ofUnmarked_references fun _ => id
  refine (h.sound hQ fun source' hincludes => ?_).1.references p hp
  refine Source.tokens_references fun line hline token p htoken hexpr haddress _ => ?_
  obtain ⟨a, ha⟩ := Option.isSome_iff_exists.1 haddress
  exact ⟨source', line, a, hincludes, hline, ha, mem_addresses_of_token htoken hexpr ha⟩

end FileTree

end Loon
