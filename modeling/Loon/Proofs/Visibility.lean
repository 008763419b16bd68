import Loon.Proofs.Reading.Bindings
import Loon.Proofs.Reading.Imports

/-!
Where a name stands after a source is read whose imports are outside its labels: among the visible
labels or among the hidden ones, as its last definition says. An import that brings a hidden label
for a visible one is the exception. It leaves the name in both places, until the source itself
closes a label of that name.
-/

namespace Loon

/-- What a source says of labels, in the order it is written: the labels it opens, and what each
imported file says in its turn. -/
inductive Outline
  | label (name : String) (hidden : Bool)
  | file (inLabel : Bool) (parts : List Outline)

namespace Outline

mutual

def definitions : Outline → Mapping Bool
  | label name hidden => [(name, hidden)]
  | file _ parts => definitionsOf parts

def definitionsOf : List Outline → Mapping Bool
  | [] => []
  | part :: rest => part.definitions ++ definitionsOf rest

end

def last? (parts : List Outline) (name : String) : Option Bool :=
  Mapping.get? (definitionsOf parts).reverse name

mutual

def isOutside : Outline → Bool
  | label .. => true
  | file inLabel parts => !inLabel && areOutside parts

def areOutside : List Outline → Bool
  | [] => true
  | part :: rest => part.isOutside && areOutside rest

end

/-- An import brings a hidden definition of a name for a visible one, here or in a file that is
imported, and no label of that name is defined after it but by imports. -/
inductive Clash (name : String) : List Outline → Prop
  | brings {before inLabel parts} : last? before name = some false → last? parts name = some true →
      Clash name (before ++ [file inLabel parts])
  | within {before inLabel parts} : Clash name parts → Clash name (before ++ [file inLabel parts])
  | lasts {before part} : (∀ hidden, part ≠ label name hidden) → Clash name before →
      Clash name (before ++ [part])

theorem definitionsOf_append (parts more : List Outline) :
    definitionsOf (parts ++ more) = definitionsOf parts ++ definitionsOf more := by
  induction parts with
  | nil => rfl
  | cons part parts ih => simp [definitionsOf, ih]

theorem last?_append_label (parts : List Outline) (own : String) (hidden : Bool) (name : String) :
    last? (parts ++ [label own hidden]) name =
      if own = name then some hidden else last? parts name := by
  simp only [last?, definitionsOf_append, definitionsOf, definitions, List.append_nil,
    List.reverse_append, List.reverse_singleton, Mapping.get?_append, Mapping.get?]
  split <;> rfl

theorem last?_append_file (parts : List Outline) (inLabel : Bool) (inner : List Outline)
    (name : String) :
    last? (parts ++ [file inLabel inner]) name = (last? inner name <|> last? parts name) := by
  simp only [last?, definitionsOf_append, definitionsOf, definitions, List.append_nil,
    List.reverse_append, Mapping.get?_append]

variable {name : String} {parts : List Outline}

theorem not_clash_nil : ¬ Clash name [] := by
  intro h
  generalize hnil : ([] : List Outline) = parts at h
  cases h <;> simp at hnil

theorem clash_append_label {own : String} {hidden : Bool} :
    Clash name (parts ++ [label own hidden]) ↔ own ≠ name ∧ Clash name parts := by
  constructor
  · intro h
    generalize hparts : parts ++ [label own hidden] = all at h
    cases h with
    | brings | within => simp at hparts
    | lasts hne hbefore =>
      obtain ⟨rfl, hpart⟩ := List.append_inj' hparts rfl
      cases hpart
      exact ⟨fun heq => hne hidden (by rw [heq]), hbefore⟩
  · rintro ⟨hne, h⟩
    exact .lasts (fun hidden' heq => hne (by cases heq; rfl)) h

theorem clash_append_file {inLabel : Bool} {inner : List Outline} :
    Clash name (parts ++ [file inLabel inner]) ↔
      Clash name parts ∨ Clash name inner ∨
        last? parts name = some false ∧ last? inner name = some true := by
  constructor
  · intro h
    generalize hparts : parts ++ [file inLabel inner] = all at h
    cases h with
    | brings hbefore hinner =>
      obtain ⟨rfl, hpart⟩ := List.append_inj' hparts rfl
      cases hpart
      exact .inr (.inr ⟨hbefore, hinner⟩)
    | within hinner =>
      obtain ⟨rfl, hpart⟩ := List.append_inj' hparts rfl
      cases hpart
      exact .inr (.inl hinner)
    | lasts _ hbefore =>
      obtain ⟨rfl, _⟩ := List.append_inj' hparts rfl
      exact .inl hbefore
  · rintro (h | h | ⟨hbefore, hinner⟩)
    · exact .lasts nofun h
    · exact .within h
    · exact .brings hbefore hinner

end Outline

namespace Document

variable {d other : Document} {name : String} {parts inner : List Outline}

theorem mem_labels_define {own : String} {hidden : Bool} {body : Mapping Value} :
    name ∈ Mapping.keys (d.define own hidden body).labels ↔
      if own = name then hidden = false else name ∈ Mapping.keys d.labels := by
  cases hidden <;> rcases eq_or_ne own name with rfl | hne <;>
    simp [define, Mapping.mem_keys_iff, Mapping.get?_insert, Mapping.get?_erase, *]

theorem mem_hidden_define {own : String} {hidden : Bool} {body : Mapping Value} :
    name ∈ Mapping.keys (d.define own hidden body).hidden ↔
      if own = name then hidden = true else name ∈ Mapping.keys d.hidden := by
  cases hidden <;> rcases eq_or_ne own name with rfl | hne <;>
    simp [define, Mapping.mem_keys_iff, Mapping.get?_insert, Mapping.get?_erase, *]

theorem mem_labels_adopt :
    name ∈ Mapping.keys (d.adopt other).labels ↔
      name ∈ Mapping.keys d.labels ∨ name ∈ Mapping.keys other.labels := by
  rw [labels_adopt, Mapping.mem_keys_extend]

theorem mem_hidden_adopt (h : Mapping.Distinct other.labels) :
    name ∈ Mapping.keys (d.adopt other).hidden ↔
      name ∈ Mapping.keys other.hidden ∨
        name ∈ Mapping.keys d.hidden ∧
          (name ∈ Mapping.keys other.labels → name ∈ Mapping.keys d.labels) := by
  rw [adopt, Mapping.mem_keys_extend, Mapping.mem_keys_iff _ name, get?_hidden_adoptLabels h]
  simp only [Mapping.mem_keys_iff]
  by_cases hother : (Mapping.get? other.labels name).isSome <;>
    by_cases hlabels : (Mapping.get? d.labels name).isSome <;> simp_all [or_comm]

structure Places (d : Document) (name : String) (hidden? : Option Bool) : Prop where
  labels : name ∈ Mapping.keys d.labels ↔ hidden? = some false
  hidden : name ∈ Mapping.keys d.hidden ↔ hidden? = some true

structure Follows (d : Document) (name : String) (parts : List Outline) : Prop where
  both : Outline.Clash name parts →
    name ∈ Mapping.keys d.labels ∧ name ∈ Mapping.keys d.hidden
  places : ¬ Outline.Clash name parts → d.Places name (Outline.last? parts name)

theorem follows_empty (name : String) : empty.Follows name [] where
  both h := absurd h Outline.not_clash_nil
  places _ := ⟨by simp [empty, Outline.last?, Outline.definitionsOf],
    by simp [empty, Outline.last?, Outline.definitionsOf]⟩

theorem Follows.define (h : d.Follows name parts) (own : String) (hidden : Bool)
    (body : Mapping Value) :
    (d.define own hidden body).Follows name (parts ++ [.label own hidden]) := by
  constructor
  · rw [Outline.clash_append_label, mem_labels_define, mem_hidden_define]
    rintro ⟨hne, hclash⟩
    rw [if_neg hne, if_neg hne]
    exact h.both hclash
  · rw [Outline.clash_append_label, Outline.last?_append_label]
    intro hclash
    rcases eq_or_ne own name with rfl | hne
    · exact ⟨by simp [mem_labels_define], by simp [mem_hidden_define]⟩
    · have hplaces := h.places fun hparts => hclash ⟨hne, hparts⟩
      exact ⟨by simpa [mem_labels_define, hne] using hplaces.labels,
        by simpa [mem_hidden_define, hne] using hplaces.hidden⟩

theorem Follows.adopt (h : d.Follows name parts) (hother : other.Follows name inner)
    (hdistinct : Mapping.Distinct other.labels) (inLabel : Bool) :
    (d.adopt other).Follows name (parts ++ [.file inLabel inner]) := by
  constructor
  · rw [Outline.clash_append_file, mem_labels_adopt, mem_hidden_adopt hdistinct]
    intro hclash
    by_cases hparts : Outline.Clash name parts
    · obtain ⟨hlabels, hhidden⟩ := h.both hparts
      exact ⟨.inl hlabels, .inr ⟨hhidden, fun _ => hlabels⟩⟩
    · by_cases hinner : Outline.Clash name inner
      · obtain ⟨hlabels, hhidden⟩ := hother.both hinner
        exact ⟨.inr hlabels, .inl hhidden⟩
      · obtain ⟨hlast, hlast'⟩ := (hclash.resolve_left hparts).resolve_left hinner
        exact ⟨.inl ((h.places hparts).labels.2 hlast), .inl ((hother.places hinner).hidden.2 hlast')⟩
  · rw [Outline.clash_append_file, not_or, not_or, Outline.last?_append_file]
    rintro ⟨hparts, hinner, hbrings⟩
    obtain ⟨hlabels, hhidden⟩ := h.places hparts
    obtain ⟨hlabels', hhidden'⟩ := hother.places hinner
    generalize Outline.last? parts name = old at *
    generalize Outline.last? inner name = new at *
    constructor
    · rw [mem_labels_adopt, hlabels, hlabels']
      rcases old with _ | _ | _ <;> rcases new with _ | _ | _ <;> simp_all
    · rw [mem_hidden_adopt hdistinct, hlabels, hlabels', hhidden, hhidden']
      rcases old with _ | _ | _ <;> rcases new with _ | _ | _ <;> simp_all

end Document

def Statement.leavesOpen (inLabel : Bool) : Statement → Bool
  | openLabel .. => true
  | closeLabel => false
  | _ => inLabel

theorem Statement.leavesOpen_inner {statement : Statement} (h : statement.isInner = true)
    (inLabel : Bool) : statement.leavesOpen inLabel = inLabel := by
  cases statement with
  | openLabel | closeLabel | importFile => cases h
  | _ => rfl

def Statement.placed (inLabel : Bool) : List Statement → List (Bool × Statement)
  | [] => []
  | statement :: rest => (inLabel, statement) :: placed (statement.leavesOpen inLabel) rest

namespace FileTree

variable (t : FileTree)

/-- What a statement of a file says of labels while the files on a chain are being read. A file that
cannot be read says nothing; its import fails. -/
def outlineAt (chain : List Path) (fileName : String) (inLabel : Bool) : Statement → List Outline
  | .openLabel name hidden => [.label name hidden]
  | .importFile target =>
    match t.findTarget (Path.ofText fileName) target with
    | .error _ => []
    | .ok l =>
      if chain.any (·.isAt l) then []
      else
        match _hread : t.read l with
        | .error _ => []
        | .ok content =>
          [.file inLabel <|
            (Statement.placed false ((sourceAt l content).lines.map Line.statement)).flatMap
              fun (inner, statement) => outlineAt (chain ++ [Path.ofLocation l])
                (sourceAt l content).name inner statement]
  | _ => []
termination_by t.unopened chain
decreasing_by exact unopened_append_lt (mem_entries_of_read _hread) (by assumption)

def outline (chain : List Path) (fileName : String) (inLabel : Bool) (statements : List Statement) :
    List Outline :=
  (Statement.placed inLabel statements).flatMap fun (inner, statement) =>
    t.outlineAt chain fileName inner statement

def outlineOf (chain : List Path) (source : Source) : List Outline :=
  t.outline chain source.name false (source.lines.map Line.statement)

def pending : Option OpenLabel → List Outline
  | none => []
  | some label => [.label label.name label.hidden]

def outlineFrom (chain : List Path) (fileName : String) (current : Option OpenLabel)
    (lines : List Line) : List Outline :=
  pending current ++ t.outline chain fileName current.isSome (lines.map Line.statement)

variable {t} {chain : List Path} {source : Source} {s s' : Session} {d d' : Draft} {line : Line}
variable {lines : List Line} {name : String}

theorem outline_cons (fileName : String) (inLabel : Bool) (statement : Statement)
    (rest : List Statement) :
    t.outline chain fileName inLabel (statement :: rest) =
      t.outlineAt chain fileName inLabel statement ++
        t.outline chain fileName (statement.leavesOpen inLabel) rest := rfl

theorem outlineAt_inner {statement : Statement} (h : statement.isInner = true) (fileName : String)
    (inLabel : Bool) : t.outlineAt chain fileName inLabel statement = [] := by
  cases statement with
  | openLabel | closeLabel | importFile => cases h
  | _ => simp only [outlineAt]

@[simp] theorem outlineAt_openLabel (fileName : String) (inLabel : Bool) (own : String)
    (hidden : Bool) : t.outlineAt chain fileName inLabel (.openLabel own hidden) =
      [.label own hidden] := by
  simp only [outlineAt]

@[simp] theorem outlineAt_closeLabel (fileName : String) (inLabel : Bool) :
    t.outlineAt chain fileName inLabel .closeLabel = [] := by
  simp only [outlineAt]

theorem outlineAt_import {target content : String} {l : Location} {fileName : String}
    (hfind : t.findTarget (Path.ofText fileName) target = .ok l)
    (hnew : chain.any (·.isAt l) = false) (hread : t.read l = .ok content) (inLabel : Bool) :
    t.outlineAt chain fileName inLabel (.importFile target) =
      [.file inLabel (t.outlineOf (chain ++ [Path.ofLocation l]) (sourceAt l content))] := by
  rw [outlineAt, hfind]
  dsimp only
  rw [if_neg (by simp [hnew])]
  split
  next h => simp [hread] at h
  next h =>
    cases hread.symm.trans h
    rfl

theorem follows_of_run {d' : Document}
    (hfiles : ∀ l content, t.read l = .ok content → chain.any (·.isAt l) = false →
      ∀ s d s', t.Reads (chain ++ [Path.ofLocation l]) (sourceAt l content) s d s' →
        Outline.areOutside (t.outlineOf (chain ++ [Path.ofLocation l]) (sourceAt l content)) →
        d.Follows name (t.outlineOf (chain ++ [Path.ofLocation l]) (sourceAt l content)))
    {parts : List Outline} (hparts : d.document.Follows name parts)
    (houtside : Outline.areOutside (t.outlineFrom chain source.name d.current lines))
    (hrun : d.run (t.importer chain) source lines s = (none, ⟨d', none⟩, s')) :
    d'.Follows name (parts ++ t.outlineFrom chain source.name d.current lines) := by
  induction lines generalizing d s parts with
  | nil =>
    cases hrun
    simpa [outlineFrom, pending, outline, Statement.placed] using hparts
  | cons line lines ih =>
    obtain ⟨d₁, s₁, hstep, hrest⟩ := Draft.run_cons_eq_none.1 hrun
    obtain ⟨document, current⟩ := d
    rw [outlineFrom, List.map_cons, outline_cons] at houtside ⊢
    by_cases hinner : line.statement.isInner = true
    · obtain ⟨label, label', hlabel, rfl, hname, hhidden⟩ := Draft.step_inner hinner hstep
      cases hlabel
      rw [outlineAt_inner hinner, Statement.leavesOpen_inner hinner, List.nil_append] at houtside ⊢
      rw [pending, ← hname, ← hhidden] at houtside ⊢
      exact ih (d := ⟨document, some label'⟩) hparts houtside hrest
    · cases hstatement : line.statement with
      | openLabel own hidden =>
        simp only [Draft.step, hstatement] at hstep
        obtain ⟨hnone, _, rfl⟩ := Draft.beginLabel_eq_ok.1 (Prod.ext_iff.1 hstep).1
        cases hnone
        rw [hstatement] at houtside
        rw [outlineAt_openLabel] at houtside ⊢
        exact ih (d := ⟨document, some ⟨own, hidden, [], none, ⟨source, line.span⟩⟩⟩) hparts
          houtside hrest
      | closeLabel =>
        obtain ⟨label, hlabel, _, rfl⟩ := Draft.step_closeLabel hstatement hstep
        cases hlabel
        rw [hstatement] at houtside
        rw [outlineAt_closeLabel, pending, List.nil_append, List.singleton_append] at houtside ⊢
        rw [List.append_cons]
        rw [Outline.areOutside, Outline.isOutside, Bool.true_and] at houtside
        exact ih (d := ⟨document.define label.name label.hidden _, none⟩)
          (hparts.define label.name label.hidden _) houtside hrest
      | importFile target =>
        obtain ⟨other, himport, rfl⟩ := Draft.step_importFile hstatement hstep
        obtain ⟨l, content, _, hfind, hnew, hread, hother, _⟩ :=
          reads_of_importer (Prod.ext himport rfl)
        rw [hstatement] at houtside
        rw [outlineAt_import hfind hnew hread] at houtside ⊢
        cases current with
        | some label => simp [pending, Outline.areOutside, Outline.isOutside] at houtside
        | none =>
          simp only [pending, List.nil_append, List.singleton_append, Outline.areOutside,
            Outline.isOutside, Bool.and_eq_true] at houtside
          have hfollows := hfiles l content hread hnew _ _ _ hother houtside.1.2
          have hdistinct := (t.importer_distinct chain himport).labels
          rw [pending, List.nil_append, List.singleton_append, List.append_cons]
          exact ih (d := ⟨document.adopt other, none⟩) (hparts.adopt hfollows hdistinct false)
            houtside.2 hrest
      | _ => simp [hstatement, Statement.isInner] at hinner

theorem Reads.follows {d : Document} (h : t.Reads chain source s d s')
    (houtside : Outline.areOutside (t.outlineOf chain source)) (name : String) :
    d.Follows name (t.outlineOf chain source) := by
  induction chain using t.chain_induction generalizing source s d s' with
  | h chain ih =>
    exact follows_of_run (fun l content hread hnew _ _ _ h hinner => ih l content hread hnew h hinner)
      (d := .empty) (Document.follows_empty name) houtside h

/-- Where imports stand outside labels, a name stands twice just after a clash, and else where its
last definition puts it. -/
theorem keys_iff_last_definition {d : Document}
    (h : ((Reader.ofSource source).read (t.importer chain) s).1 = .ok d)
    (houtside : Outline.areOutside (t.outlineOf chain source)) (name : String) :
    (name ∈ Mapping.keys d.labels ∧ name ∈ Mapping.keys d.hidden ↔
      Outline.Clash name (t.outlineOf chain source)) ∧
    (¬ Outline.Clash name (t.outlineOf chain source) →
      (name ∈ Mapping.keys d.labels ↔
        Outline.last? (t.outlineOf chain source) name = some false) ∧
      (name ∈ Mapping.keys d.hidden ↔
        Outline.last? (t.outlineOf chain source) name = some true)) := by
  obtain ⟨s', hreads⟩ := Reader.read_eq_ok.1 h
  obtain ⟨hboth, hplaces⟩ := Reads.follows hreads houtside name
  refine ⟨⟨fun ⟨hlabels, hhidden⟩ => ?_, hboth⟩, fun hclash => ?_⟩
  · by_contra hclash
    obtain ⟨hvisible, hinvisible⟩ := hplaces hclash
    have := (hvisible.1 hlabels).symm.trans (hinvisible.1 hhidden)
    simp at this
  · exact ⟨(hplaces hclash).labels, (hplaces hclash).hidden⟩

theorem keys_visible_import :
    let t : FileTree := ⟨[], [(["v.loon"], .text "(n)\nk = b\nend\n")]⟩
    let source : Source := ⟨"/main.loon", "%(n)\nk = a\nend\n@v.loon\n"⟩
    let parts := t.outlineOf [t.canonical source.name] source
    ∃ d, ((Reader.ofSource source).read (t.importer [t.canonical source.name]) .empty).1 = .ok d ∧
      Outline.areOutside parts ∧ ¬ Outline.Clash "n" parts ∧
      Outline.last? parts "n" = some false ∧ "n" ∈ Mapping.keys d.labels := by
  intro t source parts
  let result := ((Reader.ofSource source).read (t.importer [t.canonical source.name]) .empty).1
  have hkeys : result.toOption.map (fun d => (Mapping.keys d.labels, Mapping.keys d.hidden)) =
      some (["n"], []) := by decide +kernel
  have houtside : Outline.areOutside parts := by decide +kernel
  have hlast : Outline.last? parts "n" = some false := by decide +kernel
  cases hd : result with
  | error e =>
    rw [hd] at hkeys
    cases hkeys
  | ok d =>
    simp only [hd, Except.toOption, Option.map_some, Option.some.injEq, Prod.mk.injEq] at hkeys
    obtain ⟨hboth, hplaces⟩ := keys_iff_last_definition hd houtside "n"
    have hclash : ¬ Outline.Clash "n" parts := fun h => by simpa [hkeys.2] using (hboth.2 h).2
    exact ⟨d, hd, houtside, hclash, hlast, (hplaces hclash).1.2 hlast⟩

/-- A hidden label that is imported is put beside the visible one of its name. -/
theorem keys_hidden_import :
    let t : FileTree := ⟨[], [(["h.loon"], .text "%(n)\nk = b\nend\n")]⟩
    let source : Source := ⟨"/main.loon", "(n)\nk = a\nend\n@h.loon\n"⟩
    let chain := [t.canonical source.name]
    let result := ((Reader.ofSource source).read (t.importer chain) .empty).1
    Outline.areOutside (t.outlineOf chain source) ∧
      Outline.last? (t.outlineOf chain source) "n" = some true ∧
      result.toOption.map (fun d => (Mapping.keys d.labels, Mapping.keys d.hidden)) =
        some (["n"], ["n"]) := by
  decide +kernel

end FileTree

end Loon
