import Loon.Proofs.Alike
import Loon.Proofs.Lines
import Loon.Proofs.Reading.Imports

namespace Loon

structure Line.Alike (l l' : Line) : Prop where
  statement : l.statement = l'.statement
  text : l.text = l'.text

namespace Draft

variable {d d' : Draft} {site site' : Site}

theorem Alike.enclosing (hd : d.Alike d') (hsite : site.text = site'.text) :
    Outcome Error.Alike OpenLabel.Alike (d.enclosing site) (d'.enclosing site') := by
  obtain ⟨document, current⟩ := d
  obtain ⟨document', current'⟩ := d'
  obtain ⟨_, hcurrent⟩ := hd
  cases hcurrent with
  | none => exact .error (congrArg Fault.noOpenLabel hsite)
  | some hl => exact .ok hl

theorem alike_requireName (construct : Construct) (name : String) :
    Outcome Error.Alike Eq (requireName site construct name) (requireName site' construct name) := by
  rw [requireName, requireName]
  split
  · exact .ok rfl
  · exact .error rfl

theorem alike_requireAddress (expr : String) :
    Outcome Error.Alike Eq (requireAddress site expr) (requireAddress site' expr) := by
  rw [requireAddress, requireAddress]
  split
  · exact .ok rfl
  · exact .error rfl

theorem alike_readValue (token : String) :
    Outcome Error.Alike Value.Alike (readValue site token) (readValue site' token) := by
  rw [readValue, readValue]
  split
  · exact (alike_requireAddress _).bind fun _ _ _ => .ok (.placeholder ⟨rfl, rfl⟩)
  · exact .ok (Value.Alike.refl _)

theorem Alike.put {insertion insertion' : Insertion} (hd : d.Alike d')
    (hsite : site.text = site'.text) (h : insertion.Alike insertion') :
    Outcome Error.Alike Alike (d.put site insertion) (d'.put site' insertion') :=
  (hd.enclosing hsite).bind fun _ _ hl =>
    (hl.put h site.place site'.place).bind fun _ _ hl => .ok ⟨hd.document, .some hl⟩

theorem Alike.beginLabel (hd : d.Alike d') (name : String) (hidden : Bool) :
    Outcome Error.Alike Alike (d.beginLabel site name hidden) (d'.beginLabel site' name hidden) := by
  obtain ⟨document, current⟩ := d
  obtain ⟨document', current'⟩ := d'
  obtain ⟨hdocument, hcurrent⟩ := hd
  cases hcurrent with
  | none =>
    exact (alike_requireName .label name).bind fun _ _ _ =>
      .ok ⟨hdocument, .some ⟨rfl, rfl, .nil, .none⟩⟩
  | some hl => exact .error (congrArg Fault.unclosedLabel hl.name)

theorem Alike.beginSpace (hd : d.Alike d') (hsite : site.text = site'.text) (name : String) :
    Outcome Error.Alike Alike (d.beginSpace site name) (d'.beginSpace site' name) := by
  refine (hd.enclosing hsite).bind fun l l' hl => ?_
  obtain ⟨own, hidden, items, space, place⟩ := l
  obtain ⟨own', hidden', items', space', place'⟩ := l'
  obtain ⟨hname, hhidden, hitems, hspace⟩ := hl
  cases hspace with
  | none =>
    exact (alike_requireName .space name).bind fun _ _ _ =>
      .ok ⟨hd.document, .some ⟨hname, hhidden, hitems, .some ⟨rfl, .empty⟩⟩⟩
  | some hspace => exact .error (congrArg (Fault.nestedSpace name) hspace.name)

theorem Alike.endSpace (hd : d.Alike d') :
    Outcome Error.Alike (fun x y => x.1.Alike y.1 ∧ x.2.1 = y.2.1 ∧ x.2.2.Alike y.2.2)
      (d.endSpace site) (d'.endSpace site') := by
  obtain ⟨document, current⟩ := d
  obtain ⟨document', current'⟩ := d'
  obtain ⟨hdocument, hcurrent⟩ := hd
  cases hcurrent with
  | none => exact .error rfl
  | @some l l' hl =>
    obtain ⟨own, hidden, items, space, place⟩ := l
    obtain ⟨_, _, items', space', place'⟩ := l'
    obtain ⟨rfl, rfl, hitems, hspace⟩ := hl
    cases hspace with
    | none => exact .error rfl
    | @some space space' hspace =>
      have hentry : (BodyItem.entry space.name space.content.value).Alike
          (.entry space'.name space'.content.value) := by
        rw [hspace.name]
        exact .entry _ hspace.content.value
      exact .ok ⟨⟨hdocument, .some ⟨rfl, rfl, List.rel_append hitems (.cons hentry .nil), .none⟩⟩,
        hspace.name, hspace.content.value⟩

theorem Alike.endLabel (hd : d.Alike d') (hsite : site.text = site'.text) :
    Outcome Error.Alike (fun x y => x.1.Alike y.1) (d.endLabel site) (d'.endLabel site') := by
  refine (hd.enclosing hsite).bind fun l l' hl => ?_
  obtain ⟨own, hidden, items, space, place⟩ := l
  obtain ⟨_, _, items', space', place'⟩ := l'
  obtain ⟨rfl, rfl, hitems, hspace⟩ := hl
  cases hspace with
  | none => exact .ok ⟨hd.document.define (BodyItem.alike_fold hitems) own hidden, .none⟩
  | some hspace => exact .error (congrArg Fault.unclosedSpace hspace.name)

theorem Alike.keyOfAlias (hd : d.Alike d') (expr : String) :
    Outcome Error.Alike Eq (d.keyOfAlias site expr) (d'.keyOfAlias site' expr) := by
  refine (alike_requireAddress expr).bind fun a _ ha => ?_
  subst ha
  have hlookup := hd.document.lookup a
  generalize d.document.lookup a = x, d'.document.lookup a = y at hlookup ⊢
  cases hlookup with
  | error he =>
    subst he
    exact .error rfl
  | ok hvw =>
    cases hvw with
    | none => exact .error rfl
    | some _ => exact .ok rfl

theorem Alike.readKey (hd : d.Alike d') (key : String) :
    Outcome Error.Alike Eq (d.readKey site key) (d'.readKey site' key) := by
  rw [Draft.readKey, Draft.readKey]
  split
  · exact hd.keyOfAlias _
  · exact .ok rfl

theorem Alike.setKey (hd : d.Alike d') (hsite : site.text = site'.text) (key token : String) :
    Outcome Error.Alike Alike (d.setKey site key token) (d'.setKey site' key token) := by
  refine (hd.enclosing hsite).bind fun _ _ _ => ?_
  split
  · exact .error rfl
  · refine (hd.readKey key).bind fun k _ hk => ?_
    subst hk
    exact (alike_readValue token).bind fun _ _ hvw => hd.put hsite (.pair k hvw)

theorem Alike.addItem (hd : d.Alike d') (hsite : site.text = site'.text) (token : String) :
    Outcome Error.Alike Alike (d.addItem site token) (d'.addItem site' token) :=
  (alike_readValue token).bind fun _ _ hvw => hd.put hsite (.item hvw)

theorem Alike.injected (hd : d.Alike d') (target : String) (a : Address) :
    Outcome Error.Alike Value.Alike (d.injected site target a) (d'.injected site' target a) := by
  have hlookup := hd.document.lookup a
  rw [Draft.injected, Draft.injected]
  generalize d.document.lookup a = x, d'.document.lookup a = y at hlookup ⊢
  cases hlookup with
  | error he =>
    subst he
    exact .error rfl
  | ok hvw =>
    cases hvw with
    | none => exact .error rfl
    | some hvw => exact .ok hvw

theorem alike_fitsBody {v w : Value} (h : v.Alike w) : fitsBody v = fitsBody w := by
  cases h <;> rfl

theorem Alike.copyIn (hd : d.Alike d') (hsite : site.text = site'.text) (target : String)
    (valueOnly : Bool) :
    Outcome Error.Alike Alike (d.copyIn site target valueOnly)
      (d'.copyIn site' target valueOnly) := by
  refine (hd.enclosing hsite).bind fun l l' hl => (alike_requireAddress target).bind fun a _ ha => ?_
  subst ha
  refine (hd.injected target a).bind fun v w hvw => ?_
  have hnone : l.space.isNone = l'.space.isNone := by
    have := hl.space
    generalize l.space = x, l'.space = y at this ⊢
    cases this <;> rfl
  rw [hnone, alike_fitsBody hvw]
  split
  · split
    · exact .error (by rw [Error.Alike, Site.error, Site.error, hvw.kind, hl.name])
    · exact hd.put hsite (.item hvw)
  · exact hd.put hsite (.merge (.cons a.name hvw .nil))

theorem Alike.takeIn {other other' : Document} (hd : d.Alike d') (hother : other.Alike other')
    (target : String) : (d.takeIn target other).1.Alike (d'.takeIn target other').1 := by
  obtain ⟨document, current⟩ := d
  obtain ⟨document', current'⟩ := d'
  obtain ⟨hdocument, hcurrent⟩ := hd
  cases hcurrent with
  | none => exact ⟨hdocument.adopt hother, .none⟩
  | some hl => exact ⟨hdocument.enclose hother, .some (hl.enclose hother.labels)⟩

theorem Alike.finish (hd : d.Alike d') :
    Outcome Error.Alike Document.Alike d.finish d'.finish := by
  obtain ⟨document, current⟩ := d
  obtain ⟨document', current'⟩ := d'
  obtain ⟨hdocument, hcurrent⟩ := hd
  cases hcurrent with
  | none => exact .ok hdocument
  | @some l l' hl =>
    obtain ⟨own, hidden, items, space, place⟩ := l
    obtain ⟨own', hidden', items', space', place'⟩ := l'
    obtain ⟨hname, _, _, hspace⟩ := hl
    cases hspace with
    | none => exact .error (congrArg Fault.unclosedLabel hname)
    | some hspace => exact .error (congrArg Fault.unclosedSpace hspace.name)

end Draft

def Importer.Alike (importer importer' : Importer) : Prop :=
  ∀ target (place place' : Place) s s', place.source.name = place'.source.name →
    Outcome Error.Alike Document.Alike (importer target place s).1 (importer' target place' s').1

namespace Draft

variable {d d' : Draft} {importer importer' : Importer} {source source' : Source}

theorem Alike.step {line line' : Line} {s s' : Session}
    (himport : ∀ target, line.statement = .importFile target →
      Outcome Error.Alike Document.Alike (importer target ⟨source, line.span⟩ s).1
        (importer' target ⟨source', line'.span⟩ s').1)
    (hd : d.Alike d') (hline : line.Alike line') :
    Outcome Error.Alike Alike (d.step importer source s line).1
      (d'.step importer' source' s' line').1 := by
  have hsite : Site.text ⟨⟨source, line.span⟩, line.text⟩ =
      Site.text ⟨⟨source', line'.span⟩, line'.text⟩ := hline.text
  rw [Draft.step, Draft.step, ← hline.statement]
  cases hstatement : line.statement with
  | openLabel name hidden => exact hd.beginLabel name hidden
  | openSpace name => exact hd.beginSpace hsite name
  | closeSpace =>
    have hend : Outcome Error.Alike _ (d.endSpace ⟨⟨source, line.span⟩, line.text⟩)
        (d'.endSpace ⟨⟨source', line'.span⟩, line'.text⟩) := hd.endSpace
    dsimp only
    generalize d.endSpace _ = x, d'.endSpace _ = y at hend ⊢
    cases hend with
    | ok hd => exact .ok hd.1
    | error he => exact .error he
  | closeLabel =>
    have hend := hd.endLabel hsite
    dsimp only
    generalize d.endLabel _ = x, d'.endLabel _ = y at hend ⊢
    cases hend with
    | ok hd => exact .ok hd
    | error he => exact .error he
  | assign key token => exact hd.setKey hsite key token
  | importFile target =>
    have hother := himport target hstatement
    dsimp only
    generalize importer target ⟨source, line.span⟩ s = x,
      importer' target ⟨source', line'.span⟩ s' = y at hother ⊢
    obtain ⟨x, s₁⟩ := x
    obtain ⟨y, s₁'⟩ := y
    cases hother with
    | ok hother => exact .ok (hd.takeIn hother target)
    | error he => exact .error he
  | inject target valueOnly => exact hd.copyIn hsite target valueOnly
  | item token => exact hd.addItem hsite token

theorem Alike.run {lines lines' : List Line} (himporter : importer.Alike importer')
    (hname : source.name = source'.name) (hd : d.Alike d')
    (hlines : List.Forall₂ Line.Alike lines lines') (s s' : Session) :
    Option.Rel Error.Alike (d.run importer source lines s).1
        (d'.run importer' source' lines' s').1 ∧
      (d.run importer source lines s).2.1.Alike (d'.run importer' source' lines' s').2.1 := by
  induction hlines generalizing d d' s s' with
  | nil => exact ⟨.none, hd⟩
  | @cons line line' lines lines' hline _ ih =>
    have hstep := hd.step (fun target _ =>
      himporter target ⟨source, line.span⟩ ⟨source', line'.span⟩ s s' hname) hline
    rw [Draft.run, Draft.run]
    generalize d.step importer source s line = x, d'.step importer' source' s' line' = y
      at hstep ⊢
    obtain ⟨x, s₁⟩ := x
    obtain ⟨y, s₁'⟩ := y
    cases hstep with
    | ok hd => exact ih hd s₁ s₁'
    | error he => exact ⟨.some he, hd⟩

end Draft

variable {importer importer' : Importer} {source source' : Source}

theorem Reader.alike_read_of_run {r r' : Reader} {s s' : Session}
    (h : Option.Rel Error.Alike (r.draft.run importer r.source r.pending s).1
        (r'.draft.run importer' r'.source r'.pending s').1 ∧
      (r.draft.run importer r.source r.pending s).2.1.Alike
        (r'.draft.run importer' r'.source r'.pending s').2.1) :
    Outcome Error.Alike Document.Alike (r.read importer s).1 (r'.read importer' s').1 := by
  rw [read, read]
  generalize r.draft.run importer r.source r.pending s = x,
    r'.draft.run importer' r'.source r'.pending s' = y at h ⊢
  obtain ⟨x, d, s₁⟩ := x
  obtain ⟨y, d', s₁'⟩ := y
  obtain ⟨herror, hd⟩ := h
  cases herror with
  | some he => exact .error he
  | none =>
    have hfinish := Draft.Alike.finish hd
    dsimp only
    generalize d.finish = x, d'.finish = y at hfinish ⊢
    cases hfinish with
    | ok hd => exact .ok hd
    | error he => exact .error he

theorem Reader.alike_read (r r' : Reader) (himporter : importer.Alike importer')
    (hname : r.source.name = r'.source.name) (hlines : List.Forall₂ Line.Alike r.pending r'.pending)
    (hd : r.draft.Alike r'.draft) (s s' : Session) :
    Outcome Error.Alike Document.Alike (r.read importer s).1 (r'.read importer' s').1 :=
  alike_read_of_run (hd.run himporter hname hlines s s')

theorem Line.forall₂_alike_refl (lines : List Line) : List.Forall₂ Alike lines lines :=
  List.forall₂_same.2 fun _ _ => ⟨rfl, rfl⟩

theorem Line.forall₂_alike_symm {lines lines' : List Line} (h : List.Forall₂ Alike lines lines') :
    List.Forall₂ Alike lines' lines :=
  h.flip.imp fun _ _ h => ⟨h.statement.symm, h.text.symm⟩

theorem Line.forall₂_alike_of_content {lines lines' : List Line}
    (h : lines.map content = lines'.map content) : List.Forall₂ Alike lines lines' := by
  rw [← List.forall₂_eq_eq_eq, List.forall₂_map_left_iff, List.forall₂_map_right_iff] at h
  exact h.imp fun _ _ h => ⟨(Prod.mk.inj h).1, (Prod.mk.inj h).2⟩

/-- An import depends on the name of the file that it stands in, and on nothing else there. -/
theorem FileTree.alike_importer (t : FileTree) (chain : List Path) :
    (t.importer chain).Alike (t.importer chain) := by
  induction chain using t.chain_induction with
  | h chain ih =>
    intro target place place' s s' hname
    rw [importer, importer, hname]
    split
    · exact .error rfl
    next l hfind =>
      dsimp only
      split
      · exact .error rfl
      next hnew =>
        split
        · exact .error rfl
        next content hread =>
          have hother := Reader.alike_read (.ofSource (sourceAt l content))
            (.ofSource (sourceAt l content)) (ih l content hread (by simpa using hnew)) rfl
            (Line.forall₂_alike_refl _) Draft.alike_empty
            (s.note [.importStarted (Path.ofLocation l).text])
            (s'.note [.importStarted (Path.ofLocation l).text])
          rw [sourceAt] at hother
          generalize Reader.read _ _ (s.note _) = x, Reader.read _ _ (s'.note _) = y at hother ⊢
          obtain ⟨x, _, _⟩ := x
          obtain ⟨y, _, _⟩ := y
          cases hother with
          | ok hother => exact .ok hother
          | error he => exact .error he

end Loon
