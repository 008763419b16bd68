import Loon.Proofs.Reading.Steps

namespace Loon

def Fault.isOutside : Fault → Bool
  | invalidTarget _ _ => true
  | importCycle _ => true
  | invalidEntryFile _ => true
  | unreadable _ _ => true
  | _ => false

def Fault.isOfReferences : Fault → Bool
  | dangling _ _ => true
  | referenceCycle _ => true
  | _ => false

def Fault.isOfLine (fault : Fault) : Bool := !fault.isOutside && !fault.isOfReferences

def Fails {α : Type} (E : Error → Prop) (x : Except Error α) : Prop := ∀ e, x = .error e → E e

namespace Fails

variable {α β : Type} {E : Error → Prop}

theorem ok (a : α) : Fails E (.ok a) := nofun

theorem error {e : Error} (h : E e) : Fails E (.error e : Except Error α) := by
  rintro _ ⟨⟩
  exact h

theorem bind {x : Except Error α} {f : α → Except Error β} (hx : Fails E x)
    (hf : ∀ a, x = .ok a → Fails E (f a)) : Fails E (x >>= f) := by
  cases x with
  | ok a => exact hf a rfl
  | error e => exact error (hx e rfl)

end Fails

def Internal {α : Type} (x : Except Error α) : Prop :=
  ∀ e, x = .error e → e.fault.isOutside = false

namespace Internal

variable {α β : Type}

theorem ok (a : α) : Internal (.ok a) := nofun

theorem bind {x : Except Error α} {f : α → Except Error β} (hx : Internal x)
    (hf : ∀ a, Internal (f a)) : Internal (x >>= f) := Fails.bind hx fun a _ => hf a

theorem ne_error {x : Except Error α} (h : Internal x) {e : Error} (he : e.fault.isOutside = true) :
    x ≠ .error e := fun heq => by
  rw [h e heq] at he
  cases he

end Internal

structure Error.BlamedOn (places : List Place) (e : Error) : Prop where
  ofLine : e.fault.isOfLine = true
  place : ∃ place ∈ places, e.place = some place

theorem Error.BlamedOn.mono {places places' : List Place} {e : Error} (h : e.BlamedOn places)
    (hsub : places ⊆ places') : e.BlamedOn places' where
  ofLine := h.ofLine
  place := h.place.imp fun _ hplace => ⟨hsub hplace.1, hplace.2⟩

namespace Draft

def openings (d : Draft) : List Place :=
  match d.current with
  | none => []
  | some label => label.openedAt :: (label.space.map OpenSpace.openedAt).toList

section Blame

variable {d : Draft} {site : Site} {label : OpenLabel}

theorem openings_some (hlabel : d.current = some label) :
    d.openings = label.openedAt :: (label.space.map OpenSpace.openedAt).toList := by
  rw [openings, hlabel]

theorem blamedOn_site {fault : Fault} (h : fault.isOfLine = true) :
    (site.error fault).BlamedOn (site.place :: d.openings) :=
  ⟨h, site.place, List.mem_cons_self .., rfl⟩

theorem blamedOn_label {fault : Fault} (hlabel : d.current = some label)
    (h : fault.isOfLine = true) :
    Error.BlamedOn d.openings ⟨fault, some label.openedAt⟩ := by
  refine ⟨h, label.openedAt, ?_, rfl⟩
  rw [openings_some hlabel]
  exact List.mem_cons_self ..

theorem blamedOn_space {fault : Fault} {space : OpenSpace} (hlabel : d.current = some label)
    (hspace : label.space = some space) (h : fault.isOfLine = true) :
    Error.BlamedOn d.openings ⟨fault, some space.openedAt⟩ := by
  refine ⟨h, space.openedAt, ?_, rfl⟩
  rw [openings_some hlabel, hspace]
  simp

theorem fails_enclosing : Fails (Error.BlamedOn (site.place :: d.openings)) (d.enclosing site) := by
  rw [enclosing]
  split
  · exact .ok _
  · exact .error (blamedOn_site rfl)

theorem fails_requireName {construct : Construct} {name : String} :
    Fails (Error.BlamedOn (site.place :: d.openings)) (requireName site construct name) := by
  rw [requireName]
  split
  · exact .ok _
  · exact .error (blamedOn_site rfl)

theorem fails_requireAddress {expr : String} :
    Fails (Error.BlamedOn (site.place :: d.openings)) (requireAddress site expr) := by
  rw [requireAddress]
  split
  · exact .ok _
  · exact .error (blamedOn_site rfl)

theorem fails_beginLabel {name : String} {hidden : Bool} :
    Fails (Error.BlamedOn (site.place :: d.openings)) (d.beginLabel site name hidden) := by
  rw [beginLabel]
  split
  next hlabel =>
    exact .error ((blamedOn_label hlabel rfl).mono (List.subset_cons_self ..))
  · exact fails_requireName.bind fun _ _ => .ok _

theorem fails_beginSpace {name : String} :
    Fails (Error.BlamedOn (site.place :: d.openings)) (d.beginSpace site name) := by
  refine fails_enclosing.bind fun label hlabel => ?_
  split
  next hspace =>
    exact .error ((blamedOn_space (enclosing_eq_ok.1 hlabel) hspace rfl).mono
      (List.subset_cons_self ..))
  · exact fails_requireName.bind fun _ _ => .ok _

theorem fails_endSpace : Fails (Error.BlamedOn (site.place :: d.openings)) (d.endSpace site) := by
  rw [endSpace]
  split
  · exact .error (blamedOn_site rfl)
  · split
    · exact .error (blamedOn_site rfl)
    · exact .ok _

theorem fails_endLabel : Fails (Error.BlamedOn (site.place :: d.openings)) (d.endLabel site) := by
  refine fails_enclosing.bind fun label hlabel => ?_
  split
  next hspace =>
    exact .error ((blamedOn_space (enclosing_eq_ok.1 hlabel) hspace rfl).mono
      (List.subset_cons_self ..))
  · exact .ok _

theorem fails_put {insertion : Insertion} :
    Fails (Error.BlamedOn (site.place :: d.openings)) (d.put site insertion) := by
  refine fails_enclosing.bind fun label _ => Fails.bind ?_ fun _ _ => .ok _
  rw [OpenLabel.put]
  split
  · exact .ok _
  · split
    · exact .ok _
    · exact .error ⟨rfl, site.place, List.mem_cons_self .., rfl⟩

theorem fails_readValue {token : String} :
    Fails (Error.BlamedOn (site.place :: d.openings)) (readValue site token) := by
  rw [readValue]
  split
  · exact fails_requireAddress.bind fun _ _ => .ok _
  · exact .ok _

theorem fails_readKey {key : String} :
    Fails (Error.BlamedOn (site.place :: d.openings)) (d.readKey site key) := by
  rw [readKey]
  split
  · refine fails_requireAddress.bind fun a _ => ?_
    split
    · exact .ok _
    · exact .error (blamedOn_site rfl)
    · exact .error (blamedOn_site rfl)
  · exact .ok _

theorem fails_setKey {key token : String} :
    Fails (Error.BlamedOn (site.place :: d.openings)) (d.setKey site key token) := by
  refine fails_enclosing.bind fun _ _ => ?_
  split
  · exact .error (blamedOn_site rfl)
  · exact fails_readKey.bind fun _ _ => fails_readValue.bind fun _ _ => fails_put

theorem fails_addItem {token : String} :
    Fails (Error.BlamedOn (site.place :: d.openings)) (d.addItem site token) :=
  fails_readValue.bind fun _ _ => fails_put

theorem fails_injected {target : String} {a : Address} :
    Fails (Error.BlamedOn (site.place :: d.openings)) (d.injected site target a) := by
  rw [injected]
  split
  · exact .ok _
  · exact .error (blamedOn_site rfl)
  · exact .error (blamedOn_site rfl)

theorem fails_copyIn {target : String} {valueOnly : Bool} :
    Fails (Error.BlamedOn (site.place :: d.openings)) (d.copyIn site target valueOnly) := by
  refine fails_enclosing.bind fun label _ => fails_requireAddress.bind fun a _ =>
    fails_injected.bind fun v _ => ?_
  split
  · split
    · exact .error (blamedOn_site rfl)
    · exact fails_put
  · exact fails_put

theorem fails_finish : Fails (Error.BlamedOn d.openings) d.finish := by
  rw [finish]
  split
  · exact .ok _
  next hlabel =>
    split
    next hspace => exact .error (blamedOn_space hlabel hspace rfl)
    · exact .error (blamedOn_label hlabel rfl)

end Blame

section Step

variable {d d' : Draft} {importer : Importer} {source : Source} {s s' : Session} {line : Line} {e : Error}

/-- A line that fails is blamed itself, or what it should have closed is, unless its import fails. -/
theorem blamedOn_of_step (h : d.step importer source s line = (.error e, s')) :
    e.BlamedOn (⟨source, line.span⟩ :: d.openings) ∨
      ∃ target, line.statement = .importFile target ∧
        importer target ⟨source, line.span⟩ s = (.error e, s') := by
  cases hstatement : line.statement with
  | openLabel name hidden =>
    simp only [step, hstatement, Prod.mk.injEq] at h
    exact .inl (fails_beginLabel e h.1)
  | openSpace name =>
    simp only [step, hstatement, Prod.mk.injEq] at h
    exact .inl (fails_beginSpace e h.1)
  | closeSpace =>
    simp only [step, hstatement] at h
    split at h
    · cases h
    next hend =>
      cases h
      exact .inl (fails_endSpace e hend)
  | closeLabel =>
    simp only [step, hstatement] at h
    split at h
    · cases h
    next hend =>
      cases h
      exact .inl (fails_endLabel e hend)
  | assign key token =>
    simp only [step, hstatement, Prod.mk.injEq] at h
    exact .inl (fails_setKey e h.1)
  | importFile target =>
    simp only [step, hstatement] at h
    split at h
    · cases h
    next himport =>
      cases h
      exact .inr ⟨target, rfl, himport⟩
  | inject target valueOnly =>
    simp only [step, hstatement, Prod.mk.injEq] at h
    exact .inl (fails_copyIn e h.1)
  | item token =>
    simp only [step, hstatement, Prod.mk.injEq] at h
    exact .inl (fails_addItem e h.1)

theorem openings_of_put {site : Site} {insertion : Insertion} (h : d.put site insertion = .ok d') :
    d'.openings = d.openings := by
  obtain ⟨label, label', hlabel, hput, rfl⟩ := put_eq_ok.1 h
  rw [openings_some hlabel]
  rcases OpenLabel.put_eq_ok.1 hput with ⟨hnone, rfl⟩ | ⟨space, _, hsome, _, rfl⟩
  · rfl
  · rw [hsome]
    rfl

theorem openings_takeIn (d : Draft) (target : String) (other : Document) :
    (d.takeIn target other).1.openings = d.openings := by
  obtain ⟨document, _ | ⟨name, hidden, items, _ | space, openedAt⟩⟩ := d <;> rfl

theorem openings_of_step (h : d.step importer source s line = (.ok d', s')) :
    d'.openings ⊆ ⟨source, line.span⟩ :: d.openings := by
  cases step_eq_ok.1 h with
  | openLabel => exact List.cons_subset_cons _ (List.nil_subset _)
  | openSpace _ hlabel =>
    rw [openings_some hlabel]
    intro place hplace
    rcases List.mem_cons.1 hplace with rfl | hplace
    · simp
    · obtain rfl := List.mem_singleton.1 hplace
      exact List.mem_cons_self ..
  | closeSpace _ hlabel =>
    rw [openings_some hlabel]
    exact List.subset_cons_of_subset _ (List.cons_subset_cons _ (List.nil_subset _))
  | closeLabel => exact List.nil_subset _
  | writes _ hput =>
    rw [openings_of_put hput]
    exact List.subset_cons_self ..
  | imports =>
    rw [openings_takeIn]
    exact List.subset_cons_self ..

def OpenedIn (source : Source) (d : Draft) : Prop :=
  ∀ place ∈ d.openings, ∃ line ∈ source.lines, place = ⟨source, line.span⟩

theorem openedIn_of_run {lines : List Line} (hlines : lines ⊆ source.lines)
    (h : run importer source lines .empty s = (none, d, s')) : d.OpenedIn source := by
  have hempty : empty.OpenedIn source := fun _ hplace => by cases hplace
  refine run_keeps (P := fun d _ => d.OpenedIn source) (fun line hline d s d' s' hd hstep => ?_) hempty h
  intro place hplace
  rcases List.mem_cons.1 (openings_of_step hstep hplace) with rfl | hplace
  · exact ⟨line, hlines hline, rfl⟩
  · exact hd place hplace

end Step

end Draft

namespace Reader

variable {importer : Importer} {source : Source} {s s' : Session} {r : Reader} {e : Error}

theorem blamedOn_of_read (h : (ofSource source).read importer s = (.error e, r, s')) :
    ∃ line ∈ source.lines, e.BlamedOn [⟨source, line.span⟩] ∨
      ∃ target s₁, line.statement = .importFile target ∧
        importer target ⟨source, line.span⟩ s₁ = (.error e, s') := by
  rw [read, ofSource] at h
  dsimp only at h
  split at h
  next draft hrun =>
    cases h
    obtain ⟨before, line, after, s₁, hlines, hbefore, hstep⟩ := Draft.run_eq_some.1 hrun
    have hmem : line ∈ source.lines := by simp [hlines]
    rcases Draft.blamedOn_of_step hstep with ⟨hofLine, place, hplace, he⟩ | ⟨target, hline, himport⟩
    · rcases List.mem_cons.1 hplace with rfl | hplace
      · exact ⟨line, hmem, .inl ⟨hofLine, _, List.mem_singleton_self _, he⟩⟩
      · have hsub : before ⊆ source.lines := by simp [hlines]
        obtain ⟨opening, hopening, rfl⟩ := Draft.openedIn_of_run hsub hbefore place hplace
        exact ⟨opening, hopening, .inl ⟨hofLine, _, List.mem_singleton_self _, he⟩⟩
    · exact ⟨line, hmem, .inr ⟨target, s₁, hline, himport⟩⟩
  next draft s₁ hrun =>
    split at h
    · cases h
    next hfinish =>
      cases h
      obtain ⟨hofLine, place, hplace, he⟩ := Draft.fails_finish e hfinish
      obtain ⟨opening, hopening, rfl⟩ := Draft.openedIn_of_run (List.Subset.refl _) hrun place hplace
      exact ⟨opening, hopening, .inl ⟨hofLine, _, List.mem_singleton_self _, he⟩⟩

theorem exists_import_of_read (h : (ofSource source).read importer s = (.error e, r, s'))
    (he : e.fault.isOutside = true) :
    ∃ line ∈ source.lines, ∃ target s₁, line.statement = .importFile target ∧
      importer target ⟨source, line.span⟩ s₁ = (.error e, s') := by
  obtain ⟨line, hmem, ⟨hofLine, _⟩ | himport⟩ := blamedOn_of_read h
  · rw [Fault.isOfLine, he] at hofLine
    cases hofLine
  · exact ⟨line, hmem, himport⟩

end Reader

end Loon
