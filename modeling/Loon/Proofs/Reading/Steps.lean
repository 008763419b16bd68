import Loon.Import
import Mathlib.Data.Option.Basic

namespace Loon

theorem bind_eq_ok {α β : Type} {x : Except Error α} {f : α → Except Error β} {b : β} :
    x >>= f = .ok b ↔ ∃ a, x = .ok a ∧ f a = .ok b := by
  cases x <;> simp [Bind.bind, Except.bind]

theorem toOption_eq_some {ε α : Type} {x : Except ε α} {a : α} : x.toOption = some a ↔ x = .ok a := by
  cases x <;> simp [Except.toOption]

@[simp] theorem pure_eq_ok {α : Type} (a : α) : (pure a : Except Error α) = .ok a := rfl

theorem mapM_cons_run {σ α β : Type} (f : α → StateM σ β) (a : α) (as : List α) (s : σ) :
    ((a :: as).mapM f).run s =
      (((f a).run s).1 :: ((as.mapM f).run ((f a).run s).2).1,
        ((as.mapM f).run ((f a).run s).2).2) := by
  rw [List.mapM_cons]
  rfl

theorem mapM_append_run {σ α β : Type} (f : α → StateM σ β) (as bs : List α) (s : σ) :
    ((as ++ bs).mapM f).run s =
      (((as.mapM f).run s).1 ++ ((bs.mapM f).run ((as.mapM f).run s).2).1,
        ((bs.mapM f).run ((as.mapM f).run s).2).2) := by
  rw [List.mapM_append]
  rfl

def Statement.isInner : Statement → Bool
  | openLabel .. => false
  | closeLabel => false
  | importFile _ => false
  | _ => true

/-- Whether the line means the same wherever it stands: it neither takes in another file nor looks
up what is already defined. -/
def Statement.isPlain : Statement → Bool
  | importFile _ => false
  | inject .. => false
  | assign key _ => (Text.after ['$'] key.toList).isNone
  | _ => true

def Statement.token? : Statement → Option String
  | assign _ token => some token
  | item token => some token
  | _ => none

namespace OpenLabel

theorem put_eq_ok {l l' : OpenLabel} {here : Place} {insertion : Insertion} :
    l.put here insertion = .ok l' ↔
      (l.space = none ∧ { l with items := l.items ++ [insertion.bodyItem] } = l') ∨
      ∃ space content, l.space = some space ∧ insertion.put space.content = .ok content ∧
        { l with space := some { space with content } } = l' := by
  rw [put]
  cases l.space with
  | none => simp
  | some space => cases hput : insertion.put space.content <;> simp [hput]

end OpenLabel

namespace Draft

variable {d d' : Draft} {site : Site}

theorem enclosing_eq_ok {label : OpenLabel} :
    d.enclosing site = .ok label ↔ d.current = some label := by
  rw [enclosing]
  cases d.current <;> simp

theorem requireName_eq_ok {construct : Construct} {name : String} {u : Unit} :
    requireName site construct name = .ok u ↔ Name.isValid name.toList = true := by
  simp [requireName]

theorem beginLabel_eq_ok {name : String} {hidden : Bool} :
    d.beginLabel site name hidden = .ok d' ↔
      d.current = none ∧ Name.isValid name.toList = true ∧
        { d with current := some ⟨name, hidden, [], none, site.place⟩ } = d' := by
  rw [beginLabel]
  cases d.current <;> simp [bind_eq_ok, requireName_eq_ok]

theorem beginSpace_eq_ok {name : String} :
    d.beginSpace site name = .ok d' ↔
      ∃ label, d.current = some label ∧ label.space = none ∧ Name.isValid name.toList = true ∧
        { d with current := some { label with space := some ⟨name, .empty, site.place⟩ } } = d' := by
  simp only [beginSpace, bind_eq_ok, enclosing_eq_ok]
  refine exists_congr fun label => and_congr_right fun _ => ?_
  cases label.space <;> simp [bind_eq_ok, requireName_eq_ok]

theorem endSpace_eq_ok {name : String} {v : Value} :
    d.endSpace site = .ok (d', name, v) ↔
      ∃ label space, d.current = some label ∧ label.space = some space ∧
        { d with current := some { label with
          items := label.items ++ [.entry space.name space.content.value], space := none } } = d' ∧
        space.name = name ∧ space.content.value = v := by
  rw [endSpace]
  cases d.current with
  | none => simp
  | some label => cases hspace : label.space <;> simp [hspace]

theorem endLabel_eq_ok {records : List Record} :
    d.endLabel site = .ok (d', records) ↔
      ∃ label, d.current = some label ∧ label.space = none ∧
        ⟨d.document.define label.name label.hidden (BodyItem.fold label.items), none⟩ = d' ∧
        closingRecords d.document label (BodyItem.fold label.items) = records := by
  simp only [endLabel, bind_eq_ok, enclosing_eq_ok]
  refine exists_congr fun label => and_congr_right fun _ => ?_
  cases label.space <;> simp

theorem put_eq_ok {insertion : Insertion} :
    d.put site insertion = .ok d' ↔
      ∃ label label', d.current = some label ∧ label.put site.place insertion = .ok label' ∧
        { d with current := some label' } = d' := by
  simp [put, bind_eq_ok, enclosing_eq_ok]

theorem setKey_eq_ok {key token : String} :
    d.setKey site key token = .ok d' ↔
      ∃ label, d.current = some label ∧ key ≠ "" ∧ ∃ k, d.readKey site key = .ok k ∧
        ∃ v, readValue site token = .ok v ∧ d.put site (.pair k v) = .ok d' := by
  simp only [setKey, bind_eq_ok, enclosing_eq_ok]
  refine exists_congr fun label => and_congr_right fun _ => ?_
  rcases eq_or_ne key "" with rfl | hkey
  · simp
  · simp [hkey, bind_eq_ok]

theorem addItem_eq_ok {token : String} :
    d.addItem site token = .ok d' ↔
      ∃ v, readValue site token = .ok v ∧ d.put site (.item v) = .ok d' := by
  simp [addItem, bind_eq_ok]

theorem requireAddress_eq_ok {expr : String} {a : Address} :
    requireAddress site expr = .ok a ↔ Address.parse expr = some a := by
  rw [requireAddress]
  cases Address.parse expr <;> simp

theorem injected_eq_ok {target : String} {a : Address} {v : Value} :
    d.injected site target a = .ok v ↔ d.document.lookup a = .ok (some v) := by
  rw [injected]
  rcases d.document.lookup a with name | _ | w <;> simp

variable (d site) in
inductive Writes : Statement → Insertion → Prop
  | pair {key token k v} : key ≠ "" → d.readKey site key = .ok k → readValue site token = .ok v →
      Writes (.assign key token) (.pair k v)
  | item {token v} : readValue site token = .ok v → Writes (.item token) (.item v)
  | value {target a v label} : Address.parse target = some a →
      d.document.lookup a = .ok (some v) → d.current = some label →
      (label.space = none → fitsBody v = true) → Writes (.inject target true) (.item v)
  | copy {target a v} : Address.parse target = some a → d.document.lookup a = .ok (some v) →
      Writes (.inject target false) (.merge [(a.name, v)])

theorem setKey_iff_writes {key token : String} :
    d.setKey site key token = .ok d' ↔
      ∃ insertion, d.Writes site (.assign key token) insertion ∧ d.put site insertion = .ok d' := by
  rw [setKey_eq_ok]
  constructor
  · rintro ⟨_, _, hkey, k, hk, v, hv, hput⟩
    exact ⟨_, .pair hkey hk hv, hput⟩
  · rintro ⟨_, ⟨hkey, hk, hv⟩, hput⟩
    obtain ⟨label, _, hlabel, _⟩ := put_eq_ok.1 hput
    exact ⟨label, hlabel, hkey, _, hk, _, hv, hput⟩

theorem addItem_iff_writes {token : String} :
    d.addItem site token = .ok d' ↔
      ∃ insertion, d.Writes site (.item token) insertion ∧ d.put site insertion = .ok d' := by
  rw [addItem_eq_ok]
  constructor
  · rintro ⟨v, hv, hput⟩
    exact ⟨_, .item hv, hput⟩
  · rintro ⟨_, hwrites, hput⟩
    cases hwrites with
    | item hv => exact ⟨_, hv, hput⟩

theorem copyIn_iff_writes {target : String} {valueOnly : Bool} :
    d.copyIn site target valueOnly = .ok d' ↔
      ∃ insertion, d.Writes site (.inject target valueOnly) insertion ∧
        d.put site insertion = .ok d' := by
  simp only [copyIn, bind_eq_ok, enclosing_eq_ok, requireAddress_eq_ok, injected_eq_ok]
  constructor
  · rintro ⟨label, hlabel, a, ha, v, hv, h⟩
    cases valueOnly with
    | false => exact ⟨_, .copy ha hv, h⟩
    | true =>
      rw [if_pos rfl] at h
      split at h
      · cases h
      next hfits => exact ⟨_, .value ha hv hlabel (by simpa using hfits), h⟩
  · rintro ⟨_, hwrites, hput⟩
    cases hwrites with
    | copy ha hv =>
      obtain ⟨label, _, hlabel, _⟩ := put_eq_ok.1 hput
      exact ⟨label, hlabel, _, ha, _, hv, hput⟩
    | value ha hv hlabel hfits =>
      refine ⟨_, hlabel, _, ha, _, hv, ?_⟩
      rw [if_pos rfl, if_neg (by simpa using hfits)]
      exact hput

/-- All that a step without error can do. -/
inductive Step (importer : Importer) (source : Source) (d : Draft) (s : Session) (line : Line) :
    Draft → Session → Prop
  | openLabel {name hidden} : line.statement = .openLabel name hidden → d.current = none →
      Name.isValid name.toList = true →
      Step importer source d s line
        { d with current := some ⟨name, hidden, [], none, ⟨source, line.span⟩⟩ } s
  | openSpace {name label} : line.statement = .openSpace name → d.current = some label →
      label.space = none → Name.isValid name.toList = true →
      Step importer source d s line
        { d with current := some { label with
          space := some ⟨name, .empty, ⟨source, line.span⟩⟩ } } s
  | closeSpace {label space} : line.statement = .closeSpace → d.current = some label →
      label.space = some space →
      Step importer source d s line
        { d with current := some { label with
          items := label.items ++ [.entry space.name space.content.value], space := none } }
        (s.spaceClosed space.name space.content.value)
  | closeLabel {label} : line.statement = .closeLabel → d.current = some label →
      label.space = none →
      Step importer source d s line
        ⟨d.document.define label.name label.hidden (BodyItem.fold label.items), none⟩
        (s.note (closingRecords d.document label (BodyItem.fold label.items)))
  | writes {insertion d'} : d.Writes ⟨⟨source, line.span⟩, line.text⟩ line.statement insertion →
      d.put ⟨⟨source, line.span⟩, line.text⟩ insertion = .ok d' →
      Step importer source d s line d' s
  | imports {target other s'} : line.statement = .importFile target →
      importer target ⟨source, line.span⟩ s = (.ok other, s') →
      Step importer source d s line (d.takeIn target other).1 (s'.note (d.takeIn target other).2)

section Step

variable {importer : Importer} {source : Source} {s s' : Session} {line : Line}

theorem step_eq_ok :
    d.step importer source s line = (.ok d', s') ↔ Step importer source d s line d' s' := by
  constructor
  · intro h
    cases hstatement : line.statement with
    | openLabel name hidden =>
      simp only [step, hstatement, Prod.mk.injEq] at h
      obtain ⟨h, rfl⟩ := h
      obtain ⟨hnone, hname, rfl⟩ := beginLabel_eq_ok.1 h
      exact .openLabel hstatement hnone hname
    | openSpace name =>
      simp only [step, hstatement, Prod.mk.injEq] at h
      obtain ⟨h, rfl⟩ := h
      obtain ⟨label, hlabel, hnone, hname, rfl⟩ := beginSpace_eq_ok.1 h
      exact .openSpace hstatement hlabel hnone hname
    | closeSpace =>
      simp only [step, hstatement] at h
      split at h
      next hend =>
        cases h
        obtain ⟨label, space, hlabel, hspace, rfl, rfl, rfl⟩ := endSpace_eq_ok.1 hend
        exact .closeSpace hstatement hlabel hspace
      · cases h
    | closeLabel =>
      simp only [step, hstatement] at h
      split at h
      next hend =>
        cases h
        obtain ⟨label, hlabel, hspace, rfl, rfl⟩ := endLabel_eq_ok.1 hend
        exact .closeLabel hstatement hlabel hspace
      · cases h
    | assign key token =>
      simp only [step, hstatement, Prod.mk.injEq] at h
      obtain ⟨h, rfl⟩ := h
      obtain ⟨insertion, hwrites, hput⟩ := setKey_iff_writes.1 h
      exact .writes (hstatement ▸ hwrites) hput
    | importFile target =>
      simp only [step, hstatement] at h
      split at h
      next himport =>
        cases h
        exact .imports hstatement himport
      · cases h
    | inject target valueOnly =>
      simp only [step, hstatement, Prod.mk.injEq] at h
      obtain ⟨h, rfl⟩ := h
      obtain ⟨insertion, hwrites, hput⟩ := copyIn_iff_writes.1 h
      exact .writes (hstatement ▸ hwrites) hput
    | item token =>
      simp only [step, hstatement, Prod.mk.injEq] at h
      obtain ⟨h, rfl⟩ := h
      obtain ⟨insertion, hwrites, hput⟩ := addItem_iff_writes.1 h
      exact .writes (hstatement ▸ hwrites) hput
  · intro h
    cases h with
    | openLabel hstatement hnone hname =>
      simp only [step, hstatement, Prod.mk.injEq, and_true]
      exact beginLabel_eq_ok.2 ⟨hnone, hname, rfl⟩
    | openSpace hstatement hlabel hnone hname =>
      simp only [step, hstatement, Prod.mk.injEq, and_true]
      exact beginSpace_eq_ok.2 ⟨_, hlabel, hnone, hname, rfl⟩
    | closeSpace hstatement hlabel hspace =>
      simp only [step, hstatement]
      rw [endSpace_eq_ok.2 ⟨_, _, hlabel, hspace, rfl, rfl, rfl⟩]
    | closeLabel hstatement hlabel hspace =>
      simp only [step, hstatement]
      rw [endLabel_eq_ok.2 ⟨_, hlabel, hspace, rfl, rfl⟩]
    | imports hstatement himport =>
      simp only [step, hstatement]
      rw [himport]
    | writes hwrites hput =>
      generalize hstatement : line.statement = statement at hwrites
      cases hwrites with
      | pair =>
        simp only [step, hstatement, Prod.mk.injEq, and_true]
        exact setKey_iff_writes.2 ⟨_, by constructor <;> assumption, hput⟩
      | item hv =>
        simp only [step, hstatement, Prod.mk.injEq, and_true]
        exact addItem_iff_writes.2 ⟨_, .item hv, hput⟩
      | value ha hv hlabel hfits =>
        simp only [step, hstatement, Prod.mk.injEq, and_true]
        exact copyIn_iff_writes.2 ⟨_, .value ha hv hlabel hfits, hput⟩
      | copy ha hv =>
        simp only [step, hstatement, Prod.mk.injEq, and_true]
        exact copyIn_iff_writes.2 ⟨_, .copy ha hv, hput⟩

end Step

theorem step_importFile {importer : Importer} {source : Source} {s s' : Session} {line : Line}
    {target : String} (hline : line.statement = .importFile target)
    (h : d.step importer source s line = (.ok d', s')) :
    ∃ other, (importer target ⟨source, line.span⟩ s).1 = .ok other ∧
      (d.takeIn target other).1 = d' := by
  simp only [step, hline] at h
  split at h
  next himport =>
    cases h
    exact ⟨_, (Prod.ext_iff.1 himport).1, rfl⟩
  · cases h

theorem step_openLabel {importer : Importer} {source : Source} {s s' : Session} {line : Line}
    {name : String} {hidden : Bool} (hline : line.statement = .openLabel name hidden)
    (h : d.step importer source s line = (.ok d', s')) :
    d.current = none ∧ Name.isValid name.toList = true ∧
      { d with current := some ⟨name, hidden, [], none, ⟨source, line.span⟩⟩ } = d' := by
  simp only [step, hline, Prod.mk.injEq] at h
  exact beginLabel_eq_ok.1 h.1

theorem step_closeLabel {importer : Importer} {source : Source} {s s' : Session} {line : Line}
    (hline : line.statement = .closeLabel) (h : d.step importer source s line = (.ok d', s')) :
    ∃ label, d.current = some label ∧ label.space = none ∧
      ⟨d.document.define label.name label.hidden (BodyItem.fold label.items), none⟩ = d' := by
  simp only [step, hline] at h
  split at h
  next hend =>
    cases h
    obtain ⟨label, hlabel, hspace, hd, _⟩ := endLabel_eq_ok.1 hend
    exact ⟨label, hlabel, hspace, hd⟩
  · cases h

theorem keeps_label_of_put {insertion : Insertion} (h : d.put site insertion = .ok d') :
    ∃ label label', d.current = some label ∧ { d with current := some label' } = d' ∧
      label'.name = label.name ∧ label'.hidden = label.hidden := by
  obtain ⟨label, label', hlabel, hput, rfl⟩ := put_eq_ok.1 h
  refine ⟨label, label', hlabel, rfl, ?_⟩
  rcases OpenLabel.put_eq_ok.1 hput with ⟨_, rfl⟩ | ⟨_, _, _, _, rfl⟩ <;> exact ⟨rfl, rfl⟩

theorem step_inner {importer : Importer} {source : Source} {s s' : Session} {line : Line}
    (hline : line.statement.isInner = true) (h : d.step importer source s line = (.ok d', s')) :
    ∃ label label', d.current = some label ∧ { d with current := some label' } = d' ∧
      label'.name = label.name ∧ label'.hidden = label.hidden := by
  cases step_eq_ok.1 h with
  | openLabel hstatement | closeLabel hstatement | imports hstatement =>
    simp [hstatement, Statement.isInner] at hline
  | openSpace _ hlabel => exact ⟨_, _, hlabel, rfl, rfl, rfl⟩
  | closeSpace _ hlabel => exact ⟨_, _, hlabel, rfl, rfl, rfl⟩
  | writes _ hput => exact keeps_label_of_put hput

section Run

variable {importer : Importer} {source : Source} {s s' : Session} {line : Line} {lines more : List Line}

theorem run_cons_eq_none :
    d.run importer source (line :: lines) s = (none, d', s') ↔
      ∃ d₁ s₁, d.step importer source s line = (.ok d₁, s₁) ∧
        d₁.run importer source lines s₁ = (none, d', s') := by
  rw [run]
  rcases d.step importer source s line with ⟨e | d₁, s₁⟩
  · simp
  · constructor
    · exact fun h => ⟨d₁, s₁, rfl, h⟩
    · rintro ⟨_, _, ⟨⟩, h⟩
      exact h

theorem run_append_eq_none :
    d.run importer source (lines ++ more) s = (none, d', s') ↔
      ∃ d₁ s₁, d.run importer source lines s = (none, d₁, s₁) ∧
        d₁.run importer source more s₁ = (none, d', s') := by
  induction lines generalizing d s with
  | nil =>
    constructor
    · exact fun h => ⟨d, s, rfl, h⟩
    · rintro ⟨_, _, ⟨⟩, h⟩
      exact h
  | cons line lines ih =>
    simp only [List.cons_append, run_cons_eq_none, ih]
    constructor
    · rintro ⟨d₁, s₁, hstep, d₂, s₂, hlines, hmore⟩
      exact ⟨d₂, s₂, ⟨d₁, s₁, hstep, hlines⟩, hmore⟩
    · rintro ⟨d₂, s₂, ⟨d₁, s₁, hstep, hlines⟩, hmore⟩
      exact ⟨d₁, s₁, hstep, d₂, s₂, hlines, hmore⟩

theorem run_eq_some {e : Error} :
    d.run importer source lines s = (some e, d', s') ↔
      ∃ before line after s₁, lines = before ++ line :: after ∧
        d.run importer source before s = (none, d', s₁) ∧
        d'.step importer source s₁ line = (.error e, s') := by
  constructor
  · intro h
    induction lines generalizing d s with
    | nil => cases h
    | cons line lines ih =>
      rw [run] at h
      split at h
      next hstep =>
        obtain ⟨before, failing, after, s₁, rfl, hbefore, hfailing⟩ := ih h
        exact ⟨line :: before, failing, after, s₁, rfl, run_cons_eq_none.2 ⟨_, _, hstep, hbefore⟩,
          hfailing⟩
      next hstep =>
        cases h
        exact ⟨[], line, lines, s, rfl, rfl, hstep⟩
  · rintro ⟨before, line, after, s₁, rfl, hbefore, hline⟩
    induction before generalizing d s with
    | nil =>
      cases hbefore
      rw [List.nil_append, run, hline]
    | cons first before ih =>
      obtain ⟨d₁, s₂, hfirst, hbefore⟩ := run_cons_eq_none.1 hbefore
      rw [List.cons_append, run, hfirst]
      exact ih hbefore

theorem run_keeps {P : Draft → Session → Prop}
    (hstep : ∀ line ∈ lines, ∀ d s d' s', P d s →
      d.step importer source s line = (.ok d', s') → P d' s')
    (hP : P d s) (h : d.run importer source lines s = (none, d', s')) : P d' s' := by
  induction lines generalizing d s with
  | nil =>
    cases h
    exact hP
  | cons line lines ih =>
    rw [List.forall_mem_cons] at hstep
    obtain ⟨d₁, s₁, hline, hrest⟩ := run_cons_eq_none.1 h
    exact ih hstep.2 (hstep.1 d s d₁ s₁ hP hline) hrest

variable {α : Type} {observe : Draft → Session → Line → Option α}

variable (importer source observe) in
def trace : List Line → Draft → Session → List α
  | [], _, _ => []
  | line :: rest, d, s =>
    match d.step importer source s line with
    | (.ok d', s') => (observe d s line).toList ++ trace rest d' s'
    | (.error _, _) => []

theorem trace_cons {d₁ : Draft} {s₁ : Session}
    (h : d.step importer source s line = (.ok d₁, s₁)) :
    d.trace importer source observe (line :: lines) s =
      (observe d s line).toList ++ d₁.trace importer source observe lines s₁ := by
  rw [trace, h]

theorem trace_append {d₁ : Draft} {s₁ : Session}
    (h : d.run importer source lines s = (none, d₁, s₁)) :
    d.trace importer source observe (lines ++ more) s =
      d.trace importer source observe lines s ++ d₁.trace importer source observe more s₁ := by
  induction lines generalizing d s with
  | nil =>
    cases h
    rfl
  | cons line lines ih =>
    obtain ⟨d₂, s₂, hstep, hlines⟩ := run_cons_eq_none.1 h
    rw [List.cons_append, trace_cons hstep, trace_cons hstep, ih hlines, List.append_assoc]

theorem forall_mem_trace {P : α → Prop} (h : ∀ d s line, ∀ x ∈ observe d s line, P x)
    (lines : List Line) (d : Draft) (s : Session) :
    ∀ x ∈ d.trace importer source observe lines s, P x := by
  induction lines generalizing d s with
  | nil => exact fun x hx => nomatch hx
  | cons line lines ih =>
    intro x hx
    rw [trace] at hx
    split at hx
    next d' s' _ =>
      exact (List.mem_append.1 hx).elim (fun hx => h d s line x (Option.mem_toList.1 hx)) (ih d' s' x)
    · cases hx

end Run

end Draft

theorem Reader.read_eq_ok {importer : Importer} {source : Source} {s : Session} {d : Document} :
    ((ofSource source).read importer s).1 = .ok d ↔
      ∃ s', Draft.run importer source source.lines .empty s = (none, ⟨d, none⟩, s') := by
  rw [read, ofSource]
  dsimp only
  generalize Draft.run importer source source.lines .empty s = outcome
  obtain ⟨_ | e, ⟨document, current⟩, s'⟩ := outcome
  · cases current with
    | none => simp [Draft.finish]
    | some label => cases hspace : label.space <;> simp [Draft.finish, hspace]
  · simp

end Loon
