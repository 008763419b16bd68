import Loon.Proofs.Reading.Imports

/-!
Reading in place. All that reading changes lies on one desk, and a line changes it bit by bit: a space
is taken away before it is known that there is one, and the chain of files grows before another file is
read and shrinks after it, whether that went well or not. The outcome is that of the steps from draft to
draft, with the chain as it was.
-/

namespace Loon

namespace Space

def insertInPlace (key : String) (v : Value) : StateM Space Bool := do
  match ← get with
  | empty =>
    set (mapping [(key, v)])
    return true
  | mapping entries =>
    set (mapping (Mapping.insert entries key v))
    return true
  | list _ => return false

def mergeInPlace (new : Mapping Value) : StateM Space Bool := do
  match ← get with
  | empty =>
    set (mapping new)
    return true
  | mapping entries =>
    set (mapping (Mapping.extend entries new))
    return true
  | list _ => return false

def pushInPlace (v : Value) : StateM Space Unit := do
  match ← modifyGet fun content => (content, empty) with
  | empty => set (list [v])
  | mapping entries => set (list (entries.map single ++ [v]))
  | list items => set (list (items ++ [v]))

end Space

def Insertion.putInPlace : Insertion → StateM Space (Option Keyed)
  | pair key v => do return if ← Space.insertInPlace key v then none else some .pair
  | merge entries => do return if ← Space.mergeInPlace entries then none else some .injection
  | item v => do
    Space.pushInPlace v
    return none

structure Desk where
  draft : Draft
  chain : List Path
  session : Session

namespace Desk

def setCurrent (desk : Desk) (current : Option OpenLabel) : Desk :=
  { desk with draft := { desk.draft with current } }

def clear : Desk := ⟨.empty, [], .empty⟩

def answer {α : Type} (desk : Desk) : Except Error α × Session → EStateM.Result Error Desk α
  | (.ok a, session) => .ok a { desk with session }
  | (.error e, session) => .error e { desk with session }

def after (desk : Desk) : Except Error Draft × Session → EStateM.Result Error Desk Unit
  | (.ok draft, session) => .ok () { desk with draft, session }
  | (.error e, session) => .error e { desk with session }

end Desk

abbrev Reading := EStateM Error Desk

namespace Reading

open Draft (Site)

abbrev Importing := String → Place → Reading Document

def ofExcept {α : Type} : Except Error α → Reading α
  | .ok a => pure a
  | .error e => throw e

def note (records : List Record) : Reading Unit :=
  modify fun desk => { desk with session := desk.session.note records }

def enclosing (site : Site) : Reading OpenLabel := do ofExcept ((← get).draft.enclosing site)

def push (item : BodyItem) : Reading Unit :=
  modify fun desk => desk.setCurrent
    (desk.draft.current.map fun label => { label with items := label.items ++ [item] })

def beginLabel (site : Site) (name : String) (hidden : Bool) : Reading Unit := do
  if let some label := (← get).draft.current then
    throw ⟨.unclosedLabel label.name, some label.openedAt⟩
  ofExcept (Draft.requireName site .label name)
  modify fun desk => desk.setCurrent (some ⟨name, hidden, [], none, site.place⟩)

def beginSpace (site : Site) (name : String) : Reading Unit := do
  let label ← enclosing site
  if let some space := label.space then
    throw ⟨.nestedSpace name space.name, some space.openedAt⟩
  ofExcept (Draft.requireName site .space name)
  modify fun desk => desk.setCurrent
    (desk.draft.current.map fun label => { label with space := some ⟨name, .empty, site.place⟩ })

def takeSpace : Reading (Option OpenSpace) :=
  modifyGet fun desk => (desk.draft.current.bind OpenLabel.space,
    desk.setCurrent (desk.draft.current.map fun label => { label with space := none }))

def endSpace (site : Site) : Reading Unit := do
  match ← takeSpace with
  | none => throw (site.error .noOpenSpace)
  | some space =>
    let v := space.content.value
    modify fun desk => { desk with session := desk.session.spaceClosed space.name v }
    push (.entry space.name v)

def takeLabel : Reading (Option OpenLabel) :=
  modifyGet fun desk => (desk.draft.current, desk.setCurrent none)

def endLabel (site : Site) : Reading Unit := do
  let label ← enclosing site
  if let some space := label.space then
    throw ⟨.unclosedSpace space.name, some space.openedAt⟩
  if let some label ← takeLabel then
    let body := BodyItem.fold label.items
    note (Draft.closingRecords (← get).draft.document label body)
    modify fun desk =>
      { desk with draft.document := desk.draft.document.define label.name label.hidden body }

def inSpace {α : Type} (change : StateM Space (Option α)) : Reading (Option α) :=
  modifyGet fun desk =>
    match desk.draft.current with
    | none => (none, desk)
    | some label =>
      match label.space with
      | none => (none, desk)
      | some space =>
        let (a, content) := change.run space.content
        (a, desk.setCurrent (some { label with space := some { space with content } }))

def put (site : Site) (insertion : Insertion) : Reading Unit := do
  let label ← enclosing site
  match label.space with
  | none => push insertion.bodyItem
  | some space =>
    if let some attempted ← inSpace insertion.putInPlace then
      throw ⟨.mixedContainer space.name attempted, some site.place⟩

def setKey (site : Site) (key token : String) : Reading Unit := do
  let _ ← enclosing site
  if key.isEmpty then throw (site.error .missingKey)
  let key ← ofExcept ((← get).draft.readKey site key)
  let v ← ofExcept (Draft.readValue site token)
  put site (.pair key v)

def addItem (site : Site) (token : String) : Reading Unit := do
  let v ← ofExcept (Draft.readValue site token)
  put site (.item v)

def copyIn (site : Site) (target : String) (valueOnly : Bool) : Reading Unit := do
  let label ← enclosing site
  let a ← ofExcept (Draft.requireAddress site target)
  let v ← ofExcept ((← get).draft.injected site target a)
  if !valueOnly then put site (.merge [(a.name, v)])
  else if label.space.isNone && !Draft.fitsBody v then
    throw (site.error (.invalidInjection target v.kind label.name))
  else put site (.item v)

def takeIn (importing : Importing) (site : Site) (target : String) : Reading Unit := do
  let other ← importing target site.place
  let (draft, records) := (← get).draft.takeIn target other
  modify fun desk => { desk with draft }
  note records

def step (importing : Importing) (source : Source) (line : Line) : Reading Unit :=
  let site : Site := ⟨⟨source, line.span⟩, line.text⟩
  match line.statement with
  | .openLabel name hidden => beginLabel site name hidden
  | .openSpace name => beginSpace site name
  | .closeSpace => endSpace site
  | .closeLabel => endLabel site
  | .assign key token => setKey site key token
  | .importFile target => takeIn importing site target
  | .inject target valueOnly => copyIn site target valueOnly
  | .item token => addItem site token

def read (importing : Importing) (source : Source) (lines : List Line) : Reading Document := do
  lines.forM (step importing source)
  let document ← ofExcept (← get).draft.finish
  modify fun desk => { desk with draft := .empty }
  return document

def within {α : Type} (path : Path) (reading : Reading α) : Reading α := fun desk =>
  match reading { desk with draft := .empty, chain := desk.chain ++ [path] } with
  | .ok a inner => .ok a { inner with draft := desk.draft, chain := inner.chain.dropLast }
  | .error e inner => .error e { inner with draft := desk.draft, chain := inner.chain.dropLast }

end Reading

namespace FileTree

open Reading (Importing)

/-- Imports in place, as deep as is said. What imports still deeper may do anything. -/
def importing (t : FileTree) (deeper : Importing) : (depth : Nat) → Importing
  | 0 => deeper
  | depth + 1 => fun target place => do
    match t.findTarget (Path.ofText place.source.name) target with
    | .error obstacle => throw ⟨.invalidTarget target obstacle, some place⟩
    | .ok l =>
      let path := Path.ofLocation l
      let chain := (← get).chain
      if chain.any (·.isAt l) then
        throw ⟨.importCycle ((chain ++ [path]).map Path.text), some place⟩
      else
        match t.read l with
        | .error failure => throw ⟨.unreadable path.text failure, none⟩
        | .ok content =>
          let source := sourceAt l content
          Reading.note [.importStarted path.text]
          let document ← Reading.within path
            (Reading.read (t.importing deeper depth) source source.lines)
          Reading.note [.importFinished target document.labels.length document.hidden.length]
          return document

def reading (t : FileTree) (deeper : Importing) (depth : Nat) (source : Source) :
    Reading Document :=
  Reading.within (t.canonical source.name)
    (Reading.read (t.importing deeper depth) source source.lines)

end FileTree

namespace Reading

section Bind

variable {α β : Type} {x : Reading α} {f : α → Reading β} {desk desk' : Desk}

theorem bind_of_ok {a : α} (h : x desk = .ok a desk') : (x >>= f) desk = f a desk' := by
  change EStateM.bind x f desk = _
  rw [EStateM.bind, h]

theorem bind_of_error {e : Error} (h : x desk = .error e desk') :
    (x >>= f) desk = .error e desk' := by
  change EStateM.bind x f desk = _
  rw [EStateM.bind, h]

end Bind

section Handlers

variable {site : Draft.Site} (desk : Desk)

theorem ofExcept_bind {α : Type} (x : Except Error α) {f : α → Reading Unit}
    {g : α → Except Error Draft} (h : ∀ a, f a desk = desk.after (g a, desk.session)) :
    (ofExcept x >>= f) desk = desk.after (x >>= g, desk.session) := by
  cases x with
  | ok a => exact h a
  | error e => rfl

theorem beginLabel_run (name : String) (hidden : Bool) :
    beginLabel site name hidden desk =
      desk.after (desk.draft.beginLabel site name hidden, desk.session) := by
  obtain ⟨⟨document, _ | label⟩, chain, session⟩ := desk
  · exact ofExcept_bind _ _ fun _ => rfl
  · rfl

theorem beginSpace_run (name : String) :
    beginSpace site name desk = desk.after (desk.draft.beginSpace site name, desk.session) := by
  obtain ⟨⟨document, _ | ⟨own, hidden, items, _ | space, openedAt⟩⟩, chain, session⟩ := desk
  · rfl
  · exact ofExcept_bind _ _ fun _ => rfl
  · rfl

theorem endSpace_run :
    endSpace site desk = desk.after
      (match desk.draft.endSpace site with
      | .ok (draft, name, v) => (.ok draft, desk.session.spaceClosed name v)
      | .error e => (.error e, desk.session)) := by
  obtain ⟨⟨document, _ | ⟨own, hidden, items, _ | space, openedAt⟩⟩, chain, session⟩ := desk <;> rfl

theorem endLabel_run :
    endLabel site desk = desk.after
      (match desk.draft.endLabel site with
      | .ok (draft, records) => (.ok draft, desk.session.note records)
      | .error e => (.error e, desk.session)) := by
  obtain ⟨⟨document, _ | ⟨own, hidden, items, _ | space, openedAt⟩⟩, chain, session⟩ := desk <;> rfl

theorem put_run (insertion : Insertion) :
    put site insertion desk = desk.after (desk.draft.put site insertion, desk.session) := by
  obtain ⟨⟨document, _ | ⟨own, hidden, items, _ | space, openedAt⟩⟩, chain, session⟩ := desk
  · rfl
  · rfl
  · obtain ⟨name, content, openedAt⟩ := space
    cases insertion <;> cases content <;> rfl

theorem setKey_run (key token : String) :
    setKey site key token desk = desk.after (desk.draft.setKey site key token, desk.session) := by
  refine ofExcept_bind desk (desk.draft.enclosing site) fun _ => ?_
  cases hkey : key.isEmpty with
  | true => rfl
  | false =>
    exact ofExcept_bind desk (desk.draft.readKey site key) fun k =>
      ofExcept_bind desk (Draft.readValue site token) fun v => put_run desk _

theorem addItem_run (token : String) :
    addItem site token desk = desk.after (desk.draft.addItem site token, desk.session) :=
  ofExcept_bind desk (Draft.readValue site token) fun _ => put_run desk _

theorem copyIn_run (target : String) (valueOnly : Bool) :
    copyIn site target valueOnly desk =
      desk.after (desk.draft.copyIn site target valueOnly, desk.session) := by
  refine ofExcept_bind desk (desk.draft.enclosing site) fun label =>
    ofExcept_bind desk (Draft.requireAddress site target) fun a =>
      ofExcept_bind desk (desk.draft.injected site target a) fun v => ?_
  cases valueOnly with
  | false => exact put_run desk _
  | true =>
    simp only [Bool.not_true, Bool.false_eq_true, if_false, if_true]
    split
    · rfl
    · exact put_run desk _

end Handlers

def Answers (importing : Importing) (importer : Importer) (chain : List Path) : Prop :=
  ∀ target place (desk : Desk), desk.chain = chain →
    importing target place desk = desk.answer (importer target place desk.session)

section Run

variable {importing : Importing} {importer : Importer} (desk : Desk)

theorem takeIn_run (h : Answers importing importer desk.chain) (site : Draft.Site) (target : String) :
    takeIn importing site target desk = desk.after
      (match importer target site.place desk.session with
      | (.ok other, session) =>
        (.ok (desk.draft.takeIn target other).1, session.note (desk.draft.takeIn target other).2)
      | (.error e, session) => (.error e, session)) := by
  have himport := h target site.place desk rfl
  rcases hanswer : importer target site.place desk.session with ⟨e | other, session⟩ <;>
    rw [hanswer] at himport
  · exact bind_of_error himport
  · exact bind_of_ok himport

theorem step_run (h : Answers importing importer desk.chain) (source : Source) (line : Line) :
    step importing source line desk =
      desk.after (desk.draft.step importer source desk.session line) := by
  unfold step Draft.step
  cases line.statement with
  | openLabel name hidden => exact beginLabel_run desk name hidden
  | openSpace name => exact beginSpace_run desk name
  | closeSpace => exact endSpace_run desk
  | closeLabel => exact endLabel_run desk
  | assign key token => exact setKey_run desk key token
  | importFile target => exact takeIn_run desk h _ target
  | inject target valueOnly => exact copyIn_run desk target valueOnly
  | item token => exact addItem_run desk token

theorem forM_run (h : Answers importing importer desk.chain) (source : Source) (lines : List Line) :
    lines.forM (step importing source) desk =
      match desk.draft.run importer source lines desk.session with
      | (none, draft, session) => .ok () { desk with draft, session }
      | (some e, draft, session) => .error e { desk with draft, session } := by
  induction lines generalizing desk with
  | nil => rfl
  | cons line lines ih =>
    have hstep := step_run desk h source line
    rw [Draft.run]
    rcases hline : desk.draft.step importer source desk.session line with ⟨e | draft, session⟩ <;>
      rw [hline] at hstep
    · exact bind_of_error hstep
    · exact (bind_of_ok hstep).trans (ih _ h)

theorem read_run (h : Answers importing importer desk.chain) (source : Source) (lines : List Line) :
    read importing source lines desk =
      match Reader.read importer ⟨source, lines, desk.draft⟩ desk.session with
      | (.ok document, r, session) => .ok document { desk with draft := r.draft, session }
      | (.error e, r, session) => .error e { desk with draft := r.draft, session } := by
  have hlines := forM_run desk h source lines
  rw [Reader.read]
  rcases hrun : desk.draft.run importer source lines desk.session with ⟨_ | e, draft, session⟩ <;>
    rw [hrun] at hlines
  · refine (bind_of_ok hlines).trans ?_
    obtain ⟨document, _ | ⟨name, hidden, items, _ | space, openedAt⟩⟩ := draft <;> rfl
  · exact bind_of_error hlines

theorem within_run {path : Path} (h : Answers importing importer (desk.chain ++ [path]))
    (source : Source) :
    within path (read importing source source.lines) desk =
      desk.answer (((Reader.ofSource source).read importer desk.session).1,
        ((Reader.ofSource source).read importer desk.session).2.2) := by
  have hread := read_run { desk with draft := .empty, chain := desk.chain ++ [path] } h source
    source.lines
  rw [within, hread, Reader.ofSource]
  rcases Reader.read importer ⟨source, source.lines, .empty⟩ desk.session with
    ⟨e | document, r, session⟩ <;> simp [Desk.answer]

end Run

end Reading

namespace FileTree

variable {t : FileTree} {chain : List Path}

/-- Imports in place answer as the importer does. The chain bounds their depth, so what would import
still deeper is never asked. -/
theorem importing_answers (deeper : Reading.Importing) {depth : Nat}
    (h : t.unopened chain < depth) :
    Reading.Answers (t.importing deeper depth) (t.importer chain) chain := by
  induction depth generalizing chain with
  | zero => exact absurd h (Nat.not_lt_zero _)
  | succ depth ih =>
    rintro target place desk rfl
    rw [importer_eq, importing]
    dsimp only
    cases hfind : t.findTarget (Path.ofText place.source.name) target with
    | error obstacle => rfl
    | ok l =>
      -- The chain is read off the desk, so both ask the same of it.
      change (ite (desk.chain.any (·.isAt l) = true) _ _ : Reading Document) desk = _
      dsimp only
      by_cases hchain : desk.chain.any (·.isAt l) = true
      · rw [if_pos hchain, if_pos hchain]
        rfl
      · rw [if_neg hchain, if_neg hchain]
        cases hread : t.read l with
        | error failure => rfl
        | ok content =>
          have hless := unopened_append_lt (mem_entries_of_read hread) hchain
          have hanswers := ih (Nat.lt_of_lt_of_le hless (Nat.lt_succ_iff.1 h))
          let started : Desk :=
            { desk with session := desk.session.note [.importStarted (Path.ofLocation l).text] }
          have hwithin := Reading.within_run started hanswers (sourceAt l content)
          change (Reading.within _ _ >>= _) started = _
          dsimp only
          rcases hinner : (Reader.ofSource (sourceAt l content)).read
            (t.importer (desk.chain ++ [Path.ofLocation l])) started.session with
            ⟨e | document, r, session⟩ <;> rw [hinner] at hwithin
          · exact Reading.bind_of_error hwithin
          · exact Reading.bind_of_ok hwithin

/-- A source is read in place as it is read from draft to draft, and no file stays on the chain. -/
theorem reading_run (deeper : Reading.Importing) {depth : Nat} (h : t.entries.length < depth)
    (source : Source) (s : Session) :
    t.reading deeper depth source ⟨.empty, [], s⟩ =
      Desk.answer ⟨.empty, [], s⟩ (t.readSource source s) := by
  have hchain : t.unopened [t.canonical source.name] < depth :=
    Nat.lt_of_le_of_lt (List.length_filter_le ..) h
  exact Reading.within_run ⟨.empty, [], s⟩ (importing_answers deeper hchain) source

end FileTree

end Loon
