import Loon.Draft
import Loon.Proofs.Resolution.Related

namespace Loon

/-- Two runs end alike: with related results, or with related errors. -/
inductive Outcome {ε α β : Type} (E : ε → ε → Prop) (R : α → β → Prop) :
    Except ε α → Except ε β → Prop
  | ok {a b} : R a b → Outcome E R (.ok a) (.ok b)
  | error {e e'} : E e e' → Outcome E R (.error e) (.error e')

theorem Outcome.bind {ε α β γ δ : Type} {E : ε → ε → Prop} {R : α → β → Prop} {S : γ → δ → Prop}
    {x : Except ε α} {y : Except ε β} {f : α → Except ε γ} {g : β → Except ε δ}
    (h : Outcome E R x y) (hf : ∀ a b, R a b → Outcome E S (f a) (g b)) :
    Outcome E S (x >>= f) (y >>= g) := by
  cases h with
  | ok hab => exact hf _ _ hab
  | error he => exact .error he

theorem Outcome.imp {ε α β : Type} {E : ε → ε → Prop} {R S : α → β → Prop} {x : Except ε α}
    {y : Except ε β} (h : Outcome E R x y) (hRS : ∀ a b, x = .ok a → R a b → S a b) :
    Outcome E S x y := by
  cases h with
  | ok hab => exact .ok (hRS _ _ rfl hab)
  | error he => exact .error he

def Error.Alike (e e' : Error) : Prop := e.fault = e'.fault

def Placeholder.Alike (p q : Placeholder) : Prop := p.expr = q.expr ∧ p.merge = q.merge

namespace Mapping

variable {α β : Type} {R : α → β → Prop} {m : Mapping α} {m' : Mapping β}

theorem Related.contains (h : Related R m m') (key : String) :
    Mapping.contains m key = Mapping.contains m' key := by
  have := h.get? key
  rw [Mapping.contains, Mapping.contains]
  generalize Mapping.get? m key = x, Mapping.get? m' key = y at this ⊢
  cases this <;> rfl

theorem Related.erase (h : Related R m m') (key : String) :
    Related R (Mapping.erase m key) (Mapping.erase m' key) := by
  induction h with
  | nil => exact .nil
  | cons own hvw _ ih =>
    rw [Mapping.erase, Mapping.erase, List.filter_cons, List.filter_cons]
    split
    · exact .cons own hvw ih
    · exact ih

end Mapping

namespace Value

abbrev Alike : Value → Value → Prop := Related Placeholder.Alike

variable {v w : Value}

theorem Alike.refl (v : Value) : v.Alike v := Related.refl_of fun _ _ => ⟨rfl, rfl⟩

theorem Alike.get? (h : v.Alike w) (key : String) : Option.Rel Alike (v.get? key) (w.get? key) := by
  cases h with
  | mapping h => exact h.toMapping.get? key
  | _ => exact .none

theorem Alike.kind (h : v.Alike w) : v.kind = w.kind := by
  cases h <;> rfl

mutual

theorem Alike.text : ∀ {v w : Value}, v.Alike w → v.text = w.text
  | _, _, .placeholder h => by rw [Value.text, Value.text, h.1]
  | _, _, .mapping h => by rw [Value.text, Value.text, alike_entryTexts h]
  | _, _, .list h => by rw [Value.text, Value.text, alike_itemTexts h]
  | _, _, .string _ => rfl
  | _, _, .number _ => rfl
  | _, _, .bool _ => rfl
  | _, _, .null => rfl

theorem alike_entryTexts :
    ∀ {as bs : List (String × Value)}, RelatedEntries Placeholder.Alike as bs →
      entryTexts as = entryTexts bs
  | _, _, .nil => rfl
  | _, _, .cons key h hrest => by
    rw [entryTexts, entryTexts, Alike.text h, alike_entryTexts hrest]

theorem alike_itemTexts :
    ∀ {as bs : List Value}, RelatedItems Placeholder.Alike as bs → itemTexts as = itemTexts bs
  | _, _, .nil => rfl
  | _, _, .cons h hrest => by rw [itemTexts, itemTexts, Alike.text h, alike_itemTexts hrest]

end

end Value

abbrev Mapping.Alike : Mapping Value → Mapping Value → Prop := Mapping.Related Value.Alike

theorem Mapping.Alike.value {m m' : Mapping Value} (h : Mapping.Alike m m') :
    (Value.mapping m).Alike (.mapping m') := .mapping (.ofMapping h)

namespace Document

structure Alike (d d' : Document) : Prop where
  labels : Mapping.Alike d.labels d'.labels
  hidden : Mapping.Alike d.hidden d'.hidden

variable {d d' other other' : Document}

theorem alike_empty : empty.Alike empty := ⟨.nil, .nil⟩

theorem Alike.find? (h : d.Alike d') (name : String) :
    Option.Rel Value.Alike (d.find? name) (d'.find? name) :=
  find?_of_related h.labels h.hidden name

theorem alike_fieldOf {v w : Value} (h : v.Alike w) (field : Option String) :
    Option.Rel Value.Alike (fieldOf v field) (fieldOf w field) := by
  cases field with
  | none => exact .some h
  | some field => exact h.get? field

theorem Alike.lookup (h : d.Alike d') (a : Address) :
    Outcome Eq (Option.Rel Value.Alike) (d.lookup a) (d'.lookup a) := by
  have hlabel := h.find? a.label
  rw [Document.lookup, Document.lookup]
  generalize d.find? a.label = x, d'.find? a.label = y at hlabel ⊢
  cases hlabel with
  | none => exact .error rfl
  | @some v w hvw =>
    cases a.space with
    | none => exact .ok (alike_fieldOf hvw a.field)
    | some space =>
      have hspace := hvw.get? space
      dsimp only
      generalize v.get? space = x, w.get? space = y at hspace ⊢
      cases hspace with
      | none => exact .error rfl
      | some hvw => exact .ok (alike_fieldOf hvw a.field)

theorem Alike.define {body body' : Mapping Value} (h : d.Alike d') (hbody : Mapping.Alike body body')
    (name : String) (hidden : Bool) : (d.define name hidden body).Alike (d'.define name hidden body') := by
  cases hidden with
  | false => exact ⟨h.labels.insert name hbody.value, h.hidden.erase name⟩
  | true => exact ⟨h.labels.erase name, h.hidden.insert name hbody.value⟩

theorem Alike.adoptLabel {v w : Value} (h : d.Alike d') (name : String) (hvw : v.Alike w) :
    (d.adoptLabel name v).Alike (d'.adoptLabel name w) := by
  refine ⟨h.labels.insert name hvw, ?_⟩
  rw [Document.adoptLabel, Document.adoptLabel, h.labels.contains name]
  split
  · exact h.hidden
  · exact h.hidden.erase name

theorem Alike.adopt (h : d.Alike d') (hother : other.Alike other') :
    (d.adopt other).Alike (d'.adopt other') := by
  have hlabels : ∀ {m m' : Mapping Value}, Mapping.Alike m m' → ∀ {d d' : Document}, d.Alike d' →
      (m.foldl (fun d entry => d.adoptLabel entry.1 entry.2) d).Alike
        (m'.foldl (fun d entry => d.adoptLabel entry.1 entry.2) d') := by
    intro m m' hm
    induction hm with
    | nil => exact fun h => h
    | cons name hvw _ ih => exact fun h => ih (h.adoptLabel name hvw)
  have := hlabels hother.labels h
  exact ⟨this.labels, this.hidden.extend hother.hidden⟩

theorem Alike.enclose (h : d.Alike d') (hother : other.Alike other') :
    (d.enclose other).Alike (d'.enclose other') :=
  ⟨h.labels, (h.hidden.extend hother.labels).extend hother.hidden⟩

end Document

namespace Space

inductive Alike : Space → Space → Prop
  | empty : Alike empty empty
  | mapping {m m'} : Mapping.Alike m m' → Alike (mapping m) (mapping m')
  | list {as bs} : List.Forall₂ Value.Alike as bs → Alike (list as) (list bs)

variable {content content' : Space} {v w : Value}

theorem alike_items {as bs : List Value} (h : List.Forall₂ Value.Alike as bs) :
    Value.RelatedItems Placeholder.Alike as bs := by
  induction h with
  | nil => exact .nil
  | cons hvw _ ih => exact .cons hvw ih

theorem Alike.value (h : content.Alike content') : content.value.Alike content'.value := by
  cases h with
  | empty => exact .null
  | mapping h => exact h.value
  | list h => exact .list (alike_items h)

theorem Alike.insert (h : content.Alike content') (key : String) (hvw : v.Alike w) :
    Option.Rel Alike (content.insert key v) (content'.insert key w) := by
  cases h with
  | empty => exact .some (.mapping (.cons key hvw .nil))
  | mapping h => exact .some (.mapping (h.insert key hvw))
  | list h => exact .none

theorem Alike.merge {m m' : Mapping Value} (h : content.Alike content') (hm : Mapping.Alike m m') :
    Option.Rel Alike (content.merge m) (content'.merge m') := by
  cases h with
  | empty => exact .some (.mapping hm)
  | mapping h => exact .some (.mapping (h.extend hm))
  | list h => exact .none

theorem alike_single {m m' : Mapping Value} (h : Mapping.Alike m m') :
    List.Forall₂ Value.Alike (m.map single) (m'.map single) := by
  induction h with
  | nil => exact .nil
  | cons key hvw _ ih => exact .cons (.mapping (.cons key hvw .nil)) ih

theorem Alike.push (h : content.Alike content') (hvw : v.Alike w) :
    (content.push v).Alike (content'.push w) := by
  cases h with
  | empty => exact .list (.cons hvw .nil)
  | mapping h => exact .list (List.rel_append (alike_single h) (.cons hvw .nil))
  | list h => exact .list (List.rel_append h (.cons hvw .nil))

end Space

namespace BodyItem

inductive Alike : BodyItem → BodyItem → Prop
  | entry (key) {v w} : v.Alike w → Alike (entry key v) (entry key w)
  | merge {m m'} : Mapping.Alike m m' → Alike (merge m) (merge m')
  | bare {v w} : v.Alike w → Alike (bare v) (bare w)

theorem Alike.apply {item item' : BodyItem} {m m' : Mapping Value} (h : item.Alike item')
    (hm : Mapping.Alike m m') : Mapping.Alike (item.apply m) (item'.apply m') := by
  cases h with
  | entry key hvw => exact hm.insert key hvw
  | merge h => exact hm.extend h
  | bare hvw =>
    rw [BodyItem.apply, BodyItem.apply, hvw.text]
    exact hm.insert _ .null

theorem alike_fold {items items' : List BodyItem} (h : List.Forall₂ Alike items items') :
    Mapping.Alike (fold items) (fold items') := by
  suffices ∀ m m', Mapping.Alike m m' →
      Mapping.Alike (items.foldl BodyItem.apply m) (items'.foldl BodyItem.apply m') from
    this [] [] .nil
  induction h with
  | nil => exact fun _ _ hm => hm
  | cons hitem _ ih => exact fun m m' hm => ih _ _ (hitem.apply hm)

end BodyItem

namespace Insertion

inductive Alike : Insertion → Insertion → Prop
  | pair (key) {v w} : v.Alike w → Alike (pair key v) (pair key w)
  | item {v w} : v.Alike w → Alike (item v) (item w)
  | merge {m m'} : Mapping.Alike m m' → Alike (merge m) (merge m')

variable {insertion insertion' : Insertion}

theorem Alike.bodyItem (h : insertion.Alike insertion') :
    insertion.bodyItem.Alike insertion'.bodyItem := by
  cases h with
  | pair key hvw => exact .entry key hvw
  | merge hm => exact .merge hm
  | item hvw =>
    cases hvw with
    | @placeholder p q hpq =>
      have hkey : keyOf p = keyOf q := by rw [keyOf, keyOf, hpq.1]
      rw [Insertion.bodyItem, Insertion.bodyItem, hkey]
      exact .entry _ (.placeholder ⟨hpq.1, rfl⟩)
    | mapping h => exact .merge h.toMapping
    | _ => exact .bare (by constructor <;> assumption)

theorem Alike.put {content content' : Space} (h : insertion.Alike insertion')
    (hcontent : content.Alike content') :
    Outcome Eq Space.Alike (insertion.put content) (insertion'.put content') := by
  cases h with
  | pair key hvw =>
    have := hcontent.insert key hvw
    rw [Insertion.put, Insertion.put]
    generalize content.insert key _ = x, content'.insert key _ = y at this ⊢
    cases this with
    | none => exact .error rfl
    | some h => exact .ok h
  | item hvw => exact .ok (hcontent.push hvw)
  | merge hm =>
    have := hcontent.merge hm
    rw [Insertion.put, Insertion.put]
    generalize content.merge _ = x, content'.merge _ = y at this ⊢
    cases this with
    | none => exact .error rfl
    | some h => exact .ok h

end Insertion

structure OpenSpace.Alike (space space' : OpenSpace) : Prop where
  name : space.name = space'.name
  content : space.content.Alike space'.content

namespace OpenLabel

structure Alike (l l' : OpenLabel) : Prop where
  name : l.name = l'.name
  hidden : l.hidden = l'.hidden
  items : List.Forall₂ BodyItem.Alike l.items l'.items
  space : Option.Rel OpenSpace.Alike l.space l'.space

variable {l l' : OpenLabel}

theorem Alike.put {insertion insertion' : Insertion} (hl : l.Alike l')
    (h : insertion.Alike insertion') (here here' : Place) :
    Outcome Error.Alike Alike (l.put here insertion) (l'.put here' insertion') := by
  obtain ⟨name, hidden, items, space, place⟩ := l
  obtain ⟨_, _, items', space', place'⟩ := l'
  obtain ⟨rfl, rfl, hitems, hspace⟩ := hl
  cases hspace with
  | none => exact .ok ⟨rfl, rfl, List.rel_append hitems (.cons h.bodyItem .nil), .none⟩
  | @some space space' hspace =>
    have hput := h.put hspace.content
    rw [OpenLabel.put, OpenLabel.put]
    dsimp only
    generalize insertion.put space.content = x, insertion'.put space'.content = y at hput ⊢
    cases hput with
    | ok hcontent => exact .ok ⟨rfl, rfl, hitems, .some ⟨hspace.name, hcontent⟩⟩
    | error he =>
      subst he
      exact .error (congrArg (Fault.mixedContainer · _) hspace.name)

theorem Alike.enclose {m m' : Mapping Value} (hl : l.Alike l') (hm : Mapping.Alike m m') :
    (l.enclose m).Alike (l'.enclose m') := by
  obtain ⟨name, hidden, items, space, place⟩ := l
  obtain ⟨_, _, items', space', place'⟩ := l'
  obtain ⟨rfl, rfl, hitems, hspace⟩ := hl
  cases hspace with
  | none => exact ⟨rfl, rfl, List.rel_append hitems (.cons (.entry name hm.value) .nil), .none⟩
  | some hspace => exact ⟨rfl, rfl, hitems, .some ⟨hspace.name, hspace.content.push hm.value⟩⟩

end OpenLabel

structure Draft.Alike (d d' : Draft) : Prop where
  document : d.document.Alike d'.document
  current : Option.Rel OpenLabel.Alike d.current d'.current

theorem Draft.alike_empty : empty.Alike empty := ⟨Document.alike_empty, .none⟩

end Loon
