import Loon.Proofs.Reading.Bindings
import Loon.Proofs.Reading.Body
import Loon.Proofs.Reading.Gathered
import Loon.Proofs.Reading.Throughout
import Mathlib.Data.List.Induction

namespace Loon

/-- If the entry is a reference that merges, it has the key that the reference gives itself. -/
def IsKeyed (entry : String × Value) : Prop :=
  ∀ p, entry.2 = .placeholder p → p.merge = true → entry.1 = Insertion.keyOf p

theorem isKeyed_of_merges {key : String} {v : Value} (h : v.merges = false) : IsKeyed (key, v) := by
  rintro p rfl hp
  exact absurd (hp.symm.trans h) Bool.noConfusion

namespace Value

def WellKeyed : Value → Prop
  | mapping entries => Mapping.Distinct entries ∧ ∀ entry ∈ entries, IsKeyed entry
  | _ => True

structure Stands (entry : String × Value) : Prop where
  key : IsKeyed entry
  value : entry.2.Throughout WellKeyed

variable {m new entries : Mapping Value} {items : List Value} {v w : Value} {key : String}

theorem wellKeyed_mapping : (mapping entries).Throughout WellKeyed ↔
    Mapping.Distinct entries ∧ ∀ entry ∈ entries, Stands entry := by
  constructor
  · intro h
    exact ⟨h.self.1, fun entry hentry => ⟨h.self.2 entry hentry, h.entry entry hentry⟩⟩
  · rintro ⟨hdistinct, hstands⟩ w (_ | ⟨hentry, hw⟩)
    · exact ⟨hdistinct, fun entry hentry => (hstands entry hentry).key⟩
    · exact (hstands _ hentry).value w hw

theorem wellKeyed_list :
    (list items).Throughout WellKeyed ↔ ∀ v ∈ items, v.Throughout WellKeyed := by
  refine ⟨Throughout.item, ?_⟩
  rintro h w (_ | _ | ⟨hv, hw⟩)
  · trivial
  · exact h _ hv w hw

theorem wellKeyed_null : Value.null.Throughout WellKeyed := by
  rintro _ ⟨⟩
  trivial

theorem wellKeyed_extend (hm : (mapping m).Throughout WellKeyed) (hnew : ∀ entry ∈ new, Stands entry) :
    (mapping (Mapping.extend m new)).Throughout WellKeyed := by
  obtain ⟨hdistinct, hstands⟩ := wellKeyed_mapping.1 hm
  exact wellKeyed_mapping.2 ⟨hdistinct.extend new, Document.forall_mem_extend hstands hnew⟩

theorem wellKeyed_single {entry : String × Value} (h : Stands entry) :
    (Space.single entry).Throughout WellKeyed :=
  wellKeyed_mapping.2 ⟨List.nodup_singleton _, by simpa using h⟩

theorem isKeyed_of_get? (hv : v.Throughout WellKeyed) (h : v.get? key = some w) : IsKeyed (key, w) := by
  cases v with
  | mapping entries => exact ((wellKeyed_mapping.1 hv).2 _ (Mapping.mem_of_get? h)).key
  | _ => cases h

end Value

open Value (WellKeyed Stands)

theorem BodyItem.wellKeyed_fold {items : List BodyItem}
    (h : ∀ item ∈ items, ∀ entry ∈ item.entries, Stands entry) :
    (Value.mapping (fold items)).Throughout WellKeyed := by
  induction items using List.reverseRecOn with
  | nil => exact Value.wellKeyed_mapping.2 ⟨Mapping.distinct_nil, nofun⟩
  | append_singleton items item ih =>
    rw [List.forall_mem_append, List.forall_mem_singleton] at h
    rw [fold_append_one]
    exact Value.wellKeyed_extend (ih h.1) h.2

namespace Insertion

def WellKeyed : Insertion → Prop
  | pair key v => Stands (key, v)
  | merge entries => (Value.mapping entries).Throughout Value.WellKeyed
  | item v => v.Throughout Value.WellKeyed

variable {insertion : Insertion}

theorem WellKeyed.bodyItem (h : insertion.WellKeyed) :
    ∀ entry ∈ insertion.bodyItem.entries, Stands entry := by
  cases insertion with
  | pair key v =>
    rw [Insertion.bodyItem, BodyItem.entries, List.forall_mem_singleton]
    exact h
  | merge entries => exact (Value.wellKeyed_mapping.1 h).2
  | item v =>
    cases v with
    | placeholder p =>
      rw [Insertion.bodyItem, BodyItem.entries, List.forall_mem_singleton]
      refine ⟨?_, Value.throughout_placeholder.2 trivial⟩
      rintro _ ⟨⟩ _
      rfl
    | mapping entries => exact (Value.wellKeyed_mapping.1 h).2
    | _ => exact List.forall_mem_singleton.2 ⟨isKeyed_of_merges rfl, Value.wellKeyed_null⟩

theorem WellKeyed.put {content content' : Space} (h : insertion.WellKeyed)
    (hcontent : content.value.Throughout Value.WellKeyed) (hput : insertion.put content = .ok content') :
    content'.value.Throughout Value.WellKeyed := by
  cases insertion with
  | pair key v =>
    cases content with
    | empty =>
      cases hput
      exact Value.wellKeyed_single h
    | mapping entries =>
      cases hput
      have hnew : ∀ entry ∈ [(key, v)], Stands entry := List.forall_mem_singleton.2 h
      exact Value.wellKeyed_extend hcontent hnew
    | list items => cases hput
  | merge new =>
    cases content with
    | empty =>
      cases hput
      exact h
    | mapping entries =>
      cases hput
      exact Value.wellKeyed_extend hcontent (Value.wellKeyed_mapping.1 h).2
    | list items => cases hput
  | item v =>
    cases hput
    cases content with
    | empty => exact Value.wellKeyed_list.2 (List.forall_mem_singleton.2 h)
    | mapping entries =>
      refine Value.wellKeyed_list.2 ?_
      rw [List.forall_mem_append, List.forall_mem_map, List.forall_mem_singleton]
      exact ⟨fun entry hentry =>
        Value.wellKeyed_single ((Value.wellKeyed_mapping.1 hcontent).2 entry hentry), h⟩
    | list items =>
      refine Value.wellKeyed_list.2 ?_
      rw [List.forall_mem_append, List.forall_mem_singleton]
      exact ⟨hcontent.item, h⟩

end Insertion

theorem OpenSpace.stands {space : OpenSpace} (h : space.content.value.Throughout WellKeyed) :
    Stands (space.name, space.content.value) :=
  ⟨isKeyed_of_merges space.content.merges_value, h⟩

namespace OpenLabel

structure WellKeyed (l : OpenLabel) : Prop where
  name : Name.isValid l.name.toList = true
  items : ∀ item ∈ l.items, ∀ entry ∈ item.entries, Stands entry
  space : ∀ space ∈ l.space, space.content.value.Throughout Value.WellKeyed

variable {l l' : OpenLabel}

theorem wellKeyed_opened {name : String} (h : Name.isValid name.toList = true) (hidden : Bool)
    (openedAt : Place) : WellKeyed ⟨name, hidden, [], none, openedAt⟩ where
  name := h
  items := by simp
  space := by simp

theorem WellKeyed.append (hl : l.WellKeyed) {item : BodyItem}
    (hitem : ∀ entry ∈ item.entries, Stands entry) :
    WellKeyed { l with items := l.items ++ [item], space := none } where
  name := hl.name
  items := by
    rw [List.forall_mem_append, List.forall_mem_singleton]
    exact ⟨hl.items, hitem⟩
  space := nofun

theorem WellKeyed.withSpace {space : OpenSpace} (hl : l.WellKeyed)
    (hspace : space.content.value.Throughout Value.WellKeyed) :
    WellKeyed { l with space := some space } where
  name := hl.name
  items := hl.items
  space := by
    rintro _ ⟨⟩
    exact hspace

theorem WellKeyed.put {here : Place} {insertion : Insertion} (hl : l.WellKeyed)
    (h : insertion.WellKeyed) (hput : l.put here insertion = .ok l') : l'.WellKeyed := by
  rcases put_eq_ok.1 hput with ⟨hnone, rfl⟩ | ⟨space, content, hsome, hcontent, rfl⟩
  · rw [hnone]
    exact hl.append h.bodyItem
  · exact hl.withSpace (h.put (hl.space space hsome) hcontent)

theorem WellKeyed.enclose {labels : Mapping Value} (hl : l.WellKeyed)
    (h : (Value.mapping labels).Throughout Value.WellKeyed) : (l.enclose labels).WellKeyed := by
  rw [OpenLabel.enclose]
  split
  next hnone =>
    rw [hnone]
    refine hl.append ?_
    rw [BodyItem.entries, List.forall_mem_singleton]
    exact ⟨isKeyed_of_merges rfl, h⟩
  next space hsome =>
    have hitem : Insertion.WellKeyed (.item (.mapping labels)) := h
    exact hl.withSpace (hitem.put (hl.space space hsome) rfl)

end OpenLabel

namespace Document

variable {d : Document}

theorem Sound.wellKeyed_labels (h : d.Sound WellKeyed) (hdistinct : d.Distinct) :
    (Value.mapping d.labels).Throughout WellKeyed := by
  refine Value.wellKeyed_mapping.2 ⟨hdistinct.labels, fun entry hentry => ?_⟩
  obtain ⟨_, ⟨body, hbody⟩, hvalue⟩ := h.labels entry hentry
  exact ⟨isKeyed_of_merges (by rw [hbody]; rfl), hvalue⟩

theorem Sound.isKeyed_lookup (h : d.Sound WellKeyed) {a : Address} {v : Value}
    (hlookup : d.lookup a = .ok (some v)) : IsKeyed (a.name, v) := by
  obtain ⟨name, space, field⟩ := a
  rw [Document.lookup] at hlookup
  split at hlookup
  · cases hlookup
  next label hlabel =>
    have hlabel := h.mem_of_find? hlabel
    cases space with
    | none =>
      cases field with
      | none =>
        cases hlookup
        obtain ⟨body, rfl⟩ := hlabel.mapping
        exact isKeyed_of_merges rfl
      | some field => exact Value.isKeyed_of_get? hlabel.value (Except.ok.inj hlookup)
    | some space =>
      dsimp only at hlookup
      split at hlookup
      · cases hlookup
      next scope hscope =>
        cases field with
        | none =>
          cases hlookup
          exact Value.isKeyed_of_get? hlabel.value hscope
        | some field =>
          exact Value.isKeyed_of_get? (hlabel.value.get? hscope) (Except.ok.inj hlookup)

end Document

def Session.Unmerging (s : Session) : Prop := ∀ entry ∈ s.spaces, entry.2.merges = false

namespace Draft

structure WellKeyed (d : Draft) : Prop where
  document : d.document.Sound Value.WellKeyed
  current : ∀ label ∈ d.current, label.WellKeyed

variable {d d' : Draft} {site : Site}

theorem wellKeyed_none {D : Document} (hD : D.Sound Value.WellKeyed) : WellKeyed ⟨D, none⟩ where
  document := hD
  current := by simp

theorem wellKeyed_empty : empty.WellKeyed := wellKeyed_none Document.sound_empty

theorem wellKeyed_some {D : Document} {label : OpenLabel} (hD : D.Sound Value.WellKeyed)
    (hlabel : label.WellKeyed) : WellKeyed ⟨D, some label⟩ where
  document := hD
  current := by
    rintro _ ⟨⟩
    exact hlabel

theorem stands_of_readValue {token key : String} {v : Value} (h : readValue site token = .ok v) :
    Stands (key, v) := by
  refine ⟨isKeyed_of_merges (readValue_eq_ok h).1, ?_⟩
  rintro w hw
  rw [readValue] at h
  rcases Value.leaf_ofToken token with ⟨expr, htoken⟩ | ⟨text, htoken⟩ | ⟨b, htoken⟩ | ⟨x, htoken⟩ <;>
    rw [htoken] at h
  · obtain ⟨_, _, hv⟩ := bind_eq_ok.1 h
    cases hv
    cases hw
    trivial
  all_goals
    cases h
    cases hw
    trivial

theorem WellKeyed.writes {statement : Statement} {insertion : Insertion} (hd : d.WellKeyed)
    (h : d.Writes site statement insertion) : insertion.WellKeyed := by
  cases h with
  | pair _ _ hv => exact stands_of_readValue hv
  | @item _ v hv =>
    have hstands : Stands ("", v) := stands_of_readValue hv
    exact hstands.value
  | value _ hv => exact hd.document.lookup hv
  | copy _ hv =>
    exact Value.wellKeyed_single ⟨hd.document.isKeyed_lookup hv, hd.document.lookup hv⟩

variable {importer : Importer} {source : Source} {s s' : Session}

theorem WellKeyed.step {line : Line} (himporter : ∀ target other s',
      importer target ⟨source, line.span⟩ s = (.ok other, s') →
      other.Sound Value.WellKeyed ∧ other.Distinct ∧ s'.Unmerging)
    (hd : d.WellKeyed) (hs : s.Unmerging) (h : d.step importer source s line = (.ok d', s')) :
    d'.WellKeyed ∧ s'.Unmerging := by
  cases step_eq_ok.1 h with
  | openLabel _ _ hname => exact ⟨wellKeyed_some hd.document (OpenLabel.wellKeyed_opened hname ..), hs⟩
  | openSpace _ hlabel _ hname =>
    exact ⟨wellKeyed_some hd.document ((hd.current _ hlabel).withSpace Value.wellKeyed_null), hs⟩
  | @closeSpace label space _ hlabel hspace =>
    have hlabel := hd.current label hlabel
    refine ⟨wellKeyed_some hd.document (hlabel.append ?_),
      Document.forall_mem_insert hs space.content.merges_value⟩
    rw [BodyItem.entries, List.forall_mem_singleton]
    exact OpenSpace.stands (hlabel.space space hspace)
  | @closeLabel label _ hlabel =>
    have hlabel := hd.current label hlabel
    have hbody := BodyItem.wellKeyed_fold hlabel.items
    exact ⟨wellKeyed_none (hd.document.define hlabel.name hbody label.hidden), hs⟩
  | @imports target other _ _ himport =>
    obtain ⟨hother, hdistinct, hs'⟩ := himporter target other _ himport
    refine ⟨?_, hs'⟩
    rw [takeIn]
    split
    next hnone => exact ⟨hd.document.adopt hother, by simp [hnone]⟩
    next label hlabel =>
      exact wellKeyed_some (hd.document.enclose hother)
        ((hd.current label hlabel).enclose (hother.wellKeyed_labels hdistinct))
  | writes hwrites hput =>
    obtain ⟨label, label', hlabel, hlabel', rfl⟩ := put_eq_ok.1 hput
    exact ⟨wellKeyed_some hd.document ((hd.current label hlabel).put (hd.writes hwrites) hlabel'), hs⟩

end Draft

namespace FileTree

variable {t : FileTree} {chain : List Path} {source : Source} {s s' : Session} {d : Document}

/-- Whatever is read is well keyed, and a space that is registered is no reference. -/
theorem Reads.wellKeyed (h : t.Reads chain source s d s') (hs : s.Unmerging) :
    d.Sound WellKeyed ∧ s'.Unmerging := by
  induction chain using t.chain_induction generalizing source s d s' with
  | h chain ih =>
    have hstep : ∀ line ∈ source.lines, ∀ (d : Draft) (s₁ : Session) (d' : Draft) (s₂ : Session),
        d.WellKeyed ∧ s₁.Unmerging → d.step (t.importer chain) source s₁ line = (.ok d', s₂) →
          d'.WellKeyed ∧ s₂.Unmerging := by
      intro line _ d s₁ d' s₂ hP hstep
      refine hP.1.step (fun target other s₃ himport => ?_) hP.2 hstep
      have hdistinct := t.importer_distinct chain (Prod.ext_iff.1 himport).1
      obtain ⟨l, content, s₄, _, hnew, hread, hreads, rfl⟩ := reads_of_importer himport
      obtain ⟨hother, hs₄⟩ := ih l content hread hnew hreads hP.2
      exact ⟨hother, hdistinct, hs₄⟩
    obtain ⟨hd, hs'⟩ := Draft.run_keeps hstep ⟨Draft.wellKeyed_empty, hs⟩ h
    exact ⟨hd.document, hs'⟩

end FileTree

end Loon
