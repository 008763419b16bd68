import Loon.Proofs.Reading.Imports
import Loon.Proofs.Resolution.CycleGuard
import Loon.Proofs.Throughout
import Loon.Proofs.Tokens

/-!
What reading keeps. Labels and spaces stand under valid names, and what they hold is put together from
the tokens of the sources that are read. So a property of leaves that all these tokens have holds
throughout the document and throughout the registry of spaces.
-/

namespace Loon

open Value (OfLeaves OfUnmarked)

variable {Q : Value → Prop}

namespace BodyItem

def Throughout (Q : Value → Prop) : BodyItem → Prop
  | entry _ v => v.Throughout Q
  | merge entries => (Value.mapping entries).Throughout Q
  | bare _ => True

theorem Throughout.apply (hQ : OfLeaves Q) {m : Mapping Value} {item : BodyItem}
    (hm : (Value.mapping m).Throughout Q) (h : item.Throughout Q) :
    (Value.mapping (item.apply m)).Throughout Q := by
  cases item with
  | entry key v => exact hQ.throughout_insert hm key h
  | merge entries => exact hQ.throughout_extend hm h
  | bare v => exact hQ.throughout_insert hm v.text hQ.throughout_null

theorem throughout_fold (hQ : OfLeaves Q) {items : List BodyItem}
    (h : ∀ item ∈ items, item.Throughout Q) : (Value.mapping (fold items)).Throughout Q := by
  suffices ∀ m : Mapping Value, (Value.mapping m).Throughout Q →
      (Value.mapping (items.foldl BodyItem.apply m)).Throughout Q from
    this [] (hQ.throughout_mapping.2 nofun)
  induction items with
  | nil => exact fun _ hm => hm
  | cons item items ih =>
    rw [List.forall_mem_cons] at h
    exact fun m hm => ih h.2 _ (h.1.apply hQ hm)

end BodyItem

namespace Insertion

def Throughout (Q : Value → Prop) : Insertion → Prop
  | pair _ v => v.Throughout Q
  | item v => v.Throughout Q
  | merge entries => (Value.mapping entries).Throughout Q

variable {insertion : Insertion}

theorem Throughout.bodyItem (hQ : OfUnmarked Q) (h : insertion.Throughout Q) : insertion.bodyItem.Throughout Q := by
  cases insertion with
  | pair key v => exact h
  | merge entries => exact h
  | item v =>
    cases v with
    | placeholder p => exact Value.throughout_placeholder.2 (hQ.merging p h.self)
    | mapping entries => exact h
    | _ => trivial

theorem Throughout.put (hQ : OfLeaves Q) {content content' : Space} (h : insertion.Throughout Q)
    (hcontent : content.value.Throughout Q) (hput : insertion.put content = .ok content') :
    content'.value.Throughout Q := by
  cases insertion with
  | pair key v =>
    rw [Insertion.put] at hput
    split at hput
    next hinsert =>
      cases hput
      exact Space.throughout_insert hQ hcontent h hinsert
    · cases hput
  | item v =>
    cases hput
    exact Space.throughout_push hQ hcontent h
  | merge entries =>
    rw [Insertion.put] at hput
    split at hput
    next hmerge =>
      cases hput
      exact Space.throughout_merge hQ hcontent h hmerge
    · cases hput

end Insertion

structure OpenSpace.Sound (Q : Value → Prop) (space : OpenSpace) : Prop where
  name : Name.isValid space.name.toList = true
  content : space.content.value.Throughout Q

namespace OpenLabel

structure Sound (Q : Value → Prop) (l : OpenLabel) : Prop where
  name : Name.isValid l.name.toList = true
  items : ∀ item ∈ l.items, item.Throughout Q
  space : ∀ space ∈ l.space, space.Sound Q

variable {l l' : OpenLabel}

theorem Sound.append (hl : l.Sound Q) (item : BodyItem) (hitem : item.Throughout Q) :
    Sound Q { l with items := l.items ++ [item], space := none } where
  name := hl.name
  items := by
    rw [List.forall_mem_append, List.forall_mem_singleton]
    exact ⟨hl.items, hitem⟩
  space := nofun

theorem Sound.withSpace {space : OpenSpace} (hl : l.Sound Q) (hspace : space.Sound Q) :
    Sound Q { l with space := some space } where
  name := hl.name
  items := hl.items
  space := by
    rintro _ ⟨⟩
    exact hspace

theorem Sound.put (hQ : OfUnmarked Q) {here : Place} {insertion : Insertion} (hl : l.Sound Q)
    (h : insertion.Throughout Q) (hput : l.put here insertion = .ok l') : l'.Sound Q := by
  rcases put_eq_ok.1 hput with ⟨hnone, rfl⟩ | ⟨space, content, hsome, hcontent, rfl⟩
  · rw [hnone]
    exact hl.append _ (h.bodyItem hQ)
  · have hspace := hl.space space hsome
    exact hl.withSpace ⟨hspace.name, h.put hQ.toOfLeaves hspace.content hcontent⟩

theorem Sound.enclose (hQ : OfLeaves Q) {labels : Mapping Value} (hl : l.Sound Q)
    (h : (Value.mapping labels).Throughout Q) : (l.enclose labels).Sound Q := by
  rw [OpenLabel.enclose]
  split
  next hnone =>
    rw [hnone]
    exact hl.append (.entry l.name (.mapping labels)) h
  next space hsome =>
    have hspace := hl.space space hsome
    exact hl.withSpace ⟨hspace.name, Space.throughout_push hQ hspace.content h⟩

end OpenLabel

namespace Document

structure IsLabel (Q : Value → Prop) (entry : String × Value) : Prop where
  name : Name.isValid entry.1.toList = true
  mapping : ∃ body, entry.2 = .mapping body
  value : entry.2.Throughout Q

structure Sound (Q : Value → Prop) (d : Document) : Prop where
  labels : ∀ entry ∈ d.labels, IsLabel Q entry
  hidden : ∀ entry ∈ d.hidden, IsLabel Q entry

theorem sound_empty : empty.Sound Q := ⟨nofun, nofun⟩

variable {d other : Document} {v : Value}

theorem Sound.mem_of_find? {name : String} (h : d.Sound Q) (hfind : d.find? name = some v) :
    IsLabel Q (name, v) :=
  (Document.mem_of_find? hfind).elim (h.labels _) (h.hidden _)

theorem Sound.references {A : Placeholder → Prop} (h : d.Sound (Value.References A)) :
    ∀ p ∈ d.placeholders, A p := by
  intro p hp
  rcases List.mem_append.1 hp with hp | hp
  · exact Value.throughout_references_entries.1 (fun entry hentry => (h.labels entry hentry).value) p hp
  · exact Value.throughout_references_entries.1 (fun entry hentry => (h.hidden entry hentry).value) p hp

theorem Sound.lookup {a : Address} (h : d.Sound Q) (hlookup : d.lookup a = .ok (some v)) :
    v.Throughout Q :=
  throughout_lookup (fun _ _ hfind => (h.mem_of_find? hfind).value) hlookup

theorem forall_mem_insert {E : String × Value → Prop} {m : Mapping Value} {key : String} {w : Value}
    (hm : ∀ entry ∈ m, E entry) (hw : E (key, w)) : ∀ entry ∈ Mapping.insert m key w, E entry := by
  intro entry hentry
  rcases Mapping.mem_insert hentry with hentry | rfl
  · exact hm entry hentry
  · exact hw

theorem forall_mem_extend {E : String × Value → Prop} {m new : Mapping Value}
    (hm : ∀ entry ∈ m, E entry) (hnew : ∀ entry ∈ new, E entry) :
    ∀ entry ∈ Mapping.extend m new, E entry :=
  fun entry hentry => (Mapping.mem_of_mem_extend hentry).elim (hm entry) (hnew entry)

theorem forall_mem_erase {E : String × Value → Prop} {m : Mapping Value} (hm : ∀ entry ∈ m, E entry)
    (key : String) : ∀ entry ∈ Mapping.erase m key, E entry :=
  fun entry hentry => hm entry (List.mem_filter.1 hentry).1

theorem Sound.define {name : String} {body : Mapping Value} (h : d.Sound Q)
    (hname : Name.isValid name.toList = true) (hbody : (Value.mapping body).Throughout Q)
    (hidden : Bool) : (d.define name hidden body).Sound Q := by
  have hlabel : IsLabel Q (name, .mapping body) := ⟨hname, ⟨body, rfl⟩, hbody⟩
  cases hidden with
  | false => exact ⟨forall_mem_insert h.labels hlabel, forall_mem_erase h.hidden name⟩
  | true => exact ⟨forall_mem_erase h.labels name, forall_mem_insert h.hidden hlabel⟩

theorem Sound.adoptLabel {entry : String × Value} (h : d.Sound Q) (hentry : IsLabel Q entry) :
    (d.adoptLabel entry.1 entry.2).Sound Q := by
  refine ⟨forall_mem_insert h.labels hentry, ?_⟩
  rw [Document.adoptLabel]
  split
  · exact h.hidden
  · exact forall_mem_erase h.hidden entry.1

theorem Sound.adoptLabels {labels : Mapping Value} (h : d.Sound Q)
    (hlabels : ∀ entry ∈ labels, IsLabel Q entry) :
    (labels.foldl (fun d entry => d.adoptLabel entry.1 entry.2) d).Sound Q := by
  induction labels generalizing d with
  | nil => exact h
  | cons entry labels ih =>
    rw [List.forall_mem_cons] at hlabels
    exact ih (h.adoptLabel hlabels.1) hlabels.2

theorem Sound.adopt (h : d.Sound Q) (hother : other.Sound Q) : (d.adopt other).Sound Q := by
  have := h.adoptLabels hother.labels
  exact ⟨this.labels, forall_mem_extend this.hidden hother.hidden⟩

theorem Sound.enclose (h : d.Sound Q) (hother : other.Sound Q) : (d.enclose other).Sound Q :=
  ⟨h.labels, forall_mem_extend (forall_mem_extend h.hidden hother.labels) hother.hidden⟩

end Document

namespace Session

structure IsSpace (Q : Value → Prop) (entry : String × Value) : Prop where
  name : Name.isValid entry.1.toList = true
  value : entry.2.Throughout Q

def Since (Q : Value → Prop) (s s' : Session) : Prop :=
  ∀ entry ∈ s'.spaces, entry ∈ s.spaces ∨ IsSpace Q entry

variable {s s' s'' : Session}

theorem since_refl (s : Session) : s.Since Q s := fun _ => .inl

theorem Since.trans (h : s.Since Q s') (h' : s'.Since Q s'') : s.Since Q s'' :=
  fun entry hentry => (h' entry hentry).elim (h entry) .inr

theorem Since.spaceClosed {name : String} {v : Value} (h : s.Since Q s') (hspace : IsSpace Q (name, v)) :
    s.Since Q (s'.spaceClosed name v) := Document.forall_mem_insert h (.inr hspace)

end Session

theorem Value.leaf_ofToken (token : String) :
    (∃ expr, ofToken token = .placeholder { expr }) ∨ (∃ text, ofToken token = .string text) ∨
      (∃ b, ofToken token = .bool b) ∨ ∃ x, ofToken token = .number x := by
  have hreads := Token.reads_ofToken token
  generalize ofToken token = v at hreads ⊢
  cases hreads with
  | reference => exact .inl ⟨_, rfl⟩
  | quotation | text => exact .inr (.inl ⟨_, rfl⟩)
  | truth => exact .inr (.inr (.inl ⟨_, rfl⟩))
  | number => exact .inr (.inr (.inr ⟨_, rfl⟩))

theorem Draft.of_readValue {site : Site} {token : String} {v : Value} {p : Placeholder}
    (h : readValue site token = .ok v) (hp : Value.Inside (.placeholder p) v) :
    Value.ofToken token = .placeholder { expr := p.expr } ∧ (Address.parse p.expr).isSome ∧
      p.origin = some site.place := by
  rw [readValue] at h
  rcases Value.leaf_ofToken token with ⟨expr, htoken⟩ | ⟨text, htoken⟩ | ⟨b, htoken⟩ | ⟨x, htoken⟩ <;>
    rw [htoken] at h
  · obtain ⟨a, ha, hv⟩ := bind_eq_ok.1 h
    cases hv
    cases hp
    exact ⟨htoken, by rw [requireAddress_eq_ok.1 ha]; rfl, rfl⟩
  · cases h
    cases hp
  · cases h
    cases hp
  · cases h
    cases hp

def Source.Tokens (Q : Value → Prop) (source : Source) : Prop :=
  ∀ line ∈ source.lines, ∀ token v, line.statement.token? = some token →
    Draft.readValue ⟨⟨source, line.span⟩, line.text⟩ token = .ok v → v.Throughout Q

theorem Source.tokens_references {A : Placeholder → Prop} {source : Source}
    (h : ∀ line ∈ source.lines, ∀ token p, line.statement.token? = some token →
      Value.ofToken token = .placeholder { expr := p.expr } → (Address.parse p.expr).isSome →
      p.origin = some ⟨source, line.span⟩ → A p) : source.Tokens (Value.References A) := by
  rintro line hline token v htoken hv w hw p rfl
  obtain ⟨hexpr, haddress, horigin⟩ := Draft.of_readValue hv hw
  exact h line hline token p htoken hexpr haddress horigin

namespace Draft

structure Sound (Q : Value → Prop) (d : Draft) : Prop where
  document : d.document.Sound Q
  current : ∀ label ∈ d.current, label.Sound Q

theorem sound_empty : empty.Sound Q := ⟨Document.sound_empty, nofun⟩

variable {d d' : Draft} {site : Site}

theorem sound_some {D : Document} {label : OpenLabel} (hD : D.Sound Q) (hlabel : label.Sound Q) :
    Sound Q ⟨D, some label⟩ where
  document := hD
  current := by
    rintro _ ⟨⟩
    exact hlabel

theorem Sound.takeIn (hQ : OfLeaves Q) {other : Document} (hd : d.Sound Q) (hother : other.Sound Q)
    (target : String) : (d.takeIn target other).1.Sound Q := by
  rw [Draft.takeIn]
  split
  next hnone => exact ⟨hd.document.adopt hother, by simp [hnone]⟩
  next label hlabel =>
    have hlabels := hQ.throughout_mapping.2 fun entry hentry => (hother.labels entry hentry).value
    exact sound_some (hd.document.enclose hother) ((hd.current label hlabel).enclose hQ hlabels)

theorem Sound.writes (hQ : OfLeaves Q) {statement : Statement} {insertion : Insertion} (hd : d.Sound Q)
    (htokens : ∀ token v, statement.token? = some token → readValue site token = .ok v →
      v.Throughout Q)
    (h : d.Writes site statement insertion) : insertion.Throughout Q := by
  cases h with
  | pair _ _ hv => exact htokens _ _ rfl hv
  | item hv => exact htokens _ _ rfl hv
  | value _ hv => exact hd.document.lookup hv
  | copy _ hv => exact hQ.throughout_single _ (hd.document.lookup hv)

variable {importer : Importer} {source : Source} {s₀ s s' : Session}

theorem Sound.step (hQ : OfUnmarked Q) {line : Line} (htokens : source.Tokens Q)
    (hmem : line ∈ source.lines) (himporter : ∀ target other s',
      line.statement = .importFile target →
      importer target ⟨source, line.span⟩ s = (.ok other, s') → other.Sound Q ∧ s.Since Q s')
    (hd : d.Sound Q) (hs : s₀.Since Q s) (h : d.step importer source s line = (.ok d', s')) :
    d'.Sound Q ∧ s₀.Since Q s' := by
  cases step_eq_ok.1 h with
  | openLabel _ _ hname => exact ⟨sound_some hd.document ⟨hname, nofun, nofun⟩, hs⟩
  | openSpace _ hlabel _ hname =>
    refine ⟨sound_some hd.document ((hd.current _ hlabel).withSpace ⟨hname, ?_⟩), hs⟩
    exact hQ.throughout_null
  | @closeSpace label space _ hlabel hspace =>
    have hlabel := hd.current label hlabel
    have hspace := hlabel.space space hspace
    exact ⟨sound_some hd.document (hlabel.append (.entry space.name _) hspace.content),
      hs.spaceClosed ⟨hspace.name, hspace.content⟩⟩
  | @closeLabel label _ hlabel =>
    have hlabel := hd.current label hlabel
    have hbody := BodyItem.throughout_fold hQ.toOfLeaves hlabel.items
    exact ⟨⟨hd.document.define hlabel.name hbody label.hidden, nofun⟩, hs⟩
  | imports hstatement himport =>
    obtain ⟨hother, hs'⟩ := himporter _ _ _ hstatement himport
    exact ⟨hd.takeIn hQ.toOfLeaves hother _, hs.trans hs'⟩
  | writes hwrites hput =>
    obtain ⟨label, label', hlabel, hlabel', rfl⟩ := put_eq_ok.1 hput
    have hinsertion := hd.writes hQ.toOfLeaves (htokens line hmem) hwrites
    exact ⟨sound_some hd.document ((hd.current label hlabel).put hQ hinsertion hlabel'), hs⟩

end Draft

namespace FileTree

variable {t : FileTree} {chain : List Path} {source : Source} {s s' : Session} {d : Document}

/-- A source that is read leaves labels and spaces under valid names, throughout which there is nothing
but what the tokens of this source and of those it imports stand for. -/
theorem Reads.sound (hQ : OfUnmarked Q) (h : t.Reads chain source s d s')
    (htokens : ∀ source', t.Includes source source' → source'.Tokens Q) :
    d.Sound Q ∧ s.Since Q s' := by
  induction chain using t.chain_induction generalizing source s d s' with
  | h chain ih =>
    have hstep : ∀ line ∈ source.lines, ∀ (d : Draft) (s₁ : Session) (d' : Draft) (s₂ : Session),
        d.Sound Q ∧ s.Since Q s₁ →
          d.step (t.importer chain) source s₁ line = (.ok d', s₂) → d'.Sound Q ∧ s.Since Q s₂ := by
      intro line hmem d s₁ d' s₂ hP hstep
      refine hP.1.step hQ (htokens source .self) hmem (fun target other s₃ hline himport => ?_) hP.2 hstep
      obtain ⟨l, content, s₄, hfind, hnew, hread, hreads, rfl⟩ := reads_of_importer himport
      have hnested := ih l content hread hnew hreads
        fun source' h => htokens source' (.imported hmem hline hfind hread h)
      exact hnested
    obtain ⟨hd, hs⟩ := Draft.run_keeps hstep ⟨Draft.sound_empty, s.since_refl⟩ h
    exact ⟨hd.document, hs⟩

end FileTree

end Loon
