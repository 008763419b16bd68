import Loon.Document
import Loon.Proofs.Mapping
import Loon.Space

namespace Loon

namespace Value

inductive Inside (v : Value) : Value → Prop
  | here : Inside v v
  | entry {entries entry} : entry ∈ entries → Inside v entry.2 → Inside v (.mapping entries)
  | item {items w} : w ∈ items → Inside v w → Inside v (.list items)

def Throughout (Q : Value → Prop) (v : Value) : Prop := ∀ w, Inside w v → Q w

/-- The property asks nothing of a value that only holds others. -/
structure OfLeaves (Q : Value → Prop) : Prop where
  null : Q .null
  mapping : ∀ entries, Q (.mapping entries)
  list : ∀ items, Q (.list items)

structure OfUnmarked (Q : Value → Prop) : Prop extends OfLeaves Q where
  merging : ∀ p, Q (.placeholder p) → Q (.placeholder { p with merge := true })

variable {Q : Value → Prop}

theorem Throughout.self {v : Value} (h : v.Throughout Q) : Q v := h v .here

theorem throughout_placeholder {p : Placeholder} :
    (Value.placeholder p).Throughout Q ↔ Q (.placeholder p) := by
  refine ⟨Throughout.self, ?_⟩
  rintro h _ ⟨⟩
  exact h

mutual

theorem inside_of_mem_placeholders :
    ∀ {v : Value} {p : Placeholder}, p ∈ v.placeholders → Inside (.placeholder p) v
  | .placeholder q, p, h => by
    rw [placeholders, List.mem_singleton] at h
    rw [h]
    exact .here
  | .mapping entries, p, h =>
    let ⟨_, hentry, hp⟩ := exists_of_mem_placeholdersOfEntries h
    .entry hentry hp
  | .list items, p, h =>
    let ⟨_, hitem, hp⟩ := exists_of_mem_placeholdersOfItems h
    .item hitem hp
  | .string _, _, h | .number _, _, h | .bool _, _, h | .null, _, h => nomatch h

theorem exists_of_mem_placeholdersOfEntries :
    ∀ {entries : List (String × Value)} {p : Placeholder}, p ∈ placeholdersOfEntries entries →
      ∃ entry ∈ entries, Inside (.placeholder p) entry.2
  | (key, v) :: rest, p, h => by
    rcases List.mem_append.1 h with h | h
    · exact ⟨(key, v), List.mem_cons_self .., inside_of_mem_placeholders h⟩
    · obtain ⟨entry, hentry, hp⟩ := exists_of_mem_placeholdersOfEntries h
      exact ⟨entry, List.mem_cons_of_mem _ hentry, hp⟩

theorem exists_of_mem_placeholdersOfItems :
    ∀ {items : List Value} {p : Placeholder}, p ∈ placeholdersOfItems items →
      ∃ v ∈ items, Inside (.placeholder p) v
  | v :: rest, p, h => by
    rcases List.mem_append.1 h with h | h
    · exact ⟨v, List.mem_cons_self .., inside_of_mem_placeholders h⟩
    · obtain ⟨w, hw, hp⟩ := exists_of_mem_placeholdersOfItems h
      exact ⟨w, List.mem_cons_of_mem _ hw, hp⟩

end

theorem mem_placeholdersOfEntries {entries : Mapping Value} {entry : String × Value} {p : Placeholder}
    (hentry : entry ∈ entries) (hp : p ∈ entry.2.placeholders) : p ∈ placeholdersOfEntries entries := by
  induction entries with
  | nil => cases hentry
  | cons first entries ih =>
    rcases List.mem_cons.1 hentry with rfl | hentry
    · exact List.mem_append_left _ hp
    · exact List.mem_append_right _ (ih hentry)

theorem mem_placeholdersOfItems {items : List Value} {v : Value} {p : Placeholder} (hv : v ∈ items)
    (hp : p ∈ v.placeholders) : p ∈ placeholdersOfItems items := by
  induction items with
  | nil => cases hv
  | cons first items ih =>
    rcases List.mem_cons.1 hv with rfl | hv
    · exact List.mem_append_left _ hp
    · exact List.mem_append_right _ (ih hv)

theorem mem_placeholders_iff {v : Value} {p : Placeholder} :
    p ∈ v.placeholders ↔ Inside (.placeholder p) v := by
  refine ⟨inside_of_mem_placeholders, fun h => ?_⟩
  induction h with
  | here => exact List.mem_singleton_self p
  | entry hentry _ ih => exact mem_placeholdersOfEntries hentry ih
  | item hitem _ ih => exact mem_placeholdersOfItems hitem ih

def References (A : Placeholder → Prop) (v : Value) : Prop := ∀ p, v = .placeholder p → A p

variable {A : Placeholder → Prop}

theorem ofLeaves_references : OfLeaves (References A) := ⟨nofun, fun _ => nofun, fun _ => nofun⟩

theorem ofUnmarked_references (h : ∀ p, A p → A { p with merge := true }) : OfUnmarked (References A) where
  toOfLeaves := ofLeaves_references
  merging p hp := by
    rintro _ ⟨⟩
    exact h p (hp p rfl)

theorem throughout_references {v : Value} :
    v.Throughout (References A) ↔ ∀ p ∈ v.placeholders, A p := by
  constructor
  · exact fun h p hp => h _ (inside_of_mem_placeholders hp) p rfl
  · rintro h _ hw p rfl
    exact h p (mem_placeholders_iff.2 hw)

theorem throughout_references_entries {entries : Mapping Value} :
    (∀ entry ∈ entries, entry.2.Throughout (References A)) ↔ ∀ p ∈ placeholdersOfEntries entries, A p := by
  simp only [throughout_references]
  constructor
  · intro h p hp
    obtain ⟨entry, hentry, hinside⟩ := exists_of_mem_placeholdersOfEntries hp
    exact h entry hentry p (mem_placeholders_iff.2 hinside)
  · exact fun h entry hentry p hp => h p (mem_placeholdersOfEntries hentry hp)

theorem Throughout.entry {entries : Mapping Value} (h : (mapping entries).Throughout Q) :
    ∀ entry ∈ entries, entry.2.Throughout Q :=
  fun _ hentry w hw => h w (.entry hentry hw)

theorem Throughout.item {items : List Value} (h : (list items).Throughout Q) :
    ∀ v ∈ items, v.Throughout Q :=
  fun _ hv w hw => h w (.item hv hw)

theorem Throughout.get? {v w : Value} {key : String} (hv : v.Throughout Q) (h : v.get? key = some w) :
    w.Throughout Q := by
  cases v with
  | mapping entries => exact hv.entry _ (Mapping.mem_of_get? h)
  | _ => cases h

namespace OfLeaves

variable (hQ : OfLeaves Q)

include hQ

theorem throughout_null : Value.null.Throughout Q := by
  rintro _ ⟨⟩
  exact hQ.null

theorem throughout_mapping {entries : Mapping Value} :
    (Value.mapping entries).Throughout Q ↔ ∀ entry ∈ entries, entry.2.Throughout Q := by
  refine ⟨Throughout.entry, ?_⟩
  rintro h w (_ | ⟨hentry, hw⟩)
  · exact hQ.mapping entries
  · exact h _ hentry w hw

theorem throughout_list {items : List Value} :
    (Value.list items).Throughout Q ↔ ∀ v ∈ items, v.Throughout Q := by
  refine ⟨Throughout.item, ?_⟩
  rintro h w (_ | _ | ⟨hv, hw⟩)
  · exact hQ.list items
  · exact h _ hv w hw

theorem throughout_insert {m : Mapping Value} {v : Value} (hm : (Value.mapping m).Throughout Q)
    (key : String) (hv : v.Throughout Q) : (Value.mapping (Mapping.insert m key v)).Throughout Q := by
  rw [hQ.throughout_mapping]
  intro entry hentry
  rcases Mapping.mem_insert hentry with hentry | rfl
  · exact hm.entry entry hentry
  · exact hv

theorem throughout_extend {m new : Mapping Value} (hm : (Value.mapping m).Throughout Q)
    (hnew : (Value.mapping new).Throughout Q) : (Value.mapping (Mapping.extend m new)).Throughout Q := by
  rw [hQ.throughout_mapping]
  intro entry hentry
  exact (Mapping.mem_of_mem_extend hentry).elim (hm.entry entry) (hnew.entry entry)

theorem throughout_single {v : Value} (key : String) (hv : v.Throughout Q) :
    (Value.mapping [(key, v)]).Throughout Q :=
  hQ.throughout_mapping.2 (by simpa using hv)

end OfLeaves

end Value

namespace Space

open Value (OfLeaves)

variable {Q : Value → Prop} {content content' : Space} {v : Value} (hQ : OfLeaves Q)

include hQ

theorem throughout_insert {key : String} (hcontent : content.value.Throughout Q)
    (hv : v.Throughout Q) (h : content.insert key v = some content') :
    content'.value.Throughout Q := by
  cases content with
  | empty =>
    cases h
    exact hQ.throughout_single key hv
  | mapping entries =>
    cases h
    exact hQ.throughout_insert hcontent key hv
  | list items => cases h

theorem throughout_merge {new : Mapping Value} (hcontent : content.value.Throughout Q)
    (hnew : (Value.mapping new).Throughout Q) (h : content.merge new = some content') :
    content'.value.Throughout Q := by
  cases content with
  | empty =>
    cases h
    exact hnew
  | mapping entries =>
    cases h
    exact hQ.throughout_extend hcontent hnew
  | list items => cases h

theorem throughout_push (hcontent : content.value.Throughout Q) (hv : v.Throughout Q) :
    (content.push v).value.Throughout Q := by
  cases content with
  | empty => exact hQ.throughout_list.2 (by simpa using hv)
  | mapping entries =>
    refine hQ.throughout_list.2 ?_
    rw [List.forall_mem_append, List.forall_mem_map, List.forall_mem_singleton]
    exact ⟨fun entry hentry => hQ.throughout_single entry.1 (hcontent.entry entry hentry), hv⟩
  | list items =>
    refine hQ.throughout_list.2 ?_
    rw [List.forall_mem_append, List.forall_mem_singleton]
    exact ⟨hcontent.item, hv⟩

end Space

namespace Document

variable {Q : Value → Prop} {d : Document} {v : Value}

theorem mem_of_find? {name : String} (h : d.find? name = some v) :
    (name, v) ∈ d.labels ∨ (name, v) ∈ d.hidden := by
  rw [find?, Option.orElse_eq_orElse, Option.orElse_eq_or, Option.or_eq_some_iff] at h
  rcases h with hhidden | ⟨_, hlabels⟩
  · exact .inr (Mapping.mem_of_get? hhidden)
  · exact .inl (Mapping.mem_of_get? hlabels)

theorem throughout_of_fieldOf {scope : Value} {field : Option String} (h : scope.Throughout Q)
    (hfield : fieldOf scope field = some v) : v.Throughout Q := by
  cases field with
  | none =>
    cases hfield
    exact h
  | some field => exact h.get? hfield

theorem throughout_lookup {a : Address} (h : ∀ name v, d.find? name = some v → v.Throughout Q)
    (hlookup : d.lookup a = .ok (some v)) : v.Throughout Q := by
  rw [lookup] at hlookup
  split at hlookup
  · cases hlookup
  next label hlabel =>
    have hlabel := h _ label hlabel
    split at hlookup
    · exact throughout_of_fieldOf hlabel (Except.ok.inj hlookup)
    · split at hlookup
      · cases hlookup
      next scope hscope => exact throughout_of_fieldOf (hlabel.get? hscope) (Except.ok.inj hlookup)

end Document

end Loon
