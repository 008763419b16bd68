import Loon.Proofs.Reading.Steps
import Loon.Proofs.Resolution.CycleGuard
import Loon.Proofs.Resolution.Settled
import Loon.Proofs.Throughout

namespace Loon

def Ends {α : Type} (E : Error → Prop) (R : α → Prop) : Except Error α → Prop
  | .ok a => R a
  | .error e => E e

namespace Ends

variable {α β : Type} {E : Error → Prop} {R : α → Prop} {S : β → Prop} {x : Except Error α}

theorem bind {f : α → Except Error β} (h : Ends E R x)
    (hf : ∀ a, x = .ok a → R a → Ends E S (f a)) : Ends E S (x >>= f) := by
  cases x with
  | ok a => exact hf a rfl h
  | error e => exact h

theorem of_eq_ok {a : α} (h : Ends E R x) (hx : x = .ok a) : R a := by
  subst hx
  exact h

theorem of_eq_error {e : Error} (h : Ends E R x) (hx : x = .error e) : E e := by
  subst hx
  exact h

end Ends

namespace Value

theorem Settled.inside {v w : Value} (hv : v.Settled) (h : Inside w v) : w.Settled := by
  induction h with
  | here => exact hv
  | entry hentry _ ih =>
    cases hv with
    | mapping _ hentries => exact ih (hentries _ hentry)
  | item hitem _ ih =>
    cases hv with
    | list hitems => exact ih (hitems _ hitem)

theorem Settled.references {v : Value} (hv : v.Settled) (A : Placeholder → Prop) :
    v.Throughout (References A) := by
  rintro w hw p rfl
  cases hv.inside hw

end Value

open Value (OfLeaves)

variable {Q : Value → Prop} {E : Error → Prop}

namespace Write

theorem supply?_self (key : String) (w : Value) : supply? ⟨key, false, w⟩ key = some w := by
  cases w <;> exact if_pos rfl

variable (hQ : OfLeaves Q)

include hQ

theorem throughout_apply {m : Mapping Value} {w : Write} (hm : (Value.mapping m).Throughout Q)
    (hw : w.value.Throughout Q) : (Value.mapping (apply m w)).Throughout Q := by
  rw [apply]
  split
  next hvalue =>
    rw [hvalue] at hw
    exact hQ.throughout_extend hm hw
  · exact hQ.throughout_insert hm w.key hw

theorem throughout_applyAll {ws : List Write} (h : ∀ w ∈ ws, w.value.Throughout Q) :
    (Value.mapping (applyAll ws)).Throughout Q := by
  suffices ∀ m : Mapping Value, (Value.mapping m).Throughout Q →
      (Value.mapping (ws.foldl apply m)).Throughout Q from
    this [] (hQ.throughout_mapping.2 nofun)
  induction ws with
  | nil => exact fun _ hm => hm
  | cons w ws ih =>
    rw [List.forall_mem_cons] at h
    exact fun m hm => ih h.2 _ (throughout_apply hQ hm h.1)

omit hQ in
theorem throughout_of_supply? {w : Write} {key : String} {v : Value} (hw : w.value.Throughout Q)
    (h : w.supply? key = some v) : v.Throughout Q := by
  rw [supply?] at h
  split at h
  next hvalue =>
    rw [hvalue] at hw
    exact hw.entry _ (Mapping.mem_of_get? h)
  · obtain ⟨_, ⟨⟩⟩ := Option.ite_none_right_eq_some.1 h
    exact hw

end Write

def Dereference.Ends (E : Error → Prop) (Q : Value → Prop) (deref : Dereference (Except Error)) : Prop :=
  ∀ p, Q (.placeholder p) → Loon.Ends E (Value.Throughout Q) (deref p)

section Walk

variable {deref : Dereference (Except Error)} (h : deref.Ends E Q) (hQ : OfLeaves Q)

namespace Value

mutual

theorem ends_resolve (h : deref.Ends E Q) (hQ : OfLeaves Q) :
    ∀ {v : Value}, v.Throughout Q → Ends E (Throughout Q) (v.resolve deref)
  | .placeholder p, hv => h p hv.self
  | .mapping _, hv =>
    (ends_resolveEntries h hQ hv.entry).bind fun _ _ hws => Write.throughout_applyAll hQ hws
  | .list _, hv => (ends_resolveItems h hQ hv.item).bind fun _ _ hws => hQ.throughout_list.2 hws
  | .string _, hv => hv
  | .number _, hv => hv
  | .bool _, hv => hv
  | .null, hv => hv

theorem ends_resolveEntries (h : deref.Ends E Q) (hQ : OfLeaves Q) :
    ∀ {entries : List (String × Value)}, (∀ entry ∈ entries, entry.2.Throughout Q) →
      Ends E (fun ws => ∀ w ∈ ws, w.value.Throughout Q) (resolveEntries deref entries)
  | [], _ => nofun
  | (_, _) :: _, hentries => by
    rw [List.forall_mem_cons] at hentries
    exact (ends_resolve h hQ hentries.1).bind fun _ _ hw =>
      (ends_resolveEntries h hQ hentries.2).bind fun _ _ hws => List.forall_mem_cons.2 ⟨hw, hws⟩

theorem ends_resolveItems (h : deref.Ends E Q) (hQ : OfLeaves Q) :
    ∀ {items : List Value}, (∀ v ∈ items, v.Throughout Q) →
      Ends E (fun ws => ∀ w ∈ ws, w.Throughout Q) (resolveItems deref items)
  | [], _ => nofun
  | _ :: _, hitems => by
    rw [List.forall_mem_cons] at hitems
    exact (ends_resolve h hQ hitems.1).bind fun _ _ hw =>
      (ends_resolveItems h hQ hitems.2).bind fun _ _ hws => List.forall_mem_cons.2 ⟨hw, hws⟩

end

include h hQ

theorem ends_resolveMerge {v : Value} (hv : v.Throughout Q) :
    Ends E (Throughout Q) (v.resolveMerge deref) := by
  rw [resolveMerge]
  split
  · exact ends_resolve h hQ hv
  · exact hv

omit hQ in
theorem ends_resolveAlone {v : Value} (hv : v.Throughout Q) :
    Ends E (Throughout Q) (v.resolveAlone deref) := by
  cases v with
  | placeholder p => exact h p hv.self
  | _ => exact hv

end Value

include h hQ

theorem ends_firstSupply (key : String) {entries : Mapping Value}
    (hentries : ∀ entry ∈ entries, entry.2.Throughout Q) :
    Ends E (fun found => ∀ v ∈ found, v.Throughout Q) (firstSupply deref key entries) := by
  induction entries with
  | nil => exact nofun
  | cons entry entries ih =>
    rw [List.forall_mem_cons] at hentries
    refine (Value.ends_resolveMerge h hQ hentries.1).bind fun w _ hw => ?_
    split
    next hsupply =>
      rintro _ ⟨⟩
      exact Write.throughout_of_supply? hw hsupply
    · exact ih hentries.2

theorem ends_search (key : String) {v : Value} (hv : v.Throughout Q) :
    Ends E (fun found => ∀ w ∈ found, w.Throughout Q) (v.search deref key) := by
  cases v with
  | mapping entries =>
    exact ends_firstSupply h hQ key fun entry hentry => hv.entry entry (List.mem_reverse.1 hentry)
  | _ => exact nofun

end Walk

theorem merges_of_firstSupply {deref : Dereference (Except Error)} {key : String}
    {entries : Mapping Value} (h : firstSupply deref key entries = .ok none) :
    ∀ entry ∈ entries, entry.1 = key → entry.2.merges = true := by
  induction entries with
  | nil => exact nofun
  | cons entry entries ih =>
    obtain ⟨name, v⟩ := entry
    obtain ⟨w, _, h⟩ := bind_eq_ok.1 h
    split at h
    · cases h
    next hnone =>
      rw [List.forall_mem_cons]
      refine ⟨?_, ih h⟩
      rintro rfl
      rw [← Bool.not_eq_false]
      intro hmerges
      rw [hmerges, Write.supply?_self] at hnone
      cases hnone

theorem Value.merges_of_search {deref : Dereference (Except Error)} {v : Value} {key : String}
    (h : v.search deref key = .ok none) : ∀ w, v.get? key = some w → w.merges = true := by
  cases v with
  | mapping entries =>
    intro w hw
    exact merges_of_firstSupply h (key, w) (List.mem_reverse.2 (Mapping.mem_of_get? hw)) rfl
  | _ => exact nofun

namespace Document

/-- What a reference asks for and the document has not: it is no address, or there is no such label, or
the label has nothing under the name of the space, but for a reference that merges there. -/
inductive Lacks (d : Document) (expr : String) : String → Prop
  | address : Address.parse expr = none → Lacks d expr expr
  | label {a} : Address.parse expr = some a → d.find? a.label = none → Lacks d expr a.label
  | space {a label space} : Address.parse expr = some a → d.find? a.label = some label →
      a.space = some space → (∀ w, label.get? space = some w → w.merges = true) → Lacks d expr space

inductive Blames (d : Document) (Q : Value → Prop) : Error → Prop
  | dangling {p name} : Q (.placeholder p) → d.Lacks p.expr name → Blames d Q (danglingError p name)
  | cycle {p stack} : Q (.placeholder p) → Blames d Q (cycleError stack p)

variable {d : Document} {deref : Dereference (Except Error)} {v : Value}

theorem ends_scope (h : deref.Ends E Q) (hQ : OfLeaves Q) {p : Placeholder} {space : Option String}
    (hv : v.Throughout Q) (hmissing : ∀ name, space = some name →
      (∀ w, v.get? name = some w → w.merges = true) → E (danglingError p name)) :
    Ends E (Value.Throughout Q) (scope deref p v space) := by
  cases space with
  | none => exact hv
  | some space =>
    refine (ends_search h hQ space hv).bind fun found hfound hvalue => ?_
    cases found with
    | none => exact hmissing space rfl (Value.merges_of_search hfound)
    | some entry => exact Value.ends_resolveAlone h (hvalue entry rfl)

theorem ends_target (h : deref.Ends E Q) (hQ : OfLeaves Q) {field : Option String}
    (hv : v.Throughout Q) : Ends E (Value.Throughout Q) (target deref v field) := by
  cases field with
  | none => exact Value.ends_resolve h hQ hv
  | some field =>
    refine (ends_search h hQ field hv).bind fun found _ hvalue => ?_
    cases found with
    | none => exact hQ.throughout_null
    | some entry => exact Value.ends_resolve h hQ (hvalue entry rfl)

theorem ends_dereferenceOnce (hQ : OfLeaves Q)
    (hd : ∀ name v, d.find? name = some v → v.Throughout Q) (h : deref.Ends (d.Blames Q) Q)
    {p : Placeholder} (hp : Q (.placeholder p)) :
    Ends (d.Blames Q) (Value.Throughout Q) (d.dereferenceOnce deref p) := by
  rw [dereferenceOnce]
  split
  next hparse => exact Blames.dangling hp (.address hparse)
  next a hparse =>
    split
    next hnone => exact Blames.dangling hp (.label hparse hnone)
    next label hlabel =>
      refine (ends_scope h hQ (hd _ label hlabel) fun space hspace hmerges => ?_).bind
        fun s _ hs => ends_target h hQ hs
      exact .dangling hp (.space hparse hlabel hspace hmerges)

theorem ends_dereferenceWithin (hQ : OfLeaves Q)
    (hd : ∀ name v, d.find? name = some v → v.Throughout Q) (rounds : Nat) (stack : List String) :
    (d.dereferenceWithin rounds stack).Ends (d.Blames Q) Q := by
  induction rounds generalizing stack with
  | zero => exact fun p hp => Blames.cycle hp
  | succ rounds ih =>
    intro p hp
    rw [dereferenceWithin]
    split
    · exact Blames.cycle hp
    · exact ends_dereferenceOnce hQ hd (ih _) hp

theorem ends_resolve (hQ : OfLeaves Q) (hd : ∀ name v, d.find? name = some v → v.Throughout Q)
    (hv : v.Throughout Q) : Ends (d.Blames Q) (Value.Throughout Q) (d.resolve v) :=
  Value.ends_resolve (ends_dereferenceWithin hQ hd _ _) hQ hv

theorem mem_placeholders_of_find? {name : String} {p : Placeholder} (h : d.find? name = some v)
    (hp : p ∈ v.placeholders) : p ∈ d.placeholders := by
  rcases mem_of_find? h with hlabels | hhidden
  · exact List.mem_append_left _ (Value.mem_placeholdersOfEntries hlabels hp)
  · exact List.mem_append_right _ (Value.mem_placeholdersOfEntries hhidden hp)

theorem ends_resolve_references {A : Placeholder → Prop} (hd : ∀ p ∈ d.placeholders, A p)
    (hv : ∀ p ∈ v.placeholders, A p) :
    Ends (d.Blames (Value.References A)) (Value.Throughout (Value.References A)) (d.resolve v) :=
  ends_resolve Value.ofLeaves_references
    (fun _ _ hfind => Value.throughout_references.2 fun p hp => hd p (mem_placeholders_of_find? hfind hp))
    (Value.throughout_references.2 hv)

end Document

end Loon
