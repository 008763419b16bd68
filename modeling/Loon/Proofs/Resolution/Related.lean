import Loon.Resolution
import Mathlib.Data.List.Forall2
import Mathlib.Data.Option.Basic

namespace Loon

namespace Mapping

variable {α β : Type} {R : α → β → Prop} {m new : Mapping α} {m' new' : Mapping β}

inductive Related (R : α → β → Prop) : Mapping α → Mapping β → Prop
  | nil : Related R [] []
  | cons (key : String) {v w m m'} : R v w → Related R m m' →
      Related R ((key, v) :: m) ((key, w) :: m')

theorem Related.keys (h : Related R m m') : keys m = keys m' := by
  induction h with
  | nil => rfl
  | cons key _ _ ih => exact congrArg (key :: ·) ih

theorem Related.get? (h : Related R m m') (key : String) :
    Option.Rel R (get? m key) (get? m' key) := by
  induction h with
  | nil => exact .none
  | cons k hvw _ ih =>
    rcases eq_or_ne k key with rfl | hne
    · simpa [Mapping.get?] using hvw
    · simpa [Mapping.get?, hne] using ih

theorem Related.insert (h : Related R m m') (key : String) {v : α} {w : β} (hvw : R v w) :
    Related R (insert m key v) (insert m' key w) := by
  induction h with
  | nil => exact .cons key hvw .nil
  | cons k hold hrest ih =>
    rcases eq_or_ne k key with rfl | hne
    · simpa [Mapping.insert] using .cons k hvw hrest
    · simpa [Mapping.insert, hne] using .cons k hold ih

theorem Related.extend (h : Related R m m') (hnew : Related R new new') :
    Related R (extend m new) (extend m' new') := by
  induction hnew generalizing m m' with
  | nil => exact h
  | cons key hvw _ ih => exact ih (h.insert key hvw)

theorem Related.append (h : Related R m m') (hnew : Related R new new') :
    Related R (m ++ new) (m' ++ new') := by
  induction h with
  | nil => exact hnew
  | cons key hvw _ ih => exact .cons key hvw ih

theorem Related.reverse (h : Related R m m') : Related R m.reverse m'.reverse := by
  induction h with
  | nil => exact .nil
  | cons key hvw _ ih =>
    rw [List.reverse_cons, List.reverse_cons]
    exact ih.append (.cons key hvw .nil)

end Mapping

namespace Value

variable {P : Placeholder → Placeholder → Prop}

mutual

/-- Equal but for the placeholders, which are related in their places. -/
inductive Related (P : Placeholder → Placeholder → Prop) : Value → Value → Prop
  | placeholder {p q} : P p q → Related P (.placeholder p) (.placeholder q)
  | mapping {as bs} : RelatedEntries P as bs → Related P (.mapping as) (.mapping bs)
  | list {as bs} : RelatedItems P as bs → Related P (.list as) (.list bs)
  | string (text) : Related P (.string text) (.string text)
  | number (x) : Related P (.number x) (.number x)
  | bool (b) : Related P (.bool b) (.bool b)
  | null : Related P .null .null

inductive RelatedEntries (P : Placeholder → Placeholder → Prop) :
    List (String × Value) → List (String × Value) → Prop
  | nil : RelatedEntries P [] []
  | cons (key) {v w as bs} : Related P v w → RelatedEntries P as bs →
      RelatedEntries P ((key, v) :: as) ((key, w) :: bs)

inductive RelatedItems (P : Placeholder → Placeholder → Prop) : List Value → List Value → Prop
  | nil : RelatedItems P [] []
  | cons {v w as bs} : Related P v w → RelatedItems P as bs → RelatedItems P (v :: as) (w :: bs)

end

theorem RelatedEntries.toMapping :
    ∀ {as bs}, RelatedEntries P as bs → Mapping.Related (Related P) as bs
  | _, _, .nil => .nil
  | _, _, .cons key h hrest => .cons key h hrest.toMapping

theorem RelatedEntries.ofMapping {as bs : Mapping Value}
    (h : Mapping.Related (Related P) as bs) : RelatedEntries P as bs := by
  induction h with
  | nil => exact .nil
  | cons key hvw _ ih => exact .cons key hvw ih

mutual

theorem Related.refl_of : ∀ {v : Value}, (∀ p ∈ v.placeholders, P p p) → Related P v v
  | .placeholder p, h => .placeholder (h p (by simp [placeholders]))
  | .mapping _, h => .mapping (RelatedEntries.refl_of h)
  | .list _, h => .list (RelatedItems.refl_of h)
  | .string text, _ => .string text
  | .number x, _ => .number x
  | .bool b, _ => .bool b
  | .null, _ => .null

theorem RelatedEntries.refl_of :
    ∀ {as : List (String × Value)}, (∀ p ∈ placeholdersOfEntries as, P p p) →
      RelatedEntries P as as
  | [], _ => .nil
  | (key, _) :: _, h =>
    .cons key (Related.refl_of fun p hp => h p (List.mem_append_left _ hp))
      (RelatedEntries.refl_of fun p hp => h p (List.mem_append_right _ hp))

theorem RelatedItems.refl_of :
    ∀ {as : List Value}, (∀ p ∈ placeholdersOfItems as, P p p) → RelatedItems P as as
  | [], _ => .nil
  | _ :: _, h =>
    .cons (Related.refl_of fun p hp => h p (List.mem_append_left _ hp))
      (RelatedItems.refl_of fun p hp => h p (List.mem_append_right _ hp))

end

mutual

theorem Related.eq_of (hP : ∀ p q, P p q → p = q) : ∀ {v w}, Related P v w → v = w
  | _, _, .placeholder h => by rw [hP _ _ h]
  | _, _, .mapping h => by rw [h.eq_of hP]
  | _, _, .list h => by rw [h.eq_of hP]
  | _, _, .string _ => rfl
  | _, _, .number _ => rfl
  | _, _, .bool _ => rfl
  | _, _, .null => rfl

theorem RelatedEntries.eq_of (hP : ∀ p q, P p q → p = q) :
    ∀ {as bs}, RelatedEntries P as bs → as = bs
  | _, _, .nil => rfl
  | _, _, .cons _ h hrest => by rw [h.eq_of hP, hrest.eq_of hP]

theorem RelatedItems.eq_of (hP : ∀ p q, P p q → p = q) :
    ∀ {as bs}, RelatedItems P as bs → as = bs
  | _, _, .nil => rfl
  | _, _, .cons h hrest => by rw [h.eq_of hP, hrest.eq_of hP]

end

theorem related_eq : Related Eq = Eq := by
  funext v w
  apply propext
  constructor
  · exact Related.eq_of fun _ _ h => h
  · rintro rfl
    exact Related.refl_of fun _ _ => rfl

theorem Related.merges (hP : ∀ p q, P p q → p.merge = q.merge) {v w : Value}
    (h : Related P v w) : v.merges = w.merges := by
  cases h with
  | placeholder h => exact hP _ _ h
  | _ => rfl

end Value

namespace Write

variable {P : Placeholder → Placeholder → Prop}

structure Related (P : Placeholder → Placeholder → Prop) (w w' : Write) : Prop where
  key : w.key = w'.key
  merges : w.merges = w'.merges
  value : w.value.Related P w'.value

theorem Related.apply {m m' : Mapping Value} {w w' : Write} (h : Related P w w')
    (hm : Mapping.Related (Value.Related P) m m') :
    Mapping.Related (Value.Related P) (apply m w) (apply m' w') := by
  obtain ⟨key, merges, value⟩ := w
  obtain ⟨_, _, value'⟩ := w'
  obtain ⟨rfl, rfl, hv⟩ := h
  cases merges with
  | false => cases hv <;> exact hm.insert key (by constructor <;> assumption)
  | true =>
    cases hv with
    | mapping h => exact hm.extend h.toMapping
    | _ => exact hm.insert key (by constructor <;> assumption)

theorem applyAll_related {ws ws' : List Write} (h : List.Forall₂ (Related P) ws ws') :
    Value.RelatedEntries P (applyAll ws) (applyAll ws') := by
  suffices ∀ m m', Mapping.Related (Value.Related P) m m' →
      Mapping.Related (Value.Related P) (ws.foldl Write.apply m) (ws'.foldl Write.apply m') from
    .ofMapping (this [] [] .nil)
  induction h with
  | nil => exact fun _ _ hm => hm
  | cons hw _ ih => exact fun m m' hm => ih _ _ (hw.apply hm)

theorem Related.supply? {w w' : Write} (h : Related P w w') (key : String) :
    Option.Rel (Value.Related P) (w.supply? key) (w'.supply? key) := by
  obtain ⟨name, merges, value⟩ := w
  obtain ⟨_, _, value'⟩ := w'
  obtain ⟨rfl, rfl, hv⟩ := h
  have own : Option.Rel (Value.Related P) (if name = key then some value else none)
      (if name = key then some value' else none) := by
    split
    · exact .some hv
    · exact .none
  cases merges with
  | false => cases hv <;> exact own
  | true =>
    cases hv with
    | mapping h => exact h.toMapping.get? key
    | _ => exact own

end Write

theorem Document.find?_of_related {R : Value → Value → Prop} {d d' : Document}
    (hlabels : Mapping.Related R d.labels d'.labels) (hhidden : Mapping.Related R d.hidden d'.hidden)
    (name : String) : Option.Rel R (d.find? name) (d'.find? name) := by
  have hvisible := hlabels.get? name
  have hfirst := hhidden.get? name
  unfold find?
  generalize Mapping.get? d.hidden name = x, Mapping.get? d'.hidden name = y at hfirst ⊢
  cases hfirst with
  | none => exact hvisible
  | some hvw => exact .some hvw

end Loon
