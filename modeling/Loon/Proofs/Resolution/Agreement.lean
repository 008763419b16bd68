import Loon.Proofs.Alike
import Loon.Proofs.Reading.Steps
import Loon.Proofs.Resolution.CycleGuard
import Loon.Proofs.Resolution.Settled

namespace Loon

open Attempt

namespace Value

variable {P : Placeholder → Placeholder → Prop}

mutual

theorem Related.eq_of_settled : ∀ {v w : Value}, Related P v w → v.Settled → v = w
  | _, _, .mapping h, .mapping _ hsettled => by rw [h.eq_of_settled hsettled]
  | _, _, .list h, .list hsettled => by rw [h.eq_of_settled hsettled]
  | _, _, .string _, _ => rfl
  | _, _, .number _, _ => rfl
  | _, _, .bool _, _ => rfl
  | _, _, .null, _ => rfl

theorem RelatedEntries.eq_of_settled : ∀ {as bs : List (String × Value)}, RelatedEntries P as bs →
    (∀ entry ∈ as, entry.2.Settled) → as = bs
  | _, _, .nil, _ => rfl
  | _, _, .cons key h hrest, hsettled => by
    rw [List.forall_mem_cons] at hsettled
    rw [h.eq_of_settled hsettled.1, hrest.eq_of_settled hsettled.2]

theorem RelatedItems.eq_of_settled : ∀ {as bs : List Value}, RelatedItems P as bs →
    (∀ v ∈ as, v.Settled) → as = bs
  | _, _, .nil, _ => rfl
  | _, _, .cons h hrest, hsettled => by
    rw [List.forall_mem_cons] at hsettled
    rw [h.eq_of_settled hsettled.1, hrest.eq_of_settled hsettled.2]

end

end Value

namespace Document

def Agrees (d d' : Document) : Prop := ∀ name, Option.Rel Value.Alike (d.find? name) (d'.find? name)

variable {d d' : Document} {v w : Value}

theorem Alike.agrees (h : d.Alike d') : d.Agrees d' := h.find?

theorem agrees_of_find?_eq (h : ∀ name, d.find? name = d'.find? name) : d.Agrees d' := by
  intro name
  rw [h name]
  cases d'.find? name with
  | none => exact .none
  | some v => exact .some (Value.Alike.refl v)

def alikeness : Simulation Attempt Attempt := upTo (fun _ => False) Error.Alike

theorem alike_guardedWithin (h : d.Agrees d') (depth : Nat) (stack : List String)
    {p q : Placeholder} (hpq : p.Alike q) :
    alikeness.Rel Value.Alike (d.guardedWithin depth stack p) (d'.guardedWithin depth stack q) := by
  have herror : ∀ fault, Error.Alike ⟨fault, p.origin⟩ ⟨fault, q.origin⟩ := fun _ => rfl
  induction depth generalizing stack p q with
  | zero => exact .inl rfl
  | succ depth ih =>
    rw [guardedWithin, guardedWithin, ← hpq.1]
    split
    · refine .inr (.inr (.failed ?_))
      rw [cycleError, cycleError, ← hpq.1]
      exact herror _
    · have steps : alikeness.Steps Placeholder.Alike
          (d.guardedWithin depth (p.expr :: stack)) (d'.guardedWithin depth (p.expr :: stack)) :=
        ⟨fun _ _ hpq => hpq.2, fun _ _ hpq => ih _ hpq fun _ => rfl⟩
      refine steps.dereferenceOnce ⟨by rw [hpq.1], fun name => ?_, ?_⟩ h
      · rw [danglingError, danglingError, hpq.1]
        exact herror _
      · rw [danglingError, danglingError, hpq.1]
        exact herror _

theorem resolve_guarded (d : Document) (v : Value) {depth : Nat} (h : d.rounds < depth) :
    v.resolve (d.guardedWithin depth []) = ended (d.resolve v) := by
  have hmono := below_iff.1 (d.resolve_guarded_mono v h)
  rw [← resolve_exact] at hmono
  exact (hmono.resolve_left (ended_ne_exhausted _)).symm

theorem outcome_of_agree {α β : Type} {E : Error → Error → Prop} {R : α → β → Prop}
    {x : Except Error α} {y : Except Error β} (h : Agree E R (ended x) (ended y)) :
    Outcome E R x y := by
  cases x with
  | ok a => cases y with
    | ok b => cases h with
      | done hab => exact .ok hab
    | error e => cases h
  | error e => cases y with
    | ok b => cases h
    | error e' => cases h with
      | failed he => exact .error he

theorem alike_resolve (h : d.Agrees d') (hvw : v.Alike w) :
    Outcome Error.Alike Value.Alike (d.resolve v) (d'.resolve w) := by
  let depth := max d.rounds d'.rounds + 1
  have steps : alikeness.Steps Placeholder.Alike (d.guardedWithin depth [])
      (d'.guardedWithin depth []) :=
    ⟨fun _ _ hpq => hpq.2, fun _ _ hpq => alike_guardedWithin h depth [] hpq⟩
  have hresolve := steps.resolve hvw
  rw [d.resolve_guarded v (by omega), d'.resolve_guarded w (by omega)] at hresolve
  rcases hresolve with hcut | ⟨_, _, hfalse⟩ | hagree
  · exact absurd hcut (ended_ne_exhausted _)
  · exact hfalse.elim
  · exact outcome_of_agree hagree

theorem settled_of_resolve {x : Value} (h : d.resolve v = .ok x) : x.Settled :=
  Value.settled_of_resolve (d.followWithin_settles _) (follow_of_resolve_ok h)

theorem outcome_resolve (h : d.Agrees d') (hvw : v.Alike w) :
    Outcome Error.Alike Eq (d.resolve v) (d'.resolve w) :=
  (alike_resolve h hvw).imp fun _ _ hx hab => hab.eq_of_settled (settled_of_resolve hx)

theorem outcome_resolveEach {m m' : Mapping Value} (h : d.Agrees d') (hm : Mapping.Alike m m') :
    Outcome Error.Alike Eq (d.resolveEach m) (d'.resolveEach m') := by
  induction hm with
  | nil => exact .ok rfl
  | cons name hvw _ ih =>
    refine (outcome_resolve h hvw).bind fun x _ hx => ih.bind fun R _ hR => ?_
    subst hx hR
    exact .ok rfl

def shownEntry (d : Document) (entry : String × Value) : String × Value :=
  (entry.1, (d.resolve entry.2).toOption.getD .null)

theorem resolveEach_eq_ok {m R : Mapping Value} :
    d.resolveEach m = .ok R ↔
      (∀ entry ∈ m, ∃ w, d.resolve entry.2 = .ok w) ∧ m.map d.shownEntry = R := by
  induction m generalizing R with
  | nil => simp [resolveEach]
  | cons entry m ih =>
    rw [resolveEach, List.forall_mem_cons, List.map_cons]
    constructor
    · intro h
      obtain ⟨w, hw, h⟩ := bind_eq_ok.1 h
      obtain ⟨S, hS, h⟩ := bind_eq_ok.1 h
      cases h
      obtain ⟨hsome, rfl⟩ := ih.1 hS
      exact ⟨⟨⟨w, hw⟩, hsome⟩, by rw [shownEntry, hw]; rfl⟩
    · rintro ⟨⟨⟨w, hw⟩, hsome⟩, rfl⟩
      refine bind_eq_ok.2 ⟨w, hw, bind_eq_ok.2 ⟨_, ih.2 ⟨hsome, rfl⟩, ?_⟩⟩
      rw [shownEntry, hw]
      rfl

theorem keys_of_resolveEach {m R : Mapping Value} (h : d.resolveEach m = .ok R) :
    Mapping.keys R = Mapping.keys m := by
  obtain ⟨_, rfl⟩ := resolveEach_eq_ok.1 h
  simp [Mapping.keys, shownEntry]

end Document

end Loon
