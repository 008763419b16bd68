import Loon.Proofs.Resolution.Agreement

/-!
Two spellings of a reference, with other blanks around its parts, name the same thing. The stack holds
references as they are written, so a cycle may be noticed later in the one spelling than in the other. But
without the stack both spellings are followed alike, so both lead to the same value or both fail.
-/

namespace Loon

def Placeholder.Respelled (p q : Placeholder) : Prop :=
  Address.parse p.expr = Address.parse q.expr ∧ p.merge = q.merge

abbrev Value.Respelled : Value → Value → Prop := Related Placeholder.Respelled

structure Document.Respelled (d d' : Document) : Prop where
  labels : Mapping.Related Value.Respelled d.labels d'.labels
  hidden : Mapping.Related Value.Respelled d.hidden d'.hidden

def Error.SameKind (e e' : Error) : Prop :=
  e.IsDangling ∧ e'.IsDangling ∨ e.IsCycle ∧ e'.IsCycle

namespace Attempt

def lockstep (E : Error → Error → Prop) : Simulation Attempt Attempt where
  Rel R x y := x = exhausted ∧ y = exhausted ∨ Agree E R x y
  RelError := E
  pure h := .inr (.done h)
  bind h hf := by
    rcases h with ⟨rfl, rfl⟩ | hxy
    · exact .inl ⟨rfl, rfl⟩
    · cases hxy with
      | done hab => exact hf _ _ hab
      | failed he => exact .inr (.failed he)
  throw h := .inr (.failed h)

theorem Agree.ne_exhausted {α β : Type} {E : Error → Error → Prop} {R : α → β → Prop} {x : Attempt α}
    {y : Attempt β} (h : Agree E R x y) : x ≠ exhausted ∧ y ≠ exhausted := by
  cases h <;> exact ⟨nofun, nofun⟩

end Attempt

namespace Document

open Attempt

variable {d d' : Document} {v v' : Value}

theorem followWithin_respelled (hd : d.Respelled d') (depth : Nat) :
    (lockstep Error.SameKind).Steps Placeholder.Respelled (d.followWithin depth)
      (d'.followWithin depth) := by
  refine ⟨fun _ _ hpq => hpq.2, fun p q hpq => ?_⟩
  induction depth generalizing p q with
  | zero => exact .inl ⟨rfl, rfl⟩
  | succ depth ih =>
    have hsteps : (lockstep Error.SameKind).Steps Placeholder.Respelled (d.followWithin depth)
        (d'.followWithin depth) := ⟨fun _ _ hpq => hpq.2, ih⟩
    have hdangling : ∀ name name', (danglingError p name).SameKind (danglingError q name') :=
      fun name name' => .inl ⟨⟨p.expr, name, rfl⟩, ⟨q.expr, name', rfl⟩⟩
    exact hsteps.dereferenceOnce ⟨hpq.1, fun name => hdangling name name, hdangling _ _⟩
      (find?_of_related hd.labels hd.hidden)

theorem outcome_of_follow (hd : d.Respelled d') (hv : v.Respelled v') {depth : Nat}
    (h : v.resolve (d.followWithin depth) ≠ .exhausted ∨
      v'.resolve (d'.followWithin depth) ≠ .exhausted) :
    Outcome Error.SameKind Eq (d.resolve v) (d'.resolve v') := by
  rcases (followWithin_respelled hd depth).resolve hv with ⟨hcut, hcut'⟩ | hagree
  · rcases h with h | h
    · exact absurd hcut h
    · exact absurd hcut' h
  · have hends := hagree.ne_exhausted
    rw [← resolve_of_follow rfl hends.1, ← resolve_of_follow rfl hends.2] at hagree
    exact (outcome_of_agree hagree).imp fun _ _ hx hab => hab.eq_of_settled (settled_of_resolve hx)

theorem isCycle_or_ends (d : Document) (v : Value) : (∃ e, d.resolve v = .error e ∧ e.IsCycle) ∨
    v.resolve (d.followWithin (d.rounds + 1)) ≠ .exhausted := by
  by_cases hcycle : ∃ e, d.resolve v = .error e ∧ e.IsCycle
  · exact .inl hcycle
  · right
    rw [follow_of_resolve fun e he hc => hcycle ⟨e, he, hc⟩]
    exact ended_ne_exhausted _

/-- The spelling of references does not matter: whatever is spelled otherwise, in the labels or in the value,
resolving gives the same value or fails for the same kind of reason. -/
theorem resolve_respelled (hd : d.Respelled d') (hv : v.Respelled v') :
    Outcome Error.SameKind Eq (d.resolve v) (d'.resolve v') := by
  rcases d.isCycle_or_ends v with ⟨e, he, hcycle⟩ | hends
  · rcases d'.isCycle_or_ends v' with ⟨e', he', hcycle'⟩ | hends'
    · rw [he, he']
      exact .error (.inr ⟨hcycle, hcycle'⟩)
    · exact outcome_of_follow hd hv (.inr hends')
  · exact outcome_of_follow hd hv (.inl hends)

theorem resolve_respelled_cycle :
    let labels : String → Mapping Value := fun back =>
      [("a", .mapping [("x", .placeholder ⟨"b.y", false, none⟩)]),
        ("b", .mapping [("y", .placeholder ⟨back, false, none⟩)])]
    let d : Document := ⟨labels "a.x", []⟩
    let d' : Document := ⟨labels " a . x", []⟩
    let v : Value := .placeholder ⟨"a.x", false, none⟩
    d.Respelled d' ∧ v.Respelled v ∧
      d.resolve v = .error ⟨.referenceCycle ["a.x", "b.y", "a.x"], none⟩ ∧
      d'.resolve v = .error ⟨.referenceCycle ["a.x", "b.y", " a . x", "b.y"], none⟩ ∧
      Outcome Error.SameKind Eq (d.resolve v) (d'.resolve v) := by
  intro labels d d' v
  have hsame : ∀ p : Placeholder, p.Respelled p := fun _ => ⟨rfl, rfl⟩
  have hback : Placeholder.Respelled ⟨"a.x", false, none⟩ ⟨" a . x", false, none⟩ := ⟨by decide, rfl⟩
  have hlabels : Mapping.Related Value.Respelled d.labels d'.labels :=
    .cons _ (.mapping (.cons _ (.placeholder (hsame _)) .nil))
      (.cons _ (.mapping (.cons _ (.placeholder hback) .nil)) .nil)
  have hd : d.Respelled d' := ⟨hlabels, .nil⟩
  have hv : v.Respelled v := .placeholder (hsame _)
  exact ⟨hd, hv, rfl, rfl, resolve_respelled hd hv⟩

end Document

end Loon
