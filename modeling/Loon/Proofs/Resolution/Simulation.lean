import Loon.Proofs.Resolution.Related

/-!
Two ways of running the same walk. If a relation between the runs of two monads is kept by their
operations, and related placeholders are resolved alike, then whole walks over related values are
alike.
-/

namespace Loon

structure Simulation (m n : Type → Type) [Monad m] [Monad n] [MonadExcept Error m]
    [MonadExcept Error n] where
  Rel : ∀ {α β : Type}, (α → β → Prop) → m α → n β → Prop
  RelError : Error → Error → Prop
  pure : ∀ {α β : Type} {R : α → β → Prop} {a b}, R a b → Rel R (Pure.pure a) (Pure.pure b)
  bind : ∀ {α β γ δ : Type} {R : α → β → Prop} {S : γ → δ → Prop} {x : m α} {y : n β}
    {f : α → m γ} {g : β → n δ}, Rel R x y → (∀ a b, R a b → Rel S (f a) (g b)) →
    Rel S (x >>= f) (y >>= g)
  throw : ∀ {α β : Type} {R : α → β → Prop} {e e'}, RelError e e' →
    Rel R (MonadExcept.throw e) (MonadExcept.throw e')

namespace Simulation

variable {m n : Type → Type} [Monad m] [Monad n] [MonadExcept Error m] [MonadExcept Error n]
variable {P : Placeholder → Placeholder → Prop} (σ : Simulation m n)
variable {deref : Dereference m} {deref' : Dereference n}

structure Steps (P : Placeholder → Placeholder → Prop) (deref : Dereference m)
    (deref' : Dereference n) : Prop where
  merges : ∀ p q, P p q → p.merge = q.merge
  deref : ∀ p q, P p q → σ.Rel (Value.Related P) (deref p) (deref' q)

variable {σ}

theorem Steps.of_eq (h : ∀ p, σ.Rel Eq (deref p) (deref' p)) : σ.Steps Eq deref deref' where
  merges _ _ hpq := by rw [hpq]
  deref p q hpq := by
    rw [Value.related_eq, ← hpq]
    exact h p

mutual

theorem Steps.resolve (h : σ.Steps P deref deref') : ∀ {v w}, Value.Related P v w →
    σ.Rel (Value.Related P) (v.resolve deref) (w.resolve deref')
  | _, _, .placeholder hpq => h.deref _ _ hpq
  | _, _, .mapping hvw =>
    σ.bind (h.resolveEntries hvw) fun _ _ hws => σ.pure (.mapping (Write.applyAll_related hws))
  | _, _, .list hvw => σ.bind (h.resolveItems hvw) fun _ _ hws => σ.pure (.list hws)
  | _, _, .string text => σ.pure (.string text)
  | _, _, .number x => σ.pure (.number x)
  | _, _, .bool b => σ.pure (.bool b)
  | _, _, .null => σ.pure .null

theorem Steps.resolveEntries (h : σ.Steps P deref deref') : ∀ {as bs}, Value.RelatedEntries P as bs →
    σ.Rel (List.Forall₂ (Write.Related P)) (Value.resolveEntries deref as)
      (Value.resolveEntries deref' bs)
  | _, _, .nil => σ.pure .nil
  | _, _, .cons key hvw hrest =>
    σ.bind (h.resolve hvw) fun _ _ hw =>
      σ.bind (h.resolveEntries hrest) fun _ _ hws =>
        σ.pure (.cons ⟨rfl, hvw.merges h.merges, hw⟩ hws)

theorem Steps.resolveItems (h : σ.Steps P deref deref') : ∀ {as bs}, Value.RelatedItems P as bs →
    σ.Rel (Value.RelatedItems P) (Value.resolveItems deref as) (Value.resolveItems deref' bs)
  | _, _, .nil => σ.pure .nil
  | _, _, .cons hvw hrest =>
    σ.bind (h.resolve hvw) fun _ _ hw =>
      σ.bind (h.resolveItems hrest) fun _ _ hws => σ.pure (.cons hw hws)

end

theorem Steps.resolve_eq (h : σ.Steps Eq deref deref') (v : Value) :
    σ.Rel Eq (v.resolve deref) (v.resolve deref') := by
  have resolved := h.resolve (v := v) (w := v) (by rw [Value.related_eq])
  rwa [Value.related_eq] at resolved

theorem Steps.resolveMerge (h : σ.Steps P deref deref') {v w : Value} (hvw : v.Related P w) :
    σ.Rel (Value.Related P) (v.resolveMerge deref) (w.resolveMerge deref') := by
  rw [Value.resolveMerge, Value.resolveMerge, hvw.merges h.merges]
  split
  · exact h.resolve hvw
  · exact σ.pure hvw

theorem Steps.resolveAlone (h : σ.Steps P deref deref') {v w : Value} (hvw : v.Related P w) :
    σ.Rel (Value.Related P) (v.resolveAlone deref) (w.resolveAlone deref') := by
  cases hvw with
  | placeholder hpq => exact h.deref _ _ hpq
  | _ => exact σ.pure (by constructor <;> assumption)

theorem Steps.firstSupply (h : σ.Steps P deref deref') (key : String) {as bs : Mapping Value}
    (hab : Mapping.Related (Value.Related P) as bs) :
    σ.Rel (Option.Rel (Value.Related P)) (firstSupply deref key as)
      (firstSupply deref' key bs) := by
  induction hab with
  | nil => exact σ.pure .none
  | @cons name v w _ _ hvw _ ih =>
    refine σ.bind (h.resolveMerge hvw) fun a b hab => ?_
    have written : Write.Related P ⟨name, v.merges, a⟩ ⟨name, w.merges, b⟩ :=
      ⟨rfl, hvw.merges h.merges, hab⟩
    have supplied := written.supply? key
    generalize Write.supply? ⟨name, v.merges, a⟩ key = x,
      Write.supply? ⟨name, w.merges, b⟩ key = y at supplied ⊢
    cases supplied with
    | none => exact ih
    | some hab => exact σ.pure (.some hab)

theorem Steps.search (h : σ.Steps P deref deref') (key : String) {v w : Value} (hvw : v.Related P w) :
    σ.Rel (Option.Rel (Value.Related P)) (v.search deref key) (w.search deref' key) := by
  cases hvw with
  | mapping hab => exact h.firstSupply key hab.toMapping.reverse
  | _ => exact σ.pure .none

section Document

variable {d d' : Document} {p q : Placeholder}

/-- What the run of one round needs to know of the two placeholders at hand: that they name the
same thing, and that failures blamed on them count as alike. -/
structure Names (σ : Simulation m n) (p q : Placeholder) : Prop where
  address : Address.parse p.expr = Address.parse q.expr
  missing : ∀ name, σ.RelError (Document.danglingError p name) (Document.danglingError q name)
  malformed : σ.RelError (Document.danglingError p p.expr) (Document.danglingError q q.expr)

theorem Steps.scope (h : σ.Steps P deref deref') (hpq : σ.Names p q) {v w : Value}
    (hvw : v.Related P w) (space : Option String) :
    σ.Rel (Value.Related P) (Document.scope deref p v space)
      (Document.scope deref' q w space) := by
  cases space with
  | none => exact σ.pure hvw
  | some space =>
    refine σ.bind (h.search space hvw) fun a b hab => ?_
    cases hab with
    | none => exact σ.throw (hpq.missing space)
    | some hab => exact h.resolveAlone hab

theorem Steps.target (h : σ.Steps P deref deref') {v w : Value} (hvw : v.Related P w)
    (field : Option String) :
    σ.Rel (Value.Related P) (Document.target deref v field)
      (Document.target deref' w field) := by
  cases field with
  | none => exact h.resolve hvw
  | some field =>
    refine σ.bind (h.search field hvw) fun a b hab => ?_
    cases hab with
    | none => exact σ.pure .null
    | some hab => exact h.resolve hab

theorem Steps.dereferenceOnce_of_named (h : σ.Steps P deref deref') (hpq : σ.Names p q)
    (hd : ∀ a, Address.parse p.expr = some a →
      Option.Rel (Value.Related P) (d.find? a.label) (d'.find? a.label)) :
    σ.Rel (Value.Related P) (d.dereferenceOnce deref p) (d'.dereferenceOnce deref' q) := by
  unfold Document.dereferenceOnce
  rw [← hpq.address]
  cases ha : Address.parse p.expr with
  | none => exact σ.throw hpq.malformed
  | some a =>
    have found := hd a ha
    dsimp only
    generalize d.find? a.label = x, d'.find? a.label = y at found ⊢
    cases found with
    | none => exact σ.throw (hpq.missing a.label)
    | some hvw => exact σ.bind (h.scope hpq hvw a.space) fun _ _ hs => h.target hs a.field

theorem Steps.dereferenceOnce (h : σ.Steps P deref deref') (hpq : σ.Names p q)
    (hd : ∀ name, Option.Rel (Value.Related P) (d.find? name) (d'.find? name)) :
    σ.Rel (Value.Related P) (d.dereferenceOnce deref p) (d'.dereferenceOnce deref' q) :=
  h.dereferenceOnce_of_named hpq fun a _ => hd a.label

end Document

end Simulation

end Loon
