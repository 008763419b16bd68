import Loon.Proofs.Resolution.Simulation

/-!
Runs of bounded depth, and the recursions that they cut off: following references as far as they
lead, with no regard to what is being followed already, and following them with the stack. Both
take the very round of `Document.dereferenceOnce`.
-/

namespace Loon

inductive Attempt (α : Type)
  | done (a : α)
  | failed (e : Error)
  | exhausted
deriving Repr, Inhabited

namespace Attempt

variable {α β : Type}

def bind : Attempt α → (α → Attempt β) → Attempt β
  | done a, f => f a
  | failed e, _ => failed e
  | exhausted, _ => exhausted

instance : Monad Attempt where
  pure := done
  bind := bind

instance : MonadExcept Error Attempt where
  throw := failed
  tryCatch
    | failed e, handle => handle e
    | x, _ => x

def ended : Except Error α → Attempt α
  | .ok a => done a
  | .error e => failed e

@[simp] theorem ended_eq_done {x : Except Error α} {a : α} : ended x = done a ↔ x = .ok a := by
  cases x <;> simp [ended]

@[simp] theorem ended_eq_failed {x : Except Error α} {e : Error} :
    ended x = failed e ↔ x = .error e := by
  cases x <;> simp [ended]

theorem ended_injective {x y : Except Error α} (h : ended x = ended y) : x = y := by
  cases x <;> cases y <;> cases h <;> rfl

@[simp] theorem ended_ne_exhausted (x : Except Error α) : ended x ≠ exhausted := by
  cases x <;> simp [ended]

instance : LawfulMonad Attempt :=
  LawfulMonad.mk' Attempt (fun x => by cases x <;> rfl) (fun _ _ => rfl)
    (fun x _ _ => by cases x <;> rfl)

theorem bind_eq_done {x : Attempt α} {f : α → Attempt β} {b : β} :
    x >>= f = done b ↔ ∃ a, x = done a ∧ f a = done b := by
  cases x with
  | done a => exact ⟨fun h => ⟨a, rfl, h⟩, fun ⟨_, h, hf⟩ => by cases h; exact hf⟩
  | failed e => exact ⟨fun h => (nomatch h), fun ⟨_, h, _⟩ => nomatch h⟩
  | exhausted => exact ⟨fun h => (nomatch h), fun ⟨_, h, _⟩ => nomatch h⟩

@[simp] theorem done_bind (a : α) (f : α → Attempt β) : done a >>= f = f a := rfl

inductive Agree (E : Error → Error → Prop) (R : α → β → Prop) : Attempt α → Attempt β → Prop
  | done {a b} : R a b → Agree E R (done a) (done b)
  | failed {e e'} : E e e' → Agree E R (failed e) (failed e')

theorem Agree.mono {E : Error → Error → Prop} {R S : α → β → Prop} {x : Attempt α}
    {y : Attempt β} (h : Agree E R x y) (hRS : ∀ a b, R a b → S a b) : Agree E S x y := by
  cases h with
  | done h => exact .done (hRS _ _ h)
  | failed h => exact .failed h

theorem agree_eq_iff {x y : Attempt α} : Agree Eq Eq x y ↔ x = y ∧ x ≠ exhausted := by
  constructor
  · rintro (⟨rfl⟩ | ⟨rfl⟩)
    · exact ⟨rfl, by simp⟩
    · exact ⟨rfl, by simp⟩
  · rintro ⟨rfl, hx⟩
    cases x with
    | done a => exact .done rfl
    | failed e => exact .failed rfl
    | exhausted => exact absurd rfl hx

def upTo (excuse : Error → Prop) (E : Error → Error → Prop) : Simulation Attempt Attempt where
  Rel R x y := x = exhausted ∨ (∃ e, x = .failed e ∧ excuse e) ∨ Agree E R x y
  RelError := E
  pure h := .inr (.inr (.done h))
  bind h hf := by
    rcases h with rfl | ⟨e, rfl, he⟩ | hxy
    · exact .inl rfl
    · exact .inr (.inl ⟨e, rfl, he⟩)
    · cases hxy with
      | done hab => exact hf _ _ hab
      | failed he => exact .inr (.inr (.failed he))
  throw h := .inr (.inr (.failed h))

def exact : Simulation (Except Error) Attempt where
  Rel R x y := Agree Eq R (ended x) y
  RelError := Eq
  pure h := .done h
  bind {_ _ _ _ _ _ x _ _ _} h hf := by
    cases x with
    | ok a => cases h with
      | done hab => exact hf _ _ hab
    | error e => cases h with
      | failed he => exact .failed he
  throw h := .failed h

end Attempt

namespace Document

def followWithin (d : Document) : (depth : Nat) → Dereference Attempt
  | 0, _ => .exhausted
  | depth + 1, p => d.dereferenceOnce (d.followWithin depth) p

def guardedWithin (d : Document) : (depth : Nat) → (stack : List String) → Dereference Attempt
  | 0, _, _ => .exhausted
  | depth + 1, stack, p =>
    if stack.contains p.expr then .failed (cycleError stack p)
    else d.dereferenceOnce (d.guardedWithin depth (p.expr :: stack)) p

end Document

end Loon
