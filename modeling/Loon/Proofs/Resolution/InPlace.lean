import Loon.Proofs.Resolution.Agreement

/-!
Following references in place. The stack is the state of a run: a reference is put on it before it is
followed and the last one is taken off again, whether that went well or not. So every call on a
resolver leaves the stack as it found it, and no call shows in another.
-/

namespace Loon

abbrev Following := EStateM Error (List String)

namespace Following

variable {α : Type}

def under (expr : String) (run : Following α) : Following α := fun stack =>
  match run (expr :: stack) with
  | .ok a stack => .ok a stack.tail
  | .error e stack => .error e stack.tail

def endedOn (stack : List String) : Except Error α → EStateM.Result Error (List String) α
  | .ok a => .ok a stack
  | .error e => .error e stack

def attempt (run : Following α) : StateM (List String) (Except Error α) := fun stack =>
  match run stack with
  | .ok a stack => (.ok a, stack)
  | .error e stack => (.error e, stack)

end Following

inductive Query
  | lookup (a : Address)
  | reference (p : Placeholder)
  | value (v : Value)
  | labels (m : Mapping Value)
deriving Repr, Inhabited

inductive Reply
  | found (x : Except String (Option Value))
  | value (x : Except Error Value)
  | labels (x : Except Error (Mapping Value))

namespace Document

/-- Resolves placeholders in place, as deep as is said. What resolves still deeper may do anything. -/
def following (d : Document) (deeper : Dereference Following) :
    (depth : Nat) → Dereference Following
  | 0 => deeper
  | depth + 1 => fun p => do
    let stack ← get
    if stack.contains p.expr then throw (cycleError stack p)
    else Following.under p.expr (d.dereferenceOnce (d.following deeper depth) p)

def followEach (deref : Dereference Following) : Mapping Value → Following (Mapping Value)
  | [] => return []
  | (name, v) :: rest => do
    let w ← v.resolve deref
    return (name, w) :: (← followEach deref rest)

def ask (d : Document) (deref : Dereference Following) : Query → StateM (List String) Reply
  | .lookup a => return .found (d.lookup a)
  | .reference p => return .value (← (deref p).attempt)
  | .value v => return .value (← (v.resolve deref).attempt)
  | .labels m => return .labels (← (followEach deref m).attempt)

def reply (d : Document) : Query → Reply
  | .lookup a => .found (d.lookup a)
  | .reference p => .value (d.dereference p)
  | .value v => .value (d.resolve v)
  | .labels m => .labels (d.resolveEach m)

end Document

namespace Following

open Attempt

inductive Leaves {α β : Type} (stack : List String) (R : α → β → Prop) :
    Attempt α → EStateM.Result Error (List String) β → Prop
  | done {a b} : R a b → Leaves stack R (.done a) (.ok b stack)
  | failed (e) : Leaves stack R (.failed e) (.error e stack)
  | exhausted (y) : Leaves stack R .exhausted y

def restoring (stack : List String) : Simulation Attempt Following where
  Rel R x y := Leaves stack R x (y stack)
  RelError := Eq
  pure h := .done h
  bind {_ _ _ _ R S x y f g} h hf := by
    change Leaves stack S (Attempt.bind x f) (EStateM.bind y g stack)
    rw [EStateM.bind]
    generalize y stack = z at h ⊢
    cases h with
    | done hab => exact hf _ _ hab
    | failed e => exact .failed e
    | exhausted z => exact .exhausted _
  throw h := h ▸ .failed _

theorem leaves_under {α β : Type} {R : α → β → Prop} {stack : List String} {expr : String}
    {x : Attempt α} {run : Following β} (h : (restoring (expr :: stack)).Rel R x run) :
    (restoring stack).Rel R x (under expr run) := by
  change Leaves stack R x (under expr run stack)
  change Leaves (expr :: stack) R x (run (expr :: stack)) at h
  rw [under]
  generalize run (expr :: stack) = y at h ⊢
  cases h with
  | done hab => exact .done hab
  | failed e => exact .failed e
  | exhausted y => exact .exhausted _

theorem attempt_run {α : Type} {run : Following α} {stack : List String} {x : Except Error α}
    (h : run stack = endedOn stack x) : run.attempt.run stack = (x, stack) := by
  change run.attempt stack = _
  rw [attempt, h]
  cases x <;> rfl

end Following

namespace Document

open Attempt Following

variable (d : Document)

theorem following_restores (deeper : Dereference Following) (depth : Nat)
    (stack : List String) (p : Placeholder) :
    (restoring stack).Rel Eq (d.guardedWithin depth stack p) (d.following deeper depth p) := by
  induction depth generalizing stack p with
  | zero => exact .exhausted _
  | succ depth ih =>
    change Leaves stack Eq _ ((ite (stack.contains p.expr = true) _ _ : Following Value) stack)
    rw [guardedWithin]
    split
    · exact .failed _
    · exact leaves_under (dereferenceOnce_eq (restoring (p.expr :: stack)) (.of_eq (ih _)) fun _ => rfl)

section Ask

variable (deeper : Dereference Following) {depth : Nat} (h : d.rounds < depth)

include h

theorem resolve_following (v : Value) :
    v.resolve (d.following deeper depth) [] = endedOn [] (d.resolve v) := by
  have hrestores := (Simulation.Steps.of_eq (d.following_restores deeper depth [])).resolve_eq v
  change Leaves [] Eq _ (v.resolve (d.following deeper depth) []) at hrestores
  rw [d.resolve_guarded v h] at hrestores
  generalize d.resolve v = x, v.resolve (d.following deeper depth) [] = y at hrestores ⊢
  cases x with
  | ok w =>
    cases hrestores with
    | done heq => rw [heq, endedOn]
  | error e =>
    cases hrestores with
    | failed => rfl

theorem followEach_following (m : Mapping Value) :
    followEach (d.following deeper depth) m [] = endedOn [] (d.resolveEach m) := by
  induction m with
  | nil => rfl
  | cons entry m ih =>
    obtain ⟨name, v⟩ := entry
    change EStateM.bind _ _ [] = _
    rw [EStateM.bind, d.resolve_following deeper h v, resolveEach]
    cases d.resolve v with
    | error e => rfl
    | ok w =>
      change EStateM.bind _ _ [] = _
      rw [EStateM.bind, ih]
      cases d.resolveEach m <;> rfl

theorem ask_following (q : Query) :
    (d.ask (d.following deeper depth) q).run [] = (d.reply q, []) := by
  cases q with
  | lookup a => rfl
  | reference p =>
    have hattempt := attempt_run (d.resolve_following deeper h (.placeholder p))
    exact congrArg (Prod.map Reply.value id) hattempt
  | value v =>
    have hattempt := attempt_run (d.resolve_following deeper h v)
    exact congrArg (Prod.map Reply.value id) hattempt
  | labels m =>
    have hattempt := attempt_run (d.followEach_following deeper h m)
    exact congrArg (Prod.map Reply.labels id) hattempt

theorem mapM_ask_following (queries : List Query) :
    (queries.mapM (d.ask (d.following deeper depth))).run [] = (queries.map d.reply, []) := by
  induction queries with
  | nil => rfl
  | cons q queries ih =>
    rw [mapM_cons_run, d.ask_following deeper h q, ih]
    rfl

end Ask

/-- A resolver has no memory: on a stack that starts with nothing on it, every call in a sequence of calls
is answered as it is answered first, and nothing is left on the stack. The answers are those of the
document. -/
theorem replies_inTurn (deeper : Dereference Following) {depth : Nat}
    (h : d.rounds < depth) (queries : List Query) :
    let ask := d.ask (d.following deeper depth)
    (queries.mapM ask).run [] = (queries.map fun q => ((ask q).run []).1, []) ∧
      ∀ q, (ask q).run [] = (d.reply q, []) := by
  intro ask
  have hask : ∀ q, (ask q).run [] = (d.reply q, []) := d.ask_following deeper h
  refine ⟨?_, hask⟩
  rw [d.mapM_ask_following deeper h]
  simp only [hask]

theorem replies_inTurn_failing :
    let d : Document := ⟨[("a", .mapping [("x", .placeholder ⟨"b.y", false, none⟩), ("k", .string "v")]),
      ("b", .mapping [("y", .placeholder ⟨"a.x", false, none⟩), ("z", .placeholder ⟨"a.k", false, none⟩),
        ("n", .placeholder ⟨"nowhere", false, none⟩)])], []⟩
    let deeper : Dereference Following := fun p => throw (Document.danglingError p "deeper")
    let queries : List Query := [.reference ⟨"a.x", false, none⟩, .reference ⟨"b.n", false, none⟩,
      .labels d.labels, .reference ⟨"b.z", false, none⟩]
    d.rounds < 9 ∧ (queries.mapM (d.ask (d.following deeper 9))).run [] =
      ([.value (.error ⟨.referenceCycle ["a.x", "b.y", "a.x"], none⟩),
        .value (.error ⟨.dangling "nowhere" "nowhere", none⟩),
        .labels (.error ⟨.referenceCycle ["b.y", "a.x", "b.y"], none⟩),
        .value (.ok (.string "v"))], []) := by
  intro d deeper queries
  have hdepth : d.rounds < 9 := by decide
  obtain ⟨hturns, hreply⟩ := d.replies_inTurn deeper hdepth queries
  refine ⟨hdepth, ?_⟩
  rw [hturns]
  simp only [hreply]
  rfl

end Document

end Loon
