import Loon.Proofs.Resolution.Attempt

/-!
The stack of references refuses exactly those that lead nowhere. Following references without it
ends with the same value or the same dangling reference wherever a document is resolved so, and
ends at no depth where a cycle is reported.
-/

namespace Loon

namespace Error

def IsDangling (e : Error) : Prop := ∃ reference name, e.fault = .dangling reference name

def IsCycle (e : Error) : Prop := ∃ chain, e.fault = .referenceCycle chain

theorem IsDangling.not_isCycle {e : Error} : e.IsDangling → ¬ e.IsCycle := by
  rintro ⟨reference, name, h⟩ ⟨chain, h'⟩
  rw [h] at h'
  cases h'

end Error

namespace Document

variable {m n : Type → Type} [Monad m] [Monad n] [MonadExcept Error m] [MonadExcept Error n]
variable {P : Placeholder → Placeholder → Prop} {d : Document}

def placeholders (d : Document) : List Placeholder :=
  Value.placeholdersOfEntries d.labels ++ Value.placeholdersOfEntries d.hidden

theorem find?_related (h : ∀ p ∈ d.placeholders, P p p) (name : String) :
    Option.Rel (Value.Related P) (d.find? name) (d.find? name) :=
  find?_of_related
    (Value.RelatedEntries.refl_of fun p hp => h p (List.mem_append_left _ hp)).toMapping
    (Value.RelatedEntries.refl_of fun p hp => h p (List.mem_append_right _ hp)).toMapping name

theorem dereferenceOnce_related (σ : Simulation m n) (hP : ∀ p ∈ d.placeholders, P p p)
    {deref : Dereference m} {deref' : Dereference n} (h : σ.Steps P deref deref')
    {p : Placeholder} (hp : ∀ name, σ.RelError (danglingError p name) (danglingError p name)) :
    σ.Rel (Value.Related P) (d.dereferenceOnce deref p) (d.dereferenceOnce deref' p) :=
  h.dereferenceOnce ⟨rfl, hp, hp p.expr⟩ (find?_related hP)

theorem dereferenceOnce_eq (σ : Simulation m n) {deref : Dereference m} {deref' : Dereference n}
    (h : σ.Steps Eq deref deref') {p : Placeholder}
    (hp : ∀ name, σ.RelError (danglingError p name) (danglingError p name)) :
    σ.Rel Eq (d.dereferenceOnce deref p) (d.dereferenceOnce deref' p) := by
  rw [← Value.related_eq]
  exact dereferenceOnce_related σ (fun _ _ => rfl) h hp

end Document

namespace Attempt

variable {α : Type} {x y : Attempt α}

def below : Simulation Attempt Attempt := upTo (fun _ => False) Eq

theorem below_iff : below.Rel Eq x y ↔ x = .exhausted ∨ x = y := by
  constructor
  · rintro (hx | ⟨_, _, hfalse⟩ | hxy)
    · exact .inl hx
    · exact hfalse.elim
    · exact .inr (agree_eq_iff.1 hxy).1
  · rintro (hx | rfl)
    · exact .inl hx
    · cases x with
      | exhausted => exact .inl rfl
      | done a => exact .inr (.inr (.done rfl))
      | failed e => exact .inr (.inr (.failed rfl))

theorem below_trans {z : Attempt α} (hxy : below.Rel Eq x y) (hyz : below.Rel Eq y z) :
    below.Rel Eq x z := by
  rw [below_iff] at *
  rcases hxy with hx | rfl
  · exact .inl hx
  · exact hyz

end Attempt

namespace Document

open Attempt

variable {d : Document}

theorem followWithin_below_succ (d : Document) (depth : Nat) (p : Placeholder) :
    below.Rel Eq (d.followWithin depth p) (d.followWithin (depth + 1) p) := by
  induction depth generalizing p with
  | zero => exact .inl rfl
  | succ depth ih => exact dereferenceOnce_eq below (.of_eq ih) fun _ => rfl

theorem guardedWithin_below_succ (d : Document) (depth : Nat) (stack : List String)
    (p : Placeholder) :
    below.Rel Eq (d.guardedWithin depth stack p) (d.guardedWithin (depth + 1) stack p) := by
  induction depth generalizing stack p with
  | zero => exact .inl rfl
  | succ depth ih =>
    unfold guardedWithin
    split
    · exact .inr (.inr (.failed rfl))
    · exact dereferenceOnce_eq below (.of_eq (ih _)) fun _ => rfl

theorem followWithin_exhausted_congr {p q : Placeholder} (hpq : p.expr = q.expr) {depth : Nat}
    (hp : d.followWithin depth p = .exhausted) : d.followWithin depth q = .exhausted := by
  cases depth with
  | zero => rfl
  | succ depth =>
    let σ := upTo (fun _ => False) fun _ _ => True
    have steps : σ.Steps Eq (d.followWithin depth) (d.followWithin depth) := .of_eq fun r => by
      cases h : d.followWithin depth r with
      | exhausted => exact .inl rfl
      | done a => exact .inr (.inr (.done rfl))
      | failed e => exact .inr (.inr (.failed trivial))
    have alike := steps.dereferenceOnce (p := q) (q := p)
      ⟨by rw [hpq], fun _ => trivial, trivial⟩ (find?_related (d := d) fun _ _ => rfl)
    rw [followWithin] at hp ⊢
    rw [hp] at alike
    generalize d.dereferenceOnce (d.followWithin depth) q = x at alike ⊢
    rcases alike with hq | ⟨_, _, hfalse⟩ | hagree
    · exact hq
    · exact hfalse.elim
    · cases hagree

/-- Nothing that can be followed is refused: the expressions on the stack are cut off at the depth
at hand, so a run that ends meets none of them. -/
theorem follow_below_guarded (d : Document) (depth : Nat) (stack : List String) (p : Placeholder)
    (hstack : ∀ q : Placeholder, q.expr ∈ stack → d.followWithin depth q = .exhausted) :
    below.Rel Eq (d.followWithin depth p) (d.guardedWithin depth stack p) := by
  induction depth generalizing stack p with
  | zero => exact .inl rfl
  | succ depth ih =>
    have lower : ∀ q : Placeholder, q.expr ∈ stack → d.followWithin depth q = .exhausted := by
      intro q hq
      rcases below_iff.1 (d.followWithin_below_succ depth q) with h | h
      · exact h
      · rw [h, hstack q hq]
    rcases below_iff.1 (d.followWithin_below_succ depth p) with hcut | hsame
    · rw [guardedWithin]
      split
      next hmem =>
        rw [hstack p (by simpa using hmem)]
        exact .inl rfl
      next =>
        refine dereferenceOnce_eq below (.of_eq fun q => ih _ q fun r hr => ?_) fun _ => rfl
        rcases List.mem_cons.1 hr with hr | hr
        · exact followWithin_exhausted_congr hr.symm hcut
        · exact lower r hr
    -- The run ends at a smaller depth already, where the stack may stay as it is.
    · rw [← hsame]
      exact below_trans (ih stack p lower) (d.guardedWithin_below_succ depth stack p)

theorem guarded_upTo_follow (d : Document) (depth : Nat) (stack : List String)
    (p : Placeholder) :
    (upTo Error.IsCycle Eq).Rel Eq (d.guardedWithin depth stack p) (d.followWithin depth p) := by
  induction depth generalizing stack p with
  | zero => exact .inl rfl
  | succ depth ih =>
    unfold guardedWithin
    split
    · exact .inr (.inl ⟨_, rfl, _, rfl⟩)
    · exact dereferenceOnce_eq (upTo Error.IsCycle Eq) (.of_eq (ih _)) fun _ => rfl

theorem followWithin_dangling (d : Document) (depth : Nat) (p : Placeholder) :
    (upTo (fun _ => False) fun e e' => e = e' ∧ e.IsDangling).Rel Eq
      (d.followWithin depth p) (d.followWithin depth p) := by
  induction depth generalizing p with
  | zero => exact .inl rfl
  | succ depth ih =>
    exact dereferenceOnce_eq (upTo _ _) (.of_eq ih) fun name => ⟨rfl, p.expr, name, rfl⟩

def pending (d : Document) (stack : List String) : List String :=
  (d.placeholders.map Placeholder.expr).filter fun expr => !stack.contains expr

theorem pending_cons (d : Document) (stack : List String) (expr : String) :
    d.pending (expr :: stack) = (d.pending stack).filter fun other => other != expr := by
  simp only [pending, List.filter_filter]
  congr 1
  funext other
  rw [List.contains_cons, Bool.not_or]
  rfl

theorem length_pending_cons_le (d : Document) (stack : List String) (expr : String) :
    (d.pending (expr :: stack)).length ≤ (d.pending stack).length := by
  rw [pending_cons]
  exact List.length_filter_le _ _

theorem length_pending_cons_lt {stack : List String} {expr : String} (h : expr ∈ d.pending stack) :
    (d.pending (expr :: stack)).length < (d.pending stack).length := by
  rw [pending_cons]
  exact List.length_filter_lt_length_iff_exists.2 ⟨expr, h, by simp⟩

theorem mem_pending {stack : List String} {p : Placeholder} (hp : p ∈ d.placeholders)
    (h : ¬ stack.contains p.expr = true) : p.expr ∈ d.pending stack :=
  List.mem_filter.2 ⟨List.mem_map_of_mem hp, by simpa using h⟩

def Own (d : Document) (p q : Placeholder) : Prop := p = q ∧ p ∈ d.placeholders

/-- The rounds of a document never run out on what its stack lets pass: a placeholder of the
document takes one of the pending expressions away, and a foreign one comes first only. -/
theorem dereferenceWithin_exact (d : Document) (rounds : Nat) (stack : List String)
    (p : Placeholder)
    (h : (d.pending stack).length < rounds ∨
      p ∈ d.placeholders ∧ (d.pending stack).length ≤ rounds) :
    exact.Rel (Value.Related d.Own) (d.dereferenceWithin rounds stack p)
      (d.guardedWithin (rounds + 1) stack p) := by
  induction rounds generalizing stack p with
  | zero =>
    obtain hlt | ⟨hp, hlen⟩ := h
    · exact absurd hlt (Nat.not_lt_zero _)
    · have hmem : stack.contains p.expr = true := by
        by_contra hmem
        have := List.length_pos_of_mem (mem_pending hp hmem)
        omega
      rw [guardedWithin, if_pos hmem]
      exact .failed rfl
  | succ rounds ih =>
    rw [dereferenceWithin, guardedWithin]
    split
    · exact .failed rfl
    next hmem =>
      have fewer : (d.pending (p.expr :: stack)).length ≤ rounds := by
        obtain hlt | ⟨hp, hlen⟩ := h
        · exact Nat.le_trans (length_pending_cons_le d stack p.expr) (Nat.le_of_lt_succ hlt)
        · have := length_pending_cons_lt (mem_pending hp hmem)
          omega
      refine dereferenceOnce_related exact (fun q hq => ⟨rfl, hq⟩) ⟨?_, ?_⟩ fun _ => rfl
      · exact fun q r hqr => by rw [hqr.1]
      · rintro q _ ⟨rfl, hq⟩
        exact ih _ q (.inr ⟨hq, fewer⟩)

theorem dereference_exact (d : Document) (p : Placeholder) :
    exact.Rel Eq (d.dereference p) (d.guardedWithin (d.rounds + 1) [] p) := by
  have enough : (d.pending []).length < d.rounds := by
    have := List.length_filter_le (fun expr => !([] : List String).contains expr)
      (d.placeholders.map Placeholder.expr)
    simp only [List.length_map, placeholders, List.length_append] at this
    exact Nat.lt_succ_of_le this
  exact (dereferenceWithin_exact d d.rounds [] p (.inl enough)).mono fun _ _ h =>
    h.eq_of fun _ _ hpq => hpq.1

theorem resolve_exact (d : Document) (v : Value) :
    ended (d.resolve v) = v.resolve (d.guardedWithin (d.rounds + 1) []) :=
  (agree_eq_iff.1 ((Simulation.Steps.of_eq d.dereference_exact).resolve_eq v)).1

theorem resolve_guarded_mono (d : Document) (v : Value) {depth depth' : Nat}
    (h : depth ≤ depth') :
    below.Rel Eq (v.resolve (d.guardedWithin depth [])) (v.resolve (d.guardedWithin depth' [])) := by
  induction h with
  | refl => exact below_iff.2 (.inr rfl)
  | @step depth' _ ih =>
    exact below_trans ih
      ((Simulation.Steps.of_eq (d.guardedWithin_below_succ depth' [])).resolve_eq v)

theorem resolve_of_follow {v : Value} {depth : Nat} {x : Attempt Value}
    (hx : v.resolve (d.followWithin depth) = x) (h : x ≠ .exhausted) :
    ended (d.resolve v) = x := by
  subst hx
  have guarded := (Simulation.Steps.of_eq fun p =>
    d.follow_below_guarded depth [] p fun _ hq => nomatch hq).resolve_eq v
  have same := (below_iff.1 guarded).resolve_left h
  rw [same] at h ⊢
  rw [resolve_exact]
  rcases Nat.le_total depth (d.rounds + 1) with hle | hle
  · exact ((below_iff.1 (d.resolve_guarded_mono v hle)).resolve_left h).symm
  · refine (below_iff.1 (d.resolve_guarded_mono v hle)).resolve_left ?_
    rw [← resolve_exact]
    exact ended_ne_exhausted _

theorem follow_of_resolve {v : Value} (h : ∀ e, d.resolve v = .error e → ¬ e.IsCycle) :
    v.resolve (d.followWithin (d.rounds + 1)) = ended (d.resolve v) := by
  have alike := (Simulation.Steps.of_eq (d.guarded_upTo_follow (d.rounds + 1) [])).resolve_eq v
  rw [← resolve_exact] at alike
  rcases alike with hcut | ⟨e, he, hcycle⟩ | hagree
  · exact absurd hcut (ended_ne_exhausted _)
  · exact absurd hcycle (h e (ended_eq_failed.1 he))
  · exact (agree_eq_iff.1 hagree).1.symm

theorem follow_of_resolve_ok {v w : Value} (h : d.resolve v = .ok w) :
    v.resolve (d.followWithin (d.rounds + 1)) = .done w := by
  rw [follow_of_resolve fun e he => by simp [h] at he, ended_eq_done, h]

theorem isDangling_of_follow {v : Value} {depth : Nat} {e : Error}
    (h : v.resolve (d.followWithin depth) = .failed e) : e.IsDangling := by
  have alike := (Simulation.Steps.of_eq (d.followWithin_dangling depth)).resolve_eq v
  rw [h] at alike
  rcases alike with hcut | ⟨_, _, hfalse⟩ | hagree
  · cases hcut
  · exact hfalse.elim
  · cases hagree with
    | failed he => exact he.2

theorem isDangling_or_isCycle {v : Value} {e : Error} (h : d.resolve v = .error e) :
    e.IsDangling ∨ e.IsCycle := by
  by_cases hcycle : e.IsCycle
  · exact .inr hcycle
  · have hfollow := follow_of_resolve (d := d) (v := v) fun e' he' => by
      rw [h] at he'
      cases he'
      exact hcycle
    rw [ended_eq_failed.2 h] at hfollow
    exact .inl (isDangling_of_follow hfollow)

/-- The stack is exact, and with it every resolution ends: at some depth it ends as the document
resolves; without the stack the same values and the same dangling references come out at some
depth, and nothing at any depth just where a cycle is reported. -/
theorem resolve_iff_follow (d : Document) (v : Value) :
    (∃ depth, v.resolve (d.guardedWithin depth []) = ended (d.resolve v)) ∧
    (∀ w, d.resolve v = .ok w ↔ ∃ depth, v.resolve (d.followWithin depth) = .done w) ∧
    (∀ e, d.resolve v = .error e ∧ e.IsDangling ↔
      ∃ depth, v.resolve (d.followWithin depth) = .failed e) ∧
    ((∃ e, d.resolve v = .error e ∧ e.IsCycle) ↔
      ∀ depth, v.resolve (d.followWithin depth) = .exhausted) := by
  refine ⟨⟨_, (d.resolve_exact v).symm⟩, fun w => ⟨fun h => ?_, ?_⟩, fun e => ⟨?_, ?_⟩, ?_, ?_⟩
  · refine ⟨d.rounds + 1, ?_⟩
    rw [follow_of_resolve fun e he => by simp [h] at he, ended_eq_done, h]
  · rintro ⟨depth, h⟩
    exact ended_eq_done.1 (resolve_of_follow h nofun)
  · rintro ⟨h, he⟩
    refine ⟨d.rounds + 1, ?_⟩
    rw [follow_of_resolve ?_, ended_eq_failed, h]
    intro e' he'
    rw [h, Except.error.injEq] at he'
    exact he' ▸ he.not_isCycle
  · rintro ⟨depth, h⟩
    exact ⟨ended_eq_failed.1 (resolve_of_follow h nofun), isDangling_of_follow h⟩
  · rintro ⟨e, h, he⟩ depth
    by_contra hne
    have same := resolve_of_follow rfl hne
    exact (isDangling_of_follow (same ▸ ended_eq_failed.2 h)).not_isCycle he
  · intro hcut
    by_contra hno
    have same := follow_of_resolve (d := d) (v := v) fun e he hcycle => hno ⟨e, he, hcycle⟩
    exact ended_ne_exhausted _ (same.symm.trans (hcut _))

end Document

end Loon
